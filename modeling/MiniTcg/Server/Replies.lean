import MiniTcg.Server.Serve

/-!
# What a packet is answered with

`reply` lists the packets a waiting worker sends for a received one. A worker
that has read the packet `Owes` the rest of them: every `ipc` step sends some of
what is owed, whatever the store holds, and after at most three steps the worker
waits again with nothing owed.
-/
namespace MiniTcg.Server

open MiniTcg.Game MiniTcg.Ipc MiniTcg.Wire

def Io.msg? : Io → Option Msg
  | .sent m => some m
  | _ => none

/-- The packets sent, oldest first. -/
def sent (io : List Io) : List Msg := (io.filterMap Io.msg?).reverse

def table (g : Match) : List Msg := [.state g.st, .hand g.hand]

def reply (g : Match) (p : Packet) : List Msg :=
  if p.op = opPing then [.pong]
  else if g.st.gameOver ≠ 0 then table g
  else if p.op = opPlayCard then
    match p.payload with
    | [idx] =>
      let rc := (handlePlayCard g.st g.hand .player idx).2
      (if rc = 0 then [] else [playError rc]) ++ table (playerPlay g idx)
    | _ => [.error (-10) "bad payload"]
  else if p.op = opEndTurn then table (fullTurn g)
  else if p.op = opLoginReq ∨ p.op = opResumeReq then []
  else [.error (-99) "unknown opcode"]

/-! ### What a worker still owes -/

theorem sent_send (w : Worker) (m : Msg) : sent (w.send m).io = sent w.io ++ [m] := by
  simp [Worker.send, sent, Io.msg?]

theorem sent_sendTable (w : Worker) : sent w.sendTable.io = sent w.io ++ table w.game := by
  unfold Worker.sendTable
  rw [sent_send, sent_send, List.append_assoc]
  rfl

theorem sent_saved (a : Action) (st : State) (hand : Hand) (rc : ℤ) (io : List Io) :
    sent (.saved a st hand rc :: io) = sent io := rfl

/-- In at most `n` steps the worker waits with the match `g`, `out` sent in all. -/
inductive Owes (g : Match) (out : List Msg) : ℕ → Worker → Prop
  | waiting {n : ℕ} {w : Worker} (pc : w.pc = .recv) (game : w.game = g) (sent : sent w.io = out) :
      Owes g out n w
  | touched {n : ℕ} {w : Worker} {p : Packet} (pc : w.pc = .touch p)
      (idle : Idle w.game.st.toCore) (game : onPacket w.game p = g)
      (sent : sent w.io ++ reply w.game p = out) : Owes g out (n + 3) w
  | ending {n : ℕ} {w : Worker} {base : Match} (pc : w.pc = .save .endTurn base)
      (game : settle w.game = g) (sent : sent w.io ++ table g = out) : Owes g out (n + 2) w
  | saving {n : ℕ} {w : Worker} {a : Action} {base : Match} (pc : w.pc = .save a base)
      (last : a = .aiTurn false ∨ ∃ idx, a = .play idx) (game : w.game = g)
      (sent : sent w.io ++ table g = out) : Owes g out (n + 1) w
  | login {n : ℕ} {w : Worker} {base : Match} (pc : w.pc = .save .login base) (game : w.game = g)
      (sent : sent w.io ++ ([.loginResp 1, .resumeResp 1 w.mySid] ++ table g) = out) :
      Owes g out (n + 1) w

section Owes
variable {g : Match} {out : List Msg} {n : ℕ} {w : Worker}

/-- Back at the head of the loop with nothing owed. -/
theorem owes_loopTop (hi : Idle g.st.toCore) (hg : w.game = g) (hs : sent w.io = out) :
    Owes g out n w.loopTop := by
  rw [loopTop_idle (hg ▸ hi)]
  exact .waiting rfl hg hs

theorem owes_sendTable (hi : Idle g.st.toCore) (hg : w.game = g)
    (hs : sent w.io ++ table g = out) : Owes g out n w.sendTable.loopTop := by
  refine owes_loopTop hi hg ?_
  rw [sent_sendTable, hg, hs]

theorem owes_dispatch {p : Packet} (hi : Idle w.game.st.toCore) :
    Owes (onPacket w.game p) (sent w.io ++ reply w.game p) (n + 2) (w.dispatch p) := by
  have hafter : Idle (onPacket w.game p).st.toCore := (onPacket_steps hi p).2
  obtain ⟨op, payload⟩ := p
  unfold Worker.dispatch onPacket reply at *
  by_cases hping : op = opPing
  · simp only [hping, if_true, true_or] at hafter ⊢
    exact owes_loopTop hafter rfl (sent_send _ _)
  by_cases hover : w.game.st.gameOver = 0
  swap
  · simp only [hping, hover, if_false, if_true, false_or, true_or, not_false_eq_true, ne_eq]
      at hafter ⊢
    exact owes_loopTop hafter rfl (sent_sendTable _)
  obtain ⟨hturn, hmain⟩ : w.game.st.turn = 0 ∧ w.game.st.phase = .main :=
    hi.resolve_left fun h => h hover
  simp only [hping, hover, hturn, hmain, if_false, if_true, false_or, ne_eq, not_true_eq_false]
    at hafter ⊢
  by_cases hplay : op = opPlayCard
  · simp only [hplay, if_true] at hafter ⊢
    rcases payload with _ | ⟨idx, _ | ⟨_, _⟩⟩
    · exact owes_loopTop hafter rfl (sent_send _ _)
    · simp only
      split
      · exact .saving rfl (Or.inr ⟨idx, rfl⟩) rfl rfl
      · refine .saving rfl (Or.inr ⟨idx, rfl⟩) rfl ?_
        rw [sent_send, List.append_assoc]
        rfl
    · exact owes_loopTop hafter rfl (sent_send _ _)
  · simp only [hplay, if_false] at hafter ⊢
    split
    · have hturns : settle (w.act .endTurn).game = fullTurn w.game := by
        rw [Worker.act, Action.apply, fullTurn]
      exact .ending rfl hturns rfl
    · rename_i hend
      simp only [hend, if_false] at hafter ⊢
      split
      · exact owes_loopTop hafter rfl (List.append_nil _).symm
      · exact owes_loopTop hafter rfl (sent_send _ _)

/-- An `ipc` step pays some of what is owed. -/
theorem Owes.step (h : Owes g out (n + 1) w) (hi : Idle g.st.toCore) (s : Store) (env : AllocEnv) :
    Owes g out n (w.onIpc s env).1 := by
  cases h with
  | waiting pc game hs =>
    simp only [Worker.onIpc, pc]
    exact .waiting pc game hs
  | @touched m _ p pc idle game hs =>
    simp only [Worker.onIpc, pc]
    rw [← hs, ← game]
    exact owes_dispatch (w := ⟨.touch p, w.mySid, w.game, .got p :: w.io⟩) idle
  | ending pc game hs =>
    simp only [Worker.onIpc, pc, Worker.afterSave]
    unfold settle at game
    split
    · rename_i hdue
      rw [if_pos hdue] at game
      exact .saving rfl (Or.inl rfl) game hs
    · rename_i hdue
      rw [if_neg hdue] at game
      exact owes_sendTable hi game hs
  | saving pc last game hs =>
    simp only [Worker.onIpc, pc]
    rcases last with rfl | ⟨idx, rfl⟩
    · exact owes_sendTable hi game hs
    · exact owes_sendTable hi game hs
  | login pc game hs =>
    simp only [Worker.onIpc, pc, Worker.afterSave]
    refine owes_sendTable hi game ?_
    rw [sent_send, sent_send, sent_saved, ← hs]
    simp

theorem Owes.done (h : Owes g out 0 w) : w.pc = .recv := by
  cases h with
  | waiting pc _ _ => exact pc

theorem Owes.at_recv (h : Owes g out n w) (hpc : w.pc = .recv) : w.game = g ∧ sent w.io = out := by
  cases h with
  | waiting _ game hs => exact ⟨game, hs⟩
  | touched pc _ _ _ => cases pc.symm.trans hpc
  | ending pc _ _ => cases pc.symm.trans hpc
  | saving pc _ _ _ => cases pc.symm.trans hpc
  | login pc _ _ => cases pc.symm.trans hpc

theorem Owes.mono {m : ℕ} (h : Owes g out n w) (hm : n ≤ m) : Owes g out m w := by
  obtain ⟨k, rfl⟩ := Nat.exists_eq_add_of_le' hm
  cases h with
  | waiting pc game hs => exact .waiting pc game hs
  | touched pc idle game hs => exact .touched (n := _) pc idle game hs
  | ending pc game hs => exact .ending pc game hs
  | saving pc last game hs => exact .saving pc last game hs
  | login pc game hs => exact .login pc game hs

/-- Nothing but what is owed is ever sent. -/
theorem Owes.sent_of_out (h : Owes g out n w) : sent w.io <+: out := by
  cases h with
  | waiting _ _ hs => exact hs ▸ List.prefix_refl _
  | touched _ _ _ hs => exact hs ▸ List.prefix_append _ _
  | ending _ _ hs => exact hs ▸ List.prefix_append _ _
  | saving _ _ _ hs => exact hs ▸ List.prefix_append _ _
  | login _ _ hs => exact hs ▸ List.prefix_append _ _

end Owes

/-! ### Until the worker waits again -/

/-- A step that hands the worker no packet: its own `ipc` calls, and the store
calls of other processes, whatever they are. -/
def Move.quiet : Move → Bool
  | .ipc _ | .other _ => true
  | .recv _ | .reconnect => false

def Move.isIpc : Move → Bool
  | .ipc _ => true
  | _ => false

theorem Owes.run {g : Match} {out : List Msg} (hi : Idle g.st.toCore) {ms : List Move}
    (hq : ∀ m ∈ ms, m.quiet = true) {n : ℕ} {s : Session}
    (h : Owes g out (n + (ms.filter Move.isIpc).length) s.worker) :
    Owes g out n (ms.foldl Session.step s).worker := by
  induction ms generalizing s with
  | nil => exact h
  | cons m ms ih =>
    obtain ⟨hm, hms⟩ := List.forall_mem_cons.mp hq
    refine ih hms ?_
    cases m with
    | recv r => cases hm
    | reconnect => cases hm
    | other c => exact h
    | ipc env => exact Owes.step h hi s.store env

/-- A waiting worker that reads a packet owes its reply. -/
theorem owes_recv {s : Session} (hpc : s.worker.pc = .recv) (hi : Idle s.worker.game.st.toCore)
    (p : Packet) (n : ℕ) :
    Owes (onPacket s.worker.game p) (sent s.worker.io ++ reply s.worker.game p) (n + 3)
      (s.step (.recv (some p))).worker := by
  simp only [Session.step, Worker.onRecv, hpc]
  exact .touched rfl hi rfl rfl

/-! ### Errors that are never sent -/

/-- Neither "not your turn" nor "phase error". -/
def Msg.polite : Msg → Prop
  | .error code _ => code ≠ -11 ∧ code ≠ -12
  | _ => True

theorem table_polite (g : Match) : ∀ m ∈ table g, Msg.polite m :=
  List.forall_mem_cons.mpr ⟨trivial, List.forall_mem_cons.mpr ⟨trivial, List.forall_mem_nil _⟩⟩

theorem playError_polite (rc : ℤ) : Msg.polite (playError rc) := by
  unfold playError
  split
  · exact ⟨by decide, by decide⟩
  · split
    · exact ⟨by decide, by decide⟩
    · exact ⟨by decide, by decide⟩

theorem reply_polite (g : Match) (p : Packet) : ∀ m ∈ reply g p, Msg.polite m := by
  have hone : ∀ {m : Msg}, Msg.polite m → ∀ m' ∈ [m], Msg.polite m' := fun h =>
    List.forall_mem_singleton.mpr h
  unfold reply
  split
  · exact hone trivial
  · split
    · exact table_polite g
    · split
      · split
        · refine List.forall_mem_append.mpr ⟨?_, table_polite _⟩
          split
          · exact List.forall_mem_nil _
          · exact hone (playError_polite _)
        · exact hone ⟨by decide, by decide⟩
      · split
        · exact table_polite _
        · split
          · exact List.forall_mem_nil _
          · exact hone ⟨by decide, by decide⟩

section Session
variable {rng : ℕ → ℕ} {s : Session}

/-- In a session a worker with a pending heartbeat or save owes polite replies. -/
theorem Follows.owes (h : Follows rng s)
    (hpc : (∃ p, s.worker.pc = .touch p) ∨ ∃ a base, s.worker.pc = .save a base) :
    ∃ g new, Owes g (sent s.worker.io ++ new) 3 s.worker ∧ Idle g.st.toCore ∧
      ∀ m ∈ new, Msg.polite m := by
  rcases hpc with ⟨p, hpc⟩ | ⟨a, base, hpc⟩
  · have hi := (h.synced_touch hpc).idle
    exact ⟨_, _, .touched (n := 0) hpc hi rfl rfl, (onPacket_steps hi p).2, reply_polite _ p⟩
  · have hs := h.saving hpc
    have hidle : ∀ {g : Match}, g.Same (s.ref rng) → Idle g.st.toCore := fun hg =>
      hg.core ▸ (ref_reachable s rng).2
    have hends := hs.ends
    cases a with
    | login =>
      refine ⟨_, _, .login (n := 2) hpc rfl rfl, hidle hends, ?_⟩
      exact List.forall_mem_cons.mpr ⟨trivial, List.forall_mem_cons.mpr ⟨trivial, table_polite _⟩⟩
    | play idx =>
      exact ⟨_, _, .saving (n := 2) hpc (Or.inr ⟨idx, rfl⟩) rfl rfl, hidle hends, table_polite _⟩
    | endTurn =>
      exact ⟨_, _, .ending (n := 1) hpc rfl rfl, hidle hends.1, table_polite _⟩
    | aiTurn top =>
      cases top with
      | true => exact hends.elim
      | false =>
        exact ⟨_, _, .saving (n := 2) hpc (Or.inl rfl) rfl rfl, hidle hends, table_polite _⟩

def Polite (s : Session) : Prop := ∀ m ∈ sent s.worker.io, Msg.polite m

theorem polite_send {w : Worker} {m : Msg} (h : ∀ m ∈ sent w.io, Msg.polite m) (hm : Msg.polite m) :
    ∀ m' ∈ sent (w.send m).io, Msg.polite m' := by
  rw [sent_send]
  exact List.forall_mem_append.mpr ⟨h, List.forall_mem_singleton.mpr hm⟩

theorem polite_ipc (h : Follows rng s) (hp : Polite s) (env : AllocEnv) :
    Polite (s.step (.ipc env)) := by
  have howed : ((∃ p, s.worker.pc = .touch p) ∨ ∃ a base, s.worker.pc = .save a base) →
      Polite (s.step (.ipc env)) := by
    intro hpc
    obtain ⟨g, new, howes, hi, hnew⟩ := h.owes hpc
    intro m hm
    have hpre := (howes.step hi s.store env).sent_of_out
    exact List.forall_mem_append.mpr ⟨hp, hnew⟩ m (hpre.subset hm)
  cases hpc : s.worker.pc with
  | touch p => exact howed (Or.inl ⟨p, hpc⟩)
  | save a base => exact howed (Or.inr ⟨a, base, hpc⟩)
  | alloc base =>
    unfold Polite
    simp only [Session.step, Worker.onIpc, hpc]
    split
    · exact polite_send hp ⟨by decide, by decide⟩
    · exact hp
  | load sid =>
    unfold Polite
    simp only [Session.step, Worker.onIpc, hpc]
    split
    · simp only [Worker.attach]
      rw [loopTop_io]
      exact polite_send (polite_send (polite_send hp trivial) trivial) trivial
    · exact polite_send hp trivial
  | handshake | recv | closed =>
    unfold Polite
    simp only [Session.step, Worker.onIpc, hpc]
    exact hp

theorem polite_step (m : Move) (hm : s.Allowed m) (h : Follows rng s ∧ Polite s) :
    Follows rng (s.step m) ∧ Polite (s.step m) := by
  obtain ⟨hf, hp⟩ := h
  refine ⟨follows_step m hm hf, ?_⟩
  cases m with
  | ipc env => exact polite_ipc hf hp env
  | reconnect => exact hp
  | other c => exact hp
  | recv r =>
    show ∀ m ∈ sent (s.worker.onRecv r).io, Msg.polite m
    unfold Worker.onRecv
    split
    · unfold Worker.greet
      split
      · exact polite_send hp trivial
      · split
        · exact hp
        · split
          · split
            · exact hp
            · exact hp
          · exact hp
    all_goals exact hp

/-- No run ever sends one of the two errors. -/
theorem Single.polite {ms : List Move} (h : Single rng ms) : Polite (runSession rng ms) :=
  (Run.invariant (I := fun s => Follows rng s ∧ Polite s) (fun _ m hm => polite_step m hm)
    ⟨follows_start rng, fun _ hm => absurd hm List.not_mem_nil⟩ h).2

end Session

/-- The packets that change the match of a running game. -/
def Changes (g : Match) (p : Packet) : Prop :=
  g.st.gameOver = 0 ∧ (p.op = opEndTurn ∨
    ∃ idx, p = ⟨opPlayCard, [idx]⟩ ∧ (handlePlayCard g.st g.hand .player idx).2 = 0)

theorem onPacket_unchanged {g : Match} (p : Packet) (h : ¬ Changes g p) :
    (onPacket g p).st = g.st ∧ (onPacket g p).hand = g.hand := by
  obtain ⟨op, payload⟩ := p
  unfold onPacket
  split
  · exact ⟨rfl, rfl⟩
  · rename_i hg
    simp only [not_or, not_not] at hg
    split
    · rename_i hop
      simp only at hop
      subst hop
      split
      · rename_i idx hpay
        simp only at hpay
        split
        · refine ⟨?_, rfl⟩
          have hrc : (handlePlayCard g.st g.hand .player idx).2 ≠ 0 := fun hz =>
            h ⟨hg.2.1, Or.inr ⟨idx, by rw [hpay], hz⟩⟩
          exact (handlePlayCard_codes g.st g.hand .player idx).2.2.2.1 hrc
        · exact ⟨rfl, rfl⟩
      · exact ⟨rfl, rfl⟩
    · split
      · rename_i hop
        exact absurd ⟨hg.2.1, Or.inl hop⟩ h
      · exact ⟨rfl, rfl⟩

/-- A packet read by a waiting worker: the codes of a play, which packets change
the match, the exact replies once the worker waits again, after at most three
calls and whatever other processes do to the store, and the two errors that are
never sent. -/
theorem replies_exact {rng : ℕ → ℕ} {ms : List Move} (h : Single rng ms)
    (hpc : (runSession rng ms).worker.pc = .recv) (p : Packet) :
    let w := (runSession rng ms).worker
    (∀ idx, ((handlePlayCard w.game.st w.game.hand .player idx).2 = -1 ↔ w.game.hand.n ≤ idx) ∧
      ((handlePlayCard w.game.st w.game.hand .player idx).2 = -3 ↔ idx < w.game.hand.n ∧
        (w.game.hand.card idx.toNat = 0 ∨ getCardDef (w.game.hand.card idx.toNat) = none)) ∧
      ((handlePlayCard w.game.st w.game.hand .player idx).2 = -2 ↔ idx < w.game.hand.n ∧
        ∃ card, getCardDef (w.game.hand.card idx.toNat) = some card ∧ w.game.st.mana < card.cost) ∧
      ((handlePlayCard w.game.st w.game.hand .player idx).2 ≠ 0 →
        (handlePlayCard w.game.st w.game.hand .player idx).1 = w.game.st) ∧
      ∀ card, getCardDef (w.game.hand.card idx.toNat) = some card →
        ∀ st', playEffect st' .player card ≠ none) ∧
    (∀ ms' : List Move, (∀ m ∈ ms', m.quiet = true) →
      let w' := (ms'.foldl Session.step ((runSession rng ms).step (.recv (some p)))).worker
      (3 ≤ (ms'.filter Move.isIpc).length → w'.pc = .recv) ∧
      (w'.pc = .recv → sent w'.io = sent w.io ++ reply w.game p ∧
        (¬ Changes w.game p → w'.game.st = w.game.st ∧ w'.game.hand = w.game.hand))) ∧
    ∀ m ∈ sent w.io, Msg.polite m := by
  intro w
  have hidle : Idle w.game.st.toCore := (h.follows.synced hpc).idle
  refine ⟨fun idx => handlePlayCard_codes w.game.st w.game.hand .player idx, fun ms' hq => ?_,
    h.polite⟩
  intro w'
  have hi := (onPacket_steps hidle p).2
  constructor
  · intro h3
    have howes := Owes.run hi hq (n := 0) ((owes_recv hpc hidle p 0).mono (by omega))
    exact howes.done
  · intro hw'
    have howes := Owes.run hi hq (n := 3) ((owes_recv hpc hidle p 0).mono (by omega))
    obtain ⟨hg, hs⟩ := howes.at_recv hw'
    refine ⟨hs, fun hno => ?_⟩
    rw [hg]
    exact onPacket_unchanged p hno

/-- Slot 7 of the opening hand. -/
theorem replies_exact_slot :
    sent (((servePacket ⟨opPlayCard, [7]⟩).foldl Session.step
        (runSession (fun _ => 0) (serve []))).worker.io) =
      sent (runSession (fun _ => 0) (serve [])).worker.io ++
        reply (runSession (fun _ => 0) (serve [])).worker.game ⟨opPlayCard, [7]⟩ ∧
    (reply (runSession (fun _ => 0) (serve [])).worker.game ⟨opPlayCard, [7]⟩).head? =
      some (.error (-1) "invalid hand idx") := by
  obtain ⟨hs, hpc, _⟩ := serve_run (fun _ => 0) []
  obtain ⟨_, hrun, _⟩ := replies_exact hs hpc ⟨opPlayCard, [7]⟩
  obtain ⟨hwait, hsent⟩ := hrun [.ipc env0, .ipc env0, .ipc env0] (by decide)
  exact ⟨(hsent (hwait (by decide))).1, by decide +kernel⟩

end MiniTcg.Server
