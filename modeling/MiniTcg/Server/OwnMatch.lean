import MiniTcg.Server.Fleet
import MiniTcg.Server.Session

/-!
# The match in a worker's memory

After its handshake a worker never reads the store again. From the login or the loaded
table on, its match and what it shows of it depend on the packets of its own client and on
its own draws, and on nothing any other worker does to the store.
-/
namespace MiniTcg.Server

open MiniTcg.Game MiniTcg.Ipc MiniTcg.Wire

/-- The match after the packets `ps`; an AI turn that is due comes first. -/
def continued (base : Match) (ps : List Packet) : Match := ps.foldl onPacket (settle base)

/-- What a resume of the pair leaves in the worker's memory. -/
def resumed (rng : ℕ → ℕ) (st : State) (hand : Hand) : Match :=
  { origin rng with st := pushLog st (text "Player Resumed Session"), hand := hand }

/-- The match a worker started from, by what it told its client: that of a login, or the
pair it sent behind the reply to a resume with no login before. -/
inductive Base (rng : ℕ → ℕ) (io : List Io) : Match → Prop
  | login (told : .sent (.loginResp 1) ∈ io) : Base rng io (loginGame (origin rng))
  | resume {before : List Io} {sid : UInt64} {st : State} {hand : Hand}
      (first : .sent (.loginResp 1) ∉ before)
      (told : .sent (.hand hand) :: .sent (.state st) :: .sent (.resumeResp 1 sid) :: before <:+ io) :
      Base rng io (resumed rng st hand)

section Continued
variable {g base : Match}

theorem settle_not_due (g : Match) : ¬ (settle g).st.aiDue := by
  unfold settle
  split
  · rename_i hdue
    rintro ⟨hturn, hlive⟩
    rcases processAiTurn_result hdue.1 with hover | ⟨hmine, _, _⟩
    · exact hover hlive
    · rw [hmine] at hturn
      cases hturn
  · assumption

theorem playerPlay_turn (g : Match) (idx : UInt8) : (playerPlay g idx).st.turn = g.st.turn := by
  cases h : playable g.st.toCore g.hand idx with
  | none => simp only [playerPlay, handlePlayCard_refused .player h]
  | some card => simp only [playerPlay, (handlePlayCard_ok .player h).2, Core.played_turn]

/-- A packet never leaves an AI turn due that was not. -/
theorem onPacket_not_due (h : ¬ g.st.aiDue) (p : Packet) : ¬ (onPacket g p).st.aiDue := by
  unfold onPacket
  split
  · exact h
  · rename_i hopen
    have hturn : g.st.turn = 0 := by
      by_contra hturn
      exact hopen (Or.inr (Or.inr hturn))
    split
    · split
      · split
        · rintro ⟨hdue, _⟩
          rw [playerPlay_turn, hturn] at hdue
          cases hdue
        · exact h
      · exact h
    · split
      · rw [fullTurn]
        exact settle_not_due _
      · exact h

theorem continued_append (base : Match) (ps : List Packet) (p : Packet) :
    continued base (ps ++ [p]) = onPacket (continued base ps) p := by
  unfold continued
  rw [List.foldl_append]
  rfl

theorem continued_not_due (base : Match) (ps : List Packet) : ¬ (continued base ps).st.aiDue := by
  induction ps using List.reverseRecOn with
  | nil => exact settle_not_due base
  | append_singleton ps p ih =>
    rw [continued_append]
    exact onPacket_not_due ih p

/-- From a login on it is the playout. -/
theorem continued_login (rng : ℕ → ℕ) (ps : List Packet) :
    continued (loginGame (origin rng)) ps = playout rng ps := by
  have hidle : settle (playout rng []) = playout rng [] := (playout_reachable rng []).2.settle
  have hlogin : playout rng [] = loginGame (origin rng) := rfl
  rw [hlogin] at hidle
  rw [continued, hidle, playout]

end Continued

/-! ### What a worker knows of its own match -/

/-- In the handshake. -/
structure Greets (rng : ℕ → ℕ) (w : Worker) : Prop where
  game : w.game = origin rng
  none : received w.io = []
  first : .sent (.loginResp 1) ∉ w.io

/-- At a point where no result is pending. -/
structure Keeping (rng : ℕ → ℕ) (w : Worker) (base : Match) : Prop where
  started : Base rng w.io base
  same : w.game.Same (continued base (received w.io))
  shown : ¬ base.st.aiDue → Shown w.io (continued base (received w.io))

/-- What is left of the packet's effect at the save of `a`. -/
def Left (rng : ℕ → ℕ) (w : Worker) : Action → Prop
  | .login => w.game = loginGame (origin rng) ∧ received w.io = []
  | .play _ | .aiTurn false =>
    ∃ base, Base rng w.io base ∧ w.game.Same (continued base (received w.io))
  | .endTurn => ∃ base, Base rng w.io base ∧ (settle w.game).Same (continued base (received w.io))
  | .aiTurn true => ∃ base, Base rng w.io base ∧ base.st.aiDue ∧
      w.game.Same (continued base (received w.io))

def Own (rng : ℕ → ℕ) (w : Worker) : Prop :=
  match w.pc with
  | .handshake | .load _ => Greets rng w
  | .alloc base => base = origin rng ∧ w.game = loginGame (origin rng) ∧ received w.io = []
  | .save a _ => Left rng w a
  | .recv | .touch _ => ∃ base, Keeping rng w base
  | .closed => True

section Own
variable {rng : ℕ → ℕ} {w w' : Worker} {base : Match}

theorem Own.greeting (h : Own rng w) (hpc : w.pc = .handshake ∨ ∃ sid, w.pc = .load sid) :
    Greets rng w := by
  unfold Own at h
  rcases hpc with hpc | ⟨sid, hpc⟩
  · rwa [hpc] at h
  · rwa [hpc] at h

theorem Own.keeping (h : Own rng w) (hpc : w.pc = .recv ∨ ∃ p, w.pc = .touch p) :
    ∃ base, Keeping rng w base := by
  unfold Own at h
  rcases hpc with hpc | ⟨p, hpc⟩
  · rwa [hpc] at h
  · rwa [hpc] at h

theorem Base.mono {io io' : List Io} (h : Base rng io base) (hio : io <:+ io') :
    Base rng io' base := by
  cases h with
  | login told => exact .login (hio.subset told)
  | resume first told => exact .resume first (told.trans hio)

/-- The loop head goes on to `proto_recv` when no AI turn is due. -/
theorem loopTop_recv (h : ¬ w.game.st.aiDue) : w.loopTop = { w with pc := .recv } := if_neg h

theorem Keeping.not_due (h : Keeping rng w base) : ¬ w.game.st.aiDue := by
  rw [h.same.core]
  exact continued_not_due _ _

/-- Showing the table of a match that is up to date. -/
theorem own_table (hbase : Base rng w.io base)
    (hsame : w.game.Same (continued base (received w.io))) : Own rng w.sendTable.loopTop := by
  have hdue : ¬ w.sendTable.game.st.aiDue := by
    show ¬ w.game.st.aiDue
    rw [hsame.core]
    exact continued_not_due _ _
  have hshown : Shown w.sendTable.io (continued base (received w.io)) := by
    have ht := shown_sendTable w
    unfold Shown at ht ⊢
    rwa [hsame.core, hsame.hand] at ht
  rw [loopTop_recv hdue]
  exact ⟨base, hbase.mono ⟨[_, _], rfl⟩, hsame, fun _ => hshown⟩

/-- An answer that leaves the match as the packet does. -/
theorem own_answer (h : Keeping rng w base) (ha : Answers w w') : Own rng w'.loopTop := by
  obtain ⟨hgame, _, hreceived⟩ := ha.frame
  have hdue : ¬ w'.game.st.aiDue := by
    rw [hgame]
    exact h.not_due
  rw [loopTop_recv hdue]
  refine ⟨base, h.started.mono ha.io_suffix, ?_, fun hnot => ?_⟩
  · show w'.game.Same (continued base (received w'.io))
    rw [hgame, hreceived]
    exact h.same
  · show Shown w'.io (continued base (received w'.io))
    rw [hreceived]
    exact ha.shown (h.shown hnot) h.same

theorem own_dispatch (h : Keeping rng w base) (p : Packet) :
    Own rng (Worker.dispatch { w with io := .got p :: w.io } p) := by
  have hbase : Base rng (.got p :: w.io) base := h.started.mono (List.suffix_cons _ _)
  have hsame : (onPacket w.game p).Same (continued base (received (.got p :: w.io))) := by
    rw [received_got, continued_append]
    exact onPacket_same h.same p
  rcases dispatch_cases { w with io := .got p :: w.io } p with
    ⟨w', hw, ha, hon⟩ | ⟨_, _, _, idx, hw, hon, _⟩ | ⟨_, _, hw, hon, _⟩
  · rw [hw]
    change onPacket w.game p = w.game at hon
    rw [hon] at hsame
    have hkeep : Keeping rng { w with io := .got p :: w.io } base := by
      refine ⟨hbase, hsame, fun hnot => ?_⟩
      have hs := h.shown hnot
      have hg := h.same.symm.trans hsame
      unfold Shown at hs ⊢
      rw [← hg.core, ← hg.hand]
      exact hs
    exact own_answer hkeep ha
  · change onPacket w.game p = playerPlay w.game idx at hon
    rw [hon] at hsame
    rcases hw with hw | ⟨rc, hw⟩
    · rw [hw]
      exact ⟨base, hbase, hsame⟩
    · rw [hw]
      exact ⟨base, hbase.mono (List.suffix_cons _ _), hsame⟩
  · change onPacket w.game p = settle (phaseEnd w.game) at hon
    rw [hon] at hsame
    have hleft : Left rng ⟨.save .endTurn w.game, w.mySid, phaseEnd w.game, .got p :: w.io⟩
        .endTurn := ⟨base, hbase, hsame⟩
    rw [hw]
    exact hleft

theorem own_afterSave {a : Action} (h : Left rng w a) : Own rng (w.afterSave a) := by
  cases a with
  | login =>
    obtain ⟨hgame, hnone⟩ := h
    have hsame : w.game.Same (continued (loginGame (origin rng)) (received w.io)) := by
      rw [hnone, continued_login, hgame]
      exact Match.Same.refl _
    rw [Worker.afterSave]
    exact own_table (w := (w.send (.loginResp 1)).send (.resumeResp 1 w.mySid))
      (.login (List.mem_cons_of_mem _ List.mem_cons_self)) hsame
  | play idx =>
    obtain ⟨base, hbase, hsame⟩ := h
    rw [Worker.afterSave]
    exact own_table hbase hsame
  | endTurn =>
    obtain ⟨base, hbase, hsame⟩ := h
    rw [Worker.afterSave]
    split
    · rename_i hdue
      have hsettle : settle w.game = processAiTurn w.game := if_pos hdue
      rw [hsettle] at hsame
      exact ⟨base, hbase, hsame⟩
    · rename_i hdue
      have hsettle : settle w.game = w.game := if_neg hdue
      rw [hsettle] at hsame
      exact own_table hbase hsame
  | aiTurn top =>
    cases top with
    | false =>
      obtain ⟨base, hbase, hsame⟩ := h
      rw [Worker.afterSave]
      exact own_table hbase hsame
    | true =>
      obtain ⟨base, hbase, hdue, hsame⟩ := h
      exact ⟨base, hbase, hsame, fun hnot => absurd hdue hnot⟩

theorem own_attach (h : Greets rng w) (sid : UInt64) (st : State) (hand : Hand) :
    Own rng (w.attach sid st hand) := by
  have hattach : w.attach sid st hand = Worker.loopTop ⟨w.pc, sid, resumed rng st hand,
      .sent (.hand hand) :: .sent (.state st) :: .sent (.resumeResp 1 sid) :: w.io⟩ := by
    simp only [Worker.attach, h.game]
    rfl
  have hbase : Base rng
      (.sent (.hand hand) :: .sent (.state st) :: .sent (.resumeResp 1 sid) :: w.io)
      (resumed rng st hand) := .resume h.first (List.suffix_refl _)
  have hcont : continued (resumed rng st hand) (received w.io) = settle (resumed rng st hand) := by
    rw [h.none]
    rfl
  rw [hattach]
  by_cases hdue : (resumed rng st hand).st.aiDue
  · have hsettle : settle (resumed rng st hand) = processAiTurn (resumed rng st hand) := if_pos hdue
    rw [Worker.loopTop, if_pos hdue]
    refine ⟨resumed rng st hand, hbase, hdue, ?_⟩
    show (processAiTurn _).Same (continued (resumed rng st hand) (received w.io))
    rw [hcont, hsettle]
    exact Match.Same.refl _
  · have hsettle : settle (resumed rng st hand) = resumed rng st hand := if_neg hdue
    rw [loopTop_recv hdue]
    refine ⟨resumed rng st hand, hbase, ?_, fun _ => ?_⟩
    · show Match.Same _ (continued (resumed rng st hand) (received w.io))
      rw [hcont, hsettle]
      exact Match.Same.refl _
    · show Shown _ (continued (resumed rng st hand) (received w.io))
      rw [hcont, hsettle]
      exact ⟨rfl, rfl⟩

theorem own_init (rng : ℕ → ℕ) : Own rng (Worker.init rng) := ⟨rfl, rfl, List.not_mem_nil⟩

/-- A reply of the handshake other than that to a login. -/
theorem Greets.send (h : Greets rng w) {m : Msg} (hm : m ≠ .loginResp 1) : Greets rng (w.send m) where
  game := h.game
  none := h.none
  first := by
    intro hin
    rcases List.mem_cons.mp hin with heq | hold
    · cases heq
      exact hm rfl
    · exact h.first hold

theorem own_onRecv (h : Own rng w) (r : Option Packet) : Own rng (w.onRecv r) := by
  cases hpc : w.pc with
  | handshake =>
    have hgreets := h.greeting (Or.inl hpc)
    cases r with
    | none =>
      simp only [Worker.onRecv, hpc]
      trivial
    | some p =>
      simp only [Worker.onRecv, hpc, Worker.greet]
      split
      · have hsend : Greets rng (w.send .pong) := hgreets.send fun heq => by cases heq
        show Own rng ⟨w.pc, w.mySid, w.game, _⟩
        rw [hpc]
        exact ⟨hsend.game, hsend.none, hsend.first⟩
      · split
        · exact ⟨hgreets.game, by rw [hgreets.game], hgreets.none⟩
        · split
          · split
            · trivial
            · exact ⟨hgreets.game, hgreets.none, hgreets.first⟩
          · exact h
  | recv =>
    obtain ⟨base, hkeep⟩ := h.keeping (Or.inl hpc)
    cases r with
    | none =>
      simp only [Worker.onRecv, hpc]
      trivial
    | some p =>
      simp only [Worker.onRecv, hpc]
      exact ⟨base, hkeep.started, hkeep.same, hkeep.shown⟩
  | alloc base =>
    simp only [Worker.onRecv, hpc]
    exact h
  | load sid =>
    simp only [Worker.onRecv, hpc]
    exact h
  | save a base =>
    simp only [Worker.onRecv, hpc]
    exact h
  | touch p =>
    simp only [Worker.onRecv, hpc]
    exact h
  | closed =>
    simp only [Worker.onRecv, hpc]
    exact h

/-- Whatever the store holds. -/
theorem own_onIpc (h : Own rng w) (s : Store) (env : AllocEnv) : Own rng (w.onIpc s env).1 := by
  cases hpc : w.pc with
  | alloc base =>
    unfold Own at h
    simp only [hpc] at h
    simp only [Worker.onIpc, hpc]
    split
    · trivial
    · exact h.2
  | load sid =>
    have hgreets := h.greeting (Or.inr ⟨sid, hpc⟩)
    simp only [Worker.onIpc, hpc]
    split
    · exact own_attach hgreets _ _ _
    · have hsend : Greets rng (w.send (.resumeResp 0 0)) := hgreets.send fun heq => by cases heq
      exact ⟨hsend.game, hsend.none, hsend.first⟩
  | save a base =>
    unfold Own at h
    simp only [hpc] at h
    simp only [Worker.onIpc, hpc]
    refine own_afterSave ?_
    cases a with
    | login => exact h
    | play idx =>
      obtain ⟨b, hbase, hsame⟩ := h
      exact ⟨b, hbase.mono (List.suffix_cons _ _), hsame⟩
    | endTurn =>
      obtain ⟨b, hbase, hsame⟩ := h
      exact ⟨b, hbase.mono (List.suffix_cons _ _), hsame⟩
    | aiTurn top =>
      cases top with
      | false =>
        obtain ⟨b, hbase, hsame⟩ := h
        exact ⟨b, hbase.mono (List.suffix_cons _ _), hsame⟩
      | true =>
        obtain ⟨b, hbase, hdue, hsame⟩ := h
        exact ⟨b, hbase.mono (List.suffix_cons _ _), hdue, hsame⟩
  | touch p =>
    obtain ⟨base, hkeep⟩ := h.keeping (Or.inr ⟨p, hpc⟩)
    simp only [Worker.onIpc, hpc]
    show Own rng (Worker.dispatch { w with io := .got p :: w.io } p)
    exact own_dispatch hkeep p
  | handshake =>
    simp only [Worker.onIpc, hpc]
    exact h
  | recv =>
    simp only [Worker.onIpc, hpc]
    exact h
  | closed =>
    simp only [Worker.onIpc, hpc]
    exact h

end Own

/-! ### In a fleet -/

/-- The same workers on the same store; `holders` is only a record. -/
def Alike (s t : Fleet) : Prop := s.store = t.store ∧ s.workers = t.workers

theorem alike_step {s t : Fleet} (h : Alike s t) (act : Act) : Alike (s.step act) (t.step act) := by
  obtain ⟨hstore, hworkers⟩ := h
  cases act with
  | fork rng => simp only [Alike, Fleet.step, hstore, hworkers, and_self]
  | recv i r => simp only [Alike, Fleet.step, hstore, hworkers, and_self]
  | ipc i env =>
    simp only [Alike, Fleet.step, hstore, hworkers]
    cases t.workers[i]? with
    | none => exact ⟨hstore, hworkers⟩
    | some worker => exact ⟨rfl, rfl⟩

section Position
variable {s : Fleet} {i : ℕ} {w : Worker}

theorem forked_worker (s : Fleet) (rng : ℕ → ℕ) :
    (s.step (.fork rng)).workers[s.workers.length]? = some (Worker.init rng) := by
  show (s.workers ++ [Worker.init rng])[s.workers.length]? = _
  rw [List.getElem?_append_right (Nat.le_refl _), Nat.sub_self]
  rfl

theorem fork_keeps (hw : s.workers[i]? = some w) (rng : ℕ → ℕ) :
    (s.step (.fork rng)).workers[i]? = some w :=
  (List.getElem?_append_left (List.getElem?_eq_some_iff.mp hw).1).trans hw

theorem recv_worker (hw : s.workers[i]? = some w) (j : ℕ) (r : Option Packet) :
    (s.step (.recv j r)).workers[i]? = some (if j = i then w.onRecv r else w) := by
  show (s.workers.modify j (·.onRecv r))[i]? = _
  rw [List.getElem?_modify, hw]
  rfl

end Position

theorem own_step {rng : ℕ → ℕ} {s : Fleet} {i : ℕ} (act : Act)
    (h : ∃ w, s.workers[i]? = some w ∧ Own rng w) :
    ∃ w, (s.step act).workers[i]? = some w ∧ Own rng w := by
  obtain ⟨w, hw, hown⟩ := h
  have hlt : i < s.workers.length := (List.getElem?_eq_some_iff.mp hw).1
  cases act with
  | fork rng' => exact ⟨w, fork_keeps hw rng', hown⟩
  | recv j r =>
    refine ⟨_, recv_worker hw j r, ?_⟩
    split
    · exact own_onRecv hown r
    · exact hown
  | ipc j env =>
    by_cases hj : j = i
    · subst hj
      simp only [Fleet.step, hw]
      exact ⟨_, List.getElem?_set_self hlt, own_onIpc hown _ _⟩
    · cases hg : s.workers[j]? with
      | none =>
        simp only [Fleet.step, hg]
        exact ⟨w, hw, hown⟩
      | some other =>
        simp only [Fleet.step, hg]
        exact ⟨w, (List.getElem?_set_ne hj).trans hw, hown⟩

/-- Any worker of any run that waits for a packet: its match is its own packets played from
the login or from the table it was resumed with, with its own draws. The last table it
showed is that match, unless the AI was to move in the table it resumed. -/
theorem own_match (pre post : List Act) (rng : ℕ → ℕ) :
    let s := runFleet (pre ++ .fork rng :: post)
    ∃ w, s.workers[(runFleet pre).workers.length]? = some w ∧
      (w.pc = .recv → ∃ base, Base rng w.io base ∧
        w.game.Same (continued base (received w.io)) ∧
        (¬ base.st.aiDue → Shown w.io (continued base (received w.io)))) := by
  intro s
  have hrun : s = post.foldl Fleet.step ((runFleet pre).step (.fork rng)) := by
    show runFleet _ = _
    simp only [runFleet, List.foldl_append, List.foldl_cons]
  obtain ⟨w, hw, hown⟩ : ∃ w, s.workers[(runFleet pre).workers.length]? = some w ∧ Own rng w := by
    rw [hrun]
    exact Run.foldl_invariant
      (I := fun t : Fleet => ∃ w, t.workers[(runFleet pre).workers.length]? = some w ∧ Own rng w)
      (fun _ act ht => own_step act ht) post ⟨_, forked_worker _ rng, own_init rng⟩
  refine ⟨w, hw, fun hpc => ?_⟩
  obtain ⟨base, hkeep⟩ := hown.keeping (Or.inl hpc)
  exact ⟨base, hkeep.started, hkeep.same, hkeep.shown⟩

end MiniTcg.Server
