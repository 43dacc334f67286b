import MiniTcg.Server.Fleet
import MiniTcg.Server.Resume

/-!
# What the client was shown last

`OP_END_TURN` saves twice, the first time with the AI's turn still to come. A
worker that resumes the session in between shows the client that state, lets
the AI move at the head of its loop and waits without showing the result. When
no resume loads such a pair, every waiting worker has shown its table.
-/
namespace MiniTcg.Server

open MiniTcg.Game MiniTcg.Ipc MiniTcg.Wire

instance (io : List Io) (g : Match) : Decidable (Shown io g) :=
  inferInstanceAs (Decidable (_ ∧ _))

/-- The game is over or waits for the player. -/
def Calm (c : Core) : Prop := c.gameOver ≠ 0 ∨ c.turn = 0

instance (c : Core) : Decidable (Calm c) := inferInstanceAs (Decidable (_ ∨ _))

theorem Calm.not_due {c : Core} (h : Calm c) : ¬ c.aiDue := by
  rintro ⟨ht, hl⟩
  rcases h with h | h
  · exact h hl
  · rw [h] at ht
    exact absurd ht (by decide)

/-- The client was shown the worker's table, and may move unless it sees the end
of the game. -/
def Worker.Told (w : Worker) : Prop :=
  Shown w.io w.game ∧ ∀ st ∈ (lastState w.io).toList, st.gameOver = 0 → st.turn = 0

instance (w : Worker) : Decidable w.Told := inferInstanceAs (Decidable (_ ∧ _))

/-- A session that is found is not in the middle of an `OP_END_TURN`. -/
def Pc.FindsCalm (store : Store) : Pc → Prop
  | .load sid => ∀ p ∈ (store.lookup sid).toList, Calm p.1.toCore
  | _ => True

instance (store : Store) : (pc : Pc) → Decidable (pc.FindsCalm store)
  | .load sid => inferInstanceAs (Decidable (∀ p ∈ (store.lookup sid).toList, Calm p.1.toCore))
  | .handshake => isTrue trivial
  | .alloc _ => isTrue trivial
  | .save _ _ => isTrue trivial
  | .recv => isTrue trivial
  | .touch _ => isTrue trivial
  | .closed => isTrue trivial

def FindsCalm (s : Fleet) : Act → Prop
  | .ipc i _ => ∀ w ∈ s.workers[i]?.toList, w.pc.FindsCalm s.store
  | _ => True

instance (s : Fleet) : (act : Act) → Decidable (FindsCalm s act)
  | .ipc i _ => inferInstanceAs (Decidable (∀ w ∈ s.workers[i]?.toList, w.pc.FindsCalm s.store))
  | .fork _ => isTrue trivial
  | .recv _ _ => isTrue trivial

/-! ### The invariant of a worker -/

/-- What an action may leave: the end of the player's turn the AI's, the others
a calm game. The AI does not move at the head of the loop. -/
def Action.Leaves (c : Core) : Action → Prop
  | .endTurn => c.gameOver ≠ 0 ∨ c.turn = 1
  | .aiTurn true => False
  | _ => Calm c

/-- While it waits a worker has shown its table. -/
def Worker.Fresh (w : Worker) : Prop :=
  match w.pc with
  | .alloc _ => w.game.st.turn = 0
  | .save a _ => a.Leaves w.game.st.toCore
  | .recv | .touch _ => Shown w.io w.game ∧ Calm w.game.st.toCore
  | _ => True

section Fresh
variable {w : Worker}

theorem loopTop_fresh (hs : Shown w.io w.game) (hc : Calm w.game.st.toCore) : w.loopTop.Fresh := by
  have hl : w.loopTop = { w with pc := .recv } := if_neg hc.not_due
  rw [hl]
  exact ⟨hs, hc⟩

theorem sendTable_fresh (hc : Calm w.game.st.toCore) : w.sendTable.loopTop.Fresh :=
  loopTop_fresh (shown_sendTable w) hc

theorem playerPlay_calm {g : Match} (turn : g.st.turn = 0) (idx : UInt8) :
    Calm (playerPlay g idx).st.toCore := by
  refine Or.inr ?_
  cases h : playable g.st.toCore g.hand idx with
  | none =>
    simp only [playerPlay, handlePlayCard_refused .player h]
    exact turn
  | some card =>
    simp only [playerPlay, (handlePlayCard_ok .player h).2, Core.played_turn]
    exact turn

theorem act_fresh (a : Action) (h : a.Leaves (a.apply w.game).st.toCore) : (w.act a).Fresh := h

theorem endTurn_leaves {g : Match} (turn : g.st.turn = 0) :
    Action.endTurn.Leaves (Action.endTurn.apply g).st.toCore := by
  have hg : Action.endTurn.apply g = phaseEnd g := by rw [Action.apply]
  rw [hg, Action.Leaves]
  rcases phaseEnd_result g with hover | ⟨ht, _, _⟩
  · exact Or.inl hover
  · rw [turn, if_pos rfl] at ht
    exact Or.inr ht

theorem processAiTurn_calm {g : Match} (turn : g.st.turn = 1) :
    Calm (processAiTurn g).st.toCore := by
  rcases processAiTurn_result turn with hover | ⟨ht, _, _⟩
  · exact Or.inl hover
  · exact Or.inr ht

theorem dispatch_fresh (hs : Shown w.io w.game) (hc : Calm w.game.st.toCore) (p : Packet) :
    (w.dispatch p).Fresh := by
  rcases dispatch_cases w p with
    ⟨w', hw, ha, _⟩ | ⟨_, hturn, _, idx, hw, _, _⟩ | ⟨_, hturn, hw, _, _⟩
  · obtain ⟨hgame, _, _⟩ := ha.frame
    have hs' := ha.shown hs (Match.Same.refl _)
    rw [← hgame] at hs' hc
    rw [hw]
    exact loopTop_fresh hs' hc
  · rcases hw with hw | ⟨rc, hw⟩
    · rw [hw]
      exact playerPlay_calm hturn idx
    · rw [hw]
      exact playerPlay_calm hturn idx
  · rw [hw]
    exact act_fresh .endTurn (endTurn_leaves hturn)

theorem onRecv_fresh (h : w.Fresh) (r : Option Packet) : (w.onRecv r).Fresh := by
  unfold Worker.onRecv
  split
  · rename_i p hpc
    unfold Worker.greet
    split
    · unfold Worker.Fresh Worker.send
      rw [hpc]
      trivial
    · split
      · rfl
      · split
        · split
          · trivial
          · trivial
        · exact h
  · trivial
  · rename_i hpc
    unfold Worker.Fresh at h
    rw [hpc] at h
    exact h
  · trivial
  · exact h

theorem afterSave_fresh {a : Action} (h : a.Leaves w.game.st.toCore) :
    (w.afterSave a).Fresh := by
  cases a with
  | login => exact sendTable_fresh (w := (w.send _).send _) h
  | play idx => exact sendTable_fresh h
  | endTurn =>
    rw [Worker.afterSave]
    split
    · rename_i hdue
      exact processAiTurn_calm hdue.1
    · rename_i hdue
      refine sendTable_fresh (Or.inl fun hl => ?_)
      rcases h with hover | ht
      · exact hover hl
      · exact hdue ⟨ht, hl⟩
  | aiTurn top =>
    cases top with
    | false => exact sendTable_fresh h
    | true => exact h.elim

theorem attach_fresh (w : Worker) (sid : UInt64) {st : State} (hand : Hand)
    (hc : Calm st.toCore) : (w.attach sid st hand).Fresh :=
  loopTop_fresh ⟨rfl, rfl⟩ hc

theorem onIpc_fresh (h : w.Fresh) {s : Store} (hc : w.pc.FindsCalm s) (env : AllocEnv) :
    (w.onIpc s env).1.Fresh := by
  cases hpc : w.pc with
  | alloc base =>
    unfold Worker.Fresh at h
    rw [hpc] at h
    simp only [Worker.onIpc, hpc]
    split
    · trivial
    · exact Or.inr h
  | load sid =>
    rw [hpc] at hc
    simp only [Worker.onIpc, hpc]
    cases hf : s.lookup sid with
    | none =>
      rw [load_missing _ _ _ _ _ hf]
      trivial
    | some p =>
      simp only [load_found s sid _ _ _ hf, if_true]
      exact attach_fresh w sid p.2 (hc p (Option.mem_toList.mpr hf))
  | save a base =>
    unfold Worker.Fresh at h
    rw [hpc] at h
    simp only [Worker.onIpc, hpc]
    exact afterSave_fresh h
  | touch p =>
    unfold Worker.Fresh at h
    rw [hpc] at h
    have hs : Shown (.got p :: w.io) w.game := h.1
    simp only [Worker.onIpc, hpc]
    exact dispatch_fresh (w := { w with pc := .touch p, io := .got p :: w.io }) hs h.2 p
  | handshake | recv | closed =>
    simp only [Worker.onIpc, hpc]
    exact h

theorem Worker.Fresh.told (h : w.Fresh) (hpc : w.pc = .recv) : w.Told := by
  unfold Worker.Fresh at h
  rw [hpc] at h
  obtain ⟨hs, hc⟩ := h
  refine ⟨hs, fun st hst hl => ?_⟩
  have hcore : st.toCore = w.game.st.toCore := by
    have hlast := hs.1
    rw [Option.mem_toList.mp hst] at hlast
    exact Option.some.inj hlast
  rw [hcore] at hl ⊢
  rcases hc with hover | ht
  · exact absurd hl hover
  · exact ht

end Fresh

/-- In every run whose resumes find no game in the middle of an `OP_END_TURN`,
each waiting worker has shown its client the table. -/
theorem view_never_stale (acts : List Act) (h : Run.Along Fleet.step FindsCalm Fleet.start acts) :
    ∀ w ∈ (runFleet acts).workers, w.pc = .recv → w.Told := by
  have hfresh := fleet_invariant (I := fun _ => True) (P := Worker.Fresh) trivial
    (fun rng => trivial) (fun w r hw => onRecv_fresh hw r)
    (fun s i env w hc hg _ hw => ⟨trivial, onIpc_fresh hw (hc w (Option.mem_toList.mpr hg)) env⟩) h
  intro w hw hpc
  exact (hfresh.2 w hw).told hpc

/-! ### The condition is needed -/

/-- The match a worker has when it has loaded a pair. -/
def resumedGame (w : Worker) (p : State × Hand) : Match :=
  { w.game with st := pushLog p.1 (text "Player Resumed Session"), hand := p.2 }

section Due
variable {w : Worker} {sid : UInt64} {p : State × Hand}

/-- The load shows the table; the AI's turn and its save come after. -/
theorem load_due (hpc : w.pc = .load sid) {s : Store} (hf : s.lookup sid = some p)
    (hdue : p.1.aiDue) (env : AllocEnv) :
    (w.onIpc s env).1 =
      ⟨.save (.aiTurn true) (resumedGame w p), sid, processAiTurn (resumedGame w p),
        .sent (.hand p.2) :: .sent (.state p.1) :: .sent (.resumeResp 1 sid) :: w.io⟩ := by
  simp only [Worker.onIpc, hpc, load_found s sid _ _ _ hf, if_true]
  exact if_pos hdue

/-- After the save the worker waits, and what it showed last is the table it loaded. -/
theorem save_due (hpc : w.pc = .load sid) {s : Store} (hf : s.lookup sid = some p)
    (hdue : p.1.aiDue) (env env' : AllocEnv) (s' : Store) :
    let w' := ((w.onIpc s env).1.onIpc s' env').1
    w'.pc = .recv ∧ lastState w'.io = some p.1 ∧ Calm w'.game.st.toCore := by
  rw [load_due hpc hf hdue]
  exact ⟨rfl, rfl, processAiTurn_calm (g := resumedGame w p) hdue.1⟩

theorem not_told {st : State} (hlast : lastState w.io = some st) (hdue : st.aiDue) : ¬ w.Told := by
  rintro ⟨_, hmove⟩
  have hturn := hmove st (Option.mem_toList.mpr hlast) hdue.2
  rw [hdue.1] at hturn
  exact absurd hturn (by decide)

end Due

theorem ipc_self {s : Fleet} {j : ℕ} {w : Worker} (hw : s.workers[j]? = some w) (env : AllocEnv) :
    (s.step (.ipc j env)).workers[j]? = some (w.onIpc s.store env).1 := by
  simp only [Fleet.step, hw]
  exact List.getElem?_set_self (List.getElem?_eq_some_iff.mp hw).1

/-- Between the load and the save nothing reaches the worker. -/
theorem saving_step {s : Fleet} {j : ℕ} {w : Worker} {a : Action} {base : Match} (act : Act)
    (hact : ∀ env, act ≠ .ipc j env) (hw : s.workers[j]? = some w) (hpc : w.pc = .save a base) :
    (s.step act).workers[j]? = some w := by
  cases act with
  | fork rng =>
    have hlt : j < s.workers.length := (List.getElem?_eq_some_iff.mp hw).1
    exact (List.getElem?_append_left hlt).trans hw
  | recv i r =>
    show (s.workers.modify i (·.onRecv r))[j]? = some w
    have hon : w.onRecv r = w := by simp only [Worker.onRecv, hpc]
    rw [List.getElem?_modify, hw]
    split
    · exact congrArg some hon
    · rfl
  | ipc i env =>
    have hne : i ≠ j := fun hij => hact env (by rw [hij])
    simp only [Fleet.step]
    split
    · exact hw
    · exact (List.getElem?_set_ne hne).trans hw

theorem saving_run {s : Fleet} {j : ℕ} {w : Worker} {a : Action} {base : Match} (acts : List Act)
    (hacts : ∀ env, .ipc j env ∉ acts) (hw : s.workers[j]? = some w) (hpc : w.pc = .save a base) :
    (acts.foldl Fleet.step s).workers[j]? = some w := by
  induction acts generalizing s with
  | nil => exact hw
  | cons act acts ih =>
    refine ih (fun env hmem => hacts env (List.mem_cons_of_mem _ hmem)) ?_
    exact saving_step act (fun env heq => hacts env (heq ▸ List.mem_cons_self)) hw hpc

/-- A worker that resumes a game with the AI to move waits with a stale view: its client
still sees the AI's turn, which is over, whatever the others do before its save. -/
theorem due_resume_stale (acts mid : List Act) (j : ℕ) (env env' : AllocEnv) (w : Worker)
    (sid : UInt64) (p : State × Hand) (hw : (runFleet acts).workers[j]? = some w)
    (hpc : w.pc = .load sid) (hf : (runFleet acts).store.lookup sid = some p)
    (hdue : p.1.aiDue) (hmid : ∀ env, .ipc j env ∉ mid) :
    ∃ w', (runFleet (acts ++ .ipc j env :: (mid ++ [.ipc j env']))).workers[j]? = some w' ∧
      w'.pc = .recv ∧ lastState w'.io = some p.1 ∧ Calm w'.game.st.toCore ∧ ¬ w'.Told := by
  have hsaving : (w.onIpc (runFleet acts).store env).1.pc =
      .save (.aiTurn true) (resumedGame w p) := by rw [load_due hpc hf hdue]
  have hwaits := saving_run mid hmid (ipc_self hw env) hsaving
  have hrun : runFleet (acts ++ .ipc j env :: (mid ++ [.ipc j env'])) =
      (mid.foldl Fleet.step ((runFleet acts).step (.ipc j env))).step (.ipc j env') := by
    simp only [runFleet, List.foldl_append, List.foldl_cons, List.foldl_nil]
  obtain ⟨hrecv, hlast, hcalm⟩ := save_due hpc hf hdue env env'
    (mid.foldl Fleet.step ((runFleet acts).step (.ipc j env))).store
  refine ⟨_, ?_, hrecv, hlast, hcalm, not_told hlast hdue⟩
  rw [hrun]
  exact ipc_self hwaits env'

/-- One worker is between the two saves of an `OP_END_TURN` when another resumes
its session and lets the AI move. -/
def staleActs : List Act :=
  [.fork fun _ => 0, .fork fun _ => 0, .recv 0 (some loginPacket), .ipc 0 env0, .ipc 0 env0,
   .recv 0 (some ⟨opEndTurn, []⟩), .ipc 0 env0, .ipc 0 env0,
   .recv 1 (some resumePacket), .ipc 1 env0, .ipc 1 env0]

/-- The other worker's second save comes between the load and the save of the resume. -/
theorem due_resume_stale_late :
    ∃ w', (runFleet (staleActs.take 9 ++ .ipc 1 env0 ::
        ([.ipc 0 env0] ++ [.ipc 1 env0]))).workers[1]? = some w' ∧ w'.pc = .recv ∧ ¬ w'.Told := by
  have hlt : 1 < (runFleet (staleActs.take 9)).workers.length := by decide +kernel
  have hsome : ((runFleet (staleActs.take 9)).store.lookup 1).isSome := by decide +kernel
  have hdue : (((runFleet (staleActs.take 9)).store.lookup 1).get hsome).1.aiDue := by
    decide +kernel +revert
  obtain ⟨w', hw', hpc, _, _, htold⟩ := due_resume_stale (staleActs.take 9) [.ipc 0 env0] 1
    env0 env0 ((runFleet (staleActs.take 9)).workers.get ⟨1, hlt⟩) 1
    (((runFleet (staleActs.take 9)).store.lookup 1).get hsome) (List.getElem?_eq_getElem hlt) rfl
    (Option.some_get hsome).symm hdue (by simp)
  exact ⟨w', hw', hpc, htold⟩

/-- The client of the second worker is left with the AI's turn. -/
theorem view_stale : ¬ ∀ w ∈ (runFleet staleActs).workers, w.pc = .recv → w.Told := by
  intro h
  have hnot : ¬ ((runFleet staleActs).workers.get ⟨1, by decide +kernel⟩).Told := by decide +kernel
  exact hnot (h _ (List.get_mem _ _) rfl)

/-- The resume after the second save of the `OP_END_TURN`. -/
theorem view_never_stale_late :
    ((runFleet (staleActs.take 8 ++ [.ipc 0 env0] ++ staleActs.drop 8)).workers.get
      ⟨1, by decide +kernel⟩).Told :=
  view_never_stale (staleActs.take 8 ++ [.ipc 0 env0] ++ staleActs.drop 8) (by decide +kernel) _
    (List.get_mem _ _) rfl

end MiniTcg.Server
