import MiniTcg.Lib.Run
import MiniTcg.Server.Worker

/-!
# All workers on one store

The accept loop forks a worker for each connection; any number of them run on
the shared store. One act is a fork, a packet handed to a worker (or the loss of
its connection), or one whole `ipc` call of a worker with the private code after
it; `Server.Overlap` says when calls that overlap come to the same. `holders` is
a history variable: the workers whose copy of a session is the pair the store
holds, because no other worker has stored a different one since they last loaded
or saved it.
-/
namespace MiniTcg.Server

open MiniTcg.Game MiniTcg.Ipc MiniTcg.Wire

structure Fleet where
  store : Store
  workers : List Worker
  holders : List (ℕ × UInt64)

inductive Act
  | fork (rng : ℕ → ℕ)
  | recv (i : ℕ) (r : Option Packet)
  | ipc (i : ℕ) (env : AllocEnv)

/-- The store holds the state and hand of `g` for `sid`, log aside. -/
def Holds (store : Store) (sid : UInt64) (g : Match) : Prop :=
  (store.lookup sid).map (fun p => (p.1.toCore, p.2)) = some (g.st.toCore, g.hand)

instance (store : Store) (sid : UInt64) (g : Match) : Decidable (Holds store sid g) :=
  inferInstanceAs (Decidable (_ = _))

/-- The holders after worker `i` has made its pending call. -/
def Fleet.held (s : Fleet) (i : ℕ) (w : Worker) (env : AllocEnv) : List (ℕ × UInt64) :=
  match w.pc with
  | .alloc _ =>
    let sid := (ipcAllocSession s.store env).2
    if sid = 0 then s.holders else (i, sid) :: s.holders
  | .load sid => if (s.store.lookup sid).isSome then (i, sid) :: s.holders else s.holders
  | .save _ _ =>
    if Holds s.store w.mySid w.game then s.holders
    else (i, w.mySid) :: s.holders.filter (fun h => h.2 ≠ w.mySid)
  | _ => s.holders

def Fleet.step (s : Fleet) : Act → Fleet
  | .fork rng => { s with workers := s.workers ++ [Worker.init rng] }
  | .recv i r => { s with workers := s.workers.modify i (·.onRecv r) }
  | .ipc i env =>
    match s.workers[i]? with
    | none => s
    | some w =>
      let r := w.onIpc s.store env
      ⟨r.2, s.workers.set i r.1, s.held i w env⟩

def Fleet.start : Fleet := ⟨Store.zero, [], []⟩

def runFleet (acts : List Act) : Fleet := acts.foldl Fleet.step Fleet.start

/-! ### Private invariants -/

/-- What a worker knows of its own state, whatever the others do: before it is
attached it is zeroed, and a pending save is the result of an action on an open
game. -/
def Worker.Ok (w : Worker) : Prop :=
  match w.pc with
  | .handshake | .load _ => w.game.st = State.zero ∧ w.game.hand = Hand.zero
  | .alloc base => base.st = State.zero ∧ base.hand = Hand.zero ∧ w.game = loginGame base
  | .save a base => w.game = a.apply base ∧ base.st.gameOver = 0
  | _ => True

section Ok
variable {w : Worker}

theorem Worker.Ok.alloc (h : w.Ok) {base : Match} (hpc : w.pc = .alloc base) :
    base.st = State.zero ∧ base.hand = Hand.zero ∧ w.game = loginGame base := by
  unfold Worker.Ok at h
  rwa [hpc] at h

theorem Worker.Ok.save (h : w.Ok) {a : Action} {base : Match} (hpc : w.pc = .save a base) :
    w.game = a.apply base ∧ base.st.gameOver = 0 := by
  unfold Worker.Ok at h
  rwa [hpc] at h

theorem Worker.Ok.greeting (h : w.Ok) (hpc : w.pc = .handshake ∨ ∃ sid, w.pc = .load sid) :
    w.game.st = State.zero ∧ w.game.hand = Hand.zero := by
  unfold Worker.Ok at h
  rcases hpc with hpc | ⟨sid, hpc⟩
  · rwa [hpc] at h
  · rwa [hpc] at h

theorem act_ok (a : Action) (hlive : w.game.st.gameOver = 0) : (w.act a).Ok := ⟨rfl, hlive⟩

theorem loopTop_ok (w : Worker) : w.loopTop.Ok := by
  unfold Worker.loopTop
  split
  · rename_i hdue
    exact act_ok _ hdue.2
  · trivial

theorem dispatch_ok (w : Worker) (p : Packet) : (w.dispatch p).Ok := by
  rcases dispatch_cases w p with
    ⟨w', hw, _, _⟩ | ⟨hlive, _, _, idx, hw, _, _⟩ | ⟨hlive, _, hw, _, _⟩
  · rw [hw]
    exact loopTop_ok w'
  · rcases hw with hw | ⟨rc, hw⟩
    · rw [hw]
      exact act_ok _ hlive
    · rw [hw]
      exact ⟨rfl, hlive⟩
  · rw [hw]
    exact act_ok _ hlive

theorem afterSave_ok (w : Worker) (a : Action) : (w.afterSave a).Ok := by
  cases a with
  | login => exact loopTop_ok _
  | play idx => exact loopTop_ok _
  | endTurn =>
    rw [Worker.afterSave]
    split
    · rename_i hdue
      exact act_ok _ hdue.2
    · exact loopTop_ok _
  | aiTurn top =>
    cases top with
    | false => exact loopTop_ok _
    | true => trivial

theorem onRecv_ok (h : w.Ok) (r : Option Packet) : (w.onRecv r).Ok := by
  unfold Worker.onRecv
  split
  · rename_i p hpc
    have hz := h.greeting (Or.inl hpc)
    unfold Worker.greet
    split
    · unfold Worker.Ok Worker.send
      rw [hpc]
      exact hz
    · split
      · exact ⟨hz.1, hz.2, rfl⟩
      · split
        · split
          · trivial
          · exact hz
        · exact h
  · trivial
  · trivial
  · trivial
  · exact h

theorem onIpc_ok (h : w.Ok) (s : Store) (env : AllocEnv) : (w.onIpc s env).1.Ok := by
  unfold Worker.onIpc
  split
  · rename_i base hpc
    obtain ⟨hst, _, hgame⟩ := h.alloc hpc
    simp only
    split
    · trivial
    · refine ⟨hgame, ?_⟩
      rw [hst]
      rfl
  · rename_i sid hpc
    have hz := h.greeting (Or.inr ⟨sid, hpc⟩)
    simp only
    split
    · exact loopTop_ok _
    · exact hz
  · exact afterSave_ok _ _
  · exact dispatch_ok _ _
  · exact h

theorem init_ok (rng : ℕ → ℕ) : (Worker.init rng).Ok := ⟨rfl, rfl⟩

end Ok

/-! ### The invariant rule of a fleet -/

/-- A property `I` of the store and `P` of every worker that all steps under the
condition `C` preserve hold at the end of every such run. -/
theorem fleet_invariant {P : Worker → Prop} {I : Store → Prop} {C : Fleet → Act → Prop}
    (start : I Store.zero) (init : ∀ rng, P (Worker.init rng)) (recv : ∀ w r, P w → P (w.onRecv r))
    (ipc : ∀ s i env w, C s (.ipc i env) → s.workers[i]? = some w → I s.store → P w →
      I (w.onIpc s.store env).2 ∧ P (w.onIpc s.store env).1)
    {acts : List Act} (h : Run.Along Fleet.step C Fleet.start acts) :
    I (runFleet acts).store ∧ ∀ w ∈ (runFleet acts).workers, P w := by
  refine Run.invariant (I := fun s : Fleet => I s.store ∧ ∀ w ∈ s.workers, P w) ?_
    ⟨start, fun w hw => absurd hw List.not_mem_nil⟩ h
  rintro s act hc ⟨hi, hw⟩
  cases act with
  | fork rng =>
    refine ⟨hi, fun w hm => ?_⟩
    rcases List.mem_append.mp hm with hm | hm
    · exact hw w hm
    · rw [List.mem_singleton.mp hm]
      exact init rng
  | recv i r => exact ⟨hi, Scan.modify_forall hw (fun w => recv w r) i⟩
  | ipc i env =>
    cases hg : s.workers[i]? with
    | none =>
      simp only [Fleet.step, hg]
      exact ⟨hi, hw⟩
    | some w =>
      obtain ⟨hi', hp⟩ := ipc s i env w hc hg hi (hw w (List.mem_of_getElem? hg))
      simp only [Fleet.step, hg]
      exact ⟨hi', Scan.set_forall hw hp⟩

end MiniTcg.Server
