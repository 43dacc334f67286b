import MiniTcg.Ipc.Capacity
import MiniTcg.Server.Fleet
import MiniTcg.Server.Replies

/-!
# How many players the server ever takes

The table of sessions has `MAX_SESSIONS` slots and nothing empties one: not the end of a
game, not the exit of a worker. The first 128 logins that reach `ipc_alloc_session` get
a session and keep it; every later one is refused.
-/
namespace MiniTcg.Server

open MiniTcg.Game MiniTcg.Ipc MiniTcg.Wire

/-- The pending call of a worker. -/
def Worker.call? (w : Worker) (env : AllocEnv) : Option Call :=
  match w.pc with
  | .alloc _ => some (.alloc env)
  | .load sid => some (.load sid w.game.st w.game.hand env.seen)
  | .save _ _ => some (.save w.mySid w.game.st w.game.hand env.seen)
  | .touch _ => some (.touch w.mySid env.seen)
  | _ => none

section Call
variable {w : Worker} {s : Store} {env : AllocEnv}

/-- A worker changes the store by its pending call and by nothing else. -/
theorem onIpc_store (w : Worker) (s : Store) (env : AllocEnv) :
    (w.onIpc s env).2 = match w.call? env with
      | some c => (s.call c).1
      | none => s := by
  cases hpc : w.pc with
  | alloc base =>
    simp only [Worker.onIpc, Worker.call?, hpc]
    split
    · rfl
    · rfl
  | load sid =>
    simp only [Worker.onIpc, Worker.call?, hpc]
    split
    · rfl
    · rfl
  | save a base => simp only [Worker.onIpc, Worker.call?, hpc, Store.call]
  | touch p => simp only [Worker.onIpc, Worker.call?, hpc, Store.call]
  | handshake => simp only [Worker.onIpc, Worker.call?, hpc]
  | recv => simp only [Worker.onIpc, Worker.call?, hpc]
  | closed => simp only [Worker.onIpc, Worker.call?, hpc]

theorem call_allocates (w : Worker) (env : AllocEnv) :
    (w.call? env).elim false Call.allocates = w.pc.allocates := by
  cases hpc : w.pc <;> simp only [Worker.call?, hpc] <;> rfl

theorem listed_onIpc {sid : UInt64} (h : Listed s sid) (w : Worker) (env : AllocEnv) :
    Listed (w.onIpc s env).2 sid := by
  rw [onIpc_store]
  split
  · exact listed_call h _
  · exact h

theorem used_onIpc (w : Worker) (s : Store) (env : AllocEnv) :
    (w.onIpc s env).2.used = if w.pc.allocates then min (s.used + 1) maxSessions else s.used := by
  rw [onIpc_store, ← call_allocates w env]
  cases w.call? env with
  | none => rfl
  | some c => exact used_call s c

/-- A login while there is a free slot, and one while there is none. -/
theorem onIpc_login (hpc : w.pc.allocates = true) :
    (s.used < maxSessions → (w.onIpc s env).1.mySid ≠ 0 ∧ (w.onIpc s env).1.pc.greeting = false ∧
      (w.onIpc s env).1.pc ≠ .closed ∧ Listed (w.onIpc s env).2 (w.onIpc s env).1.mySid) ∧
    (s.used = maxSessions → (w.onIpc s env).1.pc = .closed ∧ (w.onIpc s env).2 = s ∧
      sent (w.onIpc s env).1.io = sent w.io ++ [.error (-999) "server full"]) := by
  cases hw : w.pc with
  | alloc base =>
    simp only [Worker.onIpc, hw]
    rcases alloc_cases s env with ⟨hid, hlt, _⟩ | ⟨hid, hfull, hsame⟩
    · rw [if_neg hid]
      constructor
      · intro _
        exact ⟨hid, rfl, fun hclosed => (by cases hclosed), lookup_alloc_self s hid⟩
      · intro hfull
        omega
    · rw [if_pos hid]
      constructor
      · intro hlt
        omega
      · intro _
        exact ⟨rfl, hsame, sent_send w _⟩
  | handshake => simp [hw, Pc.allocates] at hpc
  | load sid => simp [hw, Pc.allocates] at hpc
  | save a base => simp [hw, Pc.allocates] at hpc
  | recv => simp [hw, Pc.allocates] at hpc
  | touch p => simp [hw, Pc.allocates] at hpc
  | closed => simp [hw, Pc.allocates] at hpc

end Call

/-! ### The logins of a fleet -/

/-- The act is an `ipc_alloc_session` call. -/
def Fleet.allocates (s : Fleet) : Act → Bool
  | .ipc i _ => (s.workers[i]?.map fun w => w.pc.allocates).getD false
  | _ => false

/-- The number of `ipc_alloc_session` calls in a run. -/
def Fleet.logins (s : Fleet) : List Act → ℕ
  | [] => 0
  | act :: acts => (if s.allocates act then 1 else 0) + (s.step act).logins acts

section Logins
variable {s : Fleet}

theorem used_step (s : Fleet) (act : Act) :
    (s.step act).store.used =
      if s.allocates act then min (s.store.used + 1) maxSessions else s.store.used := by
  cases act with
  | fork rng => rfl
  | recv i r => rfl
  | ipc i env =>
    cases hg : s.workers[i]? with
    | none => simp only [Fleet.step, Fleet.allocates, hg, Option.map_none, Option.getD_none,
        Bool.false_eq_true, if_false]
    | some w =>
      simp only [Fleet.step, Fleet.allocates, hg, Option.map_some, Option.getD_some]
      exact used_onIpc w s.store env

theorem used_run (s : Fleet) (acts : List Act) :
    (acts.foldl Fleet.step s).store.used = min (s.store.used + s.logins acts) maxSessions := by
  induction acts generalizing s with
  | nil =>
    have hle := used_le s.store
    show s.store.used = min (s.store.used + 0) maxSessions
    omega
  | cons act acts ih =>
    have hle := used_le s.store
    have hstep := used_step s act
    rw [List.foldl_cons, ih, Fleet.logins]
    split at hstep
    · rename_i halloc
      rw [if_pos halloc]
      omega
    · rename_i halloc
      rw [if_neg halloc]
      omega

theorem listed_step {sid : UInt64} (h : Listed s.store sid) (act : Act) :
    Listed (s.step act).store sid := by
  cases act with
  | fork rng => exact h
  | recv i r => exact h
  | ipc i env =>
    cases hg : s.workers[i]? with
    | none =>
      simp only [Fleet.step, hg]
      exact h
    | some w =>
      simp only [Fleet.step, hg]
      exact listed_onIpc h w env

end Logins

/-- Whatever the workers of a server do in between, each `ipc` call taken whole: a login
that reaches `ipc_alloc_session` gets a session exactly when fewer than 128 did before it;
a refused one gets one error packet and leaves the store as it is; and a session is found
in every later state. -/
theorem logins_capped (acts : List Act) :
    let s := runFleet acts
    (∀ (i : ℕ) (w : Worker) (env : AllocEnv), s.workers[i]? = some w → w.pc.allocates = true →
      ∃ w', (s.step (.ipc i env)).workers[i]? = some w' ∧
        (Fleet.start.logins acts < 128 → w'.mySid ≠ 0 ∧ w'.pc.greeting = false ∧ w'.pc ≠ .closed ∧
          Listed (s.step (.ipc i env)).store w'.mySid) ∧
        (128 ≤ Fleet.start.logins acts → w'.pc = .closed ∧ (s.step (.ipc i env)).store = s.store ∧
          sent w'.io = sent w.io ++ [.error (-999) "server full"])) ∧
    ∀ (more : List Act) (sid : UInt64), Listed s.store sid →
      Listed (runFleet (acts ++ more)).store sid := by
  intro s
  have hused : s.store.used = min (Fleet.start.logins acts) maxSessions := by
    have hrun := used_run Fleet.start acts
    have hzero : Fleet.start.store.used = 0 := used_zero
    rw [hzero, Nat.zero_add] at hrun
    exact hrun
  have hmax : maxSessions = 128 := rfl
  constructor
  · intro i w env hg hpc
    obtain ⟨hfree, hfull⟩ := @onIpc_login w s.store env hpc
    have hstep : s.step (.ipc i env) = ⟨(w.onIpc s.store env).2,
        s.workers.set i (w.onIpc s.store env).1, s.held i w env⟩ := by
      simp only [Fleet.step, hg]
    have hlt : i < s.workers.length := (List.getElem?_eq_some_iff.mp hg).1
    rw [hstep]
    refine ⟨(w.onIpc s.store env).1, List.getElem?_set_self hlt, ?_, ?_⟩
    · intro hroom
      exact hfree (by omega)
    · intro hno
      exact hfull (by omega)
  · intro more sid h
    unfold runFleet
    rw [List.foldl_append]
    exact Run.foldl_invariant (I := fun s : Fleet => Listed s.store sid)
      (fun _ act hs => listed_step hs act) more h

end MiniTcg.Server
