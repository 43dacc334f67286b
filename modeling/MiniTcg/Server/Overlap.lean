import MiniTcg.Ipc.Overlap
import MiniTcg.Server.Capacity

/-!
# Workers whose calls overlap

The fleet makes each call in one act. Here a worker enters its call and goes through it
step by step, and any other worker may take any step between two of these. Such a run is
a run of the fleet, as long as no two workers are at the same time inside calls on one
session, or inside `ipc_alloc_session`.
-/
namespace MiniTcg.Server

open MiniTcg.Game MiniTcg.Ipc MiniTcg.Wire

/-- The worker goes on with what its pending call has returned. -/
def Worker.answer (w : Worker) (r : Reply) : Worker :=
  match w.pc, r with
  | .alloc base, .given sid =>
    if sid = 0 then (w.send (.error (-999) "server full")).close
    else { w with mySid := sid, pc := .save .login base }
  | .load sid, .loaded rc st hand =>
    if rc = 0 then w.attach sid st hand
    else { w.send (.resumeResp 0 0) with pc := .handshake }
  | .save a _, .code rc =>
    { w with io := .saved a w.game.st w.game.hand rc :: w.io }.afterSave a
  | .touch p, .code _ => { w with io := .got p :: w.io }.dispatch p
  | _, _ => w

section Answer
variable {w : Worker} {env : AllocEnv} {c : Call}

/-- An atomic call, and the code after it. -/
theorem onIpc_answer (h : w.call? env = some c) (s : Store) :
    w.onIpc s env = (w.answer (s.reply c), (s.call c).1) := by
  have hstore : (w.onIpc s env).2 = (s.call c).1 := by rw [onIpc_store, h]
  refine Prod.ext ?_ hstore
  cases hpc : w.pc with
  | alloc base =>
    rw [Worker.call?, hpc] at h
    obtain rfl := Option.some.inj h
    simp only [Worker.onIpc, Worker.answer, Store.reply, hpc]
    split
    · rfl
    · rfl
  | load sid =>
    rw [Worker.call?, hpc] at h
    obtain rfl := Option.some.inj h
    simp only [Worker.onIpc, Worker.answer, Store.reply, hpc]
    split
    · rfl
    · rfl
  | save a base =>
    rw [Worker.call?, hpc] at h
    obtain rfl := Option.some.inj h
    simp only [Worker.onIpc, Worker.answer, Store.reply, hpc]
  | touch p =>
    rw [Worker.call?, hpc] at h
    obtain rfl := Option.some.inj h
    simp only [Worker.onIpc, Worker.answer, Store.reply, hpc]
  | handshake =>
    rw [Worker.call?, hpc] at h
    cases h
  | recv =>
    rw [Worker.call?, hpc] at h
    cases h
  | closed =>
    rw [Worker.call?, hpc] at h
    cases h

/-- A worker inside a call does not receive. -/
theorem onRecv_calls (h : w.call? env = some c) (r : Option Packet) : w.onRecv r = w := by
  cases hpc : w.pc with
  | handshake =>
    rw [Worker.call?, hpc] at h
    cases h
  | recv =>
    rw [Worker.call?, hpc] at h
    cases h
  | alloc base => simp only [Worker.onRecv, hpc]
  | load sid => simp only [Worker.onRecv, hpc]
  | save a base => simp only [Worker.onRecv, hpc]
  | touch p => simp only [Worker.onRecv, hpc]
  | closed => simp only [Worker.onRecv, hpc]

end Answer

/-! ### The machine -/

/-- The workers, and the calls they are inside of. -/
structure Overlap where
  store : Store
  workers : List Worker
  under : ℕ → Option Under

inductive OverlapMove
  | fork (rng : ℕ → ℕ)
  | recv (i : ℕ) (r : Option Packet)
  | enter (i : ℕ) (env : AllocEnv) (junk : State × Hand)
  | advance (i : ℕ)

/-- A worker begins its pending call. -/
def Overlap.enter (o : Overlap) (i : ℕ) (env : AllocEnv) (junk : State × Hand) : Overlap :=
  match o.under i, (o.workers[i]?).bind (fun w => w.call? env) with
  | none, some c => { o with under := Function.update o.under i (some (Under.start c junk)) }
  | _, _ => o

/-- A worker takes one step of the call it is inside of. -/
def Overlap.advance (o : Overlap) (i : ℕ) : Overlap :=
  match o.under i with
  | none => o
  | some u =>
    match u.next o.store with
    | .goes u s => { o with store := s, under := Function.update o.under i (some u) }
    | .back r =>
      { o with
        workers := o.workers.modify i (fun w => w.answer r)
        under := Function.update o.under i none }

def Overlap.step (o : Overlap) : OverlapMove → Overlap
  | .fork rng => { o with workers := o.workers ++ [Worker.init rng] }
  | .recv i r => { o with workers := o.workers.modify i (fun w => w.onRecv r) }
  | .enter i env junk => o.enter i env junk
  | .advance i => o.advance i

def Overlap.start : Overlap := ⟨Store.zero, [], fun _ => none⟩

/-- No two workers are inside calls that clash. -/
def Overlap.Apart (o : Overlap) : Prop :=
  ∀ i < o.workers.length, ∀ j < o.workers.length, i ≠ j →
    ∀ u ∈ o.under i, ∀ v ∈ o.under j, ¬ u.Clash v

instance (o : Overlap) : Decidable o.Apart :=
  inferInstanceAs (Decidable (∀ i < o.workers.length, ∀ j < o.workers.length, i ≠ j →
    ∀ u ∈ o.under i, ∀ v ∈ o.under j, ¬ u.Clash v))

/-! ### The fleet behind the machine -/

/-- `f` has made every call that has returned, in one act each. -/
structure Overlap.Behind (o : Overlap) (f : Fleet) : Prop where
  workers : f.workers = o.workers
  inside : ∀ i u, o.under i = some u → ∃ w env, o.workers[i]? = some w ∧ w.call? env = some u.call
  store : Ipc.Behind o.store o.under f.store

section Behind
variable {o : Overlap} {f : Fleet} {i : ℕ} {u : Under}

theorem Overlap.Behind.apart (h : o.Behind f) (hapart : o.Apart) : Ipc.Apart o.under := by
  have hlt : ∀ i u, o.under i = some u → i < o.workers.length := by
    intro i u hu
    obtain ⟨w, _, hw, _⟩ := h.inside i u hu
    exact (List.getElem?_eq_some_iff.mp hw).1
  intro i j u v hij hu hv
  exact hapart i (hlt i u hu) j (hlt j v hv) hij u hu v hv

theorem Overlap.Behind.fork (h : o.Behind f) (rng : ℕ → ℕ) :
    (o.step (.fork rng)).Behind (f.step (.fork rng)) where
  workers := by
    show f.workers ++ _ = o.workers ++ _
    rw [h.workers]
  inside j v hv := by
    obtain ⟨w, env, hw, hcall⟩ := h.inside j v hv
    refine ⟨w, env, ?_, hcall⟩
    show (o.workers ++ [Worker.init rng])[j]? = some w
    rw [List.getElem?_append_left (List.getElem?_eq_some_iff.mp hw).1]
    exact hw
  store := h.store

theorem Overlap.Behind.recv (h : o.Behind f) (i : ℕ) (r : Option Packet) :
    (o.step (.recv i r)).Behind (f.step (.recv i r)) where
  workers := by
    show f.workers.modify i _ = o.workers.modify i _
    rw [h.workers]
  inside j v hv := by
    obtain ⟨w, env, hw, hcall⟩ := h.inside j v hv
    refine ⟨w, env, ?_, hcall⟩
    show (o.workers.modify i _)[j]? = some w
    by_cases hj : i = j
    · rw [hj, List.getElem?_modify_eq, hw]
      exact congrArg some (onRecv_calls hcall r)
    · rw [List.getElem?_modify_ne _ _ hj]
      exact hw
  store := h.store

/-- A worker that begins a call shows nothing of it. -/
theorem Overlap.Behind.enter (h : o.Behind f) (i : ℕ) (env : AllocEnv) (junk : State × Hand) :
    (o.step (.enter i env junk)).Behind f := by
  show (o.enter i env junk).Behind f
  rw [Overlap.enter]
  split
  · rename_i c hi hcall
    obtain ⟨w, hw, hc⟩ := Option.bind_eq_some_iff.mp hcall
    constructor
    · exact h.workers
    · intro j v hv
      rcases update_cases hv with ⟨hj, hnew⟩ | ⟨_, hold⟩
      · rw [hj, ← Option.some.inj hnew]
        exact ⟨w, env, hw, hc⟩
      · exact h.inside j v hold
    · exact h.store.begins hi c junk
  · exact h

/-- A worker goes on inside its call. -/
theorem Overlap.Behind.goes (h : o.Behind f) (hapart : Ipc.Apart o.under) (hu : o.under i = some u)
    {v : Under} {s : Store} (hnext : u.next o.store = .goes v s) :
    v.call = u.call ∧ Ipc.Behind s (Function.update o.under i (some v)) f.store := by
  rw [Under.next] at hnext
  split at hnext
  · rename_i k htest
    split at hnext
    · cases hnext
    · rename_i e he
      obtain ⟨rfl, rfl⟩ := Next.goes.inj hnext
      exact ⟨rfl, h.store.tests hapart hu htest he⟩
  · rename_i k n hslot
    split at hnext
    · rename_i g e hg he
      obtain ⟨rfl, rfl⟩ := Next.goes.inj hnext
      exact ⟨rfl, h.store.writes hapart hu hslot hg he⟩
    · cases hnext

/-- A worker returns from its call: the atomic call on the store behind returns the same. -/
theorem Overlap.Behind.back (h : o.Behind f) (hapart : Ipc.Apart o.under) (hu : o.under i = some u)
    {r : Reply} (hnext : u.next o.store = .back r) :
    Ipc.Behind o.store (Function.update o.under i none) (f.store.call u.call).1 ∧
      f.store.reply u.call = r := by
  rw [Under.next] at hnext
  split at hnext
  · rename_i k htest
    split at hnext
    · rename_i he
      obtain rfl := Next.back.inj hnext
      exact h.store.misses hu htest he
    · cases hnext
  · rename_i k n hslot
    split at hnext
    · cases hnext
    · rename_i hend
      obtain rfl := Next.back.inj hnext
      refine h.store.returns hapart hu hslot ?_
      obtain ⟨e, hheld⟩ := h.store.held i u k n hu hslot
      cases hw : (u.call.writes u.junk k)[n]? with
      | none => rfl
      | some g => exact absurd hheld.now (hend g _ hw)

/-- A step inside a call is none of the fleet's, or the whole call. -/
theorem Overlap.Behind.advance (h : o.Behind f) (hapart : o.Apart) (i : ℕ) :
    ∃ acts : List Act, (o.step (.advance i)).Behind (acts.foldl Fleet.step f) := by
  have hapart := h.apart hapart
  show ∃ acts : List Act, (o.advance i).Behind (acts.foldl Fleet.step f)
  rw [Overlap.advance]
  split
  · exact ⟨[], h⟩
  · rename_i u hu
    obtain ⟨w, env, hw, hcall⟩ := h.inside i u hu
    split
    · rename_i v s hnext
      obtain ⟨hsame, hstore⟩ := h.goes hapart hu hnext
      refine ⟨[], h.workers, fun j v' hv => ?_, hstore⟩
      rcases update_cases hv with ⟨hj, hnew⟩ | ⟨_, hold⟩
      · rw [hj, ← Option.some.inj hnew, hsame]
        exact ⟨w, env, hw, hcall⟩
      · exact h.inside j v' hold
    · rename_i r hnext
      obtain ⟨hstore, hreply⟩ := h.back hapart hu hnext
      have hfleet : f.workers[i]? = some w := by rw [h.workers, hw]
      have hact : f.step (.ipc i env) = ⟨(f.store.call u.call).1,
          f.workers.set i (w.answer r), f.held i w env⟩ := by
        simp only [Fleet.step, hfleet]
        rw [onIpc_answer hcall, hreply]
      refine ⟨[.ipc i env], ?_⟩
      show Overlap.Behind _ (f.step (.ipc i env))
      rw [hact]
      refine ⟨?_, fun j v hv => ?_, hstore⟩
      · show f.workers.set i _ = o.workers.modify i _
        rw [h.workers, Scan.modify_eq_set hw]
      · rcases update_cases hv with ⟨_, hnew⟩ | ⟨hj, hold⟩
        · cases hnew
        · obtain ⟨w', env', hw', hcall'⟩ := h.inside j v hold
          refine ⟨w', env', ?_, hcall'⟩
          show (o.workers.modify i _)[j]? = some w'
          rw [List.getElem?_modify_ne _ _ (Ne.symm hj)]
          exact hw'

theorem Overlap.Behind.step (h : o.Behind f) (hapart : o.Apart) (m : OverlapMove) :
    ∃ acts : List Act, (o.step m).Behind (acts.foldl Fleet.step f) := by
  cases m with
  | fork rng => exact ⟨[.fork rng], h.fork rng⟩
  | recv i r => exact ⟨[.recv i r], h.recv i r⟩
  | enter i env junk => exact ⟨[], h.enter i env junk⟩
  | advance i => exact h.advance hapart i

theorem overlap_start : Overlap.start.Behind Fleet.start where
  workers := rfl
  inside _ _ hu := by cases hu
  store := behind_zero

/-- With nobody inside a call, the store is the one behind. -/
theorem Overlap.Behind.settled (h : o.Behind f)
    (hsettled : ∀ i < o.workers.length, o.under i = none) : f.store = o.store := by
  have hsame : f.store.sessions = o.store.sessions := by
    apply List.ext_getElem?
    intro k
    rw [h.store.clear k]
    intro i u n hu
    obtain ⟨w, _, hw, _⟩ := h.inside i u hu
    rw [hsettled i (List.getElem?_eq_some_iff.mp hw).1] at hu
    cases hu
  cases hf : f.store
  cases ho : o.store
  rw [hf, ho] at hsame
  cases hsame
  rfl

end Behind

/-- In a run without clashing calls the workers are those of a run of the fleet, with all
they have received, sent and saved. A slot nobody is at is as the fleet has it, and with
nobody inside a call the whole store is. -/
theorem calls_atomic (moves : List OverlapMove)
    (h : Run.Along Overlap.step (fun o _ => o.Apart) Overlap.start moves) :
    let o := moves.foldl Overlap.step Overlap.start
    ∃ acts, (runFleet acts).workers = o.workers ∧
      (∀ k, (∀ i u n, o.under i = some u → u.stage ≠ .slot k n) →
        o.store.sessions[k]? = (runFleet acts).store.sessions[k]?) ∧
      ((∀ i < o.workers.length, o.under i = none) → (runFleet acts).store = o.store) := by
  intro o
  obtain ⟨acts, hacts⟩ := Run.simulation (R := Overlap.Behind)
    (fun _ m _ hapart hbehind => hbehind.step hapart m) overlap_start h
  exact ⟨acts, hacts.workers, hacts.store.clear, hacts.settled⟩

/-- A login is saved while another one is given its session. -/
def overlappingLogins : List OverlapMove :=
  let junk := (State.zero, Hand.zero)
  [.fork fun _ => 0, .fork fun _ => 1, .recv 0 (some loginPacket), .recv 1 (some loginPacket),
    .enter 0 env0 junk] ++ List.replicate 5 (.advance 0) ++ [.enter 0 env0 junk, .enter 1 env0 junk] ++
  (List.replicate 6 [.advance 0, .advance 1]).flatten ++ [.advance 0, .enter 1 env0 junk] ++
  List.replicate 8 (.advance 1)

theorem calls_atomic_logins :
    ∃ acts, (runFleet acts).workers.map Worker.mySid = [1, 2] ∧ (runFleet acts).store.used = 2 := by
  have hrun : Run.Along Overlap.step (fun o _ => o.Apart) Overlap.start overlappingLogins := by
    decide +kernel
  obtain ⟨acts, hworkers, _, hstore⟩ := calls_atomic overlappingLogins hrun
  refine ⟨acts, ?_, ?_⟩
  · rw [hworkers]
    decide +kernel
  · rw [hstore (by decide +kernel)]
    decide +kernel

end MiniTcg.Server
