import MiniTcg.Server.Capacity
import MiniTcg.Server.OwnMatch
import MiniTcg.Server.Stream

/-!
# A player among others

A worker shares the store with all others. Whatever they do, and in whatever order of
their `ipc` calls, the match of a worker that has logged in is the playout of its own
packets with its own draws, as long as none of them is given its id or asks for it.
-/
namespace MiniTcg.Server

open MiniTcg.Game MiniTcg.Ipc MiniTcg.Wire

/-- The pending call of worker `i` gives it an id that is no other worker's, and resumes
nothing. -/
def OwnCall (i : ℕ) (s : Fleet) (env : AllocEnv) (w : Worker) : Prop :=
  (w.pc.allocates = true → ∀ other ∈ s.workers.eraseIdx i,
    other.mySid ≠ 0 → other.mySid ≠ (ipcAllocSession s.store env).2) ∧
  ∀ sid ∈ w.pc.loads.toList, s.store.lookup sid = none

/-- The pending call of another worker neither gives it the id of worker `i` nor asks for it. -/
def OtherCall (i : ℕ) (s : Fleet) (env : AllocEnv) (w : Worker) : Prop :=
  ∀ me ∈ s.workers[i]?.toList, me.mySid ≠ 0 →
    (w.pc.allocates = true → (ipcAllocSession s.store env).2 ≠ me.mySid) ∧
    ∀ sid ∈ w.pc.loads.toList, sid ≠ me.mySid

/-- No other worker is given the id of worker `i` or asks for it, the id it is given is
no other worker's, and it resumes nothing. -/
def Alone (i : ℕ) (s : Fleet) : Act → Prop
  | .ipc j env => ∀ w ∈ s.workers[j]?.toList, if j = i then OwnCall i s env w else OtherCall i s env w
  | .fork _ => True
  | .recv _ _ => True

instance (i : ℕ) (s : Fleet) (env : AllocEnv) (w : Worker) : Decidable (OwnCall i s env w) :=
  have := List.decidableBAll (fun sid => s.store.lookup sid = none) w.pc.loads.toList
  inferInstanceAs (Decidable ((w.pc.allocates = true → ∀ other ∈ s.workers.eraseIdx i,
    other.mySid ≠ 0 → other.mySid ≠ (ipcAllocSession s.store env).2) ∧
    ∀ sid ∈ w.pc.loads.toList, s.store.lookup sid = none))

instance (i : ℕ) (s : Fleet) (env : AllocEnv) (w : Worker) : Decidable (OtherCall i s env w) :=
  have (me : Worker) := List.decidableBAll (fun sid => sid ≠ me.mySid) w.pc.loads.toList
  List.decidableBAll (fun me : Worker => me.mySid ≠ 0 →
    (w.pc.allocates = true → (ipcAllocSession s.store env).2 ≠ me.mySid) ∧
    ∀ sid ∈ w.pc.loads.toList, sid ≠ me.mySid) s.workers[i]?.toList

instance (i : ℕ) (s : Fleet) : (act : Act) → Decidable (Alone i s act)
  | .ipc j env => inferInstanceAs (Decidable (∀ w ∈ s.workers[j]?.toList,
      if j = i then OwnCall i s env w else OtherCall i s env w))
  | .fork _ => isTrue trivial
  | .recv _ _ => isTrue trivial

section Sid
variable {w : Worker}

theorem onRecv_mySid (w : Worker) (r : Option Packet) : (w.onRecv r).mySid = w.mySid := by
  have hgreet : ∀ p, (w.greet p).mySid = w.mySid := by
    intro p
    unfold Worker.greet
    split
    · rfl
    split
    · rfl
    split
    · split
      · rfl
      · rfl
    · rfl
  cases hpc : w.pc with
  | handshake =>
    cases r with
    | none => simp only [Worker.onRecv, hpc, Worker.close]
    | some p =>
      simp only [Worker.onRecv, hpc]
      exact hgreet p
  | recv => cases r <;> simp only [Worker.onRecv, hpc, Worker.close]
  | alloc base => simp only [Worker.onRecv, hpc]
  | load sid => simp only [Worker.onRecv, hpc]
  | save a base => simp only [Worker.onRecv, hpc]
  | touch p => simp only [Worker.onRecv, hpc]
  | closed => simp only [Worker.onRecv, hpc]

/-- A receive never leads into a handshake that was over. -/
theorem onRecv_greeting (w : Worker) (r : Option Packet) (h : w.pc.greeting = false) :
    (w.onRecv r).pc.greeting = false := by
  cases hpc : w.pc with
  | recv =>
    cases r with
    | none => simp only [Worker.onRecv, hpc, Worker.close, Pc.greeting]
    | some p => simp only [Worker.onRecv, hpc, Pc.greeting]
  | save a base => simp only [Worker.onRecv, hpc, Pc.greeting]
  | touch p => simp only [Worker.onRecv, hpc, Pc.greeting]
  | closed => simp only [Worker.onRecv, hpc, Pc.greeting]
  | handshake =>
    rw [hpc] at h
    cases h
  | alloc base =>
    rw [hpc] at h
    cases h
  | load sid =>
    rw [hpc] at h
    cases h

/-- An id changes at an allocation that succeeds or at a load that finds it, and at no
other step. -/
inductive Assigned (w : Worker) (s : Store) (env : AllocEnv) (w' : Worker) : Prop
  | kept (sid : w'.mySid = w.mySid) (pc : w'.pc.greeting = true → w.pc.greeting = true)
  | given (pc : w.pc.allocates = true) (sid : w'.mySid = (ipcAllocSession s env).2)
      (greeted : w'.pc.greeting = false)
  | found {sid : UInt64} (pc : w.pc = .load sid) (mine : w'.mySid = sid)
      (greeted : w'.pc.greeting = false) (known : (s.lookup sid).isSome)

theorem onIpc_assigned (w : Worker) (s : Store) (env : AllocEnv) :
    Assigned w s env (w.onIpc s env).1 := by
  cases hpc : w.pc with
  | alloc base =>
    simp only [Worker.onIpc, hpc]
    split
    · exact .kept rfl fun hg => by cases hg
    · exact .given (by rw [hpc]; rfl) rfl rfl
  | load sid =>
    simp only [Worker.onIpc, hpc]
    cases hl : s.lookup sid with
    | none =>
      have hrc : ¬ ((-1 : ℤ) = 0) := by decide
      rw [load_missing _ _ _ _ _ hl]
      simp only [if_neg hrc]
      exact .kept rfl fun _ => by rw [hpc]; rfl
    | some r =>
      obtain ⟨st, hand⟩ := r
      have hload := load_found s sid w.game.st w.game.hand env.seen hl
      generalize ipcLoadSession s sid w.game.st w.game.hand env.seen = q at hload ⊢
      obtain ⟨store, rc, st', hand'⟩ := q
      simp only [Prod.mk.injEq] at hload
      obtain ⟨rfl, rfl, rfl⟩ := hload
      simp only [if_true]
      have hin : Inside _ (w.attach sid st' hand') := loopTop_inside _
      exact .found hpc hin.sid hin.greeting (by rw [hl]; rfl)
  | save a base =>
    simp only [Worker.onIpc, hpc]
    have hin := afterSave_inside ⟨.save a base, w.mySid, w.game, .saved a w.game.st w.game.hand
      (ipcSaveSession s w.mySid w.game.st w.game.hand env.seen).2 :: w.io⟩ a
    refine .kept hin.sid fun hg => ?_
    rw [hin.greeting] at hg
    cases hg
  | touch p =>
    simp only [Worker.onIpc, hpc]
    have hin := dispatch_inside ⟨.touch p, w.mySid, w.game, .got p :: w.io⟩ p
    refine .kept hin.sid fun hg => ?_
    rw [hin.greeting] at hg
    cases hg
  | handshake =>
    simp only [Worker.onIpc, hpc]
    exact .kept rfl id
  | recv =>
    simp only [Worker.onIpc, hpc]
    exact .kept rfl id
  | closed =>
    simp only [Worker.onIpc, hpc]
    exact .kept rfl id

/-- The call of a worker avoids an id that is not its own, that it is not given and that
it does not ask for. -/
theorem call_avoids {s : Store} {sid : UInt64} {env : AllocEnv} (hmine : w.mySid ≠ sid)
    (halloc : w.pc.allocates = true → (ipcAllocSession s env).2 ≠ sid)
    (hload : ∀ sid' ∈ w.pc.loads.toList, sid' ≠ sid) :
    ∀ c ∈ (w.call? env).toList, Avoids s sid c := by
  cases hpc : w.pc with
  | alloc base =>
    rw [hpc] at halloc
    simp only [Worker.call?, hpc]
    exact List.forall_mem_singleton.mpr (halloc rfl)
  | load sid' =>
    rw [hpc] at hload
    simp only [Worker.call?, hpc]
    exact List.forall_mem_singleton.mpr (hload sid' (List.mem_singleton.mpr rfl))
  | save a base =>
    simp only [Worker.call?, hpc]
    exact List.forall_mem_singleton.mpr hmine
  | touch p =>
    simp only [Worker.call?, hpc]
    exact List.forall_mem_singleton.mpr hmine
  | handshake =>
    simp only [Worker.call?, hpc]
    exact List.forall_mem_nil _
  | recv =>
    simp only [Worker.call?, hpc]
    exact List.forall_mem_nil _
  | closed =>
    simp only [Worker.call?, hpc]
    exact List.forall_mem_nil _

end Sid

/-! ### One worker of a fleet as a session -/

/-- Worker `i` is a session of its own, with draws `rng`; its id is no other worker's. -/
structure Private (rng : ℕ → ℕ) (i : ℕ) (s : Fleet) (w : Worker) : Prop where
  here : s.workers[i]? = some w
  follows : Follows rng ⟨s.store, w, w.mySid⟩
  early : w.pc.greeting = true → w.mySid = 0
  apart : w.mySid ≠ 0 → ∀ j other, j ≠ i → s.workers[j]? = some other → other.mySid ≠ w.mySid

section Private
variable {rng : ℕ → ℕ} {i : ℕ} {s : Fleet} {w : Worker}

/-- A forked worker. -/
theorem private_fork (s : Fleet) (rng : ℕ → ℕ) :
    Private rng s.workers.length (s.step (.fork rng)) (Worker.init rng) where
  here := forked_worker s rng
  follows := by
    have hframe : Follows rng { Session.start rng with store := s.store } :=
      (follows_start rng).frame fun h => absurd rfl h
    exact hframe
  early _ := rfl
  apart h := absurd rfl h

theorem Private.fork (h : Private rng i s w) (rng' : ℕ → ℕ) :
    Private rng i (s.step (.fork rng')) w := by
  refine ⟨fork_keeps h.here rng', h.follows, h.early, fun hz j other hj ho => ?_⟩
  · have hother : (s.workers ++ [Worker.init rng'])[j]? = some other := ho
    rw [List.getElem?_append] at hother
    split at hother
    · exact h.apart hz j other hj hother
    · rw [List.getElem?_singleton] at hother
      split at hother
      · cases hother
        exact fun heq => hz heq.symm
      · cases hother

theorem Private.recv (h : Private rng i s w) (j : ℕ) (r : Option Packet) :
    ∃ w', Private rng i (s.step (.recv j r)) w' := by
  have hothers : ∀ (k : ℕ) (other : Worker), (s.workers.modify j (·.onRecv r))[k]? = some other →
      ∃ old : Worker, s.workers[k]? = some old ∧ other.mySid = old.mySid := by
    intro k other hk
    rw [List.getElem?_modify] at hk
    obtain ⟨old, hold, heq⟩ := Option.map_eq_some_iff.mp hk
    refine ⟨old, hold, ?_⟩
    split at heq
    · rw [← heq]
      exact onRecv_mySid old r
    · rw [← heq]
  have hapart : ∀ w' : Worker, w'.mySid = w.mySid → w'.mySid ≠ 0 →
      ∀ (k : ℕ) (other : Worker), k ≠ i →
        (s.workers.modify j (·.onRecv r))[k]? = some other → other.mySid ≠ w'.mySid := by
    intro w' hsame hz k other hk hother
    obtain ⟨old, hold, hsid⟩ := hothers k other hother
    rw [hsid, hsame]
    exact h.apart (hsame ▸ hz) k old hk hold
  by_cases hj : j = i
  · subst hj
    refine ⟨w.onRecv r, ?_, ?_, fun hg => ?_, hapart _ (onRecv_mySid w r)⟩
    · rw [recv_worker h.here, if_pos rfl]
    · have hallowed : Session.Allowed ⟨s.store, w, w.mySid⟩ (.recv r) := by
        intro hlogin
        refine h.early ?_
        cases hpc : w.pc with
        | handshake => rfl
        | alloc base => rfl
        | load sid => rfl
        | save a base => simp [hpc, Pc.logsIn] at hlogin
        | recv => simp [hpc, Pc.logsIn] at hlogin
        | touch p => simp [hpc, Pc.logsIn] at hlogin
        | closed => simp [hpc, Pc.logsIn] at hlogin
      have hstep := follows_step (.recv r) hallowed h.follows
      rw [onRecv_mySid]
      exact hstep
    · rw [onRecv_mySid]
      cases hold : w.pc.greeting with
      | true => exact h.early hold
      | false =>
        rw [onRecv_greeting w r hold] at hg
        cases hg
  · refine ⟨w, ?_, h.follows, h.early, hapart w rfl⟩
    rw [recv_worker h.here, if_neg hj]

/-- A call of another worker. -/
theorem Private.ipc_other (h : Private rng i s w) {j : ℕ} (hj : j ≠ i) {env : AllocEnv}
    (halone : Alone i s (.ipc j env)) : Private rng i (s.step (.ipc j env)) w := by
  cases hg : s.workers[j]? with
  | none =>
    simp only [Fleet.step, hg]
    exact h
  | some other =>
    have hcond : w.mySid ≠ 0 →
        (other.pc.allocates = true → (ipcAllocSession s.store env).2 ≠ w.mySid) ∧
          ∀ sid ∈ other.pc.loads.toList, sid ≠ w.mySid := by
      have hall := halone other (by rw [hg]; exact List.mem_singleton.mpr rfl)
      rw [if_neg hj] at hall
      exact hall w (by rw [h.here]; exact List.mem_singleton.mpr rfl)
    simp only [Fleet.step, hg]
    refine ⟨?_, ?_, h.early, fun hz k other' hk ho => ?_⟩
    · show (s.workers.set j _)[i]? = _
      rw [List.getElem?_set_ne hj]
      exact h.here
    · show Follows rng ⟨(other.onIpc s.store env).2, w, w.mySid⟩
      have hcall : ∀ c ∈ (other.call? env).toList, w.mySid = 0 ∨ Avoids s.store w.mySid c := by
        intro c hc
        by_cases hz : w.mySid = 0
        · exact Or.inl hz
        · obtain ⟨halloc, hload⟩ := hcond hz
          exact Or.inr (call_avoids (h.apart hz j other hj hg) halloc hload c hc)
      rw [onIpc_store]
      cases hc : other.call? env with
      | none => exact h.follows
      | some c =>
        refine follows_step (s := ⟨s.store, w, w.mySid⟩) (.other c) ?_ h.follows
        exact hcall c (by rw [hc]; exact List.mem_singleton.mpr rfl)
    · obtain ⟨halloc, hload⟩ := hcond hz
      by_cases hkj : k = j
      · subst hkj
        have hset : other' = (other.onIpc s.store env).1 := by
          have hlt : k < s.workers.length := (List.getElem?_eq_some_iff.mp hg).1
          have hself : (s.workers.set k (other.onIpc s.store env).1)[k]? = some other' := ho
          rw [List.getElem?_set_self hlt] at hself
          exact (Option.some.inj hself).symm
        rw [hset]
        cases onIpc_assigned other s.store env with
        | kept sid _ =>
          rw [sid]
          exact h.apart hz k other hk hg
        | given pc sid _ =>
          rw [sid]
          exact halloc pc
        | @found sid pc mine _ _ =>
          rw [mine]
          refine hload sid ?_
          rw [pc]
          exact List.mem_singleton.mpr rfl
      · have hold : s.workers[k]? = some other' := by
          have hset : (s.workers.set j (other.onIpc s.store env).1)[k]? = some other' := ho
          rwa [List.getElem?_set_ne (Ne.symm hkj)] at hset
        exact h.apart hz k other' hk hold

/-- Its own call. -/
theorem Private.ipc_own (h : Private rng i s w) {env : AllocEnv} (halone : Alone i s (.ipc i env)) :
    Private rng i (s.step (.ipc i env)) (w.onIpc s.store env).1 := by
  have hlt : i < s.workers.length := (List.getElem?_eq_some_iff.mp h.here).1
  obtain ⟨halloc, hload⟩ : OwnCall i s env w := by
    have hall := halone w (by rw [h.here]; exact List.mem_singleton.mpr rfl)
    rwa [if_pos rfl] at hall
  have hassigned := onIpc_assigned w s.store env
  have hfollows := follows_step (s := ⟨s.store, w, w.mySid⟩) (.ipc env)
    (fun sid hsid => Or.inl (hload sid hsid)) h.follows
  have hsid : (if w.mySid = 0 then (w.onIpc s.store env).1.mySid else w.mySid) =
      (w.onIpc s.store env).1.mySid := by
    by_cases hz : w.mySid = 0
    · exact if_pos hz
    · rw [if_neg hz]
      -- a worker with an id is past its handshake
      have hpast : w.pc.greeting ≠ true := fun hg => hz (h.early hg)
      cases hassigned with
      | kept sid _ => exact sid.symm
      | given pc sid _ =>
        refine absurd ?_ hpast
        cases hpc : w.pc with
        | alloc base => rfl
        | handshake => rfl
        | load sid => rfl
        | save a base => simp [hpc, Pc.allocates] at pc
        | recv => simp [hpc, Pc.allocates] at pc
        | touch p => simp [hpc, Pc.allocates] at pc
        | closed => simp [hpc, Pc.allocates] at pc
      | found pc mine _ _ =>
        refine absurd ?_ hpast
        rw [pc]
        rfl
  have hmissing : ∀ sid, w.pc = .load sid → ¬ (s.store.lookup sid).isSome = true := by
    intro sid hpc hsome
    rw [hload sid (by rw [hpc]; exact List.mem_singleton.mpr rfl)] at hsome
    cases hsome
  simp only [Fleet.step, h.here]
  refine ⟨List.getElem?_set_self hlt, ?_, fun hg => ?_, fun hz k other hk ho => ?_⟩
  · simp only [Session.step, hsid] at hfollows
    exact hfollows
  · cases hassigned with
    | kept sid pc =>
      rw [sid]
      exact h.early (pc hg)
    | given _ _ greeted =>
      rw [greeted] at hg
      cases hg
    | found pc _ _ known => exact absurd known (hmissing _ pc)
  · have hold : s.workers[k]? = some other := by
      have hset : (s.workers.set i (w.onIpc s.store env).1)[k]? = some other := ho
      rwa [List.getElem?_set_ne (Ne.symm hk)] at hset
    cases hassigned with
    | kept sid _ =>
      rw [sid] at hz ⊢
      exact h.apart hz k other hk hold
    | given pc sid _ =>
      rw [sid] at hz ⊢
      have hmem : other ∈ s.workers.eraseIdx i := List.mem_eraseIdx_iff_getElem?.mpr ⟨k, hk, hold⟩
      by_cases hzero : other.mySid = 0
      · rw [hzero]
        exact hz.symm
      · exact halloc pc other hmem hzero
    | found pc _ _ known => exact absurd known (hmissing _ pc)

theorem private_step (act : Act) (halone : Alone i s act) (h : ∃ w, Private rng i s w) :
    ∃ w, Private rng i (s.step act) w := by
  obtain ⟨w, h⟩ := h
  cases act with
  | fork rng' => exact ⟨w, h.fork rng'⟩
  | recv j r => exact h.recv j r
  | ipc j env =>
    by_cases hj : j = i
    · subst hj
      exact ⟨_, h.ipc_own halone⟩
    · exact ⟨w, h.ipc_other hj halone⟩

end Private

/-- After any acts of any workers: a worker forked now that resumes nothing, and whose id
nobody else is given or asks for, has at every wait for a packet the match of its own
packets and its own draws; the store holds that match for it. Each `ipc` call is taken
whole. -/
theorem players_isolated (pre post : List Act) (rng : ℕ → ℕ)
    (h : Run.Along Fleet.step (Alone (runFleet pre).workers.length)
      ((runFleet pre).step (.fork rng)) post) :
    let s := runFleet (pre ++ .fork rng :: post)
    ∃ w, s.workers[(runFleet pre).workers.length]? = some w ∧
      (w.pc = .recv →
        w.game.st.toCore = (playout rng (received w.io)).st.toCore ∧
        w.game.hand = (playout rng (received w.io)).hand ∧
        Holds s.store w.mySid (playout rng (received w.io)) ∧
        Shown w.io (playout rng (received w.io))) := by
  intro s
  have hrun : s = post.foldl Fleet.step ((runFleet pre).step (.fork rng)) := by
    show runFleet _ = _
    unfold runFleet
    rw [List.foldl_append, List.foldl_cons]
  have hprivate : ∃ w, Private rng (runFleet pre).workers.length s w := by
    rw [hrun]
    exact Run.invariant (I := fun t : Fleet => ∃ w, Private rng (runFleet pre).workers.length t w)
      (fun _ act hact ht => private_step act hact ht) ⟨_, private_fork (runFleet pre) rng⟩ h
  obtain ⟨w, hw⟩ := hprivate
  refine ⟨w, hw.here, fun hpc => ?_⟩
  have hsynced := hw.follows.synced hpc
  obtain ⟨st, hl, hcore, _⟩ := hsynced.stored
  refine ⟨hsynced.same.core, hsynced.same.hand, ?_, hsynced.shown⟩
  show (s.store.lookup w.mySid).map (fun p => (p.1.toCore, p.2)) = _
  have hlook : s.store.lookup w.mySid = some (st, (playout rng (received w.io)).hand) := hl
  rw [hlook, Option.map_some, hcore]
  rfl

/-- The second worker logs in while the first one plays, and both play on. -/
def besideActs : List Act :=
  [.recv 1 (some loginPacket), .recv 0 (some ⟨opPlayCard, [0]⟩), .ipc 1 env0, .ipc 0 env0,
   .ipc 1 env0, .ipc 0 env0, .recv 1 (some ⟨opEndTurn, []⟩), .ipc 1 env0, .ipc 0 env0,
   .ipc 1 env0, .ipc 1 env0]

theorem players_isolated_beside :
    let pre := [.fork fun _ => 1, .recv 0 (some loginPacket), .ipc 0 env0, .ipc 0 env0]
    ∃ w, (runFleet (pre ++ .fork (fun _ => 0) :: besideActs)).workers[1]? = some w ∧
      w.pc = .recv ∧ w.game.hand = (playout (fun _ => 0) [⟨opEndTurn, []⟩]).hand := by
  intro pre
  have hrun : Run.Along Fleet.step (Alone (runFleet pre).workers.length)
      ((runFleet pre).step (.fork fun _ => 0)) besideActs := by decide +kernel
  have hlen : (runFleet pre).workers.length = 1 := by decide +kernel
  have hends : (runFleet (pre ++ .fork (fun _ => 0) :: besideActs)).workers[1]?.map
      (fun w => (w.pc.listens, w.pc.greeting, received w.io)) =
        some (true, false, [⟨opEndTurn, []⟩]) := by decide +kernel
  obtain ⟨w, hw, hmatch⟩ := players_isolated pre besideActs (fun _ => 0) hrun
  rw [hlen] at hw
  rw [hw, Option.map_some] at hends
  simp only [Option.some.injEq, Prod.mk.injEq] at hends
  obtain ⟨hlistens, hgreeting, hreceived⟩ := hends
  have hpc : w.pc = .recv := listens_recv hlistens hgreeting
  obtain ⟨_, hhand, _⟩ := hmatch hpc
  rw [hreceived] at hhand
  exact ⟨w, hw, hpc, hhand⟩

end MiniTcg.Server
