import MiniTcg.Server.Host
import MiniTcg.Server.Stream

/-!
# What a second start does to the first server

A server fills the session table with zeros before it listens. Started while another one
runs, it takes the table of that one: its sessions are gone, its players play on.
-/
namespace MiniTcg.Server

open MiniTcg.Game MiniTcg.Ipc MiniTcg.Wire

/-! ### What a server has mapped -/

/-- There are `a` objects of counters and `b` tables. -/
def MainPc.Mapped (a b : ℕ) : MainPc → Prop
  | .storeInit k => k < a
  | .listen k l => k < a ∧ l < b
  | .accepting k l => k < a ∧ l < b
  | _ => True

theorem MainPc.Mapped.mono {a a' b b' : ℕ} {pc : MainPc} (h : pc.Mapped a b) (ha : a ≤ a')
    (hb : b ≤ b') : pc.Mapped a' b' := by
  cases pc with
  | storeInit k => exact Nat.lt_of_lt_of_le h ha
  | listen k l => exact ⟨Nat.lt_of_lt_of_le h.1 ha, Nat.lt_of_lt_of_le h.2 hb⟩
  | accepting k l => exact ⟨Nat.lt_of_lt_of_le h.1 ha, Nat.lt_of_lt_of_le h.2 hb⟩
  | statsInit => trivial
  | unlinkStats => trivial
  | unlinkStore => trivial
  | exited => trivial

/-- The servers have mapped objects that there are, and so have the children at their
handshake. -/
structure Host.Mapped (h : Host) : Prop where
  servers : ∀ (i : ℕ) (pc : MainPc), h.servers[i]? = some pc →
    pc.Mapped h.stats.objects.length h.tables.objects.length
  shaking : ∀ q ∈ h.shaking, q.1 < h.stats.objects.length ∧ q.2 < h.tables.objects.length

section Mapped
variable {h : Host}

theorem ipcInit_grows {α : Type} (fresh : α) (reset : α → α) (m : Shm α) (r : Mapping) :
    m.objects.length ≤ (ipcInit fresh reset m r).1.objects.length := by
  cases r with
  | refused => exact Nat.le_refl _
  | opened => exact m.create_grows fresh
  | mapped =>
    show _ ≤ ((m.create fresh).modify m.target reset).objects.length
    rw [Shm.modify_length]
    exact m.create_grows fresh

theorem ipcInit_mapped {α : Type} {fresh : α} {reset : α → α} {m : Shm α} {r : Mapping} {k : ℕ}
    (hk : (ipcInit fresh reset m r).2 = some k) :
    k < (ipcInit fresh reset m r).1.objects.length := by
  cases r with
  | refused => cases hk
  | opened => cases hk
  | mapped =>
    obtain rfl : m.target = k := Option.some.inj hk
    show _ < ((m.create fresh).modify m.target reset).objects.length
    rw [Shm.modify_length]
    exact m.target_lt fresh

/-- A server goes on to `pc`, and there are no fewer objects. -/
theorem Host.Mapped.goto (hm : h.Mapped) {h' : Host} {i : ℕ} {pc : MainPc}
    (hservers : h'.servers = h.servers.set i pc) (hshaking : h'.shaking = h.shaking)
    (hstats : h.stats.objects.length ≤ h'.stats.objects.length)
    (htables : h.tables.objects.length ≤ h'.tables.objects.length)
    (hpc : pc.Mapped h'.stats.objects.length h'.tables.objects.length) : h'.Mapped := by
  constructor
  · intro j q hq
    rw [hservers, List.getElem?_set] at hq
    split at hq
    · split at hq
      · obtain rfl := Option.some.inj hq
        exact hpc
      · cases hq
    · exact (hm.servers j q hq).mono hstats htables
  · intro q hq
    rw [hshaking] at hq
    have hlt := hm.shaking q hq
    exact ⟨Nat.lt_of_lt_of_le hlt.1 hstats, Nat.lt_of_lt_of_le hlt.2 htables⟩

/-- No object of shared memory goes away, and what a server has mapped is one. -/
theorem mapped_step (hm : h.Mapped) (act : HostAct) :
    (h.step act).Mapped ∧ h.stats.objects.length ≤ (h.step act).stats.objects.length ∧
      h.tables.objects.length ≤ (h.step act).tables.objects.length := by
  have hsame : h.Mapped ∧ h.stats.objects.length ≤ h.stats.objects.length ∧
      h.tables.objects.length ≤ h.tables.objects.length := ⟨hm, Nat.le_refl _, Nat.le_refl _⟩
  have hkeeps : ∀ h' : Host, h'.servers = h.servers → h'.shaking ⊆ h.shaking →
      h'.stats.objects.length = h.stats.objects.length →
      h'.tables.objects.length = h.tables.objects.length →
      h'.Mapped ∧ h.stats.objects.length ≤ h'.stats.objects.length ∧
        h.tables.objects.length ≤ h'.tables.objects.length := by
    intro h' hservers hshaking hstats htables
    refine ⟨⟨fun i pc hpc => ?_, fun q hq => ?_⟩, Nat.le_of_eq hstats.symm,
      Nat.le_of_eq htables.symm⟩
    · rw [hstats, htables]
      exact hm.servers i pc (hservers ▸ hpc)
    · rw [hstats, htables]
      exact hm.shaking q (hshaking hq)
  have hgoes : ∀ (i : ℕ) (pc : MainPc), pc.Mapped h.stats.objects.length h.tables.objects.length →
      (h.goto i pc).Mapped ∧ h.stats.objects.length ≤ (h.goto i pc).stats.objects.length ∧
        h.tables.objects.length ≤ (h.goto i pc).tables.objects.length := fun i pc hpc =>
    ⟨hm.goto rfl rfl (Nat.le_refl _) (Nat.le_refl _) hpc, Nat.le_refl _, Nat.le_refl _⟩
  cases act with
  | launch =>
    refine ⟨⟨fun i pc hpc => ?_, hm.shaking⟩, Nat.le_refl _, Nat.le_refl _⟩
    have hq : (h.servers ++ [MainPc.statsInit])[i]? = some pc := hpc
    rw [List.getElem?_append] at hq
    split at hq
    · exact hm.servers i pc hq
    · rw [List.getElem?_singleton] at hq
      split at hq
      · obtain rfl := Option.some.inj hq
        trivial
      · cases hq
  | kill i => exact hgoes i .exited trivial
  | recv l j r => exact hkeeps _ rfl (List.Subset.refl _) rfl (Shm.modify_length _ _ _)
  | ipc l j env => exact hkeeps _ rfl (List.Subset.refl _) rfl (Shm.modify_length _ _ _)
  | count l j =>
    simp only [Host.step]
    split
    · split
      · exact hkeeps _ rfl (List.Subset.refl _) (Shm.modify_length _ _ _)
          (Shm.modify_length _ _ _)
      · exact hsame
    · exact hsame
  | listen i ok =>
    simp only [Host.step]
    split
    · rename_i k l hpc
      have hmapped := hm.servers i _ hpc
      cases ok with
      | true => exact hgoes i (.accepting k l) hmapped
      | false => exact hgoes i .exited trivial
    · exact hsame
  | stop i =>
    simp only [Host.step]
    split
    · exact hgoes i .unlinkStats trivial
    · exact hsame
  | unlink i =>
    simp only [Host.step]
    split
    · exact ⟨hm.goto rfl rfl (Nat.le_refl _) (Nat.le_refl _) trivial, Nat.le_refl _, Nat.le_refl _⟩
    · exact ⟨hm.goto rfl rfl (Nat.le_refl _) (Nat.le_refl _) trivial, Nat.le_refl _, Nat.le_refl _⟩
    · exact hsame
  | accept i =>
    simp only [Host.step]
    split
    · rename_i k l hpc
      refine ⟨⟨hm.servers, fun q hq => ?_⟩, Nat.le_refl _, Nat.le_refl _⟩
      rcases List.mem_append.mp hq with hold | hnew
      · exact hm.shaking q hold
      · obtain rfl := List.mem_singleton.mp hnew
        exact hm.servers i _ hpc
    · exact hsame
  | handshake c rng tls =>
    simp only [Host.step]
    split
    · split
      · exact hkeeps _ rfl List.eraseIdx_subset (Shm.modify_length _ _ _)
          (Shm.modify_length _ _ _)
      · exact hkeeps _ rfl List.eraseIdx_subset rfl rfl
    · exact hsame
  | init i r =>
    simp only [Host.step]
    split
    · have hgrows := ipcInit_grows Stats.zero (fun _ => Stats.zero) h.stats r
      refine ⟨hm.goto rfl rfl hgrows (Nat.le_refl _) ?_, hgrows, Nat.le_refl _⟩
      cases hq : (ipcStatsInit h.stats r).2 with
      | none => trivial
      | some k => exact ipcInit_mapped hq
    · rename_i k hpc
      have hgrows := ipcInit_grows Table.fresh (fun t => { t with store := Store.zero }) h.tables r
      refine ⟨hm.goto rfl rfl (Nat.le_refl _) hgrows ?_, Nat.le_refl _, hgrows⟩
      cases hq : (ipcStoreInit h.tables r).2 with
      | none => trivial
      | some l => exact ⟨hm.servers i _ hpc, ipcInit_mapped hq⟩
    · exact hsame

theorem mapped_start : Host.start.Mapped where
  servers i pc hpc := by cases hpc
  shaking := List.forall_mem_nil _

theorem mapped_run (acts : List HostAct) : (runHost acts).Mapped :=
  Run.foldl_invariant (I := Host.Mapped) (fun _ act hm => (mapped_step hm act).1) acts mapped_start

end Mapped

/-! ### A second start -/

section Wipe
variable {h : Host} {l : ℕ} {act : HostAct}

/-- A start that finds the name of a table in use empties it, and leaves its children. -/
theorem wipe_table (hw : h.wipes act = some l) :
    ∃ t, h.tables.objects[l]? = some t ∧
      (h.step act).tables.objects[l]? = some ⟨Store.zero, t.children⟩ := by
  cases act with
  | init i r =>
    cases r with
    | refused => cases hw
    | opened => cases hw
    | mapped =>
      simp only [Host.wipes] at hw
      split at hw
      · rename_i k hpc
        obtain ⟨t, ht⟩ : ∃ t, h.tables.objects[l]? = some t :=
          ⟨_, List.getElem?_eq_getElem (h.tables.bound l hw)⟩
        refine ⟨t, ht, ?_⟩
        simp only [Host.step, hpc]
        show ((h.tables.create Table.fresh).modify h.tables.target _).objects[l]? = _
        rw [Shm.target_named hw]
        exact Shm.modify_self (Shm.create_old ht _) _
      · cases hw
  | launch => cases hw
  | listen i ok => cases hw
  | accept i => cases hw
  | handshake c rng tls => cases hw
  | stop i => cases hw
  | unlink i => cases hw
  | kill i => cases hw
  | recv m j r => cases hw
  | count m j => cases hw
  | ipc m j env => cases hw

/-- A table stays, and an act does to its workers what some act of a fleet does, or
nothing. -/
theorem workers_step (hm : h.Mapped) {t : Table} (ht : h.tables.objects[l]? = some t)
    (act : HostAct) :
    ∃ t', (h.step act).tables.objects[l]? = some t' ∧
      (t'.fleet.workers = t.fleet.workers ∨
        ∃ a, t'.fleet.workers = (t.fleet.step a).workers) := by
  by_cases hw : h.wipes act = some l
  · obtain ⟨t₀, ht₀, hafter⟩ := wipe_table hw
    obtain rfl := Option.some.inj (ht₀.symm.trans ht)
    exact ⟨_, hafter, Or.inl rfl⟩
  · have hlt : l < (h.step act).tables.objects.length :=
      Nat.lt_of_lt_of_le (List.getElem?_eq_some_iff.mp ht).1 (mapped_step hm act).2.2
    have hafter := List.getElem?_eq_getElem hlt
    refine ⟨_, hafter, ?_⟩
    cases turn_step act hw hafter with
    | fresh old _ => cases old.symm.trans ht
    | same old now =>
      obtain rfl := Option.some.inj (old.symm.trans ht)
      exact Or.inl now.2
    | acts a old now =>
      obtain rfl := Option.some.inj (old.symm.trans ht)
      exact Or.inr ⟨a, now.2⟩

end Wipe

/-- The id that an act hands out in table `l`. -/
def Host.given (h : Host) (l : ℕ) : HostAct → Option UInt64
  | .ipc m j env =>
    if m = l then
      match h.tables.objects[m]? with
      | some t => (t.children[j]?.filter fun c => c.worker.pc.allocates).map
          fun _ => (ipcAllocSession t.store env).2
      | none => none
    else none
  | _ => none

section Lost
variable {h : Host} {l : ℕ} {sid : UInt64}

/-- An id that is not in the store is not put there by a call other than the allocation
that hands it out. -/
theorem missing_call {s : Store} {c : Call} (hs : s.lookup sid = none)
    (hc : ∀ env, c = .alloc env → (ipcAllocSession s env).2 ≠ sid) :
    (s.call c).1.lookup sid = none := by
  cases c with
  | alloc env => exact (lookup_alloc_other s sid (hc env rfl)).trans hs
  | load sid' st hand now => exact (lookup_load s sid' sid st hand now).trans hs
  | touch sid' now => exact (lookup_touch s sid' sid now).trans hs
  | save sid' st hand now =>
    by_cases hsid : sid = sid'
    · subst hsid
      show (s.onSlot sid _).1.lookup sid = none
      rw [onSlot_none hs]
      exact hs
    · exact (lookup_save_other s sid' sid st hand now hsid).trans hs

theorem missing_onIpc {s : Store} {w : Worker} {env : AllocEnv} (hs : s.lookup sid = none)
    (hw : w.pc.allocates = true → (ipcAllocSession s env).2 ≠ sid) :
    (w.onIpc s env).2.lookup sid = none := by
  rw [onIpc_store]
  cases hc : w.call? env with
  | none => exact hs
  | some c =>
    refine missing_call hs fun env' heq => ?_
    have hallocates := call_allocates w env
    rw [hc, heq] at hallocates
    have henv : env' = env := by
      cases hpc : w.pc with
      | alloc base =>
        simp only [Worker.call?, hpc] at hc
        rw [heq] at hc
        cases hc
        rfl
      | handshake => simp [Worker.call?, hpc] at hc
      | recv => simp [Worker.call?, hpc] at hc
      | closed => simp [Worker.call?, hpc] at hc
      | load sid' => simp [Worker.call?, hpc, heq] at hc
      | save a base => simp [Worker.call?, hpc, heq] at hc
      | touch p => simp [Worker.call?, hpc, heq] at hc
    rw [henv]
    exact hw hallocates.symm

theorem zero_lookup (sid : UInt64) : Store.zero.lookup sid = none := by
  rw [layout_zero.lookup_eq_none]
  exact List.not_mem_nil

/-- The sessions of table `l` are without `sid`. -/
def Host.Misses (h : Host) (l : ℕ) (sid : UInt64) : Prop :=
  ∀ t, h.tables.objects[l]? = some t → t.store.lookup sid = none

theorem misses_modify (hs : h.Misses l sid) {m : ℕ} {f : Table → Table}
    (hf : ∀ t, m = l → h.tables.objects[l]? = some t → (f t).store.lookup sid = none) {t' : Table}
    (ht : (h.tables.modify m f).objects[l]? = some t') : t'.store.lookup sid = none := by
  rcases Shm.modify_cases ht with ⟨_, hold⟩ | ⟨hm, t, hold, rfl⟩
  · exact hs t' hold
  · exact hf t hm hold

theorem misses_create (hs : h.Misses l sid) {t' : Table}
    (ht : (h.tables.create Table.fresh).objects[l]? = some t') : t'.store.lookup sid = none := by
  rcases Shm.create_cases ht with hold | ⟨_, _, _, rfl⟩
  · exact hs t' hold
  · exact zero_lookup sid

theorem misses_step (act : HostAct) (hgiven : h.given l act ≠ some sid) (hs : h.Misses l sid) :
    (h.step act).Misses l sid := by
  have hdoes := step_does h act
  generalize h.step act = h' at hdoes ⊢
  intro t' ht
  cases hdoes with
  | quiet _ tables =>
    rw [tables] at ht
    exact hs t' ht
  | recv m j r =>
    refine misses_modify hs (fun t _ hold => ?_) ht
    exact hs t hold
  | count m j child due =>
    refine misses_modify hs (fun t _ hold => ?_) ht
    exact hs t hold
  | ipc m j env =>
    refine misses_modify hs (fun t hm hold => ?_) ht
    cases hc : t.children[j]? with
    | none =>
      simp only [Table.ipc, hc]
      exact hs t hold
    | some c =>
      simp only [Table.ipc, hc]
      split
      · exact hs t hold
      · refine missing_onIpc (hs t hold) fun hpc hid => hgiven ?_
        rw [← hid]
        simp only [Host.given, hm, hold, hc, Option.filter, hpc, if_true, Option.map_some]
  | joins a rng shaking _ tables =>
    rw [tables] at ht
    refine misses_modify hs (fun t _ hold => ?_) ht
    exact hs t hold
  | initStats i r pc _ tables =>
    rw [tables] at ht
    exact hs t' ht
  | initStore i r pc _ tables =>
    rw [tables] at ht
    cases r with
    | refused => exact hs t' ht
    | opened => exact misses_create hs ht
    | mapped =>
      rcases Shm.modify_cases ht with ⟨_, hcreated⟩ | ⟨_, t, _, rfl⟩
      · exact misses_create hs hcreated
      · exact zero_lookup sid

end Lost

/-- A start that finds the name of a table in use, even one that then cannot listen,
loses every session of the table: an id is found again only if it is handed out again.
The workers on the table are left as they were. -/
theorem second_start_empties (acts : List HostAct) (act : HostAct) (l : ℕ)
    (hw : (runHost acts).wipes act = some l) :
    (∃ t, (runHost acts).tables.objects[l]? = some t ∧
      (runHost (acts ++ [act])).tables.objects[l]? = some ⟨Store.zero, t.children⟩) ∧
    ∀ (sid : UInt64) (more : List HostAct),
      Run.Along Host.step (fun h a => h.given l a ≠ some sid) (runHost (acts ++ [act])) more →
      ∀ t, (runHost (acts ++ act :: more)).tables.objects[l]? = some t →
        t.store.lookup sid = none := by
  obtain ⟨t, ht, hafter⟩ := wipe_table hw
  have hlast : runHost (acts ++ [act]) = (runHost acts).step act := by
    simp only [runHost, List.foldl_append, List.foldl_cons, List.foldl_nil]
  rw [hlast]
  refine ⟨⟨t, ht, hafter⟩, fun sid more hmore => ?_⟩
  have hempty : ((runHost acts).step act).Misses l sid := by
    intro t' ht'
    obtain rfl := Option.some.inj (hafter.symm.trans ht')
    exact zero_lookup sid
  have hrun : runHost (acts ++ act :: more) = more.foldl Host.step ((runHost acts).step act) := by
    simp only [runHost, List.foldl_append, List.foldl_cons]
  rw [hrun]
  exact Run.invariant (I := fun h : Host => h.Misses l sid)
    (fun _ a hgiven hs => misses_step a hgiven hs) hempty hmore

/-- A server is started while another one has a player, whose session is lost. -/
theorem second_start_empties_one :
    ∃ t, (runHost (firstServer ++ [.launch, .init 1 .mapped])).tables.objects[0]? = some t ∧
      t.store.used = 1 ∧
      (runHost (firstServer ++ [.launch, .init 1 .mapped] ++ [.init 1 .mapped])).tables.objects[0]? =
        some ⟨Store.zero, t.children⟩ := by
  obtain ⟨⟨t, ht, hafter⟩, _⟩ := second_start_empties (firstServer ++ [.launch, .init 1 .mapped])
    (.init 1 .mapped) 0 (by decide +kernel)
  have hused : ((runHost (firstServer ++ [.launch, .init 1 .mapped])).tables.objects[0]?.map
      fun t => t.store.used) = some 1 := by decide +kernel
  rw [ht] at hused
  exact ⟨t, ht, Option.some.inj hused, hafter⟩

/-! ### The players -/

/-- Worker `j` on table `l` has played its own match. -/
def Host.Plays (h : Host) (l j : ℕ) (rng : ℕ → ℕ) : Prop :=
  ∃ t, h.tables.objects[l]? = some t ∧ ∃ w, t.fleet.workers[j]? = some w ∧ Own rng w

theorem plays_step {h : Host} {l j : ℕ} {rng : ℕ → ℕ} (act : HostAct)
    (hp : h.Mapped ∧ h.Plays l j rng) : (h.step act).Mapped ∧ (h.step act).Plays l j rng := by
  obtain ⟨hm, t, ht, w, hw, hown⟩ := hp
  refine ⟨(mapped_step hm act).1, ?_⟩
  obtain ⟨t', ht', hsame | ⟨a, ha⟩⟩ := workers_step hm ht act
  · exact ⟨t', ht', w, hsame ▸ hw, hown⟩
  · obtain ⟨w', hw', hown'⟩ := own_step a ⟨w, hw, hown⟩
    exact ⟨t', ht', w', ha ▸ hw', hown'⟩

/-- A player whose connection a server has accepted plays its match to the end: whatever
becomes of the server, even before the handshake is over, and of the shared memory,
whenever its worker waits for a packet it has in memory its own packets played with its
own draws. That is the last table it was shown, unless it resumed a table in which the AI
was to move. -/
theorem players_outlive_server (pre post : List HostAct) (a k l : ℕ) (rng : ℕ → ℕ)
    (hshaking : (runHost pre).shaking[a]? = some (k, l)) :
    ∃ t, (runHost pre).tables.objects[l]? = some t ∧
      ∃ c, (runHost (pre ++ .handshake a rng true :: post)).child? l t.children.length = some c ∧
        (c.worker.pc = .recv → ∃ base, Base rng c.worker.io base ∧
          c.worker.game.Same (continued base (received c.worker.io)) ∧
          (¬ base.st.aiDue → Shown c.worker.io (continued base (received c.worker.io)))) := by
  have hmapped := mapped_run pre
  obtain ⟨t, ht⟩ : ∃ t, (runHost pre).tables.objects[l]? = some t :=
    ⟨_, List.getElem?_eq_getElem (hmapped.shaking _ (List.mem_of_getElem? hshaking)).2⟩
  refine ⟨t, ht, ?_⟩
  have hfirst : ((runHost pre).step (.handshake a rng true)).Plays l t.children.length rng := by
    simp only [Host.step, hshaking, if_true]
    refine ⟨_, Shm.modify_self ht _, Worker.init rng, ?_, own_init rng⟩
    show ((t.children ++ [_]).map Child.worker)[t.children.length]? = _
    rw [List.map_append, List.getElem?_append_right (by rw [List.length_map]), List.length_map,
      Nat.sub_self]
    rfl
  have hrun : runHost (pre ++ .handshake a rng true :: post) =
      post.foldl Host.step ((runHost pre).step (.handshake a rng true)) := by
    simp only [runHost, List.foldl_append, List.foldl_cons]
  obtain ⟨_, t', ht', w, hw, hown⟩ :=
    Run.foldl_invariant (I := fun h : Host => h.Mapped ∧ h.Plays l t.children.length rng)
      (fun _ act hp => plays_step act hp) post ⟨(mapped_step hmapped _).1, hfirst⟩
  obtain ⟨c, hc, rfl⟩ : ∃ c, t'.children[t.children.length]? = some c ∧ c.worker = w := by
    have hmap : (t'.children.map Child.worker)[t.children.length]? = some w := hw
    rw [List.getElem?_map] at hmap
    exact Option.map_eq_some_iff.mp hmap
  refine ⟨c, ?_, fun hrecv => ?_⟩
  · rw [hrun, Host.child?, ht']
    exact hc
  · obtain ⟨base, hkeep⟩ := hown.keeping (Or.inl hrecv)
    exact ⟨base, hkeep.started, hkeep.same, hkeep.shown⟩

/-- The server is killed while the player is at its handshake. -/
theorem players_outlive_server_killed :
    ∃ c, (runHost (firstServer.take 5 ++ [.kill 0] ++ .handshake 0 (fun _ => 0) true ::
        firstServer.drop 6)).child? 0 0 = some c ∧
      ∃ base, Base (fun _ => 0) c.worker.io base ∧
        c.worker.game.Same (continued base (received c.worker.io)) := by
  obtain ⟨t, ht, c, hc, hplays⟩ := players_outlive_server (firstServer.take 5 ++ [.kill 0])
    (firstServer.drop 6) 0 0 0 (fun _ => 0) rfl
  have hnone : ((runHost (firstServer.take 5 ++ [.kill 0])).tables.objects[0]?.map
      fun t => t.children.length) = some 0 := by decide +kernel
  rw [ht] at hnone
  have hlen : t.children.length = 0 := Option.some.inj hnone
  rw [hlen] at hc
  have hlistens : ((runHost (firstServer.take 5 ++ [.kill 0] ++ .handshake 0 (fun _ => 0) true ::
      firstServer.drop 6)).child? 0 0).map
        (fun c => (c.worker.pc.listens, c.worker.pc.greeting)) = some (true, false) := by
    decide +kernel
  rw [hc, Option.map_some] at hlistens
  obtain ⟨hl, hg⟩ := Prod.mk.inj (Option.some.inj hlistens)
  obtain ⟨base, hbase, hsame, _⟩ := hplays (listens_recv hl hg)
  exact ⟨c, hc, base, hbase, hsame⟩

end MiniTcg.Server
