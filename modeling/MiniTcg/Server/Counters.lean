import MiniTcg.Server.Restart

/-!
# What the monitor shows

A child counts its connection after its handshake and each packet of its main loop before it
handles it. Nothing ever counts down: the number printed as active connections is that of
the children there have been.
-/
namespace MiniTcg.Server

open MiniTcg.Game MiniTcg.Ipc MiniTcg.Wire

/-- The child counts its connection in the object `k`. -/
def Child.on (k : ℕ) (c : Child) : ℕ := if c.stats = k then 1 else 0

/-- The packets of the main loop a child has counted in the object `k`: those it has
handled, and the one it is at. -/
def Child.packets (k : ℕ) (c : Child) : ℕ :=
  if c.stats = k then (received c.worker.io).length + (if c.counted then 1 else 0) else 0

def Table.total (w : Child → ℕ) (t : Table) : ℕ := (t.children.map w).sum

/-- A sum over the children of all tables. -/
def Host.total (h : Host) (w : Child → ℕ) : ℕ := (h.tables.objects.map (Table.total w)).sum

/-- A child counts in one of `n` objects, and only a packet it is at. -/
structure Child.Sound (n : ℕ) (c : Child) : Prop where
  stats : c.stats < n
  counted : c.counted = true → c.worker.pc.touches = true

/-! ### One child -/

section Child
variable {c : Child} {n k : ℕ}

theorem received_onRecv (w : Worker) (r : Option Packet) :
    received (w.onRecv r).io = received w.io := by
  have hsend : ∀ m, received (w.send m).io = received w.io := fun m => rfl
  have hgreet : ∀ p, received (w.greet p).io = received w.io := by
    intro p
    unfold Worker.greet
    split
    · exact hsend .pong
    · split
      · rfl
      · split
        · split
          · rfl
          · rfl
        · rfl
  cases hpc : w.pc with
  | handshake =>
    cases r with
    | none => simp only [Worker.onRecv, hpc, Worker.close]
    | some p =>
      simp only [Worker.onRecv, hpc]
      exact hgreet p
  | recv => cases r <;> simp only [Worker.onRecv, hpc, Worker.close]
  | alloc base => simp only [Worker.onRecv, hpc]
  | load sid => simp only [Worker.onRecv, hpc]
  | save a base => simp only [Worker.onRecv, hpc]
  | touch p => simp only [Worker.onRecv, hpc]
  | closed => simp only [Worker.onRecv, hpc]

theorem onRecv_touches {w : Worker} (h : w.pc.touches = true) (r : Option Packet) :
    w.onRecv r = w := by
  cases hpc : w.pc with
  | touch p => simp only [Worker.onRecv, hpc]
  | handshake => simp [hpc, Pc.touches] at h
  | recv => simp [hpc, Pc.touches] at h
  | alloc base => simp [hpc, Pc.touches] at h
  | load sid => simp [hpc, Pc.touches] at h
  | save a base => simp [hpc, Pc.touches] at h
  | closed => simp [hpc, Pc.touches] at h

/-- A worker handles a packet of the main loop at `ipc_touch_session` only. -/
theorem received_onIpc (w : Worker) (s : Store) (env : AllocEnv) :
    (received (w.onIpc s env).1.io).length =
      (received w.io).length + (if w.pc.touches then 1 else 0) := by
  cases hpc : w.pc with
  | touch p =>
    simp only [Worker.onIpc, hpc]
    have hin := dispatch_inside ⟨.touch p, w.mySid, w.game, .got p :: w.io⟩ p
    rw [hin.got, received_got, List.length_append]
    rfl
  | save a base =>
    simp only [Worker.onIpc, hpc]
    have hin := afterSave_inside ⟨.save a base, w.mySid, w.game, .saved a w.game.st w.game.hand
      (ipcSaveSession s w.mySid w.game.st w.game.hand env.seen).2 :: w.io⟩ a
    rw [hin.got]
    rfl
  | alloc base =>
    simp only [Worker.onIpc, hpc]
    split
    · rfl
    · rfl
  | load sid =>
    simp only [Worker.onIpc, hpc]
    generalize ipcLoadSession s sid w.game.st w.game.hand env.seen = q
    obtain ⟨store, rc, st, hand⟩ := q
    simp only
    split
    · have hin : Inside _ (w.attach sid st hand) := loopTop_inside _
      rw [hin.got]
      rfl
    · rfl
  | handshake => simp only [Worker.onIpc, hpc]; rfl
  | recv => simp only [Worker.onIpc, hpc]; rfl
  | closed => simp only [Worker.onIpc, hpc]; rfl

theorem Child.Sound.mono (h : c.Sound n) {m : ℕ} (hm : n ≤ m) : c.Sound m :=
  ⟨Nat.lt_of_lt_of_le h.stats hm, h.counted⟩

end Child

/-! ### All children -/

/-- A sum over a list in which one element weighs `d` more. -/
theorem sum_modify {α : Type} {l : List α} {w : α → ℕ} {g : α → α} {i : ℕ} {a : α} {d : ℕ}
    (hi : l[i]? = some a) (hd : w (g a) = w a + d) :
    ((l.modify i g).map w).sum = (l.map w).sum + d := by
  induction l generalizing i with
  | nil => cases hi
  | cons b l ih =>
    cases i with
    | zero =>
      obtain rfl : b = a := Option.some.inj hi
      show (w (g b) :: l.map w).sum = (w b :: l.map w).sum + d
      rw [List.sum_cons, List.sum_cons, hd]
      omega
    | succ i =>
      have htail : ((l.modify i g).map w).sum = (l.map w).sum + d := ih hi
      show (w b :: (l.modify i g).map w).sum = (w b :: l.map w).sum + d
      rw [List.sum_cons, List.sum_cons, htail]
      omega

section Total
variable {h : Host} {l : ℕ} {w : Child → ℕ}

theorem total_modify {m : Shm Table} {t : Table} {f : Table → Table} {d : ℕ}
    (ht : m.objects[l]? = some t) (hd : (f t).total w = t.total w + d) :
    ((m.modify l f).objects.map (Table.total w)).sum = (m.objects.map (Table.total w)).sum + d :=
  sum_modify ht hd

theorem total_create (m : Shm Table) :
    ((m.create Table.fresh).objects.map (Table.total w)).sum = (m.objects.map (Table.total w)).sum := by
  show ((if m.named.isSome then m.objects else m.objects ++ [Table.fresh]).map (Table.total w)).sum = _
  split
  · rfl
  · rw [List.map_append, List.sum_append]
    rfl

/-- A change of a table that leaves what its children weigh. -/
theorem total_same {m : Shm Table} {f : Table → Table}
    (hf : ∀ t, m.objects[l]? = some t → (f t).total w = t.total w) :
    ((m.modify l f).objects.map (Table.total w)).sum = (m.objects.map (Table.total w)).sum := by
  cases ht : m.objects[l]? with
  | some t => exact total_modify (d := 0) ht (hf t ht)
  | none =>
    have hsame : m.objects.modify l f = m.objects := by
      rw [List.modify_eq_set_getElem?, ht]
      rfl
    show ((m.objects.modify l f).map _).sum = _
    rw [hsame]

theorem total_init (m : Shm Table) (r : Mapping) :
    ((ipcStoreInit m r).1.objects.map (Table.total w)).sum = (m.objects.map (Table.total w)).sum := by
  cases r with
  | refused => rfl
  | opened => exact total_create m
  | mapped =>
    exact (total_same (f := fun t => { t with store := Store.zero }) fun t _ => rfl).trans
      (total_create m)

end Total

/-- Every child has mapped an object of counters that is there, and flags only a packet it
is at. -/
def Host.Sound (h : Host) : Prop :=
  ∀ t ∈ h.tables.objects, ∀ c ∈ t.children, c.Sound h.stats.objects.length

/-- The object `k` holds the numbers of children and packets there have been. -/
def Host.Counted (h : Host) (k : ℕ) : Prop :=
  ∀ st, h.stats.objects[k]? = some st →
    st.totalConnections = UInt64.ofNat (h.total (Child.on k)) ∧
      st.totalPackets = UInt64.ofNat (h.total (Child.packets k))

section Step
variable {h : Host} {k : ℕ}

/-- Nobody has mapped an object that is not there. -/
theorem Host.Sound.total_zero (hs : h.Sound) (hk : h.stats.objects.length ≤ k) :
    h.total (Child.on k) = 0 ∧ h.total (Child.packets k) = 0 := by
  have hall : ∀ w : Child → ℕ, (∀ c : Child, c.stats ≠ k → w c = 0) → h.total w = 0 := by
    intro w hw
    refine List.sum_eq_zero fun x hx => ?_
    obtain ⟨t, ht, rfl⟩ := List.mem_map.mp hx
    refine List.sum_eq_zero fun y hy => ?_
    obtain ⟨c, hc, rfl⟩ := List.mem_map.mp hy
    have hlt := (hs t ht c hc).stats
    exact hw c (by omega)
  constructor
  · exact hall _ fun c hc => if_neg hc
  · exact hall _ fun c hc => if_neg hc

theorem Host.Sound.congr (hs : h.Sound) {h' : Host} (hstats : h'.stats.objects = h.stats.objects)
    (htables : h'.tables.objects = h.tables.objects) : h'.Sound := by
  intro t ht
  rw [htables] at ht
  rw [hstats]
  exact hs t ht

theorem Host.Counted.congr (hc : h.Counted k) {h' : Host}
    (hstats : h'.stats.objects = h.stats.objects)
    (htables : h'.tables.objects = h.tables.objects) : h'.Counted k := by
  unfold Host.Counted Host.total
  rw [hstats, htables]
  exact hc

/-- A change of one table that leaves what its children count. -/
theorem Host.Counted.modify (hc : h.Counted k) {l : ℕ} {f : Table → Table}
    (hon : ∀ t, h.tables.objects[l]? = some t → (f t).total (Child.on k) = t.total (Child.on k))
    (hpackets : ∀ t, h.tables.objects[l]? = some t →
      (f t).total (Child.packets k) = t.total (Child.packets k)) :
    Host.Counted { h with tables := h.tables.modify l f } k := by
  unfold Host.Counted Host.total
  rw [total_same hon, total_same hpackets]
  exact hc

theorem sound_modify {m : Shm Table} {n : ℕ} {l : ℕ} {f : Table → Table}
    (hs : ∀ t ∈ m.objects, ∀ c ∈ t.children, c.Sound n)
    (hf : ∀ t, (∀ c ∈ t.children, c.Sound n) → ∀ c ∈ (f t).children, c.Sound n) :
    ∀ t ∈ (m.modify l f).objects, ∀ c ∈ t.children, c.Sound n :=
  Scan.modify_forall (P := fun t : Table => ∀ c ∈ t.children, c.Sound n) hs hf l

/-- A change of one table. -/
theorem sound_at {m : Shm Table} {n l : ℕ} {t : Table} {f : Table → Table}
    (hs : ∀ t ∈ m.objects, ∀ c ∈ t.children, c.Sound n) (ht : m.objects[l]? = some t)
    (hf : ∀ c ∈ (f t).children, c.Sound n) :
    ∀ t ∈ (m.modify l f).objects, ∀ c ∈ t.children, c.Sound n := by
  intro t' ht'
  have hmem : t' ∈ m.objects.modify l f := ht'
  rw [Scan.modify_eq_set ht] at hmem
  rcases List.mem_or_eq_of_mem_set hmem with hold | rfl
  · exact hs t' hold
  · exact hf

theorem sound_create {m : Shm Table} {n : ℕ}
    (hs : ∀ t ∈ m.objects, ∀ c ∈ t.children, c.Sound n) :
    ∀ t ∈ (m.create Table.fresh).objects, ∀ c ∈ t.children, c.Sound n := by
  intro t ht
  have hmem : t ∈ (if m.named.isSome then m.objects else m.objects ++ [Table.fresh]) := ht
  split at hmem
  · exact hs t hmem
  · rcases List.mem_append.mp hmem with hold | hnew
    · exact hs t hold
    · obtain rfl := List.mem_singleton.mp hnew
      exact List.forall_mem_nil _

theorem sound_init {m : Shm Table} {n : ℕ} (r : Mapping)
    (hs : ∀ t ∈ m.objects, ∀ c ∈ t.children, c.Sound n) :
    ∀ t ∈ (ipcStoreInit m r).1.objects, ∀ c ∈ t.children, c.Sound n := by
  cases r with
  | refused => exact hs
  | opened => exact sound_create hs
  | mapped => exact sound_modify (sound_create hs) fun t ht => ht

theorem sound_recv {t : Table} {n : ℕ} (ht : ∀ c ∈ t.children, c.Sound n) (j : ℕ)
    (r : Option Packet) : ∀ c ∈ (t.recv j r).children, c.Sound n := by
  refine Scan.modify_forall (P := fun c : Child => c.Sound n)
    (g := fun c => { c with worker := c.worker.onRecv r }) ht (fun c hc => ⟨hc.stats, ?_⟩) j
  intro hcounted
  show (c.worker.onRecv r).pc.touches = true
  rw [onRecv_touches (hc.counted hcounted)]
  exact hc.counted hcounted

theorem sound_ipc {t : Table} {n : ℕ} (ht : ∀ c ∈ t.children, c.Sound n) (j : ℕ) (env : AllocEnv) :
    ∀ c ∈ (t.ipc j env).children, c.Sound n := by
  cases hc : t.children[j]? with
  | none =>
    simp only [Table.ipc, hc]
    exact ht
  | some c =>
    simp only [Table.ipc, hc]
    split
    · exact ht
    · intro c' hc'
      rcases List.mem_or_eq_of_mem_set hc' with hold | rfl
      · exact ht c' hold
      · exact ⟨(ht c (List.mem_of_getElem? hc)).stats, fun hfalse => by cases hfalse⟩

theorem sound_count {t : Table} {n j : ℕ} {c : Child} (ht : ∀ c ∈ t.children, c.Sound n)
    (hc : t.children[j]? = some c) (hdue : c.due = true) :
    ∀ c ∈ (t.count j).children, c.Sound n := by
  intro c' hc'
  have hmem : c' ∈ t.children.modify j fun c => { c with counted := true } := hc'
  rw [Scan.modify_eq_set hc] at hmem
  rcases List.mem_or_eq_of_mem_set hmem with hold | rfl
  · exact ht c' hold
  · have htouches : c.worker.pc.touches = true := (Bool.and_eq_true_iff.mp hdue).1
    exact ⟨(ht c (List.mem_of_getElem? hc)).stats, fun _ => htouches⟩

/-! What the children weigh after each act on a table. -/

theorem recv_total (t : Table) (j : ℕ) (r : Option Packet) {w : Child → ℕ}
    (hw : ∀ c : Child, w { c with worker := c.worker.onRecv r } = w c) :
    (t.recv j r).total w = t.total w := by
  cases hc : t.children[j]? with
  | some c => exact sum_modify (d := 0) hc (hw c)
  | none =>
    show ((t.children.modify j _).map w).sum = _
    rw [List.modify_eq_set_getElem?, hc]
    rfl

theorem ipc_total {t : Table} {n : ℕ} (ht : ∀ c ∈ t.children, c.Sound n) (j : ℕ) (env : AllocEnv)
    (k : ℕ) : (t.ipc j env).total (Child.on k) = t.total (Child.on k) ∧
      (t.ipc j env).total (Child.packets k) = t.total (Child.packets k) := by
  cases hc : t.children[j]? with
  | none =>
    have hsame : t.ipc j env = t := by simp only [Table.ipc, hc]
    rw [hsame]
    exact ⟨rfl, rfl⟩
  | some c =>
    have hsound := ht c (List.mem_of_getElem? hc)
    cases hdue : c.due with
    | true =>
      have hsame : t.ipc j env = t := by simp only [Table.ipc, hc, hdue, if_true]
      rw [hsame]
      exact ⟨rfl, rfl⟩
    | false =>
      simp only [Table.ipc, hc, hdue]
      let after : Child :=
        { c with worker := (c.worker.onIpc t.store env).1, counted := false }
      have hset : ∀ w : Child → ℕ, w after = w c →
          ((t.children.set j after).map w).sum = (t.children.map w).sum := by
        intro w hw
        rw [← Scan.modify_eq_set (g := fun _ => after) hc]
        exact sum_modify (d := 0) hc hw
      constructor
      · exact hset (Child.on k) rfl
      · refine hset (Child.packets k) ?_
        -- a packet is handled once it has been counted
        have hflag : c.counted = c.worker.pc.touches := by
          cases hcounted : c.counted with
          | true => exact (hsound.counted hcounted).symm
          | false =>
            simp only [Child.due, hcounted, Bool.not_false, Bool.and_true] at hdue
            exact hdue.symm
        show (if c.stats = k then (received (c.worker.onIpc t.store env).1.io).length + 0 else 0) =
          if c.stats = k then (received c.worker.io).length + (if c.counted then 1 else 0) else 0
        rw [received_onIpc, hflag]
        rfl

theorem count_total {t : Table} {j : ℕ} {c : Child} (hc : t.children[j]? = some c)
    (hdue : c.due = true) (k : ℕ) :
    (t.count j).total (Child.on k) = t.total (Child.on k) ∧
      (t.count j).total (Child.packets k) =
        t.total (Child.packets k) + (if c.stats = k then 1 else 0) := by
  have hflag : c.counted = false := Bool.not_eq_true' c.counted |>.mp (Bool.and_eq_true_iff.mp hdue).2
  constructor
  · exact sum_modify (d := 0) hc rfl
  · refine sum_modify hc ?_
    show (if c.stats = k then (received c.worker.io).length + 1 else 0) =
      (if c.stats = k then (received c.worker.io).length + (if c.counted then 1 else 0) else 0) + _
    rw [hflag]
    split
    · rfl
    · rfl

theorem add_total (t : Table) (c : Child) (w : Child → ℕ) : (t.add c).total w = t.total w + w c := by
  show ((t.children ++ [c]).map w).sum = _
  rw [List.map_append, List.sum_append, List.map_singleton, List.sum_singleton]
  rfl

theorem incConn_adds (st : Stats) : ipcStatsIncConn st =
    ⟨st.totalConnections + UInt64.ofNat 1, st.totalPackets + UInt64.ofNat 0⟩ := by
  show _ = Stats.mk _ (st.totalPackets + 0)
  rw [UInt64.add_zero]
  rfl

theorem incPkt_adds (st : Stats) : ipcStatsIncPkt st =
    ⟨st.totalConnections + UInt64.ofNat 0, st.totalPackets + UInt64.ofNat 1⟩ := by
  show _ = Stats.mk (st.totalConnections + 0) _
  rw [UInt64.add_zero]
  rfl

/-- What is counted in object `j` weighs as much there. -/
theorem counted_modify {m : Shm Stats} {j a a' b b' x y : ℕ} {f : Stats → Stats}
    (hf : ∀ st, f st = ⟨st.totalConnections + UInt64.ofNat x, st.totalPackets + UInt64.ofNat y⟩)
    (hold : ∀ st, m.objects[k]? = some st →
      st.totalConnections = UInt64.ofNat a ∧ st.totalPackets = UInt64.ofNat b)
    (ha : a' = a + (if j = k then x else 0)) (hb : b' = b + (if j = k then y else 0)) :
    ∀ st, (m.modify j f).objects[k]? = some st →
      st.totalConnections = UInt64.ofNat a' ∧ st.totalPackets = UInt64.ofNat b' := by
  intro st hst
  rcases Shm.modify_cases hst with ⟨hj, hsame⟩ | ⟨hj, st₀, hst₀, rfl⟩
  · rw [if_neg hj] at ha hb
    rw [ha, hb]
    exact hold st hsame
  · obtain ⟨hconnections, hpackets⟩ := hold st₀ hst₀
    rw [if_pos hj] at ha hb
    rw [hf, ha, hb, UInt64.ofNat_add, UInt64.ofNat_add, ← hconnections, ← hpackets]
    exact ⟨rfl, rfl⟩

theorem counted_init (hs : h.Sound) (hc : h.Counted k) (r : Mapping)
    (hkeep : r = .mapped → h.stats.named ≠ some k) :
    ∀ st, (ipcStatsInit h.stats r).1.objects[k]? = some st →
      st.totalConnections = UInt64.ofNat (h.total (Child.on k)) ∧
        st.totalPackets = UInt64.ofNat (h.total (Child.packets k)) := by
  have hfresh : h.stats.objects[k]? = none →
      Stats.zero.totalConnections = UInt64.ofNat (h.total (Child.on k)) ∧
        Stats.zero.totalPackets = UInt64.ofNat (h.total (Child.packets k)) := by
    intro hnone
    obtain ⟨hon, hpackets⟩ := hs.total_zero (List.getElem?_eq_none_iff.mp hnone)
    rw [hon, hpackets]
    exact ⟨rfl, rfl⟩
  have hcreate : ∀ st, (h.stats.create Stats.zero).objects[k]? = some st →
      st.totalConnections = UInt64.ofNat (h.total (Child.on k)) ∧
        st.totalPackets = UInt64.ofNat (h.total (Child.packets k)) := by
    intro st hst
    rcases Shm.create_cases hst with hold | ⟨_, hnone, _, rfl⟩
    · exact hc st hold
    · exact hfresh hnone
  intro st hst
  cases r with
  | refused => exact hc st hst
  | opened => exact hcreate st hst
  | mapped =>
    rcases Shm.modify_cases hst with ⟨_, hcreated⟩ | ⟨htarget, st₀, hcreated, rfl⟩
    · exact hcreate st hcreated
    · rcases Shm.create_cases hcreated with hold | ⟨_, hnone, _, _⟩
      · -- the object was there and has the name
        exact absurd (Shm.target_named_of_old hold htarget) (hkeep rfl)
      · exact hfresh hnone

end Step

theorem counted_step {h : Host} {k : ℕ} (hm : h.Mapped) (hs : h.Sound) (hc : h.Counted k)
    (act : HostAct) (hkeep : h.clears act ≠ some k) :
    (h.step act).Sound ∧ (h.step act).Counted k := by
  have hdoes := step_does h act
  generalize h.step act = h' at hdoes ⊢
  cases hdoes with
  | quiet stats tables => exact ⟨hs.congr stats tables, hc.congr stats tables⟩
  | recv l j r =>
    refine ⟨sound_modify hs fun t ht => sound_recv ht j r, hc.modify (fun t _ => ?_) fun t _ => ?_⟩
    · exact recv_total t j r fun c => rfl
    · refine recv_total t j r fun c => ?_
      simp only [Child.packets, received_onRecv]
  | ipc l j env =>
    have htotal := fun t (ht : h.tables.objects[l]? = some t) =>
      ipc_total (hs t (List.mem_of_getElem? ht)) j env k
    exact ⟨sound_modify hs fun t ht => sound_ipc ht j env,
      hc.modify (fun t ht => (htotal t ht).1) fun t ht => (htotal t ht).2⟩
  | @count l j c child due =>
    obtain ⟨t, ht, hj⟩ : ∃ t, h.tables.objects[l]? = some t ∧ t.children[j]? = some c :=
      Option.bind_eq_some_iff.mp child
    obtain ⟨hon, hpackets⟩ := count_total hj due k
    constructor
    · intro t' ht' c' hc'
      show c'.Sound (h.stats.modify c.stats ipcStatsIncPkt).objects.length
      rw [Shm.modify_length]
      refine sound_at hs ht ?_ t' ht' c' hc'
      exact sound_count (hs t (List.mem_of_getElem? ht)) hj due
    · refine counted_modify (x := 0) (y := 1) incPkt_adds hc ?_ (total_modify ht hpackets)
      rw [ite_self]
      exact total_modify (d := 0) ht hon
  | @joins a rng j l h' shaking stats tables =>
    obtain ⟨hj, hl⟩ := hm.shaking _ (List.mem_of_getElem? shaking)
    obtain ⟨t, ht⟩ : ∃ t, h.tables.objects[l]? = some t := ⟨_, List.getElem?_eq_getElem hl⟩
    constructor
    · intro t' ht' c' hc'
      rw [tables] at ht'
      rw [stats, Shm.modify_length]
      refine sound_at hs ht (fun c hmem => ?_) t' ht' c' hc'
      rcases List.mem_append.mp hmem with hold | hnew
      · exact hs t (List.mem_of_getElem? ht) c hold
      · obtain rfl := List.mem_singleton.mp hnew
        exact ⟨hj, fun hcounted => by cases hcounted⟩
    · unfold Host.Counted Host.total
      rw [stats, tables]
      refine counted_modify (x := 1) (y := 0) incConn_adds hc
        (total_modify ht (add_total t _ _)) ?_
      refine total_modify ht ((add_total t _ _).trans ?_)
      rfl
  | initStats i r pc stats tables =>
    have hgrows := ipcInit_grows Stats.zero (fun _ => Stats.zero) h.stats r
    constructor
    · intro t ht c hmem
      rw [tables] at ht
      rw [stats]
      exact (hs t ht c hmem).mono hgrows
    · unfold Host.Counted Host.total
      rw [stats, tables]
      refine counted_init hs hc r fun hr => ?_
      rw [hr] at hkeep
      simpa only [Host.clears, pc] using hkeep
  | initStore i r pc stats tables =>
    constructor
    · unfold Host.Sound
      rw [stats, tables]
      exact sound_init r hs
    · unfold Host.Counted Host.total
      rw [stats, tables, total_init, total_init]
      exact hc

/-- However servers are started, stopped and killed: an object of counters that no later
server has filled with zeros holds the number of children that have mapped it, gone or
not, and the number of packets these have counted, both modulo 2^64. -/
theorem counters_count (acts : List HostAct) (k : ℕ)
    (h : Run.Along Host.step (fun h act => h.clears act ≠ some k) Host.start acts) :
    ∀ st, (runHost acts).stats.objects[k]? = some st →
      st.totalConnections = UInt64.ofNat ((runHost acts).total (Child.on k)) ∧
        st.totalPackets = UInt64.ofNat ((runHost acts).total (Child.packets k)) := by
  have hinv : (runHost acts).Mapped ∧ (runHost acts).Sound ∧ (runHost acts).Counted k := by
    refine Run.invariant (I := fun h : Host => h.Mapped ∧ h.Sound ∧ h.Counted k) ?_ ?_ h
    · rintro h act hkeep ⟨hm, hs, hc⟩
      exact ⟨(mapped_step hm act).1, counted_step hm hs hc act hkeep⟩
    · refine ⟨mapped_start, List.forall_mem_nil _, fun st hst => ?_⟩
      cases hst
  exact hinv.2.2

/-- Two children of two servers: the counters of the first hold one connection and the one
packet its child has handled. -/
theorem counters_count_both :
    ∃ st, (runHost (firstServer ++ secondServer)).stats.objects[0]? = some st ∧
      st.totalConnections = 1 ∧ st.totalPackets = 1 := by
  obtain ⟨st, hst⟩ : ∃ st, (runHost (firstServer ++ secondServer)).stats.objects[0]? = some st :=
    ⟨_, List.getElem?_eq_getElem (by decide +kernel)⟩
  obtain ⟨hconnections, hpackets⟩ := counters_count (firstServer ++ secondServer) 0
    (by decide +kernel) st hst
  have hon : (runHost (firstServer ++ secondServer)).total (Child.on 0) = 1 := by decide +kernel
  have hhandled : (runHost (firstServer ++ secondServer)).total (Child.packets 0) = 1 := by
    decide +kernel
  rw [hon] at hconnections
  rw [hhandled] at hpackets
  exact ⟨st, hst, hconnections, hpackets⟩

end MiniTcg.Server
