import MiniTcg.Lib.Shm
import MiniTcg.Server.Capacity
import MiniTcg.Server.OwnMatch

/-!
# Servers that come and go

`main` maps the counters and the session table, listens, and forks a child for each
connection; when it stops it removes both names. Its children play on. A server that is
started later opens the same names: it gets new objects, or, when the names are still
there, the ones in use, which it fills with zeros before it knows whether it can listen.
-/
namespace MiniTcg.Server

open MiniTcg.Game MiniTcg.Ipc MiniTcg.Wire

/-! ### The shared objects -/

/-- `shm_stats_t` -/
structure Stats where
  totalConnections : UInt64
  totalPackets : UInt64

def Stats.zero : Stats := ⟨0, 0⟩

def ipcStatsIncConn (s : Stats) : Stats := { s with totalConnections := s.totalConnections + 1 }

def ipcStatsIncPkt (s : Stats) : Stats := { s with totalPackets := s.totalPackets + 1 }

/-- A forked process: the counters it has mapped, its session, and whether it has counted
the packet it is at. -/
structure Child where
  stats : ℕ
  worker : Worker
  counted : Bool

/-- Between the `proto_recv` of the main loop and `ipc_touch_session`. -/
def Pc.touches : Pc → Bool
  | .touch _ => true
  | _ => false

/-- `ipc_stats_inc_pkt` comes next. -/
def Child.due (c : Child) : Bool := c.worker.pc.touches && !c.counted

/-- A session table and the processes that have it mapped. -/
structure Table where
  store : Store
  children : List Child

def Table.fresh : Table := ⟨Store.zero, []⟩

/-- How far `ipc_stats_init` or `ipc_store_init` gets: `shm_open` fails, a later call
fails, or the object is mapped and filled with zeros. -/
inductive Mapping
  | refused
  | opened
  | mapped

section Init
variable {α : Type}

/-- The two functions with `create` set. -/
def ipcInit (fresh : α) (reset : α → α) (m : Shm α) : Mapping → Shm α × Option ℕ
  | .refused => (m, none)
  | .opened => (m.create fresh, none)
  | .mapped => ((m.create fresh).modify m.target reset, some m.target)

end Init

def ipcStatsInit : Shm Stats → Mapping → Shm Stats × Option ℕ :=
  ipcInit Stats.zero fun _ => Stats.zero

def ipcStoreInit : Shm Table → Mapping → Shm Table × Option ℕ :=
  ipcInit Table.fresh fun t => { t with store := Store.zero }

/-! ### All processes of the machine -/

/-- Control points of `main`, with the objects it has mapped. -/
inductive MainPc
  | statsInit
  | storeInit (stats : ℕ)
  | listen (stats store : ℕ)
  | accepting (stats store : ℕ)
  | unlinkStats
  | unlinkStore
  | exited

/-- `shaking` are the children still at `SSL_accept`, with the counters and the table each
of them has mapped. -/
structure Host where
  stats : Shm Stats
  tables : Shm Table
  servers : List MainPc
  shaking : List (ℕ × ℕ)

def Host.start : Host := ⟨Shm.empty, Shm.empty, [], []⟩

/-- Acts of server `i`, of child `c` at its handshake, and of child `j` of table `l`. A
server may be killed at any point; a killed child is one that does not act any more. -/
inductive HostAct
  | launch
  | init (i : ℕ) (r : Mapping)
  | listen (i : ℕ) (ok : Bool)
  | accept (i : ℕ)
  | handshake (c : ℕ) (rng : ℕ → ℕ) (tls : Bool)
  | stop (i : ℕ)
  | unlink (i : ℕ)
  | kill (i : ℕ)
  | recv (l j : ℕ) (r : Option Packet)
  | count (l j : ℕ)
  | ipc (l j : ℕ) (env : AllocEnv)

def Table.recv (t : Table) (j : ℕ) (r : Option Packet) : Table :=
  { t with children := t.children.modify j fun c => { c with worker := c.worker.onRecv r } }

def Table.count (t : Table) (j : ℕ) : Table :=
  { t with children := t.children.modify j fun c => { c with counted := true } }

def Table.ipc (t : Table) (j : ℕ) (env : AllocEnv) : Table :=
  match t.children[j]? with
  | none => t
  | some c =>
    if c.due then t
    else
      let r := c.worker.onIpc t.store env
      ⟨r.2, t.children.set j { c with worker := r.1, counted := false }⟩

def Table.add (t : Table) (c : Child) : Table := { t with children := t.children ++ [c] }

def Host.child? (h : Host) (l j : ℕ) : Option Child :=
  h.tables.objects[l]?.bind fun t => t.children[j]?

def Host.goto (h : Host) (i : ℕ) (pc : MainPc) : Host := { h with servers := h.servers.set i pc }

def Host.step (h : Host) : HostAct → Host
  | .launch => { h with servers := h.servers ++ [.statsInit] }
  | .init i r =>
    match h.servers[i]? with
    | some .statsInit =>
      let q := ipcStatsInit h.stats r
      { h with stats := q.1 }.goto i (q.2.elim .exited .storeInit)
    | some (.storeInit k) =>
      let q := ipcStoreInit h.tables r
      { h with tables := q.1 }.goto i (q.2.elim .exited (.listen k))
    | _ => h
  | .listen i ok =>
    match h.servers[i]? with
    | some (.listen k l) => h.goto i (if ok then .accepting k l else .exited)
    | _ => h
  | .accept i =>
    match h.servers[i]? with
    | some (.accepting k l) => { h with shaking := h.shaking ++ [(k, l)] }
    | _ => h
  | .handshake c rng tls =>
    -- the child acts alone here: its server may be gone
    match h.shaking[c]? with
    | some (k, l) =>
      if tls then
        { h with
          stats := h.stats.modify k ipcStatsIncConn
          tables := h.tables.modify l (·.add ⟨k, Worker.init rng, false⟩)
          shaking := h.shaking.eraseIdx c }
      else { h with shaking := h.shaking.eraseIdx c }
    | none => h
  | .stop i =>
    match h.servers[i]? with
    | some (.accepting _ _) => h.goto i .unlinkStats
    | _ => h
  | .unlink i =>
    match h.servers[i]? with
    | some .unlinkStats => { h with stats := h.stats.unlink }.goto i .unlinkStore
    | some .unlinkStore => { h with tables := h.tables.unlink }.goto i .exited
    | _ => h
  | .kill i => h.goto i .exited
  | .recv l j r => { h with tables := h.tables.modify l (·.recv j r) }
  | .count l j =>
    match h.child? l j with
    | some c =>
      if c.due then
        { h with
          stats := h.stats.modify c.stats ipcStatsIncPkt
          tables := h.tables.modify l (·.count j) }
      else h
    | none => h
  | .ipc l j env => { h with tables := h.tables.modify l (·.ipc j env) }

def runHost (acts : List HostAct) : Host := acts.foldl Host.step Host.start

/-- The table in use that an act fills with zeros. -/
def Host.wipes (h : Host) : HostAct → Option ℕ
  | .init i .mapped =>
    match h.servers[i]? with
    | some (.storeInit _) => h.tables.named
    | _ => none
  | _ => none

/-- The counters in use that an act fills with zeros. -/
def Host.clears (h : Host) : HostAct → Option ℕ
  | .init i .mapped =>
    match h.servers[i]? with
    | some .statsInit => h.stats.named
    | _ => none
  | _ => none

/-- What an act does to the objects of shared memory: nothing, or what one child or one
server does to one of them, or a child to one of each. -/
inductive Host.Does (h : Host) : HostAct → Host → Prop
  | quiet {act : HostAct} {h' : Host} (stats : h'.stats.objects = h.stats.objects)
      (tables : h'.tables.objects = h.tables.objects) : h.Does act h'
  | recv (l j : ℕ) (r : Option Packet) :
      h.Does (.recv l j r) { h with tables := h.tables.modify l (·.recv j r) }
  | count (l j : ℕ) {c : Child} (child : h.child? l j = some c) (due : c.due = true) :
      h.Does (.count l j) { h with
        stats := h.stats.modify c.stats ipcStatsIncPkt
        tables := h.tables.modify l (·.count j) }
  | ipc (l j : ℕ) (env : AllocEnv) :
      h.Does (.ipc l j env) { h with tables := h.tables.modify l (·.ipc j env) }
  | joins (a : ℕ) (rng : ℕ → ℕ) {k l : ℕ} {h' : Host} (shaking : h.shaking[a]? = some (k, l))
      (stats : h'.stats = h.stats.modify k ipcStatsIncConn)
      (tables : h'.tables = h.tables.modify l (·.add ⟨k, Worker.init rng, false⟩)) :
      h.Does (.handshake a rng true) h'
  | initStats (i : ℕ) (r : Mapping) {h' : Host} (pc : h.servers[i]? = some .statsInit)
      (stats : h'.stats = (ipcStatsInit h.stats r).1) (tables : h'.tables = h.tables) :
      h.Does (.init i r) h'
  | initStore (i : ℕ) (r : Mapping) {k : ℕ} {h' : Host}
      (pc : h.servers[i]? = some (.storeInit k)) (stats : h'.stats = h.stats)
      (tables : h'.tables = (ipcStoreInit h.tables r).1) : h.Does (.init i r) h'

theorem step_does (h : Host) (act : HostAct) : h.Does act (h.step act) := by
  cases act with
  | launch => exact .quiet rfl rfl
  | kill i => exact .quiet rfl rfl
  | recv l j r => exact .recv l j r
  | ipc l j env => exact .ipc l j env
  | count l j =>
    simp only [Host.step]
    split
    · rename_i c hchild
      split
      · rename_i hdue
        exact .count l j hchild hdue
      · exact .quiet rfl rfl
    · exact .quiet rfl rfl
  | listen i ok =>
    simp only [Host.step]
    split
    · exact .quiet rfl rfl
    · exact .quiet rfl rfl
  | stop i =>
    simp only [Host.step]
    split
    · exact .quiet rfl rfl
    · exact .quiet rfl rfl
  | unlink i =>
    simp only [Host.step]
    split
    · exact .quiet rfl rfl
    · exact .quiet rfl rfl
    · exact .quiet rfl rfl
  | accept i =>
    simp only [Host.step]
    split
    · exact .quiet rfl rfl
    · exact .quiet rfl rfl
  | handshake a rng tls =>
    simp only [Host.step]
    split
    · rename_i hshaking
      cases tls with
      | true => exact .joins a rng hshaking rfl rfl
      | false => exact .quiet rfl rfl
    · exact .quiet rfl rfl
  | init i r =>
    simp only [Host.step]
    split
    · rename_i hpc
      exact .initStats i r hpc rfl rfl
    · rename_i hpc
      exact .initStore i r hpc rfl rfl
    · exact .quiet rfl rfl

/-! ### The workers of one table -/

/-- The children of a table as a fleet. -/
def Table.fleet (t : Table) : Fleet := ⟨t.store, t.children.map Child.worker, []⟩

/-- What an act of the host is for a table: a fresh table, nothing, or an act of its
fleet. -/
inductive Turn (h : Host) (l : ℕ) (t' : Table) : Prop
  | fresh (old : h.tables.objects[l]? = none) (now : t' = Table.fresh)
  | same {t : Table} (old : h.tables.objects[l]? = some t) (now : Alike t'.fleet t.fleet)
  | acts {t : Table} (act : Act) (old : h.tables.objects[l]? = some t)
      (now : Alike t'.fleet (t.fleet.step act))

section Table
variable {t : Table}

theorem recv_fleet (t : Table) (j : ℕ) (r : Option Packet) :
    Alike (t.recv j r).fleet (t.fleet.step (.recv j r)) := by
  refine ⟨rfl, List.ext_getElem? fun i => ?_⟩
  show ((t.children.modify j _).map Child.worker)[i]? =
    ((t.children.map Child.worker).modify j (·.onRecv r))[i]?
  rw [List.getElem?_map, List.getElem?_modify, List.getElem?_modify, List.getElem?_map]
  cases t.children[i]? with
  | none => rfl
  | some c =>
    by_cases hj : j = i
    · simp only [hj, if_true]
      rfl
    · simp only [hj, if_false]
      rfl

theorem count_fleet (t : Table) (j : ℕ) : Alike (t.count j).fleet t.fleet := by
  refine ⟨rfl, List.ext_getElem? fun i => ?_⟩
  show ((t.children.modify j _).map Child.worker)[i]? = (t.children.map Child.worker)[i]?
  rw [List.getElem?_map, List.getElem?_modify, List.getElem?_map]
  cases t.children[i]? with
  | none => rfl
  | some c =>
    by_cases hj : j = i
    · simp only [hj, if_true]
      rfl
    · simp only [hj, if_false]
      rfl

theorem ipc_fleet (t : Table) (j : ℕ) (env : AllocEnv) :
    Alike (t.ipc j env).fleet t.fleet ∨ Alike (t.ipc j env).fleet (t.fleet.step (.ipc j env)) := by
  cases hc : t.children[j]? with
  | none =>
    left
    simp only [Table.ipc, hc]
    exact ⟨rfl, rfl⟩
  | some c =>
    have hworker : t.fleet.workers[j]? = some c.worker := by
      show (t.children.map Child.worker)[j]? = _
      rw [List.getElem?_map, hc]
      rfl
    cases hdue : c.due with
    | true =>
      left
      simp only [Table.ipc, hc, hdue, if_true]
      exact ⟨rfl, rfl⟩
    | false =>
      right
      simp only [Table.ipc, hc, hdue, Alike, Fleet.step, hworker]
      refine ⟨rfl, ?_⟩
      show (t.children.set j _).map Child.worker = _
      rw [List.map_set]
      rfl

theorem add_fleet (t : Table) (k : ℕ) (rng : ℕ → ℕ) :
    Alike (t.add ⟨k, Worker.init rng, false⟩).fleet (t.fleet.step (.fork rng)) := by
  refine ⟨rfl, ?_⟩
  show (t.children ++ [_]).map Child.worker = _
  rw [List.map_append]
  rfl

end Table

section Turns
variable {h : Host} {l : ℕ} {t' : Table}

theorem turn_modify {m : ℕ} {f : Table → Table}
    (hf : ∀ t, h.tables.objects[m]? = some t →
      Alike (f t).fleet t.fleet ∨ ∃ act, Alike (f t).fleet (t.fleet.step act))
    (ht : (h.tables.modify m f).objects[l]? = some t') : Turn h l t' := by
  rcases Shm.modify_cases ht with ⟨_, hold⟩ | ⟨rfl, t, hold, rfl⟩
  · exact .same hold ⟨rfl, rfl⟩
  · rcases hf t hold with hsame | ⟨act, hact⟩
    · exact .same hold hsame
    · exact .acts act hold hact

theorem turn_create (ht : (h.tables.create Table.fresh).objects[l]? = some t') : Turn h l t' := by
  rcases Shm.create_cases ht with hold | ⟨_, hnew, _, rfl⟩
  · exact .same hold ⟨rfl, rfl⟩
  · exact .fresh hnew rfl

theorem turn_step (act : HostAct) (hkeep : h.wipes act ≠ some l)
    (ht : (h.step act).tables.objects[l]? = some t') : Turn h l t' := by
  have hdoes := step_does h act
  generalize h.step act = h' at hdoes ht
  cases hdoes with
  | quiet _ tables =>
    rw [tables] at ht
    exact .same ht ⟨rfl, rfl⟩
  | recv m j r => exact turn_modify (fun t _ => Or.inr ⟨_, recv_fleet t j r⟩) ht
  | count m j child due => exact turn_modify (fun t _ => Or.inl (count_fleet t j)) ht
  | ipc m j env =>
    refine turn_modify (fun t _ => ?_) ht
    rcases ipc_fleet t j env with hsame | hact
    · exact Or.inl hsame
    · exact Or.inr ⟨_, hact⟩
  | joins a rng shaking _ tables =>
    rw [tables] at ht
    exact turn_modify (fun t _ => Or.inr ⟨_, add_fleet t _ rng⟩) ht
  | initStats i r pc _ tables =>
    rw [tables] at ht
    exact .same ht ⟨rfl, rfl⟩
  | initStore i r pc _ tables =>
    rw [tables] at ht
    cases r with
    | refused => exact .same ht ⟨rfl, rfl⟩
    | opened => exact turn_create ht
    | mapped =>
      have hnamed : h.tables.named ≠ some l := by
        simpa only [Host.wipes, pc] using hkeep
      rcases Shm.modify_cases ht with ⟨_, hcreated⟩ | ⟨htarget, t, hcreated, rfl⟩
      · exact turn_create hcreated
      · rcases Shm.create_cases hcreated with hold | ⟨_, hnew, _, rfl⟩
        · -- an old object is the target only if it has the name
          exact absurd (Shm.target_named_of_old hold htarget) hnamed
        · exact .fresh hnew rfl

end Turns

/-- However servers are started, stopped and killed: a table that no later server has
filled with zeros, and the workers on it, have gone through a run of a fleet, whose acts
are whole `ipc` calls. -/
theorem tables_are_fleets (acts : List HostAct) (l : ℕ)
    (h : Run.Along Host.step (fun h act => h.wipes act ≠ some l) Host.start acts) :
    ∀ t, (runHost acts).tables.objects[l]? = some t →
      ∃ fleetActs, (runFleet fleetActs).store = t.store ∧
        (runFleet fleetActs).workers = t.children.map Child.worker := by
  have hinv : ∀ t, (runHost acts).tables.objects[l]? = some t →
      ∃ fleetActs, Alike (runFleet fleetActs) t.fleet := by
    refine Run.invariant (I := fun h : Host => ∀ t, h.tables.objects[l]? = some t →
      ∃ fleetActs, Alike (runFleet fleetActs) t.fleet) ?_ ?_ h
    · intro h act hkeep ih t' ht'
      cases turn_step act hkeep ht' with
      | fresh _ now =>
        rw [now]
        exact ⟨[], rfl, rfl⟩
      | @same t old now =>
        obtain ⟨fleetActs, hrun⟩ := ih t old
        exact ⟨fleetActs, hrun.1.trans now.1.symm, hrun.2.trans now.2.symm⟩
      | @acts t act old now =>
        obtain ⟨fleetActs, hrun⟩ := ih t old
        have hafter := alike_step hrun act
        refine ⟨fleetActs ++ [act], ?_⟩
        rw [runFleet, List.foldl_append]
        exact ⟨hafter.1.trans now.1.symm, hafter.2.trans now.2.symm⟩
    · intro t ht
      cases ht
  intro t ht
  exact hinv t ht

/-- The first server starts and takes a player, who logs in. -/
def firstServer : List HostAct :=
  [.launch, .init 0 .mapped, .init 0 .mapped, .listen 0 true, .accept 0,
   .handshake 0 (fun _ => 0) true, .recv 0 0 (some loginPacket), .ipc 0 0 env0, .ipc 0 0 env0]

/-- It stops; a second server takes another player, and the first one plays on. -/
def secondServer : List HostAct :=
  [.stop 0, .unlink 0, .unlink 0, .launch, .init 1 .mapped, .init 1 .mapped, .listen 1 true,
   .accept 1, .handshake 0 (fun _ => 1) true, .recv 0 0 (some ⟨opEndTurn, []⟩), .count 0 0,
   .ipc 0 0 env0]

theorem tables_are_fleets_both :
    ∃ t, (runHost (firstServer ++ secondServer)).tables.objects[0]? = some t ∧
      ∃ fleetActs, (runFleet fleetActs).store = t.store ∧
        (runFleet fleetActs).workers = t.children.map Child.worker := by
  obtain ⟨t, ht⟩ : ∃ t, (runHost (firstServer ++ secondServer)).tables.objects[0]? = some t :=
    ⟨_, List.getElem?_eq_getElem (by decide +kernel)⟩
  exact ⟨t, ht, tables_are_fleets (firstServer ++ secondServer) 0 (by decide +kernel) t ht⟩

end MiniTcg.Server
