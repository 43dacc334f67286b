import MiniTcg.Lib.Scan
import MiniTcg.Game.State

/-!
# The shared session store

`shm_store_t` and the four `ipc_*_session` calls of `ipc.c`, each as one atomic
function. The linear searches are first-match scans of the slot array. Values
of `time(NULL)`, `getpid()` and `rand()` are arguments.
-/
namespace MiniTcg.Ipc

open MiniTcg.Game

/-- `MAX_SESSIONS`. -/
def maxSessions : ℕ := 128

/-- `session_entry_t`. -/
structure SessionEntry where
  sessionId : UInt64
  lastSeen : UInt64
  st : State
  hand : Hand
  valid : Bool
  deriving DecidableEq, Repr

def SessionEntry.zero : SessionEntry := ⟨0, 0, State.zero, Hand.zero, false⟩

/-- `shm_store_t`. -/
structure Store where
  sessions : List SessionEntry
  size : sessions.length = maxSessions
  deriving DecidableEq

/-- The store after `ipc_store_init`. -/
def Store.zero : Store := ⟨List.replicate maxSessions SessionEntry.zero, List.length_replicate⟩

/-- The test of the searches by id. -/
def SessionEntry.has (sid : UInt64) (e : SessionEntry) : Bool := e.valid && e.sessionId == sid

/-- What one `ipc_alloc_session` call reads from its environment. -/
structure AllocEnv where
  time : UInt64
  pid : ℕ
  rand : ℕ
  seen : UInt64
  deriving DecidableEq, Repr

/-- The id `ipc_alloc_session` computes for slot `i`. -/
def allocId (env : AllocEnv) (i : ℕ) : UInt64 :=
  let sid := env.time + UInt64.ofNat i + UInt64.ofNat env.pid
  let sid := sid ^^^ (UInt64.ofNat env.rand <<< 32)
  if sid = 0 then 1 else sid

def Store.modify (s : Store) (i : ℕ) (f : SessionEntry → SessionEntry) : Store :=
  ⟨s.sessions.modify i f, (List.length_modify f _ i).trans s.size⟩

/-- `ipc_alloc_session`: the store it leaves and the id it returns. -/
def ipcAllocSession (s : Store) (env : AllocEnv) : Store × UInt64 :=
  match s.sessions.findIdx? (fun e => !e.valid) with
  | some i =>
    let sid := allocId env i
    (s.modify i fun e => { e with valid := true, sessionId := sid, lastSeen := env.seen }, sid)
  | none => (s, 0)

/-- Rewrite the first slot with this id, or return `-1`. -/
def Store.onSlot (s : Store) (sid : UInt64) (f : SessionEntry → SessionEntry) : Store × ℤ :=
  match h : Scan.updateFirst (SessionEntry.has sid) f s.sessions with
  | some l => (⟨l, (Scan.updateFirst_length h).trans s.size⟩, 0)
  | none => (s, -1)

/-- `ipc_save_session`. -/
def ipcSaveSession (s : Store) (sid : UInt64) (st : State) (hand : Hand) (now : UInt64) :
    Store × ℤ :=
  s.onSlot sid fun e => { e with st := st, hand := hand, lastSeen := now }

/-- `ipc_touch_session`. -/
def ipcTouchSession (s : Store) (sid : UInt64) (now : UInt64) : Store × ℤ :=
  s.onSlot sid fun e => { e with lastSeen := now }

/-- The pair `ipc_load_session` copies out, when it finds the id. -/
def Store.lookup (s : Store) (sid : UInt64) : Option (State × Hand) :=
  (s.sessions.find? (SessionEntry.has sid)).map fun e => (e.st, e.hand)

/-- `ipc_load_session`: the store, the return code, and the caller's `st` and
`hand` as it leaves them. -/
def ipcLoadSession (s : Store) (sid : UInt64) (st : State) (hand : Hand) (now : UInt64) :
    Store × ℤ × State × Hand :=
  match s.lookup sid with
  | some (st', hand') => ((s.onSlot sid fun e => { e with lastSeen := now }).1, 0, st', hand')
  | none => (s, -1, st, hand)

/-! ### What a rewrite of one slot does -/

section OnSlot
variable {s : Store} {sid : UInt64} {f : SessionEntry → SessionEntry}

theorem onSlot_none (h : s.lookup sid = none) : s.onSlot sid f = (s, -1) := by
  have hn : Scan.updateFirst (SessionEntry.has sid) f s.sessions = none := by
    rw [Scan.updateFirst_eq_none]
    simpa [Store.lookup] using h
  unfold Store.onSlot
  split
  · rename_i hs
    rw [hn] at hs
    cases hs
  · rfl

theorem onSlot_some {r : State × Hand} (h : s.lookup sid = some r) :
    ∃ l, Scan.updateFirst (SessionEntry.has sid) f s.sessions = some l ∧
      (s.onSlot sid f).1.sessions = l ∧ (s.onSlot sid f).2 = 0 := by
  unfold Store.onSlot
  split
  · exact ⟨_, ‹_›, rfl, rfl⟩
  · rename_i hn
    rw [Scan.updateFirst_eq_none] at hn
    have : s.lookup sid = none := by simpa [Store.lookup] using hn
    rw [this] at h
    cases h

theorem onSlot_rc : (s.onSlot sid f).2 = if (s.lookup sid).isSome then 0 else -1 := by
  cases h : s.lookup sid with
  | none => simp [onSlot_none h]
  | some r =>
    obtain ⟨_, _, _, hrc⟩ := onSlot_some (f := f) h
    simpa using hrc

/-- The rewrites of the store keep the slot's id and validity. -/
def Keeps (f : SessionEntry → SessionEntry) : Prop :=
  ∀ e, (f e).sessionId = e.sessionId ∧ (f e).valid = e.valid

theorem Keeps.has (hf : Keeps f) (sid : UInt64) (e : SessionEntry) :
    (f e).has sid = e.has sid := by
  simp only [SessionEntry.has, (hf e).1, (hf e).2]

theorem lookup_onSlot_same (hf : Keeps f) :
    (s.onSlot sid f).1.lookup sid =
      (s.sessions.find? (SessionEntry.has sid)).map fun e => ((f e).st, (f e).hand) := by
  cases h : s.lookup sid with
  | none =>
    have hn : s.sessions.find? (SessionEntry.has sid) = none := by simpa [Store.lookup] using h
    rw [onSlot_none h, hn]
    exact h
  | some r =>
    obtain ⟨l, hl, hs, _⟩ := onSlot_some (f := f) h
    unfold Store.lookup
    rw [hs, Scan.find?_updateFirst_same hl fun a ha => by rwa [hf.has], Option.map_map]
    rfl

theorem lookup_onSlot_other {sid' : UInt64} (hf : Keeps f) (hne : sid' ≠ sid) :
    (s.onSlot sid f).1.lookup sid' = s.lookup sid' := by
  cases h : s.lookup sid with
  | none => rw [onSlot_none h]
  | some r =>
    obtain ⟨l, hl, hs, _⟩ := onSlot_some (f := f) h
    unfold Store.lookup
    rw [hs, Scan.find?_updateFirst_other hl]
    intro a ha
    rw [hf.has, and_self]
    simp only [SessionEntry.has, Bool.and_eq_true, beq_iff_eq] at ha
    simp [SessionEntry.has, ha.2, Ne.symm hne]

/-- Slots with another id, and free slots, are not touched. -/
theorem onSlot_getElem? {i : ℕ} {e : SessionEntry} (hi : s.sessions[i]? = some e)
    (he : e.has sid = false) : (s.onSlot sid f).1.sessions[i]? = some e := by
  cases h : s.lookup sid with
  | none => rwa [onSlot_none h]
  | some r =>
    obtain ⟨l, hl, hs, _⟩ := onSlot_some (f := f) h
    rw [hs]
    exact Scan.getElem?_updateFirst hl hi he

end OnSlot

theorem keeps_save (st : State) (hand : Hand) (now : UInt64) :
    Keeps fun e => { e with st := st, hand := hand, lastSeen := now } := fun _ => ⟨rfl, rfl⟩

theorem keeps_seen (now : UInt64) : Keeps fun e => { e with lastSeen := now } :=
  fun _ => ⟨rfl, rfl⟩

/-! ### One specification lemma per call -/

section Calls
variable (s : Store) (sid sid' : UInt64) (st : State) (hand : Hand) (now : UInt64)

theorem lookup_save_same :
    (ipcSaveSession s sid st hand now).1.lookup sid = (s.lookup sid).map fun _ => (st, hand) := by
  unfold ipcSaveSession
  rw [lookup_onSlot_same (keeps_save st hand now)]
  simp [Store.lookup, Option.map_map, Function.comp_def]

theorem lookup_save_other (h : sid' ≠ sid) :
    (ipcSaveSession s sid st hand now).1.lookup sid' = s.lookup sid' :=
  lookup_onSlot_other (keeps_save st hand now) h

theorem lookup_seen :
    (s.onSlot sid fun e => { e with lastSeen := now }).1.lookup sid' = s.lookup sid' := by
  by_cases h : sid' = sid
  · subst h
    exact lookup_onSlot_same (keeps_seen now)
  · exact lookup_onSlot_other (keeps_seen now) h

theorem lookup_touch : (ipcTouchSession s sid now).1.lookup sid' = s.lookup sid' :=
  lookup_seen s sid sid' now

theorem lookup_load : (ipcLoadSession s sid st hand now).1.lookup sid' = s.lookup sid' := by
  unfold ipcLoadSession
  split
  · exact lookup_seen s sid sid' now
  · rfl

theorem save_rc :
    (ipcSaveSession s sid st hand now).2 = if (s.lookup sid).isSome then 0 else -1 := onSlot_rc

theorem touch_rc :
    (ipcTouchSession s sid now).2 = if (s.lookup sid).isSome then 0 else -1 := onSlot_rc

theorem load_found {st' : State} {hand' : Hand} (h : s.lookup sid = some (st', hand')) :
    (ipcLoadSession s sid st hand now).2 = (0, st', hand') := by
  unfold ipcLoadSession
  rw [h]

theorem load_missing (h : s.lookup sid = none) :
    ipcLoadSession s sid st hand now = (s, -1, st, hand) := by
  unfold ipcLoadSession
  rw [h]

/-- A load does to the store what a touch does. -/
theorem load_store : (ipcLoadSession s sid st hand now).1 =
    (s.onSlot sid fun e => { e with lastSeen := now }).1 := by
  cases h : s.lookup sid with
  | none => rw [load_missing _ _ _ _ _ h, onSlot_none h]
  | some r =>
    unfold ipcLoadSession
    rw [h]

/-- A returned id is found at once. -/
theorem lookup_alloc_self {env : AllocEnv} (h : (ipcAllocSession s env).2 ≠ 0) :
    ((ipcAllocSession s env).1.lookup (ipcAllocSession s env).2).isSome := by
  cases hf : s.sessions.findIdx? (fun e => !e.valid) with
  | none => simp [ipcAllocSession, hf] at h
  | some i =>
    have hi := (List.findIdx?_eq_some_iff_getElem.mp hf).1
    simp only [ipcAllocSession, hf, Store.lookup, Store.modify, Option.isSome_map,
      List.find?_isSome]
    refine ⟨_, List.getElem_mem (n := i) (by rwa [List.length_modify]), ?_⟩
    simp [SessionEntry.has]

/-- The slots of other ids are not touched by an allocation. -/
theorem lookup_alloc_other {env : AllocEnv} (h : (ipcAllocSession s env).2 ≠ sid) :
    (ipcAllocSession s env).1.lookup sid = s.lookup sid := by
  cases hf : s.sessions.findIdx? (fun e => !e.valid) with
  | none => simp [ipcAllocSession, hf]
  | some i =>
    obtain ⟨hi, hv, _⟩ := List.findIdx?_eq_some_iff_getElem.mp hf
    simp only [ipcAllocSession, hf] at h ⊢
    obtain ⟨before, a, after, hs, hb⟩ : ∃ before a after,
        s.sessions = before ++ a :: after ∧ before.length = i :=
      ⟨s.sessions.take i, s.sessions[i], s.sessions.drop (i + 1), by simp,
        List.length_take_of_le (Nat.le_of_lt hi)⟩
    subst hb
    have ha : a.valid = false := by simpa [hs] using hv
    have hne : (allocId env before.length == sid) = false := by simpa using h
    simp only [Store.lookup, Store.modify, hs, Scan.modify_length_append, List.find?_append,
      List.find?_cons, SessionEntry.has, ha, hne, Bool.and_false, Bool.false_and]

end Calls

end MiniTcg.Ipc
