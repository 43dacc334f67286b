import Mathlib.Data.List.Nodup
import MiniTcg.Ipc.Store
import MiniTcg.Lib.Run

/-!
# The session store is a finite map

A history lists calls with what they returned, oldest first. `ids` are the
session ids handed out and `latest` the pair of the last save that succeeded.
The slot array always consists of one entry for each id handed out, in order,
followed by untouched slots; every answer of the store is read off `ids` and
`latest`.
-/
namespace MiniTcg.Ipc

open MiniTcg.Game

inductive Call
  | alloc (env : AllocEnv)
  | save (sid : UInt64) (st : State) (hand : Hand) (now : UInt64)
  | load (sid : UInt64) (st : State) (hand : Hand) (now : UInt64)
  | touch (sid : UInt64) (now : UInt64)

inductive Ret
  | id (sid : UInt64)
  | code (rc : ℤ)

def Store.call (s : Store) : Call → Store × Ret
  | .alloc env => ((ipcAllocSession s env).1, .id (ipcAllocSession s env).2)
  | .save sid st hand now =>
    ((ipcSaveSession s sid st hand now).1, .code (ipcSaveSession s sid st hand now).2)
  | .load sid st hand now =>
    ((ipcLoadSession s sid st hand now).1, .code (ipcLoadSession s sid st hand now).2.1)
  | .touch sid now => ((ipcTouchSession s sid now).1, .code (ipcTouchSession s sid now).2)

abbrev History := List (Call × Ret)

def perform (w : Store × History) (c : Call) : Store × History :=
  ((w.1.call c).1, w.2 ++ [(c, (w.1.call c).2)])

/-- The store and the history after some calls on the zeroed store. -/
def performAll (calls : List Call) : Store × History := calls.foldl perform (Store.zero, [])

def idOf : Call × Ret → Option UInt64
  | (.alloc _, .id sid) => if sid = 0 then none else some sid
  | _ => none

/-- The ids handed out, in order. -/
def ids (h : History) : List UInt64 := h.filterMap idOf

def savedFor (sid : UInt64) : Call × Ret → Option (State × Hand)
  | (.save sid' st hand _, .code rc) => if sid' = sid ∧ rc = 0 then some (st, hand) else none
  | _ => none

/-- The pair of the latest successful save for `sid`. -/
def latest (h : History) (sid : UInt64) : Option (State × Hand) :=
  (h.filterMap (savedFor sid)).getLast?

def isAlloc : Call × Ret → Bool
  | (.alloc _, _) => true
  | _ => false

def zeroPair : State × Hand := (State.zero, Hand.zero)

/-- The id the next `ipc_alloc_session` would compute, while a slot is free. -/
def Store.nextId (s : Store) (env : AllocEnv) : Option UInt64 :=
  (s.sessions.findIdx? (fun e => !e.valid)).map (allocId env)

/-- An allocation whose computed id differs from the ids of all valid slots. -/
def FreshCall (w : Store × History) : Call → Prop
  | .alloc env =>
    ∀ sid ∈ (w.1.nextId env).toList, ∀ e ∈ w.1.sessions, e.valid = true → e.sessionId ≠ sid
  | _ => True

instance (w : Store × History) : (c : Call) → Decidable (FreshCall w c)
  | .alloc env => List.decidableBAll
      (fun sid => ∀ e ∈ w.1.sessions, e.valid = true → e.sessionId ≠ sid) (w.1.nextId env).toList
  | .save .. => isTrue trivial
  | .load .. => isTrue trivial
  | .touch .. => isTrue trivial

abbrev Fresh (calls : List Call) : Prop := Run.Along perform FreshCall (Store.zero, []) calls

/-! ### The layout of the slot array -/

structure Layout (s : Store) (es : List SessionEntry) : Prop where
  slots : s.sessions = es ++ List.replicate (maxSessions - es.length) SessionEntry.zero
  valid : ∀ e ∈ es, e.valid = true
  nonzero : ∀ e ∈ es, e.sessionId ≠ 0
  nodup : (es.map (·.sessionId)).Nodup

theorem layout_zero : Layout Store.zero [] :=
  ⟨rfl, by simp, by simp, List.nodup_nil⟩

section Layout
variable {s : Store} {es : List SessionEntry}

theorem Layout.length_le (hl : Layout s es) : es.length ≤ maxSessions := by
  have h := s.size
  rw [hl.slots, List.length_append, List.length_replicate] at h
  omega

theorem free_not_has (sid : UInt64) (n : ℕ) :
    ∀ b ∈ List.replicate n SessionEntry.zero, b.has sid = false := by
  intro b hb
  rw [List.eq_of_mem_replicate hb]
  rfl

theorem Layout.find (hl : Layout s es) (sid : UInt64) :
    s.sessions.find? (SessionEntry.has sid) = es.find? (SessionEntry.has sid) := by
  have hn : (List.replicate (maxSessions - es.length) SessionEntry.zero).find?
      (SessionEntry.has sid) = none := by
    rw [List.find?_eq_none]
    intro b hb
    simp [free_not_has sid _ b hb]
  rw [hl.slots, List.find?_append, hn, Option.or_none]

/-- An id is found exactly when an entry carries it, and then it is that entry. -/
theorem Layout.find_iff (hl : Layout s es) {sid : UInt64} {e : SessionEntry} :
    s.sessions.find? (SessionEntry.has sid) = some e ↔ e ∈ es ∧ e.sessionId = sid := by
  rw [hl.find]
  constructor
  · intro h
    have hp := List.find?_some h
    simp only [SessionEntry.has, Bool.and_eq_true, beq_iff_eq] at hp
    exact ⟨List.mem_of_find?_eq_some h, hp.2⟩
  · rintro ⟨hm, rfl⟩
    obtain ⟨d, hd⟩ : ∃ d, es.find? (SessionEntry.has e.sessionId) = some d := by
      rw [← Option.isSome_iff_exists, List.find?_isSome]
      exact ⟨e, hm, by simp [SessionEntry.has, hl.valid e hm]⟩
    have hp := List.find?_some hd
    simp only [SessionEntry.has, Bool.and_eq_true, beq_iff_eq] at hp
    rw [hd]
    exact congrArg some (List.inj_on_of_nodup_map hl.nodup (List.mem_of_find?_eq_some hd) hm hp.2)

theorem Layout.lookup_eq_none (hl : Layout s es) (sid : UInt64) :
    s.lookup sid = none ↔ sid ∉ es.map (·.sessionId) := by
  rw [Store.lookup, Option.map_eq_none_iff, Option.eq_none_iff_forall_ne_some]
  constructor
  · intro h hm
    obtain ⟨e, he, hs⟩ := List.mem_map.mp hm
    exact h e (hl.find_iff.mpr ⟨he, hs⟩)
  · intro h e he
    obtain ⟨hm, hs⟩ := hl.find_iff.mp he
    exact h (List.mem_map.mpr ⟨e, hm, hs⟩)

/-- Rewriting the slot of an id rewrites its entry. -/
theorem Layout.onSlot (hl : Layout s es) (sid : UInt64) {f : SessionEntry → SessionEntry}
    (hf : Keeps f) :
    ∃ es', Layout (s.onSlot sid f).1 es' ∧
      es'.map (·.sessionId) = es.map (·.sessionId) ∧
      (∀ e' ∈ es', e' ∈ es ∧ e'.sessionId ≠ sid ∨ ∃ e ∈ es, e.sessionId = sid ∧ e' = f e) := by
  cases h : s.lookup sid with
  | none =>
    rw [onSlot_none h]
    refine ⟨es, hl, rfl, fun e he => Or.inl ⟨he, ?_⟩⟩
    intro hs
    exact (hl.lookup_eq_none sid).mp h (List.mem_map.mpr ⟨e, he, hs⟩)
  | some r =>
    obtain ⟨l, hu, hs, _⟩ := onSlot_some (f := f) h
    rw [hl.slots, Scan.updateFirst_append (free_not_has sid _), Option.map_eq_some_iff] at hu
    obtain ⟨es', hes, rfl⟩ := hu
    have hk := Scan.updateFirst_keys (fun e => e.sessionId) hes fun a => (hf a).1
    have hlen := Scan.updateFirst_length hes
    have hmem : ∀ e' ∈ es', e' ∈ es ∧ e'.sessionId ≠ sid ∨
        ∃ e ∈ es, e.sessionId = sid ∧ e' = f e := by
      obtain ⟨before, a, after, rfl, rfl, ha, _⟩ := Scan.updateFirst_split hes
      have hid : a.sessionId = sid := by
        simp only [SessionEntry.has, Bool.and_eq_true, beq_iff_eq] at ha
        exact ha.2
      have hnd := hl.nodup
      rw [List.map_append, List.map_cons, List.nodup_middle, List.nodup_cons,
        ← List.map_append] at hnd
      intro e' he'
      have hcases : e' ∈ before ++ after ∨ e' = f a := by
        simp only [List.mem_append, List.mem_cons] at he' ⊢
        tauto
      rcases hcases with hold | rfl
      · refine Or.inl ⟨?_, ?_⟩
        · simp only [List.mem_append, List.mem_cons] at hold ⊢
          tauto
        · intro he
          exact hnd.1 (List.mem_map.mpr ⟨e', hold, he.trans hid.symm⟩)
      · exact Or.inr ⟨a, by simp, hid, rfl⟩
    have hkeep : ∀ e' ∈ es', e'.valid = true ∧ e'.sessionId ≠ 0 := by
      intro e' he'
      rcases hmem e' he' with ⟨hm, _⟩ | ⟨e, hm, _, rfl⟩
      · exact ⟨hl.valid _ hm, hl.nonzero _ hm⟩
      · rw [(hf e).1, (hf e).2]
        exact ⟨hl.valid _ hm, hl.nonzero _ hm⟩
    refine ⟨es', ⟨?_, fun e he => (hkeep e he).1, fun e he => (hkeep e he).2, ?_⟩, hk, hmem⟩
    · rw [hs, hlen]
    · rw [hk]
      exact hl.nodup

theorem Layout.firstFree (hl : Layout s es) :
    s.sessions.findIdx? (fun e => !e.valid) =
      if es.length < maxSessions then some es.length else none := by
  have hn : es.findIdx? (fun e => !e.valid) = none := by
    rw [List.findIdx?_eq_none_iff]
    intro e he
    simp [hl.valid e he]
  rw [hl.slots, List.findIdx?_append, hn, Option.none_or]
  split
  · rename_i hlt
    obtain ⟨k, hk⟩ : ∃ k, maxSessions - es.length = k + 1 := ⟨maxSessions - es.length - 1, by omega⟩
    rw [hk, List.replicate_succ, List.findIdx?_cons]
    simp [SessionEntry.zero]
  · rename_i hge
    have : maxSessions - es.length = 0 := by omega
    simp [this]

def newEntry (env : AllocEnv) (i : ℕ) : SessionEntry :=
  ⟨allocId env i, env.seen, State.zero, Hand.zero, true⟩

theorem allocId_ne_zero (env : AllocEnv) (i : ℕ) : allocId env i ≠ 0 := by
  unfold allocId
  simp only
  split
  · decide
  · assumption

theorem Layout.alloc_full (hl : Layout s es) (env : AllocEnv) (h : maxSessions ≤ es.length) :
    ipcAllocSession s env = (s, 0) := by
  unfold ipcAllocSession
  rw [hl.firstFree, if_neg (by omega)]

theorem Layout.alloc_room (hl : Layout s es) (env : AllocEnv) (h : es.length < maxSessions) :
    (ipcAllocSession s env).2 = allocId env es.length ∧
      (ipcAllocSession s env).1.sessions =
        (es ++ [newEntry env es.length]) ++
          List.replicate (maxSessions - (es ++ [newEntry env es.length]).length)
            SessionEntry.zero := by
  have hr : ipcAllocSession s env = (s.modify es.length fun e =>
      { e with valid := true, sessionId := allocId env es.length, lastSeen := env.seen },
      allocId env es.length) := by
    unfold ipcAllocSession
    rw [hl.firstFree, if_pos h]
  obtain ⟨k, hk⟩ : ∃ k, maxSessions - es.length = k + 1 := ⟨maxSessions - es.length - 1, by omega⟩
  have hk' : maxSessions - (es.length + 1) = k := by omega
  rw [hr]
  refine ⟨rfl, ?_⟩
  change s.sessions.modify es.length _ = _
  rw [hl.slots, hk, List.replicate_succ, Scan.modify_length_append, List.length_append,
    List.length_singleton, hk', List.append_assoc]
  rfl

/-- An allocation with a new id appends a zeroed entry. -/
theorem Layout.alloc_fresh (hl : Layout s es) (env : AllocEnv) (h : es.length < maxSessions)
    (hnew : allocId env es.length ∉ es.map (·.sessionId)) :
    Layout (ipcAllocSession s env).1 (es ++ [newEntry env es.length]) := by
  refine ⟨(hl.alloc_room env h).2, fun e he => ?_, fun e he => ?_, ?_⟩
  · rcases List.mem_append.mp he with he | he
    · exact hl.valid e he
    · rw [List.mem_singleton.mp he]
      rfl
  · rcases List.mem_append.mp he with he | he
    · exact hl.nonzero e he
    · rw [List.mem_singleton.mp he]
      exact allocId_ne_zero env _
  · rw [List.map_append]
    refine List.Nodup.append hl.nodup (List.nodup_singleton _) ?_
    simpa [newEntry] using hnew

end Layout

/-! ### The slots in use come first -/

/-- No free slot stands before a used one, and no used slot has the id zero; two
may have the same id. -/
def Store.Packed (s : Store) : Prop :=
  ∃ used free, s.sessions = used ++ free ∧
    (∀ e ∈ used, e.valid = true ∧ e.sessionId ≠ 0) ∧ ∀ e ∈ free, e.valid = false

theorem packed_zero : Store.zero.Packed := by
  refine ⟨[], List.replicate maxSessions SessionEntry.zero, rfl, ?_, fun e he => ?_⟩
  · exact fun e he => absurd he List.not_mem_nil
  · rw [List.eq_of_mem_replicate he]
    rfl

section Packed
variable {s : Store}

theorem has_of_free {free : List SessionEntry} (h : ∀ e ∈ free, e.valid = false) (sid : UInt64) :
    ∀ e ∈ free, e.has sid = false := by
  intro e he
  rw [SessionEntry.has, h e he, Bool.false_and]

theorem packed_onSlot (h : s.Packed) (sid : UInt64) {f : SessionEntry → SessionEntry}
    (hf : Keeps f) : (s.onSlot sid f).1.Packed := by
  cases hl : s.lookup sid with
  | none =>
    rw [onSlot_none hl]
    exact h
  | some r =>
    obtain ⟨used, free, hs, hused, hfree⟩ := h
    obtain ⟨l, hu, hl', _⟩ := onSlot_some (f := f) hl
    rw [hs, Scan.updateFirst_append (has_of_free hfree sid), Option.map_eq_some_iff] at hu
    obtain ⟨used', hup, rfl⟩ := hu
    refine ⟨used', free, hl', fun e he => ?_, hfree⟩
    obtain ⟨before, a, after, rfl, rfl, _, _⟩ := Scan.updateFirst_split hup
    rcases List.mem_append.mp he with he | he
    · exact hused e (List.mem_append_left _ he)
    · rcases List.mem_cons.mp he with rfl | he
      · rw [(hf a).1, (hf a).2]
        exact hused a (List.mem_append_right _ List.mem_cons_self)
      · exact hused e (List.mem_append_right _ (List.mem_cons_of_mem a he))

/-- An allocation fails, or takes the first free slot. -/
theorem Store.Packed.alloc (h : s.Packed) (env : AllocEnv) :
    ipcAllocSession s env = (s, 0) ∨
      ∃ used a free i, s.sessions = used ++ a :: free ∧
        (∀ e ∈ used, e.valid = true ∧ e.sessionId ≠ 0) ∧ (∀ e ∈ a :: free, e.valid = false) ∧
        (ipcAllocSession s env).2 = allocId env i ∧
        (ipcAllocSession s env).1.sessions = used ++
          { a with valid := true, sessionId := allocId env i, lastSeen := env.seen } :: free := by
  obtain ⟨used, free, hs, hused, hfree⟩ := h
  have hn : used.findIdx? (fun e => !e.valid) = none := by
    rw [List.findIdx?_eq_none_iff]
    intro e he
    simp [(hused e he).1]
  cases free with
  | nil =>
    left
    unfold ipcAllocSession
    rw [hs, List.append_nil, hn]
  | cons a free =>
    right
    have hi : s.sessions.findIdx? (fun e => !e.valid) = some used.length := by
      rw [hs, List.findIdx?_append, hn, Option.none_or, List.findIdx?_cons]
      simp [hfree a List.mem_cons_self]
    refine ⟨used, a, free, used.length, hs, hused, hfree, ?_⟩
    unfold ipcAllocSession
    rw [hi]
    refine ⟨rfl, ?_⟩
    show s.sessions.modify used.length _ = _
    rw [hs, Scan.modify_length_append]

theorem packed_alloc (h : s.Packed) (env : AllocEnv) : (ipcAllocSession s env).1.Packed := by
  rcases h.alloc env with hr | ⟨used, a, free, i, _, hused, hfree, _, hs⟩
  · rw [hr]
    exact h
  · refine ⟨used ++ [_], free, hs.trans (List.append_cons _ _ _), fun e he => ?_,
      fun e he => hfree e (List.mem_cons_of_mem a he)⟩
    rcases List.mem_append.mp he with he | he
    · exact hused e he
    · rw [List.mem_singleton.mp he]
      exact ⟨rfl, allocId_ne_zero env i⟩

/-- An allocation does not hide a pair: an entry of its id that is there already
is found first. -/
theorem Store.Packed.lookup_alloc (h : s.Packed) (env : AllocEnv) {sid : UInt64}
    {p : State × Hand} (hl : s.lookup sid = some p) :
    (ipcAllocSession s env).1.lookup sid = some p := by
  rcases h.alloc env with hr | ⟨used, a, free, i, hs, _, hfree, _, hs'⟩
  · rw [hr]
    exact hl
  · have hnone : (a :: free).find? (SessionEntry.has sid) = none := by
      rw [List.find?_eq_none]
      intro e he
      simp [has_of_free hfree sid e he]
    rw [Store.lookup, hs, List.find?_append, hnone, Option.or_none] at hl
    obtain ⟨e, he, hp⟩ := Option.map_eq_some_iff.mp hl
    rw [Store.lookup, hs', List.find?_append, he, Option.some_or, Option.map_some, hp]

theorem Store.Packed.lookup_zero (h : s.Packed) : s.lookup 0 = none := by
  obtain ⟨used, free, hs, hused, hfree⟩ := h
  rw [Store.lookup, Option.map_eq_none_iff, List.find?_eq_none, hs]
  intro e he
  rcases List.mem_append.mp he with he | he
  · simp [SessionEntry.has, (hused e he).2]
  · simp [has_of_free hfree 0 e he]

end Packed

/-! ### Stores and histories in step -/

theorem ids_append (h : History) (x : Call × Ret) : ids (h ++ [x]) = ids h ++ (idOf x).toList := by
  unfold ids
  rw [List.filterMap_append]
  cases hx : idOf x <;> simp [hx]

theorem latest_append (h : History) (x : Call × Ret) (sid : UInt64) :
    latest (h ++ [x]) sid = (savedFor sid x).or (latest h sid) := by
  unfold latest
  rw [List.filterMap_append, List.getLast?_append]
  cases hx : savedFor sid x <;> simp [hx]

structure Represents (w : Store × History) (es : List SessionEntry) : Prop where
  layout : Layout w.1 es
  ids_eq : es.map (·.sessionId) = ids w.2
  pairs : ∀ e ∈ es, (e.st, e.hand) = (latest w.2 e.sessionId).getD zeroPair
  early : ∀ sid, sid ∉ ids w.2 → latest w.2 sid = none
  count : es.length = min (w.2.countP isAlloc) maxSessions

theorem represents_zero : Represents (Store.zero, []) [] :=
  ⟨layout_zero, rfl, by simp, fun _ _ => rfl, rfl⟩

section Represents
variable {w : Store × History} {es : List SessionEntry}

theorem Represents.lookup_isSome (hr : Represents w es) (sid : UInt64) :
    (w.1.lookup sid).isSome ↔ sid ∈ ids w.2 := by
  rw [← hr.ids_eq, ← Option.not_isNone, ← not_iff_not]
  simpa using hr.layout.lookup_eq_none sid

theorem Represents.lookup (hr : Represents w es) (sid : UInt64) :
    w.1.lookup sid = if sid ∈ ids w.2 then some ((latest w.2 sid).getD zeroPair) else none := by
  split
  · rename_i hm
    rw [← hr.ids_eq] at hm
    obtain ⟨e, he, rfl⟩ := List.mem_map.mp hm
    rw [Store.lookup, hr.layout.find_iff.mpr ⟨he, rfl⟩, ← hr.pairs e he]
    rfl
  · rename_i hm
    rw [← hr.ids_eq] at hm
    exact (hr.layout.lookup_eq_none sid).mpr hm

/-- A call that only stamps `last_seen` changes no answer. -/
theorem Represents.stamp (hr : Represents w es) {x : Call × Ret} (sid now : UInt64)
    (hid : idOf x = none) (hsave : ∀ sid, savedFor sid x = none) (halloc : isAlloc x = false) :
    ∃ es', Represents ((w.1.onSlot sid fun e => { e with lastSeen := now }).1, w.2 ++ [x]) es' := by
  obtain ⟨es', hl, hk, hm⟩ := hr.layout.onSlot sid (keeps_seen now)
  have hids : ids (w.2 ++ [x]) = ids w.2 := by simp [ids_append, hid]
  have hlatest : ∀ t, latest (w.2 ++ [x]) t = latest w.2 t := by
    intro t
    simp [latest_append, hsave t]
  refine ⟨es', hl, ?_, ?_, ?_, ?_⟩
  · rw [hk, hids]
    exact hr.ids_eq
  · intro e' he'
    rw [hlatest]
    rcases hm e' he' with ⟨he, _⟩ | ⟨e, he, _, rfl⟩
    · exact hr.pairs e' he
    · exact hr.pairs e he
  · intro t ht
    rw [hlatest]
    exact hr.early t (by rwa [hids] at ht)
  · have hlen : es'.length = es.length := by simpa using congrArg List.length hk
    rw [hlen, hr.count, List.countP_append]
    simp [halloc]

theorem Represents.save (hr : Represents w es) (sid : UInt64) (st : State) (hand : Hand)
    (now : UInt64) : ∃ es', Represents (perform w (.save sid st hand now)) es' := by
  have hrc := save_rc w.1 sid st hand now
  obtain ⟨es', hl, hk, hm⟩ := hr.layout.onSlot sid (keeps_save st hand now)
  have hids : ids (perform w (.save sid st hand now)).2 = ids w.2 := by
    simp [perform, Store.call, ids_append, idOf]
  have hlatest : ∀ t, latest (perform w (.save sid st hand now)).2 t =
      if t = sid ∧ sid ∈ ids w.2 then some (st, hand) else latest w.2 t := by
    intro t
    simp only [perform, Store.call, latest_append, savedFor, hrc, hr.lookup_isSome]
    by_cases hs : sid ∈ ids w.2
    · by_cases ht : t = sid
      · simp [hs, ht]
      · simp [hs, ht, Ne.symm ht]
    · simp [hs]
  refine ⟨es', hl, ?_, ?_, ?_, ?_⟩
  · rw [hk, hids]
    exact hr.ids_eq
  · intro e' he'
    rw [hlatest]
    rcases hm e' he' with ⟨he, hne⟩ | ⟨e, he, hs, rfl⟩
    · rw [if_neg (fun h => hne h.1)]
      exact hr.pairs e' he
    · have hin : sid ∈ ids w.2 := by
        rw [← hr.ids_eq, ← hs]
        exact List.mem_map_of_mem he
      simp [hs, hin]
  · intro t ht
    rw [hids] at ht
    rw [hlatest, if_neg]
    · exact hr.early t ht
    · rintro ⟨rfl, hin⟩
      exact ht hin
  · have hlen : es'.length = es.length := by simpa using congrArg List.length hk
    rw [hlen, hr.count]
    simp [perform, Store.call, isAlloc]

theorem Represents.alloc (hr : Represents w es) (env : AllocEnv) (hf : FreshCall w (.alloc env)) :
    ∃ es', Represents (perform w (.alloc env)) es' := by
  have hlatest : ∀ t, latest (perform w (.alloc env)).2 t = latest w.2 t := by
    intro t
    simp [perform, Store.call, latest_append, savedFor]
  have hcount : (perform w (.alloc env)).2.countP isAlloc = w.2.countP isAlloc + 1 := by
    simp [perform, Store.call, isAlloc]
  by_cases hroom : es.length < maxSessions
  · have hid := (hr.layout.alloc_room env hroom).1
    have hids : ids (perform w (.alloc env)).2 = ids w.2 ++ [allocId env es.length] := by
      simp [perform, Store.call, ids_append, idOf, hid, allocId_ne_zero]
    have hnew : allocId env es.length ∉ ids w.2 := by
      rw [← hr.ids_eq]
      intro hm
      obtain ⟨e, he, hs⟩ := List.mem_map.mp hm
      refine hf (allocId env es.length) ?_ e ?_ (hr.layout.valid e he) hs
      · simp [Store.nextId, hr.layout.firstFree, hroom]
      · rw [hr.layout.slots]
        exact List.mem_append_left _ he
    refine ⟨es ++ [newEntry env es.length], ?_, ?_, ?_, ?_, ?_⟩
    · exact hr.layout.alloc_fresh env hroom (hr.ids_eq ▸ hnew)
    · rw [List.map_append, hr.ids_eq, hids]
      rfl
    · intro e he
      rw [hlatest]
      rcases List.mem_append.mp he with he | he
      · exact hr.pairs e he
      · rw [List.mem_singleton.mp he]
        change _ = (latest w.2 (allocId env es.length)).getD zeroPair
        rw [hr.early _ hnew]
        rfl
    · intro t ht
      rw [hlatest]
      apply hr.early t
      rw [hids] at ht
      exact fun h => ht (List.mem_append_left _ h)
    · rw [hcount, List.length_append, List.length_singleton, hr.count]
      have := hr.count
      omega
  · have hfull := hr.layout.alloc_full env (by omega)
    have hids : ids (perform w (.alloc env)).2 = ids w.2 := by
      simp [perform, Store.call, ids_append, idOf, hfull]
    refine ⟨es, ?_, ?_, ?_, ?_, ?_⟩
    · simp only [perform, Store.call, hfull]
      exact hr.layout
    · rw [hids]
      exact hr.ids_eq
    · intro e he
      rw [hlatest]
      exact hr.pairs e he
    · intro t ht
      rw [hlatest]
      exact hr.early t (by rwa [hids] at ht)
    · have := hr.count
      have := hr.layout.length_le
      omega

theorem represents_perform (c : Call) (hf : FreshCall w c) (hr : ∃ es, Represents w es) :
    ∃ es, Represents (perform w c) es := by
  obtain ⟨es, hr⟩ := hr
  cases c with
  | alloc env => exact hr.alloc env hf
  | save sid st hand now => exact hr.save sid st hand now
  | touch sid now => exact hr.stamp sid now rfl (fun _ => rfl) rfl
  | load sid st hand now =>
    simp only [perform, Store.call, load_store]
    exact hr.stamp sid now rfl (fun _ => rfl) rfl

end Represents

theorem represents_all {calls : List Call} (hf : Fresh calls) :
    ∃ es, Represents (performAll calls) es :=
  Run.invariant (fun _ c hc => represents_perform c hc) ⟨[], represents_zero⟩ hf

theorem ids_prefix (calls : List Call) (w : Store × History) :
    ids w.2 <+: ids (calls.foldl perform w).2 := by
  induction calls generalizing w with
  | nil => exact List.prefix_rfl
  | cons c calls ih =>
    refine List.IsPrefix.trans ?_ (ih (perform w c))
    rw [show (perform w c).2 = w.2 ++ [(c, (w.1.call c).2)] from rfl, ids_append]
    exact List.prefix_append _ _

/-- The slot array, read off the history: slot `i` is valid exactly when it is
one of the first ones and then carries the `i`-th id handed out. -/
theorem Represents.slot {w : Store × History} {es : List SessionEntry} (hr : Represents w es)
    {i : ℕ} {e : SessionEntry} (hi : w.1.sessions[i]? = some e) :
    (e.valid = true ↔ i < (ids w.2).length) ∧
      (e.valid = true → (ids w.2)[i]? = some e.sessionId) := by
  have hlen : (ids w.2).length = es.length := by rw [← hr.ids_eq, List.length_map]
  rw [hr.layout.slots] at hi
  by_cases hlt : i < es.length
  · rw [List.getElem?_append_left hlt] at hi
    have hv := hr.layout.valid e (List.mem_of_getElem? hi)
    refine ⟨iff_of_true hv (by omega), fun _ => ?_⟩
    rw [← hr.ids_eq, List.getElem?_map, hi]
    rfl
  · rw [List.getElem?_append_right (by omega)] at hi
    have hz : e = SessionEntry.zero := List.eq_of_mem_replicate (List.mem_of_getElem? hi)
    have hv : ¬ e.valid = true := by rw [hz]; decide
    exact ⟨iff_of_false hv (by omega), fun h => absurd h hv⟩

/-- The session store refines a finite map from ids to pairs, over every
sequence of calls on the zeroed store whose allocations compute unused ids. -/
theorem store_refines_map (calls : List Call) (hf : Fresh calls) :
    let s := (performAll calls).1
    let h := (performAll calls).2
    -- the valid slots are a prefix and carry the ids handed out
    (∀ (i : ℕ) (e : SessionEntry), s.sessions[i]? = some e →
      (e.valid = true ↔ i < (ids h).length) ∧
      (e.valid = true → (ids h)[i]? = some e.sessionId)) ∧
    (ids h).Nodup ∧ 0 ∉ ids h ∧
    (∀ more, Fresh (calls ++ more) → ∀ (i : ℕ) (e : SessionEntry), s.sessions[i]? = some e →
      e.valid = true → ∃ e' : SessionEntry, (performAll (calls ++ more)).1.sessions[i]? = some e' ∧
        e'.valid = true ∧ e'.sessionId = e.sessionId) ∧
    -- loads
    (∀ sid st hand now, (ipcLoadSession s sid st hand now).2 =
      if sid ∈ ids h then (0, (latest h sid).getD zeroPair) else (-1, st, hand)) ∧
    -- saves and touches
    (∀ sid st hand now, (ipcSaveSession s sid st hand now).2 = (if sid ∈ ids h then 0 else -1) ∧
      (ipcTouchSession s sid now).2 = (if sid ∈ ids h then 0 else -1)) ∧
    (∀ sid st hand now, sid ∉ ids h → (ipcSaveSession s sid st hand now).1 = s ∧
      (ipcTouchSession s sid now).1 = s) ∧
    (∀ sid st hand now (i : ℕ) (e : SessionEntry), s.sessions[i]? = some e → e.has sid = false →
      (ipcSaveSession s sid st hand now).1.sessions[i]? = some e ∧
      (ipcTouchSession s sid now).1.sessions[i]? = some e) ∧
    -- allocations
    (∀ env, (ipcAllocSession s env).2 ≠ 0 ↔ h.countP isAlloc < maxSessions) ∧
    (∀ env, maxSessions ≤ h.countP isAlloc → ipcAllocSession s env = (s, 0)) := by
  obtain ⟨es, hr⟩ := represents_all hf
  intro s h
  have hmiss : ∀ sid, sid ∉ ids h → s.lookup sid = none := by
    intro sid hs
    rw [hr.lookup sid, if_neg hs]
  refine ⟨fun i e hi => hr.slot hi, hr.ids_eq ▸ hr.layout.nodup, ?_, ?_, ?_, ?_, ?_, ?_, ?_, ?_⟩
  · intro hz
    rw [← hr.ids_eq] at hz
    obtain ⟨e, he, h0⟩ := List.mem_map.mp hz
    exact hr.layout.nonzero e he h0
  · intro more hf' i e hi hv
    obtain ⟨es', hr'⟩ := represents_all hf'
    have hpre : ids h <+: ids (performAll (calls ++ more)).2 := by
      unfold performAll
      rw [List.foldl_append]
      exact ids_prefix more _
    have hid := (hr.slot hi).2 hv
    have hlt : i < s.sessions.length := (List.getElem?_eq_some_iff.mp hi).1
    have hlt' : i < (performAll (calls ++ more)).1.sessions.length := by
      rw [Store.size] at hlt ⊢
      exact hlt
    refine ⟨_, List.getElem?_eq_getElem hlt', ?_⟩
    obtain ⟨hvalid, hsid⟩ := hr'.slot (List.getElem?_eq_getElem hlt')
    have hin := (hr.slot hi).1.mp hv
    have hv' := hvalid.mpr (Nat.lt_of_lt_of_le hin hpre.length_le)
    refine ⟨hv', ?_⟩
    have h1 := hsid hv'
    obtain ⟨t, ht⟩ := hpre
    rw [← ht, List.getElem?_append_left hin, hid] at h1
    exact (Option.some.inj h1).symm
  · intro sid st hand now
    split
    · rename_i hs
      exact load_found _ _ _ _ _ (show s.lookup sid = some ((latest h sid).getD zeroPair) by
        rw [hr.lookup sid, if_pos hs])
    · rename_i hs
      rw [load_missing _ _ _ _ _ (hmiss sid hs)]
  · intro sid st hand now
    rw [save_rc, touch_rc]
    simp only [show (s.lookup sid).isSome ↔ sid ∈ ids h from hr.lookup_isSome sid, and_self]
  · intro sid st hand now hs
    unfold ipcSaveSession ipcTouchSession
    rw [onSlot_none (hmiss sid hs), onSlot_none (hmiss sid hs)]
    exact ⟨rfl, rfl⟩
  · intro sid st hand now i e hi he
    exact ⟨onSlot_getElem? hi he, onSlot_getElem? hi he⟩
  · intro env
    have hc : es.length = min (h.countP isAlloc) maxSessions := hr.count
    by_cases hroom : es.length < maxSessions
    · rw [(hr.layout.alloc_room env hroom).1]
      exact iff_of_true (allocId_ne_zero env _) (by omega)
    · rw [hr.layout.alloc_full env (by omega)]
      exact iff_of_false (by simp) (by omega)
  · intro env hfull
    have hc : es.length = min (h.countP isAlloc) maxSessions := hr.count
    exact hr.layout.alloc_full env (by omega)

/-- Two sessions, a save to each and another to the first. -/
def twoSessions : List Call :=
  [.alloc ⟨5, 2, 0, 9⟩, .alloc ⟨5, 3, 0, 9⟩, .save 7 State.zero ⟨3, Hand.zero.cardIds⟩ 10,
   .save 9 State.zero ⟨2, Hand.zero.cardIds⟩ 11, .save 7 State.zero ⟨1, Hand.zero.cardIds⟩ 12]

/-- Each is loaded as it was saved last. -/
theorem store_refines_map_two :
    (ids (performAll twoSessions).2).Nodup ∧
      (ipcLoadSession (performAll twoSessions).1 7 State.zero Hand.zero 13).2 =
        (0, State.zero, ⟨1, Hand.zero.cardIds⟩) ∧
      (ipcLoadSession (performAll twoSessions).1 9 State.zero Hand.zero 13).2 =
        (0, State.zero, ⟨2, Hand.zero.cardIds⟩) := by
  have h := store_refines_map twoSessions (by decide +kernel)
  have hload := h.2.2.2.2.1
  refine ⟨h.2.1, ?_, ?_⟩
  · rw [hload 7]
    decide +kernel
  · rw [hload 9]
    decide +kernel

end MiniTcg.Ipc
