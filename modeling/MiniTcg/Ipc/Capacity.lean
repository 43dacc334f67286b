import MiniTcg.Ipc.Refinement

/-!
# What the store never gives back

No call frees a slot. An id that was ever given out is found for ever, and the table is
full, for ever, once as many logins have succeeded as it has slots. None of this needs
the ids to be distinct.
-/
namespace MiniTcg.Ipc

open MiniTcg.Game

/-- A search for the id finds a slot. -/
def Listed (s : Store) (sid : UInt64) : Prop := (s.lookup sid).isSome = true

/-- The number of slots in use. -/
def Store.used (s : Store) : ℕ := s.sessions.countP fun e => e.valid

section Slots
variable {s : Store} {sid sid' : UInt64} {f : SessionEntry → SessionEntry}

theorem used_le (s : Store) : s.used ≤ maxSessions := by
  have hle : s.used ≤ s.sessions.length := List.countP_le_length
  rw [s.size] at hle
  exact hle

theorem used_zero : Store.zero.used = 0 := by
  unfold Store.used Store.zero
  rw [List.countP_replicate]
  rfl

theorem used_onSlot (s : Store) (sid : UInt64) (hf : Keeps f) : (s.onSlot sid f).1.used = s.used := by
  cases h : s.lookup sid with
  | none => rw [onSlot_none h]
  | some r =>
    obtain ⟨l, hl, hs, _⟩ := onSlot_some (f := f) h
    have hkeys : l.map (fun e => e.valid) = s.sessions.map fun e => e.valid :=
      Scan.updateFirst_keys (fun e => e.valid) hl fun e => (hf e).2
    have hcount : ∀ l : List SessionEntry,
        l.countP (fun e => e.valid) = (l.map fun e => e.valid).countP id := fun l => by
      rw [List.countP_map]
      rfl
    unfold Store.used
    rw [hs, hcount, hcount, hkeys]

theorem listed_onSlot (h : Listed s sid) (hf : Keeps f) : Listed (s.onSlot sid' f).1 sid := by
  unfold Listed at *
  by_cases heq : sid = sid'
  · subst heq
    rw [lookup_onSlot_same hf, Option.isSome_map]
    unfold Store.lookup at h
    rwa [Option.isSome_map] at h
  · rw [lookup_onSlot_other hf heq]
    exact h

/-- An allocation takes the first free slot, or finds all of them in use. -/
theorem alloc_cases (s : Store) (env : AllocEnv) :
    ((ipcAllocSession s env).2 ≠ 0 ∧ s.used < maxSessions ∧
      (ipcAllocSession s env).1.used = s.used + 1) ∨
    ((ipcAllocSession s env).2 = 0 ∧ s.used = maxSessions ∧ (ipcAllocSession s env).1 = s) := by
  cases hf : s.sessions.findIdx? (fun e => !e.valid) with
  | some i =>
    left
    obtain ⟨hi, hfree, _⟩ := List.findIdx?_eq_some_iff_getElem.mp hf
    obtain ⟨before, a, after, hs, hb⟩ : ∃ before a after,
        s.sessions = before ++ a :: after ∧ before.length = i :=
      ⟨s.sessions.take i, s.sessions[i], s.sessions.drop (i + 1), by simp,
        List.length_take_of_le (Nat.le_of_lt hi)⟩
    subst hb
    have ha : a.valid = false := by simpa [hs] using hfree
    have hold : s.used = before.countP (fun e => e.valid) + after.countP fun e => e.valid := by
      unfold Store.used
      rw [hs, List.countP_append, List.countP_cons, ha]
      rfl
    have hnew : (ipcAllocSession s env).1.used =
        before.countP (fun e => e.valid) + (after.countP (fun e => e.valid) + 1) := by
      unfold ipcAllocSession Store.used
      simp only [hf, Store.modify]
      rw [hs, Scan.modify_length_append, List.countP_append, List.countP_cons, if_pos rfl]
    have hle := used_le (ipcAllocSession s env).1
    refine ⟨?_, by omega, by omega⟩
    unfold ipcAllocSession
    rw [hf]
    exact allocId_ne_zero env _
  | none =>
    right
    have hall : ∀ e ∈ s.sessions, e.valid = true := by
      intro e he
      have hno := List.findIdx?_eq_none_iff.mp hf e he
      simpa using hno
    have hfull : s.used = s.sessions.length := List.countP_eq_length.mpr hall
    unfold ipcAllocSession
    rw [hf]
    exact ⟨rfl, hfull.trans s.size, rfl⟩

theorem alloc_used (s : Store) (env : AllocEnv) :
    (ipcAllocSession s env).1.used = min (s.used + 1) maxSessions := by
  have hle := used_le s
  rcases alloc_cases s env with ⟨_, hlt, hused⟩ | ⟨_, hfull, hsame⟩
  · omega
  · rw [hsame]
    omega

theorem listed_alloc (h : Listed s sid) (env : AllocEnv) : Listed (ipcAllocSession s env).1 sid := by
  by_cases hnew : (ipcAllocSession s env).2 = sid
  · rcases alloc_cases s env with ⟨hid, _, _⟩ | ⟨_, _, hsame⟩
    · unfold Listed
      rw [← hnew]
      exact lookup_alloc_self s hid
    · rw [hsame]
      exact h
  · unfold Listed at *
    rw [lookup_alloc_other s sid hnew]
    exact h

end Slots

/-! ### Any call -/

def Call.allocates : Call → Bool
  | .alloc _ => true
  | _ => false

theorem listed_call {s : Store} {sid : UInt64} (h : Listed s sid) (c : Call) :
    Listed (s.call c).1 sid := by
  cases c with
  | alloc env => exact listed_alloc h env
  | save sid' st hand now => exact listed_onSlot h (keeps_save st hand now)
  | load sid' st hand now =>
    show Listed (ipcLoadSession s sid' st hand now).1 sid
    rw [load_store]
    exact listed_onSlot h (keeps_seen now)
  | touch sid' now => exact listed_onSlot h (keeps_seen now)

theorem used_call (s : Store) (c : Call) :
    (s.call c).1.used = if c.allocates then min (s.used + 1) maxSessions else s.used := by
  cases c with
  | alloc env => exact alloc_used s env
  | save sid' st hand now => exact used_onSlot s sid' (keeps_save st hand now)
  | load sid' st hand now =>
    show (ipcLoadSession s sid' st hand now).1.used = s.used
    rw [load_store]
    exact used_onSlot s sid' (keeps_seen now)
  | touch sid' now => exact used_onSlot s sid' (keeps_seen now)

end MiniTcg.Ipc
