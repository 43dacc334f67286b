import Mathlib.Data.List.Basic

/-!
# A ring of the last writes

A ring of `N` slots is written at its head, which then moves on by one. Read from
the head on, once around, it shows the last `N` writes, oldest first.
-/
namespace MiniTcg.Ring

variable {α : Type*}

/-- The slots from `h` on, once around. -/
def around (N h : ℕ) (slot : ℕ → α) : List α := (List.range N).map fun i => slot ((h + i) % N)

/-- The oldest entry goes, a new one comes. -/
def slide (l : List α) (a : α) : List α := l.tail ++ [a]

/-- A write at the head slides what is read. -/
theorem around_write {N h : ℕ} {slot slot' : ℕ → α} {a : α} (hh : h < N) (hset : slot' h = a)
    (hkeep : ∀ j < N, j ≠ h → slot' j = slot j) :
    around N ((h + 1) % N) slot' = slide (around N h slot) a := by
  obtain ⟨M, rfl⟩ : ∃ M, N = M + 1 := ⟨N - 1, by omega⟩
  have hnext : ∀ i, ((h + 1) % (M + 1) + i) % (M + 1) = (h + (i + 1)) % (M + 1) := by
    intro i
    rw [Nat.mod_add_mod, Nat.add_assoc, Nat.add_comm 1 i]
  -- the last one read is the slot just written
  have hlast : slot' ((h + (M + 1)) % (M + 1)) = a := by
    rw [Nat.add_mod_right, Nat.mod_eq_of_lt hh, hset]
  have hrest : ∀ i ∈ List.range M,
      slot' ((h + (i + 1)) % (M + 1)) = slot ((h + (i + 1)) % (M + 1)) := by
    intro i hi
    have hlt := List.mem_range.mp hi
    refine hkeep _ (Nat.mod_lt _ (Nat.succ_pos M)) fun heq => ?_
    have hdiv := Nat.div_add_mod (h + (i + 1)) (M + 1)
    rw [heq] at hdiv
    -- a step of less than once around does not come back to `h`
    have hmul : (M + 1) * ((h + (i + 1)) / (M + 1)) = i + 1 := by omega
    have hdvd : M + 1 ∣ i + 1 := ⟨_, hmul.symm⟩
    have hle := Nat.le_of_dvd (Nat.succ_pos i) hdvd
    omega
  have hleft : around (M + 1) ((h + 1) % (M + 1)) slot' =
      (List.range M).map (fun i => slot ((h + (i + 1)) % (M + 1))) ++ [a] := by
    unfold around
    simp only [hnext]
    rw [List.range_succ, List.map_append, List.map_singleton, hlast, List.map_congr_left hrest]
  have hright : (around (M + 1) h slot).tail =
      (List.range M).map fun i => slot ((h + (i + 1)) % (M + 1)) := by
    unfold around
    rw [List.range_succ_eq_map, List.map_cons, List.tail_cons, List.map_map]
    rfl
  rw [hleft, slide, hright]

/-- What is left after sliding in some entries. -/
theorem foldl_slide {l : List α} (hl : l ≠ []) (as : List α) :
    as.foldl slide l = (l ++ as).drop as.length := by
  induction as generalizing l with
  | nil => rw [List.append_nil, List.foldl_nil, List.length_nil, List.drop_zero]
  | cons a as ih =>
    obtain ⟨b, l, rfl⟩ := List.exists_cons_of_ne_nil hl
    have hne : slide (b :: l) a ≠ [] := List.append_ne_nil_of_right_ne_nil l (List.cons_ne_nil a [])
    rw [List.foldl_cons, ih hne]
    show (l ++ [a] ++ as).drop as.length = (b :: (l ++ a :: as)).drop (as.length + 1)
    rw [List.drop_succ_cons, List.append_assoc, List.singleton_append]

/-- From `N` equal entries on, the last `N` stay. -/
theorem foldl_slide_replicate {N : ℕ} (hN : 0 < N) (e : α) (as : List α) :
    as.foldl slide (List.replicate N e) =
      List.replicate (N - as.length) e ++ as.drop (as.length - N) := by
  have hne : List.replicate N e ≠ [] := by
    rw [ne_eq, List.replicate_eq_nil_iff]
    omega
  rw [foldl_slide hne, List.drop_append, List.drop_replicate, List.length_replicate]

end MiniTcg.Ring
