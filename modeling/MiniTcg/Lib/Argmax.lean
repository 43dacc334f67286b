import Mathlib.Data.List.Basic
import Mathlib.Order.Lattice

/-!
# A search for the highest score

Positions are visited in order and the best one so far is kept, together with
its score; a later position replaces it only by a strictly higher one.
-/
namespace MiniTcg.Argmax

variable {α : Type*} [LinearOrder α] {f : ℕ → Option α}

/-- One step of the search. -/
def keep (f : ℕ → Option α) (best : Option ℕ × α) (i : ℕ) : Option ℕ × α :=
  match f i with
  | none => best
  | some s => if best.2 < s then (some i, s) else best

/-- Position `i` has a score, none of the first `k` a higher one, and none before
`i` the same. -/
structure FirstMax (f : ℕ → Option α) (k i : ℕ) (s : α) : Prop where
  score : f i = some s
  max : ∀ j < k, ∀ t, f j = some t → t ≤ s ∧ (t = s → i ≤ j)

theorem FirstMax.succ {k i : ℕ} {s : α} (h : FirstMax f k i s)
    (hk : ∀ t, f k = some t → t ≤ s ∧ (t = s → i ≤ k)) : FirstMax f (k + 1) i s :=
  ⟨h.score, Nat.forall_lt_succ_right.mpr ⟨h.max, hk⟩⟩

theorem FirstMax.new {k : ℕ} {s : α} (hk : f k = some s)
    (hlt : ∀ j < k, ∀ t, f j = some t → t < s) : FirstMax f (k + 1) k s := by
  refine ⟨hk, Nat.forall_lt_succ_right.mpr ⟨fun j hj t ht => ?_, fun t ht => ?_⟩⟩
  · have h := hlt j hj t ht
    exact ⟨h.le, fun heq => absurd heq h.ne⟩
  · obtain rfl := Option.some.inj (hk.symm.trans ht)
    exact ⟨le_refl _, fun _ => Nat.le_refl k⟩

/-- The search over the first `k` positions, from a value below every score. -/
theorem keep_range {bot : α} (hbot : ∀ i s, f i = some s → bot < s) (k : ℕ) :
    (∃ i s, (List.range k).foldl (keep f) (none, bot) = (some i, s) ∧ i < k ∧ FirstMax f k i s) ∨
      ((List.range k).foldl (keep f) (none, bot) = (none, bot) ∧ ∀ j < k, f j = none) := by
  induction k with
  | zero => exact Or.inr ⟨rfl, fun j hj => absurd hj (Nat.not_lt_zero j)⟩
  | succ k ih =>
    rw [List.range_succ, List.foldl_append, List.foldl_cons, List.foldl_nil]
    rcases ih with ⟨i, s, heq, hi, hmax⟩ | ⟨heq, hnone⟩
    · rw [heq]
      unfold keep
      cases hk : f k with
      | none =>
        refine Or.inl ⟨i, s, rfl, by omega, hmax.succ fun t ht => ?_⟩
        rw [hk] at ht
        cases ht
      | some u =>
        by_cases hlt : s < u
        · refine Or.inl ⟨k, u, if_pos hlt, Nat.lt_succ_self k, .new hk fun j hj t ht => ?_⟩
          exact (hmax.max j hj t ht).1.trans_lt hlt
        · refine Or.inl ⟨i, s, if_neg hlt, by omega, hmax.succ fun t ht => ?_⟩
          obtain rfl := Option.some.inj (hk.symm.trans ht)
          exact ⟨le_of_not_gt hlt, fun _ => by omega⟩
    · rw [heq]
      unfold keep
      cases hk : f k with
      | none => exact Or.inr ⟨rfl, Nat.forall_lt_succ_right.mpr ⟨hnone, hk⟩⟩
      | some u =>
        refine Or.inl ⟨k, u, if_pos (hbot k u hk), Nat.lt_succ_self k, .new hk fun j hj t ht => ?_⟩
        rw [hnone j hj] at ht
        cases ht

end MiniTcg.Argmax
