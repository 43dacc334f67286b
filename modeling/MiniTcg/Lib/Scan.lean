import Mathlib.Data.List.Basic

/-!
# First-match updates of a list

An array searched from the front, whose first matching element is rewritten.
The lemmas say what such an update does to a later search and which elements it
leaves alone.
-/
namespace MiniTcg.Scan

variable {α κ : Type*} {p q : α → Bool} {f : α → α} {l l' : List α}

/-- Rewrite the first element satisfying `p`; `none` when there is none. -/
def updateFirst (p : α → Bool) (f : α → α) (l : List α) : Option (List α) :=
  (l.findIdx? p).map fun i => l.modify i f

@[simp] theorem updateFirst_nil : updateFirst p f [] = none := rfl

theorem updateFirst_cons (a : α) (l : List α) :
    updateFirst p f (a :: l) = if p a then some (f a :: l) else (updateFirst p f l).map (a :: ·) := by
  unfold updateFirst
  rw [List.findIdx?_cons]
  by_cases h : p a
  · simp [h]
  · simp only [h, Bool.false_eq_true, ↓reduceIte, Option.map_map]
    rfl

theorem updateFirst_eq_none : updateFirst p f l = none ↔ ∀ a ∈ l, p a = false := by
  simp [updateFirst, List.findIdx?_eq_none_iff]

theorem updateFirst_append {r : List α} (hr : ∀ b ∈ r, p b = false) :
    updateFirst p f (l ++ r) = (updateFirst p f l).map (· ++ r) := by
  induction l with
  | nil => simpa using updateFirst_eq_none.mpr hr
  | cons a l ih =>
    rw [List.cons_append, updateFirst_cons, updateFirst_cons, ih]
    by_cases h : p a
    · simp [h]
    · simp [h, Option.map_map, Function.comp_def]

/-- Where an update happens: after elements that do not match. -/
theorem updateFirst_split (h : updateFirst p f l = some l') :
    ∃ before a after, l = before ++ a :: after ∧ l' = before ++ f a :: after ∧ p a = true ∧
      ∀ b ∈ before, p b = false := by
  induction l generalizing l' with
  | nil => cases h
  | cons a l ih =>
    rw [updateFirst_cons] at h
    by_cases ha : p a
    · simp only [ha, ↓reduceIte, Option.some.injEq] at h
      exact ⟨[], a, l, rfl, h.symm, ha, fun _ hb => by cases hb⟩
    · simp only [ha, Bool.false_eq_true, ↓reduceIte, Option.map_eq_some_iff] at h
      obtain ⟨m, hm, rfl⟩ := h
      obtain ⟨before, b, after, rfl, rfl, hb, hall⟩ := ih hm
      refine ⟨a :: before, b, after, rfl, rfl, hb, ?_⟩
      intro c hc
      rcases List.mem_cons.mp hc with rfl | hc
      · simpa using ha
      · exact hall c hc

theorem updateFirst_length (h : updateFirst p f l = some l') : l'.length = l.length := by
  obtain ⟨before, a, after, rfl, rfl, _⟩ := updateFirst_split h
  simp

/-- An update that keeps the keys keeps their list. -/
theorem updateFirst_keys (key : α → κ) (h : updateFirst p f l = some l')
    (hk : ∀ a, key (f a) = key a) : l'.map key = l.map key := by
  obtain ⟨before, a, after, rfl, rfl, _⟩ := updateFirst_split h
  simp [hk]

/-- A search for the same thing finds the rewritten element. -/
theorem find?_updateFirst_same (h : updateFirst p f l = some l')
    (hp : ∀ a, p a = true → p (f a) = true) : l'.find? p = (l.find? p).map f := by
  obtain ⟨before, a, after, rfl, rfl, ha, hb⟩ := updateFirst_split h
  have hn : before.find? p = none := by simpa using hb
  simp [List.find?_append, hn, ha, hp a ha]

/-- A search for something else is not affected. -/
theorem find?_updateFirst_other (h : updateFirst p f l = some l')
    (hq : ∀ a, p a = true → q a = false ∧ q (f a) = false) : l'.find? q = l.find? q := by
  obtain ⟨before, a, after, rfl, rfl, ha, _⟩ := updateFirst_split h
  simp [List.find?_append, (hq a ha).1, (hq a ha).2]

/-- Elements that do not match stay where they are. -/
theorem getElem?_updateFirst (h : updateFirst p f l = some l') {i : ℕ} {a : α}
    (hi : l[i]? = some a) (ha : p a = false) : l'[i]? = some a := by
  obtain ⟨before, b, after, rfl, rfl, hb, _⟩ := updateFirst_split h
  rcases Nat.lt_trichotomy i before.length with hlt | rfl | hgt
  · rwa [List.getElem?_append_left hlt] at hi ⊢
  · obtain rfl : b = a := by simpa using hi
    rw [ha] at hb
    cases hb
  · obtain ⟨k, rfl⟩ : ∃ k, i = before.length + (k + 1) := ⟨i - before.length - 1, by omega⟩
    rw [List.getElem?_append_right (by omega)] at hi ⊢
    simpa using hi

theorem modify_length_append (l r : List α) (a : α) (f : α → α) :
    (l ++ a :: r).modify l.length f = l ++ f a :: r := by
  induction l with
  | nil => rfl
  | cons b l ih => simpa using ih

/-- A rewrite of one element that keeps its key, or sets it. -/
theorem map_modify_keep (key : α → κ) (hk : ∀ a, key (f a) = key a) (i : ℕ) (l : List α) :
    (l.modify i f).map key = l.map key := by
  induction l generalizing i with
  | nil => cases i <;> rfl
  | cons a l ih =>
    cases i with
    | zero => simp [hk]
    | succ i => simp [ih]

theorem map_modify_set (key : α → κ) {x : κ} (hk : ∀ a, key (f a) = x) (i : ℕ) (l : List α) :
    (l.modify i f).map key = (l.map key).set i x := by
  induction l generalizing i with
  | nil => cases i <;> rfl
  | cons a l ih =>
    cases i with
    | zero => simp [hk]
    | succ i => simp [ih]

theorem modify_forall {P : α → Prop} {g : α → α} (h : ∀ a ∈ l, P a) (hg : ∀ a, P a → P (g a))
    (i : ℕ) : ∀ a ∈ l.modify i g, P a := by
  intro a ha
  obtain ⟨j, hj, rfl⟩ := List.mem_iff_getElem.mp ha
  rw [List.length_modify] at hj
  rw [List.getElem_modify]
  split
  · exact hg _ (h _ (List.getElem_mem hj))
  · exact h _ (List.getElem_mem hj)

theorem set_forall {P : α → Prop} {b : α} {i : ℕ} (h : ∀ a ∈ l, P a) (hb : P b) :
    ∀ a ∈ l.set i b, P a := by
  intro a ha
  rcases List.mem_or_eq_of_mem_set ha with ha | rfl
  · exact h a ha
  · exact hb

theorem get_set {i j : ℕ} {a b : α} (h : (l.set i b)[j]? = some a) :
    (j = i ∧ a = b) ∨ (j ≠ i ∧ l[j]? = some a) := by
  rw [List.getElem?_set] at h
  by_cases hij : i = j
  · rw [if_pos hij] at h
    split at h
    · exact Or.inl ⟨hij.symm, (Option.some.inj h).symm⟩
    · cases h
  · rw [if_neg hij] at h
    exact Or.inr ⟨Ne.symm hij, h⟩

theorem set_same {i : ℕ} {a : α} (hi : l[i]? = some a) : l.set i a = l := by
  obtain ⟨hlt, rfl⟩ := List.getElem?_eq_some_iff.mp hi
  exact List.set_getElem_self hlt

theorem mem_set_of_ne {i : ℕ} {a c : α} (hi : l[i]? = some a) (hc : c ∈ l) (hne : c ≠ a) (b : α) :
    c ∈ l.set i b := by
  obtain ⟨j, hj⟩ := List.mem_iff_getElem?.mp hc
  have hij : i ≠ j := by
    rintro rfl
    exact hne (Option.some.inj (hj.symm.trans hi))
  exact List.mem_of_getElem? ((List.getElem?_set_ne hij).trans hj)

theorem exists_set {P : α → Prop} {i : ℕ} {a b : α} (hi : l[i]? = some a) (h : ∃ c ∈ l, P c)
    (hab : P a → P b) : ∃ c ∈ l.set i b, P c := by
  obtain ⟨hlt, _⟩ := List.getElem?_eq_some_iff.mp hi
  obtain ⟨c, hc, hp⟩ := h
  obtain ⟨j, hj⟩ := List.mem_iff_getElem?.mp hc
  by_cases hji : j = i
  · subst hji
    obtain rfl : a = c := Option.some.inj (hi.symm.trans hj)
    exact ⟨b, List.mem_of_getElem? (List.getElem?_set_self hlt), hab hp⟩
  · refine ⟨c, List.mem_of_getElem? (i := j) ?_, hp⟩
    rw [List.getElem?_set_ne (Ne.symm hji)]
    exact hj

theorem modify_eq_set {g : α → α} {i : ℕ} {a : α} (hi : l[i]? = some a) :
    l.modify i g = l.set i (g a) := by
  rw [List.modify_eq_set_getElem?, hi]
  rfl

end MiniTcg.Scan
