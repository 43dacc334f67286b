import Mathlib.Data.List.Basic

/-!
# Shared memory objects and a name for them

A name refers to one object at a time or to none. An object lives on without its name:
whoever has it mapped keeps reading and writing it.
-/
namespace MiniTcg

structure Shm (α : Type*) where
  objects : List α
  named : Option ℕ
  bound : ∀ k ∈ named, k < objects.length

namespace Shm

variable {α : Type*}

def empty : Shm α := ⟨[], none, fun k hk => (by cases hk)⟩

/-- The object the name refers to after `create`. -/
def target (s : Shm α) : ℕ := s.named.getD s.objects.length

/-- `shm_open` with `O_CREAT`: a name that refers to nothing gets a fresh object. -/
def create (s : Shm α) (fresh : α) : Shm α where
  objects := if s.named.isSome then s.objects else s.objects ++ [fresh]
  named := some s.target
  bound := by
    rintro k hk
    obtain rfl := Option.some.inj hk
    unfold target
    cases hn : s.named with
    | none =>
      show s.objects.length < (s.objects ++ [fresh]).length
      rw [List.length_append]
      exact Nat.lt_succ_self _
    | some k => exact s.bound k hn

def modify (s : Shm α) (k : ℕ) (f : α → α) : Shm α where
  objects := s.objects.modify k f
  named := s.named
  bound j hj := by
    rw [List.length_modify]
    exact s.bound j hj

def unlink (s : Shm α) : Shm α := ⟨s.objects, none, fun k hk => (by cases hk)⟩

section Objects
variable {s : Shm α} {k : ℕ} {a fresh : α} {f : α → α}

theorem target_named (h : s.named = some k) : s.target = k := by
  rw [target, h]
  rfl

theorem target_lt (s : Shm α) (fresh : α) : s.target < (s.create fresh).objects.length :=
  (s.create fresh).bound s.target rfl

theorem create_grows (s : Shm α) (fresh : α) :
    s.objects.length ≤ (s.create fresh).objects.length := by
  show _ ≤ (if s.named.isSome then s.objects else s.objects ++ [fresh]).length
  split
  · exact Nat.le_refl _
  · rw [List.length_append]
    exact Nat.le_add_right _ _

theorem modify_length (s : Shm α) (k : ℕ) (f : α → α) :
    (s.modify k f).objects.length = s.objects.length := List.length_modify f s.objects k

theorem create_old (h : s.objects[k]? = some a) (fresh : α) :
    (s.create fresh).objects[k]? = some a := by
  show (if s.named.isSome then s.objects else s.objects ++ [fresh])[k]? = some a
  split
  · exact h
  · rw [List.getElem?_append_left (List.getElem?_eq_some_iff.mp h).1]
    exact h

/-- An object is as old as before, or it is the fresh one and got the name. -/
theorem create_cases (h : (s.create fresh).objects[k]? = some a) :
    s.objects[k]? = some a ∨
      (s.named = none ∧ s.objects[k]? = none ∧ k = s.target ∧ a = fresh) := by
  have hobjects : (if s.named.isSome then s.objects else s.objects ++ [fresh])[k]? = some a := h
  cases hn : s.named with
  | some j =>
    rw [hn] at hobjects
    exact Or.inl hobjects
  | none =>
    rw [hn] at hobjects
    have hnew : (s.objects ++ [fresh])[k]? = some a := hobjects
    rcases Nat.lt_or_ge k s.objects.length with hlt | hge
    · rw [List.getElem?_append_left hlt] at hnew
      exact Or.inl hnew
    · right
      rw [List.getElem?_append_right hge, List.getElem?_singleton] at hnew
      split at hnew
      · have hk : k = s.objects.length := by omega
        refine ⟨rfl, List.getElem?_eq_none hge, ?_, (Option.some.inj hnew).symm⟩
        rw [target, hn, hk]
        rfl
      · cases hnew

/-- The target of a `create` is an object that is there only if it has the name. -/
theorem target_named_of_old (h : s.objects[k]? = some a) (hk : s.target = k) :
    s.named = some k := by
  cases hn : s.named with
  | some j => rw [← hk, target_named hn]
  | none =>
    have hlt := (List.getElem?_eq_some_iff.mp h).1
    rw [target, hn] at hk
    have hlen : s.objects.length = k := hk
    omega

theorem modify_self (h : s.objects[k]? = some a) (f : α → α) :
    (s.modify k f).objects[k]? = some (f a) := by
  show (s.objects.modify k f)[k]? = _
  rw [List.getElem?_modify_eq, h]
  rfl

theorem modify_other {j : ℕ} (hj : j ≠ k) (f : α → α) :
    (s.modify j f).objects[k]? = s.objects[k]? :=
  List.getElem?_modify_ne f s.objects hj

theorem modify_cases {j : ℕ} (h : (s.modify j f).objects[k]? = some a) :
    (j ≠ k ∧ s.objects[k]? = some a) ∨ (j = k ∧ ∃ b, s.objects[k]? = some b ∧ a = f b) := by
  by_cases hj : j = k
  · subst hj
    have hobjects : (s.objects.modify j f)[j]? = some a := h
    rw [List.getElem?_modify_eq] at hobjects
    obtain ⟨b, hb, hab⟩ := Option.map_eq_some_iff.mp hobjects
    exact Or.inr ⟨rfl, b, hb, hab.symm⟩
  · rw [modify_other hj] at h
    exact Or.inl ⟨hj, h⟩

end Objects

end Shm

end MiniTcg
