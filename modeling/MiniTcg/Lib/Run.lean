import Mathlib.Data.List.Basic

/-!
# Runs of a deterministic machine

A machine is a step function `σ → ι → σ`; a run folds it over its inputs.
`Along` states a property of every step of a run, at the state before it.
-/
namespace MiniTcg.Run

variable {σ ι : Type*} {step : σ → ι → σ} {P Q : σ → ι → Prop} {I : σ → Prop}

def Along (step : σ → ι → σ) (P : σ → ι → Prop) : σ → List ι → Prop
  | _, [] => True
  | s, i :: is => P s i ∧ Along step P (step s i) is

theorem along_append {s : σ} {a b : List ι} :
    Along step P s (a ++ b) ↔ Along step P s a ∧ Along step P (a.foldl step s) b := by
  induction a generalizing s with
  | nil => simp [Along]
  | cons i a ih => simp only [List.cons_append, Along, List.foldl_cons, ih, and_assoc]

theorem along_congr (h : ∀ s i, P s i ↔ Q s i) (s : σ) (is : List ι) :
    Along step P s is ↔ Along step Q s is := by
  induction is generalizing s with
  | nil => exact Iff.rfl
  | cons i is ih => exact and_congr (h s i) (ih (step s i))

/-- What every step preserves holds at the end of a run. -/
theorem invariant (hstep : ∀ s i, P s i → I s → I (step s i)) {s : σ} {is : List ι}
    (hs : I s) (h : Along step P s is) : I (is.foldl step s) := by
  induction is generalizing s with
  | nil => exact hs
  | cons i is ih => exact ih (hstep s i h.1 hs) h.2

/-- A property of single steps that follows from an invariant holds all along. -/
theorem along_of_invariant (hstep : ∀ s i, P s i → I s → I (step s i))
    (hq : ∀ s i, P s i → I s → Q s i) {s : σ} {is : List ι} (hs : I s)
    (h : Along step P s is) : Along step Q s is := by
  induction is generalizing s with
  | nil => trivial
  | cons i is ih => exact ⟨hq s i h.1 hs, ih (hstep s i h.1 hs) h.2⟩

theorem along_true (s : σ) (is : List ι) : Along step (fun _ _ => True) s is := by
  induction is generalizing s with
  | nil => trivial
  | cons i is ih => exact ⟨trivial, ih _⟩

/-- The invariant rule without conditions on the steps. -/
theorem foldl_invariant (hstep : ∀ s i, I s → I (step s i)) {s : σ} (is : List ι) (hs : I s) :
    I (is.foldl step s) :=
  invariant (fun s i _ => hstep s i) hs (along_true s is)

/-- A machine whose every step is matched by a run of another, which may be empty: so is
its every run. -/
theorem simulation {τ κ : Type*} {step' : τ → κ → τ} {R : σ → τ → Prop}
    (hstep : ∀ s i t, P s i → R s t → ∃ ks : List κ, R (step s i) (ks.foldl step' t))
    {s : σ} {t : τ} {is : List ι} (h : R s t) (hrun : Along step P s is) :
    ∃ ks : List κ, R (is.foldl step s) (ks.foldl step' t) := by
  induction is generalizing s t with
  | nil => exact ⟨[], h⟩
  | cons i is ih =>
    obtain ⟨ks, hks⟩ := hstep s i t hrun.1 h
    obtain ⟨more, hmore⟩ := ih hks hrun.2
    refine ⟨ks ++ more, ?_⟩
    rw [List.foldl_append]
    exact hmore

instance [∀ s i, Decidable (P s i)] : ∀ s is, Decidable (Along step P s is)
  | _, [] => isTrue trivial
  | s, i :: is =>
    have := instDecidableAlong (step s i) is
    inferInstanceAs (Decidable (P s i ∧ Along step P (step s i) is))

end MiniTcg.Run
