import Mathlib.Data.Sigma.Basic
import Mathlib.Logic.Function.Basic

/-!
# Machines on one store

Each machine keeps the store in its state and changes it by calls. In a system of
many machines there is one store, and a step of one machine reads and writes that.
Seen from one machine, a run of the system is a run of its own, with calls of other
machines put in between.
-/
namespace MiniTcg.Share

/-- A machine whose state contains a store that `apply` changes; `foreign` is the move
at which some other machine makes a call, `calls` what a step does to the store. -/
structure Part {S C : Type*} (apply : S → C → S) (L M : Type*) where
  step : L → M → L
  store : L → S
  put : L → S → L
  foreign : C → M
  put_store : ∀ l, put l (store l) = l
  store_put : ∀ l s, store (put l s) = s
  put_put : ∀ l s t, put (put l s) t = put l t
  foreign_step : ∀ l c, step l (foreign c) = put l (apply (store l) c)
  calls : L → M → List C
  calls_store : ∀ l m, store (step l m) = (calls l m).foldl apply (store l)

/-- The machines of a system with their one store; the stores inside `parts` are out of
date. -/
@[ext] structure System {ι : Type*} (S : Type*) (L : ι → Type*) where
  store : S
  parts : ∀ i, L i

section System
variable {ι S C : Type*} {apply : S → C → S} {L M : ι → Type*} (P : ∀ i, Part apply (L i) (M i))

/-- Machine `i` with the store as it is now. -/
def System.view (w : System S L) (i : ι) : L i := (P i).put (w.parts i) w.store

variable [DecidableEq ι]

def System.step (w : System S L) (m : Σ i, M i) : System S L :=
  ⟨(P m.1).store ((P m.1).step (w.view P m.1) m.2),
    Function.update w.parts m.1 ((P m.1).step (w.view P m.1) m.2)⟩

/-- A move of the system as machine `i` sees it: its own move, or the calls of another. -/
def System.sees (w : System S L) (i : ι) (m : Σ i, M i) : List (M i) :=
  if h : m.1 = i then [h ▸ m.2] else ((P m.1).calls (w.view P m.1) m.2).map (P i).foreign

/-- A run of the system as machine `i` sees it. -/
def System.seen (w : System S L) (i : ι) : List (Σ i, M i) → List (M i)
  | [] => []
  | m :: moves => w.sees P i m ++ (w.step P m).seen i moves

variable {P}

end System

end MiniTcg.Share
