import Mathlib.Logic.Function.Basic

/-!
# Queues with levels

One first-in first-out queue for each level; what is taken is the oldest of the highest level that
is not empty.
-/

namespace Levels

variable {α : Type}

/-- The queues of the levels. -/
abbrev State (α : Type) := Nat → List α

/-- Puts `x` at the end of the queue of its level. -/
def push (l : State α) (p : Nat) (x : α) : State α :=
  Function.update l p (l p ++ [x])

/-- Takes the first one of a level. -/
def pop (l : State α) (p : Nat) : State α :=
  Function.update l p (l p).tail

def Empty (l : State α) : Prop :=
  ∀ p, l p = []

/-- The one to be taken next, with its level. -/
def Top (l : State α) (p : Nat) (x : α) : Prop :=
  (l p).head? = some x ∧ ∀ q, p < q → l q = []

/-- Each one is in the queue of its level. -/
def Placed (level : α → Nat) (l : State α) : Prop :=
  ∀ p, ∀ x ∈ l p, level x = p

/-- For each level, what has been taken followed by what is queued is what was put in, in this
order. -/
def Serves (level : α → Nat) (l : State α) (taken put : List α) : Prop :=
  ∀ p, taken.filter (fun x => level x = p) ++ l p = put.filter (fun x => level x = p)

end Levels
