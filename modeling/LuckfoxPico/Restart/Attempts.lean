import Mathlib.Logic.Function.Basic

/-!
# Edits that are stopped and started again

A task is a list of edits, each of one target. An attempt executes the list from its start and is
stopped somewhere; the next attempt starts again from the first edit, on what the last one left.
-/

namespace Restart

variable {ι σ β : Type} [DecidableEq ι]

/-- One edit of one target. -/
structure Edit (ι σ : Type) where
  target : ι
  apply : σ → σ

/-- One edit leaves every other target as it is. -/
def Edit.run (e : Edit ι σ) (t : ι → σ) : ι → σ :=
  Function.update t e.target (e.apply (t e.target))

/-- An execution of all edits. -/
def run (es : List (Edit ι σ)) (t : ι → σ) : ι → σ := es.foldl (fun t e => e.run t) t

/-- Attempts that are stopped after the given numbers of edits. -/
def attempts (es : List (Edit ι σ)) (stops : List Nat) (t : ι → σ) : ι → σ :=
  stops.foldl (fun t k => run (es.take k) t) t

/-- After any attempts, a complete execution gives what one execution gives from the start. -/
def Restartable (view : σ → β) (es : List (Edit ι σ)) (t : ι → σ) : Prop :=
  ∀ stops i, view (run es (attempts es stops t) i) = view (run es t i)

/-! ## One target -/

/-- The edits of one target, in their order. -/
def editsOf (i : ι) (es : List (Edit ι σ)) : List (σ → σ) :=
  (es.filter fun e => e.target = i).map Edit.apply

def runOne (fs : List (σ → σ)) (s : σ) : σ := fs.foldl (fun s f => f s) s

def attemptsOne (fs : List (σ → σ)) (stops : List Nat) (s : σ) : σ :=
  stops.foldl (fun s k => runOne (fs.take k) s) s

def RestartableOne (view : σ → β) (fs : List (σ → σ)) (s : σ) : Prop :=
  ∀ stops, view (runOne fs (attemptsOne fs stops s)) = view (runOne fs s)

end Restart
