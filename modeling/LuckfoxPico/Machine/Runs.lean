import Mathlib.Data.List.Basic

/-!
# Machines and loops

A machine takes events and puts out values: a step takes a state and an event to the next state and
what is put out on the way, or it is not possible in that state (`none`). A run takes a list of
events one after the other and collects what is put out.

The body of a loop either goes on with a new state or ends the loop with a result. A loop returns a
result if it does so for some number of turns.
-/

namespace Machine

section Runs

variable {σ ε ω : Type}

/-- The run over a list of events: the state it ends in and everything it put out. -/
def run (step : σ → ε → Option (σ × List ω)) : σ → List ε → Option (σ × List ω)
  | s, [] => some (s, [])
  | s, e :: es => (step s e).bind fun r => (run step r.1 es).map fun q => (q.1, r.2 ++ q.2)

/-- The states of the runs from a set of initial states. -/
def Reachable (step : σ → ε → Option (σ × List ω)) (init : σ → Prop) (s : σ) : Prop :=
  ∃ s₀ es out, init s₀ ∧ run step s₀ es = some (s, out)

end Runs

section Loops

variable {σ ρ : Type}

/-- The result of a loop that ends within a number of turns. -/
def loop (body : σ → σ ⊕ ρ) : Nat → σ → Option ρ
  | 0, _ => none
  | n + 1, s =>
    match body s with
    | .inl s' => loop body n s'
    | .inr r => some r

/-- The loop ends, with a result. -/
def Returns (body : σ → σ ⊕ ρ) (s : σ) (r : ρ) : Prop := ∃ n, loop body n s = some r

end Loops

end Machine
