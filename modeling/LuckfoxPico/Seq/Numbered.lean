import Mathlib.Data.Int.ModEq
import Mathlib.Data.List.Range

/-!
# Numbered messages

Serial numbers that are kept modulo `2 * h` are compared by the sign of their difference: a number
comes before the `h` numbers that follow it on the circle. For serials that are less than half a
circle apart the comparison on the circle is the comparison of the serials.

A sender that stops and waits has each of its messages confirmed before it sends the next one.
-/

namespace Circular

/-- `a` comes before `b` on the circle of `2 * h` numbers. -/
def Before (h : Nat) (a b : Int) : Prop := (h : Int) ≤ (a - b) % (2 * h)

instance (h : Nat) (a b : Int) : Decidable (Before h a b) :=
  inferInstanceAs (Decidable ((h : Int) ≤ (a - b) % (2 * h)))

variable {h : Nat} {a b : Int}

/-- The comparison only depends on the residues. -/
theorem before_emod_iff : Before h (a % (2 * h)) (b % (2 * h)) ↔ Before h a b := by
  rw [Before, Before, ← Int.sub_emod]

theorem before_iff_lt (hh : 0 < h) (hlo : b ≤ a + h) (hhi : a < b + h) : Before h a b ↔ a < b := by
  have hpos : (0 : Int) < 2 * h := by omega
  by_cases hlt : a < b
  · have hmod : (a - b) % (2 * h) = a - b + 2 * h := by
      rw [← Int.add_emod_right, Int.emod_eq_of_lt (by omega) (by omega)]
    simp only [Before, hmod, hlt, iff_true]
    omega
  · have hmod : (a - b) % (2 * h) = a - b := Int.emod_eq_of_lt (by omega) (by omega)
    simp only [Before, hmod, hlt, iff_false]
    omega

/-- Residues of serials less than half a circle apart compare as the serials do. -/
theorem before_residues_iff (hh : 0 < h) (hlo : b ≤ a + h) (hhi : a < b + h) :
    Before h (a % (2 * h)) (b % (2 * h)) ↔ a < b :=
  before_emod_iff.trans (before_iff_lt hh hlo hhi)

/-- Residues of serials less than a circle apart are equal only for equal serials. -/
theorem residues_eq_iff (hh : 0 < h) (hlo : b < a + 2 * h) (hhi : a < b + 2 * h) :
    a % (2 * h) = b % (2 * h) ↔ a = b := by
  constructor
  · intro heq
    have hdvd := Int.dvd_of_emod_eq_zero (Int.emod_eq_emod_iff_emod_sub_eq_zero.mp heq)
    obtain ⟨k, hk⟩ := hdvd
    have h1 : k < 1 := by
      by_contra hcon
      have : (2 * h : Int) * 1 ≤ 2 * h * k := Int.mul_le_mul_of_nonneg_left (by omega) (by omega)
      omega
    have h2 : -1 < k := by
      by_contra hcon
      have : (2 * h : Int) * k ≤ 2 * h * -1 := Int.mul_le_mul_of_nonneg_left (by omega) (by omega)
      omega
    obtain rfl : k = 0 := by omega
    omega
  · rintro rfl
    rfl

end Circular

namespace StopWait

/-- What is seen on the wire. A stray is a confirmation of nothing. -/
inductive Signal
  | send (n : Nat)
  | confirm (n : Nat)
  | stray
deriving DecidableEq

/-- The exchange of the message `n`. -/
def exchange (n : Nat) : List Signal := [.send n, .confirm n]

/-- The messages below `n` have been confirmed, and `n` has been sent if the wire is taken. -/
def trace (n : Nat) (taken : Bool) : List Signal :=
  (List.range n).flatMap exchange ++ if taken then [.send n] else []

theorem trace_send (n : Nat) : trace n false ++ [.send n] = trace n true := by
  simp [trace]

theorem trace_confirm (n : Nat) : trace n true ++ [.confirm n] = trace (n + 1) false := by
  simp [trace, exchange, List.range_succ]

end StopWait
