import Mathlib.Data.List.Basic

/-!
# Block by block

A state that takes a list in blocks of a fixed size and keeps what is left. It does not matter how a
list is cut into pieces: to take one piece after the other, with the rest of what was there in
front, is to take the whole list.
-/

namespace Blocks

section Feed

variable {σ α : Type}

/-- The state after all whole blocks of `xs`, and the rest, which is shorter than a block. -/
def feed (size : Nat) (f : σ → List α → σ) (s : σ) (xs : List α) : σ × List α :=
  if 0 < size ∧ size ≤ xs.length then feed size f (f s (xs.take size)) (xs.drop size)
  else (s, xs)
termination_by xs.length
decreasing_by
  rw [List.length_drop]
  omega

end Feed

/-! ## Pieces -/

variable {σ α : Type} {size : Nat} {f : σ → List α → σ} {s : σ} {b xs ys : List α}

theorem feed_of_lt (h : xs.length < size) : feed size f s xs = (s, xs) := by
  rw [feed]
  exact if_neg (by omega)

theorem feed_of_le (hsize : 0 < size) (h : size ≤ xs.length) :
    feed size f s xs = feed size f (f s (xs.take size)) (xs.drop size) := by
  rw [feed]
  exact if_pos ⟨hsize, h⟩

/-- One whole block in front. -/
theorem feed_block (hsize : 0 < size) (hb : b.length = size) :
    feed size f s (b ++ xs) = feed size f (f s b) xs := by
  rw [feed_of_le hsize (by rw [List.length_append]; omega), List.take_left' hb, List.drop_left' hb]

theorem length_rest (hsize : 0 < size) (s : σ) (xs : List α) :
    (feed size f s xs).2.length = xs.length % size := by
  fun_induction feed size f s xs with
  | case1 s xs h ih =>
    rw [ih, List.length_drop]
    exact (Nat.mod_eq_sub_mod h.2).symm
  | case2 s xs h =>
    have hlt : xs.length < size := by omega
    exact (Nat.mod_eq_of_lt hlt).symm

/-- The pieces of a list one after the other. -/
theorem feed_append (hsize : 0 < size) (s : σ) (xs ys : List α) :
    feed size f s (xs ++ ys) = feed size f (feed size f s xs).1 ((feed size f s xs).2 ++ ys) := by
  fun_induction feed size f s xs with
  | case1 s xs h ih =>
    have htake : (xs.take size).length = size := List.length_take_of_le h.2
    rw [← ih, ← feed_block hsize htake, ← List.append_assoc, List.take_append_drop]
  | case2 s xs h => rfl

end Blocks
