import Mathlib.Data.Nat.Basic
import Mathlib.Data.List.Basic

/-!
# Aligned sequential layout

Consecutive extents on a linear medium: every item is placed at the smallest multiple of its
alignment that is not below the end of the item before it. Units are whatever the instance counts
in (sectors, bytes, cells).
-/

namespace Layout

/-- The smallest multiple of `align` that is not below `n`. -/
def alignUp (n align : Nat) : Nat := (n + align - 1) / align * align

/-- A half-open extent `[start, start + length)`. -/
structure Extent where
  start : Nat
  length : Nat
deriving DecidableEq, Repr

/-- The first unit after the extent. -/
def Extent.stop (e : Extent) : Nat := e.start + e.length

/-- Two extents share no unit. -/
def Extent.Disjoint (e f : Extent) : Prop := e.stop ≤ f.start ∨ f.stop ≤ e.start

/-- An item to be placed: the alignment of its start and the number of units it occupies. -/
structure Item where
  align : Nat
  length : Nat
  align_pos : 0 < align

/-- Place one item after `cursor`. -/
def Item.place (i : Item) (cursor : Nat) : Extent := ⟨alignUp cursor i.align, i.length⟩

/-- Place the items one after the other, the first one not below `cursor`. -/
def placeAll : Nat → List Item → List Extent
  | _, [] => []
  | cursor, i :: is => i.place cursor :: placeAll (i.place cursor).stop is

end Layout
