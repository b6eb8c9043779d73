import Mathlib.Data.List.Basic

/-!
# Reordering windows

A receiver that hands messages on in the order of their serials. It holds back what comes too
early, in a window of `w` serials from the one it waits for. A message beyond the window moves the
window forward; when the wait is over, the receiver gives up what is missing in front of the first
message it holds.
-/

namespace Window

variable {α : Type} (serial : α → Nat)

/-- The serial that is waited for, none before the first message, and the messages held back. -/
structure State (α : Type) where
  next : Option Nat
  held : List α

/-- What becomes of a message: it is passed on in its turn, it is behind what has been passed on, or
one with its serial is held already. -/
inductive Fate (α : Type)
  | passed (m : α)
  | late (m : α)
  | double (m : α)

/-- The messages that are passed on in their turn. -/
def passedOf : List (Fate α) → List α
  | [] => []
  | .passed m :: l => m :: passedOf l
  | _ :: l => passedOf l

/-- The state before the first message. -/
def State.start : State α := ⟨none, []⟩

/-- Puts a message in its place among those held back, if none of them has its serial. -/
def place (m : α) : List α → Option (List α)
  | [] => some [m]
  | x :: xs =>
    if serial x < serial m then (place m xs).map (x :: ·)
    else if serial x = serial m then none
    else some (m :: x :: xs)

/-- The first serial from `n` on that is not held. -/
def advance : Nat → List α → Nat
  | n, [] => n
  | n, x :: xs =>
    if serial x < n then advance n xs
    else if serial x = n then advance (n + 1) xs
    else n

/-- Passes on what is held in front of the first missing serial from `n` on. -/
def settle (n : Nat) (l : List α) : State α × List (Fate α) :=
  (⟨some (advance serial n l), l.dropWhile fun x => serial x < advance serial n l⟩,
    (l.takeWhile fun x => serial x < advance serial n l).map .passed)

/-- The serial waited for after a message with serial `k` has arrived, before it is held. -/
def turn (w n k : Nat) : Nat :=
  if k = n then n + 1 else if n + w ≤ k then k + 1 - w else n

/-- A message arrives. -/
def arrive (w : Nat) (s : State α) (m : α) : State α × List (Fate α) :=
  let n := s.next.getD (serial m)
  if serial m < n then (s, [.late m])
  else match place serial m s.held with
    | none => (⟨some (turn w n (serial m)), s.held⟩, [.double m])
    | some l => settle serial (turn w n (serial m)) l

/-- The wait for the missing messages is over. -/
def expire (s : State α) : State α × List (Fate α) :=
  match s.held with
  | [] => (s, [])
  | x :: xs => settle serial (serial x) (x :: xs)

/-- What happens to a receiver. -/
inductive Event (α : Type)
  | arrive (m : α)
  | expire

/-- The step of the receiver as a machine; it is possible in every state. -/
def step (w : Nat) (s : State α) : Event α → Option (State α × List (Fate α))
  | .arrive m => some (arrive serial w s m)
  | .expire => some (expire serial s)

end Window
