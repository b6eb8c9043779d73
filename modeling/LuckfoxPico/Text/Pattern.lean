import Mathlib.Data.List.Forall2
import Mathlib.Data.List.Infix
import LuckfoxPico.Text.Str

/-!
# Regular expressions without repetition

The expressions that grep and sed are given are mostly fixed texts in which only `.` is special.
Such a pattern is a list of atoms, it matches texts of its own length, and the leftmost match of sed
is the first place where it matches.
-/

/-- A character, or `.` for any character. -/
inductive Atom
  | char (c : Char)
  | any
deriving DecidableEq, Repr

/-- A pattern. -/
abbrev Pat := List Atom

namespace Pat

/-- The characters an atom stands for. -/
def accepts : Atom → Char → Bool
  | .char d, c => d = c
  | .any, _ => true

/-- A regular expression whose only special character is `.`. -/
def regex (s : Str) : Pat := s.map fun c => if c = '.' then .any else .char c

/-- The pattern that matches one text only. -/
def literal (s : Str) : Pat := s.map .char

/-- The text behind a match at the start. -/
def afterMatch : Pat → Str → Option Str
  | [], s => some s
  | _ :: _, [] => none
  | a :: p, c :: s => if accepts a c then afterMatch p s else none

/-- `grep`: the pattern matches somewhere in the line. -/
def occurs (p : Pat) : Str → Bool
  | [] => (afterMatch p []).isSome
  | c :: s => (afterMatch p (c :: s)).isSome || occurs p s

/-- `s/p/rep/`: the leftmost match is replaced. -/
def replaceFirst (p : Pat) (rep : Str) : Str → Str
  | [] => []
  | c :: s =>
    match afterMatch p (c :: s) with
    | some rest => rep ++ rest
    | none => c :: replaceFirst p rep s

/-- A text that the pattern matches as a whole. -/
def Matches (p : Pat) (m : Str) : Prop := List.Forall₂ (fun a c => accepts a c = true) p m

/-- Some character is accepted by both atoms. -/
def compatible : Atom → Atom → Bool
  | .char c, .char d => c = d
  | _, _ => true

/-- Some text starts with matches of both patterns. -/
def agree : Pat → Pat → Bool
  | [], _ => true
  | _, [] => true
  | a :: p, b :: q => compatible a b && agree p q

/-- Matches of the two patterns never overlap. -/
def apart (p q : Pat) : Bool :=
  p.tails.all (fun t => t = [] || !agree t q) && q.tails.all (fun t => t = [] || !agree t p)

/-- The line has two matches that do not overlap. -/
def Twice (p : Pat) (s : Str) : Prop :=
  ∃ u m v w x, s = u ++ m ++ v ++ w ++ x ∧ Matches p m ∧ Matches p w

end Pat
