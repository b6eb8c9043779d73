import Mathlib.Algebra.Group.Int.Defs
import Mathlib.Data.List.DropRight
import Mathlib.Data.List.Infix

/-!
# Strings as lists of characters

Texts that programs scan are lists of characters; a character stands for a byte. The functions of
the C library that are used on them follow the C standard, with the C locale's character classes.
-/

/-- A text. -/
abbrev Str := List Char

namespace Str

/-- `fgets` into a buffer with room for `n` characters and the terminator: the line and the rest of
the stream. At the end of the file the line is empty. -/
def fgetsAux : (n : Nat) → Str → Str × Str
  | 0, s => ([], s)
  | _, [] => ([], [])
  | n + 1, c :: cs =>
    if c = '\n' then ([c], cs) else (c :: (fgetsAux n cs).1, (fgetsAux n cs).2)

/-- `fgets(buf, size, f)`. -/
def fgets (size : Nat) (s : Str) : Str × Str := fgetsAux (size - 1) s

/-- `snprintf(buf, size, "%s", s)`: what does not fit is cut off. -/
def snprintf (size : Nat) (s : Str) : Str := s.take (size - 1)

/-- The lines of a stream, each with its newline (the last one may lack it). -/
def rawLines : Str → List Str
  | [] => []
  | c :: cs =>
    if c = '\n' then ['\n'] :: rawLines cs
    else match rawLines cs with
      | [] => [[c]]
      | l :: ls => (c :: l) :: ls

/-- The lines that `while (fgets(buf, size, f))` sees; every call reads at least one character, so
the length of the stream bounds the number of calls. -/
def getsAll (size : Nat) : (fuel : Nat) → Str → List Str
  | 0, _ => []
  | fuel + 1, s =>
    if s = [] then [] else (fgets size s).1 :: getsAll size fuel (fgets size s).2

/-- What a command substitution `$(...)` makes of the output: trailing newlines are dropped. -/
def substitution (s : Str) : Str := s.rdropWhile (· = '\n')

/-- `isspace`. -/
def isspace (c : Char) : Bool := c ∈ [' ', '\t', '\n', '\x0b', '\x0c', '\r']

/-- `isalnum`. -/
def isalnum (c : Char) : Bool := c.isAlphanum

/-- `strstr`: the text from the first occurrence of `needle` on. -/
def strstr (s needle : Str) : Option Str := s.tails.find? needle.isPrefixOf

/-- `strspn(s, " ")`. -/
def strspnBlank (s : Str) : Nat := (s.takeWhile (· = ' ')).length

/-- No character `d` of the text stands in front of a character of the class. -/
def NoPair (d : Char) (cls : Char → Bool) (s : Str) : Prop :=
  ∀ u c v, s = u ++ d :: c :: v → cls c = false

/-- `LONG_MAX` of the 32-bit target. -/
def longMax : Int := 2 ^ 31 - 1

/-- `strtol(s, NULL, 10)`. -/
def strtol (s : Str) : Int :=
  let digits (s : Str) : Int :=
    (s.takeWhile Char.isDigit).foldl (fun n c => 10 * n + (c.toNat - '0'.toNat : Nat)) 0
  let v := match s.dropWhile isspace with
    | '-' :: s => -digits s
    | '+' :: s => digits s
    | s => digits s
  max (-longMax - 1) (min v longMax)

end Str
