import LuckfoxPico.Text.Str

/-!
# How make reads a makefile

A backslash at the end of a line joins it with the next one. The logical lines are read one after
the other: assignments, rules with their recipes, conditional directives and definitions. Values are
not expanded: an assignment is its name and the words of its text. A line that starts with a tab
belongs to the recipe of a rule and is an error where no rule is open.
-/

namespace Make

open Str

/-- An assignment to a variable. -/
structure Assignment where
  name : Str
  words : List Str
deriving DecidableEq, Repr

/-! ## Lines -/

/-- The line ends with a backslash that is not escaped itself. -/
def continues (l : Str) : Bool := (l.reverse.takeWhile (· = '\\')).length % 2 = 1

/-- Put a text in front of the first logical line. -/
def attach (t : Str) : List Str → List Str
  | [] => [t]
  | u :: us => (t ++ ' ' :: u) :: us

/-- The logical lines. -/
def logical : List Str → List Str
  | [] => []
  | l :: ls => if continues l then attach l.dropLast (logical ls) else l :: logical ls

/-- Cut off the comment; `escaped` says whether the next character is behind a backslash. -/
def uncomment (escaped : Bool) : Str → Str
  | [] => []
  | c :: s => if c = '#' && !escaped then [] else c :: uncomment (c = '\\' && !escaped) s

/-- The words of a text. -/
def words : Str → List Str
  | [] => []
  | c :: s =>
    if isspace c then words s
    else if s.head?.all isspace then [c] :: words s
    else (c :: (words s).headD []) :: (words s).tail

/-! ## Assignments -/

/-- How deep the text is in parentheses behind a character. -/
def nest (depth : Nat) (c : Char) : Nat :=
  if c ∈ ['(', '{'] then depth + 1 else if c ∈ [')', '}'] then depth - 1 else depth

/-- The text in front of the first `=` that is not in parentheses, and the text behind it. -/
def splitAssign (depth : Nat) : Str → Option (Str × Str)
  | [] => none
  | c :: s =>
    if depth = 0 && c = '=' then some ([], s)
    else (splitAssign (nest depth c) s).map fun (left, right) => (c :: left, right)

/-- The characters that are not in parentheses. -/
def topLevel (depth : Nat) : Str → Str
  | [] => []
  | c :: s => if depth = 0 then c :: topLevel (nest depth c) s else topLevel (nest depth c) s

/-- Take the rest of the operator (`:`, `::`, `+`, `?` or `!`) off the end. -/
def dropOperator (s : Str) : Str :=
  match s.reverse with
  | '+' :: r => r.reverse
  | '?' :: r => r.reverse
  | '!' :: r => r.reverse
  | ':' :: r => (r.dropWhile (· = ':')).reverse
  | _ => s

def modifiers : List Str := ["export ".toList, "override ".toList, "private ".toList]

/-- Take a modifier off the start. -/
def dropModifier (s : Str) : Str :=
  match modifiers.find? (·.isPrefixOf s) with
  | some m => (s.drop m.length).dropWhile isspace
  | none => s

/-- The name that the text in front of `=` gives; it is one word without a colon. -/
def varName (left : Str) : Option Str :=
  let name := dropModifier (((dropOperator left).dropWhile isspace).rdropWhile isspace)
  if name ≠ [] && (topLevel 0 name).all (fun c => !isspace c && c ≠ ':') then some name else none

/-- The assignment in a logical line. -/
def assignment (t : Str) : Option Assignment := do
  let (left, right) ← splitAssign 0 t
  let name ← varName left
  return ⟨name, words right⟩

/-! ## Reading -/

/-- Whether a rule is open, whether a definition is open, and how many conditionals are. -/
structure State where
  inRule : Bool
  inDefine : Bool
  conditionals : Nat
deriving DecidableEq, Repr

def start : State := ⟨false, false, 0⟩

def kwDefine : Str := "define".toList

def kwEndef : Str := "endef".toList

def kwElse : Str := "else".toList

def kwEndif : Str := "endif".toList

def kwConditional : List Str :=
  ["ifeq".toList, "ifneq".toList, "ifdef".toList, "ifndef".toList]

def kwDirective : List Str :=
  ["include".toList, "-include".toList, "sinclude".toList, "export".toList, "unexport".toList,
    "undefine".toList, "vpath".toList]

/-- One logical line; `none` is an error. -/
def step (st : State) (t : Str) : Option (State × List Assignment) :=
  let u := uncomment false t
  let first := (words u).headD []
  if st.inDefine then some ({ st with inDefine := first ≠ kwEndef }, [])
  else if words u = [] then some (st, [])
  else if t.head? = some '\t' then if st.inRule then some (st, []) else none
  else match assignment u with
    | some a => some ({ st with inRule := false }, [a])
    | none =>
      if first = kwDefine then some ({ st with inRule := false, inDefine := true }, [])
      else if first ∈ kwConditional then
        some ({ st with conditionals := st.conditionals + 1 }, [])
      else if first = kwElse then if st.conditionals = 0 then none else some (st, [])
      else if first = kwEndif then
        if st.conditionals = 0 then none
        else some ({ st with conditionals := st.conditionals - 1 }, [])
      else if first ∈ kwDirective then some ({ st with inRule := false }, [])
      else if ':' ∈ topLevel 0 u then some ({ st with inRule := true }, [])
      else none

/-- The logical lines from a state on. -/
def readFrom (st : State) : List Str → Option (State × List Assignment)
  | [] => some (st, [])
  | t :: ts => do
    let (st', as) ← step st t
    let (st'', bs) ← readFrom st' ts
    return (st'', as ++ bs)

/-- The assignments of a makefile that make accepts: at its end nothing is open but a rule. -/
def read (lines : List Str) : Option (List Assignment) := do
  let (st, as) ← readFrom start (logical lines)
  if st.inDefine || st.conditionals ≠ 0 then none else some as

/-- The line `l` continues an assignment: the logical line that it stands in is, up to and with `l`,
the assignment `a` without a comment. -/
def Continued (before : List Str) (l : Str) (a : Assignment) : Prop :=
  ∃ closed opened t, before = closed ++ opened ∧ (∀ m ∈ closed.getLast?, continues m = false) ∧
    (∀ m ∈ opened ++ [l], continues m = true) ∧ logical (opened ++ [l]) = [t] ∧
    uncomment false t = t ∧ t.head? ≠ some '\t' ∧ assignment t = some a ∧
    ∀ st as, readFrom start (logical closed) = some (st, as) → st.inDefine = false

/-- The line `l` stands in an assignment: the same, but the line may be the last one of it. -/
def Stands (before : List Str) (l : Str) (a : Assignment) : Prop :=
  ∃ closed opened t, before = closed ++ opened ∧ (∀ m ∈ closed.getLast?, continues m = false) ∧
    (∀ m ∈ opened, continues m = true) ∧ logical (opened ++ [l]) = [t] ∧
    uncomment false t = t ∧ t.head? ≠ some '\t' ∧ assignment t = some a ∧
    ∀ st as, readFrom start (logical closed) = some (st, as) → st.inDefine = false

end Make
