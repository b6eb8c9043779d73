import LuckfoxPico.Text.Pattern

/-!
# Text files and the tools that edit them

A text file is its lines. `awk` ends every line it prints, `sed` leaves a last line without a
newline as it is unless it appends a line to it.
-/

/-- The lines of a text file, and whether the last one ends with a newline. -/
structure TextFile where
  lines : List Str
  terminated : Bool
deriving DecidableEq, Repr

namespace TextFile

/-- `grep -q`. -/
def grep (p : Pat) (f : TextFile) : Bool := f.lines.any p.occurs

/-- `awk prog file`. -/
def awk (prog : List Str → List Str) (f : TextFile) : TextFile := ⟨prog f.lines, true⟩

/-- `sed 's/p/rep/'`. -/
def sedReplace (p : Pat) (rep : Str) (f : TextFile) : TextFile :=
  { f with lines := f.lines.map (p.replaceFirst rep) }

/-- `sed '/addr/a text'`. -/
def sedAppend (addr : Str → Bool) (text : Str) (f : TextFile) : TextFile where
  lines := f.lines.flatMap fun l => if addr l then [l, text] else [l]
  terminated := f.terminated || f.lines.getLast?.any addr

end TextFile

/-- The lines of the first list with whole blocks inserted between them. -/
inductive Inserted {α : Type} (blocks : List (List α)) : List α → List α → Prop
  | nil : Inserted blocks [] []
  | keep (l : α) {ls ls' : List α} (h : Inserted blocks ls ls') :
      Inserted blocks (l :: ls) (l :: ls')
  | insert {block : List α} (hblock : block ∈ blocks) {ls ls' : List α}
      (h : Inserted blocks ls ls') : Inserted blocks ls (block ++ ls')
