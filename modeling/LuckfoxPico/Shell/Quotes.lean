import LuckfoxPico.Text.Str

/-!
# Texts inside double quotes and sed commands

What a POSIX shell makes of a text between double quotes, and what sed makes of the replacement of
an `s` command. A text that closes the quotes or starts a substitution of a command is code, and
what it does is not a matter of the text alone.
-/

namespace Shell

/-- Where the shell is inside of double quotes: in plain text, behind a backslash, behind a dollar
sign or inside the name of a variable. -/
inductive Mode
  | plain
  | escape
  | dollar
  | name (n : Str)

/-- The mode behind a character of plain text. -/
def Mode.next (c : Char) : Mode :=
  if c = '\\' then .escape else if c = '$' then .dollar else .plain

def nameStart (c : Char) : Bool := c.isAlpha || c = '_'

def nameChar (c : Char) : Bool := c.isAlphanum || c = '_'

/-- The parameters that one character names. -/
def oneCharParam (c : Char) : Bool := c.isDigit || c ∈ ['@', '*', '#', '?', '-', '$', '!']

/-- What plain text emits for a character. -/
def emit (c : Char) : Str := if c = '\\' || c = '$' then [] else [c]

/-- The value of a text inside of double quotes, with the values of the parameters. -/
def dquote (param : Str → Str) : Mode → Str → Str
  | .plain, [] => []
  | .escape, [] => ['\\']
  | .dollar, [] => ['$']
  | .name n, [] => param n
  | .plain, c :: s => emit c ++ dquote param (.next c) s
  | .escape, c :: s =>
    if c ∈ ['$', '`', '"', '\\'] then c :: dquote param .plain s
    else '\\' :: c :: dquote param .plain s
  | .dollar, c :: s =>
    if nameStart c then dquote param (.name [c]) s
    else if oneCharParam c then param [c] ++ dquote param .plain s
    else '$' :: (emit c ++ dquote param (.next c) s)
  | .name n, c :: s =>
    if nameChar c then dquote param (.name (n ++ [c])) s
    else param n ++ (emit c ++ dquote param (.next c) s)

/-- The text closes the quotes or starts a substitution; `atEnd` says that the closing quote follows
the text, so that a backslash at its end takes the quote for itself. -/
def isCode (atEnd : Bool) : Mode → Str → Bool
  | .escape, [] => atEnd
  | _, [] => false
  | .escape, _ :: s => isCode atEnd .plain s
  | .dollar, c :: s =>
    c ∈ ['(', '{', '[', '"', '`'] || isCode atEnd (if c = '$' then .plain else .next c) s
  | _, c :: s => c ∈ ['"', '`'] || isCode atEnd (.next c) s

/-- A character behind which a dollar sign does not stand for itself. -/
def expands (c : Char) : Bool := nameChar c || oneCharParam c || c ∈ ['(', '{', '[']

/-- No dollar sign of the text starts an expansion. -/
def NoExpansion (s : Str) : Prop := ∀ u c v, s = u ++ '$' :: c :: v → expands c = false

end Shell

namespace Sed

/-- The replacement of `s|tok|...|flags` and the text behind it; `escaped` says whether the next
character is behind a backslash. -/
def splitReplacement : (escaped : Bool) → Str → Option (Str × Str)
  | _, [] => none
  | true, c :: s => (splitReplacement false s).map fun (l, r) => (c :: l, r)
  | false, c :: s =>
    if c = '|' then some ([], s)
    else (splitReplacement (c = '\\') s).map fun (l, r) => (c :: l, r)

/-- The text that a replacement inserts for the match `tok`. A backslash in front of another
character is an extension, and so is what it makes of the text from this character on. -/
def replacement (extension : Char → Str → Option Str) (tok : Str) :
    (escaped : Bool) → Str → Option Str
  | false, [] => some []
  | true, [] => none
  | false, c :: s =>
    if c = '\\' then replacement extension tok true s
    else (replacement extension tok false s).map ((if c = '&' then tok else [c]) ++ ·)
  | true, c :: s =>
    if c ∈ ['\\', '&', '|'] then (replacement extension tok false s).map (c :: ·)
    else if c = '0' then (replacement extension tok false s).map (tok ++ ·)
    else if c.isDigit then none
    else extension c s

/-- What sed makes of the text behind `s|tok|`. -/
inductive Command
  | replace (rep : Str)
  | invalid
  | code

def command (extension : Char → Str → Option Str) (tok text : Str) : Command :=
  match splitReplacement false text with
  | none => .invalid
  | some (repl, flags) =>
    if flags = ['g'] then
      match replacement extension tok false repl with
      | some rep => .replace rep
      | none => .invalid
    else .code

end Sed
