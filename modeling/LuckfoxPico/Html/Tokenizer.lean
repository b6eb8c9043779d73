import LuckfoxPico.Text.Str

/-!
# Tokens of an HTML text

The tokenization of the HTML standard, with the states that the standard keeps apart only for parse
errors and for the self-closing flag made one. Character references are left as they are written.
The text behind a character is looked at in place of states that wait for it. Behind the tags
`plaintext` and `script` the standard goes on in ways of their own, which are left out: here
`plaintext` is a tag like others, and `script` has the text of `style`.
-/

namespace Html

/-- A start tag or an end tag with its attributes in their order. -/
structure Tag where
  close : Bool
  name : Str
  attrs : List (Str × Str)
deriving DecidableEq, Repr

inductive Token
  | char (c : Char)
  | tag (t : Tag)
  | comment
  | doctype
deriving DecidableEq, Repr

/-- The states. A tag is the part of it that has been read. -/
inductive State
  | data
  /-- The text of an element like `title` or `style`. -/
  | raw (name : Str)
  /-- `n + 1` characters that have been looked at already. -/
  | skip (n : Nat) (next : State)
  | tagName (t : Tag)
  | betweenAttrs (t : Tag)
  | attrName (t : Tag) (n : Str)
  | afterAttrName (t : Tag) (n : Str)
  | beforeAttrValue (t : Tag) (n : Str)
  /-- Without a quote the value is unquoted. -/
  | attrValue (quote : Option Char) (t : Tag) (n v : Str)
  | bogusComment
  /-- `start` says that nothing has been read of the comment. -/
  | comment (start : Bool)
  | doctype

def isSpace (c : Char) : Bool := c ∈ ['\t', '\n', '\x0c', '\r', ' ']

/-- The elements with a text of their own kind. -/
def rawElements : List Str :=
  ["title".toList, "textarea".toList, "style".toList, "xmp".toList, "iframe".toList,
    "noembed".toList, "noframes".toList, "script".toList]

/-- An attribute is dropped if the tag has one of this name. -/
def Tag.add (t : Tag) (n v : Str) : Tag :=
  if t.attrs.any (·.1 = n) then t else { t with attrs := t.attrs ++ [(n, v)] }

/-- The state behind a tag. -/
def Tag.next (t : Tag) : State :=
  if !t.close && rawElements.contains t.name then .raw t.name else .data

/-- What a `<` opens. -/
inductive Opening
  | text
  | startTag
  | endTag
  /-- `</>`, which is dropped. -/
  | nothing
  | bogusComment
  | comment
  | doctype
deriving DecidableEq

/-- A `<` in front of such a character does not stand for itself. -/
def opens (c : Char) : Bool := c.isAlpha || c ∈ ['/', '!', '?']

/-- What a `</` opens. -/
def openingEnd : Str → Opening
  | [] => .text
  | c :: _ => if c.isAlpha then .endTag else if c = '>' then .nothing else .bogusComment

/-- What a `<!` opens. -/
def openingDeclaration (s : Str) : Opening :=
  if ['-', '-'].isPrefixOf s then .comment
  else if (s.take 7).map Char.toLower = "doctype".toList then .doctype
  else .bogusComment

/-- The text behind the `<` decides. -/
def opening : Str → Opening
  | [] => .text
  | c :: s =>
    if c.isAlpha then .startTag
    else if c = '/' then openingEnd s
    else if c = '!' then openingDeclaration s
    else if c = '?' then .bogusComment
    else .text

/-- The text behind a `<` ends the element `name`. -/
def closes (name : Str) : Str → Bool
  | [] => false
  | c :: s =>
    c = '/' && name.isPrefixOf (s.map Char.toLower) &&
      (s.drop name.length).head?.any fun d => isSpace d || d = '/' || d = '>'

/-- The number of characters behind `c` that end the comment with it. -/
def commentEnd (start : Bool) (c : Char) (s : Str) : Option Nat :=
  if start && c = '>' then some 0
  else if start && c = '-' && ['>'].isPrefixOf s then some 1
  else if c = '-' && ['-', '>'].isPrefixOf s then some 2
  else if c = '-' && ['-', '!', '>'].isPrefixOf s then some 3
  else none

def skipTo (n : Nat) (next : State) : State :=
  match n with
  | 0 => next
  | n + 1 => .skip n next

/-- Between the attributes of a tag. -/
def stepBetween (t : Tag) (c : Char) : List Token × State :=
  if isSpace c || c = '/' then ([], .betweenAttrs t)
  else if c = '>' then ([.tag t], t.next)
  else ([], .attrName t [c.toLower])

/-- What a state makes of a character, with the text behind it. -/
def step : State → Char → Str → List Token × State
  | .data, c, s =>
    if c = '<' then
      match opening s with
      | .text => ([.char c], .data)
      | .startTag => ([], .tagName ⟨false, [], []⟩)
      | .endTag => ([], .skip 0 (.tagName ⟨true, [], []⟩))
      | .nothing => ([], .skip 1 .data)
      | .bogusComment => ([], .bogusComment)
      | .comment => ([], .skip 2 (.comment true))
      | .doctype => ([], .skip 7 .doctype)
    else ([.char c], .data)
  | .raw name, c, s =>
    if c = '<' && closes name s then ([], .skip name.length (.betweenAttrs ⟨true, name, []⟩))
    else ([.char c], .raw name)
  | .skip n next, _, _ => ([], skipTo n next)
  | .tagName t, c, _ =>
    if isSpace c || c = '/' then ([], .betweenAttrs t)
    else if c = '>' then ([.tag t], t.next)
    else ([], .tagName { t with name := t.name ++ [c.toLower] })
  | .betweenAttrs t, c, _ => stepBetween t c
  | .attrName t n, c, _ =>
    if isSpace c then ([], .afterAttrName t n)
    else if c = '=' then ([], .beforeAttrValue t n)
    else if c = '/' || c = '>' then stepBetween (t.add n []) c
    else ([], .attrName t (n ++ [c.toLower]))
  | .afterAttrName t n, c, _ =>
    if isSpace c then ([], .afterAttrName t n)
    else if c = '=' then ([], .beforeAttrValue t n)
    else stepBetween (t.add n []) c
  | .beforeAttrValue t n, c, _ =>
    if isSpace c then ([], .beforeAttrValue t n)
    else if c = '"' || c = '\'' then ([], .attrValue (some c) t n [])
    else if c = '>' then stepBetween (t.add n []) c
    else ([], .attrValue none t n [c])
  | .attrValue (some q) t n v, c, _ =>
    if c = q then ([], .betweenAttrs (t.add n v)) else ([], .attrValue (some q) t n (v ++ [c]))
  | .attrValue none t n v, c, _ =>
    if isSpace c || c = '>' then stepBetween (t.add n v) c
    else ([], .attrValue none t n (v ++ [c]))
  | .bogusComment, c, _ => if c = '>' then ([.comment], .data) else ([], .bogusComment)
  | .comment start, c, s =>
    match commentEnd start c s with
    | some n => ([.comment], skipTo n .data)
    | none => ([], .comment false)
  | .doctype, c, _ => if c = '>' then ([.doctype], .data) else ([], .doctype)

/-- What a state makes of the end of the text; an unfinished tag is dropped. -/
def State.atEnd : State → List Token
  | .bogusComment | .comment _ => [.comment]
  | .doctype => [.doctype]
  | _ => []

/-- The tokens of a text from a state on. -/
def run : State → Str → List Token
  | st, [] => st.atEnd
  | st, c :: s => (step st c s).1 ++ run (step st c s).2 s

/-- The tokens of a text. -/
def tokenize (s : Str) : List Token := run .data s

end Html
