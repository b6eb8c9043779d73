import LuckfoxPico.Html.Tokenizer

/-!
# Documents that are written without escaping

A document is a list of tags, texts and elements with a raw text. `render` writes it with the texts
and the attribute values as they are; `tokens` says what is meant.
-/

namespace Html

inductive Node
  | doctype
  | start (name : Str) (attrs : List (Str × Str))
  | close (name : Str)
  | text (s : Str)
  /-- An element like `title` or `style` with its text. -/
  | raw (name s : Str)

/-- An attribute in double quotes. -/
def renderAttr (attr : Str × Str) : Str := ' ' :: (attr.1 ++ ['=', '"'] ++ attr.2 ++ ['"'])

def Node.render : Node → Str
  | .doctype => "<!DOCTYPE html>".toList
  | .start name attrs => '<' :: (name ++ attrs.flatMap renderAttr ++ ['>'])
  | .close name => '<' :: '/' :: (name ++ ['>'])
  | .text s => s
  | .raw name s => '<' :: (name ++ ['>'] ++ s ++ ['<', '/'] ++ name ++ ['>'])

/-- The text of a document. -/
def render (doc : List Node) : Str := doc.flatMap Node.render

def Node.tokens : Node → List Token
  | .doctype => [.doctype]
  | .start name attrs => [.tag ⟨false, name, attrs⟩]
  | .close name => [.tag ⟨true, name, []⟩]
  | .text s => s.map .char
  | .raw name s => .tag ⟨false, name, []⟩ :: (s.map .char ++ [.tag ⟨true, name, []⟩])

/-- The tokens of a document as it is meant. -/
def tokens (doc : List Node) : List Token := doc.flatMap Node.tokens

/-! ## What the author of a document answers for -/

/-- The name of an element: lower-case letters and digits behind a letter. -/
def isName : Str → Bool
  | [] => false
  | c :: s => c.isLower && s.all fun d => d.isLower || d.isDigit

/-- The name of an attribute: lower-case letters and dashes. -/
def isAttrName (s : Str) : Bool := s ≠ [] && s.all fun c => c.isLower || c = '-'

/-- The names in a node are names. -/
def Node.wellFormed : Node → Bool
  | .doctype => true
  | .start name attrs =>
    isName name && !rawElements.contains name && attrs.all (fun attr => isAttrName attr.1) &&
      (attrs.map Prod.fst).Nodup
  | .close name => isName name
  | .text _ => true
  | .raw name _ => isName name && rawElements.contains name

/-- Every text is directly in front of markup. -/
def separated : List Node → Bool
  | [] => true
  | .text _ :: [] => false
  | .text _ :: .text _ :: _ => false
  | _ :: doc => separated doc

/-- What the author answers for. -/
def Proper (doc : List Node) : Prop := doc.all Node.wellFormed = true ∧ separated doc = true

/-! ## Values that are safe where they stand -/

/-- No `<` of the text opens markup. -/
def Inert (s : Str) : Prop := Str.NoPair '<' opens s

/-- No `<` of the text ends the element. -/
def RawInert (name s : Str) : Prop := ∀ u v, s = u ++ '<' :: v → closes name v = false

/-- The values of a node are safe. -/
def Node.Safe : Node → Prop
  | .start _ attrs => ∀ attr ∈ attrs, '"' ∉ attr.2
  | .text s => Inert s
  | .raw name s => RawInert name s
  | _ => True

/-- The values of a document are safe. -/
def Safe (doc : List Node) : Prop := ∀ node ∈ doc, node.Safe

end Html
