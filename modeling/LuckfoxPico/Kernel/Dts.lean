import LuckfoxPico.Make.Reader
import LuckfoxPico.Text.TextFile

/-!
# Adding device trees to the kernel's makefile (`do_configure:prepend` of the kernel recipe)

The recipe copies the `.dts` files of `WORKDIR` into the kernel tree and adds the `.dtb` of each to
`arch/arm/boot/dts/Makefile`, unless grep finds the name there already.
-/

namespace Kernel

open Str Make

def dtbSuffix : Str := ".dtb".toList

def rv1106 : Str := "rv1106".toList

def dtbPrefix : Str := "dtb-".toList

def rockchipList : Str := "dtb-$(CONFIG_ARCH_ROCKCHIP) += ".toList

/-- A `.dts` file by its name without the suffix. The name has no blanks and no characters that the
shell's tools or make take for something else, and grep does not take it for an option. -/
structure Dts where
  stem : Str
  plain : ∀ c ∈ stem, isspace c = false ∧ c ∉ ['\\', '[', '*', '^', '$', '#']
  noOption : stem.head? ≠ some '-'

/-- `$(basename "$dts" .dts).dtb`. -/
def Dts.dtb (d : Dts) : Str := d.stem ++ dtbSuffix

/-- The address `/rv1106.*\.dtb/`. -/
def anchor (l : Str) : Bool :=
  match strstr l rv1106 with
  | some s => (strstr (s.drop rv1106.length) dtbSuffix).isSome
  | none => false

/-- The line that sed appends. -/
def dtbEntry (d : Dts) : Str := '\t' :: (d.dtb ++ [' ', '\\'])

/-- `echo text >> file`: a last line without newline is continued. -/
def echoAppend (text : Str) (f : TextFile) : TextFile :=
  if f.terminated || f.lines = [] then ⟨f.lines ++ [text], true⟩
  else ⟨f.lines.dropLast ++ [f.lines.getLast?.getD [] ++ text], true⟩

/-- One iteration of the loop. -/
def addDtb (f : TextFile) (d : Dts) : TextFile :=
  if f.grep (.regex d.dtb) then f
  else if f.grep (.regex rv1106) then f.sedAppend anchor (dtbEntry d)
  else echoAppend (rockchipList ++ d.dtb) f

/-- The loop over the `.dts` files. -/
def addDtbs (f : TextFile) (ds : List Dts) : TextFile := ds.foldl addDtb f

/-! ## What the loop is for -/

/-- A list of device trees: the variables `dtb-y`, `dtb-$(CONFIG_...)`. -/
def isDtbList (a : Assignment) : Bool := dtbPrefix.isPrefixOf a.name

/-- The words of all these lists. -/
def listed (as : List Assignment) : List Str := (as.filter isDtbList).flatMap Assignment.words

/-- The same assignment, or a list of device trees that has lost no word and won some of `names`. -/
def Grows (names : List Str) (a b : Assignment) : Prop :=
  b = a ∨ (isDtbList a = true ∧ b.name = a.name ∧ a.words.Sublist b.words ∧
    ∀ w ∈ b.words, w ∈ a.words ∨ w ∈ names)

/-- The assignments of the makefile afterwards: those from before, and new lists at the end. -/
def Extends (names : List Str) (as bs : List Assignment) : Prop :=
  ∃ kept new, bs = kept ++ new ∧ List.Forall₂ (Grows names) as kept ∧
    ∀ b ∈ new, isDtbList b = true ∧ ∀ w ∈ b.words, w ∈ names

/-- The makefile is accepted as before, every device tree is listed once, and nothing else
changes. -/
def Registered (ds : List Dts) (f g : TextFile) : Prop :=
  ∃ as bs, read f.lines = some as ∧ read g.lines = some bs ∧
    (∀ d ∈ ds, (listed bs).count d.dtb = 1) ∧ Extends (ds.map Dts.dtb) as bs

/-! ## When the loop does it -/

/-- One iteration does what it is for: the name is listed once where grep finds it, or exactly one
line matches sed's address and continues a list, or the file ends with a complete line. -/
def GoodStep (f : TextFile) (d : Dts) : Prop :=
  if f.grep (.regex d.dtb) then ∀ as, read f.lines = some as → (listed as).count d.dtb = 1
  else if f.grep (.regex rv1106) then
    ∃ before l after, f.lines = before ++ l :: after ∧ anchor l = true ∧
      (∀ m ∈ before ++ after, anchor m = false) ∧ ∃ a, Continued before l a ∧ isDtbList a = true
  else (f.terminated = true ∨ f.lines = []) ∧ ∀ l ∈ f.lines.getLast?, continues l = false

/-- Every iteration of the loop is good. -/
def GoodRun : TextFile → List Dts → Prop
  | _, [] => True
  | f, d :: ds => GoodStep f d ∧ GoodRun (addDtb f d) ds

/-- Every line that matches sed's address stands in a list of device trees, and the file ends with a
complete line. -/
def Tidy (f : TextFile) : Prop :=
  (∀ before l after, f.lines = before ++ l :: after → anchor l = true →
    ∃ a, Stands before l a ∧ isDtbList a = true) ∧
  (f.terminated = true ∨ f.lines = []) ∧ ∀ l ∈ f.lines.getLast?, continues l = false

/-- Every iteration of the loop starts from a tidy makefile. -/
def TidyRun : TextFile → List Dts → Prop
  | _, [] => True
  | f, d :: ds => Tidy f ∧ TidyRun (addDtb f d) ds

end Kernel
