import LuckfoxPico.Scan.FirstMatch
import LuckfoxPico.Text.Fields

/-!
# The two readers of the CPU clock rate

`tick_stats` of the LVGL demo (`main.c`) and the `CPU_FREQ` fallback of the status page
(`status.cgi`) both look for `armclk` in the kernel's clock tree,
`/sys/kernel/debug/clk/clk_summary`. A row is a line number, and the place of a field in it is the
text of the line from the field on.
-/

namespace Clk

open Str Fields Scan

/-- The clock's name. -/
def armclk : Str := "armclk".toList

/-! ## The status page -/

/-- The characters that separate fields in awk; the end of the record is one of them. -/
def awkBlank (c : Char) : Bool := c ∈ [' ', '\t', '\n']

/-- `$1 == "armclk"`. -/
def awkMatches (line : Str) : Bool := field awkBlank 0 line = armclk

/-- The row at which `awk` prints and exits, and the place of `$5` in it. -/
def awkRow (content : Str) : Option (Nat × Str) :=
  (firstRow awkMatches (rawLines content)).map fun (line, n) => (n, fieldFrom awkBlank 4 line)

/-! ## The LVGL demo -/

/-- The condition of the `if` in `tick_stats`. -/
def demoMatches (line : Str) : Bool :=
  strstr line (armclk ++ [' ']) = some line ||
    (armclk.isPrefixOf (line.drop (strspnBlank line)) &&
      !isalnum (line.getD (strspnBlank line + 6) '\x00'))

/-- The pointer `p` after the loop that skips the name and four fields and after the last
advance. -/
def ratePointer (line : Str) : Str := skipField isspace ((skipField isspace)^[4] line)

/-- The row at which `tick_stats` leaves its loop, and the pointer it gives to `strtol`. -/
def demoRow (content : Str) : Option (Nat × Str) :=
  (firstRow demoMatches (getsAll 256 content.length content)).map fun (line, n) =>
    (n, ratePointer line)

/-- The variable `mhz` of `tick_stats`. -/
def mhz (content : Str) : Int :=
  match demoRow content with
  | none => 0
  | some (_, p) => (strtol p).tdiv 1000000

/-! ## The clock tree -/

/-- A content of `clk_summary`: lines shorter than 255 bytes, whose fields are separated by
spaces. -/
structure Summary where
  content : Str
  short : ∀ l ∈ rawLines content, l.length ≤ 255
  spaced : ∀ c ∈ content, isspace c = true → c = ' ' ∨ c = '\n'
  text : '\x00' ∉ content

/-- The demo takes its rate from the row and the field that the status page takes it from, and when
the page finds no row, the demo's rate stays 0. -/
def SameRate (content : Str) : Prop :=
  match awkRow content with
  | some row => demoRow content = some row
  | none => mhz content = 0

instance (content : Str) : Decidable (SameRate content) :=
  match h : awkRow content with
  | some row => decidable_of_iff (demoRow content = some row) (by rw [SameRate, h])
  | none => decidable_of_iff (mhz content = 0) (by rw [SameRate, h])

/-- The field starts with `armclk`, and the name ends there or goes on with a character that is not
a letter or a digit. -/
def looksLike (w : Str) : Bool := armclk.isPrefixOf w && !isalnum (w.getD 6 '\x00')

/-- The line starts with a blank. -/
def indented (line : Str) : Bool := line.head?.any isspace

/-- The first line whose first field looks like `armclk`, if there is one, has the name `armclk`
itself, and it is indented or has fewer than five fields; or no line has that name, and the number
in the fifth field of that first line (the sixth if the line is not indented) is below a million. -/
def Clear (content : Str) : Prop :=
  ∀ l ∈ (rawLines content).find? (fun l => looksLike (field isspace 0 l)),
    (field isspace 0 l = armclk ∧ (indented l = true ∨ fieldFrom isspace 4 l = [])) ∨
    ((∀ l' ∈ rawLines content, field isspace 0 l' ≠ armclk) ∧
      (strtol (fieldFrom isspace (if indented l then 4 else 5) l)).tdiv 1000000 = 0)

end Clk
