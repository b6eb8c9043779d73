import Mathlib.Data.Char
import Mathlib.Data.List.Lex
import LuckfoxPico.Scan.FirstMatch
import LuckfoxPico.Text.Str

/-!
# The two scans for the touch controller

`find_touch_device` of the LVGL demo (`main.c`) and the `TOUCH_DEV` loop of the status page
(`status.cgi`) both look at `/sys/class/input/event*/device/name`. The files are a function from
paths to contents; a path that does not exist or cannot be read has none.
-/

namespace Touch

open Scan Str

/-- The names of the input class that are event devices. -/
def isEvent (d : Str) : Bool := "event".toList.isPrefixOf d

/-- The directory of the input class. -/
def inputClassDir : Str := "/sys/class/input/".toList

/-- The file with the device name, below the directory of a device. -/
def deviceName : Str := "/device/name".toList

/-- The directory of the device nodes. -/
def devInputDir : Str := "/dev/input/".toList

/-- The file with the device name of an event device. -/
def namePath (d : Str) : Str := inputClassDir ++ d ++ deviceName

/-- The device node of an event device. -/
def nodePath (d : Str) : Str := devInputDir ++ d

/-- One of the marks occurs in the text. -/
def mentions (marks : List Str) (s : Str) : Bool := marks.any fun m => decide (m <:+: s)

/-! ## The status page -/

/-- The patterns of the `case` in `status.cgi`. -/
def statusMarks : List Str :=
  ["Goodix".toList, "goodix".toList, "GT911".toList, "gt911".toList]

/-- The body of the loop of `status.cgi` ends in `break`. -/
def statusAccepts (read : Str → Option Str) (d : Str) : Bool :=
  isEvent d && match read (namePath d) with
  | none => false
  | some content => mentions statusMarks (substitution content)

/-- `TOUCH_DEV`, if it is not empty: the shell expands the glob in sorted order. -/
def touchDev (read : Str → Option Str) (listing : List Str) : Option Str :=
  firstSorted namePath (statusAccepts read) listing

/-! ## The LVGL demo -/

/-- The arguments of `strstr` in `find_touch_device`. -/
def demoMarks : List Str := ["Goodix".toList, "gt911".toList, "GT911".toList]

/-- The body of the loop of `find_touch_device` returns. -/
def demoAccepts (read : Str → Option Str) (d : Str) : Bool :=
  isEvent d && match read (snprintf 128 (namePath d)) with
  | none => false
  | some content => mentions demoMarks (fgets 64 content).1

/-- The path that the loop of `find_touch_device` returns, if it does. -/
def findMatch (read : Str → Option Str) (listing : List Str) : Option Str :=
  (firstListed (demoAccepts read) listing).map fun d => snprintf 64 (nodePath d)

/-- The path that `find_touch_device` falls back to. -/
def defaultTouch : Str := "/dev/input/event0".toList

/-- `find_touch_device`; the directory is what `opendir` and `readdir` give. -/
def findTouchDevice (read : Str → Option Str) (dir : Option (List Str)) : Str :=
  match dir with
  | none => defaultTouch
  | some listing => (findMatch read listing).getD defaultTouch

/-! ## The input class -/

/-- The state of `/sys/class/input`. The kernel names an event device `event` and a decimal `int`,
and prints its name as one line; the names are shorter than 63 bytes. -/
structure InputClass where
  listing : List Str
  read : Str → Option Str
  short : ∀ d ∈ listing, isEvent d = true → d.length ≤ 15
  oneLine : ∀ d ∈ listing, ∀ content, read (namePath d) = some content →
    ∃ name, content = name ++ ['\n'] ∧ '\n' ∉ name ∧ name.length < 63

/-- The event device has a readable name with one of the marks. -/
def InputClass.Carries (s : InputClass) (marks : List Str) (d : Str) : Prop :=
  isEvent d = true ∧
    ∃ name, s.read (namePath d) = some (name ++ ['\n']) ∧ ∃ m ∈ marks, m <:+: name

/-- For the order `listing` of the directory, the demo and the status page select the same device:
the demo returns the node of the device that the page reports, and it falls back only when the page
reports none. -/
def SameDevice (read : Str → Option Str) (listing : List Str) : Prop :=
  (∀ d, touchDev read listing = some d → findTouchDevice read (some listing) = nodePath d) ∧
  (findMatch read listing = none → touchDev read listing = none)

/-- At most one device carries a mark of the demo, and the first device in sorted order that carries
a mark of the status page carries one of the demo's. -/
def InputClass.Unambiguous (s : InputClass) : Prop :=
  (∀ d ∈ s.listing, ∀ e ∈ s.listing, s.Carries demoMarks d → s.Carries demoMarks e → d = e) ∧
  (∀ d ∈ s.listing, s.Carries statusMarks d →
    (∀ e ∈ s.listing, s.Carries statusMarks e → namePath d ≤ namePath e) → s.Carries demoMarks d)

end Touch
