import LuckfoxPico.Restart.Attempts
import LuckfoxPico.Text.TextFile

/-!
# The source edits of `do_configure` (U-Boot recipe)

`do_configure` edits five files of the U-Boot tree before it runs make. Two awk programs inject the
reset of the panel adapter into `Kconfig` and `board.c`, the other edits are sed commands. The copy
of `rv1106-luckfox-display.dtsi` writes a file that no edit reads.
-/

namespace UBoot

/-! ## The awk program for `Kconfig` -/

def embedKernelDtb : Str := "config EMBED_KERNEL_DTB_ALWAYS".toList

def rockchipCrc : Str := "config ROCKCHIP_CRC".toList

def luckfoxEntry : Str := "config LUCKFOX_EXECUTE_CMD".toList

/-- The lines that the second rule prints. -/
def kconfigEntry : List Str :=
  [luckfoxEntry, "\tbool \"Luckfox Pico RGB adapter MCU reset\"".toList, "\tdefault n".toList, []]

/-- The program after some records: whether it is inside the range of the first rule, the variable
`x`, and the records still to come. -/
def awkKconfig (inRange x : Bool) : List Str → List Str
  | [] => []
  | l :: ls =>
    if inRange || l = embedKernelDtb then l :: awkKconfig (l ≠ []) x ls
    else if l = rockchipCrc && !x then kconfigEntry ++ l :: awkKconfig false true ls
    else l :: awkKconfig false x ls

/-! ## The awk program for `board.c` -/

def weakInit : Str := "__weak int rk_board_late_init(void)".toList

def lateInit : Str := "int board_late_init(void)".toList

def ifdefLuckfox : Str := "#ifdef CONFIG_LUCKFOX_EXECUTE_CMD".toList

def executeCmdDef : Str := "static int luckfox_execute_cmd(void)".toList

def executeCmdCall : Str := "\tluckfox_execute_cmd();".toList

def endif : Str := "#endif".toList

/-- The lines that the first rule prints. -/
def definitionBlock : List Str :=
  [ifdefLuckfox, executeCmdDef, "\x7b".toList,
    "\t/* Luckfox Pico RGB adapter MCU reset/enable */".toList,
    "\trun_command(\"gpio set 1 1\", 0);".toList, "\treturn 0;".toList, "\x7d".toList, endif, []]

/-- The lines that the second rule prints after the two records. -/
def callBlock : List Str := [ifdefLuckfox, executeCmdCall, endif]

/-- The program after some records, with the variable `x`. `getline` takes the next record whatever
it is; at the end of the file it leaves the current one in place, which is then printed again. -/
def awkBoard (x : Bool) : List Str → List Str
  | [] => []
  | l :: ls =>
    if l = weakInit && !x then definitionBlock ++ l :: awkBoard true ls
    else if l = lateInit then
      match ls with
      | [] => l :: l :: callBlock
      | l' :: ls' => l :: l' :: (callBlock ++ awkBoard x ls')
    else l :: awkBoard x ls

/-! ## The edits -/

/-- The files that `do_configure` edits. -/
inductive Source
  | kconfig
  | boardC
  | evbDts
  | fitArgs
  | fitNodes
deriving DecidableEq, Repr

/-- A file and the `.new` file next to it. -/
structure Slot where
  content : TextFile
  new : Option TextFile
deriving DecidableEq, Repr

/-- `if ! grep -q mark FILE; then awk prog FILE > FILE.new`. -/
def awkToNew (mark : Pat) (prog : List Str → List Str) (s : Slot) : Slot :=
  if s.content.grep mark then s else { s with new := some (s.content.awk prog) }

/-- `&& mv FILE.new FILE; fi`. The guard is the one from before awk, which has not changed the
file. -/
def mvNew (mark : Pat) (s : Slot) : Slot :=
  if s.content.grep mark then s
  else match s.new with
    | some f => ⟨f, none⟩
    | none => s

/-- `sed -i`. -/
def inPlace (edit : TextFile → TextFile) (s : Slot) : Slot := { s with content := edit s.content }

/-- `if ! grep -q mark FILE; then sed -i '/addr/a text' FILE; fi`. -/
def guardedAppend (mark addr : Pat) (text : Str) (f : TextFile) : TextFile :=
  if f.grep mark then f else f.sedAppend addr.occurs text

def kconfigMark : Pat := .regex "LUCKFOX_EXECUTE_CMD".toList

def boardMark : Pat := .regex "luckfox_execute_cmd".toList

def displayMark : Pat := .regex "rv1106-luckfox-display.dtsi".toList

def displayAnchor : Pat := .regex "#include \"rv1106-u-boot.dtsi\"".toList

def displayInclude : Str := "#include \"rv1106-luckfox-display.dtsi\"".toList

def teeOffset : Pat := .regex "TEE_OFFSET=0x08400000".toList

def teeOffsetNew : Str := "TEE_OFFSET=0x03d00000".toList

def loadMark : Pat := .regex "load = <0x08000000>".toList

def loadAnchor : Pat := .regex "u-boot.dtb".toList

def loadLine : Str := "            load = <0x08000000>;".toList

def ubootImage : Pat := .regex "UBOOT=\"u-boot-nodtb.bin\"".toList

def ubootImageNew : Str := "UBOOT=\"u-boot-dtb.bin\"".toList

/-- The edits of `do_configure`, in their order. -/
def doConfigure : List (Restart.Edit Source Slot) :=
  [⟨.kconfig, awkToNew kconfigMark (awkKconfig false false)⟩,
    ⟨.kconfig, mvNew kconfigMark⟩,
    ⟨.boardC, awkToNew boardMark (awkBoard false)⟩,
    ⟨.boardC, mvNew boardMark⟩,
    ⟨.evbDts, inPlace (guardedAppend displayMark displayAnchor displayInclude)⟩,
    ⟨.fitArgs, inPlace (.sedReplace teeOffset teeOffsetNew)⟩,
    ⟨.fitNodes, inPlace (guardedAppend loadMark loadAnchor loadLine)⟩,
    ⟨.fitNodes, inPlace (.sedReplace ubootImage ubootImageNew)⟩]

/-- The state of the tree: each file and what stands next to it. -/
abbrev Sources := Source → Slot

/-- The content of a file after a complete execution of the edits. -/
def configured (t : Sources) (f : Source) : TextFile := (Restart.run doConfigure t f).content

/-! ## The injection of the adapter reset -/

/-- The text behind the comment that is open. -/
def afterComment : Str → Option Str
  | '*' :: '/' :: s => some s
  | _ :: s => afterComment s
  | [] => none

/-- Skip blanks and comments, as long as the line lasts. -/
def skipBlank : (fuel : Nat) → Str → Str
  | 0, s => s
  | _, [] => []
  | fuel + 1, c :: s =>
    if Str.isspace c then skipBlank fuel s
    else if ['/', '*'].isPrefixOf (c :: s) then
      match afterComment (s.drop 1) with
      | some s' => skipBlank fuel s'
      | none => c :: s
    else if ['/', '/'].isPrefixOf (c :: s) && s.getLast? ≠ some '\\' then []
    else c :: s

/-- The only token of the line is an opening brace. -/
def opensBody (l : Str) : Bool :=
  match skipBlank l.length l with
  | '{' :: rest => skipBlank rest.length rest = []
  | _ => false

/-- The lines behind `int board_late_init(void)` open a body whose first statement is the call. -/
def BodyCalls (after : List Str) : Prop :=
  ∃ l rest, after = l :: (callBlock ++ rest) ∧ opensBody l = true

/-- The reset is injected as a whole: one symbol, one definition, a call in each
`int board_late_init(void)`, the definition before the calls, and no original line lost. All this is
said of lines of text, as awk sees them: what the preprocessor or a comment makes of them is left
out. -/
structure Injected (kconfig board kconfig' board' : List Str) : Prop where
  symbol : kconfig'.count luckfoxEntry = 1
  definition : board'.count executeCmdDef = 1
  called : executeCmdCall ∈ board'
  defined : ∀ before after, board' = before ++ executeCmdCall :: after → executeCmdDef ∈ before
  first : ∀ after, lateInit :: after <:+ board' → BodyCalls after
  kconfigKept : Inserted [kconfigEntry] kconfig kconfig'
  boardKept : Inserted [definitionBlock, callBlock] board board'

/-- Sources that do not mention the feature yet. -/
structure Fresh where
  sources : Sources
  kconfig : (sources .kconfig).content.grep kconfigMark = false
  board : (sources .boardC).content.grep boardMark = false

/-- `config ROCKCHIP_CRC` stands outside of the entry `EMBED_KERNEL_DTB_ALWAYS`, which an empty line
ends. -/
def CrcOutside (kconfig : List Str) : Prop :=
  ∃ before after, kconfig = before ++ rockchipCrc :: after ∧
    ∀ p q, before = p ++ embedKernelDtb :: q → [] ∈ q

/-- Every line `int board_late_init(void)` is followed by a line whose text is its opening brace
only. -/
def BracesFollow (board : List Str) : Prop :=
  ∀ after, lateInit :: after <:+ board → ∃ l rest, after = l :: rest ∧ opensBody l = true

/-- The weak `rk_board_late_init` stands before the first `int board_late_init(void)`. -/
def WeakFirst (board : List Str) : Prop :=
  ∃ before after, board = before ++ lateInit :: after ∧ lateInit ∉ before ∧ weakInit ∈ before

/-! ## Running the edits again -/

/-- After attempts that are stopped anywhere, a complete execution gives the five files that one
execution gives from the start. -/
def Rerunnable (t : Sources) : Prop := Restart.Restartable Slot.content doConfigure t

/-- No line is left with a second match of a substitution, and a match of the image name comes with
a line that the load address is appended to, or with the load address itself. -/
structure EditsOnce (t : Sources) : Prop where
  tee : ∀ l ∈ (t .fitArgs).content.lines, ¬ teeOffset.Twice l
  uboot : ∀ l ∈ (t .fitNodes).content.lines, ¬ ubootImage.Twice l
  load : (t .fitNodes).content.grep loadMark = true ∨ (t .fitNodes).content.grep loadAnchor = true ∨
    (t .fitNodes).content.grep ubootImage = false

end UBoot
