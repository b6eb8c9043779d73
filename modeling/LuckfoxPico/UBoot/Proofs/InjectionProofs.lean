import LuckfoxPico.Restart.Proofs.AttemptsProofs
import LuckfoxPico.Text.Proofs.TextFileProofs
import LuckfoxPico.UBoot.Configure

/-!
# Proofs: the injection of the adapter reset

The two awk programs are followed record by record. What they print is the file with the blocks
inserted; whether a block is inserted, and where, depends on the anchors alone.
-/

namespace UBoot

open Restart

variable {ls : List Str} {l : Str} {x inRange : Bool}

/-! ## The program for `Kconfig` -/

theorem inserted_awkKconfig (inRange x : Bool) (ls : List Str) :
    Inserted [kconfigEntry] ls (awkKconfig inRange x ls) := by
  induction ls generalizing inRange x with
  | nil => exact .nil
  | cons l ls ih =>
    rw [awkKconfig]
    split
    · exact .keep l (ih _ _)
    · split
      · exact .insert (by simp) (.keep l (ih _ _))
      · exact .keep l (ih _ _)

/-- A line `config ROCKCHIP_CRC` that the range does not swallow, from inside the range or not. -/
def CrcFrom (inRange : Bool) (ls : List Str) : Prop :=
  ∃ before after, ls = before ++ rockchipCrc :: after ∧ (inRange = true → [] ∈ before) ∧
    ∀ p q, before = p ++ embedKernelDtb :: q → [] ∈ q

theorem crcFrom_range (h : inRange = true ∨ l = embedKernelDtb) :
    CrcFrom inRange (l :: ls) ↔ CrcFrom (l ≠ []) ls := by
  have hcrc : embedKernelDtb ≠ rockchipCrc := by decide
  have hembed : embedKernelDtb ≠ [] := by decide
  constructor
  · rintro ⟨before, after, heq, hrange, hclosed⟩
    cases before with
    | nil =>
      obtain ⟨rfl, rfl⟩ := List.cons.inj heq
      rcases h with h | h
      · exact absurd (hrange h) (by simp)
      · exact absurd h.symm hcrc
    | cons b before =>
      obtain ⟨rfl, rfl⟩ := List.cons.inj heq
      refine ⟨before, after, rfl, fun hne => ?_,
        fun p q hpq => hclosed (l :: p) q (by rw [hpq]; rfl)⟩
      have hne' : l ≠ [] := of_decide_eq_true hne
      rcases h with h | rfl
      · exact (List.mem_cons.mp (hrange h)).resolve_left (Ne.symm hne')
      · exact hclosed [] before rfl
  · rintro ⟨before, after, rfl, hrange, hclosed⟩
    refine ⟨l :: before, after, rfl, fun _ => ?_, fun p q hpq => ?_⟩
    · by_cases hl : l = []
      · simp [hl]
      · exact List.mem_cons_of_mem _ (hrange (decide_eq_true hl))
    · cases p with
      | nil =>
        obtain ⟨rfl, rfl⟩ := List.cons.inj hpq
        exact hrange (decide_eq_true hembed)
      | cons d p => exact hclosed p q (List.cons.inj hpq).2

theorem crcFrom_outside (hembed : l ≠ embedKernelDtb) :
    CrcFrom false (l :: ls) ↔ l = rockchipCrc ∨ CrcFrom false ls := by
  constructor
  · rintro ⟨before, after, heq, -, hclosed⟩
    cases before with
    | nil => exact Or.inl (List.cons.inj heq).1
    | cons b before =>
      obtain ⟨rfl, rfl⟩ := List.cons.inj heq
      exact Or.inr ⟨before, after, rfl, by simp,
        fun p q hpq => hclosed (l :: p) q (by rw [hpq]; rfl)⟩
  · rintro (rfl | ⟨before, after, rfl, -, hclosed⟩)
    · exact ⟨[], ls, rfl, by simp, by simp⟩
    · refine ⟨l :: before, after, rfl, by simp, fun p q hpq => ?_⟩
      cases p with
      | nil => exact absurd (List.cons.inj hpq).1 hembed
      | cons d p => exact hclosed p q (List.cons.inj hpq).2

/-- After the first insertion `x` keeps the program from inserting again. -/
theorem count_awkKconfig_true (hls : luckfoxEntry ∉ ls) :
    (awkKconfig inRange true ls).count luckfoxEntry = 0 := by
  induction ls generalizing inRange with
  | nil => rfl
  | cons l ls ih =>
    obtain ⟨hl, hls⟩ := List.ne_and_not_mem_of_not_mem_cons hls
    rw [awkKconfig]
    split
    · rw [List.count_cons_of_ne (Ne.symm hl), ih hls]
    · simp only [Bool.not_true, Bool.and_false, Bool.false_eq_true, if_false]
      rw [List.count_cons_of_ne (Ne.symm hl), ih hls]

theorem count_awkKconfig (hls : luckfoxEntry ∉ ls) :
    (awkKconfig inRange false ls).count luckfoxEntry = 1 ↔ CrcFrom inRange ls := by
  induction ls generalizing inRange with
  | nil =>
    refine iff_of_false (by simp [awkKconfig]) ?_
    rintro ⟨before, after, heq, -⟩
    exact absurd heq (by simp)
  | cons l ls ih =>
    obtain ⟨hl, hls⟩ := List.ne_and_not_mem_of_not_mem_cons hls
    rw [awkKconfig]
    split
    · next hin =>
      rw [crcFrom_range (by simpa using hin), List.count_cons_of_ne (Ne.symm hl), ih hls]
    · next hout =>
      obtain ⟨rfl, hembed⟩ : inRange = false ∧ l ≠ embedKernelDtb := by simpa using hout
      rw [crcFrom_outside hembed]
      by_cases hcrc : l = rockchipCrc
      · have hblock : kconfigEntry.count luckfoxEntry = 1 := by decide
        rw [if_pos (by simp [hcrc]), List.count_append, List.count_cons_of_ne (Ne.symm hl), hblock,
          count_awkKconfig_true hls]
        exact iff_of_true rfl (Or.inl hcrc)
      · rw [if_neg (by simp [hcrc]), List.count_cons_of_ne (Ne.symm hl), ih hls]
        simp [hcrc]

/-! ## The program for `board.c` -/

theorem lateInit_ne_weakInit : lateInit ≠ weakInit := by decide

theorem lateInit_not_mem_definitionBlock : lateInit ∉ definitionBlock := by decide

theorem lateInit_not_mem_callBlock : lateInit ∉ callBlock := by decide

theorem opensBody_lateInit : opensBody lateInit = false := by decide

/-- A line with an opening brace only is not the anchor of a body. -/
theorem ne_lateInit_of_opensBody (h : opensBody l = true) : l ≠ lateInit := by
  rintro rfl
  rw [opensBody_lateInit] at h
  exact absurd h (by simp)

theorem bracesFollow_cons (hl : l ≠ lateInit) : BracesFollow (l :: ls) ↔ BracesFollow ls := by
  unfold BracesFollow
  simp only [cons_suffix_cons_iff (Ne.symm hl)]

theorem bracesFollow_lateInit {l' : Str} :
    BracesFollow (lateInit :: l' :: ls) ↔ opensBody l' = true ∧ BracesFollow ls := by
  constructor
  · intro h
    obtain ⟨l, rest, heq, hopens⟩ := h _ List.suffix_rfl
    obtain ⟨rfl, rfl⟩ := List.cons.inj heq
    refine ⟨hopens, (bracesFollow_cons (ne_lateInit_of_opensBody hopens)).mp ?_⟩
    exact fun after hafter => h after (hafter.trans (List.suffix_cons ..))
  · rintro ⟨hopens, hls⟩ after hafter
    rcases List.suffix_cons_iff.mp hafter with heq | hafter
    · exact ⟨l', ls, (List.cons.inj heq).2, hopens⟩
    · exact (bracesFollow_cons (ne_lateInit_of_opensBody hopens)).mpr hls after hafter

theorem not_bracesFollow_last : ¬ BracesFollow [lateInit] := by
  intro h
  obtain ⟨l, rest, heq, -⟩ := h [] List.suffix_rfl
  exact absurd heq (by simp)

/-- Every body calls the command first exactly if every anchor is followed by its brace: what the
program prints after an anchor is the next record and then the call. -/
theorem bodyCalls_iff (x : Bool) (ls : List Str) :
    (∀ after, lateInit :: after <:+ awkBoard x ls → BodyCalls after) ↔ BracesFollow ls := by
  fun_induction awkBoard x ls with
  | case1 => simp [BracesFollow]
  | case2 x l ls hweak ih =>
    obtain ⟨rfl, -⟩ : l = weakInit ∧ x = false := by simpa using hweak
    rw [bracesFollow_cons (Ne.symm lateInit_ne_weakInit), ← ih]
    simp only [cons_suffix_append_iff lateInit_not_mem_definitionBlock,
      cons_suffix_cons_iff lateInit_ne_weakInit]
  | case3 x hweak =>
    refine iff_of_false (fun h => ?_) not_bracesFollow_last
    -- the anchor printed twice is followed by itself
    obtain ⟨l, rest, heq, hopens⟩ := h _ List.suffix_rfl
    obtain ⟨rfl, -⟩ := List.cons.inj heq
    exact ne_lateInit_of_opensBody hopens rfl
  | case4 x l' ls hweak ih =>
    rw [bracesFollow_lateInit, ← ih]
    constructor
    · intro h
      obtain ⟨l, rest, heq, hopens⟩ := h _ List.suffix_rfl
      obtain ⟨rfl, -⟩ := List.cons.inj heq
      refine ⟨hopens, fun after hafter => h after (hafter.trans ?_)⟩
      exact ⟨lateInit :: l' :: callBlock, by simp⟩
    · rintro ⟨hopens, hls⟩ after hafter
      rcases List.suffix_cons_iff.mp hafter with heq | hafter
      · exact ⟨l', _, (List.cons.inj heq).2, hopens⟩
      · rw [cons_suffix_cons_iff (Ne.symm (ne_lateInit_of_opensBody hopens)),
          cons_suffix_append_iff lateInit_not_mem_callBlock] at hafter
        exact hls after hafter
  | case5 x l ls hweak hlate ih =>
    rw [bracesFollow_cons hlate, ← ih]
    simp only [cons_suffix_cons_iff (Ne.symm hlate)]

theorem inserted_awkBoard (x : Bool) (ls : List Str) (h : BracesFollow ls) :
    Inserted [definitionBlock, callBlock] ls (awkBoard x ls) := by
  fun_induction awkBoard x ls with
  | case1 => exact .nil
  | case2 x l ls hweak ih =>
    obtain ⟨rfl, -⟩ : l = weakInit ∧ x = false := by simpa using hweak
    exact .insert (by simp) (.keep _ (ih ((bracesFollow_cons (Ne.symm lateInit_ne_weakInit)).mp h)))
  | case3 x hweak => exact absurd h not_bracesFollow_last
  | case4 x l' ls hweak ih =>
    exact .keep _ (.keep _ (.insert (by simp) (ih (bracesFollow_lateInit.mp h).2)))
  | case5 x l ls hweak hlate ih => exact .keep _ (ih ((bracesFollow_cons hlate).mp h))

/-- The definition is printed at most once, and not at all once `x` is set. -/
theorem count_awkBoard_le (x : Bool) (ls : List Str) (hls : executeCmdDef ∉ ls) :
    (awkBoard x ls).count executeCmdDef ≤ if x then 0 else 1 := by
  have hdefinition : definitionBlock.count executeCmdDef = 1 := by decide
  have hcall : callBlock.count executeCmdDef = 0 := by decide
  fun_induction awkBoard x ls with
  | case1 => simp
  | case2 x l ls hweak ih =>
    obtain ⟨hl, hls⟩ := List.ne_and_not_mem_of_not_mem_cons hls
    have hx : x = false := by simpa using (Bool.and_eq_true_iff.mp hweak).2
    have hrest : (awkBoard true ls).count executeCmdDef ≤ 0 := ih hls
    rw [List.count_append, List.count_cons_of_ne (Ne.symm hl), hdefinition, hx]
    show 1 + (awkBoard true ls).count executeCmdDef ≤ 1
    omega
  | case3 x hweak =>
    obtain ⟨hl, -⟩ := List.ne_and_not_mem_of_not_mem_cons hls
    rw [List.count_cons_of_ne (Ne.symm hl), List.count_cons_of_ne (Ne.symm hl), hcall]
    exact Nat.zero_le _
  | case4 x l' ls hweak ih =>
    obtain ⟨hl, hls⟩ := List.ne_and_not_mem_of_not_mem_cons hls
    obtain ⟨hl', hls⟩ := List.ne_and_not_mem_of_not_mem_cons hls
    rw [List.count_cons_of_ne (Ne.symm hl), List.count_cons_of_ne (Ne.symm hl'), List.count_append,
      hcall, Nat.zero_add]
    exact ih hls
  | case5 x l ls hweak hlate ih =>
    obtain ⟨hl, hls⟩ := List.ne_and_not_mem_of_not_mem_cons hls
    rw [List.count_cons_of_ne (Ne.symm hl)]
    exact ih hls

theorem awkBoard_weakInit (ls : List Str) :
    awkBoard false (weakInit :: ls) = definitionBlock ++ weakInit :: awkBoard true ls := by
  rw [awkBoard.eq_def]
  simp

theorem awkBoard_lateInit (x : Bool) (l : Str) (ls : List Str) :
    awkBoard x (lateInit :: l :: ls) = lateInit :: l :: (callBlock ++ awkBoard x ls) := by
  rw [awkBoard.eq_def]
  simp [lateInit_ne_weakInit]

theorem awkBoard_other (hlate : l ≠ lateInit) (hweak : x = true ∨ l ≠ weakInit) (ls : List Str) :
    awkBoard x (l :: ls) = l :: awkBoard x ls := by
  have hguard : ¬ (l = weakInit && !x) = true := by
    rcases hweak with rfl | hweak
    · simp
    · simp [hweak]
  rw [awkBoard.eq_def]
  show (if (l = weakInit && !x) = true then _ else _) = _
  rw [if_neg hguard, if_neg hlate]

/-- Records that are no anchors are printed as they are. -/
theorem awkBoard_append {front : List Str} (hlate : lateInit ∉ front)
    (hweak : x = true ∨ weakInit ∉ front) (rest : List Str) :
    awkBoard x (front ++ rest) = front ++ awkBoard x rest := by
  induction front with
  | nil => rfl
  | cons l front ih =>
    obtain ⟨hl, hlate⟩ := List.ne_and_not_mem_of_not_mem_cons hlate
    have hl' : x = true ∨ l ≠ weakInit :=
      hweak.imp_right fun h => Ne.symm (List.ne_of_not_mem_cons h)
    rw [List.cons_append, awkBoard_other (Ne.symm hl) hl',
      ih hlate (hweak.imp_right List.not_mem_of_not_mem_cons), List.cons_append]

/-- In front of the first body the definition is inserted before its anchor. -/
theorem awkBoard_front {front : List Str} (hlate : lateInit ∉ front) (hweak : weakInit ∈ front)
    (rest : List Str) :
    ∃ before mid, front = before ++ weakInit :: mid ∧
      awkBoard false (front ++ rest) =
        before ++ definitionBlock ++ weakInit :: mid ++ awkBoard true rest := by
  obtain ⟨before, mid, rfl, hbefore⟩ := List.eq_append_cons_of_mem hweak
  refine ⟨before, mid, rfl, ?_⟩
  have hlateBefore : lateInit ∉ before := fun h => hlate (by simp [h])
  have hlateMid : lateInit ∉ mid := fun h => hlate (by simp [h])
  rw [List.append_assoc, awkBoard_append hlateBefore (Or.inr hbefore), List.cons_append,
    awkBoard_weakInit, awkBoard_append hlateMid (Or.inl rfl)]
  simp

/-- The definition stands before every call exactly if its anchor stands before the first body. -/
theorem defined_iff (hdef : executeCmdDef ∉ ls) (hcall : executeCmdCall ∉ ls)
    (hbraces : BracesFollow ls) :
    (executeCmdCall ∈ awkBoard false ls ∧
      ∀ before after, awkBoard false ls = before ++ executeCmdCall :: after →
        executeCmdDef ∈ before) ↔ WeakFirst ls := by
  have hdefBlock : executeCmdDef ∈ definitionBlock := by decide
  have hcallBlock : executeCmdCall ∉ definitionBlock := by decide
  have hcallWeak : executeCmdCall ≠ weakInit := by decide
  constructor
  · rintro ⟨hcalled, hdefined⟩
    have hmem : lateInit ∈ ls := by
      by_contra hlate
      by_cases hweak : weakInit ∈ ls
      · obtain ⟨before, mid, rfl, heq⟩ := awkBoard_front hlate hweak []
        rw [List.append_nil, awkBoard, List.append_nil] at heq
        rw [heq] at hcalled
        simp_all
      · have heq := awkBoard_append (x := false) hlate (Or.inr hweak) []
        rw [List.append_nil, awkBoard, List.append_nil] at heq
        exact hcall (heq ▸ hcalled)
    obtain ⟨front, rest, rfl, hfront⟩ := List.eq_append_cons_of_mem hmem
    refine ⟨front, rest, rfl, hfront, ?_⟩
    by_contra hweak
    obtain ⟨l, rest, rfl, -⟩ := hbraces rest (List.suffix_append ..)
    have heq : awkBoard false (front ++ lateInit :: l :: rest) =
        (front ++ [lateInit, l, ifdefLuckfox]) ++
          executeCmdCall :: (endif :: awkBoard false rest) := by
      rw [awkBoard_append hfront (Or.inr hweak), awkBoard_lateInit]
      simp [callBlock]
    have hlate : executeCmdDef ≠ lateInit := by decide
    have hifdef : executeCmdDef ≠ ifdefLuckfox := by decide
    have hbefore := hdefined _ _ heq
    simp only [List.mem_append, List.mem_cons, not_or] at hdef
    simp only [List.mem_append, List.mem_cons, List.not_mem_nil, or_false] at hbefore
    rcases hbefore with h | h | h | h
    · exact hdef.1 h
    · exact hlate h
    · exact hdef.2.2.1 h
    · exact hifdef h
  · rintro ⟨front, rest, rfl, hfront, hweak⟩
    obtain ⟨l, rest, rfl, -⟩ := hbraces rest (List.suffix_append ..)
    obtain ⟨before, mid, rfl, heq⟩ := awkBoard_front hfront hweak (lateInit :: l :: rest)
    rw [heq, awkBoard_lateInit]
    refine ⟨by simp [callBlock], fun before' after hsplit => ?_⟩
    have hnot : executeCmdCall ∉ before ++ definitionBlock ++ weakInit :: mid := by
      simp_all
    have hprefix := prefix_of_append_eq hsplit hnot
    exact hprefix.subset (by simp [hdefBlock])

/-! ## The task -/

/-- A guarded awk edit that completes. -/
theorem mvNew_awkToNew {mark : Pat} {prog : List Str → List Str} {s : Slot}
    (h : s.content.grep mark = false) :
    mvNew mark (awkToNew mark prog s) = ⟨s.content.awk prog, none⟩ := by
  have hawk : awkToNew mark prog s = { s with new := some (s.content.awk prog) } := by
    rw [awkToNew, h]
    rfl
  rw [hawk, mvNew]
  show (if s.content.grep mark = true then _ else _) = _
  rw [h]
  rfl

namespace Fresh

variable (s : Fresh)

theorem configured_kconfig : (configured s.sources .kconfig).lines =
    awkKconfig false false (s.sources .kconfig).content.lines := by
  rw [configured, run_apply]
  show (mvNew _ (awkToNew _ _ _)).content.lines = _
  rw [mvNew_awkToNew s.kconfig]
  rfl

theorem configured_boardC : (configured s.sources .boardC).lines =
    awkBoard false (s.sources .boardC).content.lines := by
  rw [configured, run_apply]
  show (mvNew _ (awkToNew _ _ _)).content.lines = _
  rw [mvNew_awkToNew s.board]
  rfl

/-- A line that mentions the feature is not among the lines of the file. -/
theorem not_mem_kconfig : luckfoxEntry ∉ (s.sources .kconfig).content.lines := by
  intro h
  have hnot := TextFile.grep_eq_false_iff.mp s.kconfig _ h
  have hoccurs : kconfigMark.occurs luckfoxEntry = true := by decide
  rw [hoccurs] at hnot
  exact absurd hnot (by simp)

theorem not_mem_boardC (hl : boardMark.occurs l = true) :
    l ∉ (s.sources .boardC).content.lines := by
  intro h
  have hnot := TextFile.grep_eq_false_iff.mp s.board _ h
  rw [hl] at hnot
  exact absurd hnot (by simp)

end Fresh

/-- The edits inject the reset as a whole exactly if the anchors stand where the programs want
them. -/
theorem injected_iff (s : Fresh) :
    Injected (s.sources .kconfig).content.lines (s.sources .boardC).content.lines
        (configured s.sources .kconfig).lines (configured s.sources .boardC).lines ↔
      CrcOutside (s.sources .kconfig).content.lines ∧
        BracesFollow (s.sources .boardC).content.lines ∧
        WeakFirst (s.sources .boardC).content.lines := by
  rw [s.configured_kconfig, s.configured_boardC]
  have hdef := s.not_mem_boardC (l := executeCmdDef) (by decide)
  have hcall := s.not_mem_boardC (l := executeCmdCall) (by decide)
  have hcrc : CrcFrom false (s.sources .kconfig).content.lines ↔
      CrcOutside (s.sources .kconfig).content.lines := by
    simp [CrcFrom, CrcOutside]
  constructor
  · intro h
    have hbraces := (bodyCalls_iff _ _).mp h.first
    exact ⟨hcrc.mp ((count_awkKconfig s.not_mem_kconfig).mp h.symbol), hbraces,
      (defined_iff hdef hcall hbraces).mp ⟨h.called, h.defined⟩⟩
  · rintro ⟨hkconfig, hbraces, hweak⟩
    obtain ⟨hcalled, hdefined⟩ := (defined_iff hdef hcall hbraces).mpr hweak
    refine ⟨(count_awkKconfig s.not_mem_kconfig).mpr (hcrc.mpr hkconfig), ?_, hcalled, hdefined,
      (bodyCalls_iff _ _).mpr hbraces, inserted_awkKconfig .., inserted_awkBoard _ _ hbraces⟩
    -- the definition stands before the call, and it is printed only once
    obtain ⟨before, after, hsplit⟩ := List.append_of_mem hcalled
    have hmem : executeCmdDef ∈ awkBoard false (s.sources .boardC).content.lines := by
      rw [hsplit]
      exact List.mem_append_left _ (hdefined _ _ hsplit)
    have hle := count_awkBoard_le false _ hdef
    have hpos := List.count_pos_iff.mpr hmem
    simp only [Bool.false_eq_true, if_false] at hle
    omega

/-- Sources whose `board.c` lacks the weak function that the definition is put in front of. -/
def noWeakAnchor : Fresh where
  sources
    | .kconfig => ⟨⟨[rockchipCrc], true⟩, none⟩
    | .boardC => ⟨⟨[lateInit, "\x7b".toList, "\treturn 0;".toList, "\x7d".toList], true⟩, none⟩
    | _ => ⟨⟨[], true⟩, none⟩
  kconfig := by decide
  board := by decide

/-- Without that function the call is injected and the definition is not. -/
theorem not_injected_noWeakAnchor :
    ¬ ∀ s : Fresh, Injected (s.sources .kconfig).content.lines (s.sources .boardC).content.lines
      (configured s.sources .kconfig).lines (configured s.sources .boardC).lines := by
  intro h
  have hdefinition := (h noWeakAnchor).definition
  exact absurd hdefinition (by decide)

end UBoot
