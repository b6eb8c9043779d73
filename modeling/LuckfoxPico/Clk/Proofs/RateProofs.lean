import LuckfoxPico.Clk.Rate
import LuckfoxPico.Scan.FirstMatch
import LuckfoxPico.Text.Fields

/-!
# Proofs: the two readers of the CPU clock rate

Both programs scan the same lines. The demo accepts a line whose first field looks like `armclk`,
the page one whose first field is `armclk`, so the demo never leaves its loop later. Where both stop
at the same line, the demo is one field further on unless the line is indented.
-/

namespace Clk

open Str Fields Scan

variable {s t line : Str}

/-- The clock's name is one field. -/
theorem isspace_armclk : ∀ c ∈ armclk, isspace c = false := by
  have hall : armclk.all (fun c => !isspace c) = true := by decide
  simpa using hall

theorem looksLike_armclk : looksLike armclk = true := by decide

theorem looksLike_of_eq {w : Str} (hw : w = armclk) : looksLike w = true := by
  rw [hw, looksLike_armclk]

theorem armclk_append_getD (s : Str) : (armclk ++ s).getD 6 '\x00' = s.getD 0 '\x00' := by
  have hlen : armclk.length = 6 := by decide
  rw [List.getD_eq_getElem?_getD, List.getElem?_append_right hlen.le, hlen,
    ← List.getD_eq_getElem?_getD]

/-- Whether the first field looks like `armclk` shows at the field's start. -/
theorem looksLike_takeWhile (s : Str) :
    looksLike (s.takeWhile fun c => !isspace c) =
      (armclk.isPrefixOf s && !isalnum (s.getD 6 '\x00')) := by
  rw [looksLike]
  cases hs : armclk.isPrefixOf s with
  | false =>
    have hnot : ¬ armclk <+: s := by simpa [← List.isPrefixOf_iff_prefix] using hs
    have hfield : armclk.isPrefixOf (s.takeWhile fun c => !isspace c) = false := by
      rw [← Bool.not_eq_true, List.isPrefixOf_iff_prefix, isPrefix_takeWhile_iff isspace_armclk]
      exact hnot
    rw [hfield, Bool.false_and, Bool.false_and]
  | true =>
    obtain ⟨t, rfl⟩ := List.isPrefixOf_iff_prefix.mp hs
    have hfield : armclk.isPrefixOf (armclk ++ t.takeWhile fun c => !isspace c) = true :=
      List.isPrefixOf_iff_prefix.mpr (List.prefix_append ..)
    rw [takeWhile_append_of_forall isspace_armclk, hfield, armclk_append_getD, armclk_append_getD]
    cases t with
    | nil => rfl
    | cons c cs =>
      cases hc : isspace c with
      | false => simp [hc]
      | true =>
        have halnum : isalnum c = false := by
          simp only [isspace, List.mem_cons, List.not_mem_nil, or_false, decide_eq_true_eq] at hc
          rcases hc with rfl | rfl | rfl | rfl | rfl | rfl <;> decide
        have hnul : isalnum '\x00' = false := by decide
        simp [hc, halnum, hnul]

theorem strstr_eq_self_iff {needle : Str} : strstr s needle = some s ↔ needle <+: s := by
  cases s with
  | nil => simp [strstr, List.isPrefixOf_iff_prefix]
  | cons c cs =>
    rw [strstr, List.tails, List.find?_cons]
    split
    · next h => exact iff_of_true rfl (List.isPrefixOf_iff_prefix.mp h)
    · next h =>
      refine iff_of_false (fun hfind => ?_) fun hprefix => ?_
      · have hmem := (List.mem_tails _ _).mp (List.mem_of_find?_eq_some hfind)
        exact absurd hmem.length_le (by simp)
      · rw [List.isPrefixOf_iff_prefix.mpr hprefix] at h
        exact absurd h (by simp)

theorem drop_strspnBlank (line : Str) :
    line.drop (strspnBlank line) = line.dropWhile (· = ' ') := by
  induction line with
  | nil => rfl
  | cons c cs ih =>
    by_cases hc : c = ' '
    · simpa [strspnBlank, hc] using ih
    · simp [strspnBlank, hc]

/-- The place of the rate depends on the blank before the clock's name. -/
theorem ratePointer_eq (line : Str) :
    ratePointer line = fieldFrom isspace (if indented line then 4 else 5) line := by
  rw [ratePointer, ← Function.iterate_succ_apply' (skipField isspace)]
  exact iterate_skipField 4

namespace Summary

variable (s : Summary)

theorem getsAll_eq : getsAll 256 s.content.length s.content = rawLines s.content :=
  getsAll_eq_rawLines le_rfl fun l hl => Nat.lt_succ_of_le (s.short l hl)

/-- On the lines of a clock tree, awk and the demo separate fields alike. -/
theorem isspace_eq_awkBlank (hline : line ∈ rawLines s.content) :
    ∀ c ∈ line, awkBlank c = isspace c := by
  intro c hc
  cases hspace : isspace c with
  | true =>
    rcases s.spaced c ((rawLines_mem hline).1 c hc) hspace with rfl | rfl <;> decide
  | false =>
    rw [← Bool.not_eq_true] at hspace ⊢
    intro hblank
    refine hspace ?_
    simp only [awkBlank, List.mem_cons, List.not_mem_nil, or_false, decide_eq_true_eq] at hblank
    rcases hblank with rfl | rfl | rfl <;> decide

/-- The spaces at the start of a line are all of its leading blank, unless the line is blank. -/
theorem dropWhile_eq (hline : line ∈ rawLines s.content) :
    line.dropWhile (· = ' ') = line.dropWhile isspace ∨
      line.dropWhile (· = ' ') = ['\n'] ∧ line.dropWhile isspace = [] := by
  obtain ⟨hmem, hnewline, -⟩ := rawLines_mem hline
  have hspaced : ∀ c ∈ line, isspace c = true → c = ' ' ∨ c = '\n' :=
    fun c hc => s.spaced c (hmem c hc)
  clear hline hmem
  induction line with
  | nil => exact Or.inl rfl
  | cons c cs ih =>
    have hlast : '\n' ∉ cs.dropLast := by
      cases cs with
      | nil => simp
      | cons d ds => exact fun h => hnewline (List.mem_cons_of_mem _ h)
    have hcs := ih hlast fun d hd => hspaced d (List.mem_cons_of_mem _ hd)
    by_cases hc : c = ' '
    · have hspace : isspace ' ' = true := by decide
      simpa [hc, hspace] using hcs
    · cases hspace : isspace c with
      | false => exact Or.inl (by simp [hc, hspace])
      | true =>
        have hc' : c = '\n' := (hspaced c (List.mem_cons_self ..) hspace).resolve_left hc
        subst hc'
        cases cs with
        | nil => exact Or.inr (by simp [hspace])
        | cons d ds => exact absurd (by simp) hnewline

theorem demoMatches_eq (hline : line ∈ rawLines s.content) :
    demoMatches line = looksLike (field isspace 0 line) := by
  have hafter : (armclk.isPrefixOf (line.drop (strspnBlank line)) &&
      !isalnum (line.getD (strspnBlank line + 6) '\x00')) = looksLike (field isspace 0 line) := by
    have hgetD : line.getD (strspnBlank line + 6) '\x00' =
        (line.drop (strspnBlank line)).getD 6 '\x00' := by
      simp [List.getD_eq_getElem?_getD, List.getElem?_drop]
    have hfield : looksLike (field isspace 0 line) =
        (armclk.isPrefixOf (line.dropWhile isspace) &&
          !isalnum ((line.dropWhile isspace).getD 6 '\x00')) :=
      looksLike_takeWhile (line.dropWhile isspace)
    rw [hgetD, drop_strspnBlank, hfield]
    rcases s.dropWhile_eq hline with heq | ⟨hblank, hnil⟩
    · rw [heq]
    · rw [hblank, hnil]
      decide
  rw [demoMatches, hafter, Bool.or_eq_right_iff_imp]
  intro hstart
  obtain ⟨t, rfl⟩ := strstr_eq_self_iff.mp (of_decide_eq_true hstart)
  have hdrop : (armclk ++ [' '] ++ t).dropWhile isspace = armclk ++ [' '] ++ t := by
    have ha : isspace 'a' = false := by decide
    simp [armclk, ha]
  have hprefix : armclk.isPrefixOf (armclk ++ [' '] ++ t) = true :=
    List.isPrefixOf_iff_prefix.mpr ⟨' ' :: t, by simp⟩
  have hnext : isalnum ((armclk ++ [' '] ++ t).getD 6 '\x00') = false := by
    rw [List.append_assoc, armclk_append_getD]
    exact (by decide : isalnum ' ' = false)
  rw [field, fieldFrom, Function.iterate_zero_apply, hdrop, looksLike_takeWhile, hprefix, hnext]
  rfl

/-- The two scans in the same terms: the page wants the whole name, the demo a field like it. -/
theorem awkRow_eq : awkRow s.content =
    (firstRow (fun l => field isspace 0 l = armclk) (rawLines s.content)).map
      fun (line, n) => (n, fieldFrom isspace 4 line) := by
  rw [awkRow, firstRow_congr (q := fun l => field isspace 0 l = armclk) fun l hl => by
    rw [awkMatches, field_congr (s.isspace_eq_awkBlank hl)]]
  refine Option.map_congr fun ⟨l, n⟩ hfound => ?_
  have hl : l ∈ rawLines s.content := List.fst_mem_of_mem_zipIdx (List.mem_of_find?_eq_some hfound)
  show (n, fieldFrom awkBlank 4 l) = (n, fieldFrom isspace 4 l)
  rw [(fieldFrom_congr (s.isspace_eq_awkBlank hl) 4).1]

theorem demoRow_eq : demoRow s.content =
    (firstRow (fun l => looksLike (field isspace 0 l)) (rawLines s.content)).map
      fun (line, n) => (n, ratePointer line) := by
  rw [demoRow, s.getsAll_eq, firstRow_congr fun l hl => s.demoMatches_eq hl]

/-- If no line looks like the clock's, neither program finds a row. -/
theorem sameRate_of_none
    (hnone : ∀ l ∈ rawLines s.content, ¬ looksLike (field isspace 0 l) = true) :
    SameRate s.content := by
  have hdemo : demoRow s.content = none := by
    rw [s.demoRow_eq, firstRow_eq_none_iff.mpr hnone]
    rfl
  have hawk : awkRow s.content = none := by
    rw [s.awkRow_eq, firstRow_eq_none_iff.mpr fun l hl h =>
      hnone l hl (looksLike_of_eq (of_decide_eq_true h))]
    rfl
  rw [SameRate, hawk]
  show mhz s.content = 0
  rw [mhz, hdemo]

section

variable {before after : List Str} {l : Str} (hsplit : rawLines s.content = before ++ l :: after)
  (hbefore : ∀ b ∈ before, ¬ looksLike (field isspace 0 b) = true)
  (hlook : looksLike (field isspace 0 l) = true)

include hsplit hbefore

include hlook in
/-- The demo stops at the first line that looks like the clock's. -/
theorem demoRow_of_split : demoRow s.content = some (before.length, ratePointer l) := by
  rw [s.demoRow_eq, hsplit, firstRow_append hbefore hlook]
  rfl

/-- Where both stop at the same line, the place of the field decides. -/
theorem sameRate_iff_of_armclk (harm : field isspace 0 l = armclk) :
    SameRate s.content ↔ indented l = true ∨ fieldFrom isspace 4 l = [] := by
  have hdemo := s.demoRow_of_split hsplit hbefore (looksLike_of_eq harm)
  have hawk : awkRow s.content = some (before.length, fieldFrom isspace 4 l) := by
    rw [s.awkRow_eq, hsplit, firstRow_append
      (fun b hb h => hbefore b hb (looksLike_of_eq (of_decide_eq_true h))) (decide_eq_true harm)]
    rfl
  have hsame : SameRate s.content ↔ ratePointer l = fieldFrom isspace 4 l := by
    simp [SameRate, hawk, hdemo]
  rw [hsame, ratePointer_eq]
  cases hindented : indented l with
  | true => simp
  | false =>
    rw [if_neg Bool.false_ne_true, eq_comm, fieldFrom_succ_eq_iff]
    simp

include hlook in
/-- Where the demo stops at another name, the page stops at a later line or nowhere. -/
theorem sameRate_iff_of_ne (harm : field isspace 0 l ≠ armclk) :
    SameRate s.content ↔
      (∀ l' ∈ rawLines s.content, field isspace 0 l' ≠ armclk) ∧
        (strtol (ratePointer l)).tdiv 1000000 = 0 := by
  have hdemo := s.demoRow_of_split hsplit hbefore hlook
  cases hrow : firstRow (fun l => decide (field isspace 0 l = armclk)) (rawLines s.content) with
  | none =>
    have hnone : ∀ l' ∈ rawLines s.content, field isspace 0 l' ≠ armclk := by
      simpa using firstRow_eq_none_iff.mp hrow
    have hsame : SameRate s.content ↔ mhz s.content = 0 := by
      rw [SameRate, s.awkRow_eq, hrow]
      exact Iff.rfl
    rw [hsame, mhz, hdemo]
    exact ⟨fun h => ⟨hnone, h⟩, fun h => h.2⟩
  | some found =>
    obtain ⟨l', n⟩ := found
    obtain ⟨hl', harm'⟩ := firstRow_some hrow
    have hexists : ¬ ∀ l' ∈ rawLines s.content, field isspace 0 l' ≠ armclk :=
      fun h => h l' hl' (of_decide_eq_true harm')
    have hlt : before.length < n := by
      rw [hsplit] at hrow
      exact firstRow_append_lt
        (fun b hb h => hbefore b hb (looksLike_of_eq (of_decide_eq_true h)))
        (by simpa using harm) hrow
    have hsame : ¬ SameRate s.content := by
      rw [SameRate, s.awkRow_eq, hrow, hdemo]
      simp only [Option.map_some, Option.some.injEq, Prod.mk.injEq, not_and]
      exact fun h => absurd h (by omega)
    exact iff_of_false hsame fun h => hexists h.1

end

end Summary

/-- The demo reads the rate that the page reads exactly for the clear clock trees. -/
theorem sameRate_iff (s : Summary) : SameRate s.content ↔ Clear s.content := by
  cases hfind : (rawLines s.content).find? fun l => looksLike (field isspace 0 l) with
  | none =>
    refine iff_of_true (s.sameRate_of_none (List.find?_eq_none.mp hfind)) ?_
    intro l hl
    rw [hfind] at hl
    exact absurd hl (by simp)
  | some l =>
    obtain ⟨hlook, before, after, hsplit, hbefore⟩ := List.find?_eq_some_iff_append.mp hfind
    have hbefore' : ∀ b ∈ before, ¬ looksLike (field isspace 0 b) = true := by
      simpa using hbefore
    have hclear : Clear s.content ↔
        (field isspace 0 l = armclk ∧ (indented l = true ∨ fieldFrom isspace 4 l = [])) ∨
        ((∀ l' ∈ rawLines s.content, field isspace 0 l' ≠ armclk) ∧
          (strtol (ratePointer l)).tdiv 1000000 = 0) := by
      simp only [Clear, hfind, Option.mem_some_iff, forall_eq', ratePointer_eq]
    rw [hclear]
    by_cases harm : field isspace 0 l = armclk
    · have hexists : ¬ ∀ l' ∈ rawLines s.content, field isspace 0 l' ≠ armclk :=
        fun h => h l (by simp [hsplit]) harm
      rw [s.sameRate_iff_of_armclk hsplit hbefore' harm]
      simp [harm, hexists]
    · rw [s.sameRate_iff_of_ne hsplit hbefore' hlook harm]
      simp [harm]

/-- At a line that is not indented the demo reads the sixth field. -/
theorem not_sameRate_unindented : ¬ ∀ s : Summary, SameRate s.content := by
  intro h
  have hspaced : "armclk 1 1 0 1104000000 0\n".toList.all
      (fun c => !isspace c || c = ' ' || c = '\n') = true := by decide
  have hsame : SameRate "armclk 1 1 0 1104000000 0\n".toList := by
    refine h ⟨_, by decide, fun c hc hspace => ?_, by decide⟩
    simpa [hspace] using List.all_eq_true.mp hspaced c hc
  exact absurd hsame (by decide)

end Clk
