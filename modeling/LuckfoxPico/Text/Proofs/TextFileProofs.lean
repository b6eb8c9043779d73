import LuckfoxPico.Text.TextFile
import LuckfoxPico.Text.Proofs.PatternProofs

/-!
# Proofs: text files and the tools that edit them
-/

namespace TextFile

variable {p : Pat} {addr : Str → Bool} {rep text : Str} {f : TextFile}

theorem grep_eq_false_iff : f.grep p = false ↔ ∀ l ∈ f.lines, p.occurs l = false := by
  rw [grep, List.any_eq_false]
  simp

theorem grep_eq_true_iff : f.grep p = true ↔ ∃ l ∈ f.lines, p.occurs l = true := List.any_eq_true

/-- Without a match nothing is appended. -/
theorem sedAppend_of_no_match (h : ∀ l ∈ f.lines, addr l = false) : f.sedAppend addr text = f := by
  obtain ⟨lines, terminated⟩ := f
  have hlast : lines.getLast?.any addr = false := by
    cases hl : lines.getLast? with
    | none => rfl
    | some l => exact h l (List.mem_of_getLast? hl)
  have hlines : (lines.flatMap fun l => if addr l then [l, text] else [l]) = lines := by
    clear hlast
    induction lines with
    | nil => rfl
    | cons l ls ih =>
      rw [List.flatMap_cons, h l (by simp), ih fun m hm => h m (List.mem_cons_of_mem _ hm)]
      rfl
  simp only [sedAppend, hlines, hlast, Bool.or_false]

/-- With one match the text is inserted behind it. -/
theorem lines_sedAppend {before after : List Str} {l : Str}
    (hlines : f.lines = before ++ l :: after) (hl : addr l = true)
    (hother : ∀ m ∈ before ++ after, addr m = false) :
    (f.sedAppend addr text).lines = before ++ l :: text :: after := by
  have hnone : ∀ ls : List Str, (∀ m ∈ ls, addr m = false) →
      (ls.flatMap fun l => if addr l then [l, text] else [l]) = ls := by
    intro ls h
    exact congrArg lines (sedAppend_of_no_match (f := ⟨ls, true⟩) h)
  rw [sedAppend, hlines, List.flatMap_append, List.flatMap_cons,
    hnone before fun m hm => hother m (List.mem_append_left _ hm),
    hnone after fun m hm => hother m (List.mem_append_right _ hm), hl]
  rfl

theorem mem_sedAppend {l : Str} :
    l ∈ (f.sedAppend addr text).lines ↔ l ∈ f.lines ∨ l = text ∧ ∃ m ∈ f.lines, addr m = true := by
  simp only [sedAppend, List.mem_flatMap]
  constructor
  · rintro ⟨m, hm, hl⟩
    split at hl
    · next haddr =>
      rcases List.mem_cons.mp hl with rfl | hl
      · exact Or.inl hm
      · exact Or.inr ⟨List.mem_singleton.mp hl, m, hm, haddr⟩
    · rw [List.mem_singleton.mp hl]
      exact Or.inl hm
  · rintro (hl | ⟨rfl, m, hm, haddr⟩)
    · refine ⟨l, hl, ?_⟩
      split <;> simp
    · exact ⟨m, hm, by simp [haddr]⟩

/-- Every match makes the file longer. -/
theorem length_sedAppend (addr : Str → Bool) (text : Str) (f : TextFile) :
    (f.sedAppend addr text).lines.length = f.lines.length + f.lines.countP addr := by
  rw [sedAppend]
  induction f.lines with
  | nil => rfl
  | cons l ls ih =>
    simp only [List.flatMap_cons, List.length_append, ih, List.length_cons, List.countP_cons]
    split <;> simp <;> omega

/-! ## Substitutions -/

theorem sedReplace_of_no_match (h : f.grep p = false) : f.sedReplace p rep = f := by
  have hlines : f.lines.map (p.replaceFirst rep) = f.lines := by
    refine (List.map_congr_left fun l hl => ?_).trans (List.map_id _)
    exact Pat.replaceFirst_of_not_occurs (grep_eq_false_iff.mp h l hl)
  rw [sedReplace, hlines]

/-- A substitution keeps what a grep finds if the patterns and the text are apart. -/
theorem grep_sedReplace {q : Pat} (hp : p ≠ []) (hpattern : q.apart p = true)
    (hrep : q.apart (.literal rep) = true) : (f.sedReplace p rep).grep q = f.grep q := by
  unfold grep sedReplace
  rw [List.any_map]
  exact congrArg (List.any f.lines) (funext fun l => Pat.occurs_replaceFirst hp hpattern hrep)

theorem sedReplace_idem_iff (hp : p ≠ []) (hapart : p.apart (.literal rep) = true) :
    (f.sedReplace p rep).sedReplace p rep = f.sedReplace p rep ↔ ∀ l ∈ f.lines, ¬ p.Twice l := by
  have hlines : (f.sedReplace p rep).sedReplace p rep = f.sedReplace p rep ↔
      f.lines.map (p.replaceFirst rep ∘ p.replaceFirst rep) = f.lines.map (p.replaceFirst rep) := by
    simp [sedReplace]
  rw [hlines, List.map_inj_left]
  exact forall₂_congr fun l _ => Pat.replaceFirst_idem_iff hp hapart

end TextFile

section Lines

variable {α : Type} {a b : α} {ls block before after : List α}

/-- A line that is not in a block at the front starts its suffix behind the block. -/
theorem cons_suffix_append_iff (h : a ∉ block) :
    a :: after <:+ block ++ ls ↔ a :: after <:+ ls := by
  constructor
  · rintro ⟨before, heq⟩
    rcases List.append_eq_append_iff.mp heq with ⟨c, rfl, hc⟩ | ⟨c, rfl, hc⟩
    · cases c with
      | nil => exact ⟨[], hc⟩
      | cons d c =>
        obtain ⟨rfl, -⟩ := List.cons.inj hc
        exact absurd (by simp) h
    · exact ⟨c, hc.symm⟩
  · rintro ⟨before, rfl⟩
    exact ⟨block ++ before, by simp⟩

theorem cons_suffix_cons_iff (h : a ≠ b) : a :: after <:+ b :: ls ↔ a :: after <:+ ls := by
  have hmem : a ∉ [b] := by simpa using h
  exact cons_suffix_append_iff hmem

/-- A line that is not in the front part of a text stands behind that part. -/
theorem prefix_of_append_eq (h : block ++ ls = before ++ a :: after) (ha : a ∉ block) :
    block <+: before := by
  rcases List.append_eq_append_iff.mp h with ⟨c, rfl, -⟩ | ⟨c, rfl, hc⟩
  · exact List.prefix_append ..
  · cases c with
    | nil => simp
    | cons d c =>
      obtain ⟨rfl, -⟩ := List.cons.inj hc
      exact absurd (by simp) ha

end Lines
