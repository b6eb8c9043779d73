import LuckfoxPico.UBoot.Proofs.InjectionProofs

/-!
# Proofs: running the edits again

Each file has its own edits, so each is looked at alone. The guarded edits leave their mark or
change nothing, so they never act twice. A substitution acts again on a line that has a second
match, and the new image name can be a match for the address of the load line, which then comes in a
run too late.
-/

namespace UBoot

open Restart TextFile

variable {f : TextFile} {s : Slot}

/-! ## Edits in place -/

theorem runOne_inPlace (edits : List (TextFile → TextFile)) (s : Slot) :
    runOne (edits.map inPlace) s = { s with content := runOne edits s.content } := by
  induction edits generalizing s with
  | nil => rfl
  | cons edit edits ih => exact ih (inPlace edit s)

theorem attemptsOne_inPlace (edits : List (TextFile → TextFile)) (stops : List Nat) (s : Slot) :
    (attemptsOne (edits.map inPlace) stops s).content = attemptsOne edits stops s.content := by
  induction stops generalizing s with
  | nil => rfl
  | cons k stops ih =>
    show (attemptsOne (edits.map inPlace) stops (runOne ((edits.map inPlace).take k) s)).content = _
    rw [ih, ← List.map_take, runOne_inPlace]
    rfl

theorem restartableOne_inPlace (edits : List (TextFile → TextFile)) (s : Slot) :
    RestartableOne Slot.content (edits.map inPlace) s ↔ RestartableOne id edits s.content := by
  unfold RestartableOne
  simp only [runOne_inPlace, attemptsOne_inPlace, id]

/-! ## Guarded awk edits -/

/-- A guarded awk edit as a whole. -/
def guardedAwk (mark : Pat) (prog : List Str → List Str) (f : TextFile) : TextFile :=
  if f.grep mark then f else f.awk prog

theorem mvNew_awkToNew_content (mark : Pat) (prog : List Str → List Str) (s : Slot) :
    (mvNew mark (awkToNew mark prog s)).content = guardedAwk mark prog s.content := by
  unfold guardedAwk
  cases h : s.content.grep mark with
  | false =>
    rw [mvNew_awkToNew h]
    rfl
  | true => simp [awkToNew, mvNew, h]

theorem awkToNew_content (mark : Pat) (prog : List Str → List Str) (s : Slot) :
    (awkToNew mark prog s).content = s.content := by
  unfold awkToNew
  split <;> rfl

/-- A guarded awk edit whose program leaves the mark or prints its input can be stopped before or
after its `mv` and started again. -/
theorem restartableOne_awk {mark : Pat} {prog : List Str → List Str}
    (hprog : ∀ ls, prog ls = ls ∨ (prog ls).any mark.occurs = true) :
    RestartableOne Slot.content [awkToNew mark prog, mvNew mark] s := by
  have hidem : ∀ f, guardedAwk mark prog (guardedAwk mark prog f) = guardedAwk mark prog f := by
    intro f
    unfold guardedAwk
    cases h : f.grep mark with
    | true => simp [h]
    | false =>
      rw [if_neg Bool.false_ne_true]
      rcases hprog f.lines with hsame | hmark
      · have hawk : (f.awk prog).awk prog = f.awk prog := by
          simp only [awk, hsame]
        rw [hawk, ite_self]
      · have hgrep : (f.awk prog).grep mark = true := hmark
        rw [if_pos hgrep]
  refine RestartableOne.of_invariant
    (fun s' => s'.content = s.content ∨ s'.content = guardedAwk mark prog s.content)
    (Or.inl rfl) ?_ ?_
  · intro s' k hs'
    match k with
    | 0 => exact hs'
    | 1 =>
      show (awkToNew mark prog s').content = _ ∨ (awkToNew mark prog s').content = _
      rw [awkToNew_content]
      exact hs'
    | k + 2 =>
      right
      rw [List.take_of_length_le (by simp)]
      show (mvNew mark (awkToNew mark prog s')).content = _
      rw [mvNew_awkToNew_content]
      rcases hs' with h | h
      · rw [h]
      · rw [h, hidem]
  · intro s' hs'
    show (mvNew mark (awkToNew mark prog s')).content = (mvNew mark (awkToNew mark prog s)).content
    rw [mvNew_awkToNew_content, mvNew_awkToNew_content]
    rcases hs' with h | h
    · rw [h]
    · rw [h, hidem]

theorem awkKconfig_leaves_mark (inRange x : Bool) (ls : List Str) :
    awkKconfig inRange x ls = ls ∨ (awkKconfig inRange x ls).any kconfigMark.occurs = true := by
  have hblock : kconfigEntry.any kconfigMark.occurs = true := by decide
  induction ls generalizing inRange x with
  | nil => exact Or.inl rfl
  | cons l ls ih =>
    rw [awkKconfig]
    split
    · rcases ih (l ≠ []) x with h | h
      · exact Or.inl (by rw [h])
      · exact Or.inr (by rw [List.any_cons, h, Bool.or_true])
    · split
      · exact Or.inr (by rw [List.any_append, hblock, Bool.true_or])
      · rcases ih false x with h | h
        · exact Or.inl (by rw [h])
        · exact Or.inr (by simp [h])

theorem awkBoard_leaves_mark (x : Bool) (ls : List Str) :
    awkBoard x ls = ls ∨ (awkBoard x ls).any boardMark.occurs = true := by
  have hdefinition : definitionBlock.any boardMark.occurs = true := by decide
  have hcall : callBlock.any boardMark.occurs = true := by decide
  fun_induction awkBoard x ls with
  | case1 => exact Or.inl rfl
  | case2 x l ls hweak ih => exact Or.inr (by rw [List.any_append, hdefinition, Bool.true_or])
  | case3 x hweak => exact Or.inr (by simp [hcall])
  | case4 x l' ls hweak ih => exact Or.inr (by simp [hcall])
  | case5 x l ls hweak hlate ih =>
    rcases ih with h | h
    · exact Or.inl (by rw [h])
    · exact Or.inr (by simp [h])

/-! ## Guarded appends -/

section

variable {mark addr : Pat} {text : Str}

theorem guardedAppend_of_mark (h : f.grep mark = true) : guardedAppend mark addr text f = f := by
  rw [guardedAppend, if_pos h]

theorem guardedAppend_of_no_match (h : f.grep addr = false) :
    guardedAppend mark addr text f = f := by
  unfold guardedAppend
  rw [sedAppend_of_no_match (grep_eq_false_iff.mp h), ite_self]

/-- If the address matches, the mark is there afterwards: it was there, or it is appended. -/
theorem grep_guardedAppend (htext : mark.occurs text = true) (h : f.grep addr = true) :
    (guardedAppend mark addr text f).grep mark = true := by
  unfold guardedAppend
  split
  · assumption
  · exact grep_eq_true_iff.mpr
      ⟨text, mem_sedAppend.mpr (Or.inr ⟨rfl, grep_eq_true_iff.mp h⟩), htext⟩

theorem guardedAppend_idem (htext : mark.occurs text = true) :
    guardedAppend mark addr text (guardedAppend mark addr text f) =
      guardedAppend mark addr text f := by
  cases h : f.grep addr with
  | true => exact guardedAppend_of_mark (grep_guardedAppend htext h)
  | false => rw [guardedAppend_of_no_match h, guardedAppend_of_no_match h]

theorem mem_guardedAppend {l : Str} (h : l ∈ (guardedAppend mark addr text f).lines) :
    l ∈ f.lines ∨ l = text := by
  unfold guardedAppend at h
  split at h
  · exact Or.inl h
  · exact (mem_sedAppend.mp h).imp_right And.left

theorem mem_guardedAppend_of_mem {l : Str} (h : l ∈ f.lines) :
    l ∈ (guardedAppend mark addr text f).lines := by
  unfold guardedAppend
  split
  · exact h
  · exact mem_sedAppend.mpr (Or.inl h)

/-- Where the mark is missing, a match of the address makes the file longer. -/
theorem length_guardedAppend (hmark : f.grep mark = false) (haddr : f.grep addr = true) :
    f.lines.length < (guardedAppend mark addr text f).lines.length := by
  obtain ⟨l, hl, hoccurs⟩ := grep_eq_true_iff.mp haddr
  have hpos : 0 < f.lines.countP addr.occurs := List.countP_pos_iff.mpr ⟨l, hl, hoccurs⟩
  unfold guardedAppend
  rw [if_neg (by rw [hmark]; exact Bool.false_ne_true), length_sedAppend]
  omega

end

/-! ## The two edits of `fit_nodes.sh` -/

/-- The edit that appends the load address. -/
def editLoad : TextFile → TextFile := guardedAppend loadMark loadAnchor loadLine

/-- The edit of the image name. -/
def editImage : TextFile → TextFile := .sedReplace ubootImage ubootImageNew

theorem ubootImage_ne_nil : ubootImage ≠ [] := by decide

theorem occurs_loadLine : loadMark.occurs loadLine = true := by decide

theorem ubootImage_not_occurs_loadLine : ubootImage.occurs loadLine = false := by decide

theorem ubootImage_apart : ubootImage.apart (.literal ubootImageNew) = true := by decide

/-- The edit of the image name neither adds nor removes the load address. -/
theorem grep_editImage : (editImage f).grep loadMark = f.grep loadMark :=
  grep_sedReplace ubootImage_ne_nil (by decide) (by decide)

/-- The new image name is a match for the address of the load line. -/
theorem grep_loadAnchor_editImage (h : f.grep ubootImage = true) :
    (editImage f).grep loadAnchor = true := by
  have hnew : loadAnchor.occurs ubootImageNew = true := by decide
  obtain ⟨l, hl, hoccurs⟩ := grep_eq_true_iff.mp h
  obtain ⟨u, m, v, -, -, heq, -⟩ :=
    Pat.replaceFirst_of_occurs ubootImageNew ubootImage_ne_nil hoccurs
  refine grep_eq_true_iff.mpr ⟨_, List.mem_map_of_mem hl, ?_⟩
  rw [heq]
  exact Pat.occurs_append_left (Pat.occurs_append_right hnew)

theorem grep_ubootImage_editLoad (h : f.grep ubootImage = false) :
    (editLoad f).grep ubootImage = false := by
  refine grep_eq_false_iff.mpr fun l hl => ?_
  rcases mem_guardedAppend hl with hl | rfl
  · exact grep_eq_false_iff.mp h l hl
  · exact ubootImage_not_occurs_loadLine

/-- No line of the file has a second match: the appended line has not even one. -/
theorem editImage_idem_iff : editImage (editImage (editLoad f)) = editImage (editLoad f) ↔
    ∀ l ∈ f.lines, ¬ ubootImage.Twice l := by
  refine (sedReplace_idem_iff ubootImage_ne_nil ubootImage_apart).trans ?_
  constructor
  · intro h l hl
    exact h l (mem_guardedAppend_of_mem hl)
  · intro h l hl
    rcases mem_guardedAppend hl with hl | rfl
    · exact h l hl
    · intro htwice
      have hoccurs := htwice.occurs
      rw [ubootImage_not_occurs_loadLine] at hoccurs
      exact absurd hoccurs (by simp)

theorem restartableOne_fitNodes : RestartableOne id [editLoad, editImage] f ↔
    (∀ l ∈ f.lines, ¬ ubootImage.Twice l) ∧
      (f.grep loadMark = true ∨ f.grep loadAnchor = true ∨ f.grep ubootImage = false) := by
  -- the load address stays once it is there
  have hmark : f.grep loadMark = true ∨ f.grep loadAnchor = true →
      editLoad (editImage (editLoad f)) = editImage (editLoad f) := by
    intro h
    have hload : (editLoad f).grep loadMark = true := by
      rcases h with h | h
      · rwa [editLoad, guardedAppend_of_mark h]
      · exact grep_guardedAppend occurs_loadLine h
    exact guardedAppend_of_mark (grep_editImage.trans hload)
  constructor
  · intro h
    have htwice : editImage (editLoad (editImage (editLoad f))) = editImage (editLoad f) := h.twice
    have hload : f.grep loadMark = true ∨ f.grep loadAnchor = true ∨ f.grep ubootImage = false := by
      by_contra hnot
      simp only [not_or, Bool.not_eq_true, Bool.not_eq_false] at hnot
      obtain ⟨hno, hanchor, himage⟩ := hnot
      -- the first execution appends nothing, the second one does
      have hfirst : editLoad f = f := guardedAppend_of_no_match hanchor
      rw [hfirst] at htwice
      have hlonger : (editImage f).lines.length < (editLoad (editImage f)).lines.length :=
        length_guardedAppend (grep_editImage.trans hno) (grep_loadAnchor_editImage himage)
      have hsame := congrArg (fun g : TextFile => g.lines.length) htwice
      simp only [editImage, sedReplace, List.length_map] at hsame hlonger
      omega
    refine ⟨?_, hload⟩
    rw [← or_assoc] at hload
    rcases hload with hload | himage
    · rw [hmark hload] at htwice
      exact editImage_idem_iff.mp htwice
    · intro l hl htwice
      have hoccurs := htwice.occurs
      rw [grep_eq_false_iff.mp himage l hl] at hoccurs
      exact absurd hoccurs (by simp)
  · rintro ⟨htwice, hload⟩
    refine restartableOne_pair (guardedAppend_idem occurs_loadLine) ?_
      (editImage_idem_iff.mpr htwice)
    rw [← or_assoc] at hload
    rcases hload with hload | himage
    · exact hmark hload
    · have hsame : editImage (editLoad f) = editLoad f :=
        sedReplace_of_no_match (grep_ubootImage_editLoad himage)
      rw [hsame]
      exact guardedAppend_idem occurs_loadLine

/-! ## The task -/

/-- The edits can be stopped and run again exactly if no line has two matches of a substitution and
the load address does not wait for the new image name. -/
theorem rerunnable_iff (t : Sources) : Rerunnable t ↔ EditsOnce t := by
  have htee : teeOffset ≠ [] := by decide
  have hteeApart : teeOffset.apart (.literal teeOffsetNew) = true := by decide
  have hdisplay : displayMark.occurs displayInclude = true := by decide
  have hfitArgs : RestartableOne Slot.content (editsOf .fitArgs doConfigure) (t .fitArgs) ↔
      ∀ l ∈ (t .fitArgs).content.lines, ¬ teeOffset.Twice l := by
    refine (restartableOne_inPlace [.sedReplace teeOffset teeOffsetNew] _).trans ?_
    rw [restartableOne_single]
    exact sedReplace_idem_iff htee hteeApart
  have hfitNodes : RestartableOne Slot.content (editsOf .fitNodes doConfigure) (t .fitNodes) ↔ _ :=
    (restartableOne_inPlace [editLoad, editImage] _).trans restartableOne_fitNodes
  have hevbDts : RestartableOne Slot.content (editsOf .evbDts doConfigure) (t .evbDts) := by
    refine (restartableOne_inPlace
      [guardedAppend displayMark displayAnchor displayInclude] _).mpr ?_
    exact restartableOne_single.mpr (guardedAppend_idem hdisplay)
  unfold Rerunnable
  rw [restartable_iff]
  constructor
  · intro h
    obtain ⟨huboot, hload⟩ := hfitNodes.mp (h .fitNodes)
    exact ⟨hfitArgs.mp (h .fitArgs), huboot, hload⟩
  · intro h i
    cases i with
    | kconfig => exact restartableOne_awk (awkKconfig_leaves_mark false false)
    | boardC => exact restartableOne_awk (awkBoard_leaves_mark false)
    | evbDts => exact hevbDts
    | fitArgs => exact hfitArgs.mpr h.tee
    | fitNodes => exact hfitNodes.mpr ⟨h.uboot, h.load⟩

/-- Sources whose `fit_nodes.sh` names the image and no device tree. -/
def imageNameOnly : Sources
  | .fitNodes => ⟨⟨["UBOOT=\"u-boot-nodtb.bin\"".toList], true⟩, none⟩
  | _ => ⟨⟨[], true⟩, none⟩

/-- The second execution appends the load address behind the new image name. -/
theorem not_rerunnable_imageNameOnly : ¬ ∀ t : Sources, Rerunnable t := by
  intro h
  have hagain := h imageNameOnly [8] .fitNodes
  exact absurd hagain (by decide)

end UBoot
