import LuckfoxPico.Kernel.Dts
import LuckfoxPico.Make.Proofs.ReaderProofs
import LuckfoxPico.Text.Proofs.TextFileProofs

/-!
# Proofs: adding device trees to the kernel's makefile

One iteration adds the one missing word and keeps everything else; a run of good iterations is
followed through the counts of the words and the relation `Extends`.
-/

namespace Kernel

open Str Make TextFile

variable {f : TextFile} {d : Dts} {ds : List Dts} {as bs cs : List Assignment} {names : List Str}

/-! ## Names -/

theorem Dts.dtb_plain (d : Dts) : ∀ c ∈ d.dtb, isspace c = false ∧ c ≠ '#' ∧ c ≠ '\\' := by
  have hsuffix : dtbSuffix.all (fun c => !isspace c && c ≠ '#' && c ≠ '\\') = true := by decide
  intro c hc
  rcases List.mem_append.mp hc with hc | hc
  · obtain ⟨hspace, hplain⟩ := d.plain c hc
    refine ⟨hspace, ?_, ?_⟩
    · rintro rfl
      exact hplain (by simp)
    · rintro rfl
      exact hplain (by simp)
  · simpa [and_assoc] using List.all_eq_true.mp hsuffix c hc

theorem Dts.dtb_ne_nil (d : Dts) : d.dtb ≠ [] := by
  have hsuffix : dtbSuffix ≠ [] := by decide
  exact fun h => hsuffix (List.append_eq_nil_iff.mp h).2

theorem Dts.words_dtb (d : Dts) : words d.dtb = [d.dtb] :=
  words_of_no_blank d.dtb_ne_nil fun c hc => (d.dtb_plain c hc).1

theorem Dts.blank_not_mem_dtb (d : Dts) : ' ' ∉ d.dtb := by
  intro h
  have hblank := (d.dtb_plain ' ' h).1
  exact absurd hblank (by decide)

/-- The entry is a line with a tab, continued, whose only word is the name. -/
theorem Dts.entry_spec (d : Dts) : ∃ e, dtbEntry d = e ++ ['\\'] ∧
    (∀ c ∈ e, c ≠ '#' ∧ c ≠ '\\') ∧ e.head? = some '\t' ∧ words e = [d.dtb] := by
  refine ⟨'\t' :: (d.dtb ++ [' ']), by simp [dtbEntry], fun c hc => ?_, rfl, ?_⟩
  · simp only [List.mem_cons, List.mem_append, List.not_mem_nil, or_false] at hc
    rcases hc with rfl | hc | rfl
    · simp
    · exact (d.dtb_plain c hc).2
    · simp
  · have htab : isspace '\t' = true := by decide
    rw [words_cons_of_isspace htab, words_append_blank, d.words_dtb]
    rfl

theorem continues_dtb (s : Str) : continues (s ++ dtbSuffix) = false := by
  have hreverse : dtbSuffix.reverse = ['b', 't', 'd', '.'] := by decide
  rw [continues, List.reverse_append, hreverse]
  simp

/-! ## Lists of device trees -/

theorem mem_listed {w : Str} : w ∈ listed as ↔ ∃ a ∈ as, isDtbList a = true ∧ w ∈ a.words := by
  simp [listed, and_assoc]

/-- A name that grep does not find is not listed. -/
theorem not_mem_listed (hread : read f.lines = some as) (hgrep : f.grep (.regex d.dtb) = false) :
    d.dtb ∉ listed as := by
  intro h
  obtain ⟨a, ha, -, hw⟩ := mem_listed.mp h
  obtain ⟨l, hl, hinfix⟩ := exists_infix_of_read hread ha hw d.blank_not_mem_dtb
  have hoccurs := grep_eq_false_iff.mp hgrep l hl
  rw [Pat.occurs_regex hinfix] at hoccurs
  exact absurd hoccurs (by simp)

theorem listed_append (as bs : List Assignment) : listed (as ++ bs) = listed as ++ listed bs := by
  simp [listed]

theorem listed_cons {a : Assignment} (ha : isDtbList a = true) (as : List Assignment) :
    listed (a :: as) = a.words ++ listed as := by
  simp [listed, ha]

/-- A word put into a list is counted once more. -/
theorem count_listed_insert {pre post : List Assignment} {a : Assignment} {ws vs : List Str}
    (ha : isDtbList a = true) (w n : Str) :
    (listed (pre ++ ⟨a.name, ws ++ ([n] ++ vs)⟩ :: post)).count w =
      (listed (pre ++ ⟨a.name, ws ++ vs⟩ :: post)).count w + if w = n then 1 else 0 := by
  have hname : ∀ us, isDtbList ⟨a.name, us⟩ = true := fun _ => ha
  rw [listed_append, listed_append, listed_cons (hname _), listed_cons (hname _)]
  simp only [List.count_append, List.count_singleton]
  by_cases hw : w = n
  · rw [if_pos hw, if_pos (by simp [hw])]
    omega
  · rw [if_neg hw, if_neg (by simpa using Ne.symm hw)]
    omega

theorem Extends.refl (names : List Str) (as : List Assignment) : Extends names as as :=
  ⟨as, [], by simp, List.forall₂_same.mpr fun _ _ => Or.inl rfl, by simp⟩

theorem Grows.trans {a b c : Assignment} (h : Grows names a b) (h' : Grows names b c) :
    Grows names a c := by
  rcases h with rfl | ⟨hdtb, hname, hsub, hwords⟩
  · exact h'
  · rcases h' with rfl | ⟨-, hname', hsub', hwords'⟩
    · exact Or.inr ⟨hdtb, hname, hsub, hwords⟩
    · refine Or.inr ⟨hdtb, hname'.trans hname, hsub.trans hsub', fun w hw => ?_⟩
      rcases hwords' w hw with hw | hw
      · exact hwords w hw
      · exact Or.inr hw

theorem Grows.new {b c : Assignment} (h : Grows names b c) (hb : isDtbList b = true)
    (hwords : ∀ w ∈ b.words, w ∈ names) : isDtbList c = true ∧ ∀ w ∈ c.words, w ∈ names := by
  rcases h with rfl | ⟨-, hname, -, hnew⟩
  · exact ⟨hb, hwords⟩
  · refine ⟨by rwa [isDtbList, hname], fun w hw => ?_⟩
    rcases hnew w hw with hw | hw
    · exact hwords w hw
    · exact hw

theorem forall₂_grows_trans {as bs cs : List Assignment} (h : List.Forall₂ (Grows names) as bs)
    (h' : List.Forall₂ (Grows names) bs cs) : List.Forall₂ (Grows names) as cs := by
  induction h generalizing cs with
  | nil => exact h'
  | cons hab _ ih =>
    cases h' with
    | cons hbc h' => exact .cons (hab.trans hbc) (ih h')

theorem Extends.trans (h : Extends names as bs) (h' : Extends names bs cs) :
    Extends names as cs := by
  obtain ⟨kept, new, rfl, hkept, hnew⟩ := h
  obtain ⟨kept', new', rfl, hkept', hnew'⟩ := h'
  have hleft := List.forall₂_take kept.length hkept'
  have hright := List.forall₂_drop kept.length hkept'
  rw [List.take_left] at hleft
  rw [List.drop_left] at hright
  refine ⟨kept'.take kept.length, kept'.drop kept.length ++ new', by simp [← List.append_assoc],
    forall₂_grows_trans hkept hleft, fun c hc => ?_⟩
  rcases List.mem_append.mp hc with hc | hc
  · -- a list that was new before has grown since
    obtain ⟨i, hi, rfl⟩ := List.getElem_of_mem hc
    have hlen := hright.length_eq
    have hgrows := (List.forall₂_iff_get.mp hright).2 i (by omega) hi
    have hb := hnew new[i] (List.getElem_mem _)
    exact hgrows.new hb.1 hb.2
  · exact hnew' c hc

/-- A list that wins a name. -/
theorem extends_insert {pre post : List Assignment} {a : Assignment} {ws vs : List Str} {n : Str}
    (ha : isDtbList a = true) (hn : n ∈ names) :
    Extends names (pre ++ ⟨a.name, ws ++ vs⟩ :: post)
      (pre ++ ⟨a.name, ws ++ ([n] ++ vs)⟩ :: post) := by
  have hsame : ∀ as : List Assignment, List.Forall₂ (Grows names) as as :=
    fun as => List.forall₂_same.mpr fun _ _ => Or.inl rfl
  have hgrows : Grows names ⟨a.name, ws ++ vs⟩ ⟨a.name, ws ++ ([n] ++ vs)⟩ := by
    refine Or.inr ⟨ha, rfl, ?_, fun w hw => ?_⟩
    · exact (List.Sublist.refl ws).append (List.sublist_append_right [n] vs)
    · simp only [List.mem_append, List.mem_singleton] at hw ⊢
      rcases hw with hw | rfl | hw
      · exact Or.inl (Or.inl hw)
      · exact Or.inr hn
      · exact Or.inl (Or.inr hw)
  exact ⟨_, [], by simp, List.rel_append (hsame pre) (.cons hgrows (hsame post)), by simp⟩

/-! ## One iteration -/

/-- What a good iteration does to the assignments. -/
structure Added (names : List Str) (d : Dts) (as bs : List Assignment) : Prop where
  once : (listed bs).count d.dtb = 1
  others : ∀ w, w ≠ d.dtb → (listed bs).count w = (listed as).count w
  grown : Extends names as bs

theorem addDtb_of_grep (h : f.grep (.regex d.dtb) = true) : addDtb f d = f := by
  rw [addDtb, if_pos h]

/-- The entry that sed appends holds the name and nothing else. -/
theorem read_sedAppend (hd : d.dtb ∈ names) (hread : read f.lines = some as)
    (hgrep : f.grep (.regex d.dtb) = false) {before after : List Str} {l : Str} {a : Assignment}
    (hlines : f.lines = before ++ l :: after) (hl : anchor l = true)
    (hother : ∀ m ∈ before ++ after, anchor m = false) (hcontinued : Continued before l a)
    (ha : isDtbList a = true) :
    ∃ bs, read (f.sedAppend anchor (dtbEntry d)).lines = some bs ∧ Added names d as bs := by
  obtain ⟨e, hentry, hplain, -, hwords⟩ := d.entry_spec
  have hcount := List.count_eq_zero.mpr (not_mem_listed hread hgrep)
  rw [hlines] at hread
  obtain ⟨pre, post, vs, rfl, hinserted⟩ := hcontinued.read_insert hplain hread
  rw [hwords] at hinserted
  refine ⟨_, by rw [lines_sedAppend hlines hl hother, hentry, hinserted], ?_, ?_, ?_⟩
  · rw [count_listed_insert ha, hcount, if_pos rfl]
  · intro w hw
    rw [count_listed_insert ha, if_neg hw, Nat.add_zero]
  · exact extends_insert ha hd

/-- What echo puts in front of the name is an assignment without words. -/
theorem rockchipList_spec : ∃ t a, rockchipList = t ++ [' '] ∧ assignment t = some a ∧
    isDtbList a = true ∧ a.words = [] ∧ uncomment false t = t ∧ t.head? = some 'd' :=
  ⟨"dtb-$(CONFIG_ARCH_ROCKCHIP) +=".toList, ⟨"dtb-$(CONFIG_ARCH_ROCKCHIP)".toList, []⟩,
    by decide, by decide, by decide, rfl, by decide, by decide⟩

/-- The line that echo appends is a list of its own. -/
theorem read_echoAppend (hd : d.dtb ∈ names) (hread : read f.lines = some as)
    (hgrep : f.grep (.regex d.dtb) = false)
    (hlast : ∀ l ∈ f.lines.getLast?, continues l = false) :
    ∃ bs, read (f.lines ++ [rockchipList ++ d.dtb]) = some bs ∧ Added names d as bs := by
  obtain ⟨t, a, hlist, ha, hdtb, hwords, hcomment, hhead⟩ := rockchipList_spec
  have hline : rockchipList ++ d.dtb = t ++ ' ' :: d.dtb := by simp [hlist]
  have hlineWords : assignment (rockchipList ++ d.dtb) = some ⟨a.name, [d.dtb]⟩ := by
    rw [hline, assignment_append ha, hwords, d.words_dtb]
    rfl
  have hcontinues : continues (rockchipList ++ d.dtb) = false := by
    rw [Dts.dtb, ← List.append_assoc]
    exact continues_dtb _
  have hlineComment : uncomment false (rockchipList ++ d.dtb) = rockchipList ++ d.dtb := by
    have hdtbComment : uncomment false d.dtb = d.dtb := by
      simpa [uncomment] using uncomment_plain (fun c hc => (d.dtb_plain c hc).2) []
    rw [hline, uncomment_append hcomment, hdtbComment]
  have htab : (rockchipList ++ d.dtb).head? ≠ some '\t' := by
    rw [hline, List.head?_append, hhead]
    simp
  have hlisted : listed [(⟨a.name, [d.dtb]⟩ : Assignment)] = [d.dtb] := by
    have hname : isDtbList ⟨a.name, [d.dtb]⟩ = true := hdtb
    rw [listed_cons hname]
    rfl
  have hcount := List.count_eq_zero.mpr (not_mem_listed hread hgrep)
  refine ⟨_, read_concat hlast hcontinues hlineComment htab hlineWords hread, ?_, ?_, ?_⟩
  · rw [listed_append, hlisted, List.count_append, hcount]
    simp
  · intro w hw
    rw [listed_append, hlisted, List.count_append, List.count_singleton]
    simp [Ne.symm hw]
  · refine ⟨as, _, rfl, List.forall₂_same.mpr fun _ _ => Or.inl rfl, fun b hb => ?_⟩
    obtain rfl := List.mem_singleton.mp hb
    exact ⟨hdtb, fun w hw => List.mem_singleton.mp hw ▸ hd⟩

/-- A good iteration. -/
theorem addDtb_spec (hd : d.dtb ∈ names) (hread : read f.lines = some as) (hgood : GoodStep f d) :
    (∃ bs, read (addDtb f d).lines = some bs ∧ Added names d as bs) ∧
      (addDtb f d).grep (.regex d.dtb) = true ∧ ∀ l ∈ f.lines, l ∈ (addDtb f d).lines := by
  unfold GoodStep at hgood
  cases hgrep : f.grep (.regex d.dtb) with
  | true =>
    rw [if_pos hgrep] at hgood
    rw [addDtb_of_grep hgrep]
    exact ⟨⟨as, hread, hgood as hread, fun _ _ => rfl, .refl names as⟩, hgrep, fun l hl => hl⟩
  | false =>
    rw [if_neg (by simp [hgrep])] at hgood
    cases hrv : f.grep (.regex rv1106) with
    | true =>
      rw [if_pos hrv] at hgood
      obtain ⟨before, l, after, hlines, hl, hother, a, hcontinued, ha⟩ := hgood
      have hadd : addDtb f d = f.sedAppend anchor (dtbEntry d) := by
        rw [addDtb, if_neg (by simp [hgrep]), if_pos hrv]
      have hentry : (Pat.regex d.dtb).occurs (dtbEntry d) = true :=
        Pat.occurs_regex ⟨['\t'], [' ', '\\'], by simp [dtbEntry]⟩
      rw [hadd]
      refine ⟨read_sedAppend hd hread hgrep hlines hl hother hcontinued ha,
        grep_eq_true_iff.mpr ⟨dtbEntry d, mem_sedAppend.mpr (Or.inr ⟨rfl, l, ?_, hl⟩), hentry⟩,
        fun m hm => mem_sedAppend.mpr (Or.inl hm)⟩
      rw [hlines]
      simp
    | false =>
      rw [if_neg (by simp [hrv])] at hgood
      obtain ⟨hterminated, hlast⟩ := hgood
      have hadd : addDtb f d = ⟨f.lines ++ [rockchipList ++ d.dtb], true⟩ := by
        rw [addDtb, if_neg (by simp [hgrep]), if_neg (by simp [hrv]), echoAppend,
          if_pos (by simpa using hterminated)]
      have hoccurs : (Pat.regex d.dtb).occurs (rockchipList ++ d.dtb) = true :=
        Pat.occurs_regex (List.suffix_append ..).isInfix
      rw [hadd]
      exact ⟨read_echoAppend hd hread hgrep hlast,
        grep_eq_true_iff.mpr ⟨rockchipList ++ d.dtb, by simp, hoccurs⟩,
        fun m hm => List.mem_append_left _ hm⟩

/-! ## The loop -/

/-- Good iterations list every name once, keep the counts of all other words and extend the
lists. -/
theorem addDtbs_spec (hnames : ∀ d ∈ ds, d.dtb ∈ names) (hread : read f.lines = some as)
    (hgood : GoodRun f ds) :
    ∃ bs, read (addDtbs f ds).lines = some bs ∧ (∀ d ∈ ds, (listed bs).count d.dtb = 1) ∧
      (∀ w, (∀ d ∈ ds, w ≠ d.dtb) → (listed bs).count w = (listed as).count w) ∧
      Extends names as bs := by
  induction ds generalizing f as with
  | nil => exact ⟨as, hread, by simp, fun _ _ => rfl, .refl names as⟩
  | cons d ds ih =>
    obtain ⟨hstep, hrun⟩ := hgood
    obtain ⟨⟨bs, hbs, hadded⟩, -, -⟩ := addDtb_spec (hnames d (by simp)) hread hstep
    obtain ⟨cs, hcs, honce, hothers, hextends⟩ :=
      ih (fun e he => hnames e (List.mem_cons_of_mem _ he)) hbs hrun
    refine ⟨cs, hcs, fun e he => ?_, fun w hw => ?_, hadded.grown.trans hextends⟩
    · by_cases hlater : ∃ e' ∈ ds, e.dtb = e'.dtb
      · obtain ⟨e', he', heq⟩ := hlater
        rw [heq]
        exact honce e' he'
      · -- the name was added by this iteration, and no later one adds it again
        rcases List.mem_cons.mp he with rfl | he
        · rw [hothers _ fun e' he' heq => hlater ⟨e', he', heq⟩]
          exact hadded.once
        · exact absurd ⟨e, he, rfl⟩ hlater
    · rw [hothers w fun e he => hw e (List.mem_cons_of_mem _ he)]
      exact hadded.others w (hw d (by simp))

/-! ## The second run -/

/-- What grep finds, it finds after every iteration. -/
theorem grep_addDtb (d e : Dts) (h : f.grep (.regex d.dtb) = true) :
    (addDtb f e).grep (.regex d.dtb) = true := by
  obtain ⟨l, hl, hoccurs⟩ := grep_eq_true_iff.mp h
  unfold addDtb
  split
  · exact h
  split
  · exact grep_eq_true_iff.mpr ⟨l, mem_sedAppend.mpr (Or.inl hl), hoccurs⟩
  unfold echoAppend
  split
  · exact grep_eq_true_iff.mpr ⟨l, List.mem_append_left _ hl, hoccurs⟩
  · -- the last line goes on with what is echoed
    rcases List.eq_nil_or_concat f.lines with hnil | ⟨ls, last, hlines⟩
    · simp [hnil] at hl
    · rw [hlines, List.concat_eq_append] at hl ⊢
      rw [List.dropLast_concat, List.getLast?_concat]
      rcases List.mem_append.mp hl with hl | hl
      · exact grep_eq_true_iff.mpr ⟨l, List.mem_append_left _ hl, hoccurs⟩
      · obtain rfl := List.mem_singleton.mp hl
        exact grep_eq_true_iff.mpr ⟨_, List.mem_append_right _ (List.mem_singleton_self _),
          Pat.occurs_append_left hoccurs⟩

/-- A makefile to which nothing is added: grep finds `rv1106`, sed finds no line. -/
def Stuck (f : TextFile) : Prop :=
  f.grep (.regex rv1106) = true ∧ ∀ l ∈ f.lines, anchor l = false

theorem Stuck.addDtb_eq (h : Stuck f) (d : Dts) : addDtb f d = f := by
  unfold addDtb
  split
  · rfl
  · rw [if_pos h.1, sedAppend_of_no_match h.2]

/-- After its iteration a name is found, unless nothing is added to the makefile. -/
theorem grep_or_stuck (f : TextFile) (d : Dts) :
    (addDtb f d).grep (.regex d.dtb) = true ∨ Stuck f := by
  cases hgrep : f.grep (.regex d.dtb) with
  | true => exact Or.inl (grep_addDtb d d hgrep)
  | false =>
    cases hrv : f.grep (.regex rv1106) with
    | true =>
      by_cases hanchor : ∃ l ∈ f.lines, anchor l = true
      · left
        have hentry : (Pat.regex d.dtb).occurs (dtbEntry d) = true :=
          Pat.occurs_regex ⟨['\t'], [' ', '\\'], by simp [dtbEntry]⟩
        rw [addDtb, if_neg (by simp [hgrep]), if_pos hrv]
        exact grep_eq_true_iff.mpr ⟨dtbEntry d, mem_sedAppend.mpr (Or.inr ⟨rfl, hanchor⟩), hentry⟩
      · exact Or.inr ⟨hrv, fun l hl => by simpa using fun h => hanchor ⟨l, hl, h⟩⟩
    | false =>
      left
      have hoccurs : (Pat.regex d.dtb).occurs (rockchipList ++ d.dtb) = true :=
        Pat.occurs_regex (List.suffix_append ..).isInfix
      rw [addDtb, if_neg (by simp [hgrep]), if_neg (by simp [hrv]), echoAppend]
      split
      · exact grep_eq_true_iff.mpr ⟨_, List.mem_append_right _ (List.mem_singleton_self _), hoccurs⟩
      · exact grep_eq_true_iff.mpr ⟨_, List.mem_append_right _ (List.mem_singleton_self _),
          Pat.occurs_append_right hoccurs⟩

theorem grep_addDtbs (d : Dts) (h : f.grep (.regex d.dtb) = true) :
    (addDtbs f ds).grep (.regex d.dtb) = true := by
  induction ds generalizing f with
  | nil => exact h
  | cons e ds ih => exact ih (grep_addDtb d e h)

theorem addDtbs_of_forall (h : ∀ d ∈ ds, addDtb f d = f) : addDtbs f ds = f := by
  induction ds with
  | nil => rfl
  | cons d ds ih =>
    show addDtbs (addDtb f d) ds = f
    rw [h d (by simp)]
    exact ih fun e he => h e (List.mem_cons_of_mem _ he)

/-- A second run of the loop changes nothing, whatever the makefile is. -/
theorem addDtbs_addDtbs (f : TextFile) (ds : List Dts) :
    addDtbs (addDtbs f ds) ds = addDtbs f ds := by
  refine addDtbs_of_forall ?_
  induction ds generalizing f with
  | nil => simp
  | cons d ds ih =>
    intro e he
    rcases List.mem_cons.mp he with rfl | he
    · rcases grep_or_stuck f e with hfound | hstuck
      · have hlater : (addDtbs (addDtb f e) ds).grep (.regex e.dtb) = true := grep_addDtbs e hfound
        exact addDtb_of_grep hlater
      · have hall : addDtbs f (e :: ds) = f := addDtbs_of_forall fun d _ => hstuck.addDtb_eq d
        rw [hall]
        exact hstuck.addDtb_eq e
    · exact ih (addDtb f d) e he

/-! ## The converse -/

/-- Lines with an entry behind each one that matches. -/
def withEntries (d : Dts) (ls : List Str) : List Str :=
  ls.flatMap fun l => if anchor l then [l, dtbEntry d] else [l]

/-- If all matching lines stand in lists and the makefile with the entries is accepted, the matching
lines are all continued, and each entry is one more word. -/
theorem read_withEntries (before rest : List Str)
    (hlists : ∀ p l q, rest = p ++ l :: q → anchor l = true →
      ∃ a, Stands (before ++ p) l a ∧ isDtbList a = true)
    (hread : read (before ++ withEntries d rest) = some bs) :
    (∀ l ∈ rest, anchor l = true → continues l = true) ∧
      ∃ as, read (before ++ rest) = some as ∧
        (listed bs).count d.dtb = (listed as).count d.dtb + rest.countP anchor := by
  obtain ⟨e, hentry, hplain, htab, hwords⟩ := d.entry_spec
  induction rest generalizing before bs with
  | nil => exact ⟨by simp, bs, hread, by simp⟩
  | cons l rest ih =>
    have hrest : ∀ p m q, rest = p ++ m :: q → anchor m = true →
        ∃ a, Stands (before ++ [l] ++ p) m a ∧ isDtbList a = true := by
      rintro p m q rfl hm
      rw [List.append_assoc]
      exact hlists (l :: p) m q rfl hm
    cases hl : anchor l with
    | true =>
      have hlines : withEntries d (l :: rest) = l :: dtbEntry d :: withEntries d rest := by
        rw [withEntries, List.flatMap_cons, if_pos hl]
        rfl
      rw [hlines, hentry] at hread
      obtain ⟨a, hstands, ha⟩ := hlists [] l rest rfl hl
      rw [List.append_nil] at hstands
      cases hcont : continues l with
      | true =>
        obtain ⟨pre, post, vs, rfl, hmid⟩ :=
          (hstands.continued hcont).read_of_insert hplain hread
        rw [List.append_cons] at hmid
        obtain ⟨hall, as, has, hcount⟩ := ih _ hrest hmid
        refine ⟨fun m hm hanchor => ?_, as, by rwa [List.append_cons], ?_⟩
        · rcases List.mem_cons.mp hm with rfl | hm
          · exact hcont
          · exact hall m hm hanchor
        · rw [hwords, count_listed_insert ha, hcount, if_pos rfl, List.countP_cons_of_pos hl,
            Nat.add_assoc]
      | false =>
        rw [hstands.read_tab hcont hplain htab (by simp [hwords])] at hread
        cases hread
    | false =>
      have hlines : withEntries d (l :: rest) = l :: withEntries d rest := by
        rw [withEntries, List.flatMap_cons, if_neg (by simp [hl])]
        rfl
      rw [hlines, List.append_cons] at hread
      obtain ⟨hall, as, has, hcount⟩ := ih _ hrest hread
      refine ⟨fun m hm hanchor => ?_, as, by rwa [List.append_cons], ?_⟩
      · rcases List.mem_cons.mp hm with rfl | hm
        · simp [hl] at hanchor
        · exact hall m hm hanchor
      · rw [hcount, List.countP_cons_of_neg (by simp [hl])]

theorem exists_of_countP_eq_one {p : Str → Bool} {ls : List Str} (h : ls.countP p = 1) :
    ∃ before l after, ls = before ++ l :: after ∧ p l = true ∧
      ∀ m ∈ before ++ after, p m = false := by
  obtain ⟨l, hl, hp⟩ := List.countP_pos_iff.mp (show 0 < ls.countP p by omega)
  obtain ⟨before, after, rfl⟩ := List.append_of_mem hl
  rw [List.countP_append, List.countP_cons_of_pos hp] at h
  have hbefore := List.countP_eq_zero.mp (show before.countP p = 0 by omega)
  have hafter := List.countP_eq_zero.mp (show after.countP p = 0 by omega)
  refine ⟨before, l, after, rfl, hp, fun m hm => ?_⟩
  rcases List.mem_append.mp hm with hm | hm
  · simpa using hbefore m hm
  · simpa using hafter m hm

/-- On a tidy makefile, an iteration that lists the name once is good. -/
theorem goodStep_of_count (hread : read f.lines = some as) (htidy : Tidy f)
    (hadd : read (addDtb f d).lines = some bs) (hcount : (listed bs).count d.dtb = 1) :
    GoodStep f d := by
  obtain ⟨hlists, hend⟩ := htidy
  unfold GoodStep
  cases hgrep : f.grep (.regex d.dtb) with
  | true =>
    rw [if_pos rfl]
    rw [addDtb_of_grep hgrep] at hadd
    intro as' has'
    rwa [Option.some.inj (has'.symm.trans hadd)]
  | false =>
    rw [if_neg (by simp)]
    cases hrv : f.grep (.regex rv1106) with
    | false =>
      rw [if_neg (by simp)]
      exact hend
    | true =>
      rw [if_pos rfl]
      rw [addDtb, if_neg (by simp [hgrep]), if_pos hrv] at hadd
      obtain ⟨hcontinued, as', has', hcount'⟩ :=
        read_withEntries [] f.lines hlists hadd
      obtain rfl : as = as' := Option.some.inj (hread.symm.trans has')
      have hzero := List.count_eq_zero.mpr (not_mem_listed hread hgrep)
      have hone : f.lines.countP anchor = 1 := by omega
      obtain ⟨before, l, after, hlines, hl, hother⟩ := exists_of_countP_eq_one hone
      obtain ⟨a, hstands, ha⟩ := hlists before l after hlines hl
      exact ⟨before, l, after, hlines, hl, hother, a,
        hstands.continued (hcontinued l (by simp [hlines]) hl), ha⟩

/-- On tidy makefiles, a loop that lists every name once after each iteration is good. -/
theorem goodRun_of_count (htidy : TidyRun f ds)
    (h : ∀ done, done <+: ds → ∃ bs, read (addDtbs f done).lines = some bs ∧
      ∀ d ∈ done, (listed bs).count d.dtb = 1) : GoodRun f ds := by
  induction ds generalizing f with
  | nil => trivial
  | cons d ds ih =>
    obtain ⟨hhere, hlater⟩ := htidy
    obtain ⟨as, has, -⟩ := h [] (List.nil_prefix)
    obtain ⟨bs, hbs, hcount⟩ := h [d] ⟨ds, rfl⟩
    refine ⟨goodStep_of_count has hhere hbs (hcount d (by simp)), ih hlater fun done hdone => ?_⟩
    obtain ⟨cs, hcs, hall⟩ := h (d :: done) (List.cons_prefix_cons.mpr ⟨rfl, hdone⟩)
    exact ⟨cs, hcs, fun e he => hall e (List.mem_cons_of_mem _ he)⟩

theorem GoodRun.of_append {done rest : List Dts} (h : GoodRun f (done ++ rest)) :
    GoodRun f done := by
  induction done generalizing f with
  | nil => trivial
  | cons d done ih => exact ⟨h.1, ih h.2⟩

/-- If every iteration is good, the makefile is as it should be after each of them. On makefiles in
which all matches stand in lists the iterations have to be good for that. A second run of the loop
changes nothing in any case. -/
theorem addDtbs_registered (hread : (read f.lines).isSome = true) :
    (GoodRun f ds → ∀ done, done <+: ds → Registered done f (addDtbs f done)) ∧
      (TidyRun f ds → (∀ done, done <+: ds → Registered done f (addDtbs f done)) →
        GoodRun f ds) ∧
        addDtbs (addDtbs f ds) ds = addDtbs f ds := by
  obtain ⟨as, has⟩ := Option.isSome_iff_exists.mp hread
  refine ⟨?_, fun htidy h => goodRun_of_count htidy fun done hdone => ?_, addDtbs_addDtbs f ds⟩
  · rintro hgood done ⟨rest, rfl⟩
    obtain ⟨bs, hbs, honce, -, hextends⟩ :=
      addDtbs_spec (fun d hd => List.mem_map_of_mem hd) has hgood.of_append
    exact ⟨as, bs, has, hbs, honce, hextends⟩
  · obtain ⟨-, bs, -, hbs, honce, -⟩ := h done hdone
    exact ⟨bs, hbs, honce⟩

/-- The recipe's own device tree. -/
def ultraW : Dts where
  stem := "rv1106g-luckfox-pico-ultra-w".toList
  plain := by
    intro c hc
    have hall : "rv1106g-luckfox-pico-ultra-w".toList.all (fun c => !isspace c &&
        c ∉ ['\\', '[', '*', '^', '$', '#']) = true := by decide
    simpa only [Bool.and_eq_true, Bool.not_eq_true', decide_eq_true_eq] using
      List.all_eq_true.mp hall c hc
  noOption := by decide

/-- A list of device trees in which one line with an rv1106 board is continued. -/
def continuedList : TextFile :=
  ⟨["dtb-y += \\".toList, "\trv1106-evb.dtb \\".toList, "\trv1126-evb.dtb".toList], true⟩

theorem addDtbs_registered_ultraW : (read continuedList.lines).isSome = true ∧
    (∀ done, done <+: [ultraW] → Registered done continuedList (addDtbs continuedList done)) ∧
      addDtbs (addDtbs continuedList [ultraW]) [ultraW] = addDtbs continuedList [ultraW] := by
  have hread : (read continuedList.lines).isSome = true := by decide
  obtain ⟨hregistered, -, hagain⟩ := @addDtbs_registered continuedList [ultraW] hread
  refine ⟨hread, hregistered ⟨?_, trivial⟩, hagain⟩
  have hgrep : continuedList.grep (.regex ultraW.dtb) = false := by decide
  have hrv : continuedList.grep (.regex rv1106) = true := by decide
  rw [GoodStep, if_neg (by rw [hgrep]; simp), if_pos hrv]
  refine ⟨["dtb-y += \\".toList], "\trv1106-evb.dtb \\".toList, ["\trv1126-evb.dtb".toList], rfl,
    by decide, by decide, ⟨"dtb-y".toList, ["rv1106-evb.dtb".toList]⟩, ?_, by decide⟩
  exact ⟨[], ["dtb-y += \\".toList], _, rfl, by simp, by decide, rfl, by decide, by decide,
    by decide, by simp [logical, readFrom, start]⟩

/-- A list of device trees that ends with the line of an rv1106 board. -/
def endedList : TextFile := ⟨["dtb-y += rv1106-evb.dtb".toList], true⟩

/-- Behind the last line of a list the entry is a line with a tab outside of a rule. -/
theorem not_registered_endedList :
    ¬ ∀ f ds, (read f.lines).isSome = true → Registered ds f (addDtbs f ds) := by
  intro h
  obtain ⟨as, bs, -, hbs, -⟩ := h endedList [ultraW] (by decide)
  have hnone : read (addDtbs endedList [ultraW]).lines = none := by decide
  rw [hnone] at hbs
  exact absurd hbs (by simp)

end Kernel
