import LuckfoxPico.Make.Reader
import LuckfoxPico.Text.Proofs.StrProofs

/-!
# Proofs: how make reads a makefile

Every stage of the reader is followed through an extension of its input: a text that is put behind
an assignment adds its words to that assignment and leaves every other line of the makefile as it
is. A word that is read stands in one of the lines.
-/

namespace Make

open Str

variable {s t u w : Str} {l : Str} {ls closed opened before after : List Str} {a : Assignment}
  {st : State}

/-! ## Words -/

theorem words_cons_of_isspace {c : Char} (hc : isspace c = true) (s : Str) :
    words (c :: s) = words s := by
  rw [words, if_pos hc]

/-- The first word of a text that does not start with a blank. -/
theorem words_cons {c : Char} (hc : isspace c = false) (s : Str) :
    words (c :: s) = (c :: s.takeWhile fun d => !isspace d) ::
      words (s.dropWhile fun d => !isspace d) := by
  induction s generalizing c with
  | nil => simp [words, hc]
  | cons d s ih =>
    rw [words, if_neg (by simp [hc])]
    cases hd : isspace d with
    | true => simp [hd]
    | false => simp [hd, ih hd]

theorem words_append_blank (s t : Str) : words (s ++ ' ' :: t) = words s ++ words t := by
  have hblank : isspace ' ' = true := by decide
  induction s with
  | nil => exact words_cons_of_isspace hblank t
  | cons c s ih =>
    cases hc : isspace c with
    | true => rw [List.cons_append, words_cons_of_isspace hc, words_cons_of_isspace hc, ih]
    | false =>
      have hne : ¬ isspace c = true := by simp [hc]
      rw [List.cons_append, words, if_neg hne, words, if_neg hne, ih]
      cases s with
      | nil => simp [hblank, words]
      | cons d s =>
        cases hd : isspace d with
        | true => simp [hd]
        | false => simp [hd, words_cons hd]

/-- A text without blanks is one word. -/
theorem words_of_no_blank (hne : w ≠ []) (hw : ∀ c ∈ w, isspace c = false) : words w = [w] := by
  cases w with
  | nil => exact absurd rfl hne
  | cons c w =>
    have hrest : ∀ d ∈ w, (!isspace d) = true := fun d hd => by simp [hw d (by simp [hd])]
    rw [words_cons (hw c (by simp)), List.takeWhile_eq_self_iff.mpr hrest,
      List.dropWhile_eq_nil_iff.mpr hrest]
    rfl

/-- A word stands in the text. -/
theorem infix_of_mem_words (h : w ∈ words s) : w <:+: s := by
  induction hn : s.length using Nat.strong_induction_on generalizing s with
  | _ n ih =>
    cases s with
    | nil => exact absurd h (by simp [words])
    | cons c s =>
      cases hc : isspace c with
      | true =>
        rw [words_cons_of_isspace hc] at h
        exact (ih s.length (by rw [← hn]; simp) h rfl).trans (List.suffix_cons ..).isInfix
      | false =>
        rw [words_cons hc] at h
        rcases List.mem_cons.mp h with rfl | h
        · exact ((List.prefix_cons_inj c).mpr (List.takeWhile_prefix _)).isInfix
        · have hsuffix : (s.dropWhile fun d => !isspace d) <:+ c :: s :=
            (List.dropWhile_suffix _).trans (List.suffix_cons ..)
          have hlt : (s.dropWhile fun d => !isspace d).length < n := by
            have hle := List.length_dropWhile_le (fun d => !isspace d) s
            rw [List.length_cons] at hn
            omega
          exact (ih _ hlt h rfl).trans hsuffix.isInfix

/-! ## Lines -/

theorem attach_attach (t u : Str) (us : List Str) :
    attach t (attach u us) = attach (t ++ ' ' :: u) us := by
  cases us <;> simp [attach]

theorem attach_append (t : Str) {us : List Str} (h : us ≠ []) (vs : List Str) :
    attach t (us ++ vs) = attach t us ++ vs := by
  cases us with
  | nil => exact absurd rfl h
  | cons u us => rfl

theorem logical_ne_nil (h : ls ≠ []) : logical ls ≠ [] := by
  cases ls with
  | nil => exact absurd rfl h
  | cons l ls =>
    rw [logical]
    split
    · cases logical ls <;> simp [attach]
    · simp

/-- Complete lines are read apart from what comes behind them. -/
theorem logical_append (h : ∀ m ∈ closed.getLast?, continues m = false) (ls : List Str) :
    logical (closed ++ ls) = logical closed ++ logical ls := by
  induction closed with
  | nil => rfl
  | cons l closed ih =>
    cases closed with
    | nil =>
      have hl : continues l = false := h l (by simp)
      simp [logical, hl]
    | cons m closed =>
      have hrest := ih (by simpa using h)
      rw [List.cons_append, logical, logical, hrest]
      split
      · exact attach_append _ (logical_ne_nil (by simp)) _
      · rfl

/-- What comes behind lines that are continued is read as their continuation. -/
theorem logical_opened (h : ∀ m ∈ opened, continues m = true) (ht : logical opened = [t])
    (ls : List Str) : logical (opened ++ ls) = attach t (logical ls) := by
  induction opened generalizing t with
  | nil => exact absurd ht (by simp [logical])
  | cons l opened ih =>
    have hl : continues l = true := h l (by simp)
    rw [logical, if_pos hl] at ht
    rw [List.cons_append, logical, if_pos hl]
    cases hopened : logical opened with
    | nil =>
      rw [hopened] at ht
      have hnil : opened = [] := by
        by_contra hne
        exact logical_ne_nil hne hopened
      obtain rfl : l.dropLast = t := by simpa [attach] using ht
      rw [hnil, List.nil_append]
    | cons u us =>
      rw [hopened] at ht
      obtain ⟨rfl, rfl⟩ : l.dropLast ++ ' ' :: u = t ∧ us = [] := by simpa [attach] using ht
      rw [ih (fun m hm => h m (List.mem_cons_of_mem _ hm)) hopened, attach_attach]

/-- What stands in a logical line and has no blank stands in one of the lines. -/
theorem exists_infix_of_logical (hw : ' ' ∉ w) (ht : t ∈ logical ls) (h : w <:+: t) :
    ∃ l ∈ ls, w <:+: l := by
  induction ls generalizing t with
  | nil => exact absurd ht (by simp [logical])
  | cons l ls ih =>
    have hrest : ∀ {u : Str}, u ∈ logical ls → w <:+: u → ∃ m ∈ l :: ls, w <:+: m := by
      intro u hu hwu
      obtain ⟨m, hm, hwm⟩ := ih hu hwu
      exact ⟨m, List.mem_cons_of_mem _ hm, hwm⟩
    have hfirst : w <:+: l.dropLast → ∃ m ∈ l :: ls, w <:+: m :=
      fun h => ⟨l, by simp, h.trans (List.dropLast_prefix l).isInfix⟩
    rw [logical] at ht
    split at ht
    · cases hls : logical ls with
      | nil =>
        rw [hls] at ht
        obtain rfl : t = l.dropLast := by simpa [attach] using ht
        exact hfirst h
      | cons u us =>
        rw [hls] at ht hrest
        rcases List.mem_cons.mp ht with rfl | ht
        · rcases infix_append_cons hw h with h | h
          · exact hfirst h
          · exact hrest (by simp) h
        · exact hrest (List.mem_cons_of_mem _ ht) h
    · rcases List.mem_cons.mp ht with rfl | ht
      · exact ⟨t, by simp, h⟩
      · exact hrest ht h

/-! ## Comments -/

theorem uncomment_isPrefix (escaped : Bool) (s : Str) : uncomment escaped s <+: s := by
  induction s generalizing escaped with
  | nil => exact List.prefix_rfl
  | cons c s ih =>
    rw [uncomment]
    split
    · exact List.nil_prefix
    · exact (List.prefix_cons_inj c).mpr (ih _)

/-- Behind a text without a comment and a blank the next text is read for itself. -/
theorem uncomment_append {escaped : Bool} (h : uncomment escaped t = t) (s : Str) :
    uncomment escaped (t ++ ' ' :: s) = t ++ ' ' :: uncomment false s := by
  induction t generalizing escaped with
  | nil => simp [uncomment]
  | cons c t ih =>
    rw [uncomment] at h
    rw [List.cons_append, uncomment]
    split
    · next hc => simp [hc] at h
    · next hc =>
      rw [if_neg hc] at h
      rw [ih (List.cons.inj h).2, List.cons_append]

/-- A text without comment signs and backslashes is read as it is. -/
theorem uncomment_plain (h : ∀ c ∈ t, c ≠ '#' ∧ c ≠ '\\') (s : Str) :
    uncomment false (t ++ s) = t ++ uncomment false s := by
  induction t with
  | nil => rfl
  | cons c t ih =>
    obtain ⟨hc, hc'⟩ := h c (by simp)
    rw [List.cons_append, uncomment, if_neg (by simp [hc])]
    simp only [hc', decide_false, Bool.false_and]
    rw [ih fun d hd => h d (List.mem_cons_of_mem _ hd), List.cons_append]

/-! ## Assignments -/

theorem splitAssign_append {depth : Nat} {left right : Str}
    (h : splitAssign depth t = some (left, right)) (s : Str) :
    splitAssign depth (t ++ s) = some (left, right ++ s) := by
  induction t generalizing depth left with
  | nil => exact absurd h (by simp [splitAssign])
  | cons c t ih =>
    rw [splitAssign] at h
    rw [List.cons_append, splitAssign]
    split at h
    · next hc =>
      obtain ⟨rfl, rfl⟩ := Prod.mk.inj (Option.some.inj h)
      rw [if_pos hc]
    · next hc =>
      obtain ⟨⟨left', right'⟩, hsplit, heq⟩ := Option.map_eq_some_iff.mp h
      obtain ⟨rfl, rfl⟩ := Prod.mk.inj heq
      rw [if_neg hc, ih hsplit]
      rfl

theorem splitAssign_suffix {depth : Nat} {left right : Str}
    (h : splitAssign depth t = some (left, right)) : '=' :: right <:+ t := by
  induction t generalizing depth left with
  | nil => exact absurd h (by simp [splitAssign])
  | cons c t ih =>
    rw [splitAssign] at h
    split at h
    · next hc =>
      obtain ⟨-, rfl⟩ := Prod.mk.inj (Option.some.inj h)
      have hc' : c = '=' := by simpa using (Bool.and_eq_true_iff.mp hc).2
      rw [hc']
    · obtain ⟨⟨left', right'⟩, hsplit, heq⟩ := Option.map_eq_some_iff.mp h
      obtain ⟨-, rfl⟩ := Prod.mk.inj heq
      exact (ih hsplit).trans (List.suffix_cons ..)

theorem assignment_eq_some_iff : assignment t = some a ↔
    ∃ left right, splitAssign 0 t = some (left, right) ∧ varName left = some a.name ∧
      words right = a.words := by
  unfold assignment
  constructor
  · intro h
    obtain ⟨⟨left, right⟩, hsplit, h⟩ := Option.bind_eq_some_iff.mp h
    obtain ⟨name, hname, h⟩ := Option.bind_eq_some_iff.mp h
    obtain rfl := Option.some.inj h
    exact ⟨left, right, hsplit, hname, rfl⟩
  · rintro ⟨left, right, hsplit, hname, hwords⟩
    simp [hsplit, hname, hwords]

/-- A text behind an assignment adds its words. -/
theorem assignment_append (h : assignment t = some a) (s : Str) :
    assignment (t ++ ' ' :: s) = some ⟨a.name, a.words ++ words s⟩ := by
  obtain ⟨left, right, hsplit, hname, hwords⟩ := assignment_eq_some_iff.mp h
  refine assignment_eq_some_iff.mpr
    ⟨left, right ++ ' ' :: s, splitAssign_append hsplit _, hname, ?_⟩
  rw [words_append_blank, hwords]

theorem infix_of_mem_assignment (h : assignment t = some a) (hw : w ∈ a.words) : w <:+: t := by
  obtain ⟨left, right, hsplit, -, hwords⟩ := assignment_eq_some_iff.mp h
  rw [← hwords] at hw
  exact (infix_of_mem_words hw).trans
    ((List.suffix_cons ..).trans (splitAssign_suffix hsplit)).isInfix

theorem isspace_of_words_eq_nil (h : words s = []) : ∀ c ∈ s, isspace c = true := by
  induction s with
  | nil => simp
  | cons c s ih =>
    cases hc : isspace c with
    | false =>
      rw [words_cons hc] at h
      exact absurd h (by simp)
    | true =>
      rw [words_cons_of_isspace hc] at h
      intro d hd
      rcases List.mem_cons.mp hd with rfl | hd
      · exact hc
      · exact ih h d hd

theorem words_ne_nil_of_assignment (h : assignment t = some a) : words t ≠ [] := by
  obtain ⟨left, right, hsplit, -, -⟩ := assignment_eq_some_iff.mp h
  intro hnil
  have heq := isspace_of_words_eq_nil hnil '=' ((splitAssign_suffix hsplit).subset (by simp))
  exact absurd heq (by decide)

/-! ## Reading -/

theorem readFrom_cons_eq_some {st' : State} {cs : List Assignment} :
    readFrom st (t :: ls) = some (st', cs) ↔
      ∃ st₁ as bs, step st t = some (st₁, as) ∧ readFrom st₁ ls = some (st', bs) ∧
        cs = as ++ bs := by
  rw [readFrom]
  constructor
  · intro h
    obtain ⟨⟨st₁, as⟩, hstep, h⟩ := Option.bind_eq_some_iff.mp h
    obtain ⟨⟨st₂, bs⟩, hrest, h⟩ := Option.bind_eq_some_iff.mp h
    obtain ⟨rfl, rfl⟩ := Prod.mk.inj (Option.some.inj h)
    exact ⟨st₁, as, bs, hstep, hrest, rfl⟩
  · rintro ⟨st₁, as, bs, hstep, hrest, rfl⟩
    simp [hstep, hrest]

theorem readFrom_append_eq_some {ts us : List Str} {st' : State} {cs : List Assignment} :
    readFrom st (ts ++ us) = some (st', cs) ↔
      ∃ st₁ as bs, readFrom st ts = some (st₁, as) ∧ readFrom st₁ us = some (st', bs) ∧
        cs = as ++ bs := by
  induction ts generalizing st cs with
  | nil => simp [readFrom]
  | cons t ts ih =>
    rw [List.cons_append, readFrom_cons_eq_some]
    constructor
    · rintro ⟨st₁, as, bs, hstep, hrest, rfl⟩
      obtain ⟨st₂, bs₁, bs₂, hts, hus, rfl⟩ := ih.mp hrest
      exact ⟨st₂, as ++ bs₁, bs₂, readFrom_cons_eq_some.mpr ⟨st₁, as, bs₁, hstep, hts, rfl⟩, hus,
        by simp⟩
    · rintro ⟨st₂, as, bs₂, hts, hus, rfl⟩
      obtain ⟨st₁, as, bs₁, hstep, hrest, rfl⟩ := readFrom_cons_eq_some.mp hts
      exact ⟨st₁, as, bs₁ ++ bs₂, hstep, ih.mpr ⟨st₂, bs₁, bs₂, hrest, hus, rfl⟩, by simp⟩

theorem read_eq_some_iff {as : List Assignment} : read ls = some as ↔
    ∃ st, readFrom start (logical ls) = some (st, as) ∧ st.inDefine = false ∧
      st.conditionals = 0 := by
  unfold read
  constructor
  · intro h
    obtain ⟨⟨st, bs⟩, hfrom, h⟩ := Option.bind_eq_some_iff.mp h
    simp only [Option.ite_none_left_eq_some, Bool.or_eq_true, decide_eq_true_eq, not_or,
      Bool.not_eq_true, ne_eq, not_not] at h
    obtain ⟨⟨hdefine, hcond⟩, h⟩ := h
    obtain rfl := Option.some.inj h
    exact ⟨st, hfrom, hdefine, hcond⟩
  · rintro ⟨st, hfrom, hdefine, hcond⟩
    simp [hfrom, hdefine, hcond]

/-- What a line gives is the assignment that it is. -/
theorem mem_step {st' : State} {as : List Assignment} (h : step st t = some (st', as))
    (ha : a ∈ as) :
    assignment (uncomment false t) = some a := by
  have hnil : ∀ {st₁ st₂ : State}, some (st₁, ([] : List Assignment)) = some (st₂, as) → False := by
    intro st₁ st₂ h
    rw [← (Prod.mk.inj (Option.some.inj h)).2] at ha
    exact absurd ha (by simp)
  unfold step at h
  simp only at h
  split at h
  · exact (hnil h).elim
  split at h
  · exact (hnil h).elim
  split at h
  · split at h
    · exact (hnil h).elim
    · exact absurd h (by simp)
  split at h
  · next b hb =>
    rw [← (Prod.mk.inj (Option.some.inj h)).2, List.mem_singleton] at ha
    rw [ha, hb]
  · -- no assignment: a directive or a rule, which give nothing
    exfalso
    revert h
    repeat' split
    all_goals first | exact fun h => hnil h | simp

theorem mem_readFrom {st' : State} {as : List Assignment} (h : readFrom st ls = some (st', as))
    (ha : a ∈ as) : ∃ t ∈ ls, assignment (uncomment false t) = some a := by
  induction ls generalizing st as with
  | nil =>
    obtain ⟨-, rfl⟩ := Prod.mk.inj (Option.some.inj h)
    exact absurd ha (by simp)
  | cons t ls ih =>
    obtain ⟨st₁, as, bs, hstep, hrest, rfl⟩ := readFrom_cons_eq_some.mp h
    rcases List.mem_append.mp ha with ha | ha
    · exact ⟨t, by simp, mem_step hstep ha⟩
    · obtain ⟨u, hu, hassign⟩ := ih hrest ha
      exact ⟨u, List.mem_cons_of_mem _ hu, hassign⟩

/-- A word that is read stands in one of the lines. -/
theorem exists_infix_of_read {as : List Assignment} (h : read ls = some as) (ha : a ∈ as)
    (hw : w ∈ a.words) (hblank : ' ' ∉ w) : ∃ l ∈ ls, w <:+: l := by
  obtain ⟨st, hfrom, -, -⟩ := read_eq_some_iff.mp h
  obtain ⟨t, ht, hassign⟩ := mem_readFrom hfrom ha
  have hinfix : w <:+: t :=
    (infix_of_mem_assignment hassign hw).trans (uncomment_isPrefix _ t).isInfix
  exact exists_infix_of_logical hblank ht hinfix

/-- A line that is an assignment closes the rule and gives the assignment. -/
theorem step_assignment (hdefine : st.inDefine = false) (htab : t.head? ≠ some '\t')
    (ha : assignment (uncomment false t) = some a) :
    step st t = some ({ st with inRule := false }, [a]) := by
  unfold step
  simp only [hdefine, Bool.false_eq_true, if_false, if_neg (words_ne_nil_of_assignment ha),
    if_neg htab, ha]

/-- A line that continues an assignment adds its words and changes nothing else. -/
theorem step_continued (hdefine : st.inDefine = false) (hcomment : uncomment false t = t)
    (htab : t.head? ≠ some '\t') (ha : assignment t = some a) (s : Str) :
    step st (t ++ ' ' :: s) = some ({ st with inRule := false },
      [⟨a.name, a.words ++ words (uncomment false s)⟩]) := by
  refine step_assignment hdefine ?_ ?_
  · cases t with
    | nil => exact absurd ha (by simp [assignment, splitAssign])
    | cons c t => exact htab
  · rw [uncomment_append hcomment]
    exact assignment_append ha _

theorem continues_concat (h : ∀ c ∈ s, c ≠ '\\') : continues (s ++ ['\\']) = true := by
  have hnil : s.reverse.takeWhile (· = '\\') = [] := by
    cases hs : s.reverse with
    | nil => rfl
    | cons c r =>
      have hc : c ≠ '\\' := h c (List.mem_reverse.mp (by simp [hs]))
      simp [hc]
  simp [continues, hnil]

/-- A line with a tab outside of a rule is an error. -/
theorem step_tab (hdefine : st.inDefine = false) (hrule : st.inRule = false)
    (hwords : words (uncomment false t) ≠ []) (htab : t.head? = some '\t') : step st t = none := by
  unfold step
  simp only [hdefine, hrule, Bool.false_eq_true, if_false, if_neg hwords, if_pos htab]

/-! ## Lines behind an assignment -/

/-- A line that ends with a backslash goes in front of the next logical line. -/
theorem logical_entry {e : Str} (he : ∀ c ∈ e, c ≠ '#' ∧ c ≠ '\\') (ls : List Str) :
    logical ((e ++ ['\\']) :: ls) = attach e (logical ls) := by
  rw [logical, if_pos (continues_concat fun c hc => (he c hc).2), List.dropLast_concat]

theorem tail_attach (e : Str) (us : List Str) : (attach e us).tail = us.tail := by
  cases us <;> rfl

theorem words_attach {e : Str} (he : ∀ c ∈ e, c ≠ '#' ∧ c ≠ '\\') (us : List Str) :
    words (uncomment false ((attach e us).headD [])) =
      words e ++ words (uncomment false (us.headD [])) := by
  cases us with
  | nil =>
    have he' : uncomment false e = e := by simpa [uncomment] using uncomment_plain he []
    show words (uncomment false e) = words e ++ words (uncomment false [])
    rw [he']
    simp [uncomment, words]
  | cons u us =>
    show words (uncomment false (e ++ ' ' :: u)) = words e ++ words (uncomment false u)
    rw [uncomment_plain he, ← words_append_blank]
    rfl

/-- What is read behind a line that continues an assignment: the next logical line is the end of
this assignment. -/
theorem Continued.read_iff (h : Continued before l a) : ∃ closed : List Str, ∀ ls as,
    read (before ++ l :: ls) = some as ↔ ∃ st pre post stEnd,
      readFrom start (logical closed) = some (st, pre) ∧
        readFrom { st with inRule := false } (logical ls).tail = some (stEnd, post) ∧
        (stEnd.inDefine = false ∧ stEnd.conditionals = 0) ∧
          as = pre ++ ⟨a.name, a.words ++ words (uncomment false ((logical ls).headD []))⟩ ::
            post := by
  obtain ⟨closed, opened, t, rfl, hclosed, hopened, ht, hcomment, htab, ha, hdefine⟩ := h
  refine ⟨closed, fun ls as => ?_⟩
  have hlines : logical (closed ++ opened ++ l :: ls) =
      logical closed ++ attach t (logical ls) := by
    rw [List.append_assoc, logical_append hclosed, List.append_cons, logical_opened hopened ht]
  -- the logical line is the same assignment with more words
  have hstep : ∀ {st : State}, st.inDefine = false → step st ((attach t (logical ls)).headD []) =
      some ({ st with inRule := false },
        [⟨a.name, a.words ++ words (uncomment false ((logical ls).headD []))⟩]) := by
    intro st hst
    cases logical ls with
    | nil =>
      show step st t = _
      rw [step_assignment hst htab (hcomment.symm ▸ ha)]
      simp [uncomment, words]
    | cons u us => exact step_continued hst hcomment htab ha u
  have hcons : attach t (logical ls) =
      (attach t (logical ls)).headD [] :: (logical ls).tail := by
    cases logical ls <;> rfl
  rw [read_eq_some_iff, hlines]
  constructor
  · rintro ⟨stEnd, hfrom, hend⟩
    obtain ⟨st, pre, rest, hpre, hrest, rfl⟩ := readFrom_append_eq_some.mp hfrom
    rw [hcons] at hrest
    obtain ⟨st₁, bs, post, hline, hpost, rfl⟩ := readFrom_cons_eq_some.mp hrest
    rw [hstep (hdefine st pre hpre)] at hline
    obtain ⟨rfl, rfl⟩ := Prod.mk.inj (Option.some.inj hline)
    exact ⟨st, pre, post, stEnd, hpre, hpost, hend, rfl⟩
  · rintro ⟨st, pre, post, stEnd, hpre, hpost, hend, rfl⟩
    refine ⟨stEnd, readFrom_append_eq_some.mpr ⟨st, pre, _, hpre, ?_, rfl⟩, hend⟩
    rw [hcons]
    exact readFrom_cons_eq_some.mpr ⟨_, _, post, hstep (hdefine st pre hpre), hpost, rfl⟩

section Insert

variable {e : Str}

/-- A line inserted behind a continued assignment adds its words to this assignment; every other
assignment stays as it is. -/
theorem Continued.read_insert {as : List Assignment} (h : Continued before l a)
    (he : ∀ c ∈ e, c ≠ '#' ∧ c ≠ '\\') (hread : read (before ++ l :: after) = some as) :
    ∃ pre post vs, as = pre ++ ⟨a.name, a.words ++ vs⟩ :: post ∧
      read (before ++ l :: (e ++ ['\\']) :: after) =
        some (pre ++ ⟨a.name, a.words ++ (words e ++ vs)⟩ :: post) := by
  obtain ⟨closed, hiff⟩ := h.read_iff
  obtain ⟨st, pre, post, stEnd, hpre, hpost, hend, rfl⟩ := (hiff after as).mp hread
  refine ⟨pre, post, _, rfl, (hiff _ _).mpr ⟨st, pre, post, stEnd, hpre, ?_, hend, ?_⟩⟩
  · rw [logical_entry he, tail_attach]
    exact hpost
  · rw [logical_entry he, words_attach he]

/-- If a makefile with such a line is accepted, so is the makefile without it. -/
theorem Continued.read_of_insert {bs : List Assignment} (h : Continued before l a)
    (he : ∀ c ∈ e, c ≠ '#' ∧ c ≠ '\\')
    (hread : read (before ++ l :: (e ++ ['\\']) :: after) = some bs) :
    ∃ pre post vs, bs = pre ++ ⟨a.name, a.words ++ (words e ++ vs)⟩ :: post ∧
      read (before ++ l :: after) = some (pre ++ ⟨a.name, a.words ++ vs⟩ :: post) := by
  obtain ⟨closed, hiff⟩ := h.read_iff
  obtain ⟨st, pre, post, stEnd, hpre, hpost, hend, rfl⟩ := (hiff _ bs).mp hread
  rw [logical_entry he, tail_attach] at hpost
  refine ⟨pre, post, words (uncomment false ((logical after).headD [])), ?_,
    (hiff _ _).mpr ⟨st, pre, post, stEnd, hpre, hpost, hend, rfl⟩⟩
  rw [logical_entry he, words_attach he]

theorem Stands.continued (h : Stands before l a) (hl : continues l = true) :
    Continued before l a := by
  obtain ⟨closed, opened, t, hbefore, hclosed, hopened, hrest⟩ := h
  refine ⟨closed, opened, t, hbefore, hclosed, fun m hm => ?_, hrest⟩
  rcases List.mem_append.mp hm with hm | hm
  · exact hopened m hm
  · exact List.mem_singleton.mp hm ▸ hl

/-- Behind the last line of an assignment, a line with a tab makes the makefile wrong. -/
theorem Stands.read_tab (h : Stands before l a) (hl : continues l = false)
    (he : ∀ c ∈ e, c ≠ '#' ∧ c ≠ '\\') (htab : e.head? = some '\t') (hwords : words e ≠ []) :
    read (before ++ l :: (e ++ ['\\']) :: after) = none := by
  obtain ⟨closed, opened, t, rfl, hclosed, -, ht, hcomment, htab', ha, hdefine⟩ := h
  have hlast : ∀ m ∈ (opened ++ [l]).getLast?, continues m = false := by
    rw [List.getLast?_concat]
    intro m hm
    exact Option.some.inj hm ▸ hl
  have hlines : logical (closed ++ opened ++ l :: (e ++ ['\\']) :: after) =
      logical closed ++ t :: attach e (logical after) := by
    rw [List.append_assoc, logical_append hclosed, List.append_cons, logical_append hlast, ht,
      logical_entry he]
    rfl
  -- behind the assignment no rule is open
  have hnone : ∀ {st : State}, st.inDefine = false → st.inRule = false →
      readFrom st (attach e (logical after)) = none := by
    intro st hst hrule
    have hcons : attach e (logical after) =
        (attach e (logical after)).headD [] :: (logical after).tail := by
      cases logical after <;> rfl
    have hhead : ((attach e (logical after)).headD []).head? = some '\t' := by
      cases logical after with
      | nil => exact htab
      | cons u us => simp [attach, List.head?_append, htab]
    have hw : words (uncomment false ((attach e (logical after)).headD [])) ≠ [] := by
      rw [words_attach he]
      exact fun hnil => hwords (List.append_eq_nil_iff.mp hnil).1
    rw [hcons, readFrom, step_tab hst hrule hw hhead]
    rfl
  refine Option.eq_none_iff_forall_ne_some.mpr fun as hread => ?_
  obtain ⟨stEnd, hfrom, -⟩ := read_eq_some_iff.mp hread
  rw [hlines] at hfrom
  obtain ⟨st, pre, rest, hpre, hrest, -⟩ := readFrom_append_eq_some.mp hfrom
  have hst := hdefine st pre hpre
  obtain ⟨st₁, bs, post, hline, hpost, -⟩ := readFrom_cons_eq_some.mp hrest
  rw [step_assignment hst htab' (hcomment.symm ▸ ha)] at hline
  obtain ⟨rfl, -⟩ := Prod.mk.inj (Option.some.inj hline)
  rw [@hnone { st with inRule := false } hst rfl] at hpost
  cases hpost

end Insert

/-- A complete line behind a complete line. -/
theorem read_concat {as : List Assignment} (hlast : ∀ m ∈ ls.getLast?, continues m = false)
    (hl : continues l = false) (hcomment : uncomment false l = l) (htab : l.head? ≠ some '\t')
    (ha : assignment l = some a) (hread : read ls = some as) :
    read (ls ++ [l]) = some (as ++ [a]) := by
  obtain ⟨st, hfrom, hdefine, hcond⟩ := read_eq_some_iff.mp hread
  have hstep := step_assignment hdefine htab (hcomment.symm ▸ ha)
  refine read_eq_some_iff.mpr ⟨{ st with inRule := false }, ?_, hdefine, hcond⟩
  have hlogical : logical [l] = [l] := by simp [logical, hl]
  rw [logical_append hlast, hlogical]
  exact readFrom_append_eq_some.mpr ⟨st, as, [a], hfrom, readFrom_cons_eq_some.mpr
    ⟨_, [a], [], hstep, rfl, rfl⟩, rfl⟩

end Make
