import LuckfoxPico.Html.Tokenizer

/-!
# Proofs: tokens of an HTML text

Inside of markup the next token is that markup, never a character. Inside of a tag it is a tag that
starts with the attributes read so far.
-/

namespace Html

variable {st : State} {t : Tag} {c : Char} {s : Str}

theorem run_cons (st : State) (c : Char) (s : Str) :
    run st (c :: s) = (step st c s).1 ++ run (step st c s).2 s := rfl

/-! ## Inside of a tag -/

/-- The tag that a state is inside of. -/
def State.tag? : State → Option Tag
  | .tagName t | .betweenAttrs t | .attrName t _ | .afterAttrName t _ | .beforeAttrValue t _
  | .attrValue _ t _ _ => some t
  | _ => none

/-- A step inside of the tag goes on with it or ends it, and keeps the attributes. -/
def KeepsTag (t : Tag) (r : List Token × State) : Prop :=
  ∃ t', t.attrs <+: t'.attrs ∧ ((r.1 = [] ∧ r.2.tag? = some t') ∨ r.1 = [.tag t'])

theorem KeepsTag.mono {t' : Tag} {r : List Token × State} (h : t.attrs <+: t'.attrs)
    (hr : KeepsTag t' r) : KeepsTag t r := by
  obtain ⟨t'', hattrs, hstep⟩ := hr
  exact ⟨t'', h.trans hattrs, hstep⟩

theorem KeepsTag.stay {st' : State} (h : st'.tag? = some t) : KeepsTag t ([], st') :=
  ⟨t, List.prefix_rfl, Or.inl ⟨rfl, h⟩⟩

theorem add_attrs (t : Tag) (n v : Str) : t.attrs <+: (t.add n v).attrs := by
  unfold Tag.add
  split
  · exact List.prefix_rfl
  · exact List.prefix_append _ _

theorem stepBetween_keepsTag (t : Tag) (c : Char) : KeepsTag t (stepBetween t c) := by
  unfold stepBetween
  split
  · exact KeepsTag.stay rfl
  · split
    · exact ⟨t, List.prefix_rfl, Or.inr rfl⟩
    · exact KeepsTag.stay rfl

theorem step_keepsTag (h : st.tag? = some t) (c : Char) (s : Str) : KeepsTag t (step st c s) := by
  have hadd : ∀ n v c, KeepsTag t (stepBetween (t.add n v) c) := fun n v c =>
    (stepBetween_keepsTag _ c).mono (add_attrs t n v)
  cases st with
  | tagName t' =>
    obtain rfl := Option.some.inj h
    rw [step]
    split
    · exact KeepsTag.stay rfl
    · split
      · exact ⟨t', List.prefix_rfl, Or.inr rfl⟩
      · exact ⟨{ t' with name := t'.name ++ [c.toLower] }, List.prefix_rfl, Or.inl ⟨rfl, rfl⟩⟩
  | betweenAttrs t' =>
    obtain rfl := Option.some.inj h
    exact stepBetween_keepsTag t' c
  | attrName t' n =>
    obtain rfl := Option.some.inj h
    rw [step]
    split
    · exact KeepsTag.stay rfl
    · split
      · exact KeepsTag.stay rfl
      · split
        · exact hadd n [] c
        · exact KeepsTag.stay rfl
  | afterAttrName t' n =>
    obtain rfl := Option.some.inj h
    rw [step]
    split
    · exact KeepsTag.stay rfl
    · split
      · exact KeepsTag.stay rfl
      · exact hadd n [] c
  | beforeAttrValue t' n =>
    obtain rfl := Option.some.inj h
    rw [step]
    split
    · exact KeepsTag.stay rfl
    · split
      · exact KeepsTag.stay rfl
      · split
        · exact hadd n [] c
        · exact KeepsTag.stay rfl
  | attrValue quote t' n v =>
    obtain rfl := Option.some.inj h
    cases quote with
    | some q =>
      rw [step]
      split
      · exact ⟨_, add_attrs t' n v, Or.inl ⟨rfl, rfl⟩⟩
      · exact KeepsTag.stay rfl
    | none =>
      rw [step]
      split
      · exact hadd n v c
      · exact KeepsTag.stay rfl
  | _ => exact absurd h (by simp [State.tag?])

/-- The next token is the tag, or the text ends inside of it. -/
theorem run_inTag (h : st.tag? = some t) (s : Str) :
    run st s = [] ∨ ∃ t' ts, run st s = .tag t' :: ts ∧ t.attrs <+: t'.attrs := by
  induction s generalizing st t with
  | nil =>
    refine Or.inl ?_
    cases st <;> first | rfl | exact absurd h (by simp [State.tag?])
  | cons c s ih =>
    obtain ⟨t', hattrs, ⟨hnone, htag⟩ | hend⟩ := step_keepsTag h c s
    · rw [run_cons, hnone, List.nil_append]
      rcases ih htag with hrun | ⟨t'', ts, hrun, hattrs'⟩
      · exact Or.inl hrun
      · exact Or.inr ⟨t'', ts, hrun, hattrs.trans hattrs'⟩
    · rw [run_cons, hend]
      exact Or.inr ⟨t', _, rfl, hattrs⟩

/-! ## Inside of markup -/

/-- The state is inside of a tag, a comment or a doctype, or in front of its name. -/
def State.InMarkup : State → Prop
  | .data | .raw _ => False
  | .skip _ next => next.InMarkup
  | _ => True

theorem skipTo_inMarkup {n : Nat} (h : st.InMarkup) : (skipTo n st).InMarkup := by
  cases n with
  | zero => exact h
  | succ n => exact h

/-- The next token is not a character. -/
theorem run_inMarkup (h : st.InMarkup) (s : Str) (c : Char) (ts : List Token) :
    run st s ≠ .char c :: ts := by
  have htag : ∀ {st : State} {t : Tag} {s : Str}, st.tag? = some t → run st s ≠ .char c :: ts := by
    intro st t s hst hrun
    rcases run_inTag hst s with hnone | ⟨t', ts', htag, -⟩
    · exact absurd (hnone.symm.trans hrun) (by simp)
    · exact absurd (htag.symm.trans hrun) (by simp)
  induction s generalizing st with
  | nil =>
    intro hrun
    cases st <;> first | exact h.elim | exact absurd hrun (by simp [run, State.atEnd])
  | cons d s ih =>
    intro hrun
    cases st with
    | data => exact h
    | raw name => exact h
    | skip n next =>
      have hnext : (skipTo n next).InMarkup := skipTo_inMarkup h
      exact ih hnext hrun
    | bogusComment =>
      rw [run_cons, step] at hrun
      split at hrun
      · exact absurd (List.cons.inj hrun).1 (by simp)
      · have hrest : State.bogusComment.InMarkup := trivial
        exact ih hrest hrun
    | comment start =>
      rw [run_cons, step] at hrun
      split at hrun
      · exact absurd (List.cons.inj hrun).1 (by simp)
      · have hrest : (State.comment false).InMarkup := trivial
        exact ih hrest hrun
    | doctype =>
      rw [run_cons, step] at hrun
      split at hrun
      · exact absurd (List.cons.inj hrun).1 (by simp)
      · have hrest : State.doctype.InMarkup := trivial
        exact ih hrest hrun
    | _ => exact htag rfl hrun

/-! ## What a `<` opens -/

theorem opening_of_not_opens (h : opens c = false) (s : Str) : opening (c :: s) = .text := by
  simp only [opens, List.mem_cons, List.not_mem_nil, or_false, Bool.or_eq_false_iff,
    decide_eq_false_iff_not, not_or] at h
  obtain ⟨halpha, hslash, hbang, hquestion⟩ := h
  simp [opening, halpha, hslash, hbang, hquestion]

theorem openingDeclaration_ne (s : Str) :
    openingDeclaration s ≠ .text ∧ openingDeclaration s ≠ .nothing := by
  unfold openingDeclaration
  split
  · decide
  · split <;> decide

theorem openingEnd_cons_ne (c : Char) (s : Str) : openingEnd (c :: s) ≠ .text := by
  rw [openingEnd]
  split
  · decide
  · split <;> decide

/-- At the end of the text a `</` stands for itself. -/
theorem opens_of_opening_text (h : opening (c :: s) = .text) (hs : s ≠ []) : opens c = false := by
  rw [opening] at h
  split at h
  · cases h
  · next halpha =>
    split at h
    · obtain ⟨d, r, rfl⟩ := List.exists_cons_of_ne_nil hs
      exact absurd h (openingEnd_cons_ne d r)
    · next hslash =>
      split at h
      · exact absurd h (openingDeclaration_ne s).1
      · next hbang =>
        split at h
        · cases h
        · next hquestion => simp [opens, halpha, hslash, hbang, hquestion]

theorem eq_of_opening_nothing (h : opening s = .nothing) : ∃ r, s = '/' :: '>' :: r := by
  cases s with
  | nil => cases h
  | cons c s =>
    rw [opening] at h
    split at h
    · cases h
    · split at h
      · next hc =>
        cases s with
        | nil => cases h
        | cons d s =>
          rw [openingEnd] at h
          split at h
          · cases h
          · split at h
            · next hd => exact ⟨s, by rw [hc, hd]⟩
            · cases h
      · split at h
        · exact absurd h (openingDeclaration_ne s).2
        · split at h <;> cases h

theorem run_data_of_ne (hc : c ≠ '<') (s : Str) : run .data (c :: s) = .char c :: run .data s := by
  rw [run_cons, step, if_neg hc]
  rfl

theorem run_lt_of_text (h : opening s = .text) :
    run .data ('<' :: s) = .char '<' :: run .data s := by
  rw [run_cons, step, if_pos rfl, h]
  rfl

/-- Markup is opened, or `</>` is dropped. -/
theorem run_lt_of_ne (h : opening s ≠ .text) :
    (∃ st, st.InMarkup ∧ run .data ('<' :: s) = run st s) ∨
    ∃ r, s = '/' :: '>' :: r ∧ run .data ('<' :: s) = run .data r := by
  rw [run_cons, step, if_pos rfl]
  cases hopen : opening s with
  | text => exact absurd hopen h
  | nothing =>
    obtain ⟨r, rfl⟩ := eq_of_opening_nothing hopen
    exact Or.inr ⟨r, rfl, rfl⟩
  | startTag => exact Or.inl ⟨.tagName ⟨false, [], []⟩, trivial, rfl⟩
  | endTag => exact Or.inl ⟨.skip 0 (.tagName ⟨true, [], []⟩), trivial, rfl⟩
  | bogusComment => exact Or.inl ⟨.bogusComment, trivial, rfl⟩
  | comment => exact Or.inl ⟨.skip 2 (.comment true), trivial, rfl⟩
  | doctype => exact Or.inl ⟨.skip 7 .doctype, trivial, rfl⟩

end Html
