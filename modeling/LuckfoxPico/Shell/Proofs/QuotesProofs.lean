import LuckfoxPico.Shell.Quotes
import LuckfoxPico.Text.Proofs.StrProofs

/-!
# Proofs: texts inside double quotes and sed commands

A plain text passes both layers unchanged. For the converse, characters are counted: no layer adds a
backslash, and sed takes at least one away.
-/

namespace Shell

variable {param : Str → Str} {s v : Str} {c : Char} {m : Mode} {atEnd : Bool}

/-! ## Expansions -/

theorem noExpansion_cons : NoExpansion (c :: s) ↔
    (c = '$' → ∀ d ∈ s.head?, expands d = false) ∧ NoExpansion s := Str.noPair_cons

theorem noExpansion_nil : NoExpansion [] := Str.noPair_nil

/-- A text between quotes can be continued with a text that does not expand. -/
theorem noExpansion_append {t : Str} (ht : NoExpansion t) (hhead : ∀ d ∈ t.head?, expands d = false)
    (hs : NoExpansion s) : NoExpansion (s ++ t) := (Str.noPair_append_iff hhead).mpr ⟨hs, ht⟩

/-! ## Plain texts -/

theorem next_of_ne (hescape : c ≠ '\\') (hdollar : c ≠ '$') : Mode.next c = .plain := by
  simp [Mode.next, hescape, hdollar]

theorem emit_of_ne (hescape : c ≠ '\\') (hdollar : c ≠ '$') : emit c = [c] := by
  simp [emit, hescape, hdollar]

theorem dquote_plain_cons (c : Char) (s : Str) :
    dquote param .plain (c :: s) = emit c ++ dquote param (.next c) s := rfl

theorem dquote_dollar_cons (c : Char) (s : Str) : dquote param .dollar (c :: s) =
    if nameStart c then dquote param (.name [c]) s
    else if oneCharParam c then param [c] ++ dquote param .plain s
    else '$' :: dquote param .plain (c :: s) := rfl

theorem isCode_plain_cons (c : Char) (s : Str) : isCode atEnd .plain (c :: s) =
    (decide (c ∈ ['"', '`']) || isCode atEnd (.next c) s) := rfl

theorem isCode_dollar_cons (c : Char) (s : Str) : isCode atEnd .dollar (c :: s) =
    (decide (c ∈ ['(', '{', '[', '"', '`']) ||
      isCode atEnd (if c = '$' then .plain else .next c) s) := rfl

theorem not_special_of_not_expands (h : expands c = false) :
    nameStart c = false ∧ oneCharParam c = false ∧ c ∉ ['(', '{', '['] := by
  simp only [expands, Bool.or_eq_false_iff, decide_eq_false_iff_not] at h
  obtain ⟨⟨hname, hparam⟩, hopen⟩ := h
  refine ⟨?_, hparam, hopen⟩
  simp only [nameChar, Char.isAlphanum, Bool.or_eq_false_iff] at hname
  simp [nameStart, hname.1.1, hname.2]

theorem expands_of_not_special (hname : nameStart c = false) (hparam : oneCharParam c = false)
    (hopen : c ∉ ['(', '{', '[']) : expands c = false := by
  simp only [nameStart, Bool.or_eq_false_iff] at hname
  have hdigit : c.isDigit = false := by
    simp only [oneCharParam, Bool.or_eq_false_iff] at hparam
    exact hparam.1
  have hchar : nameChar c = false := by
    simp only [nameChar, Char.isAlphanum, hname, hdigit, Bool.or_self]
  rw [expands, hchar, hparam, decide_eq_false hopen]
  rfl

theorem dquote_dollar_of_not_expands (hc : expands c = false) :
    dquote param .dollar (c :: s) = '$' :: dquote param .plain (c :: s) := by
  obtain ⟨hname, hparam, -⟩ := not_special_of_not_expands hc
  simp only [dquote_dollar_cons, hname, hparam, Bool.false_eq_true, if_false]

/-- A text without backslashes and expansions is its own value. -/
theorem dquote_plain (hs : '\\' ∉ s) (hexp : NoExpansion s) : dquote param .plain s = s := by
  induction s with
  | nil => rfl
  | cons c s ih =>
    obtain ⟨hc, hs⟩ := List.ne_and_not_mem_of_not_mem_cons hs
    obtain ⟨hhead, hexp⟩ := noExpansion_cons.mp hexp
    have hrest := ih hs hexp
    rw [dquote_plain_cons]
    by_cases hdollar : c = '$'
    · subst hdollar
      show dquote param .dollar s = '$' :: s
      cases s with
      | nil => rfl
      | cons d s => rw [dquote_dollar_of_not_expands (hhead rfl d (by simp)), hrest]
    · rw [emit_of_ne (Ne.symm hc) hdollar, next_of_ne (Ne.symm hc) hdollar, hrest]
      rfl

theorem isCode_plain (hs : ∀ c ∈ s, c ∉ ['"', '`', '\\']) (hexp : NoExpansion s) :
    isCode atEnd .plain s = false := by
  induction s with
  | nil => rfl
  | cons c s ih =>
    have hc := hs c (by simp)
    have hrest := ih (fun d hd => hs d (List.mem_cons_of_mem _ hd)) (noExpansion_cons.mp hexp).2
    simp only [List.mem_cons, List.not_mem_nil, or_false, not_or] at hc
    rw [isCode_plain_cons]
    by_cases hdollar : c = '$'
    · subst hdollar
      show isCode atEnd .dollar s = false
      cases s with
      | nil => rfl
      | cons d s =>
        have hd := hs d (by simp)
        have hexpands := (noExpansion_cons.mp hexp).1 rfl d (by simp)
        obtain ⟨-, hparam, hopen⟩ := not_special_of_not_expands hexpands
        simp only [List.mem_cons, List.not_mem_nil, or_false, not_or] at hd hopen
        have hd' : d ≠ '$' := by
          rintro rfl
          exact absurd hparam (by decide)
        rw [isCode_plain_cons, Bool.or_eq_false_iff] at hrest
        rw [isCode_dollar_cons, if_neg hd', hrest.2]
        simp [hd.1, hd.2.1, hopen]
    · rw [next_of_ne hc.2.2 hdollar, hrest]
      simp [hc.1, hc.2.1]

/-! ## Counting characters -/

/-- The backslash that a mode has taken and not yet emitted. -/
def Mode.pending : Mode → Nat
  | .escape => 1
  | _ => 0

theorem count_emit (c : Char) : (emit c).count '\\' + (Mode.next c).pending = [c].count '\\' := by
  by_cases hescape : c = '\\'
  · subst hescape
    rfl
  · by_cases hdollar : c = '$'
    · subst hdollar
      rfl
    · rw [emit_of_ne hescape hdollar, next_of_ne hescape hdollar]
      rfl

/-- The shell adds no backslash if the parameters hold none. -/
theorem count_dquote_le (hparam : ∀ n, '\\' ∉ param n) (m : Mode) (s : Str) :
    (dquote param m s).count '\\' ≤ s.count '\\' + m.pending := by
  have hnone : ∀ n, (param n).count '\\' = 0 := fun n => List.count_eq_zero.mpr (hparam n)
  have hcons := Str.count_cons '\\'
  induction s generalizing m with
  | nil => cases m <;> simp [dquote, hnone, Mode.pending]
  | cons c s ih =>
    have hstep : (emit c ++ dquote param (.next c) s).count '\\' ≤ (c :: s).count '\\' := by
      have hemit := count_emit c
      have hnext := ih (.next c)
      rw [List.count_append, hcons]
      omega
    have hplain := ih .plain
    simp only [Mode.pending, Nat.add_zero] at hplain
    cases m with
    | plain => exact hstep
    | escape =>
      rw [dquote]
      split
      · rw [hcons, hcons c s]
        exact (Nat.add_le_add_left hplain _).trans (Nat.le_add_right _ _)
      · rw [hcons, hcons c, hcons c s]
        have hone : ['\\'].count '\\' = 1 := by decide
        simp only [Mode.pending]
        omega
    | dollar =>
      rw [dquote_dollar_cons]
      split
      · have hname := ih (.name [c])
        rw [hcons]
        simp only [Mode.pending] at hname ⊢
        omega
      · split
        · rw [List.count_append, hnone, hcons c s]
          simp only [Mode.pending]
          omega
        · rw [hcons '$']
          have hdollar : ['$'].count '\\' = 0 := by decide
          rw [hdollar, Nat.zero_add]
          exact hstep
    | name n =>
      rw [dquote]
      split
      · have hname := ih (.name (n ++ [c]))
        rw [hcons]
        simp only [Mode.pending] at hname ⊢
        omega
      · rw [List.count_append, hnone, Nat.zero_add]
        exact hstep

/-- The name that a mode has started and whose value is still to come. -/
def Mode.started : Mode → Nat
  | .name _ => 1
  | _ => 0

/-- The shell takes no bar away, and every name adds one if the parameters hold one. -/
theorem count_dquote_ge (hparam : ∀ n, '|' ∈ param n) (m : Mode) (s : Str) :
    s.count '|' + m.started ≤ (dquote param m s).count '|' := by
  have hsome : ∀ n, 0 < (param n).count '|' := fun n => List.count_pos_iff.mpr (hparam n)
  have hcons := Str.count_cons '|'
  have hemit : ∀ c : Char, (emit c).count '|' = [c].count '|' := by
    intro c
    by_cases hescape : c = '\\'
    · subst hescape
      rfl
    · by_cases hdollar : c = '$'
      · subst hdollar
        rfl
      · rw [emit_of_ne hescape hdollar]
  induction s generalizing m with
  | nil =>
    cases m with
    | name n => exact hsome n
    | _ => simp [dquote, Mode.started]
  | cons c s ih =>
    have hstep : (c :: s).count '|' ≤ (emit c ++ dquote param (.next c) s).count '|' := by
      have hnext := ih (.next c)
      rw [List.count_append, hcons, hemit]
      omega
    have hplain := ih .plain
    simp only [Mode.started, Nat.add_zero] at hplain
    have hname : ∀ {c : Char}, nameChar c = true → [c].count '|' = 0 := by
      intro c hc
      refine List.count_eq_zero.mpr fun hmem => ?_
      rw [← List.mem_singleton.mp hmem] at hc
      exact absurd hc (by decide)
    cases m with
    | plain => exact hstep
    | escape =>
      rw [dquote]
      split
      · rw [hcons, hcons c (dquote param .plain s)]
        exact Nat.add_le_add_left hplain _
      · rw [hcons '\\', hcons, hcons c (dquote param .plain s)]
        simp only [Mode.started]
        omega
    | dollar =>
      rw [dquote_dollar_cons]
      split
      · next hstart =>
        have hchar : nameChar c = true := by
          simp only [nameStart, nameChar, Char.isAlphanum, Bool.or_eq_true] at hstart ⊢
          exact hstart.imp_left Or.inl
        have hnext := ih (.name [c])
        rw [hcons, hname hchar]
        simp only [Mode.started] at hnext ⊢
        omega
      · split
        · next hone =>
          have hbar : [c].count '|' = 0 := by
            refine List.count_eq_zero.mpr fun hmem => ?_
            rw [← List.mem_singleton.mp hmem] at hone
            exact absurd hone (by decide)
          rw [List.count_append, hcons, hbar]
          simp only [Mode.started]
          omega
        · have hbar : ['$'].count '|' = 0 := by decide
          rw [hcons '$' (dquote param .plain (c :: s)), hbar, Nat.zero_add]
          exact hstep
    | name n =>
      rw [dquote]
      split
      · next hchar =>
        have hnext := ih (.name (n ++ [c]))
        rw [hcons, hname hchar]
        simp only [Mode.started] at hnext ⊢
        omega
      · have hvalue := hsome n
        rw [List.count_append]
        simp only [Mode.started]
        omega

/-- If the value has no more bars than the text, the text has no expansion. -/
theorem noExpansion_of_count (hparam : ∀ n, '|' ∈ param n) (hs : '\\' ∉ s) :
    (isCode atEnd .plain s = false → (dquote param .plain s).count '|' ≤ s.count '|' →
      NoExpansion s) ∧
    (isCode atEnd .dollar s = false → (dquote param .dollar s).count '|' ≤ s.count '|' →
      NoExpansion ('$' :: s)) := by
  have hsome : ∀ n, 0 < (param n).count '|' := fun n => List.count_pos_iff.mpr (hparam n)
  induction s with
  | nil =>
    refine ⟨fun _ _ => noExpansion_nil, fun _ _ => noExpansion_cons.mpr ⟨?_, noExpansion_nil⟩⟩
    rintro - d hd
    exact absurd hd (by simp)
  | cons c s ih =>
    obtain ⟨hc, hs⟩ := List.ne_and_not_mem_of_not_mem_cons hs
    obtain ⟨ihplain, ihdollar⟩ := ih hs
    have hplain : isCode atEnd .plain (c :: s) = false →
        (dquote param .plain (c :: s)).count '|' ≤ (c :: s).count '|' → NoExpansion (c :: s) := by
      intro hcode hcount
      rw [isCode_plain_cons, Bool.or_eq_false_iff] at hcode
      rw [dquote_plain_cons] at hcount
      by_cases hdollar : c = '$'
      · subst hdollar
        have hbar : ('$' :: s).count '|' = s.count '|' := List.count_cons_of_ne (by decide)
        rw [hbar] at hcount
        exact ihdollar hcode.2 hcount
      · rw [emit_of_ne (Ne.symm hc) hdollar, next_of_ne (Ne.symm hc) hdollar] at hcount
        rw [next_of_ne (Ne.symm hc) hdollar] at hcode
        have hrest : (dquote param .plain s).count '|' ≤ s.count '|' := by
          rw [List.singleton_append, List.count_cons, List.count_cons] at hcount
          omega
        exact noExpansion_cons.mpr ⟨fun h => absurd h hdollar, ihplain hcode.2 hrest⟩
    refine ⟨hplain, fun hcode hcount => ?_⟩
    rw [isCode_dollar_cons, Bool.or_eq_false_iff] at hcode
    rw [dquote_dollar_cons] at hcount
    have hle : s.count '|' ≤ (c :: s).count '|' := (List.sublist_cons_self c s).count_le _
    by_cases hname : nameStart c = true
    · -- The name adds a bar of its value.
      have hge := count_dquote_ge hparam (.name [c]) s
      have hbar : (c :: s).count '|' = s.count '|' := by
        refine List.count_cons_of_ne ?_
        rintro rfl
        exact absurd hname (by decide)
      rw [if_pos hname, hbar] at hcount
      simp only [Mode.started] at hge
      omega
    · rw [if_neg hname] at hcount
      by_cases hone : oneCharParam c = true
      · have hge := count_dquote_ge hparam .plain s
        have hvalue := hsome [c]
        have hbar : (c :: s).count '|' = s.count '|' := by
          refine List.count_cons_of_ne ?_
          rintro rfl
          exact absurd hone (by decide)
        rw [if_pos hone, hbar, List.count_append] at hcount
        simp only [Mode.started, Nat.add_zero] at hge
        omega
      · rw [if_neg hone] at hcount
        have hdollar : c ≠ '$' := by
          rintro rfl
          exact hone (by decide)
        rw [if_neg hdollar] at hcode
        simp only [List.mem_cons, List.not_mem_nil, or_false, decide_eq_false_iff_not,
          not_or] at hcode
        obtain ⟨⟨hparen, hbrace, hbracket, hquote, htick⟩, hcode⟩ := hcode
        have hexpands : expands c = false :=
          expands_of_not_special (Bool.eq_false_iff.mpr hname) (Bool.eq_false_iff.mpr hone)
            (by simp [hparen, hbrace, hbracket])
        have hrest : NoExpansion (c :: s) := by
          refine hplain ?_ ?_
          · rw [isCode_plain_cons, hcode]
            simp [hquote, htick]
          · rwa [List.count_cons_of_ne (by decide)] at hcount
        refine noExpansion_cons.mpr ⟨fun _ d hd => ?_, hrest⟩
        obtain rfl : c = d := by simpa using hd
        exact hexpands

/-! ## Code -/

/-- A text that is no code can be continued with one that is no code in any mode. -/
theorem isCode_append {atEnd' : Bool} {t : Str} (ht : ∀ m, isCode atEnd m t = false)
    (hs : isCode atEnd' m s = false) : isCode atEnd m (s ++ t) = false := by
  induction s generalizing m with
  | nil => exact ht m
  | cons c s ih =>
    cases m with
    | escape => exact ih (m := .plain) hs
    | _ =>
      simp only [isCode, Bool.or_eq_false_iff] at hs
      simp only [List.cons_append, isCode, Bool.or_eq_false_iff]
      exact ⟨hs.1, ih hs.2⟩

theorem not_mem_of_isCode (hs : '\\' ∉ s) (hm : m ≠ .escape) (hcode : isCode atEnd m s = false) :
    ∀ c ∈ s, c ∉ ['"', '`'] := by
  induction s generalizing m with
  | nil => exact fun c hc => absurd hc List.not_mem_nil
  | cons c s ih =>
    obtain ⟨hc, hs⟩ := List.ne_and_not_mem_of_not_mem_cons hs
    have hnext : Mode.next c ≠ .escape := by
      unfold Mode.next
      rw [if_neg (Ne.symm hc)]
      split <;> simp
    have hboth : c ∉ ['"', '`'] ∧ ∃ m', m' ≠ .escape ∧ isCode atEnd m' s = false := by
      cases m with
      | escape => exact absurd rfl hm
      | dollar =>
        rw [isCode_dollar_cons, Bool.or_eq_false_iff, decide_eq_false_iff_not] at hcode
        refine ⟨fun h => hcode.1 ?_, _, ?_, hcode.2⟩
        · simp only [List.mem_cons, List.not_mem_nil, or_false] at h ⊢
          rcases h with h | h <;> simp [h]
        · split
          · simp
          · exact hnext
      | _ =>
        simp only [isCode, Bool.or_eq_false_iff, decide_eq_false_iff_not] at hcode
        exact ⟨hcode.1, _, hnext, hcode.2⟩
    obtain ⟨hhead, m', hm', hrest⟩ := hboth
    intro d hd
    rcases List.mem_cons.mp hd with rfl | hd
    · exact hhead
    · exact ih hs hm' hrest d hd

end Shell

namespace Sed

variable {extension : Char → Str → Option Str} {tok s l r rep v : Str} {escaped : Bool}

/-! ## Where the replacement ends -/

theorem splitReplacement_append (hescape : '\\' ∉ v) (hbar : '|' ∉ v) (r : Str) :
    splitReplacement false (v ++ '|' :: r) = some (v, r) := by
  induction v with
  | nil => rfl
  | cons c v ih =>
    obtain ⟨hc, hescape⟩ := List.ne_and_not_mem_of_not_mem_cons hescape
    obtain ⟨hc', hbar⟩ := List.ne_and_not_mem_of_not_mem_cons hbar
    rw [List.cons_append, splitReplacement, if_neg (Ne.symm hc'), decide_eq_false (Ne.symm hc),
      ih hescape hbar]
    rfl

theorem eq_of_splitReplacement (h : splitReplacement escaped s = some (l, r)) :
    s = l ++ '|' :: r := by
  induction s generalizing escaped l with
  | nil => exact absurd h (by simp [splitReplacement])
  | cons c s ih =>
    cases escaped with
    | true =>
      obtain ⟨⟨l', r'⟩, hrec, heq⟩ := Option.map_eq_some_iff.mp h
      obtain ⟨rfl, rfl⟩ := Prod.mk.inj heq
      rw [List.cons_append, ← ih hrec]
    | false =>
      rw [splitReplacement] at h
      split at h
      · next hc =>
        obtain ⟨rfl, rfl⟩ := Prod.mk.inj (Option.some.inj h)
        rw [hc, List.nil_append]
      · obtain ⟨⟨l', r'⟩, hrec, heq⟩ := Option.map_eq_some_iff.mp h
        obtain ⟨rfl, rfl⟩ := Prod.mk.inj heq
        rw [List.cons_append, ← ih hrec]

theorem bar_not_mem_of_splitReplacement (hescape : '\\' ∉ l)
    (h : splitReplacement false s = some (l, r)) : '|' ∉ l := by
  induction s generalizing l with
  | nil => exact absurd h (by simp [splitReplacement])
  | cons c s ih =>
    rw [splitReplacement] at h
    split at h
    · obtain ⟨rfl, rfl⟩ := Prod.mk.inj (Option.some.inj h)
      exact List.not_mem_nil
    · next hbar =>
      obtain ⟨⟨l', r'⟩, hrec, heq⟩ := Option.map_eq_some_iff.mp h
      obtain ⟨rfl, rfl⟩ := Prod.mk.inj heq
      obtain ⟨hc, hescape⟩ := List.ne_and_not_mem_of_not_mem_cons hescape
      rw [decide_eq_false (Ne.symm hc)] at hrec
      exact List.not_mem_cons_of_ne_of_not_mem (Ne.symm hbar) (ih hescape hrec)

/-! ## What is inserted -/

theorem replacement_cons_of_ne {c : Char} (hc : c ≠ '\\') :
    replacement extension tok false (c :: s) =
      (replacement extension tok false s).map ((if c = '&' then tok else [c]) ++ ·) := by
  rw [replacement, if_neg hc]

theorem replacement_plain (hescape : '\\' ∉ v) (hamp : '&' ∉ v) :
    replacement extension tok false v = some v := by
  induction v with
  | nil => rfl
  | cons c v ih =>
    obtain ⟨hc, hescape⟩ := List.ne_and_not_mem_of_not_mem_cons hescape
    obtain ⟨hc', hamp⟩ := List.ne_and_not_mem_of_not_mem_cons hamp
    rw [replacement_cons_of_ne (Ne.symm hc), ih hescape hamp, if_neg (Ne.symm hc')]
    rfl

/-- Without backslashes every ampersand becomes the token. -/
theorem amp_not_mem_of_replacement (hescape : '\\' ∉ v) (htok : '&' ∉ tok)
    (h : replacement extension tok false v = some rep) : '&' ∉ rep := by
  induction v generalizing rep with
  | nil =>
    obtain rfl := Option.some.inj h
    exact List.not_mem_nil
  | cons c v ih =>
    obtain ⟨hc, hescape⟩ := List.ne_and_not_mem_of_not_mem_cons hescape
    rw [replacement_cons_of_ne (Ne.symm hc)] at h
    obtain ⟨rep, hrec, rfl⟩ := Option.map_eq_some_iff.mp h
    have hhead : '&' ∉ if c = '&' then tok else [c] := by
      split
      · exact htok
      · next hne => simpa using Ne.symm hne
    intro hmem
    rcases List.mem_append.mp hmem with hmem | hmem
    · exact hhead hmem
    · exact ih hescape hrec hmem

/-- The extension that leaves the text as it is. -/
def keepExtension (c : Char) (s : Str) : Option Str := some (c :: s)

/-- No backslash is added, -/
theorem count_replacement_le (htok : '\\' ∉ tok)
    (h : replacement keepExtension tok escaped s = some rep) :
    rep.count '\\' ≤ s.count '\\' := by
  have hcons := Str.count_cons '\\'
  have hzero : tok.count '\\' = 0 := List.count_eq_zero.mpr htok
  induction s generalizing escaped rep with
  | nil =>
    cases escaped with
    | true => exact absurd h (by simp [replacement])
    | false =>
      obtain rfl := Option.some.inj h
      exact le_rfl
  | cons c s ih =>
    have hmap : ∀ {t : Str}, t.count '\\' ≤ [c].count '\\' →
        (replacement keepExtension tok false s).map (t ++ ·) = some rep →
        rep.count '\\' ≤ (c :: s).count '\\' := by
      intro t ht hmap
      obtain ⟨rep, hrec, rfl⟩ := Option.map_eq_some_iff.mp hmap
      rw [List.count_append, hcons]
      exact Nat.add_le_add ht (ih hrec)
    cases escaped with
    | false =>
      rw [replacement] at h
      split at h
      · exact (ih h).trans ((List.sublist_cons_self c s).count_le _)
      · refine hmap ?_ h
        split
        · exact hzero ▸ Nat.zero_le _
        · exact le_rfl
    | true =>
      rw [replacement] at h
      split at h
      · exact hmap (t := [c]) le_rfl h
      · split at h
        · exact hmap (hzero ▸ Nat.zero_le _) h
        · split at h
          · exact absurd h (by simp)
          · obtain rfl := Option.some.inj h
            exact le_rfl

/-- and one is taken away if there is any. -/
theorem count_replacement_lt (htok : '\\' ∉ tok) (hs : '\\' ∈ s)
    (h : replacement keepExtension tok false s = some rep) :
    rep.count '\\' < s.count '\\' := by
  induction s generalizing rep with
  | nil => exact absurd hs List.not_mem_nil
  | cons c s ih =>
    by_cases hc : c = '\\'
    · rw [replacement, if_pos hc] at h
      rw [hc, List.count_cons_self]
      exact Nat.lt_succ_of_le (count_replacement_le htok h)
    · rw [replacement_cons_of_ne hc] at h
      obtain ⟨rep, hrec, rfl⟩ := Option.map_eq_some_iff.mp h
      have hmem : '\\' ∈ s := (List.mem_cons.mp hs).resolve_left (Ne.symm hc)
      have hhead : '\\' ∉ if c = '&' then tok else [c] := by
        split
        · exact htok
        · simpa using Ne.symm hc
      rw [List.count_append, List.count_eq_zero.mpr hhead, Nat.zero_add, List.count_cons_of_ne hc]
      exact ih hmem hrec

theorem of_command_eq_replace {text : Str} (h : command extension tok text = .replace rep) :
    ∃ l, splitReplacement false text = some (l, ['g']) ∧
      replacement extension tok false l = some rep := by
  rw [command] at h
  split at h
  · exact absurd h (by simp)
  · next repl flags hsplit =>
    split at h
    · next hflags =>
      split at h
      · next hrep =>
        obtain rfl := Command.replace.inj h
        exact ⟨repl, hflags ▸ hsplit, hrep⟩
      · exact absurd h (by simp)
    · exact absurd h (by simp)

end Sed
