import LuckfoxPico.Text.Pattern

/-!
# Proofs: regular expressions without repetition

The scans are tied to splits of the line: a pattern occurs if the line is `u ++ m ++ v` with a match
`m`, and `replaceFirst` works on the split with the shortest `u`. Two patterns that are `apart`
never overlap in a line, so replacing a match of one of them keeps, and adds, no match of the other.
-/

namespace Pat

variable {p q : Pat} {rep s m w u v x y : Str}

theorem Matches.length_eq (h : Matches p m) : m.length = p.length := (List.Forall₂.length_eq h).symm

theorem afterMatch_eq_some_iff : afterMatch p s = some v ↔ ∃ m, Matches p m ∧ s = m ++ v := by
  induction p generalizing s with
  | nil =>
    constructor
    · intro h
      exact ⟨[], .nil, Option.some.inj h⟩
    · rintro ⟨m, hm, rfl⟩
      cases hm
      rfl
  | cons a p ih =>
    cases s with
    | nil =>
      refine iff_of_false (by simp [afterMatch]) ?_
      rintro ⟨m, hm, h⟩
      cases hm
      exact absurd h (by simp)
    | cons c s =>
      rw [afterMatch]
      split
      · next hc =>
        rw [ih]
        constructor
        · rintro ⟨m, hm, rfl⟩
          exact ⟨c :: m, .cons hc hm, rfl⟩
        · rintro ⟨m, hm, h⟩
          cases hm with
          | cons hc' hm =>
            obtain ⟨rfl, rfl⟩ := List.cons.inj h
            exact ⟨_, hm, rfl⟩
      · next hc =>
        refine iff_of_false (by simp) ?_
        rintro ⟨m, hm, h⟩
        cases hm with
        | cons hc' hm =>
          obtain ⟨rfl, rfl⟩ := List.cons.inj h
          exact hc hc'

theorem afterMatch_eq_none_iff : afterMatch p s = none ↔ ∀ m v, Matches p m → s ≠ m ++ v := by
  rw [Option.eq_none_iff_forall_ne_some]
  constructor
  · intro h m v hm hs
    exact h v (afterMatch_eq_some_iff.mpr ⟨m, hm, hs⟩)
  · intro h v hv
    obtain ⟨m, hm, hs⟩ := afterMatch_eq_some_iff.mp hv
    exact h m v hm hs

theorem occurs_iff : occurs p s = true ↔ ∃ u m v, s = u ++ m ++ v ∧ Matches p m := by
  induction s with
  | nil =>
    rw [occurs, Option.isSome_iff_exists]
    constructor
    · rintro ⟨v, hv⟩
      obtain ⟨m, hm, h⟩ := afterMatch_eq_some_iff.mp hv
      exact ⟨[], m, v, h, hm⟩
    · rintro ⟨u, m, v, h, hm⟩
      obtain ⟨rfl, rfl, rfl⟩ : u = [] ∧ m = [] ∧ v = [] := by simpa using h.symm
      exact ⟨[], afterMatch_eq_some_iff.mpr ⟨[], hm, rfl⟩⟩
  | cons c s ih =>
    rw [occurs, Bool.or_eq_true, ih, Option.isSome_iff_exists]
    constructor
    · rintro (⟨v, hv⟩ | ⟨u, m, v, rfl, hm⟩)
      · obtain ⟨m, hm, h⟩ := afterMatch_eq_some_iff.mp hv
        exact ⟨[], m, v, h, hm⟩
      · exact ⟨c :: u, m, v, rfl, hm⟩
    · rintro ⟨u, m, v, h, hm⟩
      cases u with
      | nil => exact Or.inl ⟨v, afterMatch_eq_some_iff.mpr ⟨m, hm, h⟩⟩
      | cons d u =>
        obtain ⟨rfl, rfl⟩ := List.cons.inj h
        exact Or.inr ⟨u, m, v, rfl, hm⟩

theorem occurs_of_split (hm : Matches p m) : occurs p (u ++ m ++ v) = true :=
  occurs_iff.mpr ⟨u, m, v, rfl, hm⟩

/-- What occurs in a part of a line occurs in the line. -/
theorem occurs_append_left (h : occurs p u = true) : occurs p (u ++ v) = true := by
  obtain ⟨a, m, b, rfl, hm⟩ := occurs_iff.mp h
  exact occurs_iff.mpr ⟨a, m, b ++ v, by simp, hm⟩

theorem occurs_append_right (h : occurs p v = true) : occurs p (u ++ v) = true := by
  obtain ⟨a, m, b, rfl, hm⟩ := occurs_iff.mp h
  exact occurs_iff.mpr ⟨u ++ a, m, b, by simp, hm⟩

theorem replaceFirst_of_not_occurs (h : occurs p s = false) : replaceFirst p rep s = s := by
  induction s with
  | nil => rfl
  | cons c s ih =>
    rw [occurs, Bool.or_eq_false_iff] at h
    have hnone : afterMatch p (c :: s) = none := by simpa using h.1
    rw [replaceFirst, hnone]
    show c :: replaceFirst p rep s = c :: s
    rw [ih h.2]

/-- The match that is replaced is the leftmost one. -/
theorem replaceFirst_of_occurs (rep : Str) (hp : p ≠ []) (h : occurs p s = true) :
    ∃ u m v, s = u ++ m ++ v ∧ Matches p m ∧ replaceFirst p rep s = u ++ rep ++ v ∧
      ∀ u' m' v', s = u' ++ m' ++ v' → Matches p m' → u.length ≤ u'.length := by
  induction s with
  | nil =>
    obtain ⟨u, m, v, hs, hm⟩ := occurs_iff.mp h
    obtain ⟨rfl, rfl, rfl⟩ : u = [] ∧ m = [] ∧ v = [] := by simpa using hs.symm
    cases hm
    exact absurd rfl hp
  | cons c s ih =>
    rw [replaceFirst]
    cases hafter : afterMatch p (c :: s) with
    | some v =>
      obtain ⟨m, hm, hs⟩ := afterMatch_eq_some_iff.mp hafter
      exact ⟨[], m, v, hs, hm, rfl, fun u' _ _ _ _ => Nat.zero_le _⟩
    | none =>
      rw [occurs, hafter] at h
      obtain ⟨u, m, v, rfl, hm, hrep, hleft⟩ := ih h
      refine ⟨c :: u, m, v, rfl, hm, ?_, fun u' m' v' hs hm' => ?_⟩
      · show c :: replaceFirst p rep (u ++ m ++ v) = c :: (u ++ rep ++ v)
        rw [hrep]
      · cases u' with
        | nil => exact absurd hs (afterMatch_eq_none_iff.mp hafter m' v' hm')
        | cons d u' =>
          exact Nat.succ_le_succ (hleft u' m' v' (List.cons.inj hs).2 hm')

/-! ## Patterns that are apart -/

theorem agree_of_append_eq (hm : Matches p m) (hw : Matches q w) (h : m ++ x = w ++ y) :
    agree p q = true := by
  induction hm generalizing q w with
  | nil => rw [agree]
  | @cons a c p m ha hm ih =>
    cases hw with
    | nil => rfl
    | @cons b d q w hb hw =>
      obtain ⟨rfl, htail⟩ := List.cons.inj h
      rw [agree, ih hw htail, Bool.and_true]
      cases a with
      | any => cases b <;> rfl
      | char c =>
        cases b with
        | any => rfl
        | char d => simp_all [accepts, compatible]

/-- A match of `p` does not end inside a match of `q`, nor the other way round. -/
theorem not_straddle (hapart : p.tails.all (fun t => t = [] || !agree t q) = true)
    (hw : Matches p (u ++ v)) (hm : Matches q m) (hv : v ≠ []) (h : v ++ x = m ++ y) : False := by
  have htail : Matches (p.drop u.length) v := by
    have hdrop := List.forall₂_drop u.length hw
    rwa [List.drop_left] at hdrop
  have hne : p.drop u.length ≠ [] := by
    intro hnil
    rw [hnil] at htail
    cases htail
    exact hv rfl
  have hmem : p.drop u.length ∈ p.tails := (List.mem_tails _ _).mpr (List.drop_suffix _ _)
  have hagree := agree_of_append_eq htail hm h
  have := List.all_eq_true.mp hapart _ hmem
  simp [hne, hagree] at this

/-- In a line, a match of one pattern is on the left or on the right of a match of the other one. -/
theorem apart_split (hapart : apart p q = true) (hw : Matches p w) (hm : Matches q m)
    (h : u ++ w ++ v = x ++ m ++ y) :
    (∃ z, x = u ++ w ++ z ∧ v = z ++ m ++ y) ∨ (∃ z, u = x ++ m ++ z ∧ y = z ++ w ++ v) := by
  rw [apart, Bool.and_eq_true] at hapart
  rw [List.append_assoc, List.append_assoc] at h
  rcases List.append_eq_append_iff.mp h with ⟨a, rfl, ha⟩ | ⟨a, rfl, ha⟩
  · rcases List.append_eq_append_iff.mp ha with ⟨b, rfl, hb⟩ | ⟨b, rfl, hb⟩
    · exact Or.inl ⟨b, by simp, by simpa using hb⟩
    · by_cases hnil : b = []
      · subst hnil
        exact Or.inl ⟨[], by simp, by simpa using hb.symm⟩
      · exact absurd hb.symm (fun h => not_straddle hapart.1 hw hm hnil h)
  · rcases List.append_eq_append_iff.mp ha with ⟨b, rfl, hb⟩ | ⟨b, rfl, hb⟩
    · exact Or.inr ⟨b, by simp, by simpa using hb⟩
    · by_cases hnil : b = []
      · subst hnil
        exact Or.inr ⟨[], by simp, by simpa using hb.symm⟩
      · exact absurd hb.symm (fun h => not_straddle hapart.2 hm hw hnil h)

theorem matches_literal (s : Str) : Matches (literal s) s := by
  induction s with
  | nil => exact .nil
  | cons c s ih => exact .cons (by simp [accepts]) ih

/-- A text is a match of itself as an expression. -/
theorem occurs_regex {l : Str} (h : s <:+: l) : occurs (regex s) l = true := by
  have hself : Matches (regex s) s := by
    induction s with
    | nil => exact .nil
    | cons c s ih =>
      refine .cons ?_ (ih ((List.suffix_cons c s).isInfix.trans h))
      by_cases hc : c = '.' <;> simp [hc, accepts]
  obtain ⟨u, v, rfl⟩ := h
  exact occurs_of_split hself

/-- Around a text that is apart from the pattern, the pattern occurs on one of the two sides. -/
theorem occurs_around (hapart : apart p (literal rep) = true) :
    occurs p (u ++ rep ++ v) = true ↔ occurs p u = true ∨ occurs p v = true := by
  constructor
  · intro h
    obtain ⟨a, w, b, hs, hw⟩ := occurs_iff.mp h
    rcases apart_split hapart hw (matches_literal rep) hs.symm with ⟨z, rfl, -⟩ | ⟨z, -, rfl⟩
    · exact Or.inl (occurs_of_split hw)
    · exact Or.inr (occurs_of_split hw)
  · rintro (h | h)
    · rw [List.append_assoc]
      exact occurs_append_left h
    · exact occurs_append_right h

/-- A substitution neither adds nor removes matches of a pattern that is apart from its own pattern
and from the text it inserts. -/
theorem occurs_replaceFirst (hp : p ≠ []) (hpattern : apart q p = true)
    (hrep : apart q (literal rep) = true) : occurs q (replaceFirst p rep s) = occurs q s := by
  cases hoccurs : occurs p s with
  | false => rw [replaceFirst_of_not_occurs hoccurs]
  | true =>
    obtain ⟨u, m, v, rfl, hm, heq, -⟩ := replaceFirst_of_occurs rep hp hoccurs
    rw [heq, Bool.eq_iff_iff, occurs_around hrep]
    constructor
    · rintro (h | h)
      · rw [List.append_assoc]
        exact occurs_append_left h
      · exact occurs_append_right h
    · intro h
      obtain ⟨a, w, b, hs, hw⟩ := occurs_iff.mp h
      rcases apart_split hpattern hw hm hs.symm with ⟨z, rfl, -⟩ | ⟨z, -, rfl⟩
      · exact Or.inl (occurs_of_split hw)
      · exact Or.inr (occurs_of_split hw)

theorem Twice.occurs (h : Twice p s) : occurs p s = true := by
  obtain ⟨u, m, v, w, x, rfl, hm, -⟩ := h
  rw [List.append_assoc, List.append_assoc (u ++ m)]
  exact occurs_of_split hm

/-- A substitution whose text is apart from its pattern changes nothing the second time exactly for
the lines without two matches. -/
theorem replaceFirst_idem_iff (hp : p ≠ []) (hapart : apart p (literal rep) = true) :
    replaceFirst p rep (replaceFirst p rep s) = replaceFirst p rep s ↔ ¬ Twice p s := by
  cases hoccurs : occurs p s with
  | false =>
    rw [replaceFirst_of_not_occurs hoccurs, replaceFirst_of_not_occurs hoccurs]
    refine iff_of_true rfl fun htwice => ?_
    rw [htwice.occurs] at hoccurs
    exact absurd hoccurs (by simp)
  | true =>
    obtain ⟨u, m, v, rfl, hm, heq, hleft⟩ := replaceFirst_of_occurs rep hp hoccurs
    have hu : occurs p u = false := by
      rw [← Bool.not_eq_true]
      intro h
      obtain ⟨a, w, b, rfl, hw⟩ := occurs_iff.mp h
      have hle := hleft a w (b ++ m ++ v) (by simp) hw
      have hlen : 0 < w.length := by
        rw [hw.length_eq]
        exact List.length_pos_iff.mpr hp
      simp only [List.length_append] at hle
      omega
    have htwice : Twice p (u ++ m ++ v) ↔ occurs p v = true := by
      constructor
      · rintro ⟨a, w, b, w', c, hs, hw, hw'⟩
        have hle := hleft a w (b ++ w' ++ c) (by simp [hs]) hw
        have hline : (w' ++ c) <:+ u ++ m ++ v := ⟨a ++ w ++ b, by simp [hs]⟩
        have hlen : (w' ++ c).length ≤ v.length := by
          have hlen := congrArg List.length hs
          simp only [List.length_append, hm.length_eq, hw.length_eq] at hlen ⊢
          omega
        have hsuffix : (w' ++ c) <:+ v :=
          List.suffix_of_suffix_length_le hline (List.suffix_append ..) hlen
        obtain ⟨d, rfl⟩ := hsuffix
        rw [← List.append_assoc]
        exact occurs_of_split hw'
      · intro h
        obtain ⟨b, w', c, rfl, hw'⟩ := occurs_iff.mp h
        exact ⟨u, m, b, w', c, by simp, hm, hw'⟩
    rw [heq, htwice]
    cases hv : occurs p v with
    | false =>
      have hnot : occurs p (u ++ rep ++ v) = false := by
        rw [← Bool.not_eq_true, occurs_around hapart]
        simp [hu, hv]
      exact iff_of_true (replaceFirst_of_not_occurs hnot) Bool.false_ne_true
    | true =>
      have hagain : occurs p (u ++ rep ++ v) = true := (occurs_around hapart).mpr (Or.inr hv)
      obtain ⟨a, w, b, hs, hw, heq', -⟩ := replaceFirst_of_occurs rep hp hagain
      refine iff_of_false (fun hsame => ?_) (by simp)
      -- the text inserted would have to be a match itself
      rw [heq', hs] at hsame
      have hrep : rep = w := by simpa using hsame
      subst hrep
      have hagree := agree_of_append_eq (x := []) (y := []) hw (matches_literal rep) rfl
      rw [apart, Bool.and_eq_true] at hapart
      have := List.all_eq_true.mp hapart.1 p ((List.mem_tails _ _).mpr List.suffix_rfl)
      simp [hp, hagree] at this

end Pat
