import LuckfoxPico.Text.Str

/-!
# Replacing tokens in a text

`replaceAll` replaces the occurrences of one token from left to right, as sed does with the flag
`g`. `replaceTokens` replaces the tokens of a table all at once: what it has inserted is not looked
at again.

A text without the first character of the tokens, and a text without a token, is passed over; a
token is replaced and the scan goes on behind it.
-/

namespace Str

section Definitions

/-- `skip` characters belong to a token that has been replaced. -/
def replaceAllFrom (tok rep : Str) : (skip : Nat) → Str → Str
  | _, [] => []
  | skip + 1, _ :: s => replaceAllFrom tok rep skip s
  | 0, c :: s =>
    if tok.isPrefixOf (c :: s) then rep ++ replaceAllFrom tok rep (tok.length - 1) s
    else c :: replaceAllFrom tok rep 0 s

/-- `s/tok/rep/g` for a token without special characters. -/
def replaceAll (tok rep : Str) (s : Str) : Str := replaceAllFrom tok rep 0 s

/-- `skip` characters belong to a token that has been replaced. -/
def replaceTokensFrom (table : List (Str × Str)) : (skip : Nat) → Str → Str
  | _, [] => []
  | skip + 1, _ :: s => replaceTokensFrom table skip s
  | 0, c :: s =>
    match table.find? fun entry => entry.1.isPrefixOf (c :: s) with
    | some (tok, rep) => rep ++ replaceTokensFrom table (tok.length - 1) s
    | none => c :: replaceTokensFrom table 0 s

/-- Every token of the table is replaced by its value. -/
def replaceTokens (table : List (Str × Str)) (s : Str) : Str := replaceTokensFrom table 0 s

end Definitions

/-! ## Passing over -/

variable {tok rep s t : Str} {c : Char} {table : List (Str × Str)}

/-! ## One token -/

theorem replaceAllFrom_drop (tok rep : Str) (k : Nat) (s : Str) :
    replaceAllFrom tok rep k s = replaceAllFrom tok rep 0 (s.drop k) := by
  induction k generalizing s with
  | zero => rfl
  | succ k ih =>
    cases s with
    | nil => rfl
    | cons c s => exact ih s

theorem replaceAll_cons_of_not_start (h : ¬ tok <+: c :: s) :
    replaceAll tok rep (c :: s) = c :: replaceAll tok rep s := by
  rw [replaceAll, replaceAllFrom, if_neg (by rwa [List.isPrefixOf_iff_prefix])]
  rfl

/-- A token at the start is replaced, and the text behind it is scanned. -/
theorem replaceAll_append (hne : tok ≠ []) (s : Str) :
    replaceAll tok rep (tok ++ s) = rep ++ replaceAll tok rep s := by
  cases tok with
  | nil => exact absurd rfl hne
  | cons c tok =>
    have hstart : (c :: tok).isPrefixOf (c :: (tok ++ s)) = true :=
      List.isPrefixOf_iff_prefix.mpr (List.prefix_append (c :: tok) s)
    rw [List.cons_append, replaceAll, replaceAllFrom, if_pos hstart, replaceAllFrom_drop,
      List.length_cons, Nat.add_sub_cancel, List.drop_left]
    rfl

/-- A text without the token's first character is passed over. -/
theorem replaceAll_append_of_head_not_mem (h : ∀ d ∈ tok.head?, d ∉ t) (hne : tok ≠ []) (s : Str) :
    replaceAll tok rep (t ++ s) = t ++ replaceAll tok rep s := by
  induction t with
  | nil => rfl
  | cons c t ih =>
    have hnot : ¬ tok <+: c :: (t ++ s) := by
      intro hstart
      cases tok with
      | nil => exact hne rfl
      | cons d tok =>
        obtain ⟨rfl, -⟩ := List.cons_prefix_cons.mp hstart
        exact h d rfl (List.mem_cons_self ..)
    rw [List.cons_append, replaceAll_cons_of_not_start hnot,
      ih fun d hd hmem => h d hd (List.mem_cons_of_mem _ hmem), List.cons_append]

theorem replaceAll_of_no_token (h : ¬ tok <:+: s) : replaceAll tok rep s = s := by
  induction s with
  | nil => rfl
  | cons c s ih =>
    have hnot : ¬ tok <+: c :: s := fun hstart => h hstart.isInfix
    rw [replaceAll_cons_of_not_start hnot,
      ih fun hpart => h (hpart.trans (List.suffix_cons ..).isInfix)]

/-- A character that no token holds can be put behind a text. -/
theorem replaceAll_concat (hc : c ∉ tok) (hne : tok ≠ []) (s : Str) :
    replaceAll tok rep (s ++ [c]) = replaceAll tok rep s ++ [c] := by
  have hstart : ∀ s : Str, tok <+: s ++ [c] ↔ tok <+: s := by
    intro s
    rw [List.prefix_concat_iff]
    constructor
    · rintro (h | h)
      · exact absurd (by simp [h]) hc
      · exact h
    · exact Or.inr
  induction hn : s.length using Nat.strong_induction_on generalizing s with
  | _ n ih =>
    by_cases htok : tok <+: s
    · obtain ⟨t, rfl⟩ := htok
      have hlt : t.length < n := by
        have hpos := List.length_pos_iff.mpr hne
        rw [List.length_append] at hn
        omega
      rw [List.append_assoc, replaceAll_append hne, ih _ hlt t rfl, replaceAll_append hne,
        List.append_assoc]
    · cases s with
      | nil =>
        have hnot : ¬ tok <+: [c] := (hstart []).not.mpr htok
        rw [List.nil_append, replaceAll_cons_of_not_start hnot]
        rfl
      | cons d s =>
        have hnot : ¬ tok <+: d :: (s ++ [c]) := (hstart (d :: s)).not.mpr htok
        rw [List.cons_append, replaceAll_cons_of_not_start hnot, replaceAll_cons_of_not_start htok,
          ih s.length (by rw [← hn]; simp) s rfl, List.cons_append]

/-- A replacement without a character does not bring it into the text. -/
theorem count_replaceAll_le (hc : c ∉ rep) (s : Str) :
    (replaceAll tok rep s).count c ≤ s.count c := by
  have hfrom : ∀ (s : Str) (k : Nat), (replaceAllFrom tok rep k s).count c ≤ s.count c := by
    intro s
    induction s with
    | nil => exact fun k => by cases k <;> simp [replaceAllFrom]
    | cons d s ih =>
      intro k
      have hcons : s.count c ≤ (d :: s).count c := (List.sublist_cons_self d s).count_le c
      cases k with
      | succ k => exact (ih k).trans hcons
      | zero =>
        rw [replaceAllFrom]
        split
        · rw [List.count_append, List.count_eq_zero.mpr hc, Nat.zero_add]
          exact (ih _).trans hcons
        · rw [List.count_cons, List.count_cons]
          exact Nat.add_le_add_right (ih 0) _
  exact hfrom s 0

/-- The first occurrence of the token. -/
theorem exists_replaceAll_eq (rep : Str) (hne : tok ≠ []) (h : tok <:+: s) :
    ∃ u w, s = u ++ (tok ++ w) ∧ replaceAll tok rep s = u ++ (rep ++ replaceAll tok rep w) := by
  induction s with
  | nil => exact absurd (List.infix_nil.mp h) hne
  | cons c s ih =>
    by_cases htok : tok <+: c :: s
    · obtain ⟨w, hw⟩ := htok
      refine ⟨[], w, hw.symm, ?_⟩
      rw [← hw, replaceAll_append hne, List.nil_append]
    · obtain ⟨u, w, hs, hrep⟩ := ih ((List.infix_cons_iff.mp h).resolve_left htok)
      refine ⟨c :: u, w, by rw [hs, List.cons_append], ?_⟩
      rw [replaceAll_cons_of_not_start htok, hrep, List.cons_append]

/-- The length changes by the same amount for each of `k` occurrences. -/
theorem length_replaceAll (rep : Str) (hne : tok ≠ []) (s : Str) : ∃ k,
    (replaceAll tok rep s).length + k * tok.length = s.length + k * rep.length := by
  induction hn : s.length using Nat.strong_induction_on generalizing s with
  | _ n ih =>
    by_cases h : tok <:+: s
    · obtain ⟨u, w, hs, hrep⟩ := exists_replaceAll_eq rep hne h
      have hlength : n = u.length + (tok.length + w.length) := by
        rw [← hn, hs, List.length_append, List.length_append]
      have hpos := List.length_pos_iff.mpr hne
      obtain ⟨k, hk⟩ := ih w.length (by omega) w rfl
      refine ⟨k + 1, ?_⟩
      rw [hrep, List.length_append, List.length_append, Nat.add_mul, Nat.add_mul]
      omega
    · refine ⟨0, ?_⟩
      rw [replaceAll_of_no_token h]
      omega

theorem replaceAll_self (hne : tok ≠ []) (s : Str) : replaceAll tok tok s = s := by
  induction hn : s.length using Nat.strong_induction_on generalizing s with
  | _ n ih =>
    by_cases h : tok <:+: s
    · obtain ⟨u, w, hs, hrep⟩ := exists_replaceAll_eq tok hne h
      have hlt : w.length < n := by
        have hpos := List.length_pos_iff.mpr hne
        rw [← hn, hs, List.length_append, List.length_append]
        omega
      rw [hrep, ih _ hlt w rfl, hs]
    · exact replaceAll_of_no_token h

/-- A text with the token is changed by every other replacement. -/
theorem replaceAll_eq_self_iff (hne : tok ≠ []) :
    replaceAll tok rep s = s ↔ (tok <:+: s → rep = tok) := by
  constructor
  · intro heq h
    obtain ⟨u, w, hs, hrep⟩ := exists_replaceAll_eq rep hne h
    have hrest : rep ++ replaceAll tok rep w = tok ++ w := by
      rw [heq, hs] at hrep
      exact (List.append_cancel_left hrep).symm
    obtain ⟨k, hk⟩ := length_replaceAll rep hne w
    have hlength : rep.length = tok.length := by
      have hsum := congrArg List.length hrest
      rw [List.length_append, List.length_append] at hsum
      have hmul : (k + 1) * rep.length = (k + 1) * tok.length := by
        rw [Nat.add_mul, Nat.add_mul]
        omega
      exact Nat.eq_of_mul_eq_mul_left (Nat.succ_pos k) hmul
    exact (List.append_inj hrest hlength).1
  · intro h
    by_cases htok : tok <:+: s
    · rw [h htok, replaceAll_self hne]
    · exact replaceAll_of_no_token htok

/-! ## A table of tokens -/

theorem replaceTokensFrom_drop (table : List (Str × Str)) (k : Nat) (s : Str) :
    replaceTokensFrom table k s = replaceTokensFrom table 0 (s.drop k) := by
  induction k generalizing s with
  | zero => rfl
  | succ k ih =>
    cases s with
    | nil => rfl
    | cons c s => exact ih s

theorem replaceTokens_cons_of_not_start (h : ∀ entry ∈ table, ¬ entry.1 <+: c :: s) :
    replaceTokens table (c :: s) = c :: replaceTokens table s := by
  have hnone : (table.find? fun entry => entry.1.isPrefixOf (c :: s)) = none :=
    List.find?_eq_none.mpr fun entry hentry => by
      rw [List.isPrefixOf_iff_prefix]
      exact h entry hentry
  rw [replaceTokens, replaceTokensFrom, hnone]
  rfl

theorem replaceTokens_append_of_head_not_mem
    (h : ∀ entry ∈ table, ∃ d, entry.1.head? = some d ∧ d ∉ t) (s : Str) :
    replaceTokens table (t ++ s) = t ++ replaceTokens table s := by
  induction t with
  | nil => rfl
  | cons c t ih =>
    have hnot : ∀ entry ∈ table, ¬ entry.1 <+: c :: (t ++ s) := by
      intro entry hentry hstart
      obtain ⟨d, hd, hmem⟩ := h entry hentry
      obtain ⟨e, tok, heq⟩ := List.exists_cons_of_ne_nil
        (fun hnil : entry.1 = [] => by simp [hnil] at hd)
      rw [heq] at hd hstart
      obtain ⟨rfl, -⟩ := List.cons_prefix_cons.mp hstart
      obtain rfl := Option.some.inj hd
      exact hmem (List.mem_cons_self ..)
    rw [List.cons_append, replaceTokens_cons_of_not_start hnot, ih, List.cons_append]
    intro entry hentry
    obtain ⟨d, hd, hmem⟩ := h entry hentry
    exact ⟨d, hd, fun h => hmem (List.mem_cons_of_mem _ h)⟩

theorem replaceTokens_of_no_token (h : ∀ entry ∈ table, ¬ entry.1 <:+: s) :
    replaceTokens table s = s := by
  induction s with
  | nil => rfl
  | cons c s ih =>
    rw [replaceTokens_cons_of_not_start fun entry hentry hstart => h entry hentry hstart.isInfix,
      ih fun entry hentry hpart => h entry hentry (hpart.trans (List.suffix_cons ..).isInfix)]

/-- The token at the start is replaced if it is the first one of the table that stands there. -/
theorem replaceTokens_append (hne : tok ≠ [])
    (hfind : (table.find? fun entry => entry.1.isPrefixOf (tok ++ s)) = some (tok, rep)) :
    replaceTokens table (tok ++ s) = rep ++ replaceTokens table s := by
  cases tok with
  | nil => exact absurd rfl hne
  | cons c tok =>
    rw [List.cons_append] at hfind ⊢
    rw [replaceTokens, replaceTokensFrom, hfind]
    show rep ++ replaceTokensFrom table ((c :: tok).length - 1) (tok ++ s) = _
    rw [replaceTokensFrom_drop, List.length_cons, Nat.add_sub_cancel, List.drop_left]
    rfl

end Str
