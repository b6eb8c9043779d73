import LuckfoxPico.Html.References
import LuckfoxPico.Text.Proofs.StrProofs

/-!
# Proofs: character references

A reference makes the text that is shown shorter, so that only a text without references is shown as
it is.
-/

namespace Html.References

variable {refs : References} {c : Char} {s u : Str}

theorem decodeFrom_drop (refs : References) (k : Nat) (s : Str) :
    refs.decodeFrom k s = refs.decode (s.drop k) := by
  induction k generalizing s with
  | zero => rfl
  | succ k ih =>
    cases s with
    | nil => rfl
    | cons c s => exact ih s

theorem decode_cons_of_ne (hc : c ≠ '&') (s : Str) : refs.decode (c :: s) = c :: refs.decode s := by
  rw [decode, decodeFrom, if_neg hc]
  rfl

theorem decode_amp_of_none (h : refs.reference s = none) :
    refs.decode ('&' :: s) = '&' :: refs.decode s := by
  rw [decode, decodeFrom, if_pos rfl, h]
  rfl

theorem decode_amp_of_some {r : Str} {n : Nat} (h : refs.reference s = some (r, n)) :
    refs.decode ('&' :: s) = r ++ refs.decode (s.drop n) := by
  rw [decode, decodeFrom, if_pos rfl, h]
  exact congrArg (r ++ ·) (decodeFrom_drop refs n s)

theorem decode_append_of_not_mem (hu : '&' ∉ u) (s : Str) :
    refs.decode (u ++ s) = u ++ refs.decode s := by
  induction u with
  | nil => rfl
  | cons c u ih =>
    obtain ⟨hc, hu⟩ := List.ne_and_not_mem_of_not_mem_cons hu
    rw [List.cons_append, decode_cons_of_ne (Ne.symm hc), ih hu, List.cons_append]

theorem decode_of_not_mem (hs : '&' ∉ s) : refs.decode s = s := by
  have h : refs.decode (s ++ []) = s ++ refs.decode [] := decode_append_of_not_mem hs []
  rw [List.append_nil] at h
  exact h.trans (List.append_nil s)

theorem length_decode_le (refs : References) (s : Str) : (refs.decode s).length ≤ s.length := by
  induction hn : s.length using Nat.strong_induction_on generalizing s with
  | _ n ih =>
    cases s with
    | nil => exact Nat.zero_le _
    | cons c s =>
      rw [List.length_cons] at hn
      by_cases hc : c = '&'
      · subst hc
        cases href : refs.reference s with
        | none =>
          have hle := ih s.length (by omega) s rfl
          rw [decode_amp_of_none href, List.length_cons]
          omega
        | some entry =>
          obtain ⟨r, k⟩ := entry
          have hwithin := refs.within s r k href
          have hshorter := refs.shorter s r k href
          have hle := ih (s.drop k).length (by rw [List.length_drop]; omega) (s.drop k) rfl
          rw [List.length_drop] at hle
          rw [decode_amp_of_some href, List.length_append]
          omega
      · have hle := ih s.length (by omega) s rfl
        rw [decode_cons_of_ne hc, List.length_cons]
        omega

theorem noReference_cons : refs.NoReference (c :: s) ↔
    (c = '&' → refs.reference s = none) ∧ refs.NoReference s := Str.forall_split_cons

/-- A text is shown as it is exactly when it has no reference. -/
theorem decode_eq_self_iff : refs.decode s = s ↔ refs.NoReference s := by
  induction s with
  | nil => exact ⟨fun _ u v h => absurd h (by simp), fun _ => rfl⟩
  | cons c s ih =>
    rw [noReference_cons]
    by_cases hc : c = '&'
    · subst hc
      cases href : refs.reference s with
      | none =>
        rw [decode_amp_of_none href, List.cons.injEq, ih]
        exact ⟨fun h => ⟨fun _ => rfl, h.2⟩, fun h => ⟨rfl, h.2⟩⟩
      | some entry =>
        obtain ⟨r, k⟩ := entry
        constructor
        · intro h
          have hwithin := refs.within s r k href
          have hshorter := refs.shorter s r k href
          have hle := length_decode_le refs (s.drop k)
          have hlength := congrArg List.length h
          rw [decode_amp_of_some href, List.length_append, List.length_cons] at hlength
          rw [List.length_drop] at hle
          omega
        · rintro ⟨hnone, -⟩
          exact absurd (hnone rfl) (by simp)
    · rw [decode_cons_of_ne hc, List.cons.injEq, ih]
      exact ⟨fun h => ⟨fun heq => absurd heq hc, h.2⟩, fun h => ⟨rfl, h.2⟩⟩

end Html.References
