import Mathlib.Logic.Function.Iterate
import LuckfoxPico.Text.Str
import LuckfoxPico.Text.Proofs.StrProofs

/-!
# Fields of a line

A line is a sequence of fields, the maximal runs of characters that are not separators. A field is
given by the text from its first character on, so that it is known by its place in the line and not
only by its content.
-/

namespace Fields

section Definitions

variable (sep : Char → Bool)

/-- Skip the rest of a field and the separators behind it. -/
def skipField (s : Str) : Str := (s.dropWhile fun c => !sep c).dropWhile sep

/-- The text from the field number `k` on, counted from zero; empty if there are fewer fields. -/
def fieldFrom (k : Nat) (s : Str) : Str := (skipField sep)^[k] (s.dropWhile sep)

/-- The field number `k`; empty if there are fewer fields. -/
def field (k : Nat) (s : Str) : Str := (fieldFrom sep k s).takeWhile fun c => !sep c

end Definitions

/-! ## Skipping fields -/

variable {sep sep' : Char → Bool} {s w : Str}

theorem skipField_length_le (s : Str) : (skipField sep s).length ≤ s.length :=
  (List.length_dropWhile_le ..).trans (List.length_dropWhile_le ..)

/-- A text that starts with a field is longer than what is left when the field is skipped. -/
theorem skipField_length_lt {c : Char} {cs : Str} (hc : sep c = false) :
    (skipField sep (c :: cs)).length < (c :: cs).length := by
  have hskip : skipField sep (c :: cs) = skipField sep cs := by simp [skipField, hc]
  have hle : (skipField sep cs).length ≤ cs.length := skipField_length_le cs
  rw [hskip, List.length_cons]
  omega

theorem fieldFrom_succ (k : Nat) : fieldFrom sep (k + 1) s = skipField sep (fieldFrom sep k s) :=
  Function.iterate_succ_apply' ..

/-- The place of a field is not at a separator. -/
theorem fieldFrom_head {k : Nat} {c : Char} {cs : Str} (h : fieldFrom sep k s = c :: cs) :
    sep c = false := by
  have hdrop : ∃ t : Str, fieldFrom sep k s = t.dropWhile sep := by
    cases k with
    | zero => exact ⟨s, rfl⟩
    | succ k => exact ⟨_, fieldFrom_succ k⟩
  obtain ⟨t, ht⟩ := hdrop
  have hne : t.dropWhile sep ≠ [] := by rw [← ht, h]; simp
  have hhead := List.head_dropWhile_not sep hne
  simpa only [← ht, h, List.head_cons, Bool.not_eq_true] using hhead

/-- The next field is at another place, unless there is none. -/
theorem fieldFrom_succ_eq_iff {k : Nat} :
    fieldFrom sep k s = fieldFrom sep (k + 1) s ↔ fieldFrom sep k s = [] := by
  rw [fieldFrom_succ]
  constructor
  · intro h
    cases hfield : fieldFrom sep k s with
    | nil => rfl
    | cons c cs =>
      rw [hfield] at h
      have hlt : (skipField sep (c :: cs)).length < (c :: cs).length :=
        skipField_length_lt (fieldFrom_head hfield)
      rw [← h] at hlt
      exact absurd hlt (lt_irrefl _)
  · intro h
    rw [h]
    rfl

/-- Only the separators that occur in the line matter. -/
theorem fieldFrom_congr (h : ∀ c ∈ s, sep c = sep' c) (k : Nat) :
    fieldFrom sep k s = fieldFrom sep' k s ∧ ∀ c ∈ fieldFrom sep k s, c ∈ s := by
  have hdrop : ∀ t : Str, (∀ c ∈ t, c ∈ s) → t.dropWhile sep = t.dropWhile sep' ∧
      (t.dropWhile fun c => !sep c) = t.dropWhile fun c => !sep' c := by
    intro t ht
    induction t with
    | nil => exact ⟨rfl, rfl⟩
    | cons c cs ih =>
      have hc := h c (ht c (List.mem_cons_self ..))
      have hcs := ih fun d hd => ht d (List.mem_cons_of_mem _ hd)
      rw [List.dropWhile_cons, List.dropWhile_cons, List.dropWhile_cons, List.dropWhile_cons, hc,
        hcs.1, hcs.2]
      exact ⟨rfl, rfl⟩
  have hsub : ∀ (p : Char → Bool) (t : Str), ∀ c ∈ t.dropWhile p, c ∈ t :=
    fun p t c hc => (List.dropWhile_sublist p).subset hc
  induction k with
  | zero => exact ⟨(hdrop s fun _ hc => hc).1, hsub sep s⟩
  | succ k ih =>
    obtain ⟨heq, hmem⟩ := ih
    rw [fieldFrom_succ, fieldFrom_succ, ← heq]
    have hfirst := hdrop (fieldFrom sep k s) hmem
    have hmem' : ∀ c ∈ (fieldFrom sep k s).dropWhile (fun c => !sep c), c ∈ s :=
      fun c hc => hmem c (hsub _ _ c hc)
    refine ⟨?_, fun c hc => hmem' c (hsub _ _ c hc)⟩
    rw [skipField, skipField, ← hfirst.2, (hdrop _ hmem').1]

theorem field_congr (h : ∀ c ∈ s, sep c = sep' c) (k : Nat) :
    field sep k s = field sep' k s := by
  obtain ⟨heq, hmem⟩ := fieldFrom_congr h k
  have htake : ∀ t : Str, (∀ c ∈ t, c ∈ s) →
      (t.takeWhile fun c => !sep c) = t.takeWhile fun c => !sep' c := by
    intro t ht
    induction t with
    | nil => rfl
    | cons c cs ih =>
      rw [List.takeWhile_cons, List.takeWhile_cons, h c (ht c (List.mem_cons_self ..)),
        ih fun d hd => ht d (List.mem_cons_of_mem _ hd)]
  rw [field, field, ← heq, htake _ hmem]

/-- Skipping fields from the start of the line counts the blank before an indented first field as
one more field. -/
theorem iterate_skipField (k : Nat) :
    (skipField sep)^[k + 1] s = fieldFrom sep (if s.head?.any sep then k else k + 1) s := by
  cases s with
  | nil => simp [fieldFrom, Function.iterate_succ_apply, skipField]
  | cons c cs =>
    rw [List.head?_cons, Option.any_some]
    cases hc : sep c with
    | false =>
      have hdrop : (c :: cs).dropWhile sep = c :: cs := by simp [hc]
      rw [if_neg Bool.false_ne_true, fieldFrom, hdrop]
    | true =>
      have hskip : skipField sep (c :: cs) = (c :: cs).dropWhile sep := by simp [skipField, hc]
      rw [if_pos rfl, Function.iterate_succ_apply, hskip, fieldFrom]

theorem not_mem_field {c : Char} (hc : sep c = true) (k : Nat) : c ∉ field sep k s := by
  intro hmem
  unfold field at hmem
  have hkept := List.mem_takeWhile_imp hmem
  rw [hc] at hkept
  exact absurd hkept (by decide)

/-- A line without separators is its first field. -/
theorem field_eq_self (h : ∀ c ∈ s, sep c = false) : field sep 0 s = s := by
  have hdrop : fieldFrom sep 0 s = s := by
    cases s with
    | nil => rfl
    | cons c s =>
      show (c :: s).dropWhile sep = c :: s
      rw [List.dropWhile_cons, h c List.mem_cons_self, if_neg Bool.false_ne_true]
  rw [field, hdrop, List.takeWhile_eq_self_iff]
  intro c hc
  rw [h c hc]
  rfl

theorem field_zero_sublist : (field sep 0 s).Sublist s :=
  (List.takeWhile_sublist _).trans (List.dropWhile_sublist _)

/-- What a field starts with can be read off the text from it on. -/
theorem takeWhile_append_of_forall (hw : ∀ c ∈ w, sep c = false) (t : Str) :
    ((w ++ t).takeWhile fun c => !sep c) = w ++ t.takeWhile fun c => !sep c :=
  List.takeWhile_append_of_pos fun c hc => by simp [hw c hc]

theorem isPrefix_takeWhile_iff (hw : ∀ c ∈ w, sep c = false) :
    (w <+: s.takeWhile fun c => !sep c) ↔ w <+: s := by
  constructor
  · intro h
    exact h.trans (List.takeWhile_prefix _)
  · rintro ⟨t, rfl⟩
    rw [takeWhile_append_of_forall hw]
    exact List.prefix_append ..

end Fields
