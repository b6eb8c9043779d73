import LuckfoxPico.Text.Str

/-!
# Proofs: strings as lists of characters
-/

namespace Str

theorem count_cons (a c : Char) (s : Str) : (c :: s).count a = [c].count a + s.count a := by
  rw [← List.singleton_append, List.count_append]

/-- The characters of a string literal, without reading its bytes. -/
theorem not_mem_toList {c : Char} {s : String} {l : Str} (hs : s = String.ofList l) (h : c ∉ l) :
    c ∉ s.toList := by
  subst hs
  rwa [String.toList_ofList]

/-- A line that fits the buffer is read as a whole. -/
theorem fgetsAux_line {l : Str} {n : Nat} (rest : Str) (hl : '\n' ∉ l) (hn : l.length < n) :
    fgetsAux n (l ++ '\n' :: rest) = (l ++ ['\n'], rest) := by
  induction l generalizing n with
  | nil =>
    cases n with
    | zero => exact absurd hn (by simp)
    | succ n => simp [fgetsAux]
  | cons c cs ih =>
    cases n with
    | zero => exact absurd hn (by simp)
    | succ n =>
      have hc : c ≠ '\n' := fun h => hl (by simp [h])
      have hcs := ih (n := n) (fun h => hl (List.mem_cons_of_mem _ h)) (by simpa using hn)
      simp [fgetsAux, hc, hcs]

theorem fgets_line {l : Str} {size : Nat} (rest : Str) (hl : '\n' ∉ l) (hn : l.length + 1 < size) :
    fgets size (l ++ '\n' :: rest) = (l ++ ['\n'], rest) :=
  fgetsAux_line rest hl (by omega)

theorem snprintf_of_lt {s : Str} {size : Nat} (h : s.length < size) : snprintf size s = s :=
  List.take_of_length_le (by omega)

/-- The last line, if it is not empty, stays with the lines above it. -/
theorem substitution_append {s l : Str} (hl : '\n' ∉ l) (hne : l ≠ []) :
    substitution (s ++ (l ++ ['\n'])) = s ++ l := by
  rw [substitution, ← List.append_assoc, List.rdropWhile_concat_pos _ _ _ (by simp)]
  cases l using List.reverseRecOn with
  | nil => exact absurd rfl hne
  | append_singleton l c =>
    have hc : c ≠ '\n' := fun h => hl (by simp [h])
    rw [← List.append_assoc]
    exact List.rdropWhile_concat_neg _ _ _ (by simpa using hc)

theorem substitution_line {l : Str} (hl : '\n' ∉ l) : substitution (l ++ ['\n']) = l := by
  by_cases hnil : l = []
  · subst hnil
    rfl
  · exact substitution_append (s := []) hl hnil

/-- A text without a separator stands on one side of it. -/
theorem infix_append_cons {w s t : Str} {c : Char} (hw : c ∉ w) (h : w <:+: s ++ c :: t) :
    w <:+: s ∨ w <:+: t := by
  obtain ⟨p, q, h⟩ := h
  rcases List.append_eq_append_iff.mp h with ⟨a, rfl, -⟩ | ⟨a, hleft, hright⟩
  · exact Or.inl ⟨p, a, by simp⟩
  · cases a with
    | nil =>
      rw [List.append_nil] at hleft
      exact Or.inl ⟨p, [], by simpa using hleft⟩
    | cons d a =>
      obtain ⟨rfl, rfl⟩ := List.cons.inj hright
      rcases List.append_eq_append_iff.mp hleft with ⟨b, -, rfl⟩ | ⟨b, rfl, hb⟩
      · exact absurd (by simp) hw
      · cases b with
        | nil =>
          rw [List.nil_append] at hb
          rw [← hb] at hw
          exact absurd (List.mem_cons_self ..) hw
        | cons e b =>
          obtain ⟨rfl, rfl⟩ := List.cons.inj hb
          exact Or.inr ⟨b, q, by simp⟩

theorem infix_append_cons_iff {w s t : Str} {c : Char} (hw : c ∉ w) :
    w <:+: s ++ c :: t ↔ w <:+: s ∨ w <:+: t := by
  constructor
  · exact infix_append_cons hw
  · rintro (⟨p, q, rfl⟩ | ⟨p, q, rfl⟩)
    · exact ⟨p, q ++ c :: t, by simp⟩
    · exact ⟨s ++ c :: p, q, by simp⟩

/-- A text without newlines occurs in a line if and only if it occurs before the newline. -/
theorem infix_concat_newline {m l : Str} (hm : '\n' ∉ m) : m <:+: l ++ ['\n'] ↔ m <:+: l := by
  rw [infix_append_cons_iff hm]
  constructor
  · rintro (h | h)
    · exact h
    · rw [List.infix_nil.mp h]
      exact List.nil_infix
  · exact Or.inl

/-! ## The lines of a stream -/

theorem rawLines_eq_nil {s : Str} (h : rawLines s = []) : s = [] := by
  cases s with
  | nil => rfl
  | cons c cs =>
    rw [rawLines] at h
    split at h
    · exact absurd h (by simp)
    · split at h <;> exact absurd h (by simp)

/-- A line that starts with a newline is empty; any other line goes on with the line behind it. -/
theorem rawLines_cons_cases {c : Char} {cs l : Str} {ls : List Str}
    (h : rawLines (c :: cs) = l :: ls) :
    (c = '\n' ∧ l = ['\n'] ∧ rawLines cs = ls) ∨
    (c ≠ '\n' ∧ l = [c] ∧ cs = [] ∧ ls = []) ∨
    (c ≠ '\n' ∧ ∃ l', l = c :: l' ∧ rawLines cs = l' :: ls) := by
  rw [rawLines] at h
  split at h
  · next hc =>
    obtain ⟨rfl, rfl⟩ := List.cons.inj h
    exact Or.inl ⟨hc, rfl, rfl⟩
  · next hc =>
    split at h
    · next hnil =>
      obtain ⟨rfl, rfl⟩ := List.cons.inj h
      exact Or.inr (Or.inl ⟨hc, rfl, rawLines_eq_nil hnil, rfl⟩)
    · next l' ls' hcons =>
      obtain ⟨rfl, rfl⟩ := List.cons.inj h
      exact Or.inr (Or.inr ⟨hc, l', rfl, hcons⟩)

/-- The characters of a line are characters of the stream, and a newline ends the line. -/
theorem rawLines_mem {s l : Str} (hl : l ∈ rawLines s) :
    (∀ c ∈ l, c ∈ s) ∧ '\n' ∉ l.dropLast ∧ l ≠ [] := by
  induction s generalizing l with
  | nil => exact absurd hl (by simp [rawLines])
  | cons c cs ih =>
    have hmem : ∀ l' ∈ rawLines cs, (∀ d ∈ l', d ∈ c :: cs) ∧ '\n' ∉ l'.dropLast ∧ l' ≠ [] :=
      fun l' hl' => ⟨fun d hd => List.mem_cons_of_mem _ ((ih hl').1 d hd), (ih hl').2⟩
    cases hraw : rawLines (c :: cs) with
    | nil => exact absurd (rawLines_eq_nil hraw) (by simp)
    | cons l₁ ls =>
      rw [hraw, List.mem_cons] at hl
      rcases rawLines_cons_cases hraw with ⟨hc, rfl, rfl⟩ | ⟨hc, rfl, rfl, rfl⟩ | ⟨hc, l', rfl, hcs⟩
      · rcases hl with rfl | hl
        · simp [hc]
        · exact hmem l hl
      · rcases hl with rfl | hl
        · simp
        · exact absurd hl (by simp)
      · rcases hl with rfl | hl
        · obtain ⟨hsub, hnewline, hne⟩ := hmem l' (by simp [hcs])
          refine ⟨?_, ?_, by simp⟩
          · intro d hd
            rcases List.mem_cons.mp hd with rfl | hd
            · exact List.mem_cons_self ..
            · exact hsub d hd
          · rw [List.dropLast_cons_of_ne_nil hne, List.mem_cons, not_or]
            exact ⟨Ne.symm hc, hnewline⟩
        · exact hmem l (by simp [hcs, hl])

/-- `fgets` reads the first line if it fits the buffer. -/
theorem fgetsAux_rawLines {s l : Str} {ls : List Str} {n : Nat} (h : rawLines s = l :: ls)
    (hl : l.length ≤ n) :
    (fgetsAux n s).1 = l ∧ rawLines (fgetsAux n s).2 = ls ∧ (fgetsAux n s).2.length < s.length := by
  induction s generalizing l n with
  | nil => exact absurd h (by simp [rawLines])
  | cons c cs ih =>
    rcases rawLines_cons_cases h with ⟨hc, rfl, rfl⟩ | ⟨hc, rfl, rfl, rfl⟩ | ⟨hc, l', rfl, hcs⟩
    · cases n with
      | zero => exact absurd hl (by simp)
      | succ n => simp [fgetsAux, hc]
    · cases n with
      | zero => exact absurd hl (by simp)
      | succ n => cases n <;> simp [fgetsAux, hc, rawLines]
    · cases n with
      | zero => exact absurd hl (by simp)
      | succ n =>
        obtain ⟨hfst, hsnd, hlt⟩ := ih hcs (by simpa using hl)
        simp only [fgetsAux, if_neg hc]
        exact ⟨by rw [hfst], hsnd, by rw [List.length_cons]; omega⟩

/-- If every line fits the buffer, the reads are the lines. -/
theorem getsAll_eq_rawLines {size fuel : Nat} {s : Str} (hfuel : s.length ≤ fuel)
    (hshort : ∀ l ∈ rawLines s, l.length < size) : getsAll size fuel s = rawLines s := by
  induction fuel generalizing s with
  | zero =>
    have hs : s = [] := List.eq_nil_of_length_eq_zero (by omega)
    subst hs
    rfl
  | succ fuel ih =>
    cases hraw : rawLines s with
    | nil => simp [getsAll, rawLines_eq_nil hraw]
    | cons l ls =>
      rw [hraw] at hshort
      have hne : s ≠ [] := by
        rintro rfl
        exact absurd hraw (by simp [rawLines])
      have hl := hshort l (List.mem_cons_self ..)
      obtain ⟨hfst, hsnd, hlt⟩ := fgetsAux_rawLines (n := size - 1) hraw (by omega)
      rw [getsAll, if_neg hne, fgets, hfst, ih (by omega), hsnd]
      rw [hsnd]
      exact fun l hl => hshort l (List.mem_cons_of_mem _ hl)

/-! ## Places of a character -/

/-- What holds behind every place of a character, one character at a time. -/
theorem forall_split_cons {c d : Char} {s : Str} {P : Str → Prop} :
    (∀ u v, c :: s = u ++ d :: v → P v) ↔ (c = d → P s) ∧ ∀ u v, s = u ++ d :: v → P v := by
  constructor
  · intro h
    refine ⟨?_, fun u v hs => h (c :: u) v (by rw [hs]; rfl)⟩
    rintro rfl
    exact h [] s rfl
  · rintro ⟨hhead, hs⟩ u v heq
    cases u with
    | nil =>
      obtain ⟨rfl, rfl⟩ := List.cons.inj heq
      exact hhead rfl
    | cons e u => exact hs u v (List.cons.inj heq).2

section NoPair

variable {d : Char} {cls : Char → Bool} {c : Char} {s t : Str}

/-- The characters behind the places. -/
theorem noPair_iff : NoPair d cls s ↔ ∀ u v, s = u ++ d :: v → ∀ e ∈ v.head?, cls e = false := by
  constructor
  · intro h u v hs e he
    obtain ⟨w, rfl⟩ : ∃ w, v = e :: w := List.head?_eq_some_iff.mp he
    exact h u e w hs
  · intro h u e w hs
    exact h u (e :: w) hs e rfl

theorem noPair_cons : NoPair d cls (c :: s) ↔
    (c = d → ∀ e ∈ s.head?, cls e = false) ∧ NoPair d cls s := by
  rw [noPair_iff, noPair_iff, forall_split_cons]

theorem noPair_nil : NoPair d cls [] := by
  intro u c v h
  exact absurd h (by simp)

theorem noPair_of_not_mem (h : d ∉ s) : NoPair d cls s := by
  rintro u c v rfl
  exact absurd (by simp) h

/-- Two texts can be joined where the second one does not start with the class. -/
theorem noPair_append_iff (hhead : ∀ e ∈ t.head?, cls e = false) :
    NoPair d cls (s ++ t) ↔ NoPair d cls s ∧ NoPair d cls t := by
  induction s with
  | nil => exact ⟨fun h => ⟨noPair_nil, h⟩, fun h => h.2⟩
  | cons c s ih =>
    rw [List.cons_append, noPair_cons, noPair_cons, ih]
    have hjoin : (∀ e ∈ (s ++ t).head?, cls e = false) ↔ ∀ e ∈ s.head?, cls e = false := by
      cases s with
      | nil => exact ⟨fun _ e he => absurd he (by simp), fun _ => hhead⟩
      | cons a s => exact Iff.rfl
    rw [hjoin, and_assoc]

theorem noPair_behind_iff (ht : d ∉ t) : NoPair d cls (t ++ s) ↔ NoPair d cls s := by
  induction t with
  | nil => exact Iff.rfl
  | cons c t ih =>
    obtain ⟨hc, ht⟩ := List.ne_and_not_mem_of_not_mem_cons ht
    rw [List.cons_append, noPair_cons, ih ht]
    exact and_iff_right fun heq => absurd heq.symm hc

end NoPair

end Str
