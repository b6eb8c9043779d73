import Mathlib.Data.List.Sort
import Mathlib.Data.List.Find

/-!
# Two ways to scan a collection for its first match

A directory can be scanned in the order in which it happens to be listed, or in the order of a key
(a sorted glob). `firstListed` and `firstSorted` return the first element that a predicate accepts,
`firstRow` the first one of a numbered list.

A sorted scan finds the least match, so it does not depend on the listing. The scan of a listing
agrees with it for every order of the listing exactly when it has at most one match and that is the
least match of the sorted scan.
-/

namespace Scan

section Scans

variable {α κ : Type} [LinearOrder κ]

/-- The first match in the order of the list. -/
def firstListed (p : α → Bool) (l : List α) : Option α := l.find? p

/-- The first match in the order of `key`. -/
def firstSorted (key : α → κ) (p : α → Bool) (l : List α) : Option α :=
  (l.insertionSort fun a b => key a ≤ key b).find? p

/-- The first match in the order of the list, with its position. -/
def firstRow (p : α → Bool) (l : List α) : Option (α × Nat) := l.zipIdx.find? fun x => p x.1

end Scans

/-! ## Listed and sorted -/

variable {α κ : Type} [LinearOrder κ] {key : α → κ} {p q : α → Bool} {l : List α}

/-- The sorted scan finds the least match. -/
theorem firstSorted_eq_some_iff (hkey : Function.Injective key) {a : α} :
    firstSorted key p l = some a ↔
      a ∈ l ∧ p a = true ∧ ∀ b ∈ l, p b = true → key a ≤ key b := by
  have : Std.Total fun a b : α => key a ≤ key b := ⟨fun a b => le_total _ _⟩
  have : IsTrans α fun a b : α => key a ≤ key b := ⟨fun _ _ _ => le_trans⟩
  have hsorted := List.pairwise_insertionSort (fun a b : α => key a ≤ key b) l
  have hleast : ∀ {x : α}, firstSorted key p l = some x →
      x ∈ l ∧ p x = true ∧ ∀ b ∈ l, p b = true → key x ≤ key b := by
    intro x hx
    obtain ⟨hpx, before, after, hsplit, hbefore⟩ := List.find?_eq_some_iff_append.mp hx
    refine ⟨(List.mem_insertionSort _).mp (by rw [hsplit]; simp), hpx, fun b hb hpb => ?_⟩
    have hb' : b ∈ before ++ x :: after := hsplit ▸ (List.mem_insertionSort _).mpr hb
    rw [hsplit] at hsorted
    rcases List.mem_append.mp hb' with hb' | hb'
    · exact absurd hpb (by simpa using hbefore b hb')
    · rcases List.mem_cons.mp hb' with rfl | hb'
      · exact le_rfl
      · exact (List.pairwise_cons.mp (List.pairwise_append.mp hsorted).2.1).1 b hb'
  constructor
  · exact hleast
  · rintro ⟨ha, hpa, hmin⟩
    cases hfind : firstSorted key p l with
    | none =>
      have := List.find?_eq_none.mp hfind a ((List.mem_insertionSort _).mpr ha)
      exact absurd hpa this
    | some x =>
      obtain ⟨hx, hpx, hxmin⟩ := hleast hfind
      rw [hkey (le_antisymm (hxmin a ha hpa) (hmin x hx hpx))]

theorem firstSorted_eq_none_iff : firstSorted key p l = none ↔ ∀ b ∈ l, ¬ p b = true := by
  rw [firstSorted, List.find?_eq_none]
  exact ⟨fun h b hb => h b ((List.mem_insertionSort _).mpr hb),
    fun h b hb => h b ((List.mem_insertionSort _).mp hb)⟩

/-- The sorted scan does not depend on the order of the listing. -/
theorem firstSorted_perm (hkey : Function.Injective key) {l' : List α} (h : l'.Perm l) :
    firstSorted key p l' = firstSorted key p l := by
  refine Option.ext fun a => ?_
  simp only [firstSorted_eq_some_iff hkey, h.mem_iff]

/-- If everything the listed scan accepts is accepted by the sorted scan, the two agree for every
order of the listing exactly when the listed scan has at most one match, and it accepts the least
match of the sorted scan. -/
theorem agree_iff (hkey : Function.Injective key) (hpq : ∀ a ∈ l, p a = true → q a = true) :
    (∀ l', l'.Perm l → firstListed p l' = firstSorted key q l') ↔
      (∀ a ∈ l, ∀ b ∈ l, p a = true → p b = true → a = b) ∧
      (∀ a ∈ l, q a = true → (∀ b ∈ l, q b = true → key a ≤ key b) → p a = true) := by
  classical
  constructor
  · intro h
    have hfirst : ∀ a ∈ l, p a = true → firstSorted key q l = some a := by
      intro a ha hpa
      have hperm : (a :: l.erase a).Perm l := (List.perm_cons_erase ha).symm
      rw [← firstSorted_perm hkey hperm, ← h _ hperm]
      simp [firstListed, hpa]
    refine ⟨fun a ha b hb hpa hpb => ?_, fun a ha hqa hmin => ?_⟩
    · exact Option.some.inj ((hfirst a ha hpa).symm.trans (hfirst b hb hpb))
    · have hsome : firstListed p l = some a :=
        (h l (List.Perm.refl l)).trans ((firstSorted_eq_some_iff hkey).mpr ⟨ha, hqa, hmin⟩)
      exact List.find?_some hsome
  · rintro ⟨hone, hleast⟩ l' hperm
    rw [firstSorted_perm hkey hperm]
    cases hsorted : firstSorted key q l with
    | none =>
      refine List.find?_eq_none.mpr fun b hb hpb => ?_
      exact firstSorted_eq_none_iff.mp hsorted b (hperm.mem_iff.mp hb)
        (hpq b (hperm.mem_iff.mp hb) hpb)
    | some a =>
      obtain ⟨ha, hqa, hmin⟩ := (firstSorted_eq_some_iff hkey).mp hsorted
      have hpa := hleast a ha hqa hmin
      cases hlisted : firstListed p l' with
      | none => exact absurd hpa (List.find?_eq_none.mp hlisted a (hperm.mem_iff.mpr ha))
      | some b =>
        have hb : b ∈ l := hperm.mem_iff.mp (List.mem_of_find?_eq_some hlisted)
        rw [hone b hb a ha (List.find?_some hlisted) hpa]

/-! ## Numbered lists -/

theorem firstRow_eq_none_iff : firstRow p l = none ↔ ∀ a ∈ l, ¬ p a = true := by
  rw [firstRow, List.find?_eq_none]
  constructor
  · intro h a ha
    obtain ⟨i, hi, rfl⟩ := List.getElem_of_mem ha
    exact h (l[i], i) (by rw [List.mem_zipIdx_iff_getElem?]; simp [hi])
  · rintro h ⟨a, i⟩ hai
    exact h a (List.fst_mem_of_mem_zipIdx hai)

theorem firstRow_some {a : α} {n : Nat} (h : firstRow p l = some (a, n)) : a ∈ l ∧ p a = true := by
  have hp := List.find?_some (p := fun x : α × Nat => p x.1) h
  exact ⟨List.fst_mem_of_mem_zipIdx (List.mem_of_find?_eq_some h), hp⟩

theorem firstRow_congr (h : ∀ a ∈ l, p a = q a) : firstRow p l = firstRow q l := by
  have hpair : ∀ x ∈ l.zipIdx, p x.1 = q x.1 :=
    fun x hx => h x.1 (List.fst_mem_of_mem_zipIdx hx)
  rw [firstRow, firstRow]
  exact List.find?_congr hpair

/-- The rows before the first match are not matches, so its position is their number. -/
theorem firstRow_append {before after : List α} {a : α} (hbefore : ∀ b ∈ before, ¬ p b = true)
    (ha : p a = true) : firstRow p (before ++ a :: after) = some (a, before.length) := by
  have hnone := firstRow_eq_none_iff.mpr hbefore
  rw [firstRow] at hnone
  rw [firstRow, List.zipIdx_append, List.find?_append, hnone, List.zipIdx_cons]
  simp [ha]

/-- A match that is not among the first rows comes after them. -/
theorem firstRow_append_lt {before after : List α} {a b : α} {n : Nat}
    (hbefore : ∀ b ∈ before, ¬ p b = true) (ha : ¬ p a = true)
    (h : firstRow p (before ++ a :: after) = some (b, n)) : before.length < n := by
  have hnone := firstRow_eq_none_iff.mpr hbefore
  rw [firstRow] at hnone
  rw [firstRow, List.zipIdx_append, List.find?_append, hnone, List.zipIdx_cons] at h
  have hrest : (after.zipIdx (0 + before.length + 1)).find? (fun x => p x.1) = some (b, n) := by
    simpa [ha] using h
  have hmem := List.le_snd_of_mem_zipIdx (List.mem_of_find?_eq_some hrest)
  simp only at hmem
  omega

end Scan
