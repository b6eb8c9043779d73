import LuckfoxPico.Layout.Extents

/-!
# Proofs: aligned sequential layout

`alignUp` is the least aligned position, and a sequential layout is ordered, hence pairwise
disjoint, whatever the alignments and lengths are.
-/

namespace Layout

theorem alignUp_dvd (n align : Nat) : align ∣ alignUp n align := Nat.dvd_mul_left _ _

theorem le_alignUp (n : Nat) {align : Nat} (h : 0 < align) : n ≤ alignUp n align := by
  have hmod := Nat.mod_lt (n + align - 1) h
  have hdiv := Nat.div_add_mod (n + align - 1) align
  rw [Nat.mul_comm] at hdiv
  unfold alignUp
  omega

/-- No smaller multiple of `align` is at or above `n`. -/
theorem alignUp_le {n align m : Nat} (h : 0 < align) (hm : align ∣ m) (hn : n ≤ m) :
    alignUp n align ≤ m := by
  obtain ⟨k, rfl⟩ := hm
  have hk : (n + align - 1) / align ≤ k := by
    rw [← Nat.lt_succ_iff, Nat.div_lt_iff_lt_mul h, Nat.succ_mul, Nat.mul_comm k]
    omega
  calc alignUp n align = (n + align - 1) / align * align := rfl
    _ ≤ k * align := Nat.mul_le_mul_right _ hk
    _ = align * k := Nat.mul_comm _ _

/-- A position in the window `(m - align, m]` below an aligned `m` is rounded up to `m`. -/
theorem alignUp_eq {n align m : Nat} (h : 0 < align) (hm : align ∣ m) (hn : n ≤ m)
    (hlow : m < n + align) : alignUp n align = m := by
  refine le_antisymm (alignUp_le h hm hn) ?_
  by_contra hlt
  have hge := le_alignUp n h
  have hgap : align ≤ m - alignUp n align :=
    Nat.le_of_dvd (by omega) (Nat.dvd_sub hm (alignUp_dvd n align))
  omega

theorem Extent.Disjoint.symm {e f : Extent} (h : e.Disjoint f) : f.Disjoint e := Or.symm h

/-- Every extent of a sequential layout starts at or after the cursor it was laid out from. -/
theorem placeAll_ge : ∀ (is : List Item) (cursor : Nat), ∀ e ∈ placeAll cursor is, cursor ≤ e.start
  | [], _, _, he => by simp [placeAll] at he
  | i :: is, cursor, e, he => by
    have hfirst : cursor ≤ (i.place cursor).start := le_alignUp cursor i.align_pos
    rcases List.mem_cons.mp he with rfl | he
    · exact hfirst
    · have := placeAll_ge is _ e he
      simp only [Extent.stop] at this
      omega

/-- A sequential layout never overlaps itself. -/
theorem placeAll_pairwise : ∀ (is : List Item) (cursor : Nat),
    (placeAll cursor is).Pairwise Extent.Disjoint
  | [], _ => List.Pairwise.nil
  | i :: is, cursor => List.Pairwise.cons
      (fun e he => Or.inl (placeAll_ge is (i.place cursor).stop e he)) (placeAll_pairwise is _)

end Layout
