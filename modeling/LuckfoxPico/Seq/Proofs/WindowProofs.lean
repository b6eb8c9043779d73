import Mathlib.Data.List.Perm.Subperm
import Mathlib.Data.List.TakeWhile
import Mathlib.Data.Nat.Basic
import LuckfoxPico.Machine.Proofs.RunsProofs
import LuckfoxPico.Seq.Window

/-!
# Proofs: reordering windows

What is held stays sorted and inside the window. No message is lost: each one that arrived is held
or has a fate. What is passed on in its turn has ascending serials. If no message arrives more than
a window ahead of a missing one and nobody gives up waiting, the messages come out exactly in the
order of their serials.
-/

namespace Window

open Machine

variable {α : Type} {serial : α → Nat} {w : Nat} {s s' : State α} {m : α} {l l' : List α}
  {n : Nat}

/-! ## Messages in ascending order -/

/-- The serials of the messages ascend. -/
def Ascending (serial : α → Nat) (l : List α) : Prop := l.Pairwise fun x y => serial x < serial y

theorem place_perm (h : place serial m l = some l') : l'.Perm (m :: l) := by
  induction l generalizing l' with
  | nil =>
    obtain rfl : [m] = l' := by simpa [place] using h
    exact List.Perm.refl _
  | cons x xs ih =>
    by_cases hlt : serial x < serial m
    · obtain ⟨ys, hys, rfl⟩ : ∃ ys, place serial m xs = some ys ∧ x :: ys = l' := by
        simpa [place, hlt] using h
      exact ((ih hys).cons x).trans (List.Perm.swap m x xs)
    · by_cases heq : serial x = serial m
      · simp [place, heq] at h
      · obtain rfl : m :: x :: xs = l' := by simpa [place, hlt, heq] using h
        exact List.Perm.refl _

theorem Ascending.place (hl : Ascending serial l) (h : place serial m l = some l') :
    Ascending serial l' := by
  induction l generalizing l' with
  | nil =>
    obtain rfl : [m] = l' := by simpa [Window.place] using h
    exact List.pairwise_singleton _ _
  | cons x xs ih =>
    obtain ⟨hx, hxs⟩ := List.pairwise_cons.mp hl
    by_cases hlt : serial x < serial m
    · obtain ⟨ys, hys, rfl⟩ : ∃ ys, Window.place serial m xs = some ys ∧ x :: ys = l' := by
        simpa [Window.place, hlt] using h
      refine List.pairwise_cons.mpr ⟨fun y hy => ?_, ih hxs hys⟩
      rcases List.mem_cons.mp ((place_perm hys).mem_iff.mp hy) with rfl | hy
      · exact hlt
      · exact hx y hy
    · by_cases heq : serial x = serial m
      · simp [Window.place, heq] at h
      · obtain rfl : m :: x :: xs = l' := by simpa [Window.place, hlt, heq] using h
        refine List.pairwise_cons.mpr ⟨fun y hy => ?_, hl⟩
        rcases List.mem_cons.mp hy with rfl | hy
        · omega
        · exact lt_trans (by omega) (hx y hy)

/-- A message finds no place only if one with its serial is there. -/
theorem place_eq_none (h : place serial m l = none) : ∃ x ∈ l, serial x = serial m := by
  induction l with
  | nil => simp [place] at h
  | cons x xs ih =>
    by_cases hlt : serial x < serial m
    · obtain ⟨y, hy, heq⟩ := ih (by simpa [place, hlt] using h)
      exact ⟨y, by simp [hy], heq⟩
    · by_cases heq : serial x = serial m
      · exact ⟨x, by simp, heq⟩
      · simp [place, hlt, heq] at h

theorem le_advance : n ≤ advance serial n l := by
  induction l generalizing n with
  | nil => exact le_rfl
  | cons x xs ih =>
    rw [advance]
    split
    · exact ih
    · split
      · exact le_trans (Nat.le_succ n) ih
      · exact le_rfl

/-- No message of an ascending list has the serial that is waited for afterwards. -/
theorem Ascending.ne_advance (hl : Ascending serial l) :
    ∀ x ∈ l, serial x ≠ advance serial n l := by
  induction l generalizing n with
  | nil => simp
  | cons x xs ih =>
    obtain ⟨hx, hxs⟩ := List.pairwise_cons.mp hl
    intro y hy
    rw [advance]
    split
    next hlt =>
      rcases List.mem_cons.mp hy with rfl | hy
      · exact ne_of_lt (lt_of_lt_of_le hlt le_advance)
      · exact ih hxs y hy
    next hlt =>
      split
      next heq =>
        rcases List.mem_cons.mp hy with rfl | hy
        · exact ne_of_lt (lt_of_lt_of_le (by omega) le_advance)
        · exact ih hxs y hy
      next hne =>
        rcases List.mem_cons.mp hy with rfl | hy
        · exact hne
        · have := hx y hy
          omega

/-- The serials that `advance` steps over are all there. -/
theorem mem_of_lt_advance {k : Nat} (hlo : n ≤ k) (hhi : k < advance serial n l) :
    ∃ x ∈ l, serial x = k := by
  induction l generalizing n with
  | nil =>
    rw [advance] at hhi
    omega
  | cons x xs ih =>
    rw [advance] at hhi
    split at hhi
    next hlt =>
      obtain ⟨y, hy, heq⟩ := ih hlo hhi
      exact ⟨y, by simp [hy], heq⟩
    next hlt =>
      split at hhi
      next heq =>
        by_cases hk : k = n
        · exact ⟨x, by simp, by omega⟩
        · obtain ⟨y, hy, heq⟩ := ih (by omega) hhi
          exact ⟨y, by simp [hy], heq⟩
      next => omega

theorem advance_le {k : Nat} (hlt : ∀ x ∈ l, serial x < n + k) : advance serial n l ≤ n + k := by
  by_contra hgt
  obtain ⟨x, hx, heq⟩ := mem_of_lt_advance (Nat.le_add_right n k) (Nat.lt_of_not_le hgt)
  have := hlt x hx
  omega

/-- What an ascending list has in front of a bound is what it begins with. -/
theorem Ascending.mem_dropWhile (hl : Ascending serial l) {k : Nat} :
    ∀ x ∈ l.dropWhile (fun x => serial x < k), k ≤ serial x := by
  induction l with
  | nil => simp
  | cons x xs ih =>
    obtain ⟨hx, hxs⟩ := List.pairwise_cons.mp hl
    intro y hy
    rw [List.dropWhile_cons] at hy
    split at hy
    next => exact ih hxs y hy
    next hge =>
      have hge : k ≤ serial x := by simpa using hge
      rcases List.mem_cons.mp hy with rfl | hy
      · exact hge
      · exact le_trans hge (le_of_lt (hx y hy))

theorem mem_takeWhile_lt {k : Nat} : ∀ x ∈ l.takeWhile (fun x => serial x < k), serial x < k :=
  fun x hx => by simpa using List.mem_takeWhile_imp hx

/-- If the serial that is waited for is there, the wait may as well begin behind it. -/
theorem Ascending.advance_succ (hl : Ascending serial l) (hge : ∀ x ∈ l, n ≤ serial x)
    (hmem : ∃ x ∈ l, serial x = n) : advance serial (n + 1) l = advance serial n l := by
  cases l with
  | nil => simp at hmem
  | cons x xs =>
    have hx : serial x = n := by
      obtain ⟨y, hy, heq⟩ := hmem
      rcases List.mem_cons.mp hy with rfl | hy
      · exact heq
      · have := (List.pairwise_cons.mp hl).1 y hy
        have := hge x (by simp)
        omega
    simp [advance, hx]

/-- What is passed on from `n` on has the serials from `n` on, without a gap. -/
theorem Ascending.serials_passed (hl : Ascending serial l) (hge : ∀ x ∈ l, n ≤ serial x) :
    (l.takeWhile fun x => serial x < advance serial n l).map serial =
      List.range' n (advance serial n l - n) := by
  induction l generalizing n with
  | nil => simp [advance]
  | cons x xs ih =>
    obtain ⟨hx, hxs⟩ := List.pairwise_cons.mp hl
    by_cases heq : serial x = n
    · have hadv : advance serial n (x :: xs) = advance serial (n + 1) xs := by simp [advance, heq]
      have hle : n + 1 ≤ advance serial (n + 1) xs := le_advance
      have hih := ih hxs (n := n + 1) fun y hy => by have := hx y hy; omega
      have hsub : advance serial (n + 1) xs - n = (advance serial (n + 1) xs - (n + 1)) + 1 := by
        omega
      rw [hadv, List.takeWhile_cons_of_pos (by simp only [heq, decide_eq_true_eq]; omega),
        List.map_cons, hih, hsub,
        List.range'_succ, heq]
    · have hlt : n < serial x := by have := hge x (by simp); omega
      have hadv : advance serial n (x :: xs) = n := by
        simp [advance, heq, Nat.not_lt_of_le (Nat.le_of_lt hlt)]
      rw [hadv, List.takeWhile_cons_of_neg (by simpa using Nat.le_of_lt hlt)]
      simp

/-! ## One step -/

@[simp] theorem passedOf_append (a b : List (Fate α)) :
    passedOf (a ++ b) = passedOf a ++ passedOf b := by
  induction a with
  | nil => rfl
  | cons f a ih => cases f <;> simp [passedOf, ih]

@[simp] theorem passedOf_map_passed (l : List α) : passedOf (l.map .passed) = l := by
  induction l with
  | nil => rfl
  | cons x xs ih => simp [passedOf, ih]

/-- What is held is sorted and lies in the window, behind the serial that is waited for. -/
structure Inv (serial : α → Nat) (w : Nat) (s : State α) : Prop where
  ascending : Ascending serial s.held
  inside : ∀ x ∈ s.held, ∃ n, s.next = some n ∧ n < serial x ∧ serial x < n + w

theorem inv_start : Inv serial w State.start :=
  ⟨List.Pairwise.nil, by simp [State.start]⟩

/-- A receiver holds less than a window of messages. -/
theorem Inv.length_held_lt (h : Inv serial w s) (hw : 0 < w) : s.held.length < w := by
  cases hnext : s.next with
  | none =>
    have : s.held = [] := by
      refine List.eq_nil_iff_forall_not_mem.mpr fun x hx => ?_
      obtain ⟨n, hn, -⟩ := h.inside x hx
      simp [hnext] at hn
    simpa [this] using hw
  | some n =>
    have hnodup : (s.held.map serial).Nodup :=
      List.pairwise_map.mpr (h.ascending.imp fun hlt => Nat.ne_of_lt hlt)
    have hsub : s.held.map serial ⊆ List.range' (n + 1) (w - 1) := by
      intro k hk
      obtain ⟨x, hx, rfl⟩ := List.mem_map.mp hk
      obtain ⟨k, hk, hgt, hlt⟩ := h.inside x hx
      obtain rfl : n = k := by simpa [hnext] using hk
      exact List.mem_range'_1.mpr ⟨hgt, by omega⟩
    have hle := (List.subperm_of_subset hnodup hsub).length_le
    simp only [List.length_map, List.length_range'] at hle
    omega

theorem Inv.lt_of_next (h : Inv serial w s) (hn : s.next = some n) :
    ∀ x ∈ s.held, n < serial x ∧ serial x < n + w := by
  intro x hx
  obtain ⟨k, hk, hlt⟩ := h.inside x hx
  obtain rfl : n = k := by simpa [hn] using hk
  exact hlt

theorem settle_inv (hl : Ascending serial l) (hlt : ∀ x ∈ l, serial x < n + w) :
    Inv serial w (settle serial n l).1 := by
  refine ⟨hl.sublist (List.dropWhile_sublist _), fun x hx => ⟨_, rfl, ?_, ?_⟩⟩
  · have hne := hl.ne_advance (n := n) x ((List.dropWhile_sublist _).subset hx)
    have hge := hl.mem_dropWhile x hx
    omega
  · have := hlt x ((List.dropWhile_sublist _).subset hx)
    have : n ≤ advance serial n l := le_advance
    omega

/-- A message lies in front of the end of the window that its arrival leaves. -/
theorem lt_turn_add {k : Nat} : k < turn w n k + w ∧ n ≤ turn w n k := by
  rw [turn]
  split
  · omega
  · split <;> omega

/-- The messages in front of the window after an arrival. -/
theorem Inv.place_lt (h : Inv serial w s) (hk : s.next.getD (serial m) ≤ serial m)
    (hl : place serial m s.held = some l) :
    ∀ x ∈ l, s.next.getD (serial m) ≤ serial x ∧
      serial x < turn w (s.next.getD (serial m)) (serial m) + w := by
  obtain ⟨hlt, hle⟩ := lt_turn_add (w := w) (n := s.next.getD (serial m)) (k := serial m)
  intro x hx
  rcases List.mem_cons.mp ((place_perm hl).mem_iff.mp hx) with rfl | hx
  · exact ⟨hk, hlt⟩
  · obtain ⟨n, hn, hgt, hlt⟩ := h.inside x hx
    simp only [hn, Option.getD_some] at hle ⊢
    omega

/-- A message that finds one with its serial held leaves the receiver as it is. -/
theorem Inv.turn_of_double (h : Inv serial w s)
    (hl : place serial m s.held = none) :
    some (turn w (s.next.getD (serial m)) (serial m)) = s.next := by
  obtain ⟨x, hx, heq⟩ := place_eq_none hl
  obtain ⟨n, hn, hgt, hlt⟩ := h.inside x hx
  have h1 : serial m ≠ n := by omega
  have h2 : ¬ n + w ≤ serial m := by omega
  simp [hn, turn, h1, h2]

theorem Inv.arrive (h : Inv serial w s) : Inv serial w (arrive serial w s m).1 := by
  rw [Window.arrive]
  by_cases hlt : serial m < s.next.getD (serial m)
  · simpa [hlt] using h
  · have hk := Nat.le_of_not_lt hlt
    simp only [hlt, if_false]
    cases hl : place serial m s.held with
    | none =>
      rw [h.turn_of_double hl]
      exact ⟨h.ascending, h.inside⟩
    | some l => exact settle_inv (h.ascending.place hl) fun x hx => (h.place_lt hk hl x hx).2

theorem Inv.expire (h : Inv serial w s) : Inv serial w (expire serial s).1 := by
  rw [Window.expire]
  cases hheld : s.held with
  | nil => exact h
  | cons x xs =>
    refine settle_inv (hheld ▸ h.ascending) fun y hy => ?_
    obtain ⟨n, hn, hgt, hlt⟩ := h.inside x (by simp [hheld])
    have := (h.lt_of_next hn y (by rw [hheld]; exact hy)).2
    omega

/-- An arrival never moves the window back. -/
theorem next_arrive (serial : α → Nat) (w : Nat) (s : State α) (m : α) :
    ∃ n, (arrive serial w s m).1.next = some n ∧ s.next.getD (serial m) ≤ n := by
  rw [arrive]
  by_cases hlt : serial m < s.next.getD (serial m)
  · cases hnext : s.next with
    | none => simp [hnext] at hlt
    | some n =>
      have hlt' : serial m < n := by simpa [hnext] using hlt
      exact ⟨n, by simp [hlt', hnext], le_rfl⟩
  · simp only [hlt, if_false]
    cases place serial m s.held with
    | none => exact ⟨_, rfl, lt_turn_add.2⟩
    | some l => exact ⟨_, rfl, le_trans (lt_turn_add (w := w)).2 le_advance⟩

theorem Inv.next_expire (h : Inv serial w s) (hn : s.next = some n) :
    ∃ n', (Window.expire serial s).1.next = some n' ∧ n ≤ n' := by
  rw [Window.expire]
  cases hheld : s.held with
  | nil => exact ⟨n, hn, le_rfl⟩
  | cons x xs =>
    refine ⟨_, rfl, le_trans ?_ le_advance⟩
    exact Nat.le_of_lt (h.lt_of_next hn x (by simp [hheld])).1

/-! ## Runs -/

theorem Inv.step {e : Event α} {o : List (Fate α)} (h : Inv serial w s)
    (hstep : step serial w s e = some (s', o)) : Inv serial w s' := by
  cases e with
  | arrive m =>
    obtain rfl : (Window.arrive serial w s m).1 = s' := congrArg Prod.fst (Option.some.inj hstep)
    exact h.arrive
  | expire =>
    obtain rfl : (Window.expire serial s).1 = s' := congrArg Prod.fst (Option.some.inj hstep)
    exact h.expire

/-- What has been passed on so far ascends and is behind the serial that is waited for. -/
structure InOrder (serial : α → Nat) (s : State α) (passed : List α) : Prop where
  ascending : Ascending serial passed
  behind : ∀ x ∈ passed, ∃ n, s.next = some n ∧ serial x < n

theorem InOrder.settle {passed : List α} (hp : Ascending serial passed)
    (hpn : ∀ x ∈ passed, serial x < n) (hl : Ascending serial l) (hge : ∀ x ∈ l, n ≤ serial x)
    {n' : Nat} (hn : n ≤ n') :
    InOrder serial (settle serial n' l).1 (passed ++ passedOf (settle serial n' l).2) := by
  simp only [Window.settle, passedOf_map_passed]
  refine ⟨List.pairwise_append.mpr ⟨hp, hl.sublist (List.takeWhile_sublist _), ?_⟩, ?_⟩
  · intro x hx y hy
    have := hpn x hx
    have := hge y ((List.takeWhile_sublist _).subset hy)
    omega
  · intro x hx
    refine ⟨_, rfl, ?_⟩
    rcases List.mem_append.mp hx with hx | hx
    · have := hpn x hx
      have : n' ≤ advance serial n' l := le_advance
      omega
    · exact mem_takeWhile_lt x hx

theorem InOrder.step {passed : List α} {e : Event α} {o : List (Fate α)} (hI : Inv serial w s)
    (h : InOrder serial s passed) (hstep : step serial w s e = some (s', o)) :
    InOrder serial s' (passed ++ passedOf o) := by
  cases e with
  | arrive m =>
    obtain ⟨rfl, rfl⟩ : (arrive serial w s m).1 = s' ∧ (arrive serial w s m).2 = o :=
      Prod.mk.inj (Option.some.inj hstep)
    rw [arrive]
    by_cases hlt : serial m < s.next.getD (serial m)
    · simpa [hlt, passedOf] using h
    · have hk := Nat.le_of_not_lt hlt
      simp only [hlt, if_false]
      cases hl : place serial m s.held with
      | none =>
        simp only [passedOf, List.append_nil]
        rw [hI.turn_of_double hl]
        exact h
      | some l =>
        have hpn : ∀ x ∈ passed, serial x < s.next.getD (serial m) := fun x hx => by
          obtain ⟨n, hn, hlt⟩ := h.behind x hx
          simpa [hn] using hlt
        exact InOrder.settle h.ascending hpn (hI.ascending.place hl)
          (fun x hx => (hI.place_lt hk hl x hx).1) lt_turn_add.2
  | expire =>
    obtain ⟨rfl, rfl⟩ : (expire serial s).1 = s' ∧ (expire serial s).2 = o :=
      Prod.mk.inj (Option.some.inj hstep)
    rw [expire]
    cases hheld : s.held with
    | nil => simpa [passedOf] using h
    | cons x xs =>
      obtain ⟨n, hn, hgt, -⟩ := hI.inside x (by simp [hheld])
      refine InOrder.settle (n := n) h.ascending (fun y hy => ?_) (hheld ▸ hI.ascending)
        (fun y hy => ?_) (Nat.le_of_lt hgt)
      · obtain ⟨k, hk, hlt⟩ := h.behind y hy
        obtain rfl : n = k := by simpa [hn] using hk
        exact hlt
      · exact Nat.le_of_lt (hI.lt_of_next hn y (by rw [hheld]; exact hy)).1

/-- Whatever arrives in whatever order, and whenever the wait is given up: what is passed on in its
turn has ascending serials. -/
theorem run_inOrder {es : List (Event α)} {out : List (Fate α)}
    (hrun : run (step serial w) State.start es = some (s, out)) :
    Inv serial w s ∧ InOrder serial s (passedOf out) := by
  refine run_history
    (I := fun s _ o => Inv serial w s ∧ InOrder serial s (passedOf o)) ?_ ?_ hrun
  · exact ⟨inv_start, List.Pairwise.nil, by simp [passedOf]⟩
  · intro s h o e s' o' hI hstep
    exact ⟨hI.1.step hstep, by simpa using InOrder.step hI.1 hI.2 hstep⟩

/-! ## How far the window is from the newest message -/

/-- `big` is the greatest serial that has arrived. -/
structure Newest (serial : α → Nat) (w : Nat) (s : State α) (big : Nat) : Prop where
  held : ∀ x ∈ s.held, serial x ≤ big
  next : ∃ n, s.next = some n ∧ big < n + w ∧ n ≤ big + 1

theorem Newest.settle {big k : Nat} (hl : ∀ x ∈ l, serial x ≤ big) (hlo : big < k + w)
    (hhi : k ≤ big + 1) : Newest serial w (settle serial k l).1 big := by
  have hle : k ≤ advance serial k l := le_advance
  have hbound : advance serial k l ≤ k + (big + 1 - k) := advance_le fun x hx => by
    have := hl x hx
    omega
  exact ⟨fun x hx => hl x ((List.dropWhile_sublist _).subset hx), _, rfl, by omega, by omega⟩

theorem turn_le {k : Nat} : turn w n k ≤ max n k + 1 := by
  rw [turn]
  split
  · omega
  · split <;> omega

theorem Newest.first : Newest serial w (arrive serial w State.start m).1 (serial m) := by
  simp only [arrive, State.start, Option.getD_none, lt_irrefl, if_false, place]
  have hle : turn w (serial m) (serial m) ≤ serial m + 1 := by
    simpa using turn_le (w := w) (n := serial m) (k := serial m)
  exact Newest.settle (by simp) lt_turn_add.1 hle

theorem Newest.arrive {big : Nat} (hI : Inv serial w s) (h : Newest serial w s big) :
    Newest serial w (arrive serial w s m).1 (max big (serial m)) := by
  obtain ⟨n, hn, hlo, hhi⟩ := h.next
  simp only [Window.arrive, hn, Option.getD_some]
  by_cases hlt : serial m < n
  · have hbig : max big (serial m) = big := by omega
    simp only [hlt, if_true]
    rw [hbig]
    exact h
  · simp only [hlt, if_false]
    cases hl : place serial m s.held with
    | none =>
      obtain ⟨x, hx, heq⟩ := place_eq_none hl
      have hbig : max big (serial m) = big := by have := h.held x hx; omega
      have hturn := hI.turn_of_double hl
      rw [hn, Option.getD_some] at hturn
      simp only [hturn, hbig]
      exact ⟨h.held, n, rfl, hlo, hhi⟩
    | some l =>
      have hturn := lt_turn_add (w := w) (n := n) (k := serial m)
      have hturn' := turn_le (w := w) (n := n) (k := serial m)
      refine Newest.settle (fun x hx => ?_) (by omega) (by omega)
      rcases List.mem_cons.mp ((place_perm hl).mem_iff.mp hx) with rfl | hx
      · exact Nat.le_max_right _ _
      · exact le_trans (h.held x hx) (Nat.le_max_left _ _)

theorem Newest.expire {big : Nat} (hI : Inv serial w s) (h : Newest serial w s big) :
    Newest serial w (expire serial s).1 big := by
  obtain ⟨n, hn, hlo, hhi⟩ := h.next
  rw [Window.expire]
  cases hheld : s.held with
  | nil => exact h
  | cons x xs =>
    have hx := hI.lt_of_next hn x (by simp [hheld])
    have hbig := h.held x (by simp [hheld])
    refine Newest.settle (fun y hy => h.held y (by rw [hheld]; exact hy)) (by omega) (by omega)

/-! ## Messages that come at most a window early -/

/-- How far a receiver has come with messages of the serials from `a` to `c`, no message of which
comes a window before a missing one: everything in front of `n` is passed on. -/
structure Lossless (serial : α → Nat) (w c : Nat) (n : Nat) (held rest : List α) : Prop where
  ascending : Ascending serial held
  ahead : ∀ x ∈ held, n < serial x
  notBehind : ∀ x ∈ rest, n ≤ serial x
  bounded : n ≤ c ∧ ∀ x ∈ held ++ rest, serial x < c
  distinct : ((held ++ rest).map serial).Nodup
  complete : ∀ k, n ≤ k → k < c → ∃ x ∈ held ++ rest, serial x = k
  early : rest.Pairwise fun x y => serial x < serial y + w

/-- A message is in the window: the serial that is waited for is still to come. -/
theorem Lossless.near {c : Nat} {held rest : List α}
    (h : Lossless serial w c n held (m :: rest)) (hne : serial m ≠ n) : serial m < n + w := by
  have hk : n ≤ serial m := h.notBehind m (by simp)
  obtain ⟨x, hx, heq⟩ := h.complete n le_rfl (lt_of_le_of_lt hk (h.bounded.2 m (by simp)))
  rcases List.mem_append.mp hx with hx | hx
  · have := h.ahead x hx
    omega
  · rcases List.mem_cons.mp hx with rfl | hx
    · exact absurd heq hne
    · have := (List.pairwise_cons.mp h.early).1 x hx
      omega

/-- The message that arrives is put in its place, and the window does not move over a gap. -/
theorem Lossless.arrive {c : Nat} {held rest : List α}
    (h : Lossless serial w c n held (m :: rest)) :
    ∃ n' passed held', arrive serial w ⟨some n, held⟩ m = (⟨some n', held'⟩, passed.map .passed) ∧
      Lossless serial w c n' held' rest ∧ (passed ++ held').Perm (m :: held) ∧ n ≤ n' ∧
      passed.map serial = List.range' n (n' - n) := by
  have hk : n ≤ serial m := h.notBehind m (by simp)
  obtain ⟨l, hl⟩ : ∃ l, place serial m held = some l := by
    refine Option.ne_none_iff_exists'.mp fun hnone => ?_
    obtain ⟨x, hx, heq⟩ := place_eq_none hnone
    have hd := h.distinct
    rw [List.map_append, List.nodup_append] at hd
    exact hd.2.2 (serial x) (List.mem_map_of_mem hx) (serial m) (by simp) heq
  have hperm := place_perm hl
  have hasc : Ascending serial l := h.ascending.place hl
  have hge : ∀ x ∈ l, n ≤ serial x := fun x hx => by
    rcases List.mem_cons.mp (hperm.mem_iff.mp hx) with rfl | hx
    · exact hk
    · exact Nat.le_of_lt (h.ahead x hx)
  have hadv : advance serial (turn w n (serial m)) l = advance serial n l := by
    rw [turn]
    by_cases heq : serial m = n
    · rw [if_pos heq]
      exact hasc.advance_succ hge ⟨m, hperm.mem_iff.mpr (by simp), heq⟩
    · rw [if_neg heq, if_neg (by have := h.near heq; omega)]
  have harr : Window.arrive serial w ⟨some n, held⟩ m =
      (⟨some (advance serial n l), l.dropWhile fun x => serial x < advance serial n l⟩,
        (l.takeWhile fun x => serial x < advance serial n l).map .passed) := by
    simp [Window.arrive, Nat.not_lt_of_le hk, hl, settle, hadv]
  have hall : (l ++ rest).Perm (held ++ m :: rest) := by
    refine (hperm.append_right rest).trans ?_
    exact List.perm_middle.symm
  have hsub : ((l.dropWhile fun x => serial x < advance serial n l) ++ rest).Sublist
      (l ++ rest) :=
    (List.dropWhile_sublist _).append_right rest
  refine ⟨_, _, _, harr, ?_, by rw [List.takeWhile_append_dropWhile]; exact hperm, le_advance,
    hasc.serials_passed hge⟩
  constructor
  · exact hasc.sublist (List.dropWhile_sublist _)
  · intro x hx
    have := hasc.mem_dropWhile x hx
    have := hasc.ne_advance (n := n) x ((List.dropWhile_sublist _).subset hx)
    omega
  · intro x hx
    by_contra hlt
    obtain ⟨y, hy, heq⟩ := mem_of_lt_advance (h.notBehind x (by simp [hx])) (Nat.lt_of_not_le hlt)
    have hd := (hall.map serial).nodup_iff.mpr h.distinct
    rw [List.map_append, List.nodup_append] at hd
    exact hd.2.2 (serial y) (List.mem_map_of_mem hy) (serial x) (List.mem_map_of_mem hx) heq
  · have hmem : ∀ x ∈ l ++ rest, serial x < c := fun x hx => h.bounded.2 x (hall.mem_iff.mp hx)
    refine ⟨?_, fun x hx => hmem x (hsub.subset hx)⟩
    by_contra hlt
    obtain ⟨y, hy, heq⟩ := mem_of_lt_advance h.bounded.1 (Nat.lt_of_not_le hlt)
    have := hmem y (by simp [hy])
    omega
  · exact ((hall.map serial).nodup_iff.mpr h.distinct).sublist (hsub.map serial)
  · intro k hlo hhi
    obtain ⟨x, hx, rfl⟩ := h.complete k (le_trans le_advance hlo) hhi
    rw [← hall.mem_iff,
      ← List.takeWhile_append_dropWhile (p := fun x => serial x < advance serial n l)
      (l := l), List.append_assoc] at hx
    rcases List.mem_append.mp hx with hx | hx
    · have := mem_takeWhile_lt x hx; omega
    · exact ⟨x, hx, rfl⟩
  · exact (List.pairwise_cons.mp h.early).2

theorem Lossless.run {c : Nat} {held rest : List α} (h : Lossless serial w c n held rest) :
    ∃ passed : List α, run (step serial w) ⟨some n, held⟩ (rest.map .arrive) =
        some (⟨some c, []⟩, passed.map .passed) ∧
      passed.Perm (held ++ rest) ∧ passed.map serial = List.range' n (c - n) := by
  induction rest generalizing n held with
  | nil =>
    have hn : ¬ n < c := fun hlt => by
      obtain ⟨x, hx, heq⟩ := h.complete n le_rfl hlt
      have := h.ahead x (by simpa using hx)
      omega
    have hheld : held = [] := by
      refine List.eq_nil_iff_forall_not_mem.mpr fun x hx => ?_
      have := h.ahead x hx
      have := h.bounded.2 x (by simp [hx])
      omega
    have hnc : n = c := by have := h.bounded.1; omega
    exact ⟨[], by simp [hheld, hnc], by simp [hheld], by simp [hnc]⟩
  | cons m rest ih =>
    obtain ⟨n', p₁, held', harr, hnext, hperm, hle, hser⟩ := h.arrive
    obtain ⟨p₂, hrun, hperm', hser'⟩ := ih hnext
    refine ⟨p₁ ++ p₂, ?_, ?_, ?_⟩
    · rw [List.map_cons, List.map_append]
      exact run_cons_eq_some_iff.mpr ⟨_, _, _, congrArg some harr, hrun, rfl⟩
    · have hback : (p₁ ++ p₂).Perm ((p₁ ++ held') ++ rest) := by
        rw [List.append_assoc]
        exact hperm'.append_left p₁
      exact hback.trans ((hperm.append_right rest).trans List.perm_middle.symm)
    · have hc := hnext.bounded.1
      have hsum : c - n = (n' - n) + (c - n') := by omega
      rw [List.map_append, hser, hser', hsum, ← List.range'_append_1]
      congr 2
      omega

/-- The first message sets the serial that is waited for. -/
theorem arrive_start : arrive serial w State.start m = arrive serial w ⟨some (serial m), []⟩ m := by
  simp [arrive, State.start, place]

theorem Lossless.start {arr : List α} {a : Nat}
    (hser : (arr.map serial).Perm (List.range' a arr.length))
    (hearly : arr.Pairwise fun x y => serial x < serial y + w) :
    Lossless serial w (a + arr.length) a [] arr := by
  have hmem : ∀ k, k ∈ arr.map serial ↔ a ≤ k ∧ k < a + arr.length := fun k => by
    rw [hser.mem_iff, List.mem_range'_1]
  refine ⟨List.Pairwise.nil, by simp, fun x hx => ?_, ⟨Nat.le_add_right _ _, fun x hx => ?_⟩,
    ?_, fun k hlo hhi => ?_, hearly⟩
  · exact ((hmem _).mp (List.mem_map_of_mem hx)).1
  · exact ((hmem _).mp (List.mem_map_of_mem (by simpa using hx))).2
  · exact hser.nodup_iff.mpr List.nodup_range'
  · obtain ⟨x, hx, rfl⟩ := List.mem_map.mp ((hmem k).mpr ⟨hlo, hhi⟩)
    exact ⟨x, by simpa using hx, rfl⟩

/-- Messages with the serials from `a` on, each once, that begin with the first and come less than a
window before each missing one: they come out in the order of their serials. -/
theorem run_lossless {arr : List α} {a : Nat} (hfirst : ∀ m ∈ arr.head?, serial m = a)
    (hser : (arr.map serial).Perm (List.range' a arr.length))
    (hearly : arr.Pairwise fun x y => serial x < serial y + w) :
    ∃ (s : State α) (passed : List α),
      run (step serial w) State.start (arr.map .arrive) = some (s, passed.map .passed) ∧
      s.held = [] ∧ passed.Perm arr ∧ passed.map serial = List.range' a arr.length := by
  cases arr with
  | nil => exact ⟨State.start, [], by simp, rfl, by simp, by simp⟩
  | cons m rest =>
    have hm : serial m = a := hfirst m (by simp)
    obtain ⟨passed, hrun, hperm, hserp⟩ := (Lossless.start hser hearly).run
    refine ⟨⟨some (a + (m :: rest).length), []⟩, passed, ?_, rfl, by simpa using hperm,
      by simpa using hserp⟩
    rw [List.map_cons] at hrun ⊢
    obtain ⟨t, o₁, o₂, hstep, hrest, hout⟩ := run_cons_eq_some_iff.mp hrun
    refine run_cons_eq_some_iff.mpr ⟨t, o₁, o₂, ?_, hrest, hout⟩
    rw [← hstep, ← hm]
    exact congrArg some arrive_start

end Window
