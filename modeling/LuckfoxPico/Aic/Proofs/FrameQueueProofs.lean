import LuckfoxPico.Aic.FrameQueue
import LuckfoxPico.Queue.Proofs.LevelsProofs

/-!
# Proofs: the frame queue

With its cursor, the frame queue is a queue with levels: all lists above the cursor are empty, and
`qcnt` counts what the others hold.
-/

namespace Aic.FrameQueue

open Levels

variable {α : Type} {q q' : FrameQueue α} {prio : Nat} {pkt : α}

/-- All lists above the cursor are empty, and `qcnt` counts the others. -/
structure Inv (q : FrameQueue α) : Prop where
  above : ∀ p, q.hiPrio < p → q.queuelist p = []
  count : q.qcnt = total q.queuelist q.hiPrio

theorem total_succ (l : State α) (prio : Nat) :
    total l (prio + 1) = total l prio + (l (prio + 1)).length := rfl

/-- Lists that are empty do not count. -/
theorem total_of_above {l : State α} {m n : Nat} (hmn : m ≤ n) (h : ∀ p, m < p → l p = []) :
    total l n = total l m := by
  induction hmn with
  | refl => rfl
  | step hle ih =>
    rw [Nat.succ_eq_add_one, total_succ, ih, h _ (Nat.lt_succ_of_le hle), List.length_nil,
      Nat.add_zero]

theorem total_eq_zero_iff {l : State α} {n : Nat} : total l n = 0 ↔ ∀ p ≤ n, l p = [] := by
  induction n with
  | zero => simp [total]
  | succ n ih =>
    rw [total_succ, Nat.add_eq_zero_iff, ih, List.length_eq_zero_iff]
    constructor
    · rintro ⟨h, hn⟩ p hp
      rcases Nat.le_succ_iff.mp hp with hp | rfl
      · exact h p hp
      · exact hn
    · exact fun h => ⟨fun p hp => h p (Nat.le_succ_of_le hp), h (n + 1) (Nat.le_refl _)⟩

theorem total_update_of_lt {l : State α} {p n : Nat} (hp : n < p) (xs : List α) :
    total (Function.update l p xs) n = total l n := by
  induction n with
  | zero => rw [total, Function.update_of_ne (Nat.ne_of_lt hp), total]
  | succ n ih =>
    rw [total_succ, ih (Nat.lt_of_succ_lt hp), Function.update_of_ne (Nat.ne_of_lt hp), total_succ]

/-- One list gets longer or shorter. -/
theorem total_update {l : State α} {p n : Nat} (hp : p ≤ n) (xs : List α) :
    total (Function.update l p xs) n + (l p).length = total l n + xs.length := by
  induction n with
  | zero =>
    obtain rfl : p = 0 := Nat.le_zero.mp hp
    simp [total, Nat.add_comm]
  | succ n ih =>
    rw [total_succ, total_succ]
    by_cases hle : p ≤ n
    · have := ih hle
      rw [Function.update_of_ne (by omega)]
      omega
    · obtain rfl : p = n + 1 := by omega
      rw [total_update_of_lt (Nat.lt_succ_self n), Function.update_self]
      omega

theorem inv_init (n : Nat) : (init n : FrameQueue α).Inv :=
  ⟨fun _ _ => rfl, by simp [init, total]⟩

/-- A frame is queued at its priority if the queue is not full. -/
theorem Inv.enq (h : q.Inv) (he : q.enq prio pkt = some q') :
    q'.Inv ∧ q'.queuelist = push q.queuelist prio pkt ∧ q'.qcnt = q.qcnt + 1 ∧
      q'.qmax = q.qmax := by
  unfold FrameQueue.enq at he
  split at he
  · next hroom =>
    have hlen : ¬ (q.queuelist prio).length ≥ q.qmax := Nat.not_le_of_lt hroom.1
    have hpenq : q.penq prio pkt = some ⟨if q.hiPrio < prio then prio else q.hiPrio, q.qmax,
        q.qcnt + 1, push q.queuelist prio pkt⟩ := if_neg hlen
    rw [hpenq, Option.getD_some] at he
    obtain rfl := Option.some.inj he
    have hle : q.hiPrio ≤ (if q.hiPrio < prio then prio else q.hiPrio) ∧
        prio ≤ (if q.hiPrio < prio then prio else q.hiPrio) := by
      split <;> omega
    refine ⟨⟨fun p hp => ?_, ?_⟩, rfl, rfl, rfl⟩
    · change (if q.hiPrio < prio then prio else q.hiPrio) < p at hp
      change Function.update q.queuelist prio _ p = []
      rw [Function.update_of_ne (by omega)]
      exact h.above p (by omega)
    · have hup := total_update (l := q.queuelist) hle.2 (q.queuelist prio ++ [pkt])
      rw [total_of_above hle.1 h.above, ← h.count, List.length_append, List.length_singleton] at hup
      change q.qcnt + 1 = total (Function.update q.queuelist prio _)
        (if q.hiPrio < prio then prio else q.hiPrio)
      omega
  · cases he

theorem Inv.empty_iff (h : q.Inv) : Empty q.queuelist ↔ q.qcnt = 0 := by
  rw [h.count, total_eq_zero_iff]
  constructor
  · exact fun he p _ => he p
  · intro he p
    by_cases hp : p ≤ q.hiPrio
    · exact he p hp
    · exact h.above p (Nat.lt_of_not_le hp)

/-- The test up to the cursor tells whether all lists are empty. -/
theorem Inv.isEmpty_iff (h : q.Inv) : q.isEmpty = true ↔ q.qcnt = 0 := by
  rw [FrameQueue.isEmpty, h.count, Bool.not_eq_true', decide_eq_false_iff_not, Nat.not_lt,
    Nat.le_zero]

theorem lowerHiPrio_le (l : State α) (n : Nat) : lowerHiPrio l n ≤ n := by
  induction n with
  | zero => exact Nat.le_refl _
  | succ n ih =>
    rw [lowerHiPrio]
    split
    · exact Nat.le_succ_of_le ih
    · exact Nat.le_refl _

/-- The cursor stops at the highest list that is not empty, or at 0. -/
theorem above_lowerHiPrio {l : State α} {n : Nat} (h : ∀ p, n < p → l p = []) :
    ∀ p, lowerHiPrio l n < p → l p = [] := by
  induction n with
  | zero => exact h
  | succ n ih =>
    rw [lowerHiPrio]
    split
    · next hempty =>
      refine ih fun p hp => ?_
      by_cases heq : p = n + 1
      · subst heq
        simpa using hempty
      · exact h p (by omega)
    · exact h

theorem lowerHiPrio_eq_nil {l : State α} {n : Nat} (h : l (lowerHiPrio l n) = []) :
    lowerHiPrio l n = 0 := by
  induction n with
  | zero => rfl
  | succ n ih =>
    rw [lowerHiPrio] at h ⊢
    split at h
    · next hempty =>
      rw [if_pos hempty]
      exact ih h
    · next hempty => simp [h] at hempty

/-- What is dequeued is the oldest frame of the highest priority there is; there is none only if the
queue is empty. -/
theorem Inv.dequeue (h : q.Inv) {r : Option α} (hd : q.dequeue = (r, q')) :
    q'.Inv ∧ q'.qmax = q.qmax ∧
      (r = none ∧ q.qcnt = 0 ∧ q'.queuelist = q.queuelist ∧ q'.qcnt = q.qcnt ∨
        ∃ p x, r = some x ∧ Top q.queuelist p x ∧ q'.queuelist = pop q.queuelist p ∧
          q.qcnt = q'.qcnt + 1) := by
  rw [FrameQueue.dequeue] at hd
  by_cases h0 : q.qcnt = 0
  · rw [if_pos h0] at hd
    obtain ⟨rfl, rfl⟩ := Prod.mk.inj hd
    exact ⟨h, rfl, Or.inl ⟨rfl, h0, rfl, rfl⟩⟩
  · rw [if_neg h0] at hd
    have habove := above_lowerHiPrio h.above
    have htotal : total q.queuelist (lowerHiPrio q.queuelist q.hiPrio) = q.qcnt := by
      rw [h.count, total_of_above (lowerHiPrio_le _ _) habove]
    cases hl : q.queuelist (lowerHiPrio q.queuelist q.hiPrio) with
    | nil =>
      exfalso
      have hz := lowerHiPrio_eq_nil hl
      rw [hz] at hl habove
      refine h0 (h.empty_iff.mp fun p => ?_)
      rcases Nat.eq_zero_or_pos p with rfl | hp
      · exact hl
      · exact habove p hp
    | cons x xs =>
      simp only [hl] at hd
      obtain ⟨rfl, rfl⟩ := Prod.mk.inj hd
      have hup := total_update (l := q.queuelist)
        (Nat.le_refl (lowerHiPrio q.queuelist q.hiPrio)) xs
      rw [htotal, hl, List.length_cons] at hup
      refine ⟨⟨fun p hp => ?_, ?_⟩, rfl, Or.inr ⟨_, x, rfl, ⟨by rw [hl]; rfl, habove⟩, ?_, ?_⟩⟩
      · change Function.update q.queuelist _ xs p = []
        rw [Function.update_of_ne (Nat.ne_of_gt hp)]
        exact habove p hp
      · change q.qcnt - 1 = total (Function.update q.queuelist _ xs)
          (lowerHiPrio q.queuelist q.hiPrio)
        omega
      · change Function.update q.queuelist _ xs = Function.update q.queuelist _ _
        rw [hl, List.tail_cons]
      · change q.qcnt = q.qcnt - 1 + 1
        omega

end Aic.FrameQueue
