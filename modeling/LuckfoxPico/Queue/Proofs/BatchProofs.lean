import LuckfoxPico.Queue.Batch
import LuckfoxPico.Queue.Proofs.LevelsProofs

/-!
# Proofs: sending in batches on credit

Each level is served in order and nothing is lost; what is sent after a grant is no more than what
was granted.
-/

namespace Batch

variable {α : Type} {level : α → Nat} {s t : State α} {acts : List (Act α)} {credit : Int}

theorem putOf_append (a b : List (Act α)) : putOf (a ++ b) = putOf a ++ putOf b :=
  List.filterMap_append

theorem burstsOf_append (a b : List (Act α)) : burstsOf (a ++ b) = burstsOf a ++ burstsOf b :=
  List.filterMap_append

@[simp] theorem putOf_put (x : α) : putOf [.put x] = [x] := rfl

@[simp] theorem putOf_take (x : α) : putOf [.take x] = [] := rfl

@[simp] theorem putOf_grant (r : Int) : putOf [.grant r] = ([] : List α) := rfl

@[simp] theorem putOf_burst (xs : List α) : putOf [.burst xs] = [] := rfl

@[simp] theorem burstsOf_put (x : α) : burstsOf [.put x] = [] := rfl

@[simp] theorem burstsOf_take (x : α) : burstsOf [.take x] = [] := rfl

@[simp] theorem burstsOf_grant (r : Int) : burstsOf [.grant r] = ([] : List (List α)) := rfl

@[simp] theorem burstsOf_burst (xs : List α) : burstsOf [.burst xs] = [xs] := rfl

theorem Run.trans {u : State α} {acts' : List (Act α)} (h : Run level s acts t)
    (h' : Run level t acts' u) : Run level s (acts ++ acts') u := by
  induction h' with
  | start => rwa [List.append_nil]
  | step _ hstep ih =>
    rw [← List.append_assoc]
    exact ih.step hstep

theorem Run.single {a : Act α} (h : Step level s a t) : Run level s [a] t :=
  .step .start h

/-- For each level: what was sent, then the batch, then the queue are what was put in. -/
theorem Run.serves (h : Run level (.start credit) acts s) :
    Levels.Serves level s.levels ((burstsOf acts).flatten ++ s.batch) (putOf acts) := by
  induction h with
  | start => exact fun _ => rfl
  | step _ hstep ih =>
    rw [burstsOf_append, putOf_append]
    cases hstep with
    | put x => simpa using ih.push x
    | take x htop _ => simpa using ih.pop htop.1
    | grant r hnil => simpa using ih
    | burst hne => simpa using ih

/-- A batch is within the credit. -/
theorem Run.batch_le (h : Run level (.start credit) acts s) :
    s.batch = [] ∨ (s.batch.length : Int) ≤ s.credit := by
  induction h with
  | start => exact Or.inl rfl
  | @step _ s _ _ _ hstep ih =>
    cases hstep with
    | put x => exact ih
    | take x _ hroom =>
      right
      change ((s.batch ++ [x]).length : Int) ≤ s.credit
      rw [List.length_append, List.length_singleton]
      omega
    | grant r hnil => exact Or.inl hnil
    | burst hne => exact Or.inl rfl

/-- What has been sent since a grant has been taken off the credit. -/
theorem Run.spent (h : Run level (.start credit) acts s) {l m : List (Act α)} {r : Int}
    (hacts : acts = l ++ .grant r :: m) (hm : ∀ r', .grant r' ∉ m) :
    s.credit = r - (burstsOf m).flatten.length ∧
      ((burstsOf m).flatten = [] ∨ 0 ≤ s.credit) := by
  induction h generalizing m with
  | start => simp at hacts
  | @step acts s t a hrun hstep ih =>
    rcases List.eq_nil_or_concat m with rfl | ⟨m, x, rfl⟩
    · obtain ⟨rfl, hx⟩ := List.append_inj' hacts rfl
      obtain rfl : a = .grant r := by simpa using hx
      cases hstep with
      | grant r hnil => exact ⟨by simp [burstsOf], Or.inl rfl⟩
    · rw [List.concat_eq_append] at hacts hm ⊢
      obtain ⟨rfl, hx⟩ := List.append_inj' (hacts.trans (by simp) :
        acts ++ [a] = (l ++ .grant r :: m) ++ [x]) rfl
      obtain rfl : a = x := by simpa using hx
      obtain ⟨hcredit, hle⟩ := ih rfl fun r' hr' => hm r' (by simp [hr'])
      rw [burstsOf_append]
      cases hstep with
      | put x =>
        rw [burstsOf_put, List.append_nil]
        exact ⟨hcredit, hle⟩
      | take x _ hroom =>
        rw [burstsOf_take, List.append_nil]
        exact ⟨hcredit, hle⟩
      | grant r' hnil => exact absurd (List.mem_append_right _ (List.mem_singleton_self _)) (hm r')
      | burst hne =>
        have hbatch := hrun.batch_le.resolve_left hne
        rw [burstsOf_burst, List.flatten_append, List.flatten_singleton, List.length_append]
        change _ - _ = _ ∧ (_ ∨ 0 ≤ _ - _)
        refine ⟨by omega, Or.inr (by omega)⟩

/-- No more is sent after a grant than was granted. -/
theorem Run.sent_le (h : Run level (.start credit) acts s) {l m : List (Act α)} {r : Int}
    (hacts : acts = l ++ .grant r :: m) (hm : ∀ r', .grant r' ∉ m) :
    ((burstsOf m).flatten.length : Int) ≤ max r 0 := by
  obtain ⟨hcredit, hnil | hle⟩ := h.spent hacts hm
  · rw [hnil]
    exact Int.le_max_right r 0
  · omega

theorem Run.credit_le (h : Run level (.start credit) acts s) {c : Int} (hc : credit ≤ c)
    (hgrant : ∀ r, .grant r ∈ acts → r ≤ c) : s.credit ≤ c := by
  induction h with
  | start => exact hc
  | step _ hstep ih =>
    have hle := ih fun r hr => hgrant r (List.mem_append_left _ hr)
    cases hstep with
    | put x => exact hle
    | take x _ _ => exact hle
    | grant r _ => exact hgrant r (by simp)
    | burst _ =>
      change _ - _ ≤ c
      omega

/-- A burst is within what has been granted. -/
theorem Run.burst_le (h : Run level (.start credit) acts s) {c : Int} (hc : credit ≤ c)
    (hgrant : ∀ r, .grant r ∈ acts → r ≤ c) :
    ∀ xs ∈ burstsOf acts, (xs.length : Int) ≤ c := by
  induction h with
  | start => exact fun _ h => nomatch h
  | @step acts _ _ _ hrun hstep ih =>
    have hgrant' : ∀ r, Act.grant r ∈ acts → r ≤ c :=
      fun r hr => hgrant r (List.mem_append_left _ hr)
    intro xs hxs
    rw [burstsOf_append] at hxs
    rcases List.mem_append.mp hxs with hxs | hxs
    · exact ih hgrant' xs hxs
    · cases hstep with
      | put | take | grant => cases hxs
      | burst hne =>
        obtain rfl := List.mem_singleton.mp hxs
        have hcredit := hrun.credit_le hc hgrant'
        have hbatch := hrun.batch_le.resolve_left hne
        omega

end Batch
