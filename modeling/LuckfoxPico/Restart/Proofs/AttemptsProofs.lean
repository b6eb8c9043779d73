import LuckfoxPico.Restart.Attempts

/-!
# Proofs: edits that are stopped and started again

A prefix of the task is a prefix of every target's own edits, so restarting the task is a question
about one target at a time.
-/

namespace Restart

variable {ι σ β : Type} [DecidableEq ι] {view : σ → β} {es : List (Edit ι σ)} {t : ι → σ} {i : ι}
  {fs : List (σ → σ)} {s : σ}

theorem Edit.run_apply (e : Edit ι σ) (t : ι → σ) (i : ι) :
    e.run t i = if e.target = i then e.apply (t i) else t i := by
  unfold Edit.run
  by_cases h : e.target = i
  · subst h
    simp
  · rw [if_neg h, Function.update_of_ne (Ne.symm h)]

theorem editsOf_cons (i : ι) (e : Edit ι σ) (es : List (Edit ι σ)) :
    editsOf i (e :: es) = if e.target = i then e.apply :: editsOf i es else editsOf i es := by
  by_cases h : e.target = i <;> simp [editsOf, h]

theorem run_apply (es : List (Edit ι σ)) (t : ι → σ) (i : ι) :
    run es t i = runOne (editsOf i es) (t i) := by
  induction es generalizing t with
  | nil => rfl
  | cons e es ih =>
    show run es (e.run t) i = _
    rw [ih, e.run_apply, editsOf_cons]
    by_cases h : e.target = i
    · rw [if_pos h, if_pos h]
      rfl
    · rw [if_neg h, if_neg h]

/-- How many of the first `k` edits are edits of the target. -/
def reached (es : List (Edit ι σ)) (i : ι) (k : Nat) : Nat := (editsOf i (es.take k)).length

theorem editsOf_take (es : List (Edit ι σ)) (i : ι) (k : Nat) :
    editsOf i (es.take k) = (editsOf i es).take (reached es i k) := by
  have hprefix : editsOf i (es.take k) <+: editsOf i es :=
    ((List.take_prefix k es).filter _).map _
  exact List.prefix_iff_eq_take.mp hprefix

theorem attempts_apply (es : List (Edit ι σ)) (stops : List Nat) (t : ι → σ) (i : ι) :
    attempts es stops t i = attemptsOne (editsOf i es) (stops.map (reached es i)) (t i) := by
  induction stops generalizing t with
  | nil => rfl
  | cons k stops ih =>
    show attempts es stops (run (es.take k) t) i = _
    rw [ih, run_apply, editsOf_take]
    rfl

/-- Every prefix of the target's edits is what some prefix of the task does to the target. -/
theorem exists_take (es : List (Edit ι σ)) (i : ι) (k : Nat) :
    ∃ k', editsOf i (es.take k') = (editsOf i es).take k := by
  induction es generalizing k with
  | nil => exact ⟨0, by simp [editsOf]⟩
  | cons e es ih =>
    by_cases h : e.target = i
    · cases k with
      | zero => exact ⟨0, rfl⟩
      | succ k =>
        obtain ⟨k', hk'⟩ := ih k
        exact ⟨k' + 1, by rw [List.take_succ_cons, editsOf_cons, editsOf_cons, if_pos h, if_pos h,
          List.take_succ_cons, hk']⟩
    · obtain ⟨k', hk'⟩ := ih k
      exact ⟨k' + 1, by
        rw [List.take_succ_cons, editsOf_cons, editsOf_cons, if_neg h, if_neg h, hk']⟩

theorem exists_stops (es : List (Edit ι σ)) (i : ι) (stops : List Nat) (s : σ) :
    ∃ stops' : List Nat, attemptsOne (editsOf i es) (stops'.map (reached es i)) s =
      attemptsOne (editsOf i es) stops s := by
  induction stops generalizing s with
  | nil => exact ⟨[], rfl⟩
  | cons k stops ih =>
    obtain ⟨k', hk'⟩ := exists_take es i k
    obtain ⟨stops', hstops⟩ := ih (runOne ((editsOf i es).take k) s)
    refine ⟨k' :: stops', ?_⟩
    rw [editsOf_take] at hk'
    show attemptsOne _ (stops'.map _) (runOne ((editsOf i es).take (reached es i k')) s) = _
    rw [hk', hstops]
    rfl

/-- A task can be restarted if and only if the edits of each of its targets can. -/
theorem restartable_iff :
    Restartable view es t ↔ ∀ i, RestartableOne view (editsOf i es) (t i) := by
  constructor
  · intro h i stops
    obtain ⟨stops', hstops⟩ := exists_stops es i stops (t i)
    have := h stops' i
    rwa [run_apply, run_apply, attempts_apply, hstops] at this
  · intro h stops i
    rw [run_apply, run_apply, attempts_apply]
    exact h i _

/-- The rule for restarts: what every attempt keeps and what a complete execution makes of it. -/
theorem RestartableOne.of_invariant (P : σ → Prop) (hs : P s)
    (hkeep : ∀ s k, P s → P (runOne (fs.take k) s))
    (hview : ∀ s', P s' → view (runOne fs s') = view (runOne fs s)) : RestartableOne view fs s := by
  intro stops
  suffices P (attemptsOne fs stops s) from hview _ this
  clear hview
  induction stops generalizing s with
  | nil => exact hs
  | cons k stops ih => exact ih (hkeep s k hs)

/-- A complete execution after a complete execution changes nothing. -/
theorem RestartableOne.twice (h : RestartableOne view fs s) :
    view (runOne fs (runOne fs s)) = view (runOne fs s) := by
  have := h [fs.length]
  rwa [attemptsOne, List.foldl_cons, List.foldl_nil, List.take_length] at this

/-- A single edit can be repeated if and only if the second time changes nothing. -/
theorem restartableOne_single {f : σ → σ} : RestartableOne id [f] s ↔ f (f s) = f s := by
  constructor
  · intro h
    exact h.twice
  · intro h
    refine RestartableOne.of_invariant (fun s' => s' = s ∨ s' = f s) (Or.inl rfl) ?_ ?_
    · intro s' k hs'
      cases k with
      | zero => exact hs'
      | succ k =>
        right
        rw [List.take_succ_cons, List.take_nil]
        show f s' = f s
        rcases hs' with rfl | rfl
        · rfl
        · exact h
    · rintro s' (rfl | rfl)
      · rfl
      · exact h

/-- Two edits of one target can be restarted if neither acts again after the first execution. -/
theorem restartableOne_pair {f g : σ → σ} (hf : f (f s) = f s) (hfg : f (g (f s)) = g (f s))
    (hg : g (g (f s)) = g (f s)) : RestartableOne id [f, g] s := by
  have hall : ∀ s', s' = s ∨ s' = f s ∨ s' = g (f s) → g (f s') = g (f s) := by
    rintro s' (rfl | rfl | rfl)
    · rfl
    · rw [hf]
    · rw [hfg, hg]
  refine RestartableOne.of_invariant (fun s' => s' = s ∨ s' = f s ∨ s' = g (f s)) (Or.inl rfl) ?_
    hall
  intro s' k hs'
  match k with
  | 0 => exact hs'
  | 1 =>
    right
    show f s' = f s ∨ f s' = g (f s)
    rcases hs' with rfl | rfl | rfl
    · exact Or.inl rfl
    · exact Or.inl hf
    · exact Or.inr hfg
  | k + 2 =>
    right; right
    rw [List.take_of_length_le (by simp)]
    exact hall s' hs'

end Restart
