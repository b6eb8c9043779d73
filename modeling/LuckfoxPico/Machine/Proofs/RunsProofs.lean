import LuckfoxPico.Machine.Runs

/-!
# Proofs: machines and loops

What every step preserves is preserved by every run; the step lemma may speak of the events so far
and of what was put out so far. A loop has the result of the state that a turn goes on with; one
that goes on for ever has none.
-/

namespace Machine

section Runs

variable {σ ε ω : Type} {step : σ → ε → Option (σ × List ω)} {s s' : σ} {e : ε}
  {es fs : List ε} {out : List ω}

@[simp] theorem run_nil : run step s [] = some (s, []) := rfl

theorem run_cons_eq_some_iff :
    run step s (e :: es) = some (s', out) ↔
      ∃ t o₁ o₂, step s e = some (t, o₁) ∧ run step t es = some (s', o₂) ∧ out = o₁ ++ o₂ := by
  simp only [run, Option.bind_eq_some_iff, Option.map_eq_some_iff, Prod.mk.injEq, Prod.exists]
  constructor
  · rintro ⟨t, o₁, hstep, u, o₂, hrun, rfl, rfl⟩
    exact ⟨t, o₁, o₂, hstep, hrun, rfl⟩
  · rintro ⟨t, o₁, o₂, hstep, hrun, rfl⟩
    exact ⟨t, o₁, hstep, s', o₂, hrun, rfl, rfl⟩

theorem run_append_eq_some_iff :
    run step s (es ++ fs) = some (s', out) ↔
      ∃ t o₁ o₂, run step s es = some (t, o₁) ∧ run step t fs = some (s', o₂) ∧
        out = o₁ ++ o₂ := by
  induction es generalizing s out with
  | nil => simp
  | cons e es ih =>
    rw [List.cons_append, run_cons_eq_some_iff]
    constructor
    · rintro ⟨t, o₁, o₂, hstep, hrun, rfl⟩
      obtain ⟨u, p₁, p₂, hes, hfs, rfl⟩ := ih.mp hrun
      refine ⟨u, o₁ ++ p₁, p₂, ?_, hfs, by rw [List.append_assoc]⟩
      exact run_cons_eq_some_iff.mpr ⟨t, o₁, p₁, hstep, hes, rfl⟩
    · rintro ⟨u, o₁, o₂, hes, hfs, rfl⟩
      obtain ⟨t, p₁, p₂, hstep, hrun, rfl⟩ := run_cons_eq_some_iff.mp hes
      exact ⟨t, p₁, p₂ ++ o₂, hstep, ih.mpr ⟨u, p₂, o₂, hrun, hfs, rfl⟩, by simp⟩

/-- A list of events whose steps are possible in every state has a run. -/
theorem exists_run (h : ∀ e ∈ es, ∀ s, (step s e).isSome) (s : σ) :
    ∃ s' out, run step s es = some (s', out) := by
  induction es generalizing s with
  | nil => exact ⟨s, [], rfl⟩
  | cons e es ih =>
    obtain ⟨r, hr⟩ := Option.isSome_iff_exists.mp (h e (by simp) s)
    obtain ⟨s', out, hrun⟩ := ih (fun e he => h e (by simp [he])) r.1
    exact ⟨s', r.2 ++ out, run_cons_eq_some_iff.mpr ⟨r.1, r.2, out, hr, hrun, rfl⟩⟩

/-- Invariants that speak of the history: the events so far and what was put out so far. -/
theorem run_history {I : σ → List ε → List ω → Prop} (hinit : I s [] [])
    (hstep : ∀ {s h o e s' o'}, I s h o → step s e = some (s', o') → I s' (h ++ [e]) (o ++ o'))
    (hrun : run step s es = some (s', out)) : I s' es out := by
  suffices hgen : ∀ {s h o es s' out}, I s h o → run step s es = some (s', out) →
      I s' (h ++ es) (o ++ out) by
    simpa using hgen hinit hrun
  intro s h o es s' out hI hrun
  induction es generalizing s h o out with
  | nil =>
    obtain ⟨rfl, rfl⟩ : s = s' ∧ out = [] := by simpa [eq_comm] using hrun
    simpa using hI
  | cons e es ih =>
    obtain ⟨t, o₁, o₂, hse, hres, rfl⟩ := run_cons_eq_some_iff.mp hrun
    have := ih (hstep hI hse) hres
    simpa using this

/-- Invariants of the state alone. -/
theorem run_invariant {I : σ → Prop} (hinit : I s)
    (hstep : ∀ {s e s' o}, I s → step s e = some (s', o) → I s')
    (hrun : run step s es = some (s', out)) : I s' :=
  run_history (I := fun s _ _ => I s) hinit (fun hI hse => hstep hI hse) hrun

theorem reachable_invariant {init : σ → Prop} {I : σ → Prop} (hinit : ∀ s, init s → I s)
    (hstep : ∀ {s e s' o}, I s → step s e = some (s', o) → I s')
    (hreach : Reachable step init s) : I s := by
  obtain ⟨s₀, es, out, h0, hrun⟩ := hreach
  exact run_invariant (hinit s₀ h0) hstep hrun

end Runs

section Loops

variable {σ ρ : Type} {body : σ → σ ⊕ ρ} {s s' : σ} {r r' : ρ}

theorem returns_inl (h : body s = .inl s') : Returns body s r ↔ Returns body s' r := by
  constructor
  · rintro ⟨n, hn⟩
    cases n with
    | zero => simp [loop] at hn
    | succ n => exact ⟨n, by simpa [loop, h] using hn⟩
  · rintro ⟨n, hn⟩
    exact ⟨n + 1, by simpa [loop, h] using hn⟩

theorem returns_inr (h : body s = .inr r') : Returns body s r ↔ r = r' := by
  constructor
  · rintro ⟨n, hn⟩
    cases n with
    | zero => simp [loop] at hn
    | succ n => simpa [loop, h, eq_comm] using hn
  · rintro rfl
    exact ⟨1, by simp [loop, h]⟩

/-- A loop that never leaves a set of states from which it goes on has no result. -/
theorem not_returns (I : σ → Prop) (hI : ∀ s, I s → ∃ s', body s = .inl s' ∧ I s') (hs : I s) :
    ¬ Returns body s r := by
  rintro ⟨n, hn⟩
  induction n generalizing s with
  | zero => simp [loop] at hn
  | succ n ih =>
    obtain ⟨s', hb, hs'⟩ := hI s hs
    exact ih hs' (by simpa [loop, hb] using hn)

end Loops

end Machine
