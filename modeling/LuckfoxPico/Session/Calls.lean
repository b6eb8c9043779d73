import Mathlib.Data.List.Basic

/-!
# Sessions that stop at their first failing call

A session is a plan, the list of calls it makes if nothing fails, each with its outcome. What it
really makes is the plan up to and including the first call that fails.
-/

namespace Session

section Sessions

variable {Call : Type} (ok : Call → Bool)

/-- The calls of a plan that are made: all up to the first failure, and that one. -/
def made : List Call → List Call
  | [] => []
  | c :: cs => c :: if ok c then made cs else []

/-- The call a session stops at. -/
def firstFailure (plan : List Call) : Option Call := plan.find? (fun c => !ok c)

end Sessions

/-! ## What is made of a plan -/

variable {Call : Type} {ok : Call → Bool}

theorem firstFailure_eq_none {plan : List Call} :
    firstFailure ok plan = none ↔ ∀ c ∈ plan, ok c = true := by
  simp [firstFailure]

/-- The second of two plans is started only after the whole first one. -/
theorem made_append (p q : List Call) :
    made ok (p ++ q) = if firstFailure ok p = none then p ++ made ok q else made ok p := by
  induction p with
  | nil => simp [firstFailure]
  | cons c cs ih =>
    cases hc : ok c with
    | false => simp [made, firstFailure, hc]
    | true =>
      have hfail : firstFailure ok (c :: cs) = firstFailure ok cs := by simp [firstFailure, hc]
      rw [hfail, List.cons_append, made, made, hc, if_pos rfl, if_pos rfl, ih]
      split <;> rfl

theorem firstFailure_append (p q : List Call) :
    firstFailure ok (p ++ q) = (firstFailure ok p).or (firstFailure ok q) := List.find?_append

theorem made_subset {plan : List Call} : made ok plan ⊆ plan := by
  induction plan with
  | nil => exact List.Subset.refl []
  | cons d ds ih =>
    intro c hc
    rcases List.mem_cons.mp hc with rfl | hc
    · exact List.mem_cons_self
    · split at hc
      · exact List.mem_cons_of_mem _ (ih hc)
      · cases hc

/-- In front of a call that is made nothing has failed. -/
theorem made_eq_append {plan a b : List Call} {c : Call} (h : made ok plan = a ++ c :: b) :
    (∃ rest, plan = a ++ c :: rest) ∧ ∀ d ∈ a, ok d = true := by
  induction plan generalizing a with
  | nil => exact absurd h (by simp [made])
  | cons d ds ih =>
    rw [made] at h
    cases a with
    | nil =>
      obtain ⟨rfl, -⟩ := List.cons.inj h
      exact ⟨⟨ds, rfl⟩, fun d hd => absurd hd List.not_mem_nil⟩
    | cons e a =>
      obtain ⟨rfl, hrest⟩ := List.cons.inj h
      split at hrest
      · next hok =>
        obtain ⟨⟨rest, hplan⟩, hall⟩ := ih hrest
        refine ⟨⟨rest, by rw [hplan, List.cons_append]⟩, fun e he => ?_⟩
        rcases List.mem_cons.mp he with rfl | he
        · exact hok
        · exact hall e he
      · exact absurd hrest (by simp)

end Session
