import LuckfoxPico.Queue.Levels

/-!
# Proofs: queues with levels
-/

namespace Levels

variable {α : Type} {level : α → Nat} {l : State α} {taken put : List α} {p : Nat} {x : α}

theorem Placed.push (h : Placed level l) (x : α) : Placed level (push l (level x) x) := by
  intro p y hy
  by_cases hp : p = level x
  · subst hp
    simp only [Levels.push, Function.update_self, List.mem_append, List.mem_singleton] at hy
    rcases hy with hy | rfl
    · exact h _ y hy
    · rfl
  · rw [Levels.push, Function.update_of_ne hp] at hy
    exact h p y hy

theorem Placed.pop (h : Placed level l) : Placed level (pop l p) := by
  intro q y hy
  by_cases hq : q = p
  · subst hq
    rw [Levels.pop, Function.update_self] at hy
    exact h q y (List.mem_of_mem_tail hy)
  · rw [Levels.pop, Function.update_of_ne hq] at hy
    exact h q y hy

theorem Placed.level_eq (h : Placed level l) (hx : (l p).head? = some x) : level x = p :=
  h p x (List.mem_of_head? hx)

theorem Serves.push (h : Serves level l taken put) (x : α) :
    Serves level (push l (level x) x) taken (put ++ [x]) := by
  intro p
  rw [List.filter_append, ← h p]
  by_cases hp : p = level x
  · subst hp
    simp [Levels.push]
  · have hx : ¬ level x = p := fun he => hp he.symm
    simp [Levels.push, hp, hx]

theorem Serves.pop (h : Serves level l taken put) (hx : (l (level x)).head? = some x) :
    Serves level (pop l (level x)) (taken ++ [x]) put := by
  intro p
  rw [List.filter_append, ← h p]
  by_cases hp : p = level x
  · subst hp
    obtain ⟨xs, hxs⟩ := List.head?_eq_some_iff.mp hx
    simp [Levels.pop, hxs]
  · have hne : ¬ level x = p := fun he => hp he.symm
    simp [Levels.pop, hp, hne]

end Levels
