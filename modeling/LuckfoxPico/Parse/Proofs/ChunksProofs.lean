import LuckfoxPico.Machine.Proofs.RunsProofs
import LuckfoxPico.Parse.Chunks

/-!
# Proofs: buffers that are taken apart chunk by chunk

The loop ends for every buffer except those in which it comes to a chunk that it cannot remove: then
it puts out the same chunk for ever.
-/

namespace Chunks

open Machine

variable {β γ η : Type} {rd : Reader β γ η} {data c rest : List β} {cs : List (List β)}
  {out out' : List γ} {h : η}

theorem pull_append : pull c.length (c ++ rest) = rest := by
  rw [pull, if_neg (by simp), List.drop_left]

/-- What stays as it is when a chunk is removed. -/
theorem pull_eq_self_iff {n : Nat} :
    pull n data = data ↔ data.length < n ∨ n = 0 ∨ data = [] := by
  rw [pull]
  split
  next hlt => simp [hlt]
  next hge =>
    constructor
    · intro heq
      have hlen := congrArg List.length heq
      rw [List.length_drop] at hlen
      by_cases hnil : data.length = 0
      · exact Or.inr (Or.inr (List.length_eq_zero_iff.mp hnil))
      · exact Or.inr (Or.inl (by omega))
    · rintro (hlt | rfl | rfl)
      · exact absurd hlt hge
      · rfl
      · simp

/-- The loop goes on behind a chunk. -/
theorem returns_chunk (hhalt : rd.halt (c ++ rest) = none)
    (hsize : rd.size (c ++ rest) = c.length) :
    Returns (body rd) (c ++ rest, out) (h, out') ↔
      Returns (body rd) (rest, out ++ [rd.emit (c ++ rest)]) (h, out') := by
  refine returns_inl ?_
  simp [body, hhalt, hsize, pull_append]

theorem returns_halt (hhalt : rd.halt data = some h) :
    Returns (body rd) (data, out) (h, out) := by
  refine (returns_inr ?_).mpr rfl
  simp [body, hhalt]

/-- What the loop does does not depend on what it has put out before. -/
theorem Split.exists_returns (hs : Split rd cs rest data) (hhalt : rd.halt rest = some h)
    (out : List γ) : ∃ out', Returns (body rd) (data, out) (h, out') := by
  induction hs generalizing out with
  | nil rest => exact ⟨out, returns_halt hhalt⟩
  | cons hnone hsize _ ih =>
    obtain ⟨out', hret⟩ := ih hhalt _
    exact ⟨out', (returns_chunk hnone hsize).mpr hret⟩

/-- A chunk that cannot be removed is put out for ever. -/
theorem not_returns_of_pull_eq (hhalt : rd.halt data = none)
    (hpull : pull (rd.size data) data = data)
    (r : η × List γ) : ¬ Returns (body rd) (data, out) r := by
  refine not_returns (fun s => s.1 = data) ?_ rfl
  rintro ⟨d, o⟩ rfl
  exact ⟨(d, o ++ [rd.emit d]), by simp [body, hhalt, hpull], rfl⟩

theorem Split.not_returns (hs : Split rd cs rest data) (hhalt : rd.halt rest = none)
    (hpull : pull (rd.size rest) rest = rest) (r : η × List γ) (out : List γ) :
    ¬ Returns (body rd) (data, out) r := by
  induction hs generalizing out with
  | nil rest => exact not_returns_of_pull_eq hhalt hpull r
  | cons hnone hsize _ ih =>
    rw [returns_chunk hnone hsize]
    exact ih hhalt hpull _

/-- Every buffer is taken apart until the loop ends or comes to a chunk that it cannot remove. -/
theorem exists_split (rd : Reader β γ η) (data : List β) :
    ∃ cs rest, Split rd cs rest data ∧
      ((∃ h, rd.halt rest = some h) ∨
        (rd.halt rest = none ∧ pull (rd.size rest) rest = rest)) := by
  induction hn : data.length using Nat.strongRecOn generalizing data with
  | ind n ih =>
    cases hhalt : rd.halt data with
    | some h => exact ⟨[], data, .nil data, Or.inl ⟨h, hhalt⟩⟩
    | none =>
      by_cases hpull : pull (rd.size data) data = data
      · exact ⟨[], data, .nil data, Or.inr ⟨hhalt, hpull⟩⟩
      · have hle : rd.size data ≤ data.length := by
          by_contra hlt
          exact hpull (by rw [pull, if_pos (Nat.lt_of_not_le hlt)])
        have hpos : 0 < rd.size data := by
          by_contra hzero
          have hzero : rd.size data = 0 := by omega
          exact hpull (by simp [pull, hzero])
        have hdrop : (data.drop (rd.size data)).length < n := by
          rw [List.length_drop]
          omega
        obtain ⟨cs, rest, hs, hend⟩ := ih _ hdrop _ rfl
        have hcat : data.take (rd.size data) ++ data.drop (rd.size data) = data :=
          List.take_append_drop _ _
        have hsplit : Split rd (data.take (rd.size data) :: cs) rest
            (data.take (rd.size data) ++ data.drop (rd.size data)) := by
          refine .cons (by rw [hcat]; exact hhalt) ?_ hs
          rw [hcat, List.length_take]
          omega
        rw [hcat] at hsplit
        exact ⟨_, rest, hsplit, hend⟩

/-- The loop ends exactly if it does not come to a chunk that it cannot remove. -/
theorem exists_reads_iff : (∃ h out, Reads rd data h out) ↔ ¬ Stuck rd data := by
  constructor
  · rintro ⟨h, out, hret⟩ ⟨cs, rest, hs, hhalt, hpull⟩
    exact hs.not_returns hhalt hpull (h, out) [] hret
  · intro hno
    obtain ⟨cs, rest, hs, hend⟩ := exists_split rd data
    rcases hend with ⟨h, hhalt⟩ | ⟨hhalt, hpull⟩
    · obtain ⟨out, hret⟩ := hs.exists_returns hhalt []
      exact ⟨h, out, hret⟩
    · exact absurd ⟨cs, rest, hs, hhalt, hpull⟩ hno

/-- A buffer that begins with items, each of which is written so that the loop reads it back
whatever follows. -/
theorem returns_flatMap {α : Type} {write : α → List β} {value : α → γ} {items : List α}
    (hitem : ∀ a ∈ items, ∀ tail, rd.halt (write a ++ tail) = none ∧
      rd.size (write a ++ tail) = (write a).length ∧ rd.emit (write a ++ tail) = value a) :
    Returns (body rd) (items.flatMap write ++ rest, out) (h, out') ↔
      Returns (body rd) (rest, out ++ items.map value) (h, out') := by
  induction items generalizing out with
  | nil => simp
  | cons a items ih =>
    obtain ⟨hnone, hsize, hemit⟩ := hitem a (by simp) (items.flatMap write ++ rest)
    rw [List.flatMap_cons, List.append_assoc, returns_chunk hnone hsize, hemit,
      ih fun b hb => hitem b (List.mem_cons_of_mem a hb), List.map_cons, List.append_assoc]
    rfl

end Chunks
