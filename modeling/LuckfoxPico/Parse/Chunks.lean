import LuckfoxPico.Machine.Runs

/-!
# Buffers that are taken apart chunk by chunk

A loop looks at what is left of a buffer: it ends, or it puts out what it makes of the chunk at the
beginning and removes the chunk. A chunk that is longer than what is left cannot be removed, and the
buffer stays as it is.
-/

namespace Chunks

open Machine

variable {β γ η : Type}

/-- How the chunks of a buffer are read: whether the loop ends, the size of the chunk, and what is
made of it. -/
structure Reader (β γ η : Type) where
  halt : List β → Option η
  size : List β → Nat
  emit : List β → γ

variable (rd : Reader β γ η)

/-- Removes `n` elements from the beginning, none if there are not so many. -/
def pull (n : Nat) (data : List β) : List β := if data.length < n then data else data.drop n

/-- A turn of the loop. -/
def body (s : List β × List γ) : List β × List γ ⊕ η × List γ :=
  match rd.halt s.1 with
  | some h => .inr (h, s.2)
  | none => .inl (pull (rd.size s.1) s.1, s.2 ++ [rd.emit s.1])

/-- The loop over a buffer ends for the reason `h`, after it has put out `out`. -/
def Reads (data : List β) (h : η) (out : List γ) : Prop := Returns (body rd) (data, []) (h, out)

/-- A buffer that the loop takes apart into the chunks `cs` and what is left. -/
inductive Split (rd : Reader β γ η) : List (List β) → List β → List β → Prop
  | nil (rest : List β) : Split rd [] rest rest
  | cons {c data rest : List β} {cs : List (List β)} : rd.halt (c ++ data) = none →
      rd.size (c ++ data) = c.length → Split rd cs rest data → Split rd (c :: cs) rest (c ++ data)

/-- The loop comes to a chunk that it cannot remove. -/
def Stuck (data : List β) : Prop :=
  ∃ cs rest, Split rd cs rest data ∧ rd.halt rest = none ∧ pull (rd.size rest) rest = rest

end Chunks
