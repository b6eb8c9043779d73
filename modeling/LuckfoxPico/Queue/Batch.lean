import LuckfoxPico.Queue.Levels

/-!
# Sending in batches on credit

A sender takes from queues with levels, gathers what it takes in a batch, and sends the batch as a
burst. How much it may send is granted from time to time; a burst uses the credit up.
-/

namespace Batch

variable {α : Type} (level : α → Nat)

structure State (α : Type) where
  levels : Levels.State α
  batch : List α
  credit : Int

inductive Act (α : Type)
  | put (x : α)
  | take (x : α)
  | grant (r : Int)
  | burst (xs : List α)

/-- The steps of the sender: it takes what is on top, as far as the credit goes. -/
inductive Step : State α → Act α → State α → Prop
  | put (s : State α) (x : α) :
      Step s (.put x) { s with levels := Levels.push s.levels (level x) x }
  | take (s : State α) (x : α) (htop : Levels.Top s.levels (level x) x)
      (hroom : (s.batch.length : Int) < s.credit) :
      Step s (.take x)
        { s with levels := Levels.pop s.levels (level x), batch := s.batch ++ [x] }
  | grant (s : State α) (r : Int) (hnil : s.batch = []) : Step s (.grant r) { s with credit := r }
  | burst (s : State α) (hne : s.batch ≠ []) :
      Step s (.burst s.batch) { s with batch := [], credit := s.credit - s.batch.length }

/-- The runs of the sender from a state on. -/
inductive Run (s₀ : State α) : List (Act α) → State α → Prop
  | start : Run s₀ [] s₀
  | step {acts : List (Act α)} {s t : State α} {a : Act α} (hrun : Run s₀ acts s)
      (hstep : Step level s a t) : Run s₀ (acts ++ [a]) t

/-- Nothing is queued. -/
def State.start (credit : Int) : State α := ⟨fun _ => [], [], credit⟩

def Act.put? : Act α → Option α
  | .put x => some x
  | _ => none

def Act.burst? : Act α → Option (List α)
  | .burst xs => some xs
  | _ => none

/-- What has been put in. -/
def putOf (acts : List (Act α)) : List α :=
  acts.filterMap Act.put?

/-- The bursts that have been sent. -/
def burstsOf (acts : List (Act α)) : List (List α) :=
  acts.filterMap Act.burst?

end Batch
