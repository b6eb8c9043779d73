import LuckfoxPico.Queue.Levels

/-!
# The frame queue of the AIC8800 driver

`struct frame_queue` (`aicwf_txrxif.c`): eight lists and a cursor above which all lists are empty.
-/

namespace Aic

open Levels

/-- `struct frame_queue` -/
structure FrameQueue (α : Type) where
  hiPrio : Nat
  qmax : Nat
  qcnt : Nat
  queuelist : State α

namespace FrameQueue

variable {α : Type}

/-- `aicwf_frame_queue_init` -/
def init (maxLen : Nat) : FrameQueue α :=
  ⟨0, maxLen, 0, fun _ => []⟩

/-- `aicwf_frame_queue_penq` -/
def penq (pq : FrameQueue α) (prio : Nat) (p : α) : Option (FrameQueue α) :=
  if (pq.queuelist prio).length ≥ pq.qmax then none
  else some { pq with
    queuelist := Function.update pq.queuelist prio (pq.queuelist prio ++ [p])
    qcnt := pq.qcnt + 1
    hiPrio := if pq.hiPrio < prio then prio else pq.hiPrio }

/-- `aicwf_frame_enq`: the queue afterwards, if there is room. -/
def enq (q : FrameQueue α) (prio : Nat) (pkt : α) : Option (FrameQueue α) :=
  if (q.queuelist prio).length < q.qmax ∧ q.qcnt < q.qmax then
    some ((q.penq prio pkt).getD q)
  else none

/-- The number of frames up to a priority. -/
def total (l : State α) : Nat → Nat
  | 0 => (l 0).length
  | prio + 1 => total l prio + (l (prio + 1)).length

/-- `aicwf_is_framequeue_empty` -/
def isEmpty (pq : FrameQueue α) : Bool :=
  !decide (total pq.queuelist pq.hiPrio > 0)

/-- The cursor of `aicwf_frame_dequeue` on its way down to a list that is not empty. -/
def lowerHiPrio (l : State α) : Nat → Nat
  | 0 => 0
  | prio + 1 => if (l (prio + 1)).isEmpty then lowerHiPrio l prio else prio + 1

/-- `aicwf_frame_dequeue` -/
def dequeue (pq : FrameQueue α) : Option α × FrameQueue α :=
  if pq.qcnt = 0 then (none, pq)
  else
    let prio := lowerHiPrio pq.queuelist pq.hiPrio
    match pq.queuelist prio with
    | [] => (none, { pq with hiPrio := prio })
    | p :: ps =>
      (some p, { pq with
        hiPrio := prio
        queuelist := Function.update pq.queuelist prio ps
        qcnt := pq.qcnt - 1 })

end FrameQueue

end Aic
