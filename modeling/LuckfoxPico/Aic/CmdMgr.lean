import Mathlib.Logic.Function.Basic
import LuckfoxPico.Machine.Runs

/-!
# The command manager of the AIC8800 driver

Commands to the firmware go through a queue (`rwnx_cmds.c`, `rwnx_send_msg` and `rwnx_send_msg1` in
`rwnx_msg_tx.c`). Callers put commands in, push the first one themselves and wait for its
confirmation; a work item pushes the commands that have been deferred. Callers, the work item and
the firmware take turns in any order; a step is what one of them does under the lock, or between two
locks. Messages that need no confirmation go past the queue. What `aicwf_set_cmd_tx` is called with,
and what goes into the buffers of the callers, is what a step puts out. `cmd_mgr_drain` is left out.
-/

namespace Aic

/-- `RWNX_CMD_ARRAY_SIZE` -/
def rwnxCmdArraySize : Nat := 40

/-- `RWNX_CMD_MAX_QUEUED` -/
def rwnxCmdMaxQueued : Nat := 16

/-- How a message that needs a confirmation is sent. -/
inductive SendKind
  /-- `rwnx_send_msg`, or `rwnx_send_msg1` without `defer` -/
  | normal
  /-- `rwnx_send_msg` of `ME_TRAFFIC_IND_REQ` or `MM_SET_ARPOFFLOAD_REQ` -/
  | deferId
  /-- `rwnx_send_msg1` with `defer` -/
  | force
deriving DecidableEq

/-- A caller that has got its element of `cmd_array` and is about to queue it: the confirmation it
needs, and whether it has a buffer for the confirmation. Only plain calls have one. -/
structure Call where
  slot : Nat
  reqid : Nat
  e2aMsg : Bool
  kind : SendKind
  plain : e2aMsg = true → kind = .normal
deriving DecidableEq

/-- `struct rwnx_cmd` of a queued command: the flags `WAIT_PUSH` and `WAIT_CFM`, and whether
`complete` has been called. -/
structure RwnxCmd where
  tkn : Nat
  slot : Nat
  reqid : Nat
  e2aMsg : Bool
  waitPush : Bool
  waitCfm : Bool
  complete : Bool
deriving DecidableEq

/-- A caller on its way out, which will wake the work item. -/
inductive Alert
  /-- after it has removed its command: if the queue is not empty -/
  | ifNonempty
  /-- after it has deferred its command: if `queue_sz <= 1` -/
  | ifAlone
  /-- after `cmd_mgr_queue_force_defer` -/
  | always
deriving DecidableEq

/-- Where `cmd_mgr_task_process` is. -/
inductive Worker
  | off
  /-- about to look at the first command -/
  | looking
  /-- waiting for the command that it has pushed -/
  | waiting (tkn : Nat)
  /-- its wait ran out, the lock not yet taken -/
  | expired (tkn : Nat)
deriving DecidableEq

/-- `struct rwnx_cmd_mgr` with `cmd_array`, the callers and the work item, and the confirmations
that the firmware owes. -/
structure CmdMgr where
  crashed : Bool
  nextTkn : Nat
  queueSz : Nat
  cmds : List RwnxCmd
  used : Nat → Bool
  cmdWork : Bool
  worker : Worker
  entering : List Call
  /-- the callers between the queue and `aicwf_set_cmd_tx`, with token and confirmation -/
  pushing : List (Nat × Nat)
  /-- the callers that wait for a confirmation, with the token of their command -/
  waiting : List Nat
  /-- the callers whose wait ran out and that have not yet taken the lock -/
  expired : List Nat
  alerts : List Alert
  /-- the callers of messages without a confirmation, with their elements of `cmd_array` -/
  passing : List Nat
  /-- the elements whose commands are out of the queue and that are about to be freed -/
  freeing : List Nat
  firmware : List Nat

/-- What is put out. -/
inductive CmdOut
  /-- `aicwf_set_cmd_tx` of a command -/
  | push (tkn : Nat)
  /-- `aicwf_set_cmd_tx` of a message without a confirmation -/
  | pass
  /-- a confirmation completes a command -/
  | cfm (tkn : Nat)
  /-- a confirmation is copied into the buffer of a caller -/
  | write (tkn : Nat)
  /-- a confirmation finds no command -/
  | unmatched (reqid : Nat)
deriving DecidableEq

/-- `rwnx_cmd_malloc` -/
def CmdMgr.cmdMalloc (s : CmdMgr) : Option Nat :=
  (List.range rwnxCmdArraySize).find? fun i => !s.used i

/-- `rwnx_cmd_free` -/
def CmdMgr.cmdFree (s : CmdMgr) (slot : Nat) : CmdMgr :=
  { s with used := Function.update s.used slot false }

/-- The last command has not got what it waits for. -/
def busy (cmds : List RwnxCmd) : Bool :=
  match cmds.getLast? with
  | none => false
  | some last => last.waitPush || last.waitCfm

/-- `cmd_mgr_queue` after its checks, up to the release of the lock, and
`cmd_mgr_queue_force_defer`. -/
def CmdMgr.enqueue (s : CmdMgr) (c : Call) (deferPush : Bool) : CmdMgr :=
  { s with
    cmds := s.cmds ++ [⟨s.nextTkn, c.slot, c.reqid, c.e2aMsg, deferPush, true, false⟩]
    nextTkn := s.nextTkn + 1
    queueSz := s.queueSz + 1
    pushing := if deferPush then s.pushing else s.pushing ++ [(s.nextTkn, c.reqid)]
    alerts :=
      if c.kind = .force then s.alerts ++ [.always]
      else if deferPush then s.alerts ++ [.ifAlone]
      else s.alerts }

/-- `cmd_mgr_queue` and `cmd_mgr_queue_force_defer` up to the release of the lock. A caller with a
buffer waits until the queue is empty. A command that is refused is to be freed by the caller. -/
def CmdMgr.queue (s : CmdMgr) (c : Call) : Option CmdMgr :=
  if c ∉ s.entering then none
  else if c.e2aMsg && !s.crashed && !s.cmds.isEmpty then none
  else
    let s := { s with entering := s.entering.erase c }
    let refused := { s with freeing := s.freeing ++ [c.slot] }
    if s.crashed then some refused
    else if !s.cmds.isEmpty && s.queueSz = rwnxCmdMaxQueued then some refused
    else some (s.enqueue c (busy s.cmds || c.kind ≠ .normal))

/-- `cmd_mgr_msgind`: the command that a confirmation completes, and the list afterwards. -/
def cmdMgrMsgind (reqid : Nat) : List RwnxCmd → Option (RwnxCmd × List RwnxCmd)
  | [] => none
  | c :: cs =>
    if c.reqid = reqid && c.waitCfm then
      some (c, { c with waitCfm := false, complete := true } :: cs)
    else (cmdMgrMsgind reqid cs).map fun r => (r.1, c :: r.2)

/-- The command with a token, if its confirmation has come. -/
def CmdMgr.completed? (s : CmdMgr) (tkn : Nat) : Option RwnxCmd :=
  s.cmds.find? fun c => c.tkn = tkn && c.complete

/-- The command with a token, if its confirmation is missing. -/
def CmdMgr.missing? (s : CmdMgr) (tkn : Nat) : Option RwnxCmd :=
  s.cmds.find? fun c => c.tkn = tkn && !c.complete

/-- `list_del` and `queue_sz--` -/
def CmdMgr.remove (s : CmdMgr) (c : RwnxCmd) : CmdMgr :=
  { s with cmds := s.cmds.erase c, queueSz := s.queueSz - 1, freeing := s.freeing ++ [c.slot] }

/-- Whether a caller on its way out wakes the work item. -/
def CmdMgr.wakes (s : CmdMgr) : Alert → Bool
  | .ifNonempty => !s.cmds.isEmpty
  | .ifAlone => s.queueSz ≤ 1
  | .always => true

/-- What happens to the command manager. -/
inductive CmdEvent
  /-- a caller gets an element of `cmd_array` -/
  | malloc (reqid : Nat) (e2aMsg : Bool) (kind : SendKind) (plain : e2aMsg = true → kind = .normal)
  /-- a caller enters the queue -/
  | queue (c : Call)
  /-- a caller pushes its command -/
  | push (tkn reqid : Nat)
  /-- a caller leaves with its confirmation -/
  | finish (tkn : Nat)
  /-- the wait of a caller runs out -/
  | expire (tkn : Nat)
  /-- a caller whose wait ran out takes the lock -/
  | crash (tkn : Nat)
  /-- a caller on its way out -/
  | alert (a : Alert)
  /-- the work item starts -/
  | workStart
  /-- the work item looks at the first command and pushes it, or stops -/
  | workLook
  /-- the work item removes the command that is confirmed -/
  | workFinish
  /-- the wait of the work item runs out -/
  | workExpire
  /-- the work item takes the lock after that -/
  | workCrash
  /-- the firmware confirms a command that was pushed -/
  | confirm (reqid : Nat)
  /-- the caller of a message without a confirmation gets an element of `cmd_array` -/
  | mallocPass
  /-- it hands its message over -/
  | pass (slot : Nat)
  /-- somebody frees an element -/
  | free (slot : Nat)

/-- The steps of the command manager. -/
def CmdMgr.step (s : CmdMgr) : CmdEvent → Option (CmdMgr × List CmdOut)
  | .malloc reqid e2aMsg kind plain => s.cmdMalloc.map fun slot =>
    ({ s with used := Function.update s.used slot true
              entering := s.entering ++ [⟨slot, reqid, e2aMsg, kind, plain⟩] }, [])
  | .queue c => (s.queue c).map fun s => (s, [])
  | .push tkn reqid =>
    if (tkn, reqid) ∉ s.pushing then none
    else some ({ s with pushing := s.pushing.erase (tkn, reqid)
                        waiting := s.waiting ++ [tkn]
                        firmware := s.firmware ++ [reqid] }, [.push tkn])
  | .finish tkn =>
    if tkn ∉ s.waiting then none
    else (s.completed? tkn).map fun c =>
      ({ s.remove c with waiting := s.waiting.erase tkn, alerts := s.alerts ++ [.ifNonempty] }, [])
  | .expire tkn =>
    if tkn ∉ s.waiting then none
    else (s.missing? tkn).map fun _ =>
      ({ s with waiting := s.waiting.erase tkn, expired := s.expired ++ [tkn] }, [])
  | .crash tkn =>
    if tkn ∉ s.expired then none
    else some ({ s with expired := s.expired.erase tkn, crashed := true }, [])
  | .alert a =>
    if a ∉ s.alerts then none
    else some ({ s with alerts := s.alerts.erase a, cmdWork := s.cmdWork || s.wakes a }, [])
  | .workStart =>
    if s.cmdWork && s.worker = .off then some ({ s with cmdWork := false, worker := .looking }, [])
    else none
  | .workLook =>
    if s.worker ≠ .looking then none
    else match s.cmds with
      | [] => some ({ s with worker := .off }, [])
      | c :: cs =>
        if c.waitPush then
          some ({ s with cmds := { c with waitPush := false } :: cs
                         worker := .waiting c.tkn
                         firmware := s.firmware ++ [c.reqid] }, [.push c.tkn])
        else some ({ s with worker := .off }, [])
  | .workFinish =>
    match s.worker with
    | .waiting tkn => (s.completed? tkn).map fun c => ({ s.remove c with worker := .looking }, [])
    | _ => none
  | .workExpire =>
    match s.worker with
    | .waiting tkn => (s.missing? tkn).map fun _ => ({ s with worker := .expired tkn }, [])
    | _ => none
  | .workCrash =>
    match s.worker with
    | .expired _ => some ({ s with worker := .looking, crashed := true }, [])
    | _ => none
  | .confirm reqid =>
    if reqid ∉ s.firmware then none
    else
      let s := { s with firmware := s.firmware.erase reqid }
      match cmdMgrMsgind reqid s.cmds with
      | none => some (s, [.unmatched reqid])
      | some (c, cmds) =>
        some ({ s with cmds := cmds }, .cfm c.tkn :: if c.e2aMsg then [.write c.tkn] else [])
  | .mallocPass => s.cmdMalloc.map fun slot =>
    ({ s with used := Function.update s.used slot true, passing := s.passing ++ [slot] }, [])
  | .pass slot =>
    if slot ∉ s.passing then none
    else some ({ s with passing := s.passing.erase slot
                        freeing := s.freeing ++ [slot] }, [.pass])
  | .free slot =>
    if slot ∉ s.freeing then none
    else some ({ s with freeing := s.freeing.erase slot }.cmdFree slot, [])

/-- The state after `rwnx_init_cmd_array` and `rwnx_cmd_mgr_init`. -/
def CmdMgr.init : CmdMgr where
  crashed := false
  nextTkn := 0
  queueSz := 0
  cmds := []
  used := fun _ => false
  cmdWork := false
  worker := .off
  entering := []
  pushing := []
  waiting := []
  expired := []
  alerts := []
  passing := []
  freeing := []
  firmware := []

end Aic
