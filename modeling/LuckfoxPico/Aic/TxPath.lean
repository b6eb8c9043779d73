import LuckfoxPico.Aic.FrameQueue
import LuckfoxPico.Machine.Runs

/-!
# The transmit path of the AIC8800 driver

Senders queue packets and messages and trigger the transmit thread (`aicwf_sdio_bus_txdata`,
`aicwf_sdio_bus_txmsg`); the thread sends the message, then takes packets off the queue, gathers
them in a buffer and sends the buffer, as far as the firmware has room (`aicwf_sdio_tx_process`,
`aicwf_sdio_send`). A buffer whose transfer fails is not sent again. Meanwhile the power control may
put the chip to sleep, and the bus may be stopped for good. A step is what one of them does up to
the next value that another one may change. The chip is an AIC8800DC; that a message cannot be sent,
or that the chip cannot be woken, is left out.
-/

namespace Aic

/-- `DATA_FLOW_CTRL_THRESH` -/
def dataFlowCtrlThresh : Nat := 2

/-- `FLOW_CTRL_RETRY_COUNT` -/
def flowCtrlRetryCount : Nat := 50

/-- `SDIOWIFI_FLOWCTRL_MASK_REG`: the register is read modulo 128. -/
def flowctrlMask (fcReg : Nat) : Nat := fcReg % 128

/-- `TX_ALIGNMENT` -/
def txAlignment : Nat := 4

/-- `TXPKT_BLOCKSIZE` -/
def txpktBlocksize : Nat := 512

/-- `TAIL_LEN` -/
def tailLen : Nat := 4

/-- `MAX_AGGR_TXPKT_LEN` -/
def maxAggrTxpktLen : Nat := 1536 * 64

/-- `TXQLEN` -/
def txqlen : Nat := 2048 * 4

/-- `sizeof(struct txdesc_api)` -/
def txdescLen : Nat := 28

/-- A packet: its priority, its descriptor and its data behind the headroom. -/
structure TxPkt where
  priority : Nat
  desc : List UInt8
  body : List UInt8
  desc_length : desc.length = txdescLen
deriving DecidableEq

/-- The queue a packet goes to. -/
def TxPkt.prio (pkt : TxPkt) : Nat := pkt.priority % 8

/-- Where `sdio_bustx_thread` is. -/
inductive TxPc
  /-- waiting for `bustx_trgg` -/
  | wait
  /-- triggered -/
  | woken
  /-- at the test for something to send -/
  | test
  /-- in `aicwf_sdio_tx_process` -/
  | process
  /-- in `aicwf_sdio_pwr_stctl` -/
  | pwr
  /-- the same, waiting for `pwrctl_wakeup_sema` -/
  | wake
  /-- at the test of `cmd_txstate` -/
  | cmd
  /-- about to send the message -/
  | msg
  /-- in front of the data part -/
  | data
  | fetch
  /-- in `aicwf_sdio_flow_ctrl` -/
  | flow
  /-- at the head of the loop -/
  | loop
  /-- in the loop, at the test of the bus -/
  | up
  /-- in the loop, at the test of `fw_avail_bufcnt` -/
  | room
  /-- in `aicwf_sdio_send` -/
  | send (txnow : Bool)
  /-- the same, with the packet taken off the queue -/
  | aggr (pkt : TxPkt) (txnow : Bool)
  /-- the same, in front of the last `atomic_dec` -/
  | dec (txnow : Bool)
  | stopped
deriving DecidableEq

/-- Where the power control is in `aicwf_sdio_sleep_allow`. It holds `pwrctl_wakeup_sema` unless it
is `idle`. -/
inductive PwrPc
  | idle
  /-- at the test of `tx_pktcnt` -/
  | pktcnt
  /-- at the test of `cmd_txstate` -/
  | cmd
  /-- about to set `SDIO_SLEEP_ST` -/
  | sleep
deriving DecidableEq

/-- `struct aicwf_tx_priv` with the bus, the power state and the thread. -/
structure TxPriv where
  busUp : Bool
  /-- `state` is `SDIO_ACTIVE_ST` -/
  active : Bool
  pwr : PwrPc
  cmdTxstate : Bool
  /-- the senders of a message that are about to look at the bus -/
  messaging : Nat
  txq : FrameQueue TxPkt
  /-- a sender has queued its packet, not yet counted it, and holds `txqlock` -/
  counting : Bool
  txPktcnt : Nat
  /-- the senders that are about to call `complete` -/
  triggering : Nat
  /-- the calls of `complete` that the thread has not waited for -/
  bustxTrgg : Nat
  fwAvailBufcnt : Int
  /-- what is between `head` and `tail` -/
  aggrBuf : List UInt8
  aggrCount : Nat
  pc : TxPc

/-- How `aicwf_sdio_txpkt` ends. -/
inductive TxpktRet
  /-- the transfer went through -/
  | sent
  /-- the transfer failed -/
  | failed
  /-- the bus was down, and nothing was transferred -/
  | down
deriving DecidableEq

/-- What is put out. -/
inductive TxOut
  | accept (pkt : TxPkt)
  | refuse (pkt : TxPkt)
  | msg
  /-- what `aicwf_sdio_flow_ctrl` returns -/
  | flow (ret : Int)
  /-- `aicwf_sdio_txpkt` is called, without the rest of the last block -/
  | burst (bytes : List UInt8) (ret : TxpktRet)
deriving DecidableEq

/-- `aicwf_sdio_flow_ctrl` on what the reads of the register give, `none` for a failure. It returns
nothing as long as it has to go on reading. -/
def flowCtrl (txAggrCounter : Int) (count : Nat) : List (Option Nat) → Option Int
  | [] => none
  | none :: _ => some (-1)
  | some fcReg :: reads =>
    if flowctrlMask fcReg > dataFlowCtrlThresh then
      some (if txAggrCounter < flowctrlMask fcReg then txAggrCounter else flowctrlMask fcReg)
    else if count ≥ flowCtrlRetryCount then some (-flowctrlMask fcReg)
    else flowCtrl txAggrCounter (count + 1) reads

/-- `roundup` -/
def roundup (n m : Nat) : Nat := (n + m - 1) / m * m

/-- `aicwf_sdio_aggr`: appends header, descriptor and data, pads the buffer to a word, and puts the
padded length into the header. -/
def TxPriv.aggrPkt (s : TxPriv) (pkt : TxPkt) : TxPriv :=
  let start := s.aggrBuf.length
  let len := pkt.body.length + txdescLen
  let header := [UInt8.ofNat (len % 256), UInt8.ofNat (len / 256 % 16), 0x01, 0]
  let buf := s.aggrBuf ++ header ++ pkt.desc ++ pkt.body
  let buf := buf ++ List.replicate (roundup buf.length txAlignment - buf.length) 0
  let len := buf.length - start - 4
  { s with
    aggrBuf := (buf.set start (UInt8.ofNat (len % 256))).set (start + 1)
      (UInt8.ofNat (len / 256 % 16))
    aggrCount := s.aggrCount + 1 }

/-- `aicwf_sdio_aggrbuf_reset` -/
def TxPriv.aggrbufReset (s : TxPriv) : TxPriv :=
  { s with aggrBuf := [], aggrCount := 0 }

/-- `aicwf_sdio_txpkt`; `ok` says whether the transfer goes through -/
def TxPriv.txpkt (s : TxPriv) (ok : Bool) : TxpktRet :=
  if !s.busUp then .down else if ok then .sent else .failed

/-- `aicwf_sdio_aggr_send`, with the buffers taken off `fw_avail_bufcnt` before. What the transfer
returns is only logged. -/
def TxPriv.aggrSend (s : TxPriv) (ok : Bool) : TxPriv × List TxOut :=
  let bytes :=
    if s.aggrBuf.length % txpktBlocksize ≠ 0 then s.aggrBuf ++ List.replicate tailLen 0
    else s.aggrBuf
  ({ s.aggrbufReset with fwAvailBufcnt := s.fwAvailBufcnt - s.aggrCount },
    [.burst bytes (s.txpkt ok)])

/-- All that the firmware has room for has been gathered. -/
def TxPriv.gathered (s : TxPriv) : Prop :=
  (s.aggrCount : Int) = s.fwAvailBufcnt - dataFlowCtrlThresh

instance (s : TxPriv) : Decidable s.gathered := inferInstanceAs (Decidable (_ = _))

/-- Where the thread goes on after `aicwf_sdio_send`. -/
def TxPc.next (txnow : Bool) : TxPc := if txnow then .wait else .loop

/-- `aicwf_sdio_send` up to the packet it takes off the queue -/
def TxPriv.send (s : TxPriv) (txnow ok : Bool) : Option (TxPriv × List TxOut) :=
  if (s.aggrCount = 0 ∧ s.aggrBuf.length ≠ 0) ∨ (s.aggrCount ≠ 0 ∧ s.aggrBuf.length = 0) then
    let s := if s.aggrBuf.length > 0 then s.aggrbufReset else s
    some ({ s with pc := .next txnow }, [])
  else if s.gathered then
    if s.aggrCount > 0 then
      some ({ (s.aggrSend ok).1 with pc := .next txnow }, (s.aggrSend ok).2)
    else some ({ s with pc := .next txnow }, [])
  else if s.counting then none
  else
    match s.txq.dequeue with
    | (none, txq) => some ({ s with txq := txq, pc := .next txnow }, [])
    | (some pkt, txq) => some ({ s with txq := txq, pc := .aggr pkt txnow }, [])

/-- `aicwf_sdio_send` from the packet on, up to the last `atomic_dec` -/
def TxPriv.sendPkt (s : TxPriv) (pkt : TxPkt) (txnow ok : Bool) : TxPriv × List TxOut :=
  let s := s.aggrPkt pkt
  if s.txPktcnt = 1 ∨ txnow = true ∨ s.gathered then
    ({ (s.aggrSend ok).1 with pc := .dec txnow }, (s.aggrSend ok).2)
  else ({ s with pc := .dec txnow }, [])

/-- The thread, except for its wait and for the reads of the flow control register. A transfer that
it makes goes through if `ok`. -/
def TxPriv.thread (s : TxPriv) (ok : Bool) : Option (TxPriv × List TxOut) :=
  match s.pc with
  | .wait => none
  | .woken => some ({ s with pc := if s.busUp then .test else .stopped }, [])
  | .test => some ({ s with pc := if s.txPktcnt > 0 || s.cmdTxstate then .process else .wait }, [])
  | .process => some ({ s with pc := if s.busUp then .pwr else .wait }, [])
  | .pwr => some ({ s with pc := if s.busUp then .wake else .cmd }, [])
  | .wake => if s.pwr = .idle then some ({ s with active := true, pc := .cmd }, []) else none
  | .cmd => some ({ s with pc := if s.cmdTxstate then .msg else .data }, [])
  | .msg =>
    if s.active then some ({ s with cmdTxstate := false, pc := .data }, [.msg])
    else some ({ s with pc := .wait }, [])
  | .data => some ({ s with pc := if s.active then .fetch else .wait }, [])
  | .fetch => some ({ s with pc := if s.txq.isEmpty then .loop else .flow }, [])
  | .flow => none
  | .loop => some ({ s with pc := if s.txq.isEmpty then .wait else .up }, [])
  | .up => some ({ s with pc := if s.busUp then .room else .wait }, [])
  | .room =>
    if s.fwAvailBufcnt ≤ dataFlowCtrlThresh then
      some ({ s with pc := if s.cmdTxstate then .wait else .flow }, [])
    else some ({ s with pc := .send s.cmdTxstate }, [])
  | .send txnow => s.send txnow ok
  | .aggr pkt txnow => some (s.sendPkt pkt txnow ok)
  | .dec txnow => some ({ s with txPktcnt := s.txPktcnt - 1, pc := .next txnow }, [])
  | .stopped => none

/-- `aicwf_sdio_pwr_stctl` and `aicwf_sdio_sleep_allow`; `allow` stands for all that does not depend
on the transmit path. -/
def TxPriv.sleepAllow (s : TxPriv) (allow : Bool) : TxPriv :=
  match s.pwr with
  | .idle => { s with pwr := if s.busUp && s.active && allow then .pktcnt else .idle }
  | .pktcnt => { s with pwr := if s.txPktcnt = 0 then .cmd else .idle }
  | .cmd => { s with pwr := if !s.cmdTxstate && allow then .sleep else .idle }
  | .sleep => { s with pwr := .idle, active := false }

/-- What happens. -/
inductive TxEvent
  /-- `aicwf_sdio_bus_txdata`, up to the packet in the queue; `up` is what the sender read before -/
  | txdata (pkt : TxPkt) (up : Bool)
  /-- a sender counts its packet and gives `txqlock` back -/
  | count
  /-- `aicwf_sdio_bus_txmsg`, up to `cmd_txstate` -/
  | txmsg
  /-- the sender of a message looks at the bus -/
  | txmsgBus
  /-- a sender calls `complete` -/
  | trigger
  /-- the power control goes on -/
  | sleepAllow (allow : Bool)
  /-- others wake the chip -/
  | wakeup
  | busDown
  /-- the thread is triggered -/
  | wait
  /-- the thread goes on -/
  | thread (ok : Bool)
  /-- the thread reads the register of the flow control -/
  | flow (reads : List (Option Nat))

/-- The steps. -/
def TxPriv.step (txAggrCounter : Int) (s : TxPriv) : TxEvent → Option (TxPriv × List TxOut)
  | .txdata pkt up =>
    -- the bus does not come up again, so that a sender may have found it up at any time
    if !up then if s.busUp then none else some (s, [.refuse pkt])
    else if s.counting then none
    else match s.txq.enq pkt.prio pkt with
      | none => some (s, [.refuse pkt])
      | some txq => some ({ s with txq := txq, counting := true }, [.accept pkt])
  | .count =>
    if s.counting then some ({ s with counting := false
                                      txPktcnt := s.txPktcnt + 1
                                      triggering := s.triggering + 1 }, [])
    else none
  | .txmsg => some ({ s with cmdTxstate := true, messaging := s.messaging + 1 }, [])
  | .txmsgBus =>
    if s.messaging = 0 then none
    else some ({ s with messaging := s.messaging - 1
                        triggering := if s.busUp then s.triggering + 1 else s.triggering }, [])
  | .trigger =>
    if s.triggering = 0 then none
    else some ({ s with triggering := s.triggering - 1, bustxTrgg := s.bustxTrgg + 1 }, [])
  | .sleepAllow allow => some (s.sleepAllow allow, [])
  | .wakeup => if s.pwr = .idle then some ({ s with active := true }, []) else none
  | .busDown => some ({ s with busUp := false }, [])
  | .wait =>
    if s.pc = .wait ∧ s.bustxTrgg ≠ 0 then
      some ({ s with bustxTrgg := s.bustxTrgg - 1, pc := .woken }, [])
    else none
  | .thread ok => s.thread ok
  | .flow reads =>
    if s.pc = .flow then
      (flowCtrl txAggrCounter 0 reads).map fun ret =>
        ({ s with fwAvailBufcnt := ret, pc := .loop }, [.flow ret])
    else none

/-- The state after `aicwf_sdio_bus_start`. -/
def TxPriv.init : TxPriv where
  busUp := true
  active := false
  pwr := .idle
  cmdTxstate := false
  messaging := 0
  txq := .init txqlen
  counting := false
  txPktcnt := 0
  triggering := 0
  bustxTrgg := 0
  fwAvailBufcnt := 0
  aggrBuf := []
  aggrCount := 0
  pc := .wait

end Aic
