import Mathlib.Logic.Function.Basic
import LuckfoxPico.Aic.SkBuff
import LuckfoxPico.Machine.Runs

/-!
# The receive reordering of the AIC8800 driver

`rwnx_rx.c` puts the frames of a block acknowledgement session back in order. Every station has a
control block for each of eight traffic identifiers, with the frames that came too early. The
descriptors of the frames come from a pool that all stations share.

Frames that are handed to the network stack and frames that are freed are what a step puts out. A
step is a call of a function; a timer expires, and its work runs, at any time. The frames are
handled by one thread. `reord_deinit_sta` is called by others, and gives its locks back between the
blocks and in front of `list_del`: that it is one step leaves out that a frame of the station comes
in meanwhile.
-/

namespace Aic

/-- `struct recv_msdu`, with the fields of a frame that is being handled. The driver takes four bits
of the header for the traffic identifier and does not check that it has a control block. -/
structure RecvMsdu where
  pkt : SkBuff
  tid : Fin 8
  seqNum : Fin 4096
  forward : Bool
  isAmsdu : Bool
deriving DecidableEq

/-- What becomes of a frame. -/
inductive Fate
  /-- it is submitted to the network stack -/
  | netif (f : RecvMsdu)
  /-- `dev_kfree_skb` -/
  | freed (skb : SkBuff)
deriving DecidableEq

/-- The packet of a fate. -/
def Fate.skb : Fate → SkBuff
  | .netif f => f.pkt
  | .freed skb => skb

/-- `AICWF_REORDER_WINSIZE` -/
def reorderWinsize : Nat := 64

/-- `MAX_REORD_RXFRAME` -/
def maxReordRxframe : Nat := 250

/-- `ETH_P_PAE` -/
def ethPPae : Nat := 0x888E

/-- `SN_LESS`: bit 11 of the difference, which is computed as an `int`. -/
def snLess (a b : Nat) : Bool := ((a : Int) - b) / 0x800 % 2 = 1

/-- `struct reord_ctrl`: `ind_sn` is `0xffff` before the first frame; the timer and the work are
pending or not. -/
structure ReordCtrl where
  enable : Bool
  indSn : Nat
  wsizeB : Nat
  reordList : List RecvMsdu
  reordTimer : Bool
  reordTimerWork : Bool
deriving DecidableEq

/-- `reord_single_frame_ind` up to the hand-over; the descriptor goes back to the pool. -/
def reordSingleFrameInd (f : RecvMsdu) : Fate := if f.forward then .netif f else .freed f.pkt

/-- `reord_need_check`: whether it returns -1, and the control block afterwards. -/
def reordNeedCheck (c : ReordCtrl) (seqNum : Nat) : Bool × ReordCtrl :=
  let wsize := c.wsizeB
  let wend := (c.indSn + wsize - 1) % 0x1000
  let c := if c.indSn = 0xFFFF then { c with indSn := seqNum } else c
  if snLess seqNum c.indSn then (true, c)
  else if seqNum = c.indSn then (false, { c with indSn := (c.indSn + 1) % 0x1000 })
  else if snLess wend seqNum then
    if wsize - 1 ≤ seqNum then (false, { c with indSn := seqNum - (wsize - 1) })
    else (false, { c with indSn := 0xFFF - (wsize - (seqNum + 1)) + 1 })
  else (false, c)

/-- `reord_rxframe_enqueue`: the list with the frame in its place, or -1 for a frame with a
sequence number that is there. -/
def reordRxframeEnqueue (f : RecvMsdu) : List RecvMsdu → Option (List RecvMsdu)
  | [] => some [f]
  | p :: ps =>
    if snLess p.seqNum f.seqNum then (reordRxframeEnqueue f ps).map (p :: ·)
    else if p.seqNum = f.seqNum then none
    else some (f :: p :: ps)

/-- The loop of `reord_rxframes_process`: `ind_sn` afterwards, and `bPktInBuf`. -/
def processLoop (indSn : Nat) : List RecvMsdu → Nat × Bool
  | [] => (indSn, false)
  | p :: ps =>
    if !snLess indSn p.seqNum then
      if indSn = p.seqNum then processLoop ((indSn + 1) % 0x1000) ps else processLoop indSn ps
    else (indSn, true)

/-- `reord_rxframes_process` -/
def reordRxframesProcess (c : ReordCtrl) (forced : Bool) : ReordCtrl × Bool :=
  match c.reordList with
  | [] => (c, false)
  | p :: _ =>
    let c := if forced then { c with indSn := p.seqNum } else c
    let r := processLoop c.indSn c.reordList
    ({ c with indSn := r.1 }, r.2)

/-- `reord_rxframes_ind`: hands on from the head of the list what is not ahead of `ind_sn`. -/
def reordRxframesInd (c : ReordCtrl) : ReordCtrl × List Fate :=
  ({ c with reordList := c.reordList.dropWhile fun p => !snLess c.indSn p.seqNum },
    (c.reordList.takeWhile fun p => !snLess c.indSn p.seqNum).map reordSingleFrameInd)

/-- The part of `reord_process_unit` that is about one control block. -/
def reordReceive (c : ReordCtrl) (f : RecvMsdu) : ReordCtrl × List Fate :=
  if c.enable = false then
    ({ c with indSn := (f.seqNum + 1) % 4096 }, [reordSingleFrameInd f])
  else
    match reordNeedCheck c f.seqNum with
    | (true, c) =>
      -- a frame that looks like an RTP packet is not handed on out of turn
      if f.pkt.byte 42 = 0x80 then
        if f.seqNum = c.indSn then (c, [reordSingleFrameInd f]) else (c, [.freed f.pkt])
      else (c, [reordSingleFrameInd f])
    | (false, c) =>
      match reordRxframeEnqueue f c.reordList with
      | none => (c, [.freed f.pkt])
      | some l =>
        match reordRxframesProcess { c with reordList := l } false with
        | (c, inBuf) => reordRxframesInd { c with reordTimer := inBuf }

/-- `reord_timeout_handler`: the timer has expired, the work is scheduled. -/
def reordTimeoutHandler (c : ReordCtrl) : ReordCtrl :=
  { c with reordTimer := false, reordTimerWork := true }

/-- `reord_timeout_worker` -/
def reordTimeoutWorker (c : ReordCtrl) : ReordCtrl × List Fate :=
  match reordRxframesProcess { c with reordTimerWork := false } true with
  | (c, inBuf) => reordRxframesInd (if inBuf then { c with reordTimer := true } else c)

/-! ## All stations -/

/-- `struct reord_ctrl_info` -/
structure ReordCtrlInfo where
  macAddr : List UInt8
  preorderCtrl : Fin 8 → ReordCtrl

/-- What the reordering uses of `struct aicwf_rx_priv`: the number of descriptors in the pool and
the stations. -/
structure RxPriv where
  rxframesFreequeue : Nat
  stasReordList : List ReordCtrlInfo

/-- The interface types that the reordering tells apart. -/
inductive Iftype
  | station
  | p2pClient
  | ap
  | p2pGo
  | other
deriving DecidableEq

/-- The address by which a station is found, depending on the interface. -/
def peerMac (skb : SkBuff) : Iftype → Option (List UInt8)
  | .station | .p2pClient => some skb.hDest
  | .ap | .p2pGo => some skb.hSource
  | .other => none

/-- A control block after `reord_init_sta`. -/
def ReordCtrl.fresh : ReordCtrl :=
  { enable := true, indSn := 0xFFFF, wsizeB := reorderWinsize, reordList := [],
    reordTimer := false, reordTimerWork := false }

/-- `reord_init_sta`, which needs a bus that is up and memory. -/
def reordInitSta (ok : Bool) (mac : List UInt8) : Option ReordCtrlInfo :=
  if ok then some ⟨mac, fun _ => .fresh⟩ else none

/-- The station with an address. -/
def RxPriv.sta? (rx : RxPriv) (mac : List UInt8) : Option ReordCtrlInfo :=
  rx.stasReordList.find? fun i => i.macAddr = mac

/-- A step of one control block; the descriptors of the frames that it puts out are free again. -/
def RxPriv.onCtrl (rx : RxPriv) (mac : List UInt8) (tid : Fin 8) (r : ReordCtrl × List Fate) :
    RxPriv × List Fate :=
  ({ rxframesFreequeue := rx.rxframesFreequeue + r.2.length
     stasReordList := rx.stasReordList.map fun i =>
       if i.macAddr = mac then ⟨i.macAddr, Function.update i.preorderCtrl tid r.1⟩ else i },
    r.2)

/-- The control block as `reord_process_unit` finds it: a disabled one starts anew. -/
def ReordCtrl.enabled (c : ReordCtrl) : ReordCtrl :=
  if c.enable = false then { c with enable := true, indSn := 0xFFFF, wsizeB := reorderWinsize }
  else c

/-- `reord_process_unit` -/
def reordProcessUnit (iftype : Iftype) (initOk : Bool) (rx : RxPriv) (skb : SkBuff)
    (seqNum : Fin 4096) (tid : Fin 8) (forward isAmsdu : Bool) : RxPriv × List Fate :=
  if skb.len ≤ 14 then (rx, [.freed skb])
  else if rx.rxframesFreequeue = 0 then (rx, [.freed skb])
  else
    let f : RecvMsdu := ⟨skb, tid, seqNum, forward, isAmsdu⟩
    if skb.hProto = ethPPae || skb.isMcast then (rx, [reordSingleFrameInd f])
    else
      -- from here on the descriptor is taken out of the pool
      let rx := { rx with rxframesFreequeue := rx.rxframesFreequeue - 1 }
      match peerMac skb iftype with
      | none => (rx, [.freed skb])
      | some mac =>
        match rx.sta? mac with
        | none =>
          match reordInitSta initOk mac with
          | none => (rx, [.freed skb])
          | some info =>
            { rx with stasReordList := rx.stasReordList ++ [info] }.onCtrl mac tid
              (reordReceive (info.preorderCtrl tid) f)
        | some info => rx.onCtrl mac tid (reordReceive (info.preorderCtrl tid).enabled f)

/-- A control block after `reord_flush_tid`, which hands on everything it holds. -/
def ReordCtrl.flush (c : ReordCtrl) : ReordCtrl × List Fate :=
  ({ c with enable := false, reordList := [], reordTimer := false, reordTimerWork := false },
    c.reordList.map reordSingleFrameInd)

/-- `reord_flush_tid` -/
def reordFlushTid (iftype : Iftype) (rx : RxPriv) (skb : SkBuff) (tid : Fin 8) :
    RxPriv × List Fate :=
  match peerMac skb iftype with
  | none => (rx, [.freed skb])
  | some mac =>
    match rx.sta? mac with
    | none => (rx, [])
    | some info =>
      if (info.preorderCtrl tid).enable = false then (rx, [])
      else rx.onCtrl mac tid (info.preorderCtrl tid).flush

/-- The frames that a station holds, for all its traffic identifiers. -/
def ReordCtrlInfo.pending (i : ReordCtrlInfo) : List RecvMsdu :=
  (List.finRange 8).flatMap fun tid => (i.preorderCtrl tid).reordList

/-- `reord_deinit_sta` of the station with an address, of which no frame comes in meanwhile. -/
def reordDeinitSta (rx : RxPriv) (info : ReordCtrlInfo) : RxPriv × List Fate :=
  ({ rxframesFreequeue := rx.rxframesFreequeue + info.pending.length
     stasReordList := rx.stasReordList.filter fun i => i.macAddr ≠ info.macAddr },
    info.pending.map fun f => .freed f.pkt)

/-- What happens to the reordering. -/
inductive RxEvent
  /-- a frame; `initOk` tells whether a control block could be made for a new station -/
  | unit (iftype : Iftype) (initOk : Bool) (skb : SkBuff) (seqNum : Fin 4096) (tid : Fin 8)
      (forward isAmsdu : Bool)
  /-- a frame outside of a session of its station -/
  | flush (iftype : Iftype) (skb : SkBuff) (tid : Fin 8)
  /-- a timer expires -/
  | timer (mac : List UInt8) (tid : Fin 8)
  /-- the work that a timer scheduled runs -/
  | work (mac : List UInt8) (tid : Fin 8)
  /-- a station is removed, while no frame of it is handled -/
  | deinit (mac : List UInt8)

/-- The steps of the reordering. -/
def RxPriv.step (rx : RxPriv) : RxEvent → Option (RxPriv × List Fate)
  | .unit iftype initOk skb seqNum tid forward isAmsdu =>
    some (reordProcessUnit iftype initOk rx skb seqNum tid forward isAmsdu)
  | .flush iftype skb tid => some (reordFlushTid iftype rx skb tid)
  | .timer mac tid => (rx.sta? mac).bind fun i =>
    if (i.preorderCtrl tid).reordTimer then
      some (rx.onCtrl mac tid (reordTimeoutHandler (i.preorderCtrl tid), []))
    else none
  | .work mac tid => (rx.sta? mac).bind fun i =>
    if (i.preorderCtrl tid).reordTimerWork then
      some (rx.onCtrl mac tid (reordTimeoutWorker (i.preorderCtrl tid)))
    else none
  | .deinit mac => (rx.sta? mac).map (reordDeinitSta rx)

/-- The state after `aicwf_rx_init`. -/
def RxPriv.init : RxPriv := ⟨maxReordRxframe, []⟩

end Aic
