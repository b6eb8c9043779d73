import LuckfoxPico.Aic.SkBuff
import LuckfoxPico.Parse.Chunks

/-!
# Buffers with several frames

Two loops of the AIC8800 driver take a buffer apart: `rwnx_rxdata_process_amsdu` (`rwnx_rx.c`) an
aggregate from the air into its subframes, and the inner loop of `aicwf_process_rxframes`
(`aicwf_txrxif.c`) what came over SDIO into frames and messages. Both remove what they have handled
with `skb_pull`, which does nothing if the buffer is shorter than that. Lengths are kept in a `u16`.
-/

namespace Aic

open Chunks

/-- A `u16` in network order at an offset. -/
def be16At (data : List UInt8) (i : Nat) : Nat :=
  (data.getD i 0).toNat * 256 + (data.getD (i + 1) 0).toNat

/-- A `u16` with the low byte first at an offset. -/
def le16At (data : List UInt8) (i : Nat) : Nat :=
  (data.getD i 0).toNat + (data.getD (i + 1) 0).toNat * 256

/-- `roundup(n, 4)` -/
def roundup4 (n : Nat) : Nat := (n + 3) / 4 * 4

/-! ## Aggregates from the air -/

/-- How `rwnx_rxdata_process_amsdu` ends: the buffer is freed, or `memcpy` is called with a negative
length. -/
inductive AmsduEnd
  | freed
  | overflow
deriving DecidableEq

/-- `sublen` -/
def sublen (data : List UInt8) : Nat := be16At data 12

/-- `len_alligned` -/
def lenAlligned (data : List UInt8) : Nat :=
  (if data.length > sublen data + 14 then roundup4 (sublen data + 14) else sublen data + 14) % 65536

/-- `sub_skb`: the addresses, and the subframe from the type field of its LLC header on. -/
def subSkb (data : List UInt8) : List UInt8 :=
  data.take 6 ++ (data.drop 6).take 6 ++ (data.drop 20).take (sublen data - 6)

/-- The loop of `rwnx_rxdata_process_amsdu`. `alloc` tells, by what is left of the buffer, whether
`__dev_alloc_skb` succeeds, and `vif` whether the interface is active. -/
def amsduReader (alloc : List UInt8 → Bool) (vif : Bool) : Reader UInt8 (List UInt8) AmsduEnd where
  halt data :=
    if ¬ data.length > 16 then some .freed
    else if data.length < sublen data + 14 then some .freed
    else if !alloc data then some .freed
    else if sublen data < 6 then some .overflow
    else if !vif then some .freed
    else none
  size := lenAlligned
  emit := subSkb

/-- The loop when nothing fails. -/
def amsduLoop : Reader UInt8 (List UInt8) AmsduEnd := amsduReader (fun _ => true) true

/-! ## Buffers from SDIO -/

/-- `SDIO_TYPE_CFG` -/
def sdioTypeCfg : UInt8 := 0x10

/-- `SDIO_TYPE_CFG_CMD_RSP` -/
def sdioTypeCfgCmdRsp : UInt8 := 0x11

/-- `SDIO_TYPE_CFG_DATA_CFM` -/
def sdioTypeCfgDataCfm : UInt8 := 0x12

/-- `SDIO_TYPE_CFG_PRINT` -/
def sdioTypeCfgPrint : UInt8 := 0x13

/-- `RX_HWHRD_LEN` -/
def rxHwhrdLen : Nat := 60

/-- What a part of the buffer is handed to. -/
inductive RxItem
  /-- `rwnx_rxdataind_aicwf` -/
  | rxdataind (frame : List UInt8)
  /-- `rwnx_rx_handle_msg` -/
  | handleMsg (msg : List UInt8)
  /-- `aicwf_sdio_host_tx_cfm_handler` -/
  | txCfm (msg : List UInt8)
  /-- `rwnx_rx_handle_print` -/
  | handlePrint (msg : List UInt8)
  /-- nothing -/
  | none
deriving DecidableEq

/-- How the inner loop of `aicwf_process_rxframes` ends: at the end of the buffer, or with
`-EBADE`. -/
inductive RxEnd
  | done
  | ebade
deriving DecidableEq

/-- The type is one of a data frame. -/
def isDataType (type : UInt8) : Bool := type &&& sdioTypeCfg ≠ sdioTypeCfg

section

variable (alloc : List UInt8 → Bool) (busUp : Bool) (room : List UInt8)

/-- `pkt_len` -/
def pktLen (data : List UInt8) : Nat := le16At (data ++ room) 0

/-- `data[2]` -/
def pktType (data : List UInt8) : UInt8 := (data ++ room).getD 2 0

/-- `aggr_len` -/
def aggrLen (data : List UInt8) : Nat :=
  if isDataType (pktType room data) then (pktLen room data + rxHwhrdLen) % 65536
  else pktLen room data

/-- `adjust_len` -/
def adjustLen (data : List UInt8) : Nat :=
  if aggrLen room data % 4 ≠ 0 then roundup4 (aggrLen room data) % 65536 else aggrLen room data

/-- What a message is handed to. -/
def handleCfg (type : UInt8) (msg : List UInt8) : RxItem :=
  if type &&& 0x7F = sdioTypeCfgCmdRsp then if busUp then .handleMsg msg else .none
  else if type &&& 0x7F = sdioTypeCfgDataCfm then .txCfm msg
  else if type &&& 0x7F = sdioTypeCfgPrint then .handlePrint msg
  else .none

/-- The inner loop of `aicwf_process_rxframes`, for a buffer that has `room` behind the packet;
`aicwf_another_ptk` ends it. `alloc` tells, by what is left of the buffer, whether the allocation
for the part at its beginning succeeds: without one a data frame is left out, and a message ends
all. -/
def rxframesReader : Reader UInt8 RxItem RxEnd where
  halt data :=
    if data.length = 0 ∨ pktLen room data = 0 then some .done
    else if !isDataType (pktType room data) && !alloc data then some .ebade
    else none
  size data :=
    if isDataType (pktType room data) then adjustLen room data else adjustLen room data + 4
  emit data :=
    if isDataType (pktType room data) then
      if alloc data then .rxdataind ((data ++ room).take (aggrLen room data)) else .none
    else
      handleCfg busUp (pktType room data) (((data ++ room).take (aggrLen room data + 4)).drop 4)

end

/-- The inner loop when nothing fails. -/
def rxframesLoop (busUp : Bool) (room : List UInt8) : Reader UInt8 RxItem RxEnd :=
  rxframesReader (fun _ => true) busUp room

/-! ## What is written -/

/-- The bytes of a `u16` in network order. -/
def be16 (n : Nat) : List UInt8 := [UInt8.ofNat (n / 256), UInt8.ofNat (n % 256)]

/-- The bytes of a `u16` with the low byte first. -/
def le16 (n : Nat) : List UInt8 := [UInt8.ofNat (n % 256), UInt8.ofNat (n / 256)]

/-- A subframe of an aggregate: the addresses, the six bytes of the LLC header in front of the type,
the type with the payload, and the padding to a multiple of four bytes. -/
structure Msdu where
  da : List UInt8
  sa : List UInt8
  llc : List UInt8
  body : List UInt8
  pad : List UInt8
  da_length : da.length = 6
  sa_length : sa.length = 6
  llc_length : llc.length = 6
  body_length : body.length ≤ 65512
  pad_length : pad.length < 4
  aligned : (20 + body.length + pad.length) % 4 = 0

/-- The subframe without its padding. -/
def Msdu.bytes (m : Msdu) : List UInt8 :=
  m.da ++ m.sa ++ be16 (6 + m.body.length) ++ m.llc ++ m.body

/-- The Ethernet frame of a subframe. -/
def Msdu.frame (m : Msdu) : List UInt8 := m.da ++ m.sa ++ m.body

/-- What the firmware puts into a buffer: a data frame with the rest of its header of 60 bytes, or a
message. -/
structure SdioPkt where
  type : UInt8
  header : List UInt8
  payload : List UInt8
  pad : List UInt8
  header_length : header.length = if isDataType type then 57 else 1
  payload_pos : 0 < payload.length
  payload_length : payload.length ≤ 65472
  pad_length : pad.length < 4
  aligned : (payload.length + pad.length) % 4 = 0

/-- A packet without its padding. -/
def SdioPkt.bytes (p : SdioPkt) : List UInt8 :=
  le16 p.payload.length ++ p.type :: p.header ++ p.payload

/-- What a packet is handed to. -/
def SdioPkt.item (busUp : Bool) (p : SdioPkt) : RxItem :=
  if isDataType p.type then .rxdataind p.bytes else handleCfg busUp p.type p.payload

end Aic
