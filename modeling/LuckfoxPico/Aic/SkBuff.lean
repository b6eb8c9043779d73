import Mathlib.Data.List.Basic

/-!
# Socket buffers

What the AIC8800 driver uses of an `sk_buff`: the `len` bytes of the packet and the bytes behind
them in the buffer.
-/

namespace Aic

/-- A socket buffer: the bytes of the packet, and what the buffer has behind them. -/
structure SkBuff where
  data : List UInt8
  room : List UInt8
deriving DecidableEq

namespace SkBuff

/-- `skb->len`. -/
def len (skb : SkBuff) : Nat := skb.data.length

/-- `skb->data[i]`, which may lie behind the packet. -/
def byte (skb : SkBuff) (i : Nat) : UInt8 := (skb.data ++ skb.room).getD i 0

/-- The destination address of the Ethernet header. -/
def hDest (skb : SkBuff) : List UInt8 := skb.data.take 6

/-- The source address of the Ethernet header. -/
def hSource (skb : SkBuff) : List UInt8 := (skb.data.drop 6).take 6

/-- `ntohs` of the type field of the Ethernet header. -/
def hProto (skb : SkBuff) : Nat := (skb.byte 12).toNat * 256 + (skb.byte 13).toNat

/-- The group bit of the destination address. -/
def isMcast (skb : SkBuff) : Bool := (skb.byte 0).toNat % 2 = 1

end SkBuff

end Aic
