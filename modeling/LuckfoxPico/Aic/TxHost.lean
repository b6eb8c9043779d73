import Mathlib.Logic.Function.Basic

/-!
# The packets that wait for a confirmation

`sdio_host.c`: a packet that needs a confirmation gets a number and a place among 64 ones; the
confirmation names the number. The handler of a confirmation is taken as one step, although the
receive thread calls it without `tx_lock`.
-/

namespace Aic

/-- `SDIO_TXDESC_CNT` -/
def sdioTxdescCnt : Nat := 64

/-- `struct sdio_host_env_tag`, with its queue 0. A `host_id` is the address of a packet, or 0. -/
structure SdioHostEnv where
  txdescFreeIdx : Nat
  txHostId : Nat → Nat

/-- What is put out. -/
inductive HostOut
  /-- the `hostid` of the descriptor, which goes out with a packet -/
  | hostid (n : Nat)
  /-- the packet for which `rwnx_txdatacfm` is called and returns 0: it has been released, or is
  queued again if the status asks for that -/
  | confirmed (hostId : Nat)
  /-- the packet for which `rwnx_txdatacfm` is called and returns an error -/
  | kept (hostId : Nat)
deriving DecidableEq

/-- What happens. -/
inductive HostEvent
  | push (hostId : Nat)
  /-- a confirmation, with the status and the number in it -/
  | cfm (status usedIdx : Nat)

/-- `aicwf_sdio_host_txdesc_push` -/
def SdioHostEnv.txdescPush (env : SdioHostEnv) (hostId : Nat) : SdioHostEnv where
  txHostId := Function.update env.txHostId (env.txdescFreeIdx % sdioTxdescCnt) hostId
  txdescFreeIdx := if env.txdescFreeIdx + 1 = 0x80000000 then 0 else env.txdescFreeIdx + 1

/-- `aicwf_sdio_host_tx_cfm_handler`. It does not stop at a place that is empty, and dereferences
the null pointer it finds there (`none`); `rwnx_txdatacfm` returns an error for the status 0. -/
def SdioHostEnv.txCfmHandler (env : SdioHostEnv) (status usedIdx : Nat) :
    Option (SdioHostEnv × List HostOut) :=
  let place := usedIdx % sdioTxdescCnt
  let hostId := env.txHostId place
  let reset := Function.update env.txHostId place 0
  if hostId = 0 then none
  else if status = 0 then
    some ({ env with txHostId := Function.update reset place hostId }, [.kept hostId])
  else some ({ env with txHostId := reset }, [.confirmed hostId])

/-- The steps. -/
def SdioHostEnv.step (env : SdioHostEnv) : HostEvent → Option (SdioHostEnv × List HostOut)
  | .push hostId =>
    if hostId = 0 then none
    else some (env.txdescPush hostId, [.hostid (0x80000000 + env.txdescFreeIdx)])
  | .cfm status usedIdx => env.txCfmHandler status usedIdx

/-- `aicwf_sdio_host_init` -/
def SdioHostEnv.init : SdioHostEnv := ⟨0, fun _ => 0⟩

end Aic
