import Honeycomb.Core.Kernel

/-!
# Writing to a Card

A request to the host of a card has a command, data and a command to stop, and
`rt_mmcsd_req_blk` of `block_dev.c` looks at the errors of all three. A host that is not on an SPI
bus is asked for the status of the card before that. What a host leaves in a request is up to it,
so there is an answer for each request in turn, whatever it asks for.
-/

namespace Honeycomb.Mmcsd

/-- The `err` of the command, of the data and of the stop command, and the first word of the
    response. -/
structure Answer where
  cmd : Int
  data : Int
  stop : Int
  resp : BitVec 32

/-- `mmcsd_send_request` from the request with this number on. It is sent once even with no
    `retries`. -/
def mmcsdSendRequest (host : Nat → Answer) : (retries n : Nat) → Answer × Nat
  | retries + 2, n =>
    if (host n).cmd ≠ 0 then mmcsdSendRequest host (retries + 1) (n + 1) else (host n, n + 1)
  | _, n => (host n, n + 1)

/-- The loop that asks for the status, with what it leaves in `cmd.err`. -/
def pollStatus (host : Nat → Answer) : (rounds n : Nat) → Option Int
  | 0, _ => none
  | rounds + 1, n =>
    let (status, n) := mmcsdSendRequest host 5 n
    if status.cmd ≠ 0 then some status.cmd
    else if status.resp &&& (1#32 <<< 8) = 0#32 ∨ (status.resp &&& 0x1E00#32) >>> 9 = 7#32 then
      pollStatus host rounds n
    else some status.cmd

/-- `rt_mmcsd_req_blk`. Only a request for several blocks has a stop command, and none that writes
    on an SPI bus. Without it `stop.err` is zero. -/
def rtMmcsdReqBlk (host : Nat → Answer) (spi : Bool) (blks : Nat) (dir : Bool) (rounds : Nat) :
    Option Int := do
  let stop := blks > 1 ∧ (spi = false ∨ dir = false)
  let (answer, n) := mmcsdSendRequest host 0 0
  -- the status is asked for with the same command structure
  let cmd ← (if spi = false ∧ dir then pollStatus host rounds n else some answer.cmd)
  some (if cmd ≠ 0 ∨ answer.data ≠ 0 ∨ stop ∧ answer.stop ≠ 0 then -1 else 0)

def rtMmcsdWrite (host : Nat → Answer) (spi : Bool) (size rounds : Nat) : Option Nat := do
  let err ← rtMmcsdReqBlk host spi size true rounds
  some (if err ≠ 0 then 0 else size)

end Honeycomb.Mmcsd
