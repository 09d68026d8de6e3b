import Honeycomb.Core.Kernel
import Honeycomb.Lib.RingBuffer

/-!
# The Receive FIFO of a Serial Device

Bytes that were received wait in a buffer until they are read. Interrupts put bytes in at the
one index and reads take them out at the other. What is received is never refused: when there is
no room, the oldest bytes make way.

The FIFO is used in two modes. In interrupt mode the interrupt takes one byte after the other
from the device and puts it in the buffer itself. The flag `is_full` is set when a byte makes way,
and the buffer never has as many bytes as it is long. A read takes byte after byte, and interrupts
may come between any two of them. In DMA mode the device writes the bytes to the buffer, going
round at its end, and the interrupt only moves the index; here the flag tells a full buffer from
an empty one, and a read is one piece.

The indices have 16 bits. The callback that is told how many bytes there are is represented by
the number it is given. A device in DMA mode without a buffer is not modelled.
-/

namespace Honeycomb

open RingBuffer

/-- The buffer is given by its bytes. -/
structure SerialRxFifo where
  buffer : Nat → BitVec 8
  putIndex : Nat
  getIndex : Nat
  isFull : Bool

def serialIndex (n : Nat) : Nat :=
  n % 2 ^ 16

/-- A FIFO as it is when the device has been opened. -/
def serialRxInit (buffer : Nat → BitVec 8) : SerialRxFifo :=
  { buffer := buffer, putIndex := 0, getIndex := 0, isFull := false }

section Interrupt

variable (bufsz : Nat) (rxFifo : SerialRxFifo)

/-- One more, and back to 0 at the end of the buffer. -/
def serialNext (index : Nat) : Nat :=
  let index := serialIndex (index + 1)
  if bufsz ≤ index then 0 else index

/-- One round of the loop of `_serial_int_rx`: a byte, if there is one. -/
def serialIntRxOne : Option (SerialRxFifo × BitVec 8) :=
  if rxFifo.getIndex = rxFifo.putIndex ∧ rxFifo.isFull = false then none
  else
    some ({ rxFifo with getIndex := serialNext bufsz rxFifo.getIndex, isFull := false },
      rxFifo.buffer rxFifo.getIndex)

/-- `_serial_int_rx`, when no interrupt comes in between. -/
def serialIntRx (rxFifo : SerialRxFifo) : Nat → SerialRxFifo × List (BitVec 8)
  | 0 => (rxFifo, [])
  | length + 1 =>
    match serialIntRxOne bufsz rxFifo with
    | none => (rxFifo, [])
    | some (rxFifo, ch) =>
      let rest := serialIntRx rxFifo length
      (rest.1, ch :: rest.2)

/-- One round of the loop of the interrupt: a byte from the device is put in the buffer. -/
def isrRxInd (ch : BitVec 8) : SerialRxFifo :=
  let rxFifo := { rxFifo with buffer := Function.update rxFifo.buffer rxFifo.putIndex ch
                              putIndex := serialNext bufsz rxFifo.putIndex }
  -- if the next position is read index, discard this byte
  if rxFifo.putIndex = rxFifo.getIndex then
    { rxFifo with getIndex := serialNext bufsz rxFifo.getIndex, isFull := true }
  else rxFifo

/-- The number that the callback is given. -/
def rxLength : Nat :=
  if rxFifo.getIndex ≤ rxFifo.putIndex then rxFifo.putIndex - rxFifo.getIndex
  else bufsz - (rxFifo.getIndex - rxFifo.putIndex)

end Interrupt

section Dma

variable (bufsz : Nat) (rxFifo : SerialRxFifo)

def serialFifoCalcRecvedLen : Nat :=
  if rxFifo.putIndex = rxFifo.getIndex then
    if rxFifo.isFull = false then 0 else bufsz
  else if rxFifo.getIndex < rxFifo.putIndex then rxFifo.putIndex - rxFifo.getIndex
  else bufsz - (rxFifo.getIndex - rxFifo.putIndex)

def rtDmaRecvUpdateGetIndex (len : Nat) : Option SerialRxFifo := do
  rtAssert (len ≤ serialFifoCalcRecvedLen bufsz rxFifo)
  let isFull := if rxFifo.isFull ∧ len ≠ 0 then false else rxFifo.isFull
  let getIndex := serialIndex (rxFifo.getIndex + len)
  let getIndex := if bufsz ≤ getIndex then getIndex % bufsz else getIndex
  return { rxFifo with getIndex := getIndex, isFull := isFull }

def rtDmaRecvUpdatePutIndex (len : Nat) : SerialRxFifo :=
  let putIndex := serialIndex (rxFifo.putIndex + len)
  let rxFifo :=
    if rxFifo.getIndex ≤ rxFifo.putIndex then
      -- beyond the fifo end
      if bufsz ≤ putIndex then
        let putIndex := putIndex % bufsz
        if rxFifo.getIndex ≤ putIndex then { rxFifo with putIndex := putIndex, isFull := true }
        else { rxFifo with putIndex := putIndex }
      else { rxFifo with putIndex := putIndex }
    else
      if rxFifo.getIndex ≤ putIndex then
        { rxFifo with putIndex := if bufsz ≤ putIndex then putIndex % bufsz else putIndex
                      isFull := true }
      else { rxFifo with putIndex := putIndex }
  let rxFifo := if rxFifo.isFull then { rxFifo with getIndex := rxFifo.putIndex } else rxFifo
  if bufsz ≤ rxFifo.getIndex then { rxFifo with getIndex := 0 } else rxFifo

def serialDmaRx (length : Nat) : Option (SerialRxFifo × List (BitVec 8)) := do
  let fifoRecvedLen := serialFifoCalcRecvedLen bufsz rxFifo
  let recvLen := if length < fifoRecvedLen then length else fifoRecvedLen
  let data :=
    if rxFifo.getIndex + recvLen < bufsz then copyFrom rxFifo.buffer rxFifo.getIndex recvLen
    else
      copyFrom rxFifo.buffer rxFifo.getIndex (bufsz - rxFifo.getIndex) ++
        copyFrom rxFifo.buffer 0 (recvLen + rxFifo.getIndex - bufsz)
  let rxFifo ← rtDmaRecvUpdateGetIndex bufsz rxFifo recvLen
  return (rxFifo, data)

/-- The device has written bytes to the buffer, and the interrupt comes: the index is moved, and
    the callback is told how many bytes there are. -/
def isrRxDmaDone (data : List (BitVec 8)) : SerialRxFifo × Nat :=
  let rxFifo := { rxFifo with buffer := writeRound rxFifo.buffer bufsz rxFifo.putIndex data }
  let rxFifo := rtDmaRecvUpdatePutIndex bufsz rxFifo data.length
  (rxFifo, serialFifoCalcRecvedLen bufsz rxFifo)

end Dma

/-- What is returned: a number of bytes, or bytes. -/
inductive RxReply where
  | length (n : Nat)
  | bytes (bs : List (BitVec 8))
  deriving DecidableEq, Repr

/-- Interrupt mode: a byte is received, the callback is told how many there are, or a read takes
    a byte. -/
inductive IntOp where
  | recv (ch : BitVec 8)
  | indicate
  | read
  deriving DecidableEq, Repr

/-- DMA mode: bytes are received, or read. -/
inductive DmaOp where
  | recv (data : List (BitVec 8))
  | read (length : Nat)
  deriving DecidableEq, Repr

def intStep (bufsz : Nat) (rxFifo : SerialRxFifo) : IntOp → SerialRxFifo × RxReply
  | .recv ch => (isrRxInd bufsz rxFifo ch, .bytes [])
  | .indicate => (rxFifo, .length (rxLength bufsz rxFifo))
  | .read =>
    match serialIntRxOne bufsz rxFifo with
    | none => (rxFifo, .bytes [])
    | some (rxFifo, ch) => (rxFifo, .bytes [ch])

def dmaStep (bufsz : Nat) (rxFifo : SerialRxFifo) : DmaOp → Option (SerialRxFifo × RxReply)
  | .recv data => let r := isrRxDmaDone bufsz rxFifo data; some (r.1, .length r.2)
  | .read length => (serialDmaRx bufsz rxFifo length).map fun r => (r.1, .bytes r.2)

def intRun (bufsz : Nat) (rxFifo : SerialRxFifo) : List IntOp → SerialRxFifo × List RxReply
  | [] => (rxFifo, [])
  | op :: ops =>
    let r := intStep bufsz rxFifo op
    let rest := intRun bufsz r.1 ops
    (rest.1, r.2 :: rest.2)

def dmaRun (bufsz : Nat) (rxFifo : SerialRxFifo) :
    List DmaOp → Option (SerialRxFifo × List RxReply)
  | [] => some (rxFifo, [])
  | op :: ops => do
    let r ← dmaStep bufsz rxFifo op
    let rest ← dmaRun bufsz r.1 ops
    return (rest.1, r.2 :: rest.2)

end Honeycomb
