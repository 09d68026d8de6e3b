import Honeycomb.Core.Kernel
import Honeycomb.Lib.RingBuffer

/-!
# The Ring Buffer of the Device Drivers

A pool of bytes with two indices into it. A bit beside each index, the mirror, flips whenever the
index comes round to the start of the pool. Equal indices mean an empty buffer if the mirrors are
equal and a full one if they are not.

Blocks of bytes are copied in one piece, or in two where they reach the end of the pool. A copy
goes byte by byte. The bytes a caller wants to put are a list, whose length is the `length` of
the call; the bytes a caller gets are a list as well.

The indices have 15 bits, which is why the size is signed.
-/

namespace Honeycomb

open RingBuffer

/-- The pool is given by its bytes, the mirrors are bits. -/
structure Ringbuffer where
  bufferPtr : Nat → BitVec 8
  readMirror : Bool
  readIndex : Nat
  writeMirror : Bool
  writeIndex : Nat
  bufferSize : Nat

inductive RingbufferState where
  | empty
  | full
  | halffull
  deriving DecidableEq, Repr

/-- What an index keeps of a number. -/
def ringIndex (n : Nat) : Nat :=
  n % 2 ^ 15

variable (rb : Ringbuffer)

def rtRingbufferStatus : RingbufferState :=
  if rb.readIndex = rb.writeIndex then
    if rb.readMirror = rb.writeMirror then .empty else .full
  else .halffull

/-- Set up a buffer over a pool. The size is rounded down to a multiple of the alignment. -/
def rtRingbufferInit (pool : Nat → BitVec 8) (size : Nat) : Option Ringbuffer := do
  rtAssert (0 < size)
  return { bufferPtr := pool, readMirror := false, readIndex := 0, writeMirror := false,
           writeIndex := 0, bufferSize := size / 4 * 4 }

def rtRingbufferDataLen : Nat :=
  match rtRingbufferStatus rb with
  | .empty => 0
  | .full => rb.bufferSize
  | .halffull =>
    if rb.readIndex < rb.writeIndex then rb.writeIndex - rb.readIndex
    else rb.bufferSize - (rb.readIndex - rb.writeIndex)

def rtRingbufferSpaceLen : Nat :=
  rb.bufferSize - rtRingbufferDataLen rb

/-- Put a block of bytes, as far as there is room, and return how many were put. -/
def rtRingbufferPut (ptr : List (BitVec 8)) : Ringbuffer × Nat :=
  let size := rtRingbufferSpaceLen rb
  if size = 0 then (rb, 0)
  else
    -- drop some data
    let length := if size < ptr.length then size else ptr.length
    let ptr := ptr.take length
    let room := rb.bufferSize - rb.writeIndex
    if length < room then
      ({ rb with bufferPtr := copyTo rb.bufferPtr rb.writeIndex ptr,
                 writeIndex := ringIndex (rb.writeIndex + length) }, length)
    else
      -- going into the other side of the mirror
      ({ rb with bufferPtr := copyTo (copyTo rb.bufferPtr rb.writeIndex (ptr.take room)) 0
                   (ptr.drop room),
                 writeMirror := !rb.writeMirror,
                 writeIndex := ringIndex (length - room) }, length)

/-- Put the last bytes of a block, in the place of the oldest ones where there is no room, and
    return how many were put. -/
def rtRingbufferPutForce (ptr : List (BitVec 8)) : Ringbuffer × Nat :=
  let spaceLength := rtRingbufferSpaceLen rb
  let ptr := if rb.bufferSize < ptr.length then ptr.drop (ptr.length - rb.bufferSize) else ptr
  let length := ptr.length
  let room := rb.bufferSize - rb.writeIndex
  if length < room then
    let rb := { rb with bufferPtr := copyTo rb.bufferPtr rb.writeIndex ptr,
                        writeIndex := ringIndex (rb.writeIndex + length) }
    if spaceLength < length then ({ rb with readIndex := rb.writeIndex }, length)
    else (rb, length)
  else
    -- going into the other side of the mirror
    let rb := { rb with bufferPtr := copyTo (copyTo rb.bufferPtr rb.writeIndex (ptr.take room)) 0
                          (ptr.drop room),
                        writeMirror := !rb.writeMirror,
                        writeIndex := ringIndex (length - room) }
    if spaceLength < length then
      ({ rb with readMirror := !rb.readMirror, readIndex := rb.writeIndex }, length)
    else (rb, length)

def rtRingbufferGet (length : Nat) : Ringbuffer × List (BitVec 8) :=
  let size := rtRingbufferDataLen rb
  if size = 0 then (rb, [])
  else
    -- less data
    let length := if size < length then size else length
    let room := rb.bufferSize - rb.readIndex
    if length < room then
      ({ rb with readIndex := ringIndex (rb.readIndex + length) },
        copyFrom rb.bufferPtr rb.readIndex length)
    else
      ({ rb with readMirror := !rb.readMirror, readIndex := ringIndex (length - room) },
        copyFrom rb.bufferPtr rb.readIndex room ++ copyFrom rb.bufferPtr 0 (length - room))

/-- Put one byte, and return how many were put. -/
def rtRingbufferPutchar (ch : BitVec 8) : Ringbuffer × Nat :=
  if rtRingbufferSpaceLen rb = 0 then (rb, 0)
  else
    let rb := { rb with bufferPtr := Function.update rb.bufferPtr rb.writeIndex ch }
    if rb.writeIndex = rb.bufferSize - 1 then
      ({ rb with writeMirror := !rb.writeMirror, writeIndex := 0 }, 1)
    else ({ rb with writeIndex := ringIndex (rb.writeIndex + 1) }, 1)

/-- Put one byte, in the place of the oldest one if the buffer is full. -/
def rtRingbufferPutcharForce (ch : BitVec 8) : Ringbuffer × Nat :=
  let oldState := rtRingbufferStatus rb
  let rb := { rb with bufferPtr := Function.update rb.bufferPtr rb.writeIndex ch }
  if rb.writeIndex = rb.bufferSize - 1 then
    let rb := { rb with writeMirror := !rb.writeMirror, writeIndex := 0 }
    if oldState = .full then
      ({ rb with readMirror := !rb.readMirror, readIndex := rb.writeIndex }, 1)
    else (rb, 1)
  else
    let rb := { rb with writeIndex := ringIndex (rb.writeIndex + 1) }
    if oldState = .full then ({ rb with readIndex := rb.writeIndex }, 1) else (rb, 1)

def rtRingbufferGetchar : Ringbuffer × List (BitVec 8) :=
  if rtRingbufferDataLen rb = 0 then (rb, [])
  else
    let ch := rb.bufferPtr rb.readIndex
    if rb.readIndex = rb.bufferSize - 1 then
      ({ rb with readMirror := !rb.readMirror, readIndex := 0 }, [ch])
    else ({ rb with readIndex := ringIndex (rb.readIndex + 1) }, [ch])

inductive RbOp where
  | put (ptr : List (BitVec 8))
  | get (length : Nat)
  | putchar (ch : BitVec 8)
  | getchar
  | putcharForce (ch : BitVec 8)
  deriving DecidableEq, Repr

/-- What a call returns: how many bytes were put, or the bytes that were got. -/
inductive RbReply where
  | count (n : Nat)
  | bytes (bs : List (BitVec 8))
  deriving DecidableEq, Repr

def rbStep : RbOp → Ringbuffer × RbReply
  | .put ptr => let r := rtRingbufferPut rb ptr; (r.1, .count r.2)
  | .get length => let r := rtRingbufferGet rb length; (r.1, .bytes r.2)
  | .putchar ch => let r := rtRingbufferPutchar rb ch; (r.1, .count r.2)
  | .getchar => let r := rtRingbufferGetchar rb; (r.1, .bytes r.2)
  | .putcharForce ch => let r := rtRingbufferPutcharForce rb ch; (r.1, .count r.2)

def rbRun (rb : Ringbuffer) : List RbOp → Ringbuffer × List RbReply
  | [] => (rb, [])
  | op :: ops => let r := rbStep rb op; let rest := rbRun r.1 ops; (rest.1, r.2 :: rest.2)

end Honeycomb
