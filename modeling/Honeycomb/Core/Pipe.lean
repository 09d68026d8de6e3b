import Honeycomb.Core.Ringbuffer

/-!
# Pipes

The pipes of `pipe.c`: a ring buffer between those who have one end open for reading and those who
have the other one open for writing. A read or a write goes round a loop under the lock of the
pipe, and waits without the lock when there is nothing to do. In a wait it keeps nothing but its
arguments and, for a write, the bytes that are left, so a pass of the loop is a step. The length of
a block is cut to 16 bits on the way to the buffer.

The system keeps books of the bytes that were accepted and those that were read, and of the reads
that returned nothing, with what was accepted and read and the writers left at that time.
-/

namespace Honeycomb

/-- A pipe with both ends open, and the books. -/
structure PipeSys where
  fifo : Ringbuffer
  readers : Nat
  writers : Nat
  accepted : List (BitVec 8)
  taken : List (BitVec 8)
  zeros : List (List (BitVec 8) × List (BitVec 8) × Nat)

/-- What a pass of the loop of a read ends with: it returns bytes or `-EAGAIN`, or it waits. -/
inductive PipeReply where
  | bytes (bs : List (BitVec 8))
  | again
  | waits
  deriving DecidableEq, Repr

/-- `pipe_fops_read`. Without a writer the end of file is returned. -/
def pipeRead (s : PipeSys) (count : Nat) (nonblock : Bool) : Ringbuffer × PipeReply :=
  if s.writers = 0 then (s.fifo, .bytes [])
  else
    let (fifo, bs) := rtRingbufferGet s.fifo (count % 2 ^ 16)
    if 0 < bs.length then (fifo, .bytes bs)
    else (fifo, if nonblock then .again else .waits)

/-- `pipe_fops_write`, with the bytes that are left. Without a reader none is accepted. -/
def pipeWrite (s : PipeSys) (buf : List (BitVec 8)) : Ringbuffer × Nat :=
  if s.readers = 0 then (s.fifo, 0)
  else rtRingbufferPut s.fifo (buf.take (buf.length % 2 ^ 16))

def PipeReply.got : PipeReply → List (BitVec 8)
  | .bytes bs => bs
  | _ => []

/-- A pass of a read or of a write, or an end is closed. -/
inductive PipeAction where
  | read (count : Nat) (nonblock : Bool)
  | write (buf : List (BitVec 8))
  | close (read write : Bool)
  deriving DecidableEq, Repr

/-- One step. Ends that are used or closed are open. -/
def pipeStep (s : PipeSys) : PipeAction → Option PipeSys
  | .read count nonblock => do
    rtAssert (0 < s.readers)
    let (fifo, reply) := pipeRead s count nonblock
    some { s with
      fifo := fifo
      taken := s.taken ++ reply.got
      zeros :=
        if reply = .bytes [] ∧ count ≠ 0 then
          (s.accepted, s.taken, s.writers) :: s.zeros
        else s.zeros }
  | .write buf => do
    rtAssert (0 < s.writers)
    let (fifo, len) := pipeWrite s buf
    some { s with fifo := fifo, accepted := s.accepted ++ buf.take len }
  | .close read write => do
    rtAssert ((read → 0 < s.readers) ∧ (write → 0 < s.writers))
    some { s with
      readers := if read then s.readers - 1 else s.readers
      writers := if write then s.writers - 1 else s.writers }

/-- A pipe that was opened by some readers and writers. -/
def pipeInit (fifo : Ringbuffer) (readers writers : Nat) : PipeSys :=
  { fifo := fifo, readers := readers, writers := writers, accepted := [], taken := [], zeros := [] }

end Honeycomb
