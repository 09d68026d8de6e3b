import Honeycomb.Core.Kernel
import Mathlib.Data.List.Range

/-!
# The Receive Boxes of a CAN Device

A device that was opened for receiving with interrupts has a number of boxes for messages. A box
is on the free list or on the list of boxes in use, in the order in which they were filled. The
interrupt takes a box off the free list, or the oldest one in use if none is free, copies the
message to it and puts it at the end of the list of boxes in use. A reader takes the first box
in use, copies the message out and puts the box back on the free list.

Both take a box in one critical section and put it back in another, and copy in between with
interrupts enabled. Each of these is a step of its own, for any number of readers and for any
number of interrupts, so that an interrupt may also come while another one is being handled. The
device is configured without the filters that have lists of their own.

The history has the messages that got a box, in the order in which they were received; those that
got none; those that were put on the list of boxes in use, in that order; those that were taken off
it, with the reader, or without one if the interrupt has taken the box; and what each reader has
copied. It also has whether an interrupt has ever come while another one was being handled.
-/

namespace Honeycomb

open Function

/-- `struct rt_can_msg`, with the eight data bytes in one. -/
structure CanMsg where
  id : BitVec 29
  ide : BitVec 1
  rtr : BitVec 1
  rsv : BitVec 1
  len : BitVec 8
  priv : BitVec 8
  hdr : BitVec 8
  reserved : BitVec 8
  data : BitVec 64
  deriving DecidableEq, Repr

def canMsgSz : Int := 16

/-- `struct rt_can_rx_fifo`. The lists have the numbers of the boxes. -/
structure CanRxFifo where
  buffer : Nat → CanMsg
  freenumbers : Nat
  freelist : List Nat
  uselist : List Nat

/-- Where a reader is: in no call, with what the last one has returned; at the head of the loop,
    with the size of the request and what is left of it; with a box that it has not copied yet;
    with a box that it has copied. -/
inductive CanReader where
  | done (result : Int)
  | loop (size msgs : Int)
  | holding (size msgs : Int) (box : Nat)
  | copied (size msgs : Int) (box : Nat)
  deriving DecidableEq, Repr

/-- Where an interrupt is: not being handled, with a message and a box that does not have it yet,
    or with a box that has it. -/
inductive CanIsr where
  | idle
  | holding (msg : CanMsg) (box : Nat)
  | filled (msg : CanMsg) (box : Nat)
  deriving DecidableEq, Repr

/-- The boxes, the counters of the device, the readers, the interrupts and the history. -/
structure CanSys where
  fifo : CanRxFifo
  rcvpkg : BitVec 32
  dropedrcvpkg : BitVec 32
  reader : Nat → CanReader
  isr : Nat → CanIsr
  accepted : List CanMsg
  refused : List CanMsg
  queued : List CanMsg
  removed : List (CanMsg × Option Nat)
  copied : Nat → List CanMsg
  handling : List Nat
  nested : Bool

/-- The interrupt has got a box for its message. -/
def isrTake (s : CanSys) (i : Nat) (msg : CanMsg) (box : Nat) : CanSys :=
  { s with isr := update s.isr i (.holding msg box)
           accepted := s.accepted ++ [msg]
           nested := s.nested || !s.handling.isEmpty
           handling := s.handling ++ [i] }

/-- The interrupt has a message. With interrupts disabled it takes a box. -/
def isrRxInd1 (s : CanSys) (i : Nat) (msg : CanMsg) : Option CanSys :=
  let s := { s with rcvpkg := s.rcvpkg + 1 }
  match s.fifo.freelist with
  | box :: freelist => do
    rtAssert (0 < s.fifo.freenumbers)
    let fifo := { s.fifo with freelist := freelist, freenumbers := s.fifo.freenumbers - 1 }
    some (isrTake { s with fifo := fifo } i msg box)
  | [] =>
    match s.fifo.uselist with
    | box :: uselist =>
      let s := { s with fifo := { s.fifo with uselist := uselist }
                        dropedrcvpkg := s.dropedrcvpkg + 1
                        removed := s.removed ++ [(s.fifo.buffer box, none)] }
      some (isrTake s i msg box)
    | [] => some { s with refused := s.refused ++ [msg] }

/-- A reader at the head of its loop. With interrupts disabled it takes a box. -/
def canIntRx1 (s : CanSys) (t : Nat) (size msgs : Int) : CanSys :=
  if msgs = 0 then { s with reader := update s.reader t (.done (size - msgs)) }
  else
    match s.fifo.uselist with
    | box :: uselist =>
      { s with fifo := { s.fifo with uselist := uselist }
               reader := update s.reader t (.holding size msgs box)
               removed := s.removed ++ [(s.fifo.buffer box, some t)] }
    | [] =>
      -- no data, enable interrupt and break out
      { s with reader := update s.reader t (.done (size - msgs)) }

/-- What can happen. An interrupt comes, with or without an overflow, and the device has a message
    or not; an interrupt goes on; a reader is called or goes on. -/
inductive CanAction where
  | interrupt (i : Nat) (overflow : Bool) (msg : Option CanMsg)
  | fill (i : Nat)
  | link (i : Nat)
  | call (t : Nat) (msgs : Int)
  | take (t : Nat)
  | copy (t : Nat)
  | release (t : Nat)
  deriving DecidableEq, Repr

/-- One step. The number of boxes is `msgboxsz`. -/
def canStep (msgboxsz : Nat) (s : CanSys) : CanAction → Option CanSys
  | .interrupt i overflow msg =>
    match s.isr i with
    | .idle =>
      let s := if overflow then { s with dropedrcvpkg := s.dropedrcvpkg + 1 } else s
      match msg with
      | some msg => isrRxInd1 s i msg
      | none => some s
    | _ => none
  | .fill i =>
    match s.isr i with
    | .holding msg box =>
      some { s with fifo := { s.fifo with buffer := update s.fifo.buffer box msg }
                    isr := update s.isr i (.filled msg box) }
    | _ => none
  | .link i =>
    match s.isr i with
    | .filled msg box =>
      some { s with fifo := { s.fifo with uselist := s.fifo.uselist ++ [box] }
                    isr := update s.isr i .idle
                    queued := s.queued ++ [msg]
                    handling := s.handling.erase i }
    | _ => none
  | .call t msgs =>
    match s.reader t with
    | .done _ => some { s with reader := update s.reader t (.loop msgs msgs) }
    | _ => none
  | .take t =>
    match s.reader t with
    | .loop size msgs => some (canIntRx1 s t size msgs)
    | _ => none
  | .copy t =>
    match s.reader t with
    | .holding size msgs box =>
      some { s with reader := update s.reader t (.copied size msgs box)
                    copied := update s.copied t
                      (s.copied t ++ [s.fifo.buffer box]) }
    | _ => none
  | .release t =>
    match s.reader t with
    | .copied size msgs box => do
      let freenumbers := s.fifo.freenumbers + 1
      rtAssert (freenumbers ≤ msgboxsz)
      let fifo := { s.fifo with freelist := s.fifo.freelist ++ [box]
                                freenumbers := freenumbers }
      some { s with fifo := fifo
                    reader := update s.reader t (.loop size (msgs - canMsgSz)) }
    | _ => none

/-- The boxes as `rt_can_open` makes them: one after the other is put at the end of the free
    list. -/
def rtCanOpenRx (msgboxsz : Nat) (buffer : Nat → CanMsg) : CanRxFifo :=
  { buffer := buffer, freenumbers := msgboxsz
    freelist := (List.range msgboxsz).foldl (fun freelist i => freelist ++ [i]) []
    uselist := [] }

/-- A device that was just opened. -/
def canOpened (msgboxsz : Nat) (buffer : Nat → CanMsg) : CanSys :=
  { fifo := rtCanOpenRx msgboxsz buffer, rcvpkg := 0, dropedrcvpkg := 0
    reader := fun _ => .done 0, isr := fun _ => .idle, accepted := [], refused := [], queued := []
    removed := [], copied := fun _ => [], handling := [], nested := false }

end Honeycomb
