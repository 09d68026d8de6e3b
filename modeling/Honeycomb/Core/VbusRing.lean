import Honeycomb.Core.Kernel
import Mathlib.Data.List.Range

/-!
# The Ring of the Virtual Bus

Two systems share a ring of blocks. One writes packets to it, the other takes them off. A packet
takes as many blocks as it needs. Its header is in the first of them, its data follow without a gap,
also where the other blocks have their headers. At the end of the ring the data go on at the
beginning of the first block.

Writer and reader do not exclude each other. The writer looks for space, writes the header and the
data byte by byte, and then moves its index; the reader looks whether there is a packet, reads the
header, reads the data byte by byte, and then moves its index. All these are steps of their own, so
that a step of the one may come between any two steps of the other.

A writer that finds too little space waits and looks again; it has no step until there is space.
Whether the channel of a packet is connected and whether there is memory for a packet is left open:
the reader may drop any packet. A packet that is dropped is recorded with the bytes it has in the
ring.
-/

namespace Honeycomb

/-- The size of a block and that of its header. -/
def vbusBlkSz : Nat := 64

def vbusBlkHeadSz : Nat := 4

/-- A packet. Its length has eight bits. -/
structure VbusPkt where
  id : BitVec 8
  prio : BitVec 8
  data : List (BitVec 8)
  bound : data.length < 256

/-- `struct rt_vbus_ring`. The blocks are given by their bytes. -/
structure VbusRing where
  putIdx : Nat
  getIdx : Nat
  blks : Nat → BitVec 8

def len2bnr (len : Nat) : Nat :=
  (len + vbusBlkHeadSz + vbusBlkSz - 1) / vbusBlkSz

def VbusPkt.bnr (pkt : VbusPkt) : Nat :=
  len2bnr pkt.data.length

/-- The number of blocks that can be written. One block is always left. -/
def busRingSpaceNr (nr : Nat) (ring : VbusRing) : Int :=
  let delta := (ring.getIdx : Int) - (ring.putIdx : Int)
  if 0 < delta then delta - 1 else (nr : Int) + delta - 1

/-- An index moves over so many blocks. The writer, the reader and `_ring_add_get_bnr` compute
    this in the same way. -/
def nextIdx (nr idx bnr : Nat) : Nat :=
  let nidx := idx + bnr
  if nr ≤ nidx then nidx - nr else nidx

/-- The bytes that fit between the header in the block `idx` and the end of the ring, but not more
    than there are. -/
def tailSz (nr idx len : Nat) : Nat :=
  let tailsz := (nr - idx) * vbusBlkSz - vbusBlkHeadSz
  if len < tailsz then len else tailsz

def memcpyWrites (dst : Nat) (data : List (BitVec 8)) : List (Nat × BitVec 8) :=
  (List.range' dst data.length).zip data

/-- What the writer writes for a packet: three bytes of the header, and the data. -/
def busOutWrites (nr put : Nat) (pkt : VbusPkt) : List (Nat × BitVec 8) :=
  let blk := put * vbusBlkSz
  [(blk, pkt.id), (blk + 1, pkt.prio), (blk + 2, BitVec.ofNat 8 pkt.data.length)] ++
    if nr ≤ put + pkt.bnr then
      let tailsz := tailSz nr put pkt.data.length
      memcpyWrites (blk + vbusBlkHeadSz) (pkt.data.take tailsz) ++
        memcpyWrites 0 (pkt.data.drop tailsz)
    else memcpyWrites (blk + vbusBlkHeadSz) pkt.data

/-- Where the reader reads the data of a packet that it copies. -/
def busInReads (nr get size : Nat) : List Nat :=
  let blk := get * vbusBlkSz
  if nr ≤ get + len2bnr size then
    let tailsz := tailSz nr get size
    List.range' (blk + vbusBlkHeadSz) tailsz ++ List.range' 0 (size - tailsz)
  else List.range' (blk + vbusBlkHeadSz) size

/-- Where the data of a packet for channel 0 are, which is read in place. -/
def chn0Reads (get size : Nat) : List Nat :=
  List.range' (get * vbusBlkSz + vbusBlkHeadSz) size

/-- Where the writer is: between two packets, or in one, with what is still to be written. -/
inductive VbusWriter where
  | idle
  | writing (pkt : VbusPkt) (pending : List (Nat × BitVec 8))

/-- Where the reader is: between two packets, in front of one, behind its header, or in its data,
    with where it still has to read and what it has read. -/
inductive VbusReader where
  | idle
  | looked
  | header (id : BitVec 8) (size : Nat)
  | reading (id : BitVec 8) (size : Nat) (pending : List Nat) (got : List (BitVec 8))

/-- A packet in the history: the channel, the length and the bytes. -/
structure VbusRecord where
  id : BitVec 8
  len : Nat
  bytes : List (BitVec 8)
  deriving DecidableEq, Repr

/-- The ring, the writer, the reader, the packets that were put on the ring and those that were
    taken off. -/
structure VbusSys where
  ring : VbusRing
  writer : VbusWriter
  reader : VbusReader
  sent : List VbusRecord
  taken : List VbusRecord

def VbusPkt.record (pkt : VbusPkt) : VbusRecord :=
  { id := pkt.id, len := pkt.data.length, bytes := pkt.data }

/-- The writer begins with a packet, writes a byte, or is done with the packet. The reader looks
    for a packet, reads a header, drops the packet, begins with its data, reads a byte, or is done
    with the packet. -/
inductive VbusAction where
  | begin (pkt : VbusPkt)
  | writeByte
  | publish
  | look
  | readHeader
  | drop
  | chn0
  | copy
  | readByte
  | finish

def VbusSys.take (nr : Nat) (s : VbusSys) (record : VbusRecord) : VbusSys :=
  { s with ring := { s.ring with getIdx := nextIdx nr s.ring.getIdx (len2bnr record.len) }
           reader := .idle
           taken := s.taken ++ [record] }

def vbusStep (nr : Nat) (s : VbusSys) : VbusAction → Option VbusSys
  | .begin pkt =>
    match s.writer with
    | .idle =>
      -- wait for enough space
      if busRingSpaceNr nr s.ring < (pkt.bnr : Int) then none
      else some { s with writer := .writing pkt (busOutWrites nr s.ring.putIdx pkt) }
    | _ => none
  | .writeByte =>
    match s.writer with
    | .writing pkt ((a, v) :: pending) =>
      some { s with ring := { s.ring with blks := Function.update s.ring.blks a v }
                    writer := .writing pkt pending }
    | _ => none
  | .publish =>
    match s.writer with
    | .writing pkt [] =>
      some { s with ring := { s.ring with putIdx := nextIdx nr s.ring.putIdx pkt.bnr }
                    writer := .idle
                    sent := s.sent ++ [pkt.record] }
    | _ => none
  | .look =>
    match s.reader with
    | .idle =>
      if s.ring.getIdx = s.ring.putIdx then none else some { s with reader := .looked }
    | _ => none
  | .readHeader =>
    match s.reader with
    | .looked =>
      let blk := s.ring.getIdx * vbusBlkSz
      let size := (s.ring.blks (blk + 2)).toNat
      let id := s.ring.blks blk
      some { s with reader := .header id size }
    | _ => none
  | .drop =>
    match s.reader with
    | .header id size =>
      let bytes := (busInReads nr s.ring.getIdx size).map s.ring.blks
      some (s.take nr { id := id, len := size, bytes := bytes })
    | _ => none
  | .chn0 =>
    match s.reader with
    | .header id size =>
      if id = 0 ∧ size ≤ 60 then
        some { s with reader := .reading id size (chn0Reads s.ring.getIdx size) [] }
      else none
    | _ => none
  | .copy =>
    match s.reader with
    | .header id size =>
      if id = 0 then none
      else some { s with reader := .reading id size (busInReads nr s.ring.getIdx size) [] }
    | _ => none
  | .readByte =>
    match s.reader with
    | .reading id size (a :: pending) got =>
      some { s with reader := .reading id size pending (got ++ [s.ring.blks a]) }
    | _ => none
  | .finish =>
    match s.reader with
    | .reading id size [] got => some (s.take nr { id := id, len := size, bytes := got })
    | _ => none

def vbusEmpty (blks : Nat → BitVec 8) : VbusSys :=
  { ring := { putIdx := 0, getIdx := 0, blks := blks }, writer := .idle, reader := .idle,
    sent := [], taken := [] }

end Honeycomb
