import Honeycomb.Core.SmallMem
import Honeycomb.Lib.Record

/-!
# Memory Heap Objects

The heap of `memheap.c`: a pool of memory cut into blocks, each with a header of
six words in front. The headers are on two circular lists. One has all blocks in
the order in which they lie in the pool, with a header without a block behind them
at the end. The other has the free blocks in the order in which they were freed,
and its head is outside the pool, in the object itself.

Headers, the head of the free list and user data lie in one byte-addressed memory,
and a header is known by its address alone. All links are followed and written
where they lead.

The calls are made one after the other. The semaphore that keeps them apart is not
modelled, and neither are the object's name and type and the log messages. There is
one heap object, so a block that is released has to say that it belongs to it.

`MemSys` adds the owners, as for the small memory heap.
-/

namespace Honeycomb.MemHeap

open Function

/-- The fields of a header, `struct rt_memheap_item`. -/
inductive Field where
  | magic
  | poolPtr
  | next
  | prev
  | nextFree
  | prevFree
  deriving DecidableEq, Repr

def Field.off : Field → Nat
  | .magic => 0
  | .poolPtr => 4
  | .next => 8
  | .prev => 12
  | .nextFree => 16
  | .prevFree => 20

def itemFormat : Format Field where
  size := 24
  off := Field.off
  fits f := by cases f <;> decide
  apart f g h := by cases f <;> cases g <;> first | exact absurd rfl h | decide
  small := by decide

def memheapMagic : BitVec 32 := 0x1ea01ea0#32

def memheapMask : BitVec 32 := 0xfffffffe#32

def memheapUsed : BitVec 32 := 1#32

/-- The least size of the user area of a block. -/
def memheapMinialloc : BitVec 32 := 12#32

def memheapSize : BitVec 32 := rtAlign 24#32

/-- The memory and the variables of the object. The object is at the address `self`,
    and the head of its free list at `freeHeader`. -/
structure Heap where
  memory : Memory
  self : BitVec 32
  freeHeader : BitVec 32
  startAddr : BitVec 32
  poolSize : BitVec 32
  availableSize : BitVec 32
  maxUsedSize : BitVec 32
  blockList : BitVec 32
  freeList : BitVec 32

namespace Heap

variable (h : Heap) (f : Field) (item v : BitVec 32)

def get : BitVec 32 := itemFormat.get h.memory f item

def set : Heap := { h with memory := itemFormat.set h.memory f item v }

def isUsed : Bool := decide (h.get .magic item &&& memheapUsed ≠ 0#32)

def memitemSize : BitVec 32 := h.get .next item - item - memheapSize

/-- Keep the maximum of the memory that is used. -/
def countUsed : Heap :=
  { h with maxUsedSize :=
      if h.maxUsedSize < h.poolSize - h.availableSize then h.poolSize - h.availableSize
      else h.maxUsedSize }

/-- Insert a block at the front of the free list. -/
def linkFree : Heap :=
  let h := h.set .nextFree item (h.get .nextFree h.freeList)
  let h := h.set .prevFree item h.freeList
  let h := h.set .prevFree (h.get .nextFree h.freeList) item
  h.set .nextFree h.freeList item

/-- Remove a block from the free list. Its own links stay as they are. -/
def unlinkFree : Heap :=
  let h := h.set .prevFree (h.get .nextFree item) (h.get .prevFree item)
  h.set .nextFree (h.get .prevFree item) (h.get .nextFree item)

/-- Write the header of a new block, which is free, and link it in behind a block. -/
def splitItem (headerPtr newPtr : BitVec 32) : Heap :=
  let h := h.set .magic newPtr memheapMagic
  let h := h.set .poolPtr newPtr h.self
  let h := h.set .prev newPtr headerPtr
  let h := h.set .next newPtr (h.get .next headerPtr)
  let h := h.set .prev (h.get .next headerPtr) newPtr
  h.set .next headerPtr newPtr

/-- Make one block of a block and the free one behind it. -/
def absorb (headerPtr newPtr : BitVec 32) : Heap :=
  let h := h.set .prev (h.get .next newPtr) headerPtr
  let h := h.set .next headerPtr (h.get .next newPtr)
  h.unlinkFree newPtr

end Heap

/-- The object, with one free block in its pool and the header at the end. -/
def rtMemheapInit (memory : Memory) (self freeHeader startAddr size : BitVec 32) : Option Heap := do
  rtAssert (self ≠ 0#32)
  let poolSize := rtAlignDown size
  let availableSize := poolSize - 2#32 * memheapSize
  let h : Heap := ⟨memory, self, freeHeader, startAddr, poolSize, availableSize,
    poolSize - availableSize, 0#32, 0#32⟩
  -- The head of the free list.
  let item := freeHeader
  let h := h.set .magic item memheapMagic
  let h := h.set .poolPtr item self
  let h := h.set .next item 0#32
  let h := h.set .prev item 0#32
  let h := h.set .nextFree item item
  let h := h.set .prevFree item item
  let h := { h with freeList := item }
  -- The first block.
  let item := startAddr
  let h := h.set .magic item memheapMagic
  let h := h.set .poolPtr item self
  let h := h.set .next item 0#32
  let h := h.set .prev item 0#32
  let h := h.set .nextFree item item
  let h := h.set .prevFree item item
  let h := h.set .next item (item + h.availableSize + memheapSize)
  let h := h.set .prev item (h.get .next item)
  let h := { h with blockList := item }
  let h := h.linkFree item
  -- The header at the end.
  let item := h.get .next item
  let h := h.set .magic item (memheapMagic ||| memheapUsed)
  let h := h.set .poolPtr item self
  let h := h.set .next item startAddr
  let h := h.set .prev item startAddr
  let h := h.set .prevFree item 0#32
  return h.set .nextFree item 0#32

/-- As many steps as there are addresses. -/
def steps : Nat := 2 ^ 32

/-- Go along the free list to a block that is large enough. -/
def allocSearch (h : Heap) (size : BitVec 32) :
    Nat → BitVec 32 → BitVec 32 → Option (BitVec 32 × BitVec 32)
  | 0, _, _ => none
  | fuel + 1, headerPtr, freeSize =>
    if headerPtr ≠ h.freeList ∧ freeSize < size then
      let freeSize := h.memitemSize headerPtr
      if freeSize < size then allocSearch h size fuel (h.get .nextFree headerPtr) freeSize
      else allocSearch h size fuel headerPtr freeSize
    else some (headerPtr, freeSize)

variable (h : Heap)

/-- Remove a block from the free list, and clear its links. -/
def takeFree (headerPtr : BitVec 32) : Heap :=
  let h := h.unlinkFree headerPtr
  let h := h.set .nextFree headerPtr 0#32
  h.set .prevFree headerPtr 0#32

/-- Use the first part of a free block, and make a free block of the rest. -/
def allocSplit (headerPtr size : BitVec 32) : Heap :=
  let newPtr := headerPtr + size + memheapSize
  let h := h.splitItem headerPtr newPtr
  let h := takeFree h headerPtr
  let h := h.linkFree newPtr
  { h with availableSize := h.availableSize - size - memheapSize }.countUsed

def allocWhole (headerPtr freeSize : BitVec 32) : Heap :=
  takeFree { h with availableSize := h.availableSize - freeSize }.countUsed headerPtr

/-- The size that is allocated for a size that is asked for. -/
def allocSize (size : BitVec 32) : BitVec 32 :=
  let size := rtAlign size
  if size < memheapMinialloc then memheapMinialloc else size

def rtMemheapAlloc (size : BitVec 32) : Option (Heap × BitVec 32) :=
  let size := allocSize size
  if size < h.availableSize then do
    let (headerPtr, freeSize) ← allocSearch h size steps (h.get .nextFree h.freeList) 0#32
    if size ≤ freeSize then
      let h :=
        if size + memheapSize + memheapMinialloc ≤ freeSize then allocSplit h headerPtr size
        else allocWhole h headerPtr freeSize
      let h := h.set .magic headerPtr (h.get .magic headerPtr ||| memheapUsed)
      return (h, headerPtr + memheapSize)
    else return (h, 0#32)
  else some (h, 0#32)

/-- Merge a free block with the one before it, if that is free, and say which block
    it is part of now and whether that is on the free list already. -/
def mergeLeft (headerPtr : BitVec 32) : Heap × BitVec 32 × Bool :=
  if h.isUsed (h.get .prev headerPtr) then (h, headerPtr, false)
  else
    let h := { h with availableSize := h.availableSize + memheapSize }
    let h := h.set .next (h.get .prev headerPtr) (h.get .next headerPtr)
    let h := h.set .prev (h.get .next headerPtr) (h.get .prev headerPtr)
    (h, h.get .prev headerPtr, true)

/-- Merge a free block with the one behind it, if that is free. -/
def mergeRight (headerPtr : BitVec 32) : Heap :=
  if h.isUsed (h.get .next headerPtr) then h
  else
    let h := { h with availableSize := h.availableSize + memheapSize }
    h.absorb headerPtr (h.get .next headerPtr)

def rtMemheapFree (ptr : BitVec 32) : Option Heap :=
  if ptr = 0#32 then some h
  else do
    let headerPtr := ptr - memheapSize
    rtAssert (h.get .magic headerPtr &&& memheapMask = memheapMagic)
    rtAssert (h.get .magic headerPtr &&& memheapUsed ≠ 0#32)
    rtAssert (h.get .magic (h.get .next headerPtr) &&& memheapMask = memheapMagic)
    rtAssert (h.get .poolPtr headerPtr ≠ 0#32)
    -- There is no other heap object.
    rtAssert (h.get .poolPtr headerPtr = h.self)
    let h := h.set .magic headerPtr (h.get .magic headerPtr &&& ~~~memheapUsed)
    let h := { h with availableSize := h.availableSize + h.memitemSize headerPtr }
    let (h, headerPtr, listed) := mergeLeft h headerPtr
    let h := mergeRight h headerPtr
    return if listed then h else h.linkFree headerPtr

/-- Grow a block into the free one behind it, of which the rest becomes a free block
    with a header in another place. -/
def reallocGrow (ptr oldsize newsize : BitVec 32) : Heap :=
  let headerPtr := ptr - memheapSize
  let nextPtr := h.get .next headerPtr
  let h := { h with availableSize := h.availableSize - (newsize - oldsize) }.countUsed
  let h := h.unlinkFree nextPtr
  let h := h.set .prev (h.get .next nextPtr) (h.get .prev nextPtr)
  let h := h.set .next (h.get .prev nextPtr) (h.get .next nextPtr)
  let nextPtr := ptr + newsize
  let h := h.splitItem headerPtr nextPtr
  h.linkFree nextPtr

/-- Cut off the end of a block, and merge it with the block behind it, if that is free. -/
def reallocShrink (headerPtr newsize : BitVec 32) : Heap :=
  let newPtr := headerPtr + newsize + memheapSize
  let h := h.splitItem headerPtr newPtr
  let h :=
    if h.isUsed (h.get .next newPtr) then h
    else
      let freePtr := h.get .next newPtr
      let h := { h with availableSize := h.availableSize - h.memitemSize freePtr }
      h.absorb newPtr freePtr
  let h := h.linkFree newPtr
  { h with availableSize := h.availableSize + h.memitemSize newPtr }

def reallocMove (ptr oldsize newsize : BitVec 32) : Option (Heap × BitVec 32) := do
  let (h, newPtr) ← rtMemheapAlloc h newsize
  if newPtr ≠ 0#32 then
    let n := if oldsize < newsize then oldsize else newsize
    let h ← rtMemheapFree { h with memory := h.memory.copy newPtr ptr n } ptr
    return (h, newPtr)
  else return (h, newPtr)

def rtMemheapRealloc (ptr newsize : BitVec 32) : Option (Heap × BitVec 32) :=
  if newsize = 0#32 then do
    let h ← rtMemheapFree h ptr
    return (h, 0#32)
  else
    let newsize := allocSize newsize
    if ptr = 0#32 then rtMemheapAlloc h newsize
    else
      let headerPtr := ptr - memheapSize
      let oldsize := h.memitemSize headerPtr
      if oldsize < newsize then do
        let nextPtr := h.get .next headerPtr
        rtAssert (headerPtr < nextPtr)
        if h.isUsed nextPtr then reallocMove h ptr oldsize newsize
        else do
          rtAssert (0#32 < nextPtr)
          if newsize + memheapMinialloc < h.memitemSize nextPtr + oldsize then
            return (reallocGrow h ptr oldsize newsize, ptr)
          else reallocMove h ptr oldsize newsize
      else if oldsize ≤ newsize + memheapSize + memheapMinialloc then some (h, ptr)
      else some (reallocShrink h headerPtr newsize, ptr)

/-- The heap and the owners. As long as `fresh` is set, no pointer has been given out
    that had an owner already. -/
structure MemSys where
  heap : Heap
  live : BitVec 32 → Option SmallMem.Alloc
  fresh : Bool

/-- What can happen. An owner can also write to its own bytes. -/
inductive MemAction where
  | alloc (size : BitVec 32)
  | realloc (ptr newsize : BitVec 32)
  | free (ptr : BitVec 32)
  | write (ptr : BitVec 32) (i : Nat) (v : BitVec 8)
  deriving DecidableEq, Repr

namespace MemSys

/-- A call has returned a pointer to so many bytes. Those the owner had before are
    `known`; the others are as they are found. -/
def give (s : MemSys) (h : Heap) (p : BitVec 32) (size : Nat) (known : SmallMem.Alloc) : MemSys :=
  if p = 0#32 then { s with heap := h }
  else
    { heap := h
      live := update s.live p (some
        ⟨size, fun i => if i < known.size then known.bytes i else h.memory.window p i⟩)
      fresh := s.fresh && (s.live p).isNone }

def drop (s : MemSys) (p : BitVec 32) : MemSys :=
  { s with live := update s.live p none }

end MemSys

/-- One step. Only pointers with an owner are given back or resized. A resize that returns no
    pointer leaves the old one with its owner, unless the owner asked for no bytes. -/
def memStep (s : MemSys) : MemAction → Option MemSys
  | .alloc size => do
    let (h, p) ← rtMemheapAlloc s.heap size
    return s.give h p size.toNat SmallMem.unknown
  | .realloc ptr newsize =>
    if ptr = 0#32 then do
      let (h, p) ← rtMemheapRealloc s.heap ptr newsize
      return s.give h p newsize.toNat SmallMem.unknown
    else do
      let a ← s.live ptr
      let (h, p) ← rtMemheapRealloc s.heap ptr newsize
      if p = 0#32 then
        if newsize = 0#32 then return { s with heap := h }.drop ptr
        else return { s with heap := h }
      else return (s.drop ptr).give h p newsize.toNat a
  | .free ptr =>
    if ptr = 0#32 then do
      let h ← rtMemheapFree s.heap ptr
      return { s with heap := h }
    else do
      let _ ← s.live ptr
      let h ← rtMemheapFree s.heap ptr
      return { s with heap := h }.drop ptr
  | .write ptr i v => do
    let a ← s.live ptr
    rtAssert (i < a.size)
    let h := { s.heap with memory := s.heap.memory.store8 (ptr + BitVec.ofNat 32 i) v }
    let a := { a with bytes := update a.bytes i v }
    return { s with heap := h, live := update s.live ptr (some a) }

def memSysInit (memory : Memory) (self freeHeader startAddr size : BitVec 32) : Option MemSys := do
  let h ← rtMemheapInit memory self freeHeader startAddr size
  return ⟨h, fun _ => none, true⟩

end Honeycomb.MemHeap
