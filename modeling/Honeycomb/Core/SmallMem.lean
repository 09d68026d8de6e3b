import Honeycomb.Core.Kernel
import Honeycomb.Lib.ByteMem

/-!
# The Small Memory Heap

The heap of `mem.c`: a region of memory cut into blocks, each with a header of
twelve bytes in front that gives the offsets of the blocks before and behind it.

Headers and user data lie in one byte-addressed memory, so a header is overwritten
by whoever writes where it is. The fields of a header are read and written where
the C compiler puts them: `magic` and `used` are 16 bits, `next` and `prev` are 32.
Offsets and sizes are 32 bits and wrap around.

The calls are made one after the other. The semaphore that keeps them apart is
not modelled, and neither are the hooks, the log messages and the names the
tracing variant keeps in the headers. A search that never ends has no result. The
search does not change the heap, so one that has not ended after as many steps as
there are offsets never ends.

`HeapSys` adds the owners: who was given which pointer for how many bytes, and the
bytes the owner can expect to find there.
-/

namespace Honeycomb.SmallMem

open Function

def heapMagic : BitVec 16 := 0x1ea0#16

def sizeofStructMem : BitVec 32 := 12#32

/-- The least size of the user area of a block that is allocated. -/
def minSize : BitVec 32 := 12#32

def minSizeAligned : BitVec 32 := rtAlign minSize

structure Heap where
  memory : Memory
  heapPtr : BitVec 32
  heapEnd : BitVec 32
  lfree : BitVec 32
  memSizeAligned : BitVec 32
  usedMem : BitVec 32
  maxMem : BitVec 32

namespace Heap

variable (h : Heap) (mem ptr : BitVec 32)

def magic : BitVec 16 := h.memory.load16 mem

def used : BitVec 16 := h.memory.load16 (mem + 2#32)

def next : BitVec 32 := h.memory.load32 (mem + 4#32)

def prev : BitVec 32 := h.memory.load32 (mem + 8#32)

def setMagic (v : BitVec 16) : Heap := { h with memory := h.memory.store16 mem v }

def setUsed (v : BitVec 16) : Heap := { h with memory := h.memory.store16 (mem + 2#32) v }

def setNext (v : BitVec 32) : Heap := { h with memory := h.memory.store32 (mem + 4#32) v }

def setPrev (v : BitVec 32) : Heap := { h with memory := h.memory.store32 (mem + 8#32) v }

/-- The address of the block at an offset, `&heap_ptr[ptr]`. -/
def block : BitVec 32 := h.heapPtr + ptr

/-- The offset of a block, `(rt_uint8_t *)mem - heap_ptr`. -/
def offset : BitVec 32 := mem - h.heapPtr

def count (size : BitVec 32) : Heap :=
  let h := { h with usedMem := h.usedMem + size }
  { h with maxMem := if h.maxMem < h.usedMem then h.usedMem else h.maxMem }

end Heap

variable (h : Heap)

def mergeBlocks (first second : BitVec 32) : Heap :=
  let h := { h with lfree := if h.lfree = second then first else h.lfree }
  let h := h.setNext first (h.next second)
  h.setPrev (h.block (h.next second)) (h.offset first)

/-- Merge a free block with the one behind it, if that is free as well. -/
def plugForward (mem : BitVec 32) : Heap :=
  let nmem := h.block (h.next mem)
  if mem ≠ nmem ∧ h.used nmem = 0#16 ∧ nmem ≠ h.heapEnd then mergeBlocks h mem nmem else h

/-- Merge a free block with the one before it, if that is free as well. -/
def plugBackward (mem : BitVec 32) : Heap :=
  let pmem := h.block (h.prev mem)
  if pmem ≠ mem ∧ h.used pmem = 0#16 then mergeBlocks h pmem mem else h

def plugHoles (mem : BitVec 32) : Option Heap := do
  rtAssert (h.heapPtr ≤ mem)
  rtAssert (mem < h.heapEnd)
  rtAssert (h.used mem = 0#16)
  return plugBackward (plugForward h mem) mem

/-- Initialize the heap between two addresses. Where they leave no room for two
    headers, the code reports an error and there is no heap. -/
def rtSystemHeapInit (memory : Memory) (beginAddr endAddr : BitVec 32) : Option Heap :=
  let beginAlign := rtAlign beginAddr
  let endAlign := rtAlignDown endAddr
  if 2#32 * sizeofStructMem < endAlign ∧ beginAlign ≤ endAlign - 2#32 * sizeofStructMem then
    let size := endAlign - beginAlign - 2#32 * sizeofStructMem
    let h : Heap := ⟨memory, beginAlign, 0#32, 0#32, size, 0#32, 0#32⟩
    -- The one block there is.
    let mem := h.heapPtr
    let h := h.setMagic mem heapMagic
    let h := h.setNext mem (size + sizeofStructMem)
    let h := h.setPrev mem 0#32
    let h := h.setUsed mem 0#16
    -- The header at the end.
    let h := { h with heapEnd := h.block (h.next mem) }
    let h := h.setMagic h.heapEnd heapMagic
    let h := h.setUsed h.heapEnd 1#16
    let h := h.setNext h.heapEnd (size + sizeofStructMem)
    let h := h.setPrev h.heapEnd (size + sizeofStructMem)
    some { h with lfree := h.heapPtr }
  else none

/-- As many steps as there are offsets. -/
def steps : Nat := 2 ^ 32

/-- The offset of the first block from `ptr` on that is free and large enough, if there is one. -/
def mallocSearch (h : Heap) (size : BitVec 32) : Nat → BitVec 32 → Option (Option (BitVec 32))
  | 0, _ => none
  | fuel + 1, ptr =>
    if ptr < h.memSizeAligned - size then
      let mem := h.block ptr
      if h.used mem = 0#16 ∧ size ≤ h.next mem - (ptr + sizeofStructMem) then some (some ptr)
      else mallocSearch h size fuel (h.next mem)
    else some none

/-- Cut a block at an offset inside it: a new header there, of a free block, and
    the first part ends at it. -/
def cutBlock (ptr ptr2 : BitVec 32) : Heap :=
  let mem := h.block ptr
  let mem2 := h.block ptr2
  let h := h.setMagic mem2 heapMagic
  let h := h.setUsed mem2 0#16
  let h := h.setNext mem2 (h.next mem)
  let h := h.setPrev mem2 ptr
  h.setNext mem ptr2

/-- Tell the block behind a new one that it is there, unless it is the end. -/
def linkBehind (ptr2 : BitVec 32) : Heap :=
  let mem2 := h.block ptr2
  if h.next mem2 ≠ h.memSizeAligned + sizeofStructMem then
    h.setPrev (h.block (h.next mem2)) ptr2
  else h

/-- Use the first part of a block, and make a block of the rest. -/
def mallocSplit (ptr size : BitVec 32) : Heap :=
  let ptr2 := ptr + sizeofStructMem + size
  let h := cutBlock h ptr ptr2
  let h := h.setUsed (h.block ptr) 1#16
  let h := linkBehind h ptr2
  h.count (size + sizeofStructMem)

def mallocWhole (ptr : BitVec 32) : Heap :=
  let mem := h.block ptr
  let h := h.setUsed mem 1#16
  h.count (h.next mem - h.offset mem)

/-- Use a block, with the rest of it cut off if that is large enough for a block of its own. -/
def mallocTake (ptr size : BitVec 32) : Heap :=
  let mem := h.block ptr
  let h :=
    if size + sizeofStructMem + minSizeAligned ≤ h.next mem - (ptr + sizeofStructMem) then
      mallocSplit h ptr size
    else mallocWhole h ptr
  h.setMagic mem heapMagic

/-- Move the pointer to the lowest free block up to the next free block. -/
def lowestFree : Nat → Heap → Option Heap
  | 0, _ => none
  | fuel + 1, h =>
    if h.used h.lfree ≠ 0#16 ∧ h.lfree ≠ h.heapEnd then
      lowestFree fuel { h with lfree := h.block (h.next h.lfree) }
    else some h

/-- The pointer to the lowest free block after a block has been taken. -/
def mallocLfree (mem : BitVec 32) : Option Heap :=
  if mem = h.lfree then do
    let h ← lowestFree steps h
    rtAssert (h.lfree = h.heapEnd ∨ h.used h.lfree = 0#16)
    return h
  else some h

def rtMalloc (size : BitVec 32) : Option (Heap × BitVec 32) :=
  if size = 0#32 then some (h, 0#32)
  else
    let size := rtAlign size
    if h.memSizeAligned < size then some (h, 0#32)
    else do
      let size := if size < minSizeAligned then minSizeAligned else size
      let found ← mallocSearch h size steps (h.offset h.lfree)
      match found with
      | none => return (h, 0#32)
      | some ptr => do
        let mem := h.block ptr
        let h ← mallocLfree (mallocTake h ptr size) mem
        rtAssert (mem + sizeofStructMem + size ≤ h.heapEnd)
        rtAssert ((mem + sizeofStructMem) % 4#32 = 0#32)
        rtAssert (mem &&& (4#32 - 1#32) = 0#32)
        return (h, mem + sizeofStructMem)

/-- Mark a block as free, and count it as such. -/
def markFree (mem : BitVec 32) : Heap :=
  let h := h.setUsed mem 0#16
  let h := h.setMagic mem heapMagic
  let h := { h with lfree := if mem < h.lfree then mem else h.lfree }
  { h with usedMem := h.usedMem - (h.next mem - h.offset mem) }

def rtFree (rmem : BitVec 32) : Option Heap :=
  if rmem = 0#32 then some h
  else do
    rtAssert (rmem &&& (4#32 - 1#32) = 0#32)
    rtAssert (h.heapPtr ≤ rmem ∧ rmem < h.heapEnd)
    if rmem < h.heapPtr ∨ h.heapEnd ≤ rmem then return h
    else
      let mem := rmem - sizeofStructMem
      rtAssert (h.used mem ≠ 0#16)
      rtAssert (h.magic mem = heapMagic)
      plugHoles (markFree h mem) mem

/-- Cut off the end of a block that is used. -/
def reallocShrink (ptr size newsize : BitVec 32) : Option Heap :=
  let h := { h with usedMem := h.usedMem - (size - newsize) }
  let ptr2 := ptr + sizeofStructMem + newsize
  let h := linkBehind (cutBlock h ptr ptr2) ptr2
  plugHoles h (h.block ptr2)

def reallocMove (rmem size newsize : BitVec 32) : Option (Heap × BitVec 32) := do
  let (h, nmem) ← rtMalloc h newsize
  if nmem ≠ 0#32 then
    let n := if size < newsize then size else newsize
    let h ← rtFree { h with memory := h.memory.copy nmem rmem n } rmem
    return (h, nmem)
  else return (h, nmem)

def rtRealloc (rmem newsize : BitVec 32) : Option (Heap × BitVec 32) :=
  let newsize := rtAlign newsize
  if h.memSizeAligned < newsize then some (h, 0#32)
  else if newsize = 0#32 then do
    let h ← rtFree h rmem
    return (h, 0#32)
  else if rmem = 0#32 then rtMalloc h newsize
  else if rmem < h.heapPtr ∨ h.heapEnd ≤ rmem then some (h, rmem)
  else
    let mem := rmem - sizeofStructMem
    let ptr := h.offset mem
    let size := h.next mem - ptr - sizeofStructMem
    if size = newsize then some (h, rmem)
    else if newsize + sizeofStructMem + minSize < size then do
      let h ← reallocShrink h ptr size newsize
      return (h, rmem)
    else reallocMove h rmem size newsize

def rtCalloc (count size : BitVec 32) : Option (Heap × BitVec 32) := do
  let (h, p) ← rtMalloc h (count * size)
  if p ≠ 0#32 then return ({ h with memory := h.memory.fill p (count * size) 0#8 }, p)
  else return (h, p)

/-- What the owner of a pointer knows: how many bytes there are, and what they are. -/
structure Alloc where
  size : Nat
  bytes : Nat → BitVec 8

structure HeapSys where
  heap : Heap
  live : BitVec 32 → Option Alloc

/-- What can happen. An owner can also write to its own bytes. -/
inductive HeapAction where
  | malloc (size : BitVec 32)
  | calloc (count size : BitVec 32)
  | realloc (rmem newsize : BitVec 32)
  | free (rmem : BitVec 32)
  | write (rmem : BitVec 32) (i : Nat) (v : BitVec 8)
  deriving DecidableEq, Repr

namespace HeapSys

/-- A call has returned a pointer to so many bytes. Those the owner had before,
    and those the call writes, are `known`; the others are as they are found. -/
def give (s : HeapSys) (h : Heap) (p : BitVec 32) (size : Nat) (known : Alloc) : HeapSys :=
  { heap := h
    live :=
      if p = 0#32 then s.live
      else update s.live p (some
        ⟨size, fun i => if i < known.size then known.bytes i else h.memory.window p i⟩) }

def drop (s : HeapSys) (p : BitVec 32) : HeapSys :=
  { s with live := update s.live p none }

end HeapSys

/-- Nothing is known about the bytes. -/
def unknown : Alloc := ⟨0, fun _ => 0#8⟩

/-- One step. Only pointers with an owner are given back or resized. A resize that returns no
    pointer leaves the old one with its owner, unless the owner asked for no bytes. -/
def heapStep (s : HeapSys) : HeapAction → Option HeapSys
  | .malloc size => do
    let (h, p) ← rtMalloc s.heap size
    return s.give h p size.toNat unknown
  | .calloc count size => do
    let (h, p) ← rtCalloc s.heap count size
    return s.give h p (count * size).toNat ⟨(count * size).toNat, fun _ => 0#8⟩
  | .realloc rmem newsize =>
    if rmem = 0#32 then do
      let (h, p) ← rtRealloc s.heap rmem newsize
      return s.give h p newsize.toNat unknown
    else do
      let a ← s.live rmem
      let (h, p) ← rtRealloc s.heap rmem newsize
      if p = 0#32 then
        if newsize = 0#32 then return { s with heap := h }.drop rmem
        else return { s with heap := h }
      else return (s.drop rmem).give h p newsize.toNat a
  | .free rmem =>
    if rmem = 0#32 then do
      let h ← rtFree s.heap rmem
      return { s with heap := h }
    else do
      let _ ← s.live rmem
      let h ← rtFree s.heap rmem
      return { s with heap := h }.drop rmem
  | .write rmem i v => do
    let a ← s.live rmem
    rtAssert (i < a.size)
    let h := { s.heap with memory := s.heap.memory.store8 (rmem + BitVec.ofNat 32 i) v }
    let a := { a with bytes := update a.bytes i v }
    return { heap := h, live := update s.live rmem (some a) }

def heapSysInit (memory : Memory) (beginAddr endAddr : BitVec 32) : Option HeapSys := do
  let h ← rtSystemHeapInit memory beginAddr endAddr
  return ⟨h, fun _ => none⟩

end Honeycomb.SmallMem
