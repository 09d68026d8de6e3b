import Honeycomb.Core.Ipc
import Honeycomb.Lib.ByteMem

/-!
# Memory Pools

Pools of memory blocks of one size, and the system of threads that use them.

Every block has one word in front. In a free block it leads to the next free block,
and in a block that is taken to the pool it belongs to. A block is known by its number
in the pool, and nothing is said about what its user writes into it.

A thread that finds no free block waits on a list of the pool, and the pool counts
those who wait there. An allocation counts a thread when it links it in, and a release
that resumes a thread takes it off the count. A wait that is over because its time has
run out is ended by the thread timer, which knows nothing of the pool.

The counters are natural numbers. There are never as many threads or blocks as words
in the address space.
-/

namespace Honeycomb

open Function ThreadLists

/-- The word in front of a block: the next free block, or the pool. -/
inductive BlockWord where
  | next (block : Option Nat)
  | pool (n : Nat)
  deriving DecidableEq, Repr

/-- A memory pool. Its wait list is in the kernel. -/
structure MemPool where
  blockList : Option Nat
  blockFreeCount : Nat
  suspendThreadCount : Nat
  word : Nat → BlockWord

/-- Initialize a memory pool: its blocks are linked in the order in which they lie. The
    last link is written into the last block, so there has to be one. -/
def rtMpInit (size blockSize : BitVec 32) : Option MemPool := do
  let size := rtAlignDown size
  let blockSize := rtAlign blockSize
  let blockTotalCount := (size / (blockSize + 4#32)).toNat
  rtAssert (0 < blockTotalCount)
  return {
    blockList := some 0
    blockFreeCount := blockTotalCount
    suspendThreadCount := 0
    word := fun block => .next (if block + 1 < blockTotalCount then some (block + 1) else none) }

/-- Whether an allocation is over, and with which block if any, or waits, with its
    variables `time` and `before_sleep`. -/
inductive MpOutcome where
  | done (block : Option Nat)
  | blocked (time beforeSleep : BitVec 32)
  deriving DecidableEq, Repr

variable (prioMax : Nat)

def MemPool.take (mp : MemPool) (n : Nat) : Option (MemPool × Nat) := do
  let block ← mp.blockList
  match mp.word block with
  | .next next => return ({ mp with
      blockFreeCount := mp.blockFreeCount - 1
      blockList := next
      word := update mp.word block (.pool n) }, block)
  | .pool _ => none

variable (k : Kernel Queues)

variable (mp : MemPool)

/-- The loop of an allocation, from the check of its condition on. -/
def mpAllocLoop (n : Nat) (list : Head) (t : Tid)
    (time beforeSleep tick : BitVec 32) : Option (Kernel Queues × MemPool × MpOutcome) :=
  if mp.blockFreeCount = 0 then
    if time = 0#32 then
      some (k.setThread t { k.thread t with error := .etimeout }, mp, .done none)
    else do
      let k := k.setThread t { k.thread t with error := .eok }
      let (k, _) ← rtThreadSuspend prioMax k t
      let k := { k with lists := insertAfter k.lists list t }
      let mp := { mp with suspendThreadCount := mp.suspendThreadCount + 1 }
      let k ← startThreadTimer k t time
      let k ← rtSchedule prioMax k
      return (k, mp, .blocked time (startTick time beforeSleep tick))
  else do
    let (mp, block) ← mp.take n
    return (k, mp, .done (some block))

def rtMpAlloc (n : Nat) (list : Head) (t : Tid)
    (time tick : BitVec 32) : Option (Kernel Queues × MemPool × MpOutcome) :=
  mpAllocLoop prioMax k mp n list t time 0#32 tick

/-- The rest of an allocation that has waited. It may have to wait again. -/
def rtMpAllocReturn (n : Nat) (list : Head) (t : Tid)
    (time beforeSleep tick : BitVec 32) : Option (Kernel Queues × MemPool × MpOutcome) :=
  if (k.thread t).error ≠ .eok then
    some (k, mp, .done none)
  else
    mpAllocLoop prioMax k mp n list t (remaining time beforeSleep tick) beforeSleep tick

/-- Release a block. The pool is found in the word in front of it, and whether somebody
    waits is read from the count. On an empty list the thread that is then resumed would
    be the head of the list, which is none. -/
def rtMpFree (n : Nat) (list : Head) (block : Nat) :
    Option (Kernel Queues × MemPool) := do
  rtAssert (mp.word block = .pool n)
  let mp := { mp with
    blockFreeCount := mp.blockFreeCount + 1
    word := update mp.word block (.next mp.blockList)
    blockList := some block }
  if 0 < mp.suspendThreadCount then
    let w ← first k.lists list
    let k := k.setThread w { k.thread w with error := .eok }
    let (k, _) ← rtThreadResume prioMax k w
    let mp := { mp with suspendThreadCount := mp.suspendThreadCount - 1 }
    let k ← rtSchedule prioMax k
    return (k, mp)
  else
    return (k, mp)

structure MpCall where
  pool : Nat
  time : BitVec 32
  beforeSleep : BitVec 32
  deriving DecidableEq, Repr

structure MpSys where
  k : Kernel Queues
  pool : Nat → MemPool
  call : Tid → Option MpCall
  tick : BitVec 32

/-- What can happen. A release may come from an interrupt, so it has no thread of its own. -/
inductive MpAction where
  | spawn (t : Tid) (isStatic : Bool) (priority : Nat)
  | alloc (t : Tid) (n : Nat) (time : BitVec 32)
  | allocReturn (t : Tid)
  | free (n block : Nat)
  | timeout (t : Tid)
  | tick
  deriving DecidableEq, Repr

namespace MpSys

def list (n : Nat) : Head := .pool n

/-- Enter what an allocation did up to where it waits or is over. -/
def finishAlloc (s : MpSys) (t : Tid) (n : Nat) (r : Kernel Queues × MemPool × MpOutcome) : MpSys :=
  { s with
    k := r.1
    pool := update s.pool n r.2.1
    call := update s.call t (match r.2.2 with
      | .done _ => none
      | .blocked time beforeSleep => some ⟨n, time, beforeSleep⟩) }

end MpSys

open MpSys

/-- One step. A thread makes a new call when it is ready and its last call is over. -/
def mpStep (s : MpSys) : MpAction → Option MpSys
  | .spawn t isStatic priority => do
    let k ← spawn prioMax s.k t isStatic priority
    return { s with k := k }
  | .alloc t n time => do
    rtAssert (s.k.state t = .ready ∧ s.call t = none)
    let r ← rtMpAlloc prioMax s.k (s.pool n) n (list n) t time s.tick
    return s.finishAlloc t n r
  | .allocReturn t => do
    rtAssert (s.k.state t = .ready)
    let c ← s.call t
    let r ← rtMpAllocReturn prioMax s.k (s.pool c.pool) c.pool (list c.pool) t c.time
      c.beforeSleep s.tick
    return s.finishAlloc t c.pool r
  | .free n block => do
    let (k, mp) ← rtMpFree prioMax s.k (s.pool n) n (list n) block
    return { s with k := k, pool := update s.pool n mp }
  | .timeout t => do
    let k ← rtTimerExpire prioMax s.k t
    return { s with k := k }
  | .tick => some { s with tick := s.tick + 1#32 }

def mpSysInit (pool : Nat → MemPool) (tick : BitVec 32) : MpSys :=
  { k := rtSystemSchedulerInit prioMax queuesInit
    pool := pool
    call := fun _ => none
    tick := tick }

/-- Where a pool is, and how many blocks it has. -/
structure PoolPlace where
  startAddress : BitVec 32
  size : BitVec 32
  blockSize : BitVec 32
  blockTotalCount : BitVec 32

/-- Where a block begins, with the word in front. -/
def PoolPlace.addr (g : PoolPlace) (k : Nat) : BitVec 32 :=
  g.startAddress + BitVec.ofNat 32 k * (g.blockSize + 4#32)

/-- A pool with the memory it is in, and the pointers that were returned for the blocks
    that are taken. -/
structure PoolMem extends PoolPlace where
  blockFreeCount : BitVec 32
  blockList : BitVec 32
  memory : Memory
  live : List (BitVec 32)

namespace PoolMem

/-- Link the blocks, each to the place behind it, and end the list in the last one. -/
def link (g : PoolPlace) (memory : Memory) : PoolMem :=
  let memory := (List.range g.blockTotalCount.toNat).foldl
    (fun m offset => m.store32 (g.addr offset) (g.addr (offset + 1))) memory
  { g with
    blockFreeCount := g.blockTotalCount
    blockList := g.startAddress
    memory := memory.store32 (g.addr (g.blockTotalCount - 1#32).toNat) 0#32
    live := [] }

def rtMpInit (memory : Memory) (start size blockSize : BitVec 32) : PoolMem :=
  let size := rtAlignDown size
  let blockSize := rtAlign blockSize
  link ⟨start, size, blockSize, size / (blockSize + 4#32)⟩ memory

/-- Create a pool in memory that was allocated for it. -/
def rtMpCreate (memory : Memory) (start blockCount blockSize : BitVec 32) : PoolMem :=
  let blockSize := rtAlign blockSize
  link ⟨start, (blockSize + 4#32) * blockCount, blockSize, blockCount⟩ memory

def rtMpAlloc (mp : PoolMem) (ctrl : BitVec 32) : Option PoolMem :=
  if mp.blockFreeCount = 0#32 then some mp
  else do
    rtAssert (mp.blockList ≠ 0#32)
    return { mp with
      blockFreeCount := mp.blockFreeCount - 1#32
      blockList := mp.memory.load32 mp.blockList
      memory := mp.memory.store32 mp.blockList ctrl
      live := (mp.blockList + 4#32) :: mp.live }

/-- Release a block of the pool that the word in front of it leads to. -/
def rtMpFree (mp : PoolMem) (ctrl block : BitVec 32) : Option PoolMem := do
  let blockPtr := block - 4#32
  rtAssert (mp.memory.load32 blockPtr = ctrl)
  return { mp with
    blockFreeCount := mp.blockFreeCount + 1#32
    memory := mp.memory.store32 blockPtr mp.blockList
    blockList := blockPtr
    live := mp.live.erase block }

end PoolMem

/-- What can happen to a pool: the calls, and its users write into their blocks. -/
inductive PoolAction where
  | alloc
  | free (block : BitVec 32)
  | write (block offset : BitVec 32) (value : BitVec 8)

/-- One step of the users of a pool whose control block is at `ctrl`. -/
def poolStep (ctrl : BitVec 32) (mp : PoolMem) : PoolAction → Option PoolMem
  | .alloc => mp.rtMpAlloc ctrl
  | .free block => do
    rtAssert (block ∈ mp.live)
    mp.rtMpFree ctrl block
  | .write block offset value => do
    rtAssert (block ∈ mp.live ∧ offset < mp.blockSize)
    return { mp with memory := mp.memory.store8 (block + offset) value }

end Honeycomb
