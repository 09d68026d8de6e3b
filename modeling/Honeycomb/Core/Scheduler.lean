import Honeycomb.Core.Kernel

/-!
# The Scheduler

The ready table and the choice of the next thread. Threads that can run are on
one list per priority, and a bitmap over the priorities says which of those
lists are non-empty, so that the most urgent one is found without a search.

Up to 32 priorities the bitmap is one word. Above that it has two levels: a
byte per eight priorities in `readyTable`, and a group word with one bit per
non-zero byte. Which layout is compiled depends on the number of priorities,
which is the parameter `prioMax` throughout.

A thread caches the masks of its own priority, and the code that links and
unlinks it uses the cached masks, not the priority. The two are kept in step by
`priorityAttribute`, called wherever the priority changes.
-/

namespace Honeycomb

/-- The index of the lowest set bit of every byte, sixteen to a row. -/
def lowestBitBitmap : List Nat :=
  [0, 0, 1, 0, 2, 0, 1, 0, 3, 0, 1, 0, 2, 0, 1, 0,
   4, 0, 1, 0, 2, 0, 1, 0, 3, 0, 1, 0, 2, 0, 1, 0,
   5, 0, 1, 0, 2, 0, 1, 0, 3, 0, 1, 0, 2, 0, 1, 0,
   4, 0, 1, 0, 2, 0, 1, 0, 3, 0, 1, 0, 2, 0, 1, 0,
   6, 0, 1, 0, 2, 0, 1, 0, 3, 0, 1, 0, 2, 0, 1, 0,
   4, 0, 1, 0, 2, 0, 1, 0, 3, 0, 1, 0, 2, 0, 1, 0,
   5, 0, 1, 0, 2, 0, 1, 0, 3, 0, 1, 0, 2, 0, 1, 0,
   4, 0, 1, 0, 2, 0, 1, 0, 3, 0, 1, 0, 2, 0, 1, 0,
   7, 0, 1, 0, 2, 0, 1, 0, 3, 0, 1, 0, 2, 0, 1, 0,
   4, 0, 1, 0, 2, 0, 1, 0, 3, 0, 1, 0, 2, 0, 1, 0,
   5, 0, 1, 0, 2, 0, 1, 0, 3, 0, 1, 0, 2, 0, 1, 0,
   4, 0, 1, 0, 2, 0, 1, 0, 3, 0, 1, 0, 2, 0, 1, 0,
   6, 0, 1, 0, 2, 0, 1, 0, 3, 0, 1, 0, 2, 0, 1, 0,
   4, 0, 1, 0, 2, 0, 1, 0, 3, 0, 1, 0, 2, 0, 1, 0,
   5, 0, 1, 0, 2, 0, 1, 0, 3, 0, 1, 0, 2, 0, 1, 0,
   4, 0, 1, 0, 2, 0, 1, 0, 3, 0, 1, 0, 2, 0, 1, 0]

/-- The table entry for a byte that has been masked and shifted down. -/
def lowestBit (b : BitVec 32) : Nat :=
  lowestBitBitmap.getD b.toNat 0

/-- Find the first bit set, counting from one at the least significant bit,
    and zero if there is none. -/
def rtFfs (value : BitVec 32) : Nat :=
  if value = 0#32 then 0
  else if value &&& 0xff#32 ≠ 0#32 then lowestBit (value &&& 0xff#32) + 1
  else if value &&& 0xff00#32 ≠ 0#32 then lowestBit ((value &&& 0xff00#32) >>> 8) + 9
  else if value &&& 0xff0000#32 ≠ 0#32 then lowestBit ((value &&& 0xff0000#32) >>> 16) + 17
  else lowestBit ((value &&& 0xff000000#32) >>> 24) + 25

variable (prioMax : Nat)

/-- Recalculate the priority masks of a thread from its current priority. -/
def priorityAttribute (th : Thread) : Thread :=
  if 32 < prioMax then
    { th with
      number := th.currentPriority >>> 3
      numberMask := 1#32 <<< (th.currentPriority >>> 3)
      highMask := 1#8 <<< (th.currentPriority &&& 0x07) }
  else
    { th with numberMask := 1#32 <<< th.currentPriority }

variable {Q : Type}

/-- The scheduler before any thread has been set up, over freshly initialized list heads. -/
def rtSystemSchedulerInit (lists : Q) : Kernel Q :=
  { thread := fun _ => Thread.blank
    lists := lists
    readyPriorityGroup := 0
    readyTable := fun _ => 0
    currentThread := none
    currentPriority := prioMax - 1
    lockNest := 0 }

/-- The memory of links in which every list is empty and every node is linked to itself. -/
def linksInit : Links (Head ⊕ Tid) :=
  { next := id, prev := id }

def queuesInit : Queues := fun _ => []

variable [ThreadLists Q]

open ThreadLists

variable (k : Kernel Q)

def rtScheduleInsertThread (t : Tid) : Kernel Q :=
  let k := k.setThread t ((k.thread t).setState .ready)
  let th := k.thread t
  let k := { k with lists := insertBefore k.lists (.ready th.currentPriority) t }
  let byte := k.readyTable th.number ||| th.highMask
  let k := if 32 < prioMax then
      { k with readyTable := Function.update k.readyTable th.number byte }
    else k
  { k with readyPriorityGroup := k.readyPriorityGroup ||| th.numberMask }

/-- Remove a thread from the list it is on, and clear the bits of its priority
    if that left the ready list of the priority empty. -/
def rtScheduleRemoveThread (t : Tid) : Kernel Q :=
  let th := k.thread t
  let k := { k with lists := remove k.lists t }
  if isempty k.lists (.ready th.currentPriority) then
    if 32 < prioMax then
      let byte := k.readyTable th.number &&& ~~~th.highMask
      let k := { k with readyTable := Function.update k.readyTable th.number byte }
      if k.readyTable th.number = 0 then
        { k with readyPriorityGroup := k.readyPriorityGroup &&& ~~~th.numberMask }
      else k
    else
      { k with readyPriorityGroup := k.readyPriorityGroup &&& ~~~th.numberMask }
  else k

/-- The priority the bitmap points at. With no bit set, the subtraction wraps
    around to an index outside of the table. -/
def highestReadyPriority : Nat :=
  if prioMax ≤ 32 then
    (rtFfs k.readyPriorityGroup + (2 ^ 32 - 1)) % 2 ^ 32
  else
    let number := (rtFfs k.readyPriorityGroup + (2 ^ 32 - 1)) % 2 ^ 32
    ((number <<< 3) + rtFfs ((k.readyTable number).setWidth 32) + (2 ^ 32 - 1)) % 2 ^ 32

/-- Perform one schedule: switch to the first thread of the most urgent ready
    list, unless the scheduler is locked. There is no next state when no thread
    is ready, the table being read out of bounds then. -/
def rtSchedule : Option (Kernel Q) :=
  if k.lockNest = 0 then do
    let highest := highestReadyPriority prioMax k
    let toThread ← first k.lists (.ready highest)
    if some toThread ≠ k.currentThread then
      return { k with currentPriority := highest % 2 ^ 8, currentThread := some toThread }
    else
      return k
  else
    some k

/-- Start the scheduler: switch to the most urgent thread for the first time. -/
def rtSystemSchedulerStart : Option (Kernel Q) := do
  let toThread ← first k.lists (.ready (highestReadyPriority prioMax k))
  return { k with currentThread := some toThread }

def rtEnterCritical : Kernel Q :=
  { k with lockNest := k.lockNest + 1 }

/-- Unlock the scheduler, and schedule once the last lock is gone. -/
def rtExitCritical : Option (Kernel Q) :=
  let k := { k with lockNest := k.lockNest - 1 }
  if k.lockNest.toInt ≤ 0 then
    rtSchedule prioMax { k with lockNest := 0 }
  else
    some k

end Honeycomb
