import Honeycomb.Core.MemPool

/-!
# Priority Queues

A queue has a list of items for each of 32 priorities, and a word with a bit for each priority
that has an item. An item is a block of a memory pool: a link to the next item of its priority,
and the bytes of the item behind it. A block is known by its number in the pool.

A push takes a block from the pool, and waits for one if it may. It copies the bytes to the block,
and then links the block and resumes a thread that waits for an item, in one critical section. A
pop takes the first item of the first priority that has one. If there is none it waits, and when it
is resumed it looks again, for there may be none again. It copies the bytes out after it has left
the critical section, and then gives the block back to the pool. Each critical section and each
copy is a step of its own, for any number of threads. A push waits for a block without a limit, or
it does not wait.

The history has the items that were linked, in that order; the numbers of the items that were taken
off, in that order; and for each item whose bytes were copied out, its number with the bytes. The
number of an item says how many were linked before it. It also has the threads that a push has
resumed and that have not run since.
-/

namespace Honeycomb

open Function

def prioQueueMax : Nat := 32

/-- `struct rt_prio_queue`. The links and the bytes of the items are with the queue. -/
structure PrioQueue where
  bitmap : BitVec 32
  head : Nat → Option Nat
  tail : Nat → Option Nat
  next : Nat → Option Nat
  data : Nat → List (BitVec 8)
  suspendedPopList : List Nat
  itemSz : Nat
  pool : MemPool
  suspendThread : List Nat

def doPush (que : PrioQueue) (prio item : Nat) : Option PrioQueue :=
  match que.head prio with
  | none =>
    some { que with head := update que.head prio (some item)
                    bitmap := que.bitmap ||| 1#32 <<< prio
                    tail := update que.tail prio (some item) }
  | some _ => do
    let last ← que.tail prio
    some { que with next := update que.next last (some item)
                    tail := update que.tail prio (some item) }

def doPop (que : PrioQueue) : Option (PrioQueue × Option Nat) :=
  let ffs := rtFfs que.bitmap
  if ffs = 0 then some (que, none)
  else do
    let prio := ffs - 1
    let item ← que.head prio
    let head := update que.head prio (que.next item)
    let bitmap := if que.next item = none then que.bitmap &&& ~~~(1#32 <<< prio) else que.bitmap
    some ({ que with head := head, bitmap := bitmap }, some item)

/-- Where a thread is: in no call, with what the last one has returned. In a push: waiting for a
    block, resumed, with a block that it has not written yet, with a block that it has written. In
    a pop: waiting for an item, resumed by a push, resumed by its timer, with an item that it has
    not copied yet, of a given number, with one that it has copied. -/
inductive PqPhase where
  | idle (result : RtErr)
  | memWait (prio : Nat) (data : List (BitVec 8))
  | memReady (prio : Nat) (data : List (BitVec 8))
  | filling (prio : Nat) (data : List (BitVec 8)) (item : Nat)
  | pushing (prio : Nat) (data : List (BitVec 8)) (item : Nat)
  | popWait (timeout : Int)
  | popReady (timeout : Int)
  | popExpired
  | taken (item : Nat) (number : Nat)
  | copied (item : Nat)
  deriving DecidableEq, Repr

structure PqItem where
  prio : Nat
  data : List (BitVec 8)
  deriving DecidableEq, Repr

structure PqSys where
  que : PrioQueue
  phase : Nat → PqPhase
  number : Nat → Nat
  pushed : List PqItem
  dequeued : List Nat
  popped : List (Nat × List (BitVec 8))
  resumed : List Nat

variable (s : PqSys)

def setPhase (t : Nat) (p : PqPhase) : PqSys :=
  { s with phase := update s.phase t p }

/-- `rt_mp_alloc`, for a push that waits without a limit or not at all. -/
def pqAlloc (t prio : Nat) (data : List (BitVec 8)) (forever : Bool) : Option PqSys :=
  if s.que.pool.blockFreeCount = 0 then
    if forever then
      let pool := { s.que.pool with suspendThreadCount := s.que.pool.suspendThreadCount + 1 }
      let que := { s.que with pool := pool, suspendThread := t :: s.que.suspendThread }
      some (setPhase { s with que := que } t (.memWait prio data))
    else some (setPhase s t (.idle .enomem))
  else do
    let (pool, item) ← s.que.pool.take 0
    some (setPhase { s with que := { s.que with pool := pool } } t (.filling prio data item))

/-- The bytes are copied to the item, and its link is cleared. -/
def pqFill (t prio : Nat) (data : List (BitVec 8)) (item : Nat) : PqSys :=
  let que := { s.que with data := update s.que.data item (data.take s.que.itemSz)
                          next := update s.que.next item none }
  setPhase { s with que := que } t (.pushing prio data item)

/-- The critical section of a push: the item is linked, and the first thread that waits for an item
    is resumed. -/
def pqLink (t prio : Nat) (data : List (BitVec 8)) (item : Nat) : Option PqSys := do
  let que ← doPush s.que prio item
  let s := { s with que := que, number := update s.number item s.pushed.length
                    pushed := s.pushed ++ [⟨prio, data⟩] }
  let s := setPhase s t (.idle .eok)
  match s.que.suspendedPopList with
  | [] => some s
  | u :: suspended =>
    match s.phase u with
    | .popWait timeout =>
      some (setPhase { s with que := { s.que with suspendedPopList := suspended }
                              resumed := s.resumed ++ [u] } u (.popReady timeout))
    | _ => none

def pqPop (t : Nat) (timeout : Int) : Option PqSys := do
  let (que, item) ← doPop s.que
  match item with
  | some item =>
    some (setPhase { s with que := que, dequeued := s.dequeued ++ [s.number item] } t
      (.taken item (s.number item)))
  | none =>
    if timeout = 0 then some (setPhase { s with que := que } t (.idle .etimeout))
    else
      let que := { que with suspendedPopList := que.suspendedPopList ++ [t] }
      some (setPhase { s with que := que } t (.popWait timeout))

/-- `rt_mp_free`: the item is put back, and the first thread that waits for a block is resumed. -/
def pqFree (t item : Nat) : Option PqSys := do
  let pool := s.que.pool
  rtAssert (pool.word item = .pool 0)
  let pool := { pool with
    blockFreeCount := pool.blockFreeCount + 1
    word := update pool.word item (.next pool.blockList)
    blockList := some item }
  let s := setPhase { s with que := { s.que with pool := pool } } t (.idle .eok)
  if 0 < pool.suspendThreadCount then
    match s.que.suspendThread with
    | [] => none
    | u :: suspended =>
      match s.phase u with
      | .memWait prio data =>
        let pool := { pool with suspendThreadCount := pool.suspendThreadCount - 1 }
        some (setPhase { s with que := { s.que with pool := pool, suspendThread := suspended } }
          u (.memReady prio data))
      | _ => none
  else some s

/-- What can happen. A thread pushes, and goes on with its push; a thread pops, and goes on with its
    pop; the timer of a thread that waits for an item expires. -/
inductive PqAction where
  | push (t : Nat) (prio : BitVec 8) (data : List (BitVec 8)) (forever : Bool)
  | pop (t : Nat) (timeout : Int)
  | expire (t : Nat)
  | run (t : Nat)
  deriving DecidableEq, Repr

def pqRun (t : Nat) : Option PqSys :=
  match s.phase t with
  | .memReady prio data => pqAlloc s t prio data true
  | .filling prio data item => some (pqFill s t prio data item)
  | .pushing prio data item => pqLink s t prio data item
  | .popReady timeout => pqPop { s with resumed := s.resumed.erase t } t timeout
  | .popExpired => some (setPhase s t (.idle .etimeout))
  | .taken item number =>
    some (setPhase { s with popped := s.popped ++ [(number, (s.que.data item).take s.que.itemSz)] }
      t (.copied item))
  | .copied item => pqFree s t item
  | .idle _ | .memWait _ _ | .popWait _ => none

def pqStep : PqAction → Option PqSys
  | .push t prio data forever =>
    match s.phase t with
    | .idle _ =>
      if prioQueueMax ≤ prio.toNat then some (setPhase s t (.idle .error))
      else pqAlloc s t prio.toNat data forever
    | _ => none
  | .pop t timeout =>
    match s.phase t with
    | .idle _ => pqPop s t timeout
    | _ => none
  | .expire t =>
    match s.phase t with
    | .popWait timeout => do
      rtAssert (0 < timeout)
      let que := { s.que with suspendedPopList := s.que.suspendedPopList.erase t }
      some (setPhase { s with que := que } t .popExpired)
    | _ => none
  | .run t => pqRun s t

/-- `rt_prio_queue_init`. The memory of the pool has anything. -/
def rtPrioQueueInit (bufsz itemsz : BitVec 32) (next : Nat → Option Nat)
    (data : Nat → List (BitVec 8)) : Option PrioQueue := do
  let pool ← rtMpInit bufsz (4#32 + itemsz)
  some { bitmap := 0#32, head := fun _ => none, tail := fun _ => none, next := next, data := data
         suspendedPopList := [], itemSz := itemsz.toNat, pool := pool, suspendThread := [] }

def pqInit (que : PrioQueue) : PqSys :=
  { que := que, phase := fun _ => .idle .eok, number := fun _ => 0, pushed := [], dequeued := []
    popped := [], resumed := [] }

end Honeycomb
