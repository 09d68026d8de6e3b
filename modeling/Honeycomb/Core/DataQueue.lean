import Honeycomb.Core.Kernel

/-!
# Data Queues of the Device Drivers

A data queue passes pointers to blocks of data from threads that push to threads that pop. The
items are in an array, and two counters of 16 bits count the items that were pushed and popped.
They run freely: a counter is reduced modulo the size where it is used as an index, and the
number of items is the difference of the counters. The difference is computed after both have
been promoted to `int`, so it is negative when only the first of them has come round.

A thread that finds the queue full or empty waits on one of two lists, unless its timeout is 0.
It is resumed by a call of the other kind, or its time runs out, and when it runs it starts the
loop of its call again. A resumed thread runs at any time, and a wait with a timeout ends at any
time. What a call does with interrupts disabled is one step. A call returns with a result, and
with the event it reports to the owner of the queue.

The history of the items is kept: those whose push has returned `RT_EOK`, and those that were
popped.
-/

namespace Honeycomb

open Function

structure DataItem where
  dataPtr : Nat
  dataSize : Nat
  deriving DecidableEq, Repr, Inhabited

/-- The counters are those of `rt_uint16_t`. The lists have the threads that wait. -/
structure DataQueue where
  size : Nat
  lwm : Nat
  getIndex : Nat
  putIndex : Nat
  queue : Nat → DataItem
  suspendedPushList : List Nat
  suspendedPopList : List Nat

inductive DqResult where
  | eok
  | etimeout
  deriving DecidableEq, Repr

inductive DqEvent where
  | pop
  | push
  | lwm
  deriving DecidableEq, Repr

/-- Where a thread is: in no call, with what the last one returned and reported, or in a call
    and waiting, or resumed with an error number. -/
inductive DqCall where
  | done (result : DqResult) (event : Option DqEvent)
  | push (item : DataItem) (timeout : Int) (error : Option DqResult)
  | pop (timeout : Int) (error : Option DqResult)
  deriving DecidableEq, Repr

structure DqSys where
  q : DataQueue
  call : Nat → DqCall
  pushed : List DataItem
  popped : List DataItem

/-- Set up a queue. What is in the array is what was there. -/
def rtDataQueueInit (size lwm : Nat) (queue : Nat → DataItem) : DataQueue :=
  { size := size, lwm := lwm, getIndex := 0, putIndex := 0, queue := queue,
    suspendedPushList := [], suspendedPopList := [] }

/-- What a counter keeps of a number. -/
def dqIndex (n : Nat) : Nat :=
  n % 2 ^ 16

variable (q : DataQueue)

def dqFull : Prop :=
  (q.putIndex : Int) - (q.getIndex : Int) = (q.size : Int)

instance decidableDqFull : Decidable (dqFull q) :=
  inferInstanceAs (Decidable (_ = _))

def dqEmpty : Prop :=
  q.getIndex = q.putIndex

instance decidableDqEmpty : Decidable (dqEmpty q) :=
  inferInstanceAs (Decidable (_ = _))

/-- A thread that waits is resumed with an error number. -/
def DqCall.resume (error : DqResult) : DqCall → DqCall
  | .done result event => .done result event
  | .push item timeout _ => .push item timeout (some error)
  | .pop timeout _ => .pop timeout (some error)

/-- The loop of `rt_data_queue_push` from its test on, up to where interrupts are enabled. -/
def rtDataQueuePush (s : DqSys) (t : Nat) (item : DataItem) (timeout : Int) : DqSys :=
  let q := s.q
  if dqFull q then
    if timeout = 0 then { s with call := update s.call t (.done .etimeout none) }
    else
      -- suspend thread on the push list
      { s with q := { q with suspendedPushList := q.suspendedPushList ++ [t] }
               call := update s.call t (.push item timeout none) }
  else
    let q := { q with queue := update q.queue (q.putIndex % q.size) item
                      putIndex := dqIndex (q.putIndex + 1) }
    let s := { s with pushed := s.pushed ++ [item] }
    match q.suspendedPopList with
    | [] => { s with q := q, call := update s.call t (.done .eok (some .push)) }
    | u :: us =>
      -- resume the first thread, and report nothing
      let call := update s.call u ((s.call u).resume .eok)
      { s with q := { q with suspendedPopList := us }
               call := update call t (.done .eok none) }

/-- The loop of `rt_data_queue_pop` from its test on, up to where interrupts are enabled. -/
def rtDataQueuePop (s : DqSys) (t : Nat) (timeout : Int) : DqSys :=
  let q := s.q
  if dqEmpty q then
    if timeout = 0 then { s with call := update s.call t (.done .etimeout none) }
    else
      -- suspend thread on the pop list
      { s with q := { q with suspendedPopList := q.suspendedPopList ++ [t] }
               call := update s.call t (.pop timeout none) }
  else
    let item := q.queue (q.getIndex % q.size)
    let q := { q with getIndex := dqIndex (q.getIndex + 1) }
    let s := { s with popped := s.popped ++ [item] }
    if (q.putIndex : Int) - (q.getIndex : Int) ≤ (q.lwm : Int) then
      match q.suspendedPushList with
      | [] => { s with q := q, call := update s.call t (.done .eok (some .lwm)) }
      | u :: us =>
        let call := update s.call u ((s.call u).resume .eok)
        { s with q := { q with suspendedPushList := us }
                 call := update call t (.done .eok (some .lwm)) }
    else { s with q := q, call := update s.call t (.done .eok (some .pop)) }

/-- `rt_data_queue_peak`, which returns no item if the queue is empty. -/
def rtDataQueuePeak : Option DataItem :=
  if dqEmpty q then none else some (q.queue (q.getIndex % q.size))

/-- A thread makes a call, a thread that was resumed runs, or the time of a wait runs out. -/
inductive DqAction where
  | push (t : Nat) (item : DataItem) (timeout : Int)
  | pop (t : Nat) (timeout : Int)
  | run (t : Nat)
  | expire (t : Nat)
  deriving DecidableEq, Repr

def dqStep (s : DqSys) : DqAction → Option DqSys
  | .push t item timeout =>
    match s.call t with
    | .done _ _ => some (rtDataQueuePush s t item timeout)
    | _ => none
  | .pop t timeout =>
    match s.call t with
    | .done _ _ => some (rtDataQueuePop s t timeout)
    | _ => none
  | .run t =>
    match s.call t with
    | .push item timeout (some .eok) => some (rtDataQueuePush s t item timeout)
    | .pop timeout (some .eok) => some (rtDataQueuePop s t timeout)
    | .push _ _ (some .etimeout) | .pop _ (some .etimeout) =>
      some { s with call := update s.call t (.done .etimeout none) }
    | _ => none
  | .expire t =>
    match s.call t with
    | .push _ timeout none | .pop timeout none =>
      if 0 < timeout then
        let q := { s.q with suspendedPushList := s.q.suspendedPushList.erase t
                            suspendedPopList := s.q.suspendedPopList.erase t }
        some { s with q := q
                      call := update s.call t ((s.call t).resume .etimeout) }
      else none
    | _ => none

def dqInit (size lwm : Nat) (queue : Nat → DataItem) : DqSys :=
  { q := rtDataQueueInit size lwm queue, call := fun _ => .done .eok none, pushed := [],
    popped := [] }

end Honeycomb
