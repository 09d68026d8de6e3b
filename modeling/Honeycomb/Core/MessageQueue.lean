import Honeycomb.Core.Ipc
import Honeycomb.Lib.Deque

/-!
# Message Queues

Queues of messages in a pool of blocks, and the system of threads and interrupts
that send and receive.

A block is on the free list, in the queue, or held by a send or a receive that is
in progress. A send takes a block off the free list, fills it, and links it. A
receive takes a block off the queue, copies its contents, and frees it. Each of
these is a step of its own, since interrupts are enabled in between.

A send does not touch the thread that makes it, and neither does a receive once
it has its block. So they are named by numbers here, and may come from a thread
or an interrupt. Only a receive that waits is the receive of a thread.

The ghost fields are an abstract queue for each message queue, which messages
join when they are linked and leave when they are taken off, and the receives
that are over with what they got.
-/

namespace Honeycomb

open Function

/-- A message queue. Blocks are named by their position in the pool, `next` is
    their link and `data` the bytes behind it. -/
structure MessageQueue where
  next : Nat → Option Nat
  data : Nat → Nat → BitVec 8
  msgSize : BitVec 16
  maxMsgs : BitVec 16
  entry : BitVec 16
  head : Option Nat
  tail : Option Nat
  free : Option Nat
  flag : IpcFlag

/-- The size of the link in front of a message. -/
def mqHeaderSize : BitVec 32 := 4#32

variable (mq : MessageQueue)

def mqPutFree (b : Nat) : MessageQueue :=
  { mq with next := update mq.next b mq.free, free := some b }

/-- Initialize a message queue. The pool holds as many blocks as fit, as far as
    the 16 bits of `max_msgs` count them. -/
def rtMqInit (data : Nat → Nat → BitVec 8) (msgSize poolSize : BitVec 32) (flag : IpcFlag) :
    MessageQueue :=
  let size := (rtAlign msgSize).setWidth 16
  let count := (poolSize / (size.setWidth 32 + mqHeaderSize)).setWidth 16
  let mq : MessageQueue :=
    { next := fun _ => none
      data := data
      msgSize := size
      maxMsgs := count
      entry := 0#16
      head := none
      tail := none
      free := none
      flag := flag }
  (List.range count.toNat).foldl mqPutFree mq

inductive MqAlloc where
  | failed (status : RtErr)
  | got (block : Nat)
  deriving DecidableEq, Repr

/-- A send, or an urgent one, up to where it has a block. -/
def rtMqSend (buffer : List (BitVec 8)) : Option (MessageQueue × MqAlloc) := do
  rtAssert (buffer ≠ [])
  if buffer.length > mq.msgSize.toNat then
    return (mq, .failed .error)
  else
    match mq.free with
    | none => return (mq, .failed .efull)
    | some b => return ({ mq with free := mq.next b }, .got b)

/-- The bytes of a block after a buffer has been copied into it. -/
def copyIn (data : Nat → BitVec 8) (buffer : List (BitVec 8)) : Nat → BitVec 8 :=
  fun i => (buffer[i]?).getD (data i)

/-- Fill a block. Only a send that is not urgent writes the link. -/
def mqFill (b : Nat) (buffer : List (BitVec 8)) (urgent : Bool) :
    MessageQueue :=
  let mq := if urgent = true then mq else { mq with next := update mq.next b none }
  { mq with data := update mq.data b (copyIn (mq.data b) buffer) }

/-- Link a block to the end of the queue. -/
def mqLinkTail (b : Nat) : MessageQueue :=
  let mq := match mq.tail with
    | some l => { mq with next := update mq.next l (some b) }
    | none => mq
  { mq with
    tail := some b
    head := match mq.head with
      | none => some b
      | some h => some h
    entry := mq.entry + 1#16 }

/-- Link a block to the beginning of the queue. -/
def mqLinkHead (b : Nat) : MessageQueue :=
  { mq with
    next := update mq.next b mq.head
    head := some b
    tail := match mq.tail with
      | none => some b
      | some l => some l
    entry := mq.entry + 1#16 }

def mqLink (b : Nat) (urgent : Bool) : MessageQueue :=
  if urgent = true then mqLinkHead mq b else mqLinkTail mq b

/-- Take the first block off the queue. There has to be one, since the code reads its link. -/
def mqUnlink : Option (MessageQueue × Nat) :=
  match mq.head with
  | none => none
  | some b =>
    some ({ mq with
      head := mq.next b
      tail := if mq.tail = some b then none else mq.tail }, b)

def mqCopy (b size : Nat) : List (BitVec 8) :=
  (List.range (if size > mq.msgSize.toNat then mq.msgSize.toNat else size)).map (mq.data b)

/-- What a receive leaves at its next stop: the kernel, the queue, and either its status, or the
    block it has taken, or the variables `timeout` and `tick_delta` with which it waits. -/
inductive MqRecvResult where
  | done (k : Kernel Queues) (status : RtErr)
  | waits (k : Kernel Queues) (timeout tickDelta : BitVec 32)
  | takes (mq : MessageQueue) (block : Nat)

variable (prioMax : Nat)

variable (k : Kernel Queues)

/-- The loop of a receive, from the check of its condition on. -/
def mqRecvLoop (mq : MessageQueue) (list : Head) (t : Tid)
    (timeout tickDelta tick : BitVec 32) : Option MqRecvResult :=
  if mq.entry = 0#16 then
    let k := k.setThread t { k.thread t with error := .eok }
    if timeout = 0#32 then
      some (.done (k.setThread t { k.thread t with error := .etimeout }) .etimeout)
    else do
      let k ← waitIn prioMax k list t mq.flag timeout
      return .waits k timeout (startTick timeout tickDelta tick)
  else do
    let (mq, b) ← mqUnlink mq
    return .takes { mq with entry := mq.entry - 1#16 } b

/-- Receive a message, up to where it has a block or waits. -/
def rtMqRecv (mq : MessageQueue) (list : Head) (t : Tid) (size : Nat)
    (timeout tick : BitVec 32) : Option MqRecvResult := do
  rtAssert (size ≠ 0)
  if mq.entry = 0#16 ∧ timeout = 0#32 then
    return .done k .etimeout
  else
    mqRecvLoop prioMax k mq list t timeout 0#32 tick

/-- A receive that has waited goes on. It may have to wait again. -/
def rtMqRecvReturn (mq : MessageQueue) (list : Head) (t : Tid)
    (timeout tickDelta tick : BitVec 32) : Option MqRecvResult :=
  if (k.thread t).error ≠ .eok then
    some (.done k (k.thread t).error)
  else
    mqRecvLoop prioMax k mq list t (remaining timeout tickDelta tick) tickDelta tick

/-- The loop of a reset over the queue. Every round takes one block, so the number of blocks bounds
    the rounds; a queue that went on forever would hang the code. -/
def mqDrain : Nat → MessageQueue → Option MessageQueue
  | fuel, mq =>
    match mq.head with
    | none => some mq
    | some _ =>
      match fuel with
      | 0 => none
      | fuel + 1 => do
        let (mq, b) ← mqUnlink mq
        mqDrain fuel (mqPutFree mq b)

/-- Reset a message queue: wake everybody with an error, and drop the messages. -/
def rtMqReset (mq : MessageQueue) (list : Head) :
    Option (Kernel Queues × MessageQueue) := do
  let k ← rtIpcListResumeAll prioMax (k.lists list).length k list
  let mq ← mqDrain mq.maxMsgs.toNat mq
  let mq := { mq with entry := 0#16 }
  let k ← rtSchedule prioMax k
  return (k, mq)

/-- A receive that waits, or has been woken and not run yet. -/
structure MqCall where
  queue : Nat
  size : Nat
  timeout : BitVec 32
  tickDelta : BitVec 32
  deriving DecidableEq, Repr

/-- How far a send or a receive that holds a block has come. `sent` is what the
    sender of the received message sent. -/
inductive MqPhase where
  | filling (buffer : List (BitVec 8)) (urgent : Bool)
  | filled (buffer : List (BitVec 8)) (urgent : Bool)
  | taken (size : Nat) (sent : List (BitVec 8))
  | copied (size : Nat) (sent recved : List (BitVec 8))
  deriving DecidableEq, Repr

structure MqHeld where
  queue : Nat
  block : Nat
  phase : MqPhase
  deriving DecidableEq, Repr

/-- A receive that has succeeded: the size of its buffer, what was sent and what it got. -/
structure MqReturn where
  size : Nat
  sent : List (BitVec 8)
  recved : List (BitVec 8)
  deriving DecidableEq, Repr

/-- The threads, the queues, the clock, the receives that wait, the sends and
    receives that hold a block, and the records. -/
structure MqSys where
  k : Kernel Queues
  queue : Nat → MessageQueue
  tick : BitVec 32
  call : Tid → Option MqCall
  held : Nat → Option MqHeld
  deque : Nat → Deque (List (BitVec 8))
  returns : List MqReturn

/-- What can happen. A send or a receive that gets a block is given an unused number `a`. -/
inductive MqAction where
  | spawn (t : Tid) (isStatic : Bool) (priority : Nat)
  | tick
  | send (a n : Nat) (buffer : List (BitVec 8)) (urgent : Bool)
  | fill (a : Nat)
  | link (a : Nat)
  | recv (t : Tid) (a n size : Nat) (timeout : BitVec 32)
  | recvReturn (t : Tid) (a : Nat)
  | copy (a : Nat)
  | free (a : Nat)
  | reset (n : Nat)
  | timeout (t : Tid)
  deriving DecidableEq, Repr

namespace MqSys

def list (n : Nat) : Head := .suspend (.messageQueue n)

/-- A thread makes a new call when it is ready and its last call is over. A call
    that does not wait may also come from an interrupt. -/
def MayCall (s : MqSys) (t : Tid) (timeout : BitVec 32) : Prop :=
  timeout = 0#32 ∨ s.k.state t = .ready ∧ s.call t = none

instance (s : MqSys) (t : Tid) (timeout : BitVec 32) : Decidable (s.MayCall t timeout) :=
  inferInstanceAs (Decidable (timeout = 0#32 ∨ s.k.state t = .ready ∧ s.call t = none))

/-- What the first message of the abstract queue is. -/
def firstSent (s : MqSys) (n : Nat) : List (BitVec 8) :=
  match (s.deque n).queued with
  | [] => []
  | m :: _ => m.value

/-- Enter what a receive did up to its next stop. -/
def finishRecv (s : MqSys) (t : Tid) (a n size : Nat) : MqRecvResult → MqSys
  | .done k _ => { s with k := k }
  | .waits k timeout tickDelta =>
    { s with
      k := k
      call := update s.call t (some ⟨n, size, timeout, tickDelta⟩) }
  | .takes mq b =>
    { s with
      queue := update s.queue n mq
      held := update s.held a (some ⟨n, b, .taken size (s.firstSent n)⟩)
      deque := update s.deque n (s.deque n).leave }

end MqSys

open MqSys

def mqStep (s : MqSys) : MqAction → Option MqSys
  | .spawn t isStatic priority => do
    let k ← spawn prioMax s.k t isStatic priority
    return { s with k := k }
  | .tick => some { s with tick := s.tick + 1#32 }
  | .send a n buffer urgent => do
    rtAssert (s.held a = none)
    let (mq, r) ← rtMqSend (s.queue n) buffer
    let s := { s with queue := update s.queue n mq }
    match r with
    | .failed _ => return s
    | .got b => return { s with
        held := update s.held a (some ⟨n, b, .filling buffer urgent⟩) }
  | .fill a =>
    match s.held a with
    | some ⟨n, b, .filling buffer urgent⟩ =>
      some { s with
        queue := update s.queue n (mqFill (s.queue n) b buffer urgent)
        held := update s.held a (some ⟨n, b, .filled buffer urgent⟩) }
    | _ => none
  | .link a =>
    match s.held a with
    | some ⟨n, b, .filled buffer urgent⟩ => do
      let k ← resumeWaiting prioMax s.k (list n)
      return { s with
        k := k
        queue := update s.queue n (mqLink (s.queue n) b urgent)
        held := update s.held a none
        deque := update s.deque n ((s.deque n).join buffer urgent) }
    | _ => none
  | .recv t a n size timeout => do
    rtAssert (s.held a = none)
    rtAssert (s.MayCall t timeout)
    let r ← rtMqRecv prioMax s.k (s.queue n) (list n) t size timeout s.tick
    return s.finishRecv t a n size r
  | .recvReturn t a => do
    rtAssert (s.held a = none)
    rtAssert (s.k.state t = .ready)
    let c ← s.call t
    let r ← rtMqRecvReturn prioMax s.k (s.queue c.queue) (list c.queue) t c.timeout c.tickDelta
      s.tick
    return { s with call := update s.call t none }.finishRecv t a c.queue c.size r
  | .copy a =>
    match s.held a with
    | some ⟨n, b, .taken size sent⟩ =>
      some { s with
        held := update s.held a
          (some ⟨n, b, .copied size sent (mqCopy (s.queue n) b size)⟩) }
    | _ => none
  | .free a =>
    match s.held a with
    | some ⟨n, b, .copied size sent recved⟩ =>
      some { s with
        queue := update s.queue n (mqPutFree (s.queue n) b)
        held := update s.held a none
        returns := ⟨size, sent, recved⟩ :: s.returns }
    | _ => none
  | .reset n => do
    let (k, mq) ← rtMqReset prioMax s.k (s.queue n) (list n)
    return { s with
      k := k
      queue := update s.queue n mq
      deque := update s.deque n (s.deque n).drop }
  | .timeout t => do
    let k ← rtTimerExpire prioMax s.k t
    return { s with k := k }

def mqSysInit (data : Nat → Nat → Nat → BitVec 8) (msgSize poolSize : Nat → BitVec 32)
    (flag : Nat → IpcFlag) (tick : BitVec 32) : MqSys :=
  { k := rtSystemSchedulerInit prioMax queuesInit
    queue := fun n => rtMqInit (data n) (msgSize n) (poolSize n) (flag n)
    tick := tick
    call := fun _ => none
    held := fun _ => none
    deque := fun _ => Deque.empty
    returns := [] }

end Honeycomb
