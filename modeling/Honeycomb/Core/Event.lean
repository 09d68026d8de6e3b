import Honeycomb.Core.Ipc

/-!
# Events

Event sets, and the system of threads that send and receive them.

A send adds events and then scans the waiting threads in order, waking those
whose condition has come true. A thread that asked for its events to be cleared
takes them away from the threads scanned after it.

The system carries a second account of the same events, kept by polling alone.
When a send scans the waiting threads, the account runs the non-blocking receive
with each thread's own arguments, in the same order. `reference` is the event
set that leaves, and `polled` is what each thread would have received.
-/

namespace Honeycomb

open Function

/-- Receive when all of the events are there. -/
def eventFlagAnd : BitVec 8 := 0x01#8

/-- Receive when some of the events are there. -/
def eventFlagOr : BitVec 8 := 0x02#8

/-- Clear the events on receiving them. -/
def eventFlagClear : BitVec 8 := 0x04#8

/-- An event object. Its wait list is in the kernel. -/
structure Event where
  set : BitVec 32
  flag : IpcFlag
  deriving DecidableEq, Repr

def rtEventInit (flag : IpcFlag) : Event :=
  { set := 0#32, flag := flag }

variable (prioMax : Nat)

variable (k : Kernel Queues)

/-- The condition of a waiting thread has come true: clear its events if it
    asked for that, and resume it. -/
def eventResume (ev : Event) (t : Tid) : Option (Kernel Queues × Event) := do
  let th := k.thread t
  let ev := if th.eventInfo &&& eventFlagClear ≠ 0#8 then
      { ev with set := ev.set &&& ~~~th.eventSet }
    else ev
  let (k, _) ← rtThreadResume prioMax k t
  return (k, ev)

/-- The loop of a send over the waiting threads. The result says whether a
    thread has been resumed. -/
def eventScan : List Tid → Kernel Queues → Event → Bool → Option (Kernel Queues × Event × Bool)
  | [], k, ev, needSchedule => some (k, ev, needSchedule)
  | t :: ts, k, ev, needSchedule =>
    let th := k.thread t
    if th.eventInfo &&& eventFlagAnd ≠ 0#8 then
      if th.eventSet &&& ev.set = th.eventSet then do
        let (k, ev) ← eventResume prioMax k ev t
        eventScan ts k ev true
      else
        eventScan ts k ev needSchedule
    else if th.eventInfo &&& eventFlagOr ≠ 0#8 then
      if th.eventSet &&& ev.set ≠ 0#32 then do
        -- The thread is told which of its events came.
        let k := k.setThread t { th with eventSet := th.eventSet &&& ev.set }
        let (k, ev) ← eventResume prioMax k ev t
        eventScan ts k ev true
      else
        eventScan ts k ev needSchedule
    else
      eventScan ts k ev needSchedule

def scheduleIf (needSchedule : Bool) : Option (Kernel Queues) :=
  if needSchedule = true then rtSchedule prioMax k else some k

def rtEventSend (ev : Event) (list : Head) (set : BitVec 32) :
    Option (Kernel Queues × Event × RtErr) :=
  if set = 0#32 then
    some (k, ev, .error)
  else do
    let ev := { ev with set := ev.set ||| set }
    let (k, ev, needSchedule) ← eventScan prioMax (k.lists list) k ev false
    let k ← scheduleIf prioMax k needSchedule
    return (k, ev, .eok)

/-- The condition of a receive. -/
def eventSatisfied (e set : BitVec 32) (option : BitVec 8) : Bool :=
  if option &&& eventFlagAnd ≠ 0#8 then e &&& set = set
  else if option &&& eventFlagOr ≠ 0#8 then e &&& set ≠ 0#32
  else false

/-- Receive an event set: the part up to where the thread gives up the
    processor. The last component is what is stored through `recved`. -/
def rtEventRecv (ev : Event) (list : Head) (t : Tid) (set : BitVec 32)
    (option : BitVec 8) (timeout : BitVec 32) :
    Option (Kernel Queues × Event × Outcome × Option (BitVec 32)) :=
  if set = 0#32 then
    some (k, ev, .done .error, none)
  else do
    let k := k.setThread t { k.thread t with error := .eok }
    -- Either of the two flags should be set.
    rtAssert (option &&& eventFlagAnd ≠ 0#8 ∨ option &&& eventFlagOr ≠ 0#8)
    if eventSatisfied ev.set set option = true then
      let recved := ev.set &&& set
      let ev := if option &&& eventFlagClear ≠ 0#8 then { ev with set := ev.set &&& ~~~set }
        else ev
      return (k, ev, .done .eok, some recved)
    else if timeout = 0#32 then
      return (k.setThread t { k.thread t with error := .etimeout }, ev, .done .etimeout, none)
    else
      let k := k.setThread t { k.thread t with eventSet := set, eventInfo := option }
      let k ← rtIpcListSuspend prioMax k list t ev.flag
      let k ← startThreadTimer k t timeout
      let k ← rtSchedule prioMax k
      return (k, ev, .blocked, none)

/-- The rest of a receive that has waited. -/
def rtEventRecvReturn (t : Tid) : RtErr × Option (BitVec 32) :=
  if (k.thread t).error ≠ .eok then ((k.thread t).error, none)
  else ((k.thread t).error, some (k.thread t).eventSet)

/-- Reset an event object: wake all waiting threads with an error. -/
def rtEventReset (ev : Event) (list : Head) :
    Option (Kernel Queues × Event) := do
  let k ← rtIpcListResumeAll prioMax (k.lists list).length k list
  let k ← rtSchedule prioMax k
  return (k, { ev with set := 0#32 })

/-- A receive that waits, or has been woken and not run yet, with its
    arguments. `polled` is what polling would have received. -/
structure EventCall where
  event : Nat
  set : BitVec 32
  option : BitVec 8
  polled : Option (BitVec 32)
  deriving DecidableEq, Repr

structure EventReturn where
  thread : Tid
  status : RtErr
  recved : Option (BitVec 32)
  polled : Option (BitVec 32)
  deriving DecidableEq, Repr

/-- The threads, the events, and the polling account. -/
structure EventSys where
  k : Kernel Queues
  event : Nat → Event
  call : Tid → Option EventCall
  reference : Nat → BitVec 32
  returns : List EventReturn

/-- What can happen. A send or a reset may come from an interrupt, so they have
    no thread of their own. -/
inductive EventAction where
  | spawn (t : Tid) (isStatic : Bool) (priority : Nat)
  | send (n : Nat) (set : BitVec 32)
  | recv (t : Tid) (n : Nat) (set : BitVec 32) (option : BitVec 8) (timeout : BitVec 32)
  | recvReturn (t : Tid)
  | reset (n : Nat)
  | timeout (t : Tid)
  deriving DecidableEq, Repr

namespace EventSys

def list (n : Nat) : Head := .suspend (.event n)

/-- One turn of polling: the non-blocking receive on an event set, with the arguments of a waiting
    thread. The result is what is received, if anything, and the set that is left. -/
def pollTurn (k : Kernel Queues) (e : BitVec 32) (flag : IpcFlag) (t : Tid) (c : EventCall) :
    Option (BitVec 32) × BitVec 32 :=
  match rtEventRecv prioMax k ⟨e, flag⟩ (list c.event) t c.set c.option 0#32 with
  | some (_, ev, .done .eok, recved) => (recved, ev.set)
  | _ => (none, e)

/-- Polling by the waiting threads, one after another. -/
def pollTurns (k : Kernel Queues) (flag : IpcFlag) :
    List Tid → BitVec 32 → (Tid → Option EventCall) → BitVec 32 × (Tid → Option EventCall)
  | [], e, call => (e, call)
  | t :: ts, e, call =>
    match call t with
    | none => pollTurns k flag ts e call
    | some c =>
      let (recved, e) := pollTurn prioMax k e flag t c
      pollTurns k flag ts e
        (if recved.isSome then update call t (some { c with polled := recved }) else call)

/-- Enter what the first half of a receive did. A receive that does not wait is a poll itself. -/
def finishRecv (s : EventSys) (t : Tid) (n : Nat) (set : BitVec 32) (option : BitVec 8)
    (r : Kernel Queues × Event × Outcome × Option (BitVec 32)) : EventSys :=
  let s := { s with k := r.1, event := update s.event n r.2.1 }
  match r.2.2.1 with
  | .blocked => { s with call := update s.call t (some ⟨n, set, option, none⟩) }
  | .done e =>
    { s with
      reference := update s.reference n r.2.1.set
      returns := ⟨t, e, r.2.2.2, r.2.2.2⟩ :: s.returns }

end EventSys

open EventSys

/-- One step. A thread makes a new call when it is ready and its last call is over. -/
def eventStep (s : EventSys) : EventAction → Option EventSys
  | .spawn t isStatic priority => do
    let k ← spawn prioMax s.k t isStatic priority
    return { s with k := k }
  | .send n set => do
    let (k, ev, e) ← rtEventSend prioMax s.k (s.event n) (list n) set
    let polled := pollTurns prioMax s.k (s.event n).flag (s.k.lists (list n))
      (s.reference n ||| set) s.call
    let s := { s with k := k, event := update s.event n ev }
    if e = .eok then
      return { s with
        reference := update s.reference n polled.1
        call := polled.2 }
    else
      return s
  | .recv t n set option timeout => do
    rtAssert (s.k.state t = .ready ∧ s.call t = none)
    let r ← rtEventRecv prioMax s.k (s.event n) (list n) t set option timeout
    return s.finishRecv t n set option r
  | .recvReturn t => do
    rtAssert (s.k.state t = .ready)
    let c ← s.call t
    let r := rtEventRecvReturn s.k t
    return { s with
      call := update s.call t none
      returns := ⟨t, r.1, r.2, c.polled⟩ :: s.returns }
  | .reset n => do
    let (k, ev) ← rtEventReset prioMax s.k (s.event n) (list n)
    return { s with
      k := k
      event := update s.event n ev
      reference := update s.reference n 0#32 }
  | .timeout t => do
    let k ← rtTimerExpire prioMax s.k t
    return { s with k := k }

def eventSysInit (flag : Nat → IpcFlag) : EventSys :=
  { k := rtSystemSchedulerInit prioMax queuesInit
    event := fun n => rtEventInit (flag n)
    call := fun _ => none
    reference := fun _ => 0#32
    returns := [] }

end Honeycomb
