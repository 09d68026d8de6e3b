import Honeycomb.Core.Thread

/-!
# Waiting on a Kernel Object

The part of inter-thread communication that all kernel objects share: a thread
suspends itself into the wait list of an object, and whoever makes the object
available resumes the thread at the head of that list.

A call that blocks is cut in two where it gives up the processor. What the
first half returns says whether the call is over (`Outcome.done`) or whether a
second half is still to run when the thread has the processor again
(`Outcome.blocked`).

The calling thread is an argument. The scheduler decides who calls, and nothing
in this part of the kernel depends on its decision.
-/

namespace Honeycomb

open ThreadLists

/-- How the waiting threads of an object are ordered. -/
inductive IpcFlag where
  | fifo
  | prio
  deriving DecidableEq, Repr

/-- Whether a call is over, and with which status, or waits in the middle. -/
inductive Outcome where
  | done (status : RtErr)
  | blocked
  deriving DecidableEq, Repr

/-- Insert a thread before the first one that is less urgent, and at the end if there is none. -/
def insertPrio (prio : Tid → Nat) (t : Tid) : List Tid → List Tid
  | [] => [t]
  | s :: ss => if prio t < prio s then t :: s :: ss else s :: insertPrio prio t ss

variable (prioMax : Nat)

variable (k : Kernel Queues)

/-- Suspend a thread and link it into a wait list. -/
def rtIpcListSuspend (list : Head) (t : Tid) (flag : IpcFlag) :
    Option (Kernel Queues) := do
  let (k, _) ← rtThreadSuspend prioMax k t
  match flag with
  | .fifo => return { k with lists := insertBefore k.lists list t }
  | .prio =>
    let prio := fun u => (k.thread u).currentPriority
    let queue := insertPrio prio t (k.lists list)
    return { k with lists := Function.update k.lists list queue }

/-- Resume the first thread of a wait list. An empty list has no first thread,
    and the code that asks for it makes sure there is one. -/
def rtIpcListResume (list : Head) : Option (Kernel Queues) := do
  let t ← first k.lists list
  let (k, _) ← rtThreadResume prioMax k t
  return k

/-- Resume the threads of a wait list with an error, as long as there are any.
    Every round takes one thread off the list, so its length bounds them. -/
def rtIpcListResumeAll : Nat → Kernel Queues → Head → Option (Kernel Queues)
  | 0, k, _ => some k
  | n + 1, k, list =>
    match first k.lists list with
    | none => some k
    | some t => do
      let k := k.setThread t { k.thread t with error := .error }
      let (k, _) ← rtThreadResume prioMax k t
      rtIpcListResumeAll n k list

/-- Start the thread timer if there is a time to wait for. A negative time waits forever. -/
def startThreadTimer {Q : Type} (k : Kernel Q) (t : Tid) (time : BitVec 32) :
    Option (Kernel Q) :=
  if 0 < time.toInt then do
    let k ← onTimer k t (rtTimerSetTime · time)
    onTimer k t rtTimerStart
  else
    some k

/-- Wait in a list, at most for some time, and give up the processor. -/
def waitIn (list : Head) (t : Tid) (flag : IpcFlag) (timeout : BitVec 32) :
    Option (Kernel Queues) := do
  let k ← rtIpcListSuspend prioMax k list t flag
  let k ← startThreadTimer k t timeout
  rtSchedule prioMax k

/-- What `tick_delta` holds while a call waits. -/
def startTick (timeout tickDelta tick : BitVec 32) : BitVec 32 :=
  if 0 < timeout.toInt then tick else tickDelta

/-- What is left of a timeout when a call has waited since `tickDelta`. -/
def remaining (timeout tickDelta tick : BitVec 32) : BitVec 32 :=
  if 0 < timeout.toInt then
    let tickDelta := tick - tickDelta
    let timeout := timeout - tickDelta
    if timeout.toInt < 0 then 0#32 else timeout
  else
    timeout

/-- Resume the first thread of a wait list, if there is one, and schedule. -/
def resumeWaiting (list : Head) : Option (Kernel Queues) :=
  if isempty k.lists list = false then do
    let k ← rtIpcListResume prioMax k list
    rtSchedule prioMax k
  else
    some k

def spawn (t : Tid) (isStatic : Bool) (priority : Nat) :
    Option (Kernel Queues) := do
  rtAssert ((k.thread t).created = false)
  let k ← rtThreadInit prioMax k t isStatic priority
  rtThreadStartup prioMax k t

end Honeycomb
