import Honeycomb.Core.Ipc

/-!
# Mutexes

Recursive mutexes with priority inheritance, and the system of threads that use
them.

A thread that blocks lends its priority to the owner if it is more urgent, and
the final release puts the owner back to the priority it had when it became the
owner of that mutex, which each mutex remembers for itself. A release with
threads waiting hands the mutex to the first of them.

The books count, per thread and mutex, the takes that have succeeded and the
releases that have. A take by a waiting thread succeeds when the mutex is handed
over to it, although it does not return before the thread runs again.
-/

namespace Honeycomb

open Function ThreadLists

/-- A mutex object. Its wait list is in the kernel. -/
structure Mutex where
  value : BitVec 16
  originalPriority : Nat
  hold : BitVec 8
  owner : Option Tid
  flag : IpcFlag
  deriving DecidableEq, Repr

def rtMutexInit (flag : IpcFlag) : Mutex :=
  { value := 1#16, owner := none, originalPriority := 0xff, hold := 0#8, flag := flag }

variable (prioMax : Nat)

variable (k : Kernel Queues)

/-- Change the priority of the owner to that of a more urgent thread. -/
def lendPriority (t owner : Tid) : Option (Kernel Queues) :=
  if (k.thread t).currentPriority < (k.thread owner).currentPriority then
    rtThreadControl prioMax k owner (k.thread t).currentPriority
  else some k

/-- Change the owner back to its original priority. -/
def restorePriority (owner : Tid) (original : Nat) : Option (Kernel Queues) :=
  if original ≠ (k.thread owner).currentPriority then
    rtThreadControl prioMax k owner original
  else some k

/-- The take from the label `__again` on: the mutex is free, or the thread
    gives up at once, or it lends its priority to the owner and waits. -/
def rtMutexTakeAgain (m : Mutex) (list : Head) (t : Tid) (time : BitVec 32) :
    Option (Kernel Queues × Mutex × Outcome) :=
  if 0#16 < m.value then
    let m := { m with
      value := m.value - 1#16
      owner := some t
      originalPriority := (k.thread t).currentPriority
      hold := m.hold + 1#8 }
    some (k, m, .done .eok)
  else if time = 0#32 then
    some (k.setThread t { k.thread t with error := .etimeout }, m, .done .etimeout)
  else do
    let owner ← m.owner
    let k ← lendPriority prioMax k t owner
    let k ← rtIpcListSuspend prioMax k list t m.flag
    let k ← startThreadTimer k t time
    let k ← rtSchedule prioMax k
    return (k, m, .blocked)

/-- Take a mutex: the part up to where the thread gives up the processor. -/
def rtMutexTake (m : Mutex) (list : Head) (t : Tid) (time : BitVec 32) :
    Option (Kernel Queues × Mutex × Outcome) :=
  let k := k.setThread t { k.thread t with error := .eok }
  if m.owner = some t then
    some (k, { m with hold := m.hold + 1#8 }, .done .eok)
  else
    rtMutexTakeAgain prioMax k m list t time

/-- The rest of a take that has waited. A signal makes it try again. -/
def rtMutexTakeReturn (m : Mutex) (list : Head) (t : Tid) (time : BitVec 32) :
    Option (Kernel Queues × Mutex × Outcome) :=
  if (k.thread t).error ≠ .eok then
    if (k.thread t).error = .eintr then
      rtMutexTakeAgain prioMax k m list t time
    else
      some (k, m, .done (k.thread t).error)
  else
    some (k, m, .done .eok)

def rtMutexRelease (m : Mutex) (list : Head) (t : Tid) :
    Option (Kernel Queues × Mutex × RtErr) :=
  if some t ≠ m.owner then
    some (k.setThread t { k.thread t with error := .error }, m, .error)
  else
    let m := { m with hold := m.hold - 1#8 }
    if m.hold = 0#8 then do
      let k ← restorePriority prioMax k t m.originalPriority
      if isempty k.lists list = false then
        let w ← first k.lists list
        let m := { m with
          owner := some w
          originalPriority := (k.thread w).currentPriority
          hold := m.hold + 1#8 }
        let k ← rtIpcListResume prioMax k list
        let k ← rtSchedule prioMax k
        return (k, m, .eok)
      else
        return (k, { m with value := m.value + 1#16, owner := none, originalPriority := 0xff },
          .eok)
    else
      some (k, m, .eok)

/-- A take that waits, or has been woken and not run yet. `granted` says that
    the mutex has been handed over to it. -/
structure MutexCall where
  mutex : Nat
  time : BitVec 32
  granted : Bool
  deriving DecidableEq, Repr

structure MutexReturn where
  thread : Tid
  mutex : Nat
  status : RtErr
  granted : Bool
  deriving DecidableEq, Repr

structure MutexSys where
  k : Kernel Queues
  mutex : Nat → Mutex
  call : Tid → Option MutexCall
  taken : Nat → Tid → Nat
  released : Nat → Tid → Nat
  returns : List MutexReturn

inductive MutexAction where
  | spawn (t : Tid) (isStatic : Bool) (priority : Nat)
  | take (t : Tid) (n : Nat) (time : BitVec 32)
  | takeReturn (t : Tid)
  | release (t : Tid) (n : Nat)
  | timeout (t : Tid)
  deriving DecidableEq, Repr

/-- One more for the thread, on the side of the books that `count` is. -/
def bump (count : Nat → Tid → Nat) (n : Nat) (t : Tid) : Nat → Tid → Nat :=
  update count n (update (count n) t (count n t + 1))

namespace MutexSys

def list (n : Nat) : Head := .suspend (.mutex n)

/-- Enter what the first half of a take did. -/
def finishTake (s : MutexSys) (t : Tid) (n : Nat) (time : BitVec 32)
    (r : Kernel Queues × Mutex × Outcome) : MutexSys :=
  let s := { s with k := r.1, mutex := update s.mutex n r.2.1 }
  match r.2.2 with
  | .blocked => { s with call := update s.call t (some ⟨n, time, false⟩) }
  | .done e =>
    { s with
      taken := if e = .eok then bump s.taken n t else s.taken
      returns := ⟨t, n, e, e = .eok⟩ :: s.returns }

/-- Enter what the second half of a take did. A call that was granted has been counted already. -/
def finishReturn (s : MutexSys) (t : Tid) (c : MutexCall)
    (r : Kernel Queues × Mutex × Outcome) : MutexSys :=
  let s := { s with k := r.1, mutex := update s.mutex c.mutex r.2.1 }
  match r.2.2 with
  | .blocked => s
  | .done e =>
    { s with
      call := update s.call t none
      taken := if e = .eok ∧ c.granted = false then bump s.taken c.mutex t else s.taken
      returns := ⟨t, c.mutex, e, c.granted⟩ :: s.returns }

/-- Enter what a release did: who owns the mutex now has taken it. -/
def finishRelease (s : MutexSys) (t : Tid) (n : Nat) (r : Kernel Queues × Mutex × RtErr) :
    MutexSys :=
  let old := s.mutex n
  let s := { s with k := r.1, mutex := update s.mutex n r.2.1 }
  if r.2.2 = .eok then
    let s := { s with released := bump s.released n t }
    if old.owner = r.2.1.owner then s
    else
      match r.2.1.owner with
      | none => s
      | some w =>
        { s with
          taken := bump s.taken n w
          call := update s.call w ((s.call w).map fun c => { c with granted := true }) }
  else s

end MutexSys

open MutexSys

/-- One step. A thread makes a new call when it is ready and its last call is over. -/
def mutexStep (s : MutexSys) : MutexAction → Option MutexSys
  | .spawn t isStatic priority => do
    let k ← spawn prioMax s.k t isStatic priority
    return { s with k := k }
  | .take t n time => do
    rtAssert (s.k.state t = .ready ∧ s.call t = none)
    let r ← rtMutexTake prioMax s.k (s.mutex n) (list n) t time
    return s.finishTake t n time r
  | .takeReturn t => do
    rtAssert (s.k.state t = .ready)
    let c ← s.call t
    let r ← rtMutexTakeReturn prioMax s.k (s.mutex c.mutex) (list c.mutex) t c.time
    return s.finishReturn t c r
  | .release t n => do
    rtAssert (s.k.state t = .ready ∧ s.call t = none)
    let r ← rtMutexRelease prioMax s.k (s.mutex n) (list n) t
    return s.finishRelease t n r
  | .timeout t => do
    let k ← rtTimerExpire prioMax s.k t
    return { s with k := k }

def mutexSysInit (flag : Nat → IpcFlag) : MutexSys :=
  { k := rtSystemSchedulerInit prioMax queuesInit
    mutex := fun n => rtMutexInit (flag n)
    call := fun _ => none
    taken := fun _ _ => 0
    released := fun _ _ => 0
    returns := [] }

end Honeycomb
