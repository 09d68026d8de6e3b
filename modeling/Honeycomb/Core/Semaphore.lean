import Honeycomb.Core.Ipc

/-!
# Semaphores

Counting semaphores, and the system of threads that use them.

A release with threads waiting does not touch the counter: the count goes
straight to the first of them, which finds out when its call resumes. The
system keeps books on this. `released` and `granted` count the releases and the
takes that have been given a count, and every call that is over leaves a
`SemReturn` that says what it returned and whether it had been granted.
-/

namespace Honeycomb

open Function ThreadLists

/-- A semaphore object. Its wait list is in the kernel. -/
structure Semaphore where
  value : BitVec 16
  flag : IpcFlag
  deriving DecidableEq, Repr

/-- Initialize a semaphore. The value is passed in more bits than the counter has. -/
def rtSemInit (value : BitVec 32) (flag : IpcFlag) : Semaphore :=
  { value := value.setWidth 16, flag := flag }

variable (prioMax : Nat)

variable (k : Kernel Queues)

/-- Take a semaphore: the part up to where the thread gives up the processor. -/
def rtSemTake (sem : Semaphore) (list : Head) (t : Tid) (time : BitVec 32) :
    Option (Kernel Queues × Semaphore × Outcome) :=
  if 0#16 < sem.value then
    some (k, { sem with value := sem.value - 1#16 }, .done .eok)
  else if time = 0#32 then
    some (k, sem, .done .etimeout)
  else do
    let k := k.setThread t { k.thread t with error := .eok }
    let k ← rtIpcListSuspend prioMax k list t sem.flag
    let k ← startThreadTimer k t time
    let k ← rtSchedule prioMax k
    return (k, sem, .blocked)

/-- The rest of a take that has waited. -/
def rtSemTakeReturn (t : Tid) : RtErr :=
  if (k.thread t).error ≠ .eok then (k.thread t).error else .eok

def rtSemTrytake (sem : Semaphore) (list : Head) (t : Tid) :
    Option (Kernel Queues × Semaphore × Outcome) :=
  rtSemTake prioMax k sem list t 0#32

def rtSemRelease (sem : Semaphore) (list : Head) :
    Option (Kernel Queues × Semaphore) :=
  if isempty k.lists list = false then do
    let k ← rtIpcListResume prioMax k list
    let k ← rtSchedule prioMax k
    return (k, sem)
  else
    some (k, { sem with value := sem.value + 1#16 })

/-- A take that waits, or has been woken and not run yet. `granted` says that a
    release has given it its count. -/
structure SemCall where
  sem : Nat
  granted : Bool
  deriving DecidableEq, Repr

structure SemReturn where
  thread : Tid
  sem : Nat
  status : RtErr
  granted : Bool
  deriving DecidableEq, Repr

structure SemSys where
  k : Kernel Queues
  sem : Nat → Semaphore
  call : Tid → Option SemCall
  released : Nat → Nat
  granted : Nat → Nat
  returns : List SemReturn

/-- What can happen. A release may come from an interrupt, so it has no thread of its own. -/
inductive SemAction where
  | spawn (t : Tid) (isStatic : Bool) (priority : Nat)
  | take (t : Tid) (n : Nat) (time : BitVec 32)
  | trytake (t : Tid) (n : Nat)
  | takeReturn (t : Tid)
  | release (n : Nat)
  | timeout (t : Tid)
  deriving DecidableEq, Repr

namespace SemSys

def list (n : Nat) : Head := .suspend (.sem n)

/-- Enter what a take did up to its first stop. -/
def finishTake (s : SemSys) (t : Tid) (n : Nat) (r : Kernel Queues × Semaphore × Outcome) :
    SemSys :=
  let s := { s with k := r.1, sem := update s.sem n r.2.1 }
  match r.2.2 with
  | .blocked => { s with call := update s.call t (some ⟨n, false⟩) }
  | .done e =>
    let ok := e = .eok
    { s with
      granted := update s.granted n (s.granted n + if ok then 1 else 0)
      returns := ⟨t, n, e, ok⟩ :: s.returns }

/-- Enter that the first waiting thread, if any, has been granted its take. -/
def grantFirst (s : SemSys) (n : Nat) : SemSys :=
  match first s.k.lists (list n) with
  | none => s
  | some w =>
    { s with
      call := update s.call w (some ⟨n, true⟩)
      granted := update s.granted n (s.granted n + 1) }

end SemSys

open SemSys

/-- One step. A thread makes a new call when it is ready and its last call is over. -/
def semStep (s : SemSys) : SemAction → Option SemSys
  | .spawn t isStatic priority => do
    let k ← spawn prioMax s.k t isStatic priority
    return { s with k := k }
  | .take t n time => do
    rtAssert (s.k.state t = .ready ∧ s.call t = none)
    let r ← rtSemTake prioMax s.k (s.sem n) (list n) t time
    return s.finishTake t n r
  | .trytake t n => do
    rtAssert (s.k.state t = .ready ∧ s.call t = none)
    let r ← rtSemTrytake prioMax s.k (s.sem n) (list n) t
    return s.finishTake t n r
  | .takeReturn t => do
    rtAssert (s.k.state t = .ready)
    let c ← s.call t
    return { s with
      call := update s.call t none
      returns := ⟨t, c.sem, rtSemTakeReturn s.k t, c.granted⟩ :: s.returns }
  | .release n => do
    let (k, sem) ← rtSemRelease prioMax s.k (s.sem n) (list n)
    let s := s.grantFirst n
    return { s with
      k := k
      sem := update s.sem n sem
      released := update s.released n (s.released n + 1) }
  | .timeout t => do
    let k ← rtTimerExpire prioMax s.k t
    return { s with k := k }

def semSysInit (value : Nat → BitVec 32) (flag : Nat → IpcFlag) : SemSys :=
  { k := rtSystemSchedulerInit prioMax queuesInit
    sem := fun n => rtSemInit (value n) (flag n)
    call := fun _ => none
    released := fun _ => 0
    granted := fun _ => 0
    returns := [] }

end Honeycomb
