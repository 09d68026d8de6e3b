import Honeycomb.Core.Sched

/-!
# The Reaper in the Idle Thread

A thread that has ended is put on the list of the dead threads, and the idle thread
takes it off there, calls its cleanup function, and releases its stack and its control
block if they are from the heap. Which of the two kinds a thread is of is read from the
static flag of its object at that time.

One round of the loop in `rt_thread_idle_excute` is two steps. Up to the unlocking of the
scheduler it is not interrupted (`idleReap`); when the memory is released afterwards
(`idleRelease`), other threads may have run. The function returns after a thread whose
memory is not from the heap, and since the idle thread calls it again and again, this is
just another round.

All other calls of the thread interface may come in between, at any time, except that no
thread is ended twice.

The system keeps books of what was released and which cleanup functions were called,
and of which threads were made by `rt_thread_create`. What a cleanup function does is
not modelled.
-/

namespace Honeycomb

open Function ThreadLists

/-- The scheduler, the thread whose memory the reaper is about to release, and the books. -/
structure IdleSys where
  k : Kernel Queues
  reaping : Option Tid
  dynamic : Tid → Bool
  stackFreed : Tid → Nat
  objectDeleted : Tid → Nat
  cleaned : Tid → Nat

inductive IdleAction where
  | sched (a : SchedAction)
  | reap
  | release
  deriving DecidableEq, Repr

namespace IdleSys

variable (s : IdleSys)

/-- A thread has ended and the reaper is done with it. -/
def Done (t : Tid) : Prop :=
  s.k.state t = .close ∧ t ∉ s.k.lists .defunct

instance (t : Tid) : Decidable (s.Done t) :=
  inferInstanceAs (Decidable (_ ∧ _))

/-- A call that ends a thread is not for one that has ended. -/
def endsOnce : SchedAction → Bool
  | .exit => s.k.currentThread.all fun t => s.k.state t ≠ .close
  | .detach t => s.k.state t ≠ .close
  | .delete t => s.k.state t ≠ .close
  | _ => true

/-- Enter who made a thread. -/
def noteInit : SchedAction → Tid → Bool
  | .init t isStatic _ => update s.dynamic t (!isStatic)
  | _ => s.dynamic

end IdleSys

variable (prioMax : Nat)

/-- The reaper takes a dead thread, if there is one, and calls its cleanup function. A
    thread whose static flag is set is left at that. -/
def idleReap (s : IdleSys) : Option IdleSys := do
  rtAssert (s.reaping = none)
  match first s.k.lists .defunct with
  | none => return s
  | some t =>
    let k := { s.k with lists := remove s.k.lists t }
    let k := rtEnterCritical k
    let cleaned := if (k.thread t).cleanup then
        update s.cleaned t (s.cleaned t + 1)
      else s.cleaned
    let reaping := if (k.thread t).isStatic then none else some t
    let k ← rtExitCritical prioMax k
    return { s with k, cleaned, reaping }

/-- The reaper releases the stack and deletes the object, which must not be static. -/
def idleRelease (s : IdleSys) : Option IdleSys := do
  let t ← s.reaping
  rtAssert ((s.k.thread t).isStatic = false)
  return { s with
    reaping := none
    stackFreed := update s.stackFreed t (s.stackFreed t + 1)
    objectDeleted := update s.objectDeleted t (s.objectDeleted t + 1) }

def idleStep (s : IdleSys) : IdleAction → Option IdleSys
  | .sched a => do
    rtAssert (s.endsOnce a)
    let k ← schedStep prioMax s.k a
    return { s with k := k, dynamic := s.noteInit a }
  | .reap => idleReap prioMax s
  | .release => idleRelease s

def idleSysInit : IdleSys :=
  { k := rtSystemSchedulerInit prioMax queuesInit
    reaping := none
    dynamic := fun _ => false
    stackFreed := fun _ => 0
    objectDeleted := fun _ => 0
    cleaned := fun _ => 0 }

end Honeycomb
