import Honeycomb.Core.Thread

/-!
# The Scheduler as a State Machine

Every way the scheduler's state can change through the thread interface, one
constructor per call. A call runs with interrupts disabled or with the
processor its own, so it is one step.
-/

namespace Honeycomb

/-- A call of the thread interface. `setCleanup` is the assignment of the
    cleanup field that a program makes by itself. -/
inductive SchedAction where
  | init (t : Tid) (isStatic : Bool) (priority : Nat)
  | startup (t : Tid)
  | suspend (t : Tid)
  | resume (t : Tid)
  | yield
  | sleep (tick : BitVec 32)
  | sleepReturn (t : Tid)
  | changePriority (t : Tid) (priority : Nat)
  | timeout (t : Tid)
  | exit
  | detach (t : Tid)
  | delete (t : Tid)
  | setCleanup (t : Tid) (set : Bool)
  | start
  | enterCritical
  | exitCritical
  deriving DecidableEq, Repr

variable {Q : Type} [ThreadLists Q]

/-- The effect of a call. Only a block that holds no thread may be set up, and
    a priority has to be one of the configured ones. -/
def schedStep (prioMax : Nat) (k : Kernel Q) : SchedAction → Option (Kernel Q)
  | .init t isStatic priority => do
    rtAssert ((k.thread t).created = false)
    rtThreadInit prioMax k t isStatic priority
  | .startup t => rtThreadStartup prioMax k t
  | .suspend t => (rtThreadSuspend prioMax k t).map Prod.fst
  | .resume t => (rtThreadResume prioMax k t).map Prod.fst
  | .yield => rtThreadYield prioMax k
  | .sleep tick => rtThreadSleep prioMax k tick
  | .sleepReturn t => some (rtThreadSleepReturn k t)
  | .changePriority t priority => do
    rtAssert (priority < prioMax)
    rtThreadControl prioMax k t priority
  | .timeout t => rtThreadTimeout prioMax k t
  | .exit => rtThreadExit prioMax k
  | .detach t => rtThreadDetach prioMax k t
  | .delete t => rtThreadDelete prioMax k t
  | .setCleanup t set => some (k.setThread t { k.thread t with cleanup := set })
  | .start => rtSystemSchedulerStart prioMax k
  | .enterCritical => some (rtEnterCritical k)
  | .exitCritical => rtExitCritical prioMax k

/-- The machine's initial state: the list heads are rings of one node. -/
def schedInit (prioMax : Nat) : Kernel (Links (Head ⊕ Tid)) :=
  rtSystemSchedulerInit prioMax linksInit

end Honeycomb
