import Honeycomb.Core.Scheduler

/-!
# Threads

The life of a thread: set up, started, suspended and resumed, moved to another
priority, timed out, and closed in one of three ways.

A function that returns a status returns it along with the state. The timer
functions are those of the built-in thread timer, reduced to what the thread
functions need of them: whether it is running, and the assertions they make.
-/

namespace Honeycomb

/-- Take the timer out of the timer list and clear its activation flag. A
    timer that is not activated is left alone. -/
def rtTimerStop (timer : ThreadTimer) : Option ThreadTimer := do
  rtAssert timer.registered
  if timer.activated then
    return { timer with linked := false, activated := false }
  else
    return timer

def rtTimerSetTime (timer : ThreadTimer) (tick : BitVec 32) : Option ThreadTimer := do
  rtAssert timer.registered
  return { timer with initTick := tick }

/-- Put the timer into the timer list. The time it is set to has to be below
    half of the tick range, `RT_TICK_MAX / 2`. -/
def rtTimerStart (timer : ThreadTimer) : Option ThreadTimer := do
  rtAssert timer.registered
  let timer := { timer with linked := false, activated := false }
  rtAssert (timer.initTick.toNat < 0x7fffffff)
  return { timer with linked := true, activated := true }

/-- Take the timer out of the timer list and drop it as a kernel object. The
    activation flag stays as it is. -/
def rtTimerDetach (timer : ThreadTimer) : Option ThreadTimer := do
  rtAssert timer.registered
  return { timer with linked := false, registered := false }

variable {Q : Type} [ThreadLists Q]

open ThreadLists

/-- Apply one of the timer functions to the timer of a thread. -/
def onTimer (k : Kernel Q) (t : Tid) (f : ThreadTimer → Option ThreadTimer) :
    Option (Kernel Q) := do
  let timer ← f (k.thread t).threadTimer
  return k.setThread t { k.thread t with threadTimer := timer }

variable (prioMax : Nat)

variable (k : Kernel Q)

/-- Set up a thread, in memory of the caller's or in memory from the heap. -/
def rtThreadInit (t : Tid) (isStatic : Bool)
    (priority : Nat) : Option (Kernel Q) := do
  let k := { k with lists := init k.lists t }
  rtAssert (priority < prioMax)
  return k.setThread t { k.thread t with
    created := true
    isStatic := isStatic
    initPriority := priority
    currentPriority := priority
    numberMask := 0
    number := 0
    highMask := 0
    error := .eok
    stat := ⟨.init, 0⟩
    cleanup := false
    threadTimer := { registered := true, linked := false, activated := false, initTick := 0 } }

def rtThreadResume (t : Tid) : Option (Kernel Q × RtErr) := do
  rtAssert (k.thread t).created
  if k.state t ≠ .suspend then
    return (k, .error)
  else
    let k := { k with lists := remove k.lists t }
    let k ← onTimer k t rtTimerStop
    return (rtScheduleInsertThread prioMax k t, .eok)

def rtThreadStartup (t : Tid) : Option (Kernel Q) := do
  rtAssert (k.thread t).created
  rtAssert (k.state t = .init)
  let th := { k.thread t with currentPriority := (k.thread t).initPriority }
  let th := priorityAttribute prioMax th
  let k := k.setThread t { th with stat := ⟨.suspend, 0⟩ }
  let (k, _) ← rtThreadResume prioMax k t
  if k.currentThread ≠ none then
    rtSchedule prioMax k
  else
    return k

def rtThreadSuspend (t : Tid) : Option (Kernel Q × RtErr) := do
  rtAssert (k.thread t).created
  if k.state t ≠ .ready then
    return (k, .error)
  else
    let k := k.setThread t ((k.thread t).setState .suspend)
    let k := rtScheduleRemoveThread prioMax k t
    let k ← onTimer k t rtTimerStop
    return (k, .eok)

/-- Move the running thread to the end of the ready list it is on, unless it is alone there. -/
def rtThreadYield : Option (Kernel Q) := do
  let t ← k.currentThread
  let here := Head.ready (k.thread t).currentPriority
  if k.state t = .ready ∧ alone k.lists here t = false then
    let k := { k with lists := remove k.lists t }
    let k := { k with lists := insertBefore k.lists here t }
    rtSchedule prioMax k
  else
    return k

/-- Let the running thread sleep for some ticks: the part up to where it gives up the processor. -/
def rtThreadSleep (tick : BitVec 32) : Option (Kernel Q) := do
  let t ← k.currentThread
  rtAssert (k.thread t).created
  let (k, _) ← rtThreadSuspend prioMax k t
  let k ← onTimer k t (rtTimerSetTime · tick)
  let k ← onTimer k t rtTimerStart
  rtSchedule prioMax k

/-- The ticks of a time in milliseconds. The product and the sum are 32-bit integers. -/
def rtTickFromMillisecond (tickPerSecond ms : Int) : Int :=
  if ms < 0 then -1 else ((tickPerSecond * ms + 999).bmod (2 ^ 32)).tdiv 1000

def rtThreadMdelay (tickPerSecond : Int) (k : Kernel Q) (ms : Int) :
    Option (Kernel Q) :=
  rtThreadSleep prioMax k (BitVec.ofInt 32 (rtTickFromMillisecond tickPerSecond ms))

/-- The rest of a sleep, run when the thread has the processor again: running
    out of time is what a sleep is for, so it is no error. -/
def rtThreadSleepReturn (t : Tid) : Kernel Q :=
  if (k.thread t).error = .etimeout then
    k.setThread t { k.thread t with error := .eok }
  else k

/-- Change the current priority of a thread. A ready thread changes lists; any
    other thread stays where it is. -/
def rtThreadControl (t : Tid) (priority : Nat) :
    Option (Kernel Q) := do
  rtAssert (k.thread t).created
  if k.state t = .ready then
    let k := rtScheduleRemoveThread prioMax k t
    let k := k.setThread t
      (priorityAttribute prioMax { k.thread t with currentPriority := priority })
    return rtScheduleInsertThread prioMax k t
  else
    return k.setThread t (priorityAttribute prioMax { k.thread t with currentPriority := priority })

def rtThreadTimeout (t : Tid) : Option (Kernel Q) := do
  rtAssert (k.thread t).created
  rtAssert (k.state t = .suspend)
  let k := k.setThread t { k.thread t with error := .etimeout }
  let k := { k with lists := remove k.lists t }
  let k := rtScheduleInsertThread prioMax k t
  rtSchedule prioMax k

/-- The timer of a thread fires: it leaves the timer list, its callback runs,
    and being a one-shot timer it is then deactivated. -/
def rtTimerExpire (t : Tid) : Option (Kernel Q) := do
  rtAssert (k.thread t).threadTimer.linked
  let k ← onTimer k t fun timer => some { timer with linked := false }
  let k ← rtThreadTimeout prioMax k t
  onTimer k t fun timer => some { timer with activated := false }

/-- The running thread ends. Its block is forgotten at once if it is the
    caller's and needs no cleanup; otherwise it waits for the idle thread. -/
def rtThreadExit : Option (Kernel Q) := do
  let t ← k.currentThread
  let k := rtScheduleRemoveThread prioMax k t
  let k := k.setThread t { k.thread t with stat := ⟨.close, 0⟩ }
  let k ← onTimer k t rtTimerDetach
  let k := if (k.thread t).isStatic = true ∧ (k.thread t).cleanup = false then
      k.setThread t { k.thread t with isStatic := false }
    else
      { k with lists := insertAfter k.lists .defunct t }
  rtSchedule prioMax k

/-- Close a thread whose block is the caller's. -/
def rtThreadDetach (t : Tid) : Option (Kernel Q) := do
  rtAssert (k.thread t).created
  rtAssert (k.thread t).isStatic
  let k := if k.state t ≠ .init then rtScheduleRemoveThread prioMax k t else k
  let k ← onTimer k t rtTimerDetach
  let k := k.setThread t { k.thread t with stat := ⟨.close, 0⟩ }
  let k := k.setThread t { k.thread t with isStatic := false }
  if (k.thread t).cleanup then
    return { k with lists := insertAfter k.lists .defunct t }
  else
    return k

/-- Close a thread whose block is from the heap. -/
def rtThreadDelete (t : Tid) : Option (Kernel Q) := do
  rtAssert (k.thread t).created
  rtAssert ((k.thread t).isStatic = false)
  let k := if k.state t ≠ .init then rtScheduleRemoveThread prioMax k t else k
  let k ← onTimer k t rtTimerDetach
  let k := k.setThread t { k.thread t with stat := ⟨.close, 0⟩ }
  return { k with lists := insertAfter k.lists .defunct t }

end Honeycomb
