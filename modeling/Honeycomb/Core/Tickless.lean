import Honeycomb.Core.Timer

/-!
# Tickless sleep

The idle hook of the BOX board, `main.c`. When no thread has to run for a while the
tick interrupt is put off: the SysTick counter is loaded with the counts of several
ticks, the processor sleeps, and what it has slept is added to the tick.

How long that may be is read off the threads, one after the other. Interrupts are enabled
all this time, so each thread has the tick at which it is read, and the tick and the timers
are those that the sleep finds when it has disabled them. What the hardware does is an input:
the count at entry, and after the sleep the count flag and the count.
-/

namespace Honeycomb.Tickless

/-- What the hook reads of a thread, and the tick at that time. -/
structure BoxThread where
  stat : Stat
  remainingTick : BitVec 32
  timeoutTick : BitVec 32
  tick : BitVec 32

/-- The timers are those of threads and all others, and the tick is the one that is added to. -/
structure Box where
  threads : List BoxThread
  deadlines : List (BitVec 32)
  tick : BitVec 32

/-- A deadline that the check of the timers takes for over. -/
abbrev Due (tick deadline : BitVec 32) : Prop :=
  tick - deadline < Timers.rtTickMax / 2#32

/-- The time the hook takes from one thread. A deadline of 0 stands for none. -/
def BoxThread.idleTime (th : BoxThread) : Option (BitVec 32) :=
  if th.stat = ⟨.ready, 0⟩ then
    if th.remainingTick > 0#32 then some th.remainingTick else none
  else if th.stat = ⟨.suspend, 0⟩ then
    if th.timeoutTick > 0#32 then some (th.timeoutTick - th.tick) else none
  else none

/-- The smaller time, where 0 stands for no time so far. -/
def lessIdle (xExpectedIdleTime idletime : BitVec 32) : BitVec 32 :=
  if xExpectedIdleTime = 0#32 then idletime
  else if idletime < xExpectedIdleTime then idletime else xExpectedIdleTime

/-- The loop of the hook over all threads. -/
def Box.expectedIdleTime (b : Box) : BitVec 32 :=
  (b.threads.filterMap (·.idleTime)).foldl lessIdle 0#32

/-- The variables that `vPortSetupTimerInterrupt` sets. -/
structure Setup where
  ulTimerCountsForOneTick : BitVec 32
  xMaximumPossibleSuppressedTicks : BitVec 32
  ulStoppedTimerCompensation : BitVec 32

def vPortSetupTimerInterrupt (clockHz tickRateHz : BitVec 32) : Setup where
  ulTimerCountsForOneTick := clockHz / tickRateHz
  xMaximumPossibleSuppressedTicks := 0xffffff#32 / (clockHz / tickRateHz)
  ulStoppedTimerCompensation := 45#32 / (clockHz / clockHz)

/-- What is read from the counter: the count before the sleep, and the flag and the
    count after it. -/
structure SysTick where
  entry : BitVec 32
  countFlag : Bool
  current : BitVec 32

/-- The two values that are loaded into the counter, for the sleep and for the rest of
    the tick after it, and the ticks that are added. -/
structure Sleep where
  ulReloadValue : BitVec 32
  load : BitVec 32
  ulCompleteTickPeriods : BitVec 32

/-- The time is cut down to what the counter can count. -/
def Setup.cut (p : Setup) (xExpectedIdleTime : BitVec 32) : BitVec 32 :=
  if xExpectedIdleTime > p.xMaximumPossibleSuppressedTicks then p.xMaximumPossibleSuppressedTicks
  else xExpectedIdleTime

def vPortSuppressTicksAndSleep (p : Setup) (xExpectedIdleTime : BitVec 32) (r : SysTick) : Sleep :=
  let x := p.cut xExpectedIdleTime
  let c := p.ulTimerCountsForOneTick
  let reload := r.entry + c * (x - 1#32)
  let reload := if reload > p.ulStoppedTimerCompensation then reload - p.ulStoppedTimerCompensation
    else reload
  if r.countFlag then
    -- The interrupt is pending and adds the last tick.
    let load := c - 1#32 - (reload - r.current)
    ⟨reload, if load < p.ulStoppedTimerCompensation ∨ load > c then c - 1#32 else load, x - 1#32⟩
  else
    let decrements := x * c - r.current
    let periods := decrements / c
    ⟨reload, (periods + 1#32) * c - decrements, periods⟩

/-- The tick after the hook. The next timeout, which it asks for as well, is not used. -/
def idleHookFunction (p : Setup) (b : Box) (r : SysTick) : BitVec 32 :=
  if b.expectedIdleTime > 10#32 then
    b.tick + (vPortSuppressTicksAndSleep p b.expectedIdleTime r).ulCompleteTickPeriods
  else b.tick

end Honeycomb.Tickless
