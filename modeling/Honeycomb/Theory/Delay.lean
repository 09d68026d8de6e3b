import Honeycomb.Theory.Calls
import Mathlib.Data.Rat.Floor

/-!
# Delays in Milliseconds

A delay is given in milliseconds, and the timer of the thread counts ticks. The number of
ticks is the ceiling of what the time comes to exactly if the product of the time and the
tick rate is a 32-bit integer. A longer delay is cut short, or stopped by the assertion of
`rt_timer_start`.

## Theorems

* `mdelay_exact`: The timer is armed with this number exactly if nothing overflows.
  `mdelay_overflows` has delays that are too long.
-/

namespace Honeycomb

variable {tickPerSecond ms : Int}

theorem tick_bounds (hrate : 0 ≤ tickPerSecond) (hms : 0 ≤ ms)
    (hsmall : tickPerSecond * ms + 999 < 2 ^ 31) :
    1000 * (rtTickFromMillisecond tickPerSecond ms - 1) < tickPerSecond * ms ∧
      tickPerSecond * ms ≤ 1000 * rtTickFromMillisecond tickPerSecond ms := by
  have hpos := Int.mul_nonneg hrate hms
  rw [rtTickFromMillisecond, if_neg (by omega), Int.bmod_eq_of_le (by omega) (by omega),
    Int.tdiv_eq_ediv_of_nonneg (by omega)]
  omega

/-- After an overflow there are too few ticks. -/
theorem tick_short (hms : 0 ≤ ms) (hlarge : 2 ^ 31 ≤ tickPerSecond * ms + 999) :
    1000 * rtTickFromMillisecond tickPerSecond ms < tickPerSecond * ms := by
  rw [rtTickFromMillisecond, if_neg (by omega)]
  have hmod := Int.bmod_add_bdiv (tickPerSecond * ms + 999) (2 ^ 32)
  have hlt := Int.bmod_lt (x := tickPerSecond * ms + 999) (m := 2 ^ 32) (by decide)
  generalize Int.bmod (tickPerSecond * ms + 999) (2 ^ 32) = v at hmod hlt ⊢
  rcases Int.le_total 0 v with hv | hv
  · rw [Int.tdiv_eq_ediv_of_nonneg hv]
    omega
  · have hneg := Int.tdiv_nonneg (Int.neg_nonneg.mpr hv) (by decide : (0 : Int) ≤ 1000)
    rw [Int.neg_tdiv] at hneg
    omega

/-- The number of ticks is the ceiling exactly without an overflow. -/
theorem tick_eq_ceil_iff (hrate : 0 ≤ tickPerSecond) (hms : 0 ≤ ms) :
    rtTickFromMillisecond tickPerSecond ms = ⌈(tickPerSecond * ms : ℚ) / 1000⌉ ↔
      tickPerSecond * ms + 999 < 2 ^ 31 := by
  constructor
  · intro heq
    by_contra hlarge
    have hshort := tick_short hms (not_lt.mp hlarge)
    have hceil := Int.le_ceil ((tickPerSecond * ms : ℚ) / 1000)
    rw [← heq, div_le_iff₀ (by norm_num), mul_comm _ (1000 : ℚ)] at hceil
    exact absurd hshort (not_lt.mpr (by exact_mod_cast hceil))
  intro hsmall
  rcases tick_bounds hrate hms hsmall with ⟨hlow, hhigh⟩
  refine (Int.ceil_eq_iff.mpr ⟨?_, ?_⟩).symm
  · rw [lt_div_iff₀ (by norm_num), mul_comm]
    exact_mod_cast hlow
  · rw [div_le_iff₀ (by norm_num), mul_comm _ (1000 : ℚ)]
    exact_mod_cast hhigh

section Arm

variable {Q : Type} [ThreadLists Q]

theorem rtThreadSuspend_timer (prioMax : Nat) {k : Kernel Q} {t : Tid}
    (hcreated : (k.thread t).created = true)
    (htimer : (k.thread t).threadTimer.registered = true) :
    ∃ k' e, rtThreadSuspend prioMax k t = some (k', e) ∧
      (k'.thread t).threadTimer.registered = true := by
  by_cases hs : k.state t ≠ .ready
  · refine ⟨k, .error, ?_, htimer⟩
    rw [rtThreadSuspend, rtAssert, if_pos hcreated, some_bind, if_pos hs]
    rfl
  rw [rtThreadSuspend, rtAssert, if_pos hcreated, some_bind, if_neg hs]
  simp only [onTimer, rtTimerStop, rtAssert, rtScheduleRemoveThread_thread,
    setThread_self, Thread.setState, htimer, if_true, some_bind]
  split
  · exact ⟨_, _, rfl, by simp only [setThread_self]⟩
  · exact ⟨_, _, rfl, by simp only [setThread_self, htimer]⟩

theorem rtThreadSleep_arms (prioMax : Nat) {k : Kernel Q} {t : Tid} (tick : BitVec 32)
    (hrun : k.currentThread = some t) (hcreated : (k.thread t).created = true)
    (htimer : (k.thread t).threadTimer.registered = true) (htick : tick.toNat < 0x7fffffff) :
    ∃ k', rtThreadSleep prioMax k tick = rtSchedule prioMax k' ∧
      (k'.thread t).threadTimer = ⟨true, true, true, tick⟩ := by
  rcases rtThreadSuspend_timer prioMax hcreated htimer with ⟨k1, e, hsus, htimer1⟩
  simp only [rtThreadSleep, hrun, rtAssert, hcreated, if_true, Option.pure_def, some_bind, hsus,
    onTimer, rtTimerSetTime, rtTimerStart, htimer1, htick, setThread_self]
  exact ⟨_, rfl, by simp only [setThread_self]⟩

end Arm

/-- A delay takes the ceiling in ticks and arms the timer of the running thread with it exactly if
    its product with the tick rate is a 32-bit integer. -/
theorem mdelay_exact {Q : Type} [ThreadLists Q] (prioMax : Nat) (tickPerSecond ms : Int)
    (k : Kernel Q) (t : Tid) (hrun : k.currentThread = some t)
    (hcreated : (k.thread t).created = true)
    (htimer : (k.thread t).threadTimer.registered = true) (hrate : 0 ≤ tickPerSecond)
    (hms : 0 ≤ ms) :
    (rtTickFromMillisecond tickPerSecond ms = ⌈(tickPerSecond * ms : ℚ) / 1000⌉ ∧
    ∃ k' tick, rtThreadMdelay prioMax tickPerSecond k ms = rtSchedule prioMax k' ∧
      (k'.thread t).threadTimer = ⟨true, true, true, tick⟩ ∧
      (tick.toNat : Int) = ⌈(tickPerSecond * ms : ℚ) / 1000⌉ ∧ tick.toNat < 0x7fffffff) ↔
    tickPerSecond * ms + 999 < 2 ^ 31 := by
  rw [← tick_eq_ceil_iff hrate hms, and_iff_left_iff_imp]
  intro hceil
  have hsmall := (tick_eq_ceil_iff hrate hms).mp hceil
  rcases tick_bounds hrate hms hsmall with ⟨hlow, hhigh⟩
  have hpos := Int.mul_nonneg hrate hms
  have htick : ((BitVec.ofInt 32 (rtTickFromMillisecond tickPerSecond ms)).toNat : Int) =
      rtTickFromMillisecond tickPerSecond ms := by
    rw [BitVec.toNat_ofInt, Int.toNat_of_nonneg (by omega), Int.emod_eq_of_lt (by omega) (by omega)]
  rcases rtThreadSleep_arms prioMax (BitVec.ofInt 32 (rtTickFromMillisecond tickPerSecond ms))
    hrun hcreated htimer (by omega) with ⟨k', hk', harmed⟩
  exact ⟨k', _, hk', harmed, htick.trans hceil, by omega⟩

/-- The longest delay at a tick of one millisecond. -/
theorem mdelay_exact_longest : ∃ (k : Kernel Queues) (k' : Kernel Queues) (tick : BitVec 32),
    rtThreadMdelay 32 1000 k 2147482 = rtSchedule 32 k' ∧
      (k'.thread 0).threadTimer = ⟨true, true, true, tick⟩ ∧ tick.toNat = 2147482 := by
  let k : Kernel Queues :=
    { thread := fun _ =>
        { Thread.blank with created := true, threadTimer := ⟨true, false, false, 0⟩ }
      lists := fun _ => [], readyPriorityGroup := 0, readyTable := fun _ => 0
      currentThread := some 0, currentPriority := 0, lockNest := 0 }
  rcases ((mdelay_exact 32 1000 2147482 k 0 rfl rfl rfl (by decide) (by decide)).mpr
    (by decide)).2 with ⟨k', tick, hk', harmed, htick, _⟩
  refine ⟨k, k', tick, hk', harmed, ?_⟩
  norm_num at htick
  exact_mod_cast htick

/-- Of two longer delays, one takes a single tick, and the other does not pass the assertion. -/
theorem mdelay_overflows : rtTickFromMillisecond 1000 4294968 = 1 ∧
    ⌈((1000 : Int) * (4294968 : Int) : ℚ) / 1000⌉ = 4294968 ∧
    rtTickFromMillisecond 1000 2147484 = -2147482 ∧
    rtTimerStart ⟨true, false, false, BitVec.ofInt 32 (-2147482)⟩ = none := by
  refine ⟨by decide, by norm_num, by decide, by decide⟩

end Honeycomb
