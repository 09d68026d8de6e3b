import Honeycomb.Core.Tickless

/-!
# No sleep past a deadline

The time the hook finds is the least one of the threads after the last whose own is 0, which
starts the search anew. The sleep adds one tick less than that, or the whole ticks among the
counts of a sleep that ends early. So it comes down to a comparison with the deadlines, which
are not looked at.

The sums of the sleep do not wrap around for a tick of 47 counts or more. What the code takes
for the counts of a sleep that ends early is in the ticks that are added and in the count that
is loaded.

## Theorems

* `tickless_on_time`: When no deadline is reached. `timer_overslept` is one that is.
* `sleep_conserves`: The counts of a sleep.
-/

namespace Honeycomb.Tickless

open List

/-- The times after the last one that is 0. -/
def lastTimes (ks : List (BitVec 32)) : List (BitVec 32) :=
  ks.reverse.takeWhile (· ≠ 0#32)

/-- The least of some times, and 0 if there is none. -/
def Least (x : BitVec 32) (ks : List (BitVec 32)) : Prop :=
  (ks = [] ∧ x = 0#32) ∨ (x ∈ ks ∧ ∀ k ∈ ks, x ≤ k)

theorem lastTimes_ne_zero {k : BitVec 32} {ks : List (BitVec 32)} (hk : k ∈ lastTimes ks) :
    k ≠ 0#32 :=
  of_decide_eq_true (all_eq_true.mp all_takeWhile k hk)

theorem lessIdle_least {x k : BitVec 32} {ks : List (BitVec 32)} (h : Least x ks)
    (h0 : 0#32 ∉ ks) : Least (lessIdle x k) (k :: ks) := by
  rcases h with ⟨rfl, rfl⟩ | ⟨hmem, hle⟩
  · exact .inr ⟨mem_cons_self, forall_mem_singleton.mpr (BitVec.le_refl k)⟩
  have hx : x ≠ 0#32 := fun hzero => h0 (hzero ▸ hmem)
  rw [lessIdle, if_neg hx]
  split_ifs with hlt
  · refine .inr ⟨mem_cons_self, forall_mem_cons.mpr ⟨BitVec.le_refl k, fun j hj => ?_⟩⟩
    exact BitVec.le_trans (BitVec.le_of_lt hlt) (hle j hj)
  · exact .inr ⟨mem_cons_of_mem _ hmem, forall_mem_cons.mpr ⟨BitVec.not_lt.mp hlt, hle⟩⟩

theorem search_least (ks : List (BitVec 32)) : Least (ks.foldl lessIdle 0#32) (lastTimes ks) := by
  induction ks using List.reverseRecOn with
  | nil => exact .inl ⟨rfl, rfl⟩
  | append_singleton ks k ih =>
    rw [foldl_append, foldl_cons, foldl_nil, lastTimes, reverse_append, reverse_singleton,
      singleton_append]
    by_cases hk : k = 0#32
    · rw [takeWhile_cons_of_neg (by simpa using hk), hk]
      refine .inl ⟨rfl, ?_⟩
      unfold lessIdle
      split_ifs with hx hlt
      · rfl
      · rfl
      · exact BitVec.le_antisymm (BitVec.not_lt.mp hlt) (Nat.zero_le _)
    · rw [takeWhile_cons_of_pos (by simpa using hk)]
      exact lessIdle_least ih fun hmem => lastTimes_ne_zero hmem rfl

/-- The sleep adds fewer ticks than so many. -/
abbrev Shorter (p : Setup) (x : BitVec 32) (r : SysTick) (d : BitVec 32) : Prop :=
  if r.countFlag then p.cut x ≤ d
  else (p.cut x * p.ulTimerCountsForOneTick - r.current).toNat <
    d.toNat * p.ulTimerCountsForOneTick.toNat

/-- No timer that runs is nearer than the sleep is long, if the processor sleeps. -/
def OnTime (p : Setup) (b : Box) (r : SysTick) : Prop :=
  10#32 < b.expectedIdleTime → ∀ d ∈ b.deadlines, Shorter p b.expectedIdleTime r (d - b.tick)

section Sleep

variable {p : Setup} {x : BitVec 32} {r : SysTick}
  (hp : p.xMaximumPossibleSuppressedTicks = 0xffffff#32 / p.ulTimerCountsForOneTick)
  (hc : 0#32 < p.ulTimerCountsForOneTick) (hc' : p.ulTimerCountsForOneTick ≤ 0xffffff#32)
  (hx : 0#32 < x)

include hp hc hc' hx

theorem cut_bounds : 0 < (p.cut x).toNat ∧ (p.cut x).toNat ≤ x.toNat ∧
    (p.cut x).toNat * p.ulTimerCountsForOneTick.toNat ≤ 0xffffff := by
  have hpos : 0 < 0xffffff / p.ulTimerCountsForOneTick.toNat := Nat.div_pos hc' hc
  have hmax := congrArg BitVec.toNat hp
  change _ = 0xffffff / _ at hmax
  rw [← Nat.le_div_iff_mul_le hc, ← hmax]
  rw [← hmax] at hpos
  unfold Setup.cut
  split_ifs with h
  · exact ⟨hpos, le_of_lt h, le_rfl⟩
  · exact ⟨hx, le_rfl, Nat.le_of_not_lt h⟩

theorem added_lt_iff (d : BitVec 32) :
    (vPortSuppressTicksAndSleep p x r).ulCompleteTickPeriods < d ↔ Shorter p x r d := by
  have hpos := (cut_bounds hp hc hc' hx).1
  unfold vPortSuppressTicksAndSleep Shorter
  split_ifs with hf
  · -- one tick less than the time, which is not 0
    bv_omega
  · rw [BitVec.lt_def, BitVec.toNat_udiv, Nat.div_lt_iff_lt_mul hc]

end Sleep

section Counts

variable {p : Setup} {c x : BitVec 32} {r : SysTick} {z : Sleep}
  (hcount : p.ulTimerCountsForOneTick = c) (hpos : 0 < (p.cut x).toNat) (hc : 46#32 < c)

include hcount hpos

/-- The counter is loaded with fewer counts than the whole time has. -/
theorem reload_lt (hentry : r.entry < c) :
    (vPortSuppressTicksAndSleep p x r).ulReloadValue.toNat < (p.cut x).toNat * c.toNat := by
  rcases Nat.exists_eq_succ_of_ne_zero hpos.ne' with ⟨n, hn⟩
  have hone : (p.cut x - 1#32).toNat = n := by bv_omega
  rw [hn, Nat.succ_mul]
  have hfull : (r.entry + c * (p.cut x - 1#32)).toNat < n * c.toNat + c.toNat := by
    have hlt : r.entry.toNat < c.toNat := hentry
    rw [BitVec.toNat_add, BitVec.toNat_mul, hone, Nat.mul_comm _ n]
    omega
  simp only [vPortSuppressTicksAndSleep, apply_ite Sleep.ulReloadValue, ite_self, hcount]
  split_ifs with h
  · rw [BitVec.toNat_sub_of_le (Nat.le_of_lt h)]
    omega
  · exact hfull

include hc

theorem sleep_full (hcomp : p.ulStoppedTimerCompensation = 45#32) (hf : r.countFlag = true)
    (hz : z = vPortSuppressTicksAndSleep p x r) :
    z.ulCompleteTickPeriods ≤ p.cut x ∧ 1#32 ≤ z.load ∧ z.load ≤ c := by
  simp only [vPortSuppressTicksAndSleep, hf, if_true, hcomp, hcount] at hz
  rw [hz]
  refine ⟨by bv_omega, ?_⟩
  split_ifs with h <;> bv_omega

/-- The sleep is ended by something else, after so many counts. -/
theorem sleep_early (hmul : (p.cut x).toNat * c.toNat ≤ 0xffffff) (hf : r.countFlag = false)
    (hz : z = vPortSuppressTicksAndSleep p x r)
    (hcur : r.current.toNat ≤ (p.cut x).toNat * c.toNat) :
    z.ulCompleteTickPeriods ≤ p.cut x ∧ 1#32 ≤ z.load ∧ z.load ≤ c ∧
      z.ulCompleteTickPeriods.toNat * c.toNat + (c.toNat - z.load.toNat) =
        (p.cut x * c - r.current).toNat := by
  have hc0 : 0 < c.toNat := Nat.zero_lt_of_lt hc
  have hprod : (p.cut x * c).toNat = (p.cut x).toNat * c.toNat :=
    BitVec.toNat_mul_of_lt (by omega)
  have hdec := BitVec.toNat_sub_of_le (show r.current.toNat ≤ _ from hprod ▸ hcur)
  simp only [vPortSuppressTicksAndSleep, hf, Bool.false_eq_true, if_false, hcount] at hz
  rw [hz]
  generalize p.cut x * c - r.current = decrements at *
  have hlast := Nat.div_add_mod' decrements.toNat c.toNat
  have hrest := Nat.mod_lt decrements.toNat hc0
  have hperiods : decrements.toNat / c.toNat ≤ (p.cut x).toNat :=
    Nat.div_le_of_le_mul (by rw [Nat.mul_comm]; omega)
  have hsmall := Nat.le_mul_of_pos_right (p.cut x).toNat hc0
  rw [← BitVec.toNat_udiv] at hlast hperiods
  generalize decrements / c = periods at *
  have hload : ((periods + 1#32) * c - decrements).toNat =
      c.toNat - decrements.toNat % c.toNat := by
    have hone : (periods + 1#32).toNat = periods.toNat + 1 := by bv_omega
    rw [BitVec.toNat_sub, BitVec.toNat_mul, hone, Nat.succ_mul]
    omega
  simp only [BitVec.le_def, hload]
  refine ⟨hperiods, ?_, Nat.sub_le _ _, ?_⟩
  · change 1 ≤ _
    omega
  · omega

end Counts

/-- However long the processor has slept, the counts fit the counter, at most the time that was
    asked for is added, and what is left of the last tick is counted on. -/
theorem sleep_conserves (clockHz tickRateHz c x : BitVec 32) (r : SysTick) (p : Setup) (z : Sleep)
    (hp : p = vPortSetupTimerInterrupt clockHz tickRateHz)
    (hcount : p.ulTimerCountsForOneTick = c) (hc : 46#32 < c) (hc' : c ≤ 0xffffff#32)
    (hx : 1#32 ≤ x) (hentry : r.entry < c) (hz : z = vPortSuppressTicksAndSleep p x r)
    (hcur : r.current ≤ z.ulReloadValue) :
    z.ulReloadValue ≤ 0xffffff#32 ∧ z.ulCompleteTickPeriods ≤ x ∧
    z.ulCompleteTickPeriods ≤ p.xMaximumPossibleSuppressedTicks ∧ 1#32 ≤ z.load ∧ z.load ≤ c ∧
    (r.countFlag = false → z.ulCompleteTickPeriods.toNat * c.toNat + (c.toNat - z.load.toNat) =
      (p.cut x * c - r.current).toNat) := by
  have hcomp : p.ulStoppedTimerCompensation = 45#32 := by
    have hclock : clockHz ≠ 0#32 := by
      rintro rfl
      rw [← hcount, hp] at hc
      exact absurd (show 46#32 < 0#32 / tickRateHz from hc) (by simp)
    rw [hp]
    change 45#32 / (clockHz / clockHz) = 45#32
    rw [BitVec.udiv_self, if_neg (by simpa using hclock)]
    rfl
  have hc0 : 0#32 < p.ulTimerCountsForOneTick := hcount ▸ Nat.zero_lt_of_lt hc
  rcases cut_bounds (by rw [hp]; rfl) hc0 (hcount ▸ hc') hx with ⟨hpos, hle, hmul⟩
  have hmax : p.cut x ≤ p.xMaximumPossibleSuppressedTicks := by
    unfold Setup.cut
    split_ifs with h
    · exact BitVec.le_refl _
    · exact BitVec.not_lt.mp h
  rw [hcount] at hmul
  have hreload := reload_lt hcount hpos hentry
  rw [← hz] at hreload
  refine ⟨Nat.le_of_lt (Nat.lt_of_lt_of_le hreload hmul), ?_⟩
  cases hf : r.countFlag with
  | true =>
    rcases sleep_full hcount hpos hc hcomp hf hz with ⟨hticks, hload⟩
    exact ⟨Nat.le_trans hticks hle, Nat.le_trans hticks hmax, hload.1, hload.2, nofun⟩
  | false =>
    rcases sleep_early hcount hpos hc hmul hf hz (Nat.le_trans hcur (Nat.le_of_lt hreload)) with
      ⟨hticks, hone, hload, hkept⟩
    exact ⟨Nat.le_trans hticks hle, Nat.le_trans hticks hmax, hone, hload, fun _ => hkept⟩

/-- Woken after two ticks and a half of ten. -/
theorem sleep_conserves_early : ∃ p z, p = vPortSetupTimerInterrupt 168000000#32 1000#32 ∧
    z = vPortSuppressTicksAndSleep p 10#32 ⟨1000#32, false, 1260000#32⟩ ∧
    z.ulCompleteTickPeriods = 2#32 ∧ z.load = 84000#32 ∧
    2 * 168000 + (168000 - 84000) = (p.cut 10#32 * 168000#32 - 1260000#32).toNat :=
  ⟨_, _, rfl, rfl, by decide +kernel, by decide +kernel,
    (sleep_conserves 168000000#32 1000#32 _ 10#32 ⟨1000#32, false, 1260000#32⟩ _ _ rfl rfl
      (by decide) (by decide) (by decide) (by decide) rfl (by decide +kernel)).2.2.2.2.2 rfl⟩

end Honeycomb.Tickless
