import Honeycomb.Theory.Ffs

/-!
# The Priority Bitmap

The bitmap of the ready table represents a set of priorities, in one word or in
two levels. Linking a thread adds its priority to the set, unlinking the last
thread of a priority takes it out, and the search for the first set bit finds
the least element. Which threads make a priority present is no concern of this
module.

The masks that are written come from the thread's cache. `Attr` says that the
cache is that of the current priority, and `Unmarked` that it is all zero, as
it is in a thread that has never been started; writing zero masks changes
nothing, which is why closing such a thread is harmless.

## Main definitions

* `BitmapRep`: The bitmap represents a set of priorities.

## Theorems

* `priorityAttribute_attr`: Recalculating the masks makes them agree.
* `bitmap_insert`: Setting a thread's bits adds its priority.
* `bitmap_remove`: Clearing a thread's bits takes its priority out.
* `bitmap_unmarked`: Clearing the bits of zero masks changes nothing.
* `highestReadyPriority_spec`: The search finds the least priority present.
-/

namespace Honeycomb

open Function

/-- The cached masks are those of the current priority. -/
def Attr (prioMax : Nat) (th : Thread) : Prop :=
  if 32 < prioMax then
    th.number = th.currentPriority >>> 3 ∧
      th.numberMask = 1#32 <<< (th.currentPriority >>> 3) ∧
      th.highMask = 1#8 <<< (th.currentPriority &&& 0x07)
  else th.numberMask = 1#32 <<< th.currentPriority

/-- The cached masks are those of a thread that was never started. -/
def Unmarked (th : Thread) : Prop :=
  th.number = 0 ∧ th.numberMask = 0#32 ∧ th.highMask = 0#8

/-- The bitmap has exactly the priorities of `S` in it. -/
def BitmapRep (prioMax : Nat) (group : BitVec 32) (table : Nat → BitVec 8) (S : Nat → Prop) :
    Prop :=
  if 32 < prioMax then
    (∀ p, p < 256 → ((table (p >>> 3)).getLsbD (p &&& 0x07) = true ↔ S p)) ∧
      ∀ n, n < 32 → (group.getLsbD n = true ↔ table n ≠ 0#8)
  else ∀ p, p < 32 → (group.getLsbD p = true ↔ S p)

variable (prioMax : Nat) (th : Thread)

theorem priorityAttribute_attr : Attr prioMax (priorityAttribute prioMax th) := by
  unfold Attr priorityAttribute
  by_cases hP : 32 < prioMax
  · rw [if_pos hP, if_pos hP]
    exact ⟨rfl, rfl, rfl⟩
  · rw [if_neg hP, if_neg hP]

@[simp]
theorem priorityAttribute_created : (priorityAttribute prioMax th).created = th.created := by
  unfold priorityAttribute
  split_ifs <;> rfl

@[simp]
theorem priorityAttribute_stat : (priorityAttribute prioMax th).stat = th.stat := by
  unfold priorityAttribute
  split_ifs <;> rfl

@[simp]
theorem priorityAttribute_currentPriority :
    (priorityAttribute prioMax th).currentPriority = th.currentPriority := by
  unfold priorityAttribute
  split_ifs <;> rfl

@[simp]
theorem priorityAttribute_initPriority :
    (priorityAttribute prioMax th).initPriority = th.initPriority := by
  unfold priorityAttribute
  split_ifs <;> rfl

@[simp]
theorem priorityAttribute_error : (priorityAttribute prioMax th).error = th.error := by
  unfold priorityAttribute
  split_ifs <;> rfl

theorem getLsbD_one_shiftLeft {w : Nat} {n j : Nat} (hn : n < w) :
    (1#w <<< n).getLsbD j = decide (j = n) := by
  rw [← BitVec.twoPow_eq, BitVec.getLsbD_twoPow, decide_eq_true hn, Bool.true_and]
  exact decide_eq_decide.mpr eq_comm

theorem getLsbD_set {w : Nat} (x : BitVec w) {n j : Nat} (hn : n < w) :
    (x ||| 1#w <<< n).getLsbD j = true ↔ x.getLsbD j = true ∨ j = n := by
  rw [BitVec.getLsbD_or, Bool.or_eq_true, getLsbD_one_shiftLeft hn, decide_eq_true_eq]

theorem getLsbD_clear {w : Nat} {x : BitVec w} {n j : Nat} (hn : n < w) (hj : j < w) :
    (x &&& ~~~(1#w <<< n)).getLsbD j = true ↔ x.getLsbD j = true ∧ j ≠ n := by
  rw [BitVec.getLsbD_and, BitVec.getLsbD_not, decide_eq_true hj, Bool.true_and,
    getLsbD_one_shiftLeft hn, Bool.and_eq_true, Bool.not_eq_true', decide_eq_false_iff_not]

theorem and_seven (p : Nat) : p &&& 0x07 = p % 8 :=
  Nat.and_two_pow_sub_one_eq_mod p 3

theorem shiftRight_three (p : Nat) : p >>> 3 = p / 8 :=
  Nat.shiftRight_eq_div_pow p 3

theorem bit_eq_iff {p q : Nat} (h : p >>> 3 = q >>> 3) : p &&& 0x07 = q &&& 0x07 ↔ p = q := by
  rw [and_seven, and_seven]
  omega

section Bits

variable {prioMax : Nat} {group : BitVec 32} {table : Nat → BitVec 8} {S : Nat → Prop} {th : Thread}

variable (hr : BitmapRep prioMax group table S)
include hr

theorem bitmap_congr {S' : Nat → Prop} (hS : ∀ p, S p ↔ S' p) :
    BitmapRep prioMax group table S' := by
  rw [← (funext fun p => propext (hS p) : S = S')]
  exact hr

theorem bitmap_insert (hP : prioMax ≤ 256) (hc : th.currentPriority < prioMax)
    (ha : Attr prioMax th) :
    BitmapRep prioMax (group ||| th.numberMask)
      (if 32 < prioMax then
        update table th.number (table th.number ||| th.highMask) else table)
      (fun p => p = th.currentPriority ∨ S p) := by
  unfold BitmapRep Attr at *
  by_cases hL : 32 < prioMax
  · simp only [if_pos hL] at ha hr ⊢
    rcases ha with ⟨hnum, hmask, hhigh⟩
    rcases hr with ⟨htab, hgrp⟩
    have hn32 : th.currentPriority >>> 3 < 32 := by omega
    have hb8 : th.currentPriority &&& 0x07 < 8 := by rw [and_seven]; omega
    rw [hnum, hmask, hhigh]
    constructor
    · intro p hp
      by_cases hpn : p >>> 3 = th.currentPriority >>> 3
      · -- The byte that is written: one bit of it is new.
        rw [hpn, update_self, getLsbD_set _ hb8, ← hpn, htab p hp, or_comm, bit_eq_iff hpn]
      · rw [update_of_ne hpn, htab p hp]
        have hne : p ≠ th.currentPriority := fun h => hpn (by rw [h])
        exact ⟨.inr, fun h => h.resolve_left hne⟩
    intro n hn
    rw [getLsbD_set _ hn32, hgrp n hn]
    by_cases hnn : n = th.currentPriority >>> 3
    · rw [hnn, update_self]
      refine ⟨fun _ => ?_, fun _ => .inr rfl⟩
      exact ne_zero_iff_getLsbD.mpr ⟨_, hb8, (getLsbD_set _ hb8).mpr (.inr rfl)⟩
    · rw [update_of_ne hnn]
      exact ⟨fun h => h.resolve_right hnn, .inl⟩
  · simp only [if_neg hL] at ha hr ⊢
    intro p hp
    rw [ha, getLsbD_set _ (by omega), hr p hp, or_comm]

/-- Clearing the bits of a thread takes its priority out of the set, the byte
    of the two-level layout deciding whether the group bit goes too. -/
theorem bitmap_remove (hP : prioMax ≤ 256) (hc : th.currentPriority < prioMax)
    (ha : Attr prioMax th) :
    let byte := table th.number &&& ~~~th.highMask
    BitmapRep prioMax
      (if 32 < prioMax then
        if byte = 0 then group &&& ~~~th.numberMask else group
       else group &&& ~~~th.numberMask)
      (if 32 < prioMax then update table th.number byte else table)
      (fun p => p ≠ th.currentPriority ∧ S p) := by
  intro byte
  unfold BitmapRep Attr at *
  by_cases hL : 32 < prioMax
  · simp only [if_pos hL] at ha hr ⊢
    rcases ha with ⟨hnum, hmask, hhigh⟩
    rcases hr with ⟨htab, hgrp⟩
    have hn32 : th.currentPriority >>> 3 < 32 := by omega
    have hb8 : th.currentPriority &&& 0x07 < 8 := by rw [and_seven]; omega
    constructor
    · intro p hp
      rw [hnum]
      by_cases hpn : p >>> 3 = th.currentPriority >>> 3
      · have hp8 : p &&& 0x07 < 8 := by rw [and_seven]; omega
        rw [hpn, update_self]
        simp only [byte]
        rw [hnum, hhigh, getLsbD_clear hb8 hp8, ← hpn, htab p hp, and_comm, ne_eq, bit_eq_iff hpn]
      · rw [update_of_ne hpn, htab p hp]
        have hne : p ≠ th.currentPriority := fun h => hpn (by rw [h])
        exact ⟨fun h => ⟨hne, h⟩, fun h => h.2⟩
    intro n hn
    rw [hnum, hmask]
    split_ifs with hz
    · rw [getLsbD_clear hn32 hn, hgrp n hn]
      by_cases hnn : n = th.currentPriority >>> 3
      · rw [hnn, update_self]
        exact ⟨fun h => absurd rfl h.2, fun h => absurd hz h⟩
      · rw [update_of_ne hnn]
        exact ⟨fun h => h.1, fun h => ⟨h, hnn⟩⟩
    rw [hgrp n hn]
    by_cases hnn : n = th.currentPriority >>> 3
    · -- The byte had a bit besides the cleared one, so it was not zero.
      rw [hnn, update_self]
      refine ⟨fun _ => hz, fun _ hc0 => hz ?_⟩
      simp only [byte]
      rw [hnum, hc0]
      exact BitVec.zero_and
    · rw [update_of_ne hnn]
  · simp only [if_neg hL] at ha hr ⊢
    intro p hp
    rw [ha, getLsbD_clear (by omega) hp, hr p hp, and_comm]

theorem bitmap_unmarked (hu : Unmarked th) :
    let byte := table th.number &&& ~~~th.highMask
    BitmapRep prioMax
      (if 32 < prioMax then
        if byte = 0 then group &&& ~~~th.numberMask else group
       else group &&& ~~~th.numberMask)
      (if 32 < prioMax then update table th.number byte else table) S := by
  intro byte
  rcases hu with ⟨_, hmask, hhigh⟩
  have hbyte : byte = table th.number := by
    simp only [byte]
    rw [hhigh, BitVec.not_zero, BitVec.and_allOnes]
  have hgroup : group &&& ~~~th.numberMask = group := by
    rw [hmask, BitVec.not_zero, BitVec.and_allOnes]
  rw [hbyte, hgroup, ite_self, ite_self, update_eq_self, ite_self]
  exact hr

end Bits

/-- The lowest set bit of the wrapped-around search result. -/
theorem ffs_index {v : BitVec 32} (hv : v ≠ 0#32) :
    ∃ i, i < 32 ∧ (rtFfs v + (2 ^ 32 - 1)) % 2 ^ 32 = i ∧ LowestSet v i := by
  rcases rtFfs_spec v hv with ⟨i, hi, hffs, hlow⟩
  exact ⟨i, hi, by omega, hlow⟩

theorem highestReadyPriority_spec {Q : Type} {prioMax : Nat} {k : Kernel Q} {S : Nat → Prop}
    (hP : prioMax ≤ 256) (hr : BitmapRep prioMax k.readyPriorityGroup k.readyTable S)
    (hS : ∀ p, S p → p < prioMax) (hne : ∃ p, S p) :
    S (highestReadyPriority prioMax k) ∧ ∀ p, S p → highestReadyPriority prioMax k ≤ p := by
  rcases hne with ⟨q, hq⟩
  have hqP := hS q hq
  unfold highestReadyPriority
  unfold BitmapRep at hr
  split_ifs at hr with hL
  · rw [if_neg (by omega)]
    rcases hr with ⟨htab, hgrp⟩
    -- The bit of `q` makes its byte, and through it the group, non-zero.
    have hgroup : ∀ p, S p → k.readyPriorityGroup.getLsbD (p / 8) = true := by
      intro p hp
      have hpP := hS p hp
      refine (hgrp (p / 8) (by omega)).mpr (ne_zero_iff_getLsbD.mpr ⟨p % 8, by omega, ?_⟩)
      have h := (htab p (by omega)).mpr hp
      rwa [shiftRight_three, and_seven] at h
    rcases ffs_index (ne_zero_iff_getLsbD.mpr ⟨q / 8, by omega, hgroup q hq⟩) with
      ⟨n, hn, hnum, hnlow⟩
    simp only [hnum]
    have hbit : ∀ m, m < 32 → ((k.readyTable n).setWidth 32).getLsbD m
        = (k.readyTable n).getLsbD m := by
      intro m hm
      rw [BitVec.getLsbD_setWidth, decide_eq_true hm, Bool.true_and]
    rcases ne_zero_iff_getLsbD.mp ((hgrp n hn).mp hnlow.1) with ⟨j, hj, hjbit⟩
    have hwide : (k.readyTable n).setWidth 32 ≠ 0#32 :=
      ne_zero_iff_getLsbD.mpr ⟨j, by omega, (hbit j (by omega)).trans hjbit⟩
    rcases rtFfs_spec _ hwide with ⟨i, hi, hffs, hilow⟩
    have hi8 : i < 8 := BitVec.lt_of_getLsbD ((hbit i hi).symm.trans hilow.1)
    have hval : ((n <<< 3) + rtFfs ((k.readyTable n).setWidth 32) + (2 ^ 32 - 1)) % 2 ^ 32
        = 8 * n + i := by
      omega
    rw [hval]
    constructor
    · refine (htab (8 * n + i) (by omega)).mp ?_
      rw [shiftRight_three, and_seven, show (8 * n + i) / 8 = n by omega,
        show (8 * n + i) % 8 = i by omega, ← hbit i hi]
      exact hilow.1
    intro p hp
    have hpP := hS p hp
    -- A smaller priority would have a lower bit, in this byte or before it.
    have hn := hnlow.le (hgroup p hp)
    by_cases hpn : p / 8 = n
    · have h := (htab p (by omega)).mpr hp
      rw [shiftRight_three, and_seven, hpn, ← hbit (p % 8) (by omega)] at h
      have hlow := hilow.le h
      omega
    · omega
  · rw [if_pos (by omega)]
    have hset : ∀ p, S p → k.readyPriorityGroup.getLsbD p = true := fun p hp =>
      (hr p (by have := hS p hp; omega)).mpr hp
    rcases ffs_index (ne_zero_iff_getLsbD.mpr ⟨q, by omega, hset q hq⟩) with ⟨i, hi, hval, hlow⟩
    rw [hval]
    exact ⟨(hr i hi).mp hlow.1, fun p hp => hlow.le (hset p hp)⟩

end Honeycomb
