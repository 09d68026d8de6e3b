import Honeycomb.Core.Scheduler
import Mathlib.Tactic.IntervalCases

/-!
# Find First Set

The table-driven search for the lowest set bit. The word is cut into bytes, the
first byte that is not zero is looked up, and the position of the byte is
added. The table itself is checked entry by entry; everything above it is the
argument that the bytes are looked at in the right order.

## Main definitions

* `LowestSet`: A bit of a word is set and no lower one is.

## Theorems

* `lowestBit_spec`: The table holds the lowest bit of each byte.
* `rtFfs_spec`: A non-zero word's first set bit is found.
-/

namespace Honeycomb

open BitVec

/-- Bit `i` of the word is set, and no lower bit is. -/
def LowestSet (v : BitVec 32) (i : Nat) : Prop :=
  v.getLsbD i = true ∧ ∀ j, j < i → v.getLsbD j = false

theorem LowestSet.le {v : BitVec 32} {i j : Nat} (h : LowestSet v i) (hj : v.getLsbD j = true) :
    i ≤ j := by
  by_contra hlt
  rw [h.2 j (Nat.lt_of_not_le hlt)] at hj
  exact nomatch hj

/-- The table is right for every byte but zero, whose entry is never used. -/
theorem lowestBitBitmap_spec : ∀ b, b < 256 → b ≠ 0 →
    lowestBitBitmap.getD b 0 < 8 ∧ b.testBit (lowestBitBitmap.getD b 0) = true ∧
      ∀ j, j < lowestBitBitmap.getD b 0 → b.testBit j = false := by
  decide +kernel

theorem lowestBit_spec {b : BitVec 32} (hlt : b.toNat < 256) (hne : b ≠ 0#32) :
    lowestBit b < 8 ∧ LowestSet b (lowestBit b) := by
  have hne' : b.toNat ≠ 0 := by
    intro hc
    exact hne (eq_of_toNat_eq (by rw [hc]; rfl))
  rcases lowestBitBitmap_spec b.toNat hlt hne' with ⟨h8, hset, hlow⟩
  exact ⟨h8, hset, hlow⟩

theorem ne_zero_iff_getLsbD {w : Nat} {b : BitVec w} :
    b ≠ 0#w ↔ ∃ j, j < w ∧ b.getLsbD j = true := by
  rw [ne_eq, eq_of_getLsbD_eq_iff]
  simp

variable (v mask : BitVec 32) (k j : Nat)

variable (hmask : ∀ j, mask.getLsbD j = (decide (k ≤ j) && decide (j < k + 8)))
include hmask

theorem getLsbD_byte (j : Nat) : ((v &&& mask) >>> k).getLsbD j =
    (v.getLsbD (k + j) && decide (j < 8)) := by
  rw [getLsbD_ushiftRight, getLsbD_and, hmask]
  by_cases hj : j < 8
  · simp only [Nat.le_add_right, decide_true, Nat.add_lt_add_iff_left, hj, Bool.and_self]
  · simp only [Nat.add_lt_add_iff_left, hj, decide_false, Bool.and_false]

theorem toNat_byte_lt : ((v &&& mask) >>> k).toNat < 256 := by
  refine Nat.lt_pow_two_of_testBit (n := 8) _ (fun j hj => ?_)
  have hbit := getLsbD_byte v mask k hmask j
  rw [BitVec.getLsbD] at hbit
  rw [hbit, decide_eq_false (by omega), Bool.and_false]

/-- Where the lower bytes are zero, the lowest set bit of the next byte is the
    lowest of the word. -/
theorem lowestSet_byte (hlow : ∀ j, j < k → v.getLsbD j = false) (hne : v &&& mask ≠ 0#32) :
    LowestSet v (k + lowestBit ((v &&& mask) >>> k)) := by
  have hbyte : (v &&& mask) >>> k ≠ 0#32 := by
    rcases ne_zero_iff_getLsbD.mp hne with ⟨j, hj, hbit⟩
    simp only [getLsbD_and, hmask, Bool.and_eq_true, decide_eq_true_eq] at hbit
    refine ne_zero_iff_getLsbD.mpr ⟨j - k, by omega, ?_⟩
    rw [getLsbD_byte v mask k hmask, Nat.add_sub_cancel' hbit.2.1, hbit.1,
      decide_eq_true (by omega), Bool.and_self]
  rcases lowestBit_spec (toNat_byte_lt v mask k hmask) hbyte with ⟨h8, hset, hmin⟩
  constructor
  · have hbit := getLsbD_byte v mask k hmask (lowestBit ((v &&& mask) >>> k))
    rw [hset, decide_eq_true h8, Bool.and_true] at hbit
    exact hbit.symm
  intro j hj
  by_cases hjk : j < k
  · exact hlow j hjk
  -- The bit lies in this byte, below the one the table names.
  have hlt : j - k < lowestBit ((v &&& mask) >>> k) := by omega
  have hbit := getLsbD_byte v mask k hmask (j - k)
  rw [hmin (j - k) hlt, decide_eq_true (by omega), Bool.and_true,
    Nat.add_sub_cancel' (by omega)] at hbit
  exact hbit.symm

/-- A byte that is zero extends the low bits that are. -/
theorem low_zero_byte (hlow : ∀ j, j < k → v.getLsbD j = false) (hz : v &&& mask = 0#32) (j : Nat)
    (hj : j < k + 8) : v.getLsbD j = false := by
  by_cases hjk : j < k
  · exact hlow j hjk
  have hbit := getLsbD_and (x := v) (y := mask) (i := j)
  rw [hz, getLsbD_zero, hmask, decide_eq_true (Nat.le_of_not_lt hjk), decide_eq_true hj,
    Bool.and_true, Bool.and_true] at hbit
  exact hbit.symm

omit hmask

theorem mask_byte (m : BitVec 32) (k : Nat)
    (h32 : ∀ j, j < 32 → m.getLsbD j = (decide (k ≤ j) && decide (j < k + 8)))
    (hk : k + 8 ≤ 32) (j : Nat) :
    m.getLsbD j = (decide (k ≤ j) && decide (j < k + 8)) := by
  by_cases hj : j < 32
  · exact h32 j hj
  · rw [getLsbD_of_ge m j (by omega), decide_eq_false (p := j < k + 8) (by omega), Bool.and_false]

theorem mask_byte0 : (0xff#32).getLsbD j = (decide (0 ≤ j) && decide (j < 0 + 8)) :=
  mask_byte 0xff#32 0 (by decide) (by decide) j

theorem mask_byte1 : (0xff00#32).getLsbD j = (decide (8 ≤ j) && decide (j < 8 + 8)) :=
  mask_byte 0xff00#32 8 (by decide) (by decide) j

theorem mask_byte2 : (0xff0000#32).getLsbD j = (decide (16 ≤ j) && decide (j < 16 + 8)) :=
  mask_byte 0xff0000#32 16 (by decide) (by decide) j

theorem mask_byte3 : (0xff000000#32).getLsbD j = (decide (24 ≤ j) && decide (j < 24 + 8)) :=
  mask_byte 0xff000000#32 24 (by decide) (by decide) j

theorem rtFfs_spec (hv : v ≠ 0#32) : ∃ i, i < 32 ∧ rtFfs v = i + 1 ∧ LowestSet v i := by
  -- Every set bit is below 32, so only the value of the result is at stake.
  have hbound : ∀ i, LowestSet v i → i < 32 := fun i hi => lt_of_getLsbD hi.1
  have hnone : ∀ j, j < 0 → v.getLsbD j = false := fun j hj => by omega
  unfold rtFfs
  rw [if_neg hv]
  by_cases h0 : v &&& 0xff#32 ≠ 0#32
  · rw [if_pos h0]
    have hset := lowestSet_byte v 0xff#32 0 mask_byte0 hnone h0
    rw [ushiftRight_zero, zero_add] at hset
    exact ⟨_, hbound _ hset, rfl, hset⟩
  rw [if_neg h0]
  have hlow8 := low_zero_byte v 0xff#32 0 mask_byte0 hnone (not_not.mp h0)
  by_cases h1 : v &&& 0xff00#32 ≠ 0#32
  · rw [if_pos h1]
    have hset := lowestSet_byte v 0xff00#32 8 mask_byte1 hlow8 h1
    exact ⟨_, hbound _ hset, by omega, hset⟩
  rw [if_neg h1]
  have hlow16 := low_zero_byte v 0xff00#32 8 mask_byte1 hlow8 (not_not.mp h1)
  by_cases h2 : v &&& 0xff0000#32 ≠ 0#32
  · rw [if_pos h2]
    have hset := lowestSet_byte v 0xff0000#32 16 mask_byte2 hlow16 h2
    exact ⟨_, hbound _ hset, by omega, hset⟩
  rw [if_neg h2]
  have hlow24 := low_zero_byte v 0xff0000#32 16 mask_byte2 hlow16 (not_not.mp h2)
  -- The last byte is not tested: the word would be zero without it.
  have h3 : v &&& 0xff000000#32 ≠ 0#32 := by
    intro hc
    rcases ne_zero_iff_getLsbD.mp hv with ⟨j, hj, hbit⟩
    rw [low_zero_byte v 0xff000000#32 24 mask_byte3 hlow24 hc j hj] at hbit
    exact nomatch hbit
  have hset := lowestSet_byte v 0xff000000#32 24 mask_byte3 hlow24 h3
  exact ⟨_, hbound _ hset, by omega, hset⟩

example : rtFfs 0x00880000#32 = 20 := by decide

end Honeycomb
