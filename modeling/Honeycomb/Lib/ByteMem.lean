import Mathlib.Algebra.GroupWithZero.Nat

/-!
# Byte-Addressed Memory

A memory of bytes with 32-bit addresses, in which numbers of 16 and 32 bits are
stored with their low byte first. Addresses wrap around.

Everything that is said about a region of memory is said from a base address, in
offsets that are natural numbers. A store at one offset is seen at that offset
and leaves the bytes outside its own; `offset_ne_offset` is where the addresses
themselves are compared.

## Main definitions

* `Memory`: A byte for every address.
* `load16`, `load32`, `store8`, `store16`, `store32`: Numbers in memory.
* `fill`, `copy`: A whole region is written.
* `window`: The memory from a base address on.

## Theorems

* `load16_store16`, `load32_store32`: A number is read back.
* `window_store8`, `window_store16`, `window_store32`: A store leaves the other
  bytes.
* `load16_congr`, `load32_congr`: A number depends on its own bytes only.
* `window_fill`, `window_copy`: What the writing of a region does.
-/

namespace Honeycomb

open BitVec
open BitVec (ofNat)

/-- A byte for every address. -/
def Memory : Type :=
  BitVec 32 → BitVec 8

namespace Memory

variable (m : Memory) (a base : BitVec 32)

/-- A number of 16 bits, low byte first. -/
def load16 : BitVec 16 :=
  m (a + 1#32) ++ m a

/-- A number of 32 bits, low byte first. -/
def load32 : BitVec 32 :=
  (m (a + 3#32) ++ m (a + 2#32)) ++ (m (a + 1#32) ++ m a)

def store8 (v : BitVec 8) : Memory :=
  fun x => if x = a then v else m x

def store16 (v : BitVec 16) : Memory :=
  fun x =>
    if x = a then v.extractLsb' 0 8
    else if x = a + 1#32 then v.extractLsb' 8 8
    else m x

def store32 (v : BitVec 32) : Memory :=
  fun x =>
    if x = a then v.extractLsb' 0 8
    else if x = a + 1#32 then v.extractLsb' 8 8
    else if x = a + 2#32 then v.extractLsb' 16 8
    else if x = a + 3#32 then v.extractLsb' 24 8
    else m x

/-- Write one byte to every address of a region. -/
def fill (count : BitVec 32) (c : BitVec 8) : Memory :=
  fun x => if x - a < count then c else m x

/-- Write the bytes of one region to another. -/
def copy (src count : BitVec 32) : Memory :=
  fun x => if x - a < count then m (src + (x - a)) else m x

theorem load16_store16 {v : BitVec 16} : (m.store16 a v).load16 a = v := by
  have h1 : a + 1#32 ≠ a := by bv_omega
  simp only [load16, store16, if_neg h1, if_true]
  rw [extractLsb'_append_extractLsb'_eq_extractLsb' (by rfl), extractLsb'_eq_self]

theorem load32_store32 {v : BitVec 32} : (m.store32 a v).load32 a = v := by
  have h1 : a + 1#32 ≠ a := by bv_omega
  have h2 : a + 2#32 ≠ a ∧ a + 2#32 ≠ a + 1#32 := by
    constructor
    · bv_omega
    · bv_omega
  have h3 : a + 3#32 ≠ a ∧ a + 3#32 ≠ a + 1#32 ∧ a + 3#32 ≠ a + 2#32 := by
    refine ⟨?_, ?_, ?_⟩
    · bv_omega
    · bv_omega
    · bv_omega
  simp only [load32, store32, if_neg h1, if_neg h2.1, if_neg h2.2, if_neg h3.1, if_neg h3.2.1,
    if_neg h3.2.2, if_true]
  rw [extractLsb'_append_extractLsb'_eq_extractLsb' (by rfl),
    extractLsb'_append_extractLsb'_eq_extractLsb' (by rfl),
    extractLsb'_append_extractLsb'_eq_extractLsb' (by rfl), extractLsb'_eq_self]

/-- A store writes four bytes. -/
theorem store32_outside {v : BitVec 32} {x : BitVec 32} (hx : 4 ≤ (x - a).toNat) :
    m.store32 a v x = m x := by
  have h0 : x ≠ a := by bv_omega
  have h1 : x ≠ a + 1#32 := by bv_omega
  have h2 : x ≠ a + 2#32 := by bv_omega
  have h3 : x ≠ a + 3#32 := by bv_omega
  simp only [store32, if_neg h0, if_neg h1, if_neg h2, if_neg h3]

/-- A store is not seen by a load of other bytes, wherever they are. -/
theorem load32_store32_far {v b : BitVec 32} (hab : 4 ≤ (b - a).toNat) (hba : 4 ≤ (a - b).toNat) :
    (m.store32 a v).load32 b = m.load32 b := by
  unfold load32
  rw [store32_outside m a hab, store32_outside m a (by bv_omega),
    store32_outside m a (by bv_omega), store32_outside m a (by bv_omega)]

/-- The memory from a base address on, by natural numbers. -/
def window (o : Nat) : BitVec 8 :=
  m (base + ofNat 32 o)

section Window

variable (o o' : Nat)

/-- Different offsets are different addresses, if neither wraps around. -/
theorem offset_ne_offset (k : Nat) (ho : o' < 2 ^ 32) (hk : o + k < 2 ^ 32 := by omega)
    (hne : o' ≠ o + k := by omega) :
    base + ofNat 32 o' ≠ base + ofNat 32 o + ofNat 32 k := by
  intro h
  have hnat := congrArg BitVec.toNat h
  simp only [toNat_add, toNat_ofNat] at hnat
  omega

variable {m base o} in
theorem window_add {k : Nat} : m (base + ofNat 32 o + ofNat 32 k) = m.window base (o + k) := by
  unfold window
  rw [BitVec.add_assoc, ← ofNat_add]

/-- A number depends on its own bytes only. -/
theorem load16_congr {m' : Memory}
    (h : ∀ k, k < 2 → m'.window base (o + k) = m.window base (o + k)) :
    m'.load16 (base + ofNat 32 o) = m.load16 (base + ofNat 32 o) := by
  have h0 : m' (base + ofNat 32 o) = m (base + ofNat 32 o) := h 0 (by omega)
  have h1 := h 1 (by omega)
  rw [← window_add, ← window_add] at h1
  unfold load16
  rw [h0, h1]

variable {m base o} in
theorem load32_congr {m' : Memory}
    (h : ∀ k, k < 4 → m'.window base (o + k) = m.window base (o + k)) :
    m'.load32 (base + ofNat 32 o) = m.load32 (base + ofNat 32 o) := by
  have h0 : m' (base + ofNat 32 o) = m (base + ofNat 32 o) := h 0 (by omega)
  have h1 := h 1 (by omega)
  have h2 := h 2 (by omega)
  have h3 := h 3 (by omega)
  rw [← window_add, ← window_add] at h1 h2 h3
  unfold load32
  rw [h0, h1, h2, h3]

variable (ho' : o' < 2 ^ 32)
include ho'

variable {m base o o'} in
theorem window_store8 {v : BitVec 8} (ho : o < 2 ^ 32) :
    (m.store8 (base + ofNat 32 o) v).window base o' = if o' = o then v else m.window base o' := by
  unfold window store8
  by_cases heq : o' = o
  · rw [if_pos heq, heq, if_pos rfl]
  · have hne := offset_ne_offset base o o' 0 ho'
    rw [BitVec.add_zero] at hne
    rw [if_neg heq, if_neg hne]

variable {m base o o'} in
theorem window_store16 {v : BitVec 16} (ho : o + 2 ≤ 2 ^ 32) (hout : o' < o ∨ o + 2 ≤ o') :
    (m.store16 (base + ofNat 32 o) v).window base o' = m.window base o' := by
  unfold window store16
  have h0 := offset_ne_offset base o o' 0 ho'
  have h1 := offset_ne_offset base o o' 1 ho'
  rw [BitVec.add_zero] at h0
  rw [if_neg h0, if_neg h1]

variable {m base o o'} in
theorem window_store32 {v : BitVec 32} (ho : o + 4 ≤ 2 ^ 32) (hout : o' < o ∨ o + 4 ≤ o') :
    (m.store32 (base + ofNat 32 o) v).window base o' = m.window base o' := by
  unfold window store32
  have h0 := offset_ne_offset base o o' 0 ho'
  have h1 := offset_ne_offset base o o' 1 ho'
  have h2 := offset_ne_offset base o o' 2 ho'
  have h3 := offset_ne_offset base o o' 3 ho'
  rw [BitVec.add_zero] at h0
  rw [if_neg h0, if_neg h1, if_neg h2, if_neg h3]

/-- An address is in a region when the distance from its start, as the code
    computes it, is less than its length. -/
theorem sub_lt_iff {count : BitVec 32} (ho : o + count.toNat ≤ 2 ^ 32) :
    base + ofNat 32 o' - (base + ofNat 32 o) < count ↔ o ≤ o' ∧ o' < o + count.toNat := by
  rw [lt_def]
  simp only [toNat_sub, toNat_add, toNat_ofNat]
  omega

theorem window_fill (count : BitVec 32) (c : BitVec 8) (ho : o + count.toNat ≤ 2 ^ 32) :
    (m.fill (base + ofNat 32 o) count c).window base o'
      = if o ≤ o' ∧ o' < o + count.toNat then c else m.window base o' := by
  have hiff := sub_lt_iff base o o' ho' ho
  unfold window fill
  by_cases hin : o ≤ o' ∧ o' < o + count.toNat
  · rw [if_pos hin, if_pos (hiff.mpr hin)]
  · rw [if_neg hin, if_neg (fun hc => hin (hiff.mp hc))]

/-- Nothing outside the region is written, and inside it is what the source held. -/
theorem window_copy (src : Nat) (count : BitVec 32) (ho : o + count.toNat ≤ 2 ^ 32) :
    (m.copy (base + ofNat 32 o) (base + ofNat 32 src) count).window base o'
      = if o ≤ o' ∧ o' < o + count.toNat then m.window base (src + (o' - o))
        else m.window base o' := by
  have hiff := sub_lt_iff base o o' ho' ho
  unfold copy
  by_cases hin : o ≤ o' ∧ o' < o + count.toNat
  · have hdist : base + ofNat 32 o' - (base + ofNat 32 o) = ofNat 32 (o' - o) := by
      refine eq_of_toNat_eq ?_
      simp only [toNat_sub, toNat_add, toNat_ofNat]
      omega
    rw [if_pos hin, ← window_add, ← hdist]
    exact if_pos (hiff.mpr hin)
  · rw [if_neg hin]
    exact if_neg (fun hc => hin (hiff.mp hc))

omit ho'

end Window

end Memory

end Honeycomb
