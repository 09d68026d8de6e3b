import Honeycomb.Lib.ByteMem

/-!
# Records in Memory

Records of 32-bit fields in a byte-addressed memory. A record is known by its
address alone, and a program that follows links from one to another writes fields
of records it has not looked at before. What such a write leaves depends on the
records not overlapping: on a set of addresses that are far enough apart from each
other, writing a field is the update of one value, and everything else is as it
was (`get_set`).

Addresses wrap around, and so does the distance between them. `Apart` asks for both
distances.

## Main definitions

* `Format`: Where the fields of a record are.
* `get`, `set`: A field of the record at an address.
* `Apart`: Two records do not overlap.
* `Outside`: A byte is not in a record.
* `Separate`: No two records of a set overlap.

## Theorems

* `set_outside`: Bytes outside the record are not written.
* `get_set`: What is read after a field of a separate set of records is written.
-/

namespace Honeycomb

open BitVec

/-- Where the fields of a record are. -/
structure Format (F : Type) where
  size : Nat
  off : F → Nat
  fits : ∀ f, off f + 4 ≤ size
  apart : ∀ f g, f ≠ g → off f + 4 ≤ off g ∨ off g + 4 ≤ off f
  small : size ≤ 2 ^ 31

namespace Format

variable {F : Type} (fmt : Format F) (m : Memory) (f g : F) (a b v : BitVec 32)

/-- A field of the record at an address. -/
def get : BitVec 32 :=
  m.load32 (a + BitVec.ofNat 32 (fmt.off f))

/-- Write a field of the record at an address. -/
def set : Memory :=
  m.store32 (a + BitVec.ofNat 32 (fmt.off f)) v

/-- The records at two addresses do not overlap. -/
def Apart : Prop :=
  fmt.size ≤ (b - a).toNat ∧ fmt.size ≤ (a - b).toNat

/-- The byte at `b` is not in the record at `a`. -/
def Outside : Prop :=
  fmt.size ≤ (b - a).toNat

/-- No two records of a set overlap. -/
def Separate (S : BitVec 32 → Prop) : Prop :=
  ∀ a b, S a → S b → a ≠ b → fmt.Apart a b

theorem apart_symm (h : fmt.Apart a b) : fmt.Apart b a :=
  ⟨h.2, h.1⟩

/-- The distance between two fields. -/
theorem field_sub (o o' : Nat) (ho : o < 2 ^ 31 := by omega) :
    ((b + BitVec.ofNat 32 o') - (a + BitVec.ofNat 32 o)).toNat
      = ((b - a).toNat + o' + (2 ^ 32 - o)) % 2 ^ 32 := by
  simp only [toNat_sub, toNat_add, toNat_ofNat]
  omega

/-- Bytes outside the record are not written. -/
theorem set_outside (h : fmt.Outside a b) : fmt.set m f a v b = m b := by
  have hfits := fmt.fits f
  have hsmall := fmt.small
  have hsub := field_sub a b (fmt.off f) 0
  unfold Outside at h
  rw [BitVec.add_zero] at hsub
  refine Memory.store32_outside m _ ?_
  omega

theorem get_set_same : fmt.get (fmt.set m f a v) f a = v :=
  Memory.load32_store32 m _

theorem get_set_field (hne : f ≠ g) : fmt.get (fmt.set m f a v) g a = fmt.get m g a := by
  have hf := fmt.fits f
  have hg := fmt.fits g
  have hsmall := fmt.small
  have hsub := field_sub a a (fmt.off f) (fmt.off g)
  have hsub' := field_sub a a (fmt.off g) (fmt.off f)
  rw [BitVec.sub_self] at hsub hsub'
  change _ = (0 + _ + _) % _ at hsub hsub'
  have hapart := fmt.apart f g hne
  exact Memory.load32_store32_far m _ (by omega) (by omega)

theorem get_set_apart (h : fmt.Apart a b) : fmt.get (fmt.set m f a v) g b = fmt.get m g b := by
  have hf := fmt.fits f
  have hg := fmt.fits g
  have hsmall := fmt.small
  have hsub := field_sub a b (fmt.off f) (fmt.off g)
  have hsub' := field_sub b a (fmt.off g) (fmt.off f)
  have hsum : (b - a).toNat + (a - b).toNat = 2 ^ 32 ∨ (b - a).toNat + (a - b).toNat = 0 := by
    have ha := a.isLt
    have hb := b.isLt
    simp only [toNat_sub]
    omega
  rcases h with ⟨hab, hba⟩
  exact Memory.load32_store32_far m _ (by omega) (by omega)

/-- Among records that do not overlap, one field of one record is written. -/
theorem get_set [DecidableEq F] {S : BitVec 32 → Prop} (hS : fmt.Separate S) (ha : S a) (hb : S b) :
    fmt.get (fmt.set m f a v) g b = if f = g ∧ a = b then v else fmt.get m g b := by
  by_cases hab : a = b
  · subst hab
    by_cases hfg : f = g
    · subst hfg
      rw [if_pos ⟨rfl, rfl⟩]
      exact get_set_same fmt m f a v
    · rw [if_neg (fun hc => hfg hc.1)]
      exact get_set_field fmt m f g a v hfg
  · rw [if_neg (fun hc => hab hc.2)]
    exact get_set_apart fmt m f g a b v (hS a b ha hb hab)

end Format

end Honeycomb
