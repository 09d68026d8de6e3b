import Mathlib.Data.Nat.Digits.Lemmas

/-!
# Numerals

Numbers written in a positional system, and read back from the left until something comes
that is no digit. What a symbol stands for, and which symbol stands for a digit, are two
functions, so the same holds for decimal and hexadecimal numerals and for any alphabet.

What is read depends on what comes after the numeral. It is the number that was written if
that is no digit, and it is larger otherwise.

## Main definitions

* `readNat`: The number a text starts with.
* `printNat`: The numeral of a number.
* `Stops`: A text does not start with a digit.

## Theorems

* `readNat_append`: Reading goes through a sequence of digits.
* `readNat_printNat`: What was written is read back.
* `le_readNat`: More digits make no smaller number.
* `mem_printNat`, `length_printNat_le`: The symbols of a numeral, and how many there are.
-/

namespace Honeycomb.Numeral

open List

variable {α : Type} (decode : α → Option Nat) (encode : Nat → α) (base : Nat) {text : List α}

/-- The number a text starts with, following digits of the value `acc`. -/
def readNat : Nat → List α → Nat
  | acc, [] => acc
  | acc, a :: as =>
    match decode a with
    | some d => readNat (acc * base + d) as
    | none => acc

/-- The numeral of a number, the most significant digit first. -/
def printNat (n : Nat) : List α :=
  if n = 0 then [encode 0] else ((Nat.digits base n).reverse).map encode

/-- The text does not start with a digit. -/
def Stops (text : List α) : Prop :=
  ∀ a ∈ text.head?, decode a = none

/-- The value of digits, the most significant first, following digits of the value `acc`. -/
theorem readNat_append {ds : List Nat} {acc : Nat} (hds : ∀ d ∈ ds, decode (encode d) = some d) :
    readNat decode base acc (ds.map encode ++ text) =
      readNat decode base (ds.foldl (fun acc d => acc * base + d) acc) text := by
  induction ds generalizing acc with
  | nil => rfl
  | cons d ds ih =>
    rw [map_cons, cons_append, readNat, hds d mem_cons_self]
    exact ih (fun d' hd' => hds d' (mem_cons_of_mem d hd'))

theorem readNat_stops {acc : Nat} (h : Stops decode text) : readNat decode base acc text = acc := by
  cases text with
  | nil => rfl
  | cons a as => rw [readNat, h a rfl]

/-- Folding from the left over the reversed digits gives the number back. -/
theorem foldl_digits (n : Nat) :
    (Nat.digits base n).reverse.foldl (fun acc d => acc * base + d) 0 = n := by
  rw [foldl_reverse]
  have h : (fun (d acc : Nat) => acc * base + d) = fun d acc => d + base * acc := by
    ext d acc
    rw [mul_comm, add_comm]
  have hfold := Nat.ofDigits_eq_foldr base (Nat.digits base n)
  rw [Nat.ofDigits_digits] at hfold
  rw [h]
  exact hfold.symm

/-- More digits make no smaller number. -/
theorem le_readNat (acc : Nat) (text : List α) (hbase : 0 < base) :
    acc ≤ readNat decode base acc text := by
  induction text generalizing acc with
  | nil => exact Nat.le_refl acc
  | cons a as ih =>
    rw [readNat]
    cases decode a with
    | none => exact Nat.le_refl acc
    | some d =>
      have hgrow : acc ≤ acc * base + d := by
        have := Nat.le_mul_of_pos_right acc hbase
        omega
      exact le_trans hgrow (ih _)

variable (hcode : ∀ d, d < base → decode (encode d) = some d)
include hcode

/-- A numeral is read as far as the number that was written. -/
theorem readNat_printNat_append {n : Nat} (hbase : 1 < base) :
    readNat decode base 0 (printNat encode base n ++ text) = readNat decode base n text := by
  unfold printNat
  split_ifs with hn
  · rw [hn, singleton_append, readNat, hcode 0 (by omega)]
    simp only [Nat.zero_mul, zero_add]
  · rw [readNat_append decode encode base (fun d hd => ?_), foldl_digits]
    exact hcode d (Nat.digits_lt_base hbase (mem_reverse.mp hd))

/-- What was written is read back if no digit follows. -/
theorem readNat_printNat (n : Nat) (hbase : 1 < base) (hstop : Stops decode text) :
    readNat decode base 0 (printNat encode base n ++ text) = n := by
  rw [readNat_printNat_append decode encode base hcode hbase, readNat_stops decode base hstop]

/-- A numeral has at least one digit, and its first symbol is one. -/
theorem printNat_cons (n : Nat) (hbase : 1 < base) :
    ∃ a as d, printNat encode base n = a :: as ∧ decode a = some d := by
  unfold printNat
  by_cases hn : n = 0
  · exact ⟨encode 0, [], 0, by rw [if_pos hn], hcode 0 (by omega)⟩
  have hne : (Nat.digits base n).reverse ≠ [] := by
    rw [ne_eq, reverse_eq_nil_iff, Nat.digits_eq_nil_iff_eq_zero]
    exact hn
  rcases exists_cons_of_ne_nil hne with ⟨d, ds, hd⟩
  refine ⟨encode d, ds.map encode, d, by rw [if_neg hn, hd, map_cons], hcode d ?_⟩
  refine Nat.digits_lt_base hbase (m := n) (mem_reverse.mp ?_)
  rw [hd]
  exact mem_cons_self

omit hcode

theorem mem_printNat (n : Nat) (a : α) (hbase : 1 < base) (ha : a ∈ printNat encode base n) :
    ∃ d, d < base ∧ a = encode d := by
  unfold printNat at ha
  split_ifs at ha with hn
  · rw [mem_singleton] at ha
    exact ⟨0, by omega, ha⟩
  · rw [mem_map] at ha
    rcases ha with ⟨d, hd, hda⟩
    exact ⟨d, Nat.digits_lt_base hbase (mem_reverse.mp hd), hda.symm⟩

theorem length_printNat_le (n k : Nat) (hbase : 1 < base) (hk : 0 < k) (hn : n < base ^ k) :
    (printNat encode base n).length ≤ k := by
  unfold printNat
  split_ifs with hz
  · exact hk
  · rw [length_map, length_reverse]
    exact (Nat.digits_length_le_iff hbase n).mpr hn

end Honeycomb.Numeral
