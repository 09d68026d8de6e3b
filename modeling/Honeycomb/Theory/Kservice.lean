import Honeycomb.Core.Kservice
import Honeycomb.Theory.HeapShape

/-!
# Aligned Allocation is Right, and What is Printed

In both of its cases the code takes the first multiple of the alignment behind the start of the
block. The start is a multiple of four, and so is the alignment after it is rounded up. So there
are at least four bytes before the result, and as many behind it as were asked for.

What is printed goes to the console as it is, as long as the terminator has room behind it in a
buffer that is one byte smaller than the real one. Longer text is cut there, but the terminator
is counted to it.

## Theorems

* `malloc_align`: It is aligned, inside the block, and leads back to it.
* `kprintf_exact`, `kprintf_terminator`: When the text is written, and what is not right in it
  otherwise.
-/

namespace Honeycomb

open BitVec SmallMem

/-- A result with its memory is null if the block is. If not, it is aligned, it has its bytes and
    the word before them in the block, and whatever is written to its bytes, the block is what is
    freed. -/
def AlignedIn (size align n ptr : BitVec 32) (r : Memory × BitVec 32) : Prop :=
  (r.2 = 0#32 ↔ ptr = 0#32) ∧ (ptr ≠ 0#32 →
    align.toNat ∣ r.2.toNat ∧ ptr.toNat + 4 ≤ r.2.toNat ∧
    r.2.toNat + size.toNat ≤ ptr.toNat + n.toNat ∧
    ∀ m : Memory, (∀ a : BitVec 32, a.toNat < r.2.toNat ∨ r.2.toNat + size.toNat ≤ a.toNat →
      m a = r.1 a) → rtFreeAlign m r.2 = ptr)

variable {ptr align : BitVec 32} {k : Nat} (halign : align.toNat = 2 ^ k)
include halign

theorem alignedPtr_toNat (hroom : ptr.toNat + align.toNat < 2 ^ 32) :
    (alignedPtr ptr align).toNat = (ptr.toNat / 2 ^ k + 1) * 2 ^ k := by
  have hlow := low_toNat ptr halign
  have hsplit := Nat.div_add_mod' ptr.toNat (2 ^ k)
  rw [alignedPtr, Nat.add_mul, Nat.one_mul]
  split_ifs with hzero
  · rw [hzero] at hlow
    bv_omega
  · have hnext : (ptr + (align - 1#32)).toNat =
        ptr.toNat % 2 ^ k - 1 + (ptr.toNat / 2 ^ k + 1) * 2 ^ k := by
      rw [Nat.add_mul, Nat.one_mul]
      bv_omega
    rw [mask_toNat _ halign, hnext, Nat.add_mul_div_right _ _ (Nat.two_pow_pos k),
      Nat.div_eq_of_lt (by omega), Nat.zero_add, Nat.add_mul, Nat.one_mul]

/-- An alignment of one or two bytes becomes one of four, and all others stay. -/
theorem rtAlign_pow :
    ∃ j, 2 ≤ j ∧ k ≤ j ∧ (rtAlign align).toNat = 2 ^ j ∧ 2 ^ j ≤ align.toNat + 3 := by
  have hlt := align.isLt
  have hround := rtAlign_toNat align
  rw [halign] at hlt hround ⊢
  rcases k with _ | _ | k
  · exact ⟨2, le_rfl, by omega, hround, by decide⟩
  · exact ⟨2, le_rfl, by omega, hround, by decide⟩
  · refine ⟨k + 2, by omega, le_rfl, hround.trans ?_, Nat.le_add_right _ _⟩
    rw [Nat.pow_add] at hlt ⊢
    omega

/-- An aligned allocation is right, for every power of two, for every heap whose blocks start at
    multiples of four and are as large as asked for, with an address behind their end. -/
theorem malloc_align (rtMalloc : BitVec 32 → BitVec 32) (m : Memory) (size n : BitVec 32)
    (hsize : size.toNat + align.toNat + 8 < 2 ^ 32) (hn : n = rtAlign size + rtAlign align)
    (hptr : rtMalloc n = ptr)
    (hblock : ptr ≠ 0#32 → ptr.toNat % 4 = 0 ∧ ptr.toNat + n.toNat < 2 ^ 32) :
    AlignedIn size align n ptr (rtMallocAlign rtMalloc m size align) := by
  simp only [rtMallocAlign, ← hn, hptr]
  by_cases hnull : ptr = 0#32
  · rw [if_neg (not_not_intro hnull)]
    exact ⟨Iff.rfl, fun h => absurd hnull h⟩
  rw [if_pos hnull]
  rcases hblock hnull with ⟨hmod, hroom⟩
  rcases rtAlign_pow halign with ⟨j, hj, hkj, halign', hle⟩
  have hcount : n.toNat = (size.toNat + 3) / 4 * 4 + 2 ^ j := by
    rw [hn, toNat_add, halign', rtAlign_toNat]
    omega
  have hp := alignedPtr_toNat halign' (show ptr.toNat + (rtAlign align).toNat < 2 ^ 32 by omega)
  generalize alignedPtr ptr (rtAlign align) = p at *
  -- The block and the alignment are multiples of four, so there is room for the pointer.
  have hplace : ptr.toNat + 4 ≤ p.toNat ∧ p.toNat ≤ ptr.toNat + 2 ^ j := by
    have hfour : 4 ∣ 2 ^ j := Nat.pow_dvd_pow 2 hj
    have hmods := Nat.mod_mod_of_dvd ptr.toNat hfour
    have hsplit := Nat.div_add_mod' ptr.toNat (2 ^ j)
    rw [hp, Nat.add_mul]
    omega
  refine ⟨iff_of_false (fun h => ?_) hnull, fun _ => ⟨?_, hplace.1, ?_, fun m' hsame => ?_⟩⟩
  · rw [show p = 0#32 from h] at hplace
    exact absurd hplace.1 (Nat.not_succ_le_zero _)
  · rw [hp, halign]
    exact Nat.dvd_mul_left_of_dvd (Nat.pow_dvd_pow 2 hkj) _
  · dsimp only
    omega
  · refine Eq.trans ?_ (Memory.load32_store32 m (p - 4#32))
    unfold rtFreeAlign Memory.load32
    rw [hsame _ (.inl (by bv_omega)), hsame _ (.inl (by bv_omega)), hsame _ (.inl (by bv_omega)),
      hsame _ (.inl (by bv_omega))]

omit halign

/-- A hundred bytes at a multiple of 64, in a block that starts at none. -/
theorem malloc_align_hundred : AlignedIn 100#32 64#32 164#32 0x20000010#32
    (rtMallocAlign (fun _ => 0x20000010#32) (fun _ => 0#8) 100#32 64#32) :=
  malloc_align (k := 6) rfl _ _ _ _ (by decide) rfl rfl (by decide)

section Console

open List Function

variable {last size : Nat} {buf : Nat → BitVec 8} {text : List OutChar}

theorem putOut_cases (s : (Nat → BitVec 8) × Nat) (c : OutChar) :
    ∃ m, putOut last s c = (if s.2 ≤ last then update s.1 s.2 c.char else s.1, m) ∧
      s.2 < m ∧ (s.2 ≤ last → m = s.2 + 1) := by
  unfold putOut putChar
  split_ifs with hsign hroom
  · exact absurd hroom hsign.2
  · exact ⟨s.2 + 2, rfl, by omega, fun h => absurd h hroom⟩
  · exact ⟨s.2 + 1, rfl, by omega, fun _ => rfl⟩
  · exact ⟨s.2 + 1, rfl, by omega, fun _ => rfl⟩

/-- What the cells hold after some text has been put from a place on, and how far it has come. -/
theorem putOut_foldl (n : Nat) : ∃ m, n + text.length ≤ m ∧
    (n + text.length ≤ last + 1 → m = n + text.length) ∧
    text.foldl (putOut last) (buf, n) = (fun i =>
      if n ≤ i ∧ i ≤ last then (text[i - n]?.map (·.char)).getD (buf i) else buf i, m) := by
  induction text generalizing buf n with
  | nil =>
    refine ⟨n, le_rfl, fun _ => rfl, ?_⟩
    simp only [foldl_nil, getElem?_nil, Option.map_none, Option.getD_none, ite_self]
  | cons c text ih =>
    rcases @putOut_cases last (buf, n) c with ⟨k, hput, hlt, hone⟩
    rcases @ih (if n ≤ last then update buf n c.char else buf) k with ⟨m, hle, heq, hfold⟩
    rw [foldl_cons, hput, hfold, length_cons]
    refine ⟨m, by omega, fun hroom => ?_, Prod.ext (funext fun i => ?_) rfl⟩
    · have hk := hone (by omega)
      omega
    dsimp only
    -- behind the last place nothing is stored, and before it the places are consecutive
    by_cases hin : n ≤ last
    · rw [if_pos hin, hone hin, update_apply]
      rcases Nat.lt_trichotomy i n with hlt' | rfl | hlt'
      · simp only [show ¬ n + 1 ≤ i by omega, show ¬ n ≤ i by omega, hlt'.ne, false_and, if_false]
      · simp only [show ¬ i + 1 ≤ i by omega, false_and, if_false, le_refl, hin, true_and, if_true,
          Nat.sub_self, getElem?_cons_zero, Option.map_some, Option.getD_some]
      · rw [show i - n = i - (n + 1) + 1 by omega]
        simp only [show n + 1 ≤ i from hlt', hlt'.le, hlt'.ne', true_and, if_false,
          getElem?_cons_succ]
    · rw [if_neg hin, if_neg (by omega), if_neg (by omega)]

/-- The number of characters that are in the buffer, before the terminator. -/
def stored (size : Nat) (text : List OutChar) : Nat :=
  min text.length (size - 1)

/-- What is returned is the length of text that fits, and no less for longer text. -/
theorem vsnprintf_stores (base : Nat) (buf : Nat → BitVec 8) (text : List OutChar)
    (hsize : 0 < size) :
    (text.length ≤ (rtVsnprintf base buf size text).2 ∧
      (text.length ≤ size → (rtVsnprintf base buf size text).2 = text.length)) ∧
    (rtVsnprintf base buf size text).1 (stored size text) = 0#8 ∧
    ∀ i, i < stored size text →
      (text.map (·.char))[i]? = some ((rtVsnprintf base buf size text).1 i) := by
  rcases @putOut_foldl (size - 1) buf text 0 with ⟨m, hle, heq, hfold⟩
  rw [Nat.zero_add] at hle heq
  have hplace : (if m ≤ size - 1 then m else size - 1) = stored size text := by
    unfold stored
    split_ifs with hm
    · rw [heq (by omega)]
      omega
    · omega
  unfold rtVsnprintf
  simp only [if_neg (Nat.pos_iff_ne_zero.mp hsize), hfold, hplace, update_self, true_and]
  refine ⟨⟨hle, fun hfit => heq (by omega)⟩, fun i hi => ?_⟩
  have hlen : i < text.length ∧ i ≤ size - 1 := by unfold stored at hi; omega
  rw [update_of_ne (by omega), if_pos ⟨Nat.zero_le i, hlen.2⟩, Nat.sub_zero, getElem?_map,
    List.getElem?_eq_getElem hlen.1, Option.map_some, Option.getD_some]

/-- Text is written as it is just when it leaves room for the terminator. -/
theorem kprintf_exact (consolebufSize base : Nat) (c : Console) (flag : BitVec 16)
    (text : List OutChar) (hdev : c.openFlag = some flag) (hsize : 2 ≤ consolebufSize) :
    ((rtKprintf consolebufSize base c text).2 = .deviceWrite (flag ||| flagStream)
        ((text.map (·.char)).take (min text.length (stored (consolebufSize - 1) text))) ∧
      (rtKprintf consolebufSize base c text).1.openFlag = some flag) ↔
    text.length + 2 ≤ consolebufSize := by
  rcases vsnprintf_stores base c.logBuf text (show 0 < consolebufSize - 1 by omega) with
    ⟨⟨hlong, hcount⟩, -, hchars⟩
  unfold rtKprintf
  simp only [hdev, and_true, ConsoleCall.deviceWrite.injEq, true_and]
  constructor
  · -- what is written is one longer than what is stored
    intro heq
    have hlen := congrArg length heq
    rw [length_map, length_range, length_take, length_map] at hlen
    unfold stored at hlen
    by_contra hfull
    split_ifs at hlen with hclip
    · omega
    · rw [hcount (by omega)] at hlen
      omega
  · intro hfit
    have hall : stored (consolebufSize - 1) text = text.length := by
      unfold stored
      omega
    rw [hall] at hchars ⊢
    rw [hcount (by omega), if_neg (by omega), Nat.min_self, ← length_map (·.char), take_length,
      length_map]
    refine ext_getElem? fun i => ?_
    rcases Nat.lt_or_ge i text.length with hi | hi
    · rw [getElem?_map, getElem?_range hi]
      exact (hchars i hi).symm
    · rw [List.getElem?_eq_none (by rwa [length_map, length_range]),
        List.getElem?_eq_none (by rwa [length_map])]

/-- Two characters are written through a buffer for four. -/
theorem kprintf_exact_two :
    (rtKprintf 4 0 ⟨fun _ => 0xcc#8, some 3#16⟩ [⟨0x6f#8, false⟩, ⟨0x6b#8, false⟩]).2 =
      .deviceWrite 0x43#16 [0x6f#8, 0x6b#8] ∧
    (rtKprintf 4 0 ⟨fun _ => 0xcc#8, some 3#16⟩ [⟨0x6f#8, false⟩, ⟨0x6b#8, false⟩]).1.openFlag =
      some 3#16 :=
  (kprintf_exact 4 0 _ 3#16 [⟨0x6f#8, false⟩, ⟨0x6b#8, false⟩] rfl (by decide)).mpr (by decide)

/-- Of three characters two are stored, and the terminator is written as the third. -/
theorem kprintf_terminator :
    stored 3 [⟨0x6f#8, false⟩, ⟨0x6b#8, false⟩, ⟨0x21#8, false⟩] = 2 ∧
    (rtKprintf 4 0 ⟨fun _ => 0xcc#8, some 3#16⟩
      [⟨0x6f#8, false⟩, ⟨0x6b#8, false⟩, ⟨0x21#8, false⟩]).2 =
      .deviceWrite 0x43#16 [0x6f#8, 0x6b#8, 0#8] :=
  ⟨rfl, rfl⟩

end Console

end Honeycomb
