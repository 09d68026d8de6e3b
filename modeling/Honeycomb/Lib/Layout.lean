import Mathlib.Algebra.GroupWithZero.Nat
import Mathlib.Data.List.Basic

/-!
# Blocks Laid End to End

A list of blocks, each with a size, laid one after the other without a gap. The
offset of a block is the total size of those before it.

A region of memory that is cut into blocks with headers is described by such a
list. What a header should say depends on where the block is and where the one
before it is, so a property of headers is a predicate of both offsets and of the
block, and `Seg` says that it holds for a whole stretch of blocks. Splitting and
merging blocks replaces a few of them by others of the same total size, which
moves no other block and changes the predecessor of the one behind;
`seg_replace` is the rule for it.

## Main definitions

* `total`: The total size of the blocks.
* `Located`: A block of the list, and its offset.
* `lastOff`: The offset of the last block.
* `offsets`: The offsets of all blocks.
* `offsetsIf`: The offsets of some of them.
* `Seg`: Every block has its header, from some offset on.

## Theorems

* `located_append`: The blocks of two stretches.
* `Located.apart`: Different blocks do not overlap.
* `mem_offsets`, `le_of_mem_offsets`, `pairwise_offsets`: The offsets of the blocks, which rise.
* `mem_offsetsIf`, `nodup_offsetsIf`: The same for some of the blocks.
* `seg_append`: A stretch can be cut anywhere.
* `seg_unique`: The headers say which blocks there are.
* `seg_replace`: Some blocks are replaced by others.
-/

namespace Honeycomb.Layout

open List

variable {B : Type} (size : B → Nat)

/-- The total size of the blocks. -/
def total : List B → Nat
  | [] => 0
  | b :: bs => size b + total bs

/-- A block of the list, at its offset. -/
def Located : List B → Nat → B → Prop
  | [], _, _ => False
  | c :: bs, o, b => o = 0 ∧ b = c ∨ size c ≤ o ∧ Located bs (o - size c) b

/-- The offset of the last block, when the first is at `off` and the one before it at `prev`. -/
def lastOff : Nat → Nat → List B → Nat
  | prev, _, [] => prev
  | _, off, b :: bs => lastOff off (off + size b) bs

/-- The offsets of the blocks, the first at `off`. -/
def offsets : Nat → List B → List Nat
  | _, [] => []
  | off, b :: bs => off :: offsets (off + size b) bs

/-- The offsets of the blocks with some property, the first block at `off`. -/
def offsetsIf (p : B → Bool) : Nat → List B → List Nat
  | _, [] => []
  | off, b :: bs =>
    if p b then off :: offsetsIf p (off + size b) bs else offsetsIf p (off + size b) bs

/-- Every block has its header: the first is at `off`, the one before it at `prev`. -/
def Seg (P : Nat → Nat → B → Prop) : Nat → Nat → List B → Prop
  | _, _, [] => True
  | prev, off, b :: bs => P prev off b ∧ Seg P off (off + size b) bs

section Total

variable (ls rs bs : List B) (b : B)

@[simp]
theorem total_nil : total size ([] : List B) = 0 :=
  rfl

@[simp]
theorem total_cons : total size (b :: bs) = size b + total size bs :=
  rfl

@[simp]
theorem total_singleton : total size [b] = size b :=
  rfl

@[simp]
theorem total_append : total size (ls ++ rs) = total size ls + total size rs := by
  induction ls with
  | nil => rw [nil_append, total_nil, Nat.zero_add]
  | cons c cs ih => rw [cons_append, total_cons, total_cons, ih, Nat.add_assoc]

end Total

section Located

variable {size} {bs : List B} {b b' : B} {o o' : Nat}

variable (h : Located size bs o b)
include h

theorem Located.mem : b ∈ bs := by
  induction bs generalizing o with
  | nil => exact h.elim
  | cons c cs ih =>
    rcases h with ⟨_, rfl⟩ | ⟨_, h⟩
    · exact mem_cons_self
    · exact mem_cons_of_mem c (ih h)

theorem Located.bound : o + size b ≤ total size bs := by
  induction bs generalizing o with
  | nil => exact h.elim
  | cons c cs ih =>
    rw [total_cons]
    rcases h with ⟨rfl, rfl⟩ | ⟨hle, h⟩
    · omega
    · have := ih h
      omega

/-- A block has some blocks in front of it and some behind. -/
theorem Located.split : ∃ ls rs, bs = ls ++ b :: rs ∧ o = total size ls := by
  induction bs generalizing o with
  | nil => exact h.elim
  | cons c cs ih =>
    rcases h with ⟨rfl, rfl⟩ | ⟨hle, h⟩
    · exact ⟨[], cs, rfl, rfl⟩
    rcases ih h with ⟨ls, rs, rfl, ho⟩
    refine ⟨c :: ls, rs, rfl, ?_⟩
    rw [total_cons]
    omega

/-- Two blocks are the same, or one lies behind the other. -/
theorem Located.apart (h' : Located size bs o' b') :
    o = o' ∧ b = b' ∨ o + size b ≤ o' ∨ o' + size b' ≤ o := by
  induction bs generalizing o o' with
  | nil => exact h.elim
  | cons c cs ih =>
    rcases h with ⟨rfl, rfl⟩ | ⟨hle, h⟩
    · rcases h' with ⟨rfl, rfl⟩ | ⟨hle', _⟩
      · exact .inl ⟨rfl, rfl⟩
      · exact .inr (.inl (by omega))
    rcases h' with ⟨rfl, rfl⟩ | ⟨hle', h'⟩
    · exact .inr (.inr (by omega))
    rcases ih h h' with ⟨ho, rfl⟩ | hlt | hlt
    · exact .inl ⟨by omega, rfl⟩
    · exact .inr (.inl (by omega))
    · exact .inr (.inr (by omega))

end Located

section Stretches

variable (ls rs : List B) {bs : List B} {b : B} {o : Nat}

/-- The blocks of two stretches are those of the first and, behind them, those of the second. -/
theorem located_append (b : B) (o : Nat) :
    Located size (ls ++ rs) o b ↔
      Located size ls o b ∨ total size ls ≤ o ∧ Located size rs (o - total size ls) b := by
  induction ls generalizing o with
  | nil => simp only [nil_append, Located, false_or, total_nil, Nat.zero_le, true_and,
      Nat.sub_zero]
  | cons c cs ih =>
    simp only [cons_append, Located, total_cons, ih, Nat.sub_sub]
    constructor
    · rintro (h | ⟨hle, h | ⟨hle', h⟩⟩)
      · exact .inl (.inl h)
      · exact .inl (.inr ⟨hle, h⟩)
      · exact .inr ⟨by omega, h⟩
    · rintro ((h | ⟨hle, h⟩) | ⟨hle, h⟩)
      · exact .inl h
      · exact .inr ⟨hle, .inl h⟩
      · exact .inr ⟨by omega, .inr ⟨by omega, h⟩⟩

theorem located_middle (b : B) : Located size (ls ++ b :: rs) (total size ls) b := by
  rw [located_append, Nat.sub_self]
  exact Or.inr ⟨Nat.le_refl _, Or.inl ⟨rfl, rfl⟩⟩

variable {size ls rs} in
/-- Behind a block is another one, or the end. -/
theorem located_next {b : B} :
    total size ls + size b = total size (ls ++ b :: rs) ∨
      ∃ c, Located size (ls ++ b :: rs) (total size ls + size b) c := by
  cases rs with
  | nil => exact .inl (by simp only [total_append, total_singleton])
  | cons c cs =>
    refine .inr ⟨c, ?_⟩
    have hc := located_middle size (ls ++ [b]) cs c
    simp only [total_append, total_singleton, append_assoc, singleton_append] at hc
    exact hc

/-- Blocks outside the ones that are replaced stay where they are. -/
theorem Located.replace {size : B → Nat} {ls rs mid : List B}
    (h : Located size (ls ++ mid ++ rs) o b) (mid' : List B)
    (htotal : total size mid' = total size mid) :
    Located size (ls ++ mid' ++ rs) o b ∨
      total size ls ≤ o ∧ Located size mid (o - total size ls) b := by
  rw [located_append, located_append, total_append] at h
  rw [located_append, located_append, total_append, htotal]
  rcases h with (h | h) | h
  · exact .inl (.inl (.inl h))
  · exact .inr h
  · exact .inl (.inr h)

theorem mem_offsetsIf (bs : List B) (o : Nat) (p : B → Bool) (off : Nat) :
    o ∈ offsetsIf size p off bs ↔ off ≤ o ∧ ∃ b, Located size bs (o - off) b ∧ p b = true := by
  induction bs generalizing off with
  | nil => simp only [offsetsIf, not_mem_nil, Located, false_and, exists_false, and_false]
  | cons c cs ih =>
    -- The first block is in the list or not, and the others are behind it.
    have hcons : o ∈ offsetsIf size p off (c :: cs) ↔
        o = off ∧ p c = true ∨ o ∈ offsetsIf size p (off + size c) cs := by
      rw [offsetsIf]
      split_ifs with hp
      · simp only [mem_cons, hp, and_true]
      · simp only [hp, Bool.false_eq_true, and_false, false_or]
    rw [hcons, ih]
    constructor
    · rintro (⟨rfl, hp⟩ | ⟨hle, b, hb, hp⟩)
      · exact ⟨Nat.le_refl _, c, Or.inl ⟨Nat.sub_self _, rfl⟩, hp⟩
      · refine ⟨by omega, b, .inr ⟨by omega, ?_⟩, hp⟩
        rw [Nat.sub_sub]
        exact hb
    rintro ⟨hle, b, ⟨hz, rfl⟩ | ⟨hc, hb⟩, hp⟩
    · exact .inl ⟨by omega, hp⟩
    · refine .inr ⟨by omega, b, ?_, hp⟩
      rw [Nat.sub_sub] at hb
      exact hb

theorem mem_offsets {bs : List B} {o : Nat} {off : Nat} :
    o ∈ offsets size off bs ↔ off ≤ o ∧ ∃ b, Located size bs (o - off) b := by
  have hall : offsets size off bs = offsetsIf size (fun _ => true) off bs := by
    induction bs generalizing off with
    | nil => rfl
    | cons c cs ih => exact congrArg (off :: ·) ih
  simp only [hall, mem_offsetsIf, and_true]

theorem mem_offsets_zero {size : B → Nat} {bs : List B} {o : Nat} :
    o ∈ offsets size 0 bs ↔ ∃ b, Located size bs o b := by
  simp only [mem_offsets, Nat.zero_le, Nat.sub_zero, true_and]

theorem le_of_mem_offsets {size : B → Nat} {bs : List B} {o : Nat}
    (ho : o ∈ offsets size 0 bs ++ [0 + total size bs]) : o ≤ total size bs := by
  rcases mem_append.mp ho with ho | ho
  · rcases mem_offsets_zero.mp ho with ⟨b, hb⟩
    exact Nat.le_trans (Nat.le_add_right o _) hb.bound
  · exact Nat.le_of_eq ((mem_singleton.mp ho).trans (Nat.zero_add _))

/-- The offsets rise, up to the end of the blocks. -/
theorem pairwise_offsets (bs : List B) (off : Nat) (hpos : ∀ b ∈ bs, 0 < size b) :
    (offsets size off bs ++ [off + total size bs]).Pairwise (· < ·) := by
  induction bs generalizing off with
  | nil => exact pairwise_singleton _ _
  | cons c cs ih =>
    have hc := hpos c mem_cons_self
    rw [offsets, cons_append, pairwise_cons, total_cons, ← Nat.add_assoc]
    refine ⟨fun x hx => ?_, ih (off + size c) (fun b hb => hpos b (mem_cons_of_mem c hb))⟩
    rcases mem_append.mp hx with hx | hx
    · have := ((mem_offsets size).mp hx).1
      omega
    · rw [mem_singleton.mp hx]
      omega

variable (p : B → Bool)

theorem offsetsIf_append {off : Nat} :
    offsetsIf size p off (ls ++ rs)
      = offsetsIf size p off ls ++ offsetsIf size p (off + total size ls) rs := by
  induction ls generalizing off with
  | nil => rfl
  | cons c cs ih =>
    rw [cons_append, offsetsIf, offsetsIf, ih, total_cons, Nat.add_assoc]
    split_ifs with hp
    · rfl
    · rfl

theorem offsetsIf_sublist {bs : List B} {p : B → Bool} {off : Nat} :
    (offsetsIf size p off bs).Sublist (offsets size off bs) := by
  induction bs generalizing off with
  | nil => exact List.Sublist.refl _
  | cons c cs ih =>
    rw [offsetsIf, offsets]
    split_ifs with hp
    · exact ih.cons_cons off
    · exact ih.cons off

theorem nodup_offsetsIf (bs : List B) (p : B → Bool) (off : Nat) (hpos : ∀ b ∈ bs, 0 < size b) :
    (offsetsIf size p off bs).Nodup := by
  have hlt := (pairwise_append.mp (pairwise_offsets size bs off hpos)).1
  exact (hlt.sublist (offsetsIf_sublist size)).imp (fun h => Nat.ne_of_lt h)

end Stretches

section Seg

variable {P : Nat → Nat → B → Prop} (P' : Nat → Nat → B → Prop) (ls rs : List B) {bs : List B}
  (b : B) (prev prev' off o : Nat)

theorem lastOff_concat : lastOff size prev off (ls ++ [b]) = off + total size ls := by
  induction ls generalizing prev off with
  | nil => rfl
  | cons c cs ih =>
    rw [cons_append, lastOff, ih, total_cons, Nat.add_assoc]

/-- Where the last block is does not depend on what is in front of the first. -/
theorem lastOff_congr {bs : List B} {prev prev' off : Nat} (h : bs ≠ []) :
    lastOff size prev off bs = lastOff size prev' off bs := by
  cases bs with
  | nil => exact absurd rfl h
  | cons c cs => rfl

theorem lastOff_append :
    lastOff size prev off (ls ++ rs)
      = lastOff size (lastOff size prev off ls) (off + total size ls) rs := by
  induction ls generalizing prev off with
  | nil => rfl
  | cons c cs ih => rw [cons_append, lastOff, ih, lastOff, total_cons, Nat.add_assoc]

/-- A stretch can be cut anywhere. -/
theorem seg_append {P : Nat → Nat → B → Prop} {ls rs : List B} {prev off : Nat} :
    Seg size P prev off (ls ++ rs) ↔
      Seg size P prev off ls ∧ Seg size P (lastOff size prev off ls) (off + total size ls) rs := by
  induction ls generalizing prev off with
  | nil => simp only [nil_append, Seg, true_and, lastOff, total_nil, Nat.add_zero]
  | cons c cs ih =>
    simp only [cons_append, Seg, ih, lastOff, total_cons, Nat.add_assoc, and_assoc]

variable {size P' prev off} in
/-- The headers of the blocks that are there are enough. -/
theorem seg_imp_located (h : Seg size P prev off bs)
    (himp : ∀ q o b, Located size bs o b → P q (off + o) b → P' q (off + o) b) :
    Seg size P' prev off bs := by
  induction bs generalizing prev off with
  | nil => trivial
  | cons c cs ih =>
    refine ⟨himp prev 0 c (.inl ⟨rfl, rfl⟩) h.1, ih h.2 (fun q o b hb hP => ?_)⟩
    have hq := himp q (size c + o) b (.inr ⟨Nat.le_add_right _ _, by
      rw [Nat.add_sub_cancel_left]
      exact hb⟩)
    rw [← Nat.add_assoc] at hq
    exact hq hP

theorem seg_imp (h : Seg size P prev off bs)
    (himp : ∀ q o b, b ∈ bs → off ≤ o → o + size b ≤ off + total size bs → P q o b → P' q o b) :
    Seg size P' prev off bs := by
  refine seg_imp_located h (fun q o b hb hP => ?_)
  have hbound := hb.bound
  exact himp q (off + o) b hb.mem (by omega) (by omega) hP

/-- If a header says which block it belongs to, the headers say which blocks there are. -/
theorem seg_unique {bs' : List B} (hpos : ∀ b ∈ bs, 0 < size b) (hpos' : ∀ b ∈ bs', 0 < size b)
    (hP : ∀ q q' o b b', b ∈ bs → b' ∈ bs' → o + size b ≤ off + total size bs →
      o + size b' ≤ off + total size bs → P q o b → P q' o b' → b = b')
    (htotal : total size bs' = total size bs) (h : Seg size P prev off bs)
    (h' : Seg size P prev' off bs') : bs' = bs := by
  induction bs generalizing bs' prev prev' off with
  | nil =>
    cases bs' with
    | nil => rfl
    | cons b' bs' =>
      have hb' := hpos' b' mem_cons_self
      rw [total_cons, total_nil] at htotal
      omega
  | cons b bs ih =>
    cases bs' with
    | nil =>
      have hb := hpos b mem_cons_self
      rw [total_cons, total_nil] at htotal
      omega
    | cons b' bs' =>
      rw [total_cons, total_cons] at htotal
      have hbb' : b = b' := hP prev prev' off b b' mem_cons_self mem_cons_self
        (by rw [total_cons]; omega) (by rw [total_cons]; omega) h.1 h'.1
      subst hbb'
      rw [ih off off (off + size b) (fun c hc => hpos c (mem_cons_of_mem b hc))
        (fun c hc => hpos' c (mem_cons_of_mem b hc)) ?_ (by omega) h.2 h'.2]
      intro q q' o c c' hc hc' hbound hbound'
      exact hP q q' o c c' (mem_cons_of_mem b hc) (mem_cons_of_mem b hc')
        (by rw [total_cons]; omega) (by rw [total_cons]; omega)

/-- Some blocks are replaced by others of the same total size. Those in front keep their headers,
    those behind as well, but for the first of them, which has another block in front of it now. -/
theorem seg_replace {mid mid' : List B} {k : Nat} (htotal : total size mid' = total size mid)
    (hsize : ∀ b ∈ rs, k ≤ size b) (h : Seg size P prev off (ls ++ mid ++ rs))
    (hout : ∀ q o b, Located size (ls ++ mid ++ rs) o b →
      o + size b ≤ total size ls ∨ total size ls + total size mid + k ≤ o →
      P q (off + o) b → P' q (off + o) b)
    (hmid : Seg size P' (lastOff size prev off ls) (off + total size ls) mid')
    (hnext : rs ≠ [] → ∀ q b, P q (off + total size ls + total size mid) b →
      P' (lastOff size (lastOff size prev off ls) (off + total size ls) mid')
        (off + total size ls + total size mid) b) :
    Seg size P' prev off (ls ++ mid' ++ rs) := by
  rw [seg_append, seg_append] at h
  rw [seg_append, seg_append]
  rcases h with ⟨⟨hls, _⟩, hrs⟩
  refine ⟨⟨seg_imp_located hls (fun q o b hb => ?_), hmid⟩, ?_⟩
  · refine hout q o b ?_ (.inl hb.bound)
    rw [located_append, located_append]
    exact .inl (.inl hb)
  cases rs with
  | nil => trivial
  | cons b0 bs =>
    have hb0 := hsize b0 mem_cons_self
    rw [lastOff_append, total_append, htotal]
    rw [total_append] at hrs
    simp only [← Nat.add_assoc] at hrs ⊢
    refine ⟨hnext (cons_ne_nil b0 bs) _ b0 hrs.1, seg_imp_located hrs.2 (fun q o b hb => ?_)⟩
    have hq := hout q (total size ls + total size mid + size b0 + o) b ?_ (.inr (by omega))
    · simp only [← Nat.add_assoc] at hq
      exact hq
    · rw [located_append, total_append]
      refine .inr ⟨by omega, .inr ⟨by omega, ?_⟩⟩
      rw [show total size ls + total size mid + size b0 + o
        - (total size ls + total size mid) - size b0 = o by omega]
      exact hb

end Seg

end Honeycomb.Layout
