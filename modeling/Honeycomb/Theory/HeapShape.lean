import Honeycomb.Core.SmallMem
import Honeycomb.Lib.Layout
import Mathlib.Data.List.Chain

/-!
# The Shape of the Small Memory Heap

What the headers in memory have to say for the heap to be cut into a given list
of blocks.

The blocks are given by their sizes and by whether they are used. That fixes
where each of them is, and what its header says: `HeaderOk`. The header at the end
of the heap is treated by itself, since what it says about the block before it is
not kept up by the code.

Every call replaces one or two blocks by one or two others in the same place. It
writes to the headers of these blocks, or inside them, and to the link that leads
back from the block behind them. `shape_replace` says when the heap has the right
shape afterwards, and the calls are instances of it.

## Main definitions

* `Shape`: The heap consists of these blocks.

## Theorems

* `sets_magic`, `sets_used`, `sets_next`, `sets_prev`: What a write to a header does, and
  what it leaves.
* `shape_replace`: Some blocks are replaced by others.
* `shape_rewrite`, `shape_merge`, `shape_cut`: One block is rewritten, two become
  one, one becomes two.
-/

namespace Honeycomb.SmallMem

open BitVec List
open BitVec (ofNat)

structure Header where
  magic : BitVec 16
  used : BitVec 16
  next : BitVec 32
  prev : BitVec 32
  deriving DecidableEq, Repr

namespace Heap

def addr (h : Heap) (o : Nat) : BitVec 32 :=
  h.block (ofNat 32 o)

def byte (h : Heap) (o : Nat) : BitVec 8 :=
  h.memory.window h.heapPtr o

def header (h : Heap) (o : Nat) : Header :=
  ⟨h.magic (h.addr o), h.used (h.addr o), h.next (h.addr o), h.prev (h.addr o)⟩

end Heap

open Heap Layout Memory

section Align

variable (n : BitVec 32)

section Mask

variable {m : BitVec 32} {k : Nat} (hm : m.toNat = 2 ^ k)
include hm

theorem low_toNat : (n &&& (m - 1#32)).toNat = n.toNat % 2 ^ k := by
  have hpos := Nat.two_pow_pos k
  have hsub : (m - 1#32).toNat = 2 ^ k - 1 := by bv_omega
  rw [toNat_and, hsub, Nat.and_two_pow_sub_one_eq_mod]

theorem mask_toNat : (n &&& ~~~(m - 1#32)).toNat = n.toNat / 2 ^ k * 2 ^ k := by
  have hlow := low_toNat n hm
  have hsplit := Nat.div_add_mod' n.toNat (2 ^ k)
  have hsum : (n &&& (m - 1#32)) + (n &&& ~~~(m - 1#32)) = n := by
    rw [add_eq_or_of_and_eq_zero _ _ (by ext i; simp; grind)]
    ext i
    simp
    grind
  bv_omega

end Mask

/-- Rounding up wraps around for the three largest sizes. -/
theorem rtAlign_toNat : (rtAlign n).toNat = (n.toNat + 3) % 2 ^ 32 / 4 * 4 := by
  unfold rtAlign
  rw [mask_toNat _ (k := 2) rfl]
  simp only [toNat_sub, toNat_add, toNat_ofNat]
  omega

theorem and_three (hn : n.toNat % 4 = 0) : n &&& (4#32 - 1#32) = 0#32 :=
  eq_of_toNat_eq ((low_toNat n (k := 2) rfl).trans hn)

end Align

section Headers

variable {h h' : Heap} (o k : Nat)

theorem addr_add (h : Heap) (o k : Nat) : h.addr o + ofNat 32 k = h.addr (o + k) := by
  unfold addr block
  rw [BitVec.add_assoc, ← ofNat_add]

theorem addr_congr (hptr : h'.heapPtr = h.heapPtr) : h'.addr o = h.addr o := by
  unfold addr block
  rw [hptr]

theorem addr_toNat (h : Heap) (o : Nat) (ho : h.heapPtr.toNat + o < 2 ^ 32) :
    (h.addr o).toNat = h.heapPtr.toNat + o := by
  unfold addr block
  rw [toNat_add, toNat_ofNat]
  omega

theorem addr_inj {o' : Nat} (heq : h.addr o = h.addr o') (ho : o < 2 ^ 32 ∧ o' < 2 ^ 32) :
    o = o' := by
  have hnat := congrArg BitVec.toNat heq
  unfold addr block at hnat
  simp only [toNat_add, toNat_ofNat] at hnat
  omega

theorem offset_addr {h : Heap} {o : Nat} : h.offset (h.addr o) = ofNat 32 o := by
  unfold offset addr block
  rw [BitVec.add_comm, BitVec.add_sub_cancel]

/-- The fields of a header that are not among its bytes from `lo` up to `hi` are as before. -/
structure Kept (h h' : Heap) (o lo hi : Nat) : Prop where
  magic : 2 ≤ lo → h'.magic (h'.addr o) = h.magic (h.addr o)
  used : hi ≤ 2 ∨ 4 ≤ lo → h'.used (h'.addr o) = h.used (h.addr o)
  next : hi ≤ 4 ∨ 8 ≤ lo → h'.next (h'.addr o) = h.next (h.addr o)
  prev : hi ≤ 8 ∨ 12 ≤ lo → h'.prev (h'.addr o) = h.prev (h.addr o)

/-- A field of a header depends on its own bytes only. -/
theorem kept_of_bytes {lo hi : Nat} (hptr : h'.heapPtr = h.heapPtr)
    (hbytes : ∀ k, k < 12 → (k < lo ∨ hi ≤ k) → h'.byte (o + k) = h.byte (o + k)) :
    Kept h h' o lo hi := by
  have hw : ∀ j k, j + k < 12 → (j + k < lo ∨ hi ≤ j + k) →
      h'.memory.window h.heapPtr (o + j + k) = h.memory.window h.heapPtr (o + j + k) := by
    intro j k hlt hout
    have hb := hbytes (j + k) hlt hout
    rw [byte, byte, hptr, ← Nat.add_assoc] at hb
    exact hb
  refine ⟨fun hk => ?_, fun hk => ?_, fun hk => ?_, fun hk => ?_⟩
  · rw [magic, addr_congr o hptr]
    exact load16_congr _ _ o (fun k _ => hw 0 k (by omega) (by omega))
  · rw [used, used, addr_congr o hptr, addr_add h o 2]
    exact load16_congr _ _ (o + 2) (fun k _ => hw 2 k (by omega) (by omega))
  · rw [Heap.next, Heap.next, addr_congr o hptr, addr_add h o 4]
    exact load32_congr (fun k _ => hw 4 k (by omega) (by omega))
  · rw [Heap.prev, Heap.prev, addr_congr o hptr, addr_add h o 8]
    exact load32_congr (fun k _ => hw 8 k (by omega) (by omega))

theorem header_congr (hptr : h'.heapPtr = h.heapPtr)
    (hbytes : ∀ k, k < 12 → h'.byte (o + k) = h.byte (o + k)) : h'.header o = h.header o := by
  have hk : Kept h h' o 12 12 := kept_of_bytes o hptr (fun k hk _ => hbytes k hk)
  rw [header, header, hk.magic (by omega), hk.used (by omega), hk.next (by omega),
    hk.prev (by omega)]

end Headers

/-- Only offsets from `lo` up to `hi` have been written, and the variables that say
    where the heap is are as before. -/
structure Agrees (h h' : Heap) (lo hi : Nat) : Prop where
  heapPtr : h'.heapPtr = h.heapPtr
  heapEnd : h'.heapEnd = h.heapEnd
  memSizeAligned : h'.memSizeAligned = h.memSizeAligned
  byte : ∀ x, x < 2 ^ 32 → (x < lo ∨ hi ≤ x) → h'.byte x = h.byte x

section Agrees

variable {h h' h'' : Heap} (o : Nat) {lo hi lo' hi' : Nat} (a : BitVec 32)

theorem agrees_refl {h : Heap} : Agrees h h lo hi :=
  ⟨rfl, rfl, rfl, fun _ _ _ => rfl⟩

theorem agrees_trans {h : Heap} (h1 : Agrees h h' lo hi) (h2 : Agrees h' h'' lo hi) :
    Agrees h h'' lo hi :=
  ⟨h2.heapPtr.trans h1.heapPtr, h2.heapEnd.trans h1.heapEnd,
    h2.memSizeAligned.trans h1.memSizeAligned,
    fun x hx hout => (h2.byte x hx hout).trans (h1.byte x hx hout)⟩

theorem agrees_mono (h1 : Agrees h h' lo hi) (hle : lo' ≤ lo ∧ hi ≤ hi') :
    Agrees h h' lo' hi' :=
  { h1 with byte := fun x hx hout => h1.byte x hx (by omega) }

theorem agrees_header (h1 : Agrees h h' lo hi)
    (hout : o + 12 ≤ 2 ^ 32 ∧ (o + 12 ≤ lo ∨ hi ≤ o)) : h'.header o = h.header o :=
  header_congr o h1.heapPtr (fun k hk => h1.byte (o + k) (by omega) (by omega))

theorem agrees_addr (h1 : Agrees h h' lo hi) : h'.addr o = h.addr o :=
  addr_congr o h1.heapPtr

end Agrees

/-- One header has been written, and nothing else. -/
structure Sets (h h' : Heap) (o : Nat) (hd : Header) : Prop where
  agrees : Agrees h h' o (o + 12)
  header : h'.header o = hd

/-- The writes of a whole header. -/
def Heap.setHeader (h : Heap) (a : BitVec 32) (m u : BitVec 16) (v p : BitVec 32) : Heap :=
  (((h.setMagic a m).setUsed a u).setNext a v).setPrev a p

section Cut

variable {h : Heap} {o : Nat} (a : BitVec 32) (m u : BitVec 16) (v p : BitVec 32)
  (ha : a = h.addr o) (ho : o + 12 ≤ 2 ^ 32)

theorem setHeader_vars (h : Heap) : (h.setHeader a m u v p).lfree = h.lfree ∧
    (h.setHeader a m u v p).usedMem = h.usedMem :=
  ⟨rfl, rfl⟩

theorem sets_memory (h : Heap) {memory : Memory} {hd : Header} (lo hi : Nat) (hhi : hi ≤ 12)
    (ho : o + 12 ≤ 2 ^ 32) (hbyte : ∀ x, x < 2 ^ 32 → (x < o + lo ∨ o + hi ≤ x) →
      memory.window h.heapPtr x = h.byte x)
    (hfields : Kept h { h with memory } o lo hi → { h with memory }.header o = hd) :
    Sets h { h with memory } o hd :=
  ⟨⟨rfl, rfl, rfl, fun x hx _ => hbyte x hx (by omega)⟩,
    hfields (kept_of_bytes o rfl fun k _ _ => hbyte (o + k) (by omega) (by omega))⟩

include ha ho

theorem sets_magic : Sets h (h.setMagic a m) o { h.header o with magic := m } := by
  refine sets_memory h 0 2 (by omega) ho (fun x hx hout => ?_) (fun hk => Header.mk.injEq .. ▸
    ⟨?_, hk.used (by omega), hk.next (by omega), hk.prev (by omega)⟩)
  · rw [ha]
    exact window_store16 hx (by omega) hout
  · rw [ha]
    exact load16_store16 _ _

theorem sets_used : Sets h (h.setUsed a u) o { h.header o with used := u } := by
  refine sets_memory h 2 4 (by omega) ho (fun x hx hout => ?_) (fun hk => Header.mk.injEq .. ▸
    ⟨hk.magic (by omega), ?_, hk.next (by omega), hk.prev (by omega)⟩)
  · rw [ha, addr_add h o 2]
    exact window_store16 hx (by omega) hout
  · rw [ha]
    exact load16_store16 _ _

theorem sets_next : Sets h (h.setNext a v) o { h.header o with next := v } := by
  refine sets_memory h 4 8 (by omega) ho (fun x hx hout => ?_) (fun hk => Header.mk.injEq .. ▸
    ⟨hk.magic (by omega), hk.used (by omega), ?_, hk.prev (by omega)⟩)
  · rw [ha, addr_add h o 4]
    exact window_store32 hx (by omega) hout
  · rw [ha]
    exact load32_store32 _ _

theorem sets_prev : Sets h (h.setPrev a p) o { h.header o with prev := p } := by
  refine sets_memory h 8 12 (by omega) ho (fun x hx hout => ?_) (fun hk => Header.mk.injEq .. ▸
    ⟨hk.magic (by omega), hk.used (by omega), hk.next (by omega), ?_⟩)
  · rw [ha, addr_add h o 8]
    exact window_store32 hx (by omega) hout
  · rw [ha]
    exact load32_store32 _ _

omit ha ho in
theorem sets_trans {h1 h2 : Heap} {hd hd' : Header} (hs : Sets h h1 o hd) (hs' : Sets h1 h2 o hd') :
    Sets h h2 o hd' :=
  ⟨agrees_trans hs.agrees hs'.agrees, hs'.header⟩

variable {a m u v p} in
theorem sets_new : Sets h (h.setHeader a m u v p) o ⟨m, u, v, p⟩ := by
  have hs1 := sets_magic a m ha ho
  have hs2 := sets_used (h := h.setMagic a m) a u ha ho
  have hs3 := sets_next (h := (h.setMagic a m).setUsed a u) a v ha ho
  have hs4 := sets_prev (h := ((h.setMagic a m).setUsed a u).setNext a v) a p ha ho
  rw [hs3.header, hs2.header, hs1.header] at hs4
  exact sets_trans (sets_trans (sets_trans hs1 hs2) hs3) hs4

omit ha ho

theorem cutBlock_memory (o n : Nat) (hn : 12 ≤ n) (hbound : o + n + 12 ≤ 2 ^ 32) {g : Heap}
    (heq : cutBlock h (ofNat 32 o) (ofNat 32 (o + n)) = g) :
    Agrees h g o (o + n + 12) ∧ g.header o = { h.header o with next := ofNat 32 (o + n) } ∧
    g.header (o + n) = ⟨heapMagic, 0#16, (h.header o).next, ofNat 32 o⟩ ∧
    (∀ x, o + 12 ≤ x → x < o + n → g.byte x = h.byte x) ∧
    g.lfree = h.lfree ∧ g.usedMem = h.usedMem := by
  -- The old header is read after two of the writes, which miss it.
  have hnext : Heap.next ((h.setMagic (h.addr (o + n)) heapMagic).setUsed (h.addr (o + n)) 0#16)
      (h.addr o) = (h.header o).next :=
    congrArg Header.next (agrees_header o (sets_trans (sets_magic _ heapMagic rfl hbound)
      (sets_used _ 0#16 rfl hbound)).agrees (by omega))
  change (h.setHeader (h.addr (o + n)) heapMagic 0#16 (Heap.next (Heap.setUsed (h.setMagic
    (h.addr (o + n)) _) (h.addr (o + n)) _) (h.addr o)) (ofNat 32 o)).setNext (h.addr o)
      (ofNat 32 (o + n)) = g at heq
  rw [hnext] at heq
  rcases sets_new rfl hbound with
    ⟨hagrees, hnew⟩
  have hvars := setHeader_vars (h.addr (o + n)) heapMagic 0#16 (h.header o).next (ofNat 32 o) h
  generalize h.setHeader _ _ _ _ _ = g4 at *
  have haddr := agrees_addr o hagrees
  rcases heq ▸ sets_next (h := g4) _ (ofNat 32 (o + n)) haddr.symm (by omega) with
    ⟨hagrees5, hheader⟩
  refine ⟨?_, ?_, ?_, ?_, ?_, ?_⟩
  · exact agrees_trans (agrees_mono hagrees (by omega)) (agrees_mono hagrees5 (by omega))
  · rw [hheader, agrees_header o hagrees (by omega)]
  · rw [agrees_header (o + n) hagrees5 (by omega)]
    exact hnew
  · intro x hlo hhi
    exact (hagrees5.byte x (by omega) (by omega)).trans (hagrees.byte x (by omega) (by omega))
  · rw [← heq]
    exact hvars.1
  · rw [← heq]
    exact hvars.2

end Cut

/-- A block, by its size with the header and whether it is used. -/
structure Block where
  size : Nat
  used : Bool
  deriving DecidableEq, Repr

open Block (size)

def flag (u : Bool) : BitVec 16 :=
  if u then 1#16 else 0#16

/-- The header at an offset belongs to this block, with another block at `prev` before it. -/
def HeaderOk (h : Heap) (prev off : Nat) (b : Block) : Prop :=
  h.header off = ⟨heapMagic, flag b.used, ofNat 32 (off + b.size), ofNat 32 prev⟩

/-- The header at the end of the heap. -/
structure EndOk (h : Heap) (off : Nat) : Prop where
  magic : (h.header off).magic = heapMagic
  used : (h.header off).used = 1#16
  next : (h.header off).next = ofNat 32 off

structure Shape (h : Heap) (bs : List Block) : Prop where
  room : h.heapPtr.toNat + (total size bs + 12) < 2 ^ 32
  aligned : h.heapPtr.toNat % 4 = 0
  sizes : ∀ b ∈ bs, 12 ≤ b.size ∧ b.size % 4 = 0
  memSize : h.memSizeAligned.toNat + 12 = total size bs
  heapEnd : h.heapEnd = h.addr (total size bs)
  blocks : Seg size (HeaderOk h) 0 0 bs
  stop : EndOk h (total size bs)

section Shape

variable {h h' : Heap} (ls mid : List Block) {mid' : List Block} (rs : List Block) {bs : List Block}

variable {ls mid rs} in
/-- Some blocks are replaced by others, which have their headers. Outside of them
    only the link back from what is behind them has been written. -/
theorem shape_replace (hs : Shape h (ls ++ mid ++ rs)) (htotal : total size mid' = total size mid)
    (hsizes : ∀ b ∈ mid', 12 ≤ b.size ∧ b.size % 4 = 0)
    (hagrees : Agrees h h' (total size ls) (total size ls + total size mid + 12))
    (hmid : Seg size (HeaderOk h') (lastOff size 0 0 ls) (total size ls) mid')
    (prev : BitVec 32)
    (hbehind : h'.header (total size ls + total size mid)
      = { h.header (total size ls + total size mid) with prev := prev })
    (hprev : rs ≠ [] → prev = ofNat 32 (lastOff size (lastOff size 0 0 ls) (total size ls) mid')) :
    Shape h' (ls ++ mid' ++ rs) := by
  have htotal' : total size (ls ++ mid' ++ rs) = total size (ls ++ mid ++ rs) := by
    simp only [total_append, htotal]
  have hroom := hs.room
  refine ⟨?_, ?_, ?_, ?_, ?_, ?_, ?_⟩
  · rw [htotal', hagrees.heapPtr]
    exact hroom
  · rw [hagrees.heapPtr]
    exact hs.aligned
  · intro b hb
    rcases mem_append.mp hb with hb | hb
    · rcases mem_append.mp hb with hb | hb
      · exact hs.sizes b (mem_append_left _ (mem_append_left _ hb))
      · exact hsizes b hb
    · exact hs.sizes b (mem_append_right _ hb)
  · rw [htotal', hagrees.memSizeAligned]
    exact hs.memSize
  · rw [htotal', hagrees.heapEnd, agrees_addr _ hagrees]
    exact hs.heapEnd
  · have hblocks := hs.blocks
    simp only [total_append] at hroom
    refine seg_replace size (HeaderOk h') ls rs 0 0 htotal
      (fun b hb => (hs.sizes b (mem_append_right _ hb)).1) hblocks ?_ ?_ ?_
    · intro q o b hb hside hok
      have hsize := hs.sizes b hb.mem
      have hbound := hb.bound
      simp only [total_append, Nat.zero_add] at hbound hok ⊢
      unfold HeaderOk
      rw [agrees_header o hagrees (by omega)]
      exact hok
    · rw [Nat.zero_add]
      exact hmid
    · intro hrs q b hok
      rw [Nat.zero_add] at hok ⊢
      unfold HeaderOk at hok ⊢
      rw [hbehind, hok, hprev hrs]
  · rw [htotal']
    cases rs with
    | nil =>
      -- The end is right behind, and its link back does not matter.
      have hend : total size (ls ++ mid ++ []) = total size ls + total size mid := by
        rw [append_nil, total_append]
      have hstop := hs.stop
      rw [hend] at hstop ⊢
      refine ⟨?_, ?_, ?_⟩
      · rw [hbehind]
        exact hstop.magic
      · rw [hbehind]
        exact hstop.used
      · rw [hbehind]
        exact hstop.next
    | cons b0 bs =>
      have hsize0 := hs.sizes b0 (mem_append_right _ mem_cons_self)
      have hstop := hs.stop
      have hsame : h'.header (total size (ls ++ mid ++ b0 :: bs))
          = h.header (total size (ls ++ mid ++ b0 :: bs)) := by
        simp only [total_append, total_cons] at hroom ⊢
        exact agrees_header _ hagrees (by omega)
      refine ⟨?_, ?_, ?_⟩
      · rw [hsame]
        exact hstop.magic
      · rw [hsame]
        exact hstop.used
      · rw [hsame]
        exact hstop.next

variable (b : Block)

theorem shape_header (hs : Shape h (ls ++ b :: rs)) :
    HeaderOk h (lastOff size 0 0 ls) (total size ls) b := by
  have hblocks := ((seg_append size).mp hs.blocks).2.1
  rw [Nat.zero_add] at hblocks
  exact hblocks

theorem shape_fields (hs : Shape h (ls ++ b :: rs)) :
    h.magic (h.addr (total size ls)) = heapMagic ∧
    h.used (h.addr (total size ls)) = flag b.used ∧
    h.next (h.addr (total size ls)) = ofNat 32 (total size ls + b.size) ∧
    h.prev (h.addr (total size ls)) = ofNat 32 (lastOff size 0 0 ls) := by
  have hok := shape_header ls rs b hs
  unfold HeaderOk header at hok
  rw [Header.mk.injEq] at hok
  exact hok

theorem used_located {o : Nat} {b : Block} (hs : Shape h bs) (hb : Located size bs o b) :
    h.used (h.addr o) = 0#16 ↔ b.used = false := by
  rcases hb.split with ⟨ls, rs, rfl, rfl⟩
  rw [(shape_fields ls rs b hs).2.1]
  cases b.used with
  | false => exact iff_of_true rfl rfl
  | true => exact iff_of_false (by decide) Bool.true_eq_false.mp

theorem shape_prev (hs : Shape h (ls ++ mid ++ rs)) (hrs : rs ≠ []) :
    (h.header (total size ls + total size mid)).prev = ofNat 32
      (lastOff size (lastOff size 0 0 ls) (total size ls) mid) := by
  cases rs with
  | nil => exact absurd rfl hrs
  | cons b0 bs =>
    have hok := shape_header (ls ++ mid) bs b0 hs
    rw [total_append, lastOff_append, Nat.zero_add] at hok
    rw [hok]

theorem shape_congr (hs : Shape h bs) (hm : h'.memory = h.memory) (hptr : h'.heapPtr = h.heapPtr)
    (hend : h'.heapEnd = h.heapEnd) (hsize : h'.memSizeAligned = h.memSizeAligned) :
    Shape h' bs := by
  have hheader : ∀ o, h'.header o = h.header o := by
    intro o
    refine header_congr o hptr (fun k _ => ?_)
    unfold byte
    rw [hm, hptr]
  refine ⟨?_, ?_, hs.sizes, ?_, ?_, ?_, ⟨?_, ?_, ?_⟩⟩
  · rw [hptr]
    exact hs.room
  · rw [hptr]
    exact hs.aligned
  · rw [hsize]
    exact hs.memSize
  · rw [hend, addr_congr _ hptr]
    exact hs.heapEnd
  · refine seg_imp size (HeaderOk h') 0 0 hs.blocks (fun q o b _ _ _ hok => ?_)
    unfold HeaderOk
    rw [hheader]
    exact hok
  · rw [hheader]
    exact hs.stop.magic
  · rw [hheader]
    exact hs.stop.used
  · rw [hheader]
    exact hs.stop.next

/-- A heap consists of the blocks its headers describe, and of no others. -/
theorem shape_unique {bs' : List Block} (hs : Shape h bs) (hs' : Shape h bs') : bs' = bs := by
  have hroom := hs.room
  have htotal : total size bs' = total size bs := hs'.memSize.symm.trans hs.memSize
  refine seg_unique size 0 0 0 (fun b hb => ?_) (fun b hb => ?_) ?_ htotal hs.blocks hs'.blocks
  · have := (hs.sizes b hb).1
    omega
  · have := (hs'.sizes b hb).1
    omega
  intro q q' o b b' _ _ hbound hbound' hok hok'
  have hheader := hok.symm.trans hok'
  rw [Header.mk.injEq] at hheader
  rcases hheader with ⟨_, hused, hnext, _⟩
  have hsize := congrArg BitVec.toNat hnext
  simp only [toNat_ofNat] at hsize
  rw [Block.mk.injEq]
  refine ⟨by omega, ?_⟩
  cases hb : b.used with
  | false =>
    cases hb' : b'.used with
    | false => rfl
    | true =>
      rw [hb, hb'] at hused
      exact absurd hused (by decide)
  | true =>
    cases hb' : b'.used with
    | false =>
      rw [hb, hb'] at hused
      exact absurd hused (by decide)
    | true => rfl

theorem shape_rewrite {u : Bool} (hs : Shape h (ls ++ [b] ++ rs))
    (hagrees : Agrees h h' (total size ls) (total size ls + 12))
    (hok : HeaderOk h' (lastOff size 0 0 ls) (total size ls) ⟨b.size, u⟩) :
    Shape h' (ls ++ [⟨b.size, u⟩] ++ rs) := by
  have hsize := hs.sizes b (mem_append_left _ (mem_append_right _ mem_cons_self))
  have hroom := hs.room
  simp only [total_append, total_cons, total_nil] at hroom
  refine shape_replace hs rfl ?_ ?_ ⟨hok, trivial⟩
    (h.header (total size ls + total size [b])).prev ?_
    (fun hrs => shape_prev ls [b] rs hs hrs)
  · intro c hc
    rw [mem_singleton.mp hc]
    exact hsize
  · exact agrees_mono hagrees (by omega)
  · simp only [total_cons, total_nil]
    exact agrees_header _ hagrees (by omega)

theorem shape_user (hs : Shape h (ls ++ b :: rs))
    (hagrees : Agrees h h' (total size ls + 12) (total size ls + b.size)) :
    Shape h' (ls ++ b :: rs) := by
  have hsize := hs.sizes b (mem_append_right _ mem_cons_self)
  have hroom := hs.room
  have hheader := shape_header ls rs b hs
  have hlist := append_cons ls b rs
  simp only [total_append, total_cons] at hroom
  rw [hlist] at hs ⊢
  refine shape_replace hs rfl ?_ ?_ ⟨?_, trivial⟩
    (h.header (total size ls + total size [b])).prev ?_
    (fun hrs => shape_prev ls [b] rs hs hrs)
  · intro c hc
    rw [mem_singleton.mp hc]
    exact hsize
  · simp only [total_cons, total_nil]
    exact agrees_mono hagrees (by omega)
  · unfold HeaderOk
    rw [agrees_header _ hagrees (by omega)]
    exact hheader
  · simp only [total_cons, total_nil]
    exact agrees_header _ hagrees (by omega)

theorem shape_setMagic (hs : Shape h (ls ++ b :: rs)) {a : BitVec 32}
    (ha : a = h.addr (total size ls)) :
    Shape (h.setMagic a heapMagic) (ls ++ b :: rs) ∧
      Agrees h (h.setMagic a heapMagic) (total size ls) (total size ls + 12) := by
  have hroom := hs.room
  simp only [total_append, total_cons] at hroom
  rcases sets_magic a heapMagic ha (by omega) with ⟨hagrees, hset⟩
  have hlist := append_cons ls b rs
  have hheader := shape_header ls rs b hs
  rw [hlist] at hs ⊢
  refine ⟨shape_rewrite ls rs b hs hagrees ?_, hagrees⟩
  unfold HeaderOk
  rw [hset, hheader]

theorem shape_merge {b c : Block} (hs : Shape h (ls ++ [b, c] ++ rs))
    (hagrees : Agrees h h' (total size ls) (total size ls + (b.size + c.size) + 12))
    (hok : HeaderOk h' (lastOff size 0 0 ls) (total size ls) ⟨b.size + c.size, b.used⟩)
    (hbehind : h'.header (total size ls + (b.size + c.size))
      = { h.header (total size ls + (b.size + c.size)) with
          prev := ofNat 32 (total size ls) }) :
    Shape h' (ls ++ [⟨b.size + c.size, b.used⟩] ++ rs) := by
  have hb := hs.sizes b (mem_append_left _ (mem_append_right _ mem_cons_self))
  have hc := hs.sizes c (mem_append_left _ (mem_append_right _ (mem_cons_of_mem b mem_cons_self)))
  refine shape_replace hs ?_ ?_ hagrees ⟨hok, trivial⟩ _ hbehind (fun _ => rfl)
  · simp only [total_cons, total_nil]
    omega
  · intro d hd
    rw [mem_singleton.mp hd]
    dsimp only
    omega

theorem shape_endOff (hs : Shape h bs) :
    h.memSizeAligned + sizeofStructMem = ofNat 32 (total size bs) := by
  have hsize := hs.memSize
  refine eq_of_toNat_eq ?_
  rw [toNat_add, toNat_ofNat, ← hsize]
  rfl

theorem shape_cut (n : Nat) (u : Bool) {g : Heap} (hs : Shape h (ls ++ [b] ++ rs))
    (hn : 12 ≤ n) (hn4 : n % 4 = 0) (hrest : n + 12 ≤ b.size)
    (hg : Agrees h g (total size ls) (total size ls + n + 12))
    (hfirst : HeaderOk g (lastOff size 0 0 ls) (total size ls) ⟨n, u⟩)
    (hsecond : HeaderOk g (total size ls) (total size ls + n) ⟨b.size - n, false⟩) :
    Shape (linkBehind g (ofNat 32 (total size ls + n)))
      (ls ++ [⟨n, u⟩, ⟨b.size - n, false⟩] ++ rs) ∧
    Agrees h (linkBehind g (ofNat 32 (total size ls + n))) (total size ls)
      (total size ls + b.size + 12) ∧
    Agrees g (linkBehind g (ofNat 32 (total size ls + n)))
      (total size ls + b.size) (total size ls + b.size + 12) := by
  have hsize := hs.sizes b (mem_append_left _ (mem_append_right _ mem_cons_self))
  have hroom := hs.room
  simp only [total_append, total_cons, total_nil] at hroom
  generalize ho : total size ls = o at *
  have hnext : g.next (g.block (ofNat 32 (o + n))) = ofNat 32 (o + b.size) := by
    have hn := congrArg Header.next hsecond
    dsimp only at hn
    rw [show o + n + (b.size - n) = o + b.size by omega] at hn
    exact hn
  -- What is behind has the link back that it should have.
  have hlink : ∃ prev, Agrees g (linkBehind g (ofNat 32 (o + n))) (o + b.size)
      (o + b.size + 12) ∧ (linkBehind g (ofNat 32 (o + n))).header (o + b.size)
        = { h.header (o + b.size) with prev := prev } ∧
      (rs ≠ [] → prev = ofNat 32 (o + n)) := by
    have hsame : g.header (o + b.size) = h.header (o + b.size) :=
      agrees_header _ hg (by omega)
    unfold linkBehind
    dsimp only
    rw [hnext, hg.memSizeAligned, shape_endOff hs]
    by_cases hrs : rs = []
    · have hE : total size (ls ++ [b] ++ rs) = o + b.size := by
        rw [hrs]
        simp only [total_append, total_cons, total_nil, ho]
        omega
      rw [hE, if_neg (not_not_intro rfl)]
      exact ⟨(h.header (o + b.size)).prev, agrees_refl, hsame, fun hc => absurd hrs hc⟩
    have hE : o + b.size < total size (ls ++ [b] ++ rs) := by
      rcases exists_cons_of_ne_nil hrs with ⟨c, cs, rfl⟩
      have hc := hs.sizes c (mem_append_right _ mem_cons_self)
      simp only [total_append, total_cons, total_nil, ho]
      omega
    have hne : ofNat 32 (o + b.size) ≠ ofNat 32 (total size (ls ++ [b] ++ rs)) := by
      intro hc
      have hnat := congrArg BitVec.toNat hc
      simp only [total_append, total_cons, total_nil, ho, toNat_ofNat] at hnat hE
      omega
    rw [if_pos hne]
    rcases sets_prev (g.addr (o + b.size)) (ofNat 32 (o + n)) rfl (by omega) with
      ⟨hagrees, hset⟩
    rw [hsame] at hset
    exact ⟨ofNat 32 (o + n), hagrees, hset, fun _ => rfl⟩
  rcases hlink with ⟨prev, hagrees, hheader, hprev⟩
  have hall : Agrees h (linkBehind g (ofNat 32 (o + n))) o (o + b.size + 12) :=
    agrees_trans (agrees_mono hg (by omega)) (agrees_mono hagrees (by omega))
  refine ⟨shape_replace hs ?_ ?_ ?_ ⟨?_, ?_, trivial⟩ prev ?_ ?_, hall, hagrees⟩
  · simp only [total_cons, total_nil]
    omega
  · intro c hc
    rcases mem_cons.mp hc with rfl | hc
    · exact ⟨hn, hn4⟩
    · rw [mem_singleton.mp hc]
      dsimp only
      omega
  · rw [ho]
    exact hall
  · rw [ho]
    unfold HeaderOk
    rw [agrees_header _ hagrees (by omega)]
    exact hfirst
  · rw [ho]
    unfold HeaderOk
    dsimp only
    rw [agrees_header _ hagrees (by omega)]
    exact hsecond
  · rw [ho]
    exact hheader
  · intro hrs
    rw [ho, hprev hrs]
    rfl

end Shape

end Honeycomb.SmallMem
