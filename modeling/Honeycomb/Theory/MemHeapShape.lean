import Honeycomb.Core.MemHeap
import Honeycomb.Theory.HeapFree

/-!
# The Lists of a Memory Heap

How the headers in memory describe the blocks of the pool and the free list, and
what the writes to the links do to them.

The blocks are those of the small memory heap, by their sizes with the header, laid
end to end; `Shape` says that the headers describe them, and that the one at the
end leads back to the first. The free list is a ring of links through the headers
of free blocks and the head in the object; `FreeOk` gives it by the offsets of the
blocks.

The code writes through links, so the writes go to headers all over the pool. Where
they are is said once: headers do not overlap (`separate_items`), so that every
write changes one field of one header. `Frame` is what is left of this for the
user areas: only headers have been written.

## Main definitions

* `Shape`: The headers describe the blocks.
* `FreeOk`: The free list.
* `Written`: What the fields of the headers hold after some writes.

## Theorems

* `separate_items`: Headers do not overlap.
* `Written.set`: One more field of a header is written.
* `linkFree_spec`, `unlinkFree_spec`: The free list.
* `shape_replace`: Some blocks are replaced by others.
-/

namespace Honeycomb.MemHeap

open BitVec Function Layout List Memory
open BitVec (ofNat)
open SmallMem (Block)
open SmallMem.Block (size)

namespace Heap

def addr (h : Heap) (o : Nat) : BitVec 32 :=
  h.startAddr + ofNat 32 o

def byte (h : Heap) (x : Nat) : BitVec 8 :=
  h.memory.window h.startAddr x

def links (h : Heap) : Links (BitVec 32) :=
  ⟨h.get .nextFree, h.get .prevFree⟩

end Heap

/-- Where the headers of these blocks are, one of them behind all blocks. -/
def HeaderAt (bs : List Block) (o : Nat) : Prop :=
  o = total size bs ∨ ∃ b, Located size bs o b

/-- The pool does not wrap around, there is room for the headers, and the head of the
    free list is outside. -/
structure Place (start head : BitVec 32) (bs : List Block) : Prop where
  room : start.toNat + (total size bs + 24) ≤ 2 ^ 32
  sizes : ∀ b ∈ bs, 24 ≤ b.size
  outside : ∀ k x, k < 24 → x < total size bs + 24 → head + ofNat 32 k ≠ start + ofNat 32 x

/-- The address of a header, or of the head of the free list. -/
def IsItem (start head : BitVec 32) (bs : List Block) (a : BitVec 32) : Prop :=
  a = head ∨ ∃ o, HeaderAt bs o ∧ a = start + ofNat 32 o

section Place

variable {start head : BitVec 32} {bs : List Block} {o : Nat} (o' : Nat)

theorem headerAt_le (ho : HeaderAt bs o) : o ≤ total size bs := by
  rcases ho with rfl | ⟨b, hb⟩
  · exact le_rfl
  · have := hb.bound
    omega

theorem headerAt_apart (hsizes : ∀ b ∈ bs, 24 ≤ b.size) (ho : HeaderAt bs o) (ho' : HeaderAt bs o')
    (hne : o ≠ o') : o + 24 ≤ o' ∨ o' + 24 ≤ o := by
  -- A block ends before the next header.
  have hend : ∀ x b, Located size bs x b → x + 24 ≤ total size bs := by
    intro x b hb
    have := hb.bound
    have := hsizes b hb.mem
    omega
  rcases ho with rfl | ⟨b, hb⟩
  · rcases ho' with rfl | ⟨b', hb'⟩
    · exact absurd rfl hne
    · exact .inr (hend o' b' hb')
  rcases ho' with rfl | ⟨b', hb'⟩
  · exact .inl (hend o b hb)
  have hsize := hsizes b hb.mem
  have hsize' := hsizes b' hb'.mem
  rcases hb.apart hb' with ⟨heq, _⟩ | h | h
  · exact absurd heq hne
  · omega
  · omega

theorem addr_sub (start : BitVec 32) (o o' : Nat) :
    (start + ofNat 32 o' - (start + ofNat 32 o)).toNat
    = (o' % 2 ^ 32 + (2 ^ 32 - o % 2 ^ 32)) % 2 ^ 32 := by
  have := start.isLt
  simp only [toNat_sub, toNat_add, toNat_ofNat]
  omega

/-- The head of the free list is not near any header. -/
theorem apart_head {o : Nat} (hp : Place start head bs) (ho : o ≤ total size bs) :
    itemFormat.Apart head (start + ofNat 32 o) := by
  refine ⟨?_, ?_⟩
  · by_contra hlt
    have hk : (start + ofNat 32 o - head).toNat < 24 := not_le.mp hlt
    refine hp.outside _ o hk (by omega) ?_
    rw [ofNat_toNat, setWidth_eq, BitVec.add_comm, BitVec.sub_add_cancel]
  by_contra hlt
  have hk : (head - (start + ofNat 32 o)).toNat < 24 := not_le.mp hlt
  refine hp.outside 0 (o + (head - (start + ofNat 32 o)).toNat) (by omega) (by omega) ?_
  rw [ofNat_add, ofNat_toNat, setWidth_eq, ← BitVec.add_assoc,
    BitVec.add_comm _ (head - _), BitVec.sub_add_cancel]
  exact BitVec.add_zero head

theorem separate_items (hp : Place start head bs) : itemFormat.Separate (IsItem start head bs) := by
  have hroom := hp.room
  have hsizes := hp.sizes
  intro a b ha hb hne
  rcases ha with rfl | ⟨o, ho, rfl⟩
  · rcases hb with rfl | ⟨o', ho', rfl⟩
    · exact absurd rfl hne
    · exact apart_head hp (headerAt_le ho')
  rcases hb with rfl | ⟨o', ho', rfl⟩
  · exact Format.apart_symm _ _ _ (apart_head hp (headerAt_le ho))
  have hoo' : o ≠ o' := by
    rintro rfl
    exact hne rfl
  have hle := headerAt_le ho
  have hle' := headerAt_le ho'
  have hapart := headerAt_apart o' hsizes ho ho' hoo'
  unfold Format.Apart
  rw [addr_sub, addr_sub]
  change 24 ≤ _ ∧ 24 ≤ _
  omega

/-- A byte of the pool that is not in a header is not written with a header. -/
theorem outside_item (hp : Place start head bs) {x : Nat} (hx : x < total size bs + 24)
    (hout : ∀ o, HeaderAt bs o → x < o ∨ o + 24 ≤ x) {a : BitVec 32} (ha : IsItem start head bs a) :
    itemFormat.Outside a (start + ofNat 32 x) := by
  have hroom := hp.room
  rcases ha with rfl | ⟨o, ho, rfl⟩
  · by_contra hlt
    have hk : (start + ofNat 32 x - a).toNat < 24 := not_le.mp hlt
    refine hp.outside _ x hk hx ?_
    rw [ofNat_toNat, setWidth_eq, BitVec.add_comm, BitVec.sub_add_cancel]
  have hle := headerAt_le ho
  have hox := hout o ho
  unfold Format.Outside
  rw [addr_sub]
  change 24 ≤ _
  omega

end Place

/-- Only headers of these blocks and the head of the free list have been written, and
    the variables that say where the pool is are as before. -/
structure Frame (h h' : Heap) (bs : List Block) : Prop where
  self : h'.self = h.self
  freeHeader : h'.freeHeader = h.freeHeader
  startAddr : h'.startAddr = h.startAddr
  poolSize : h'.poolSize = h.poolSize
  blockList : h'.blockList = h.blockList
  freeList : h'.freeList = h.freeList
  byte : ∀ x, x < total size bs + 24 → (∀ o, HeaderAt bs o → x < o ∨ o + 24 ≤ x) →
    h'.byte x = h.byte x

section Frame

variable (h : Heap) {h' h'' : Heap} {bs : List Block} (bs' : List Block) {f g : Field}
  {a b v : BitVec 32}

theorem frame_refl : Frame h h bs :=
  ⟨rfl, rfl, rfl, rfl, rfl, rfl, fun _ _ _ => rfl⟩

theorem frame_trans (h1 : Frame h h' bs) (h2 : Frame h' h'' bs) : Frame h h'' bs :=
  ⟨h2.self.trans h1.self, h2.freeHeader.trans h1.freeHeader, h2.startAddr.trans h1.startAddr,
    h2.poolSize.trans h1.poolSize, h2.blockList.trans h1.blockList, h2.freeList.trans h1.freeList,
    fun x hx hout => (h2.byte x hx hout).trans (h1.byte x hx hout)⟩

theorem frame_set {f : Field} {v : BitVec 32} (hp : Place h.startAddr h.freeHeader bs)
    (ha : IsItem h.startAddr h.freeHeader bs a) : Frame h (h.set f a v) bs :=
  ⟨rfl, rfl, rfl, rfl, rfl, rfl, fun _ hx hout =>
    Format.set_outside itemFormat h.memory f a _ v (outside_item hp hx hout ha)⟩

theorem frame_count (bs : List Block) (n m : BitVec 32) :
    Frame h { h with availableSize := n, maxUsedSize := m } bs :=
  ⟨rfl, rfl, rfl, rfl, rfl, rfl, fun _ _ _ => rfl⟩

variable {S : BitVec 32 → Prop}

theorem get_set (hS : itemFormat.Separate S) (ha : S a) (hb : S b) :
    (h.set f a v).get g b = if f = g ∧ a = b then v else h.get g b :=
  Format.get_set itemFormat h.memory f g a b v hS ha hb

/-- Fields of headers have been written one after another, and hold `w` now. -/
structure Written (h h' : Heap) (bs : List Block) (w : Field → BitVec 32 → BitVec 32) : Prop where
  frame : Frame h h' bs
  available : h'.availableSize = h.availableSize
  get : ∀ g a, IsItem h.startAddr h.freeHeader bs a → h'.get g a = w g a

theorem written_refl : Written h h bs h.get :=
  ⟨frame_refl h, rfl, fun _ _ _ => rfl⟩

variable {h} in
theorem Written.set {w : Field → BitVec 32 → BitVec 32} (hw : Written h h' bs w)
    (hp : Place h.startAddr h.freeHeader bs) (ha : IsItem h.startAddr h.freeHeader bs a) :
    Written h (h'.set f a v) bs fun g b => if f = g ∧ a = b then v else w g b := by
  refine ⟨frame_trans h hw.frame (frame_set h' ?_ ?_), hw.available, fun g b hb => ?_⟩
  · rw [hw.frame.startAddr, hw.frame.freeHeader]
    exact hp
  · rw [hw.frame.startAddr, hw.frame.freeHeader]
    exact ha
  · rw [get_set h' (separate_items hp) ha hb, hw.get g b hb]

theorem get_set_self : (h.set f a v).get f a = v :=
  Format.get_set_same itemFormat h.memory f a v

@[simp]
theorem set_freeList : (h.set f a v).freeList = h.freeList := rfl

@[simp]
theorem set_self : (h.set f a v).self = h.self := rfl

theorem linkFree_eq {item : BitVec 32} (hS : itemFormat.Separate S) (hlist : S h.freeList)
    (hitem : S item) (hne : item ≠ h.freeList) :
    h.linkFree item = (((h.set .nextFree item (h.get .nextFree h.freeList)).set .prevFree item
      h.freeList).set .prevFree (h.get .nextFree h.freeList) item).set .nextFree h.freeList
        item := by
  simp only [Heap.linkFree, set_freeList, get_set _ hS hitem hlist, hne, and_false, if_false]

theorem unlinkFree_eq {item : BitVec 32} (hS : itemFormat.Separate S) (hitem : S item)
    (hnext : S (h.get .nextFree item)) :
    h.unlinkFree item = (h.set .prevFree (h.get .nextFree item) (h.get .prevFree item)).set
      .nextFree (h.get .prevFree item) (h.get .nextFree item) := by
  simp only [Heap.unlinkFree, get_set _ hS hnext hitem, ite_self, reduceCtorEq, false_and, if_false]

theorem splitItem_eq {headerPtr newPtr : BitVec 32} (hS : itemFormat.Separate S)
    (hheader : S headerPtr) (hnew : S newPtr) (hne : newPtr ≠ headerPtr) :
    h.splitItem headerPtr newPtr = (((((h.set .magic newPtr memheapMagic).set .poolPtr newPtr
      h.self).set .prev newPtr headerPtr).set .next newPtr (h.get .next headerPtr)).set .prev
        (h.get .next headerPtr) newPtr).set .next headerPtr newPtr := by
  -- The link of the first header is read while the new one is written.
  simp only [Heap.splitItem, set_self, get_set _ hS hnew hheader, hne, and_false, if_false]

end Frame

def mark (u : Bool) : BitVec 32 :=
  if u then memheapMagic ||| memheapUsed else memheapMagic

/-- The header at an offset belongs to this block, with another block at `prev` before it. -/
@[mk_iff]
structure HeaderOk (h : Heap) (prev off : Nat) (b : Block) : Prop where
  magic : h.get .magic (h.addr off) = mark b.used
  poolPtr : h.get .poolPtr (h.addr off) = h.self
  next : h.get .next (h.addr off) = h.addr (off + b.size)
  prev : h.get .prev (h.addr off) = h.addr prev

/-- The header behind all blocks, the last of which is at `last`. -/
@[mk_iff]
structure TailOk (h : Heap) (last off : Nat) : Prop where
  magic : h.get .magic (h.addr off) = mark true
  next : h.get .next (h.addr off) = h.addr 0
  prev : h.get .prev (h.addr off) = h.addr last

/-- The headers describe the blocks. The first block has the header at the end before it. -/
structure Shape (h : Heap) (bs : List Block) : Prop where
  place : Place h.startAddr h.freeHeader bs
  large : ∀ b ∈ bs, 36 ≤ b.size
  nonempty : bs ≠ []
  poolSize : h.poolSize.toNat = total size bs + 24
  blockList : h.blockList = h.startAddr
  freeList : h.freeList = h.freeHeader
  self : h.self ≠ 0#32
  blocks : Seg size (HeaderOk h) (total size bs) 0 bs
  tail : TailOk h (lastOff size 0 0 bs) (total size bs)

/-- A header says the same about its block in both heaps. -/
def SameAt (h h' : Heap) (o : Nat) : Prop :=
  ∀ f, f ≠ .nextFree → f ≠ .prevFree → h'.get f (h.addr o) = h.get f (h.addr o)

/-- The same, but that the header leads back to the block at `prev` now. -/
def LinkedAt (h h' : Heap) (prev o : Nat) : Prop :=
  ∀ f, f ≠ .nextFree → f ≠ .prevFree →
    h'.get f (h.addr o) = if f = .prev then h.addr prev else h.get f (h.addr o)

section Shape

variable {h h' : Heap} (ls : List Block) {mid mid' : List Block} (rs : List Block)
  {bs bs' : List Block} (b : Block) {o prev : Nat}

theorem addr_add (h : Heap) (o : Nat) (k : Nat) : h.addr o + ofNat 32 k = h.addr (o + k) := by
  unfold Heap.addr
  rw [BitVec.add_assoc, ← ofNat_add]

theorem addr_congr (o : Nat) (hstart : h'.startAddr = h.startAddr) : h'.addr o = h.addr o := by
  unfold Heap.addr
  rw [hstart]

theorem addr_inj {o' : Nat} (heq : h.addr o = h.addr o') (ho : o < 2 ^ 32 ∧ o' < 2 ^ 32) :
    o = o' := by
  have hnat := congrArg BitVec.toNat heq
  unfold Heap.addr at hnat
  simp only [toNat_add, toNat_ofNat] at hnat
  omega

theorem sameAt_linked (hsame : SameAt h h' o) (hprev : h.get .prev (h.addr o) = h.addr prev) :
    LinkedAt h h' prev o := by
  intro f hn hp
  rw [hsame f hn hp]
  split_ifs with hf
  · rw [hf]
    exact hprev
  · rfl

variable (hframe : Frame h h' bs)
include hframe

/-- A header, by the addresses of the heap before the writes. -/
theorem headerOk_frame : HeaderOk h' prev o b ↔
    h'.get .magic (h.addr o) = mark b.used ∧ h'.get .poolPtr (h.addr o) = h.self ∧
    h'.get .next (h.addr o) = h.addr (o + b.size) ∧ h'.get .prev (h.addr o) = h.addr prev := by
  simp only [headerOk_iff, addr_congr _ hframe.startAddr, hframe.self]

theorem headerOk_linked {prev' : Nat} (hlink : LinkedAt h h' prev' o)
    (hok : HeaderOk h prev o b) : HeaderOk h' prev' o b := by
  rw [headerOk_frame b hframe, hlink .magic nofun nofun, hlink .poolPtr nofun nofun,
    hlink .next nofun nofun, hlink .prev nofun nofun]
  exact ⟨hok.magic, hok.poolPtr, hok.next, rfl⟩

theorem headerOk_same (hsame : SameAt h h' o) (hok : HeaderOk h prev o b) : HeaderOk h' prev o b :=
  headerOk_linked b hframe (sameAt_linked hsame hok.prev) hok

theorem tailOk_linked {last last' : Nat} (hlink : LinkedAt h h' last' o)
    (hok : TailOk h last o) : TailOk h' last' o := by
  have haddr := fun k => addr_congr k hframe.startAddr
  refine ⟨?_, ?_, ?_⟩
  · rw [haddr, hlink .magic nofun nofun, if_neg nofun]
    exact hok.magic
  · rw [haddr, haddr, hlink .next nofun nofun, if_neg nofun]
    exact hok.next
  · rw [haddr, haddr, hlink .prev nofun nofun, if_pos rfl]

theorem tailOk_same {last : Nat} (hsame : SameAt h h' o)
    (hok : TailOk h last o) : TailOk h' last o :=
  tailOk_linked hframe (sameAt_linked hsame hok.prev) hok

omit hframe

theorem place_replace {start head : BitVec 32}
    (htotal : total size mid' = total size mid) (hsizes : ∀ b ∈ mid', 24 ≤ b.size)
    (hp : Place start head (ls ++ mid ++ rs)) : Place start head (ls ++ mid' ++ rs) := by
  have hsame : total size (ls ++ mid' ++ rs) = total size (ls ++ mid ++ rs) := by
    simp only [total_append, htotal]
  refine ⟨?_, fun b hb => ?_, ?_⟩
  · rw [hsame]
    exact hp.room
  · rw [mem_append, mem_append] at hb
    rcases hb with (hb | hb) | hb
    · exact hp.sizes b (mem_append_left rs (mem_append_left mid hb))
    · exact hsizes b hb
    · exact hp.sizes b (mem_append_right (ls ++ mid) hb)
  · rw [hsame]
    exact hp.outside

/-- Some blocks are replaced by others, which have their headers. Of the other headers,
    only the link back from the one behind them has been written. -/
theorem shape_replace (hs : Shape h (ls ++ mid ++ rs)) (hframe : Frame h h' bs)
    (htotal : total size mid' = total size mid) (hlarge : ∀ b ∈ mid', 36 ≤ b.size)
    (hne : mid' ≠ [])
    (hout : ∀ o, HeaderAt (ls ++ mid ++ rs) o →
      o < total size ls ∨ total size ls + total size mid < o → SameAt h h' o)
    (hmid : Seg size (HeaderOk h') (lastOff size (total size (ls ++ mid ++ rs)) 0 ls)
      (total size ls) mid')
    (hbehind : LinkedAt h h' (lastOff size 0 (total size ls) mid')
      (total size ls + total size mid)) : Shape h' (ls ++ mid' ++ rs) := by
  have hsame : total size (ls ++ mid' ++ rs) = total size (ls ++ mid ++ rs) := by
    simp only [total_append, htotal]
  refine ⟨?_, fun b hb => ?_, ?_, ?_, ?_, ?_, ?_, ?_, ?_⟩
  · rw [hframe.startAddr, hframe.freeHeader]
    exact place_replace ls rs htotal (fun b hb => by
      have := hlarge b hb
      omega) hs.place
  · rw [mem_append, mem_append] at hb
    rcases hb with (hb | hb) | hb
    · exact hs.large b (mem_append_left rs (mem_append_left mid hb))
    · exact hlarge b hb
    · exact hs.large b (mem_append_right (ls ++ mid) hb)
  · exact fun hnil => hne (append_eq_nil_iff.mp (append_eq_nil_iff.mp hnil).1).2
  · rw [hframe.poolSize, hsame]
    exact hs.poolSize
  · rw [hframe.blockList, hframe.startAddr]
    exact hs.blockList
  · rw [hframe.freeList, hframe.freeHeader]
    exact hs.freeList
  · rw [hframe.self]
    exact hs.self
  · rw [hsame]
    refine seg_replace size _ ls rs _ 0 htotal
      (fun b hb => hs.large b (mem_append_right _ hb)) hs.blocks (fun q o c hc hside hok => ?_)
      (by rw [Nat.zero_add]; exact hmid) (fun _ q c hok => ?_)
    · rw [Nat.zero_add] at hok ⊢
      have hsize := hs.large c hc.mem
      exact headerOk_same c hframe (hout o (.inr ⟨c, hc⟩) (by omega)) hok
    · -- The block right behind leads back to another one now.
      rw [Nat.zero_add] at hok ⊢
      rw [lastOff_congr size hne]
      exact headerOk_linked c hframe hbehind hok
  · rw [hsame]
    cases rs with
    | nil =>
      -- The header at the end is the one right behind.
      have hok := hs.tail
      simp only [append_nil, total_append, lastOff_append, Nat.zero_add] at hok ⊢
      rw [lastOff_congr size hne]
      exact tailOk_linked hframe hbehind hok
    | cons c cs =>
      have hsize := hs.large c (mem_append_right (ls ++ mid) mem_cons_self)
      have hlast : lastOff size 0 0 (ls ++ mid' ++ c :: cs)
          = lastOff size 0 0 (ls ++ mid ++ c :: cs) := by
        simp only [lastOff_append, lastOff, total_append, htotal, Nat.zero_add]
      rw [hlast]
      refine tailOk_same hframe (hout _ (.inl rfl) (.inr ?_)) hs.tail
      simp only [total_append, total_cons]
      omega

theorem shape_congr (hs : Shape h bs) (hframe : Frame h h' bs')
    (hsame : ∀ o, HeaderAt bs o → SameAt h h' o) : Shape h' bs := by
  refine ⟨?_, hs.large, hs.nonempty, ?_, ?_, ?_, ?_, ?_, ?_⟩
  · rw [hframe.startAddr, hframe.freeHeader]
    exact hs.place
  · rw [hframe.poolSize]
    exact hs.poolSize
  · rw [hframe.blockList, hframe.startAddr]
    exact hs.blockList
  · rw [hframe.freeList, hframe.freeHeader]
    exact hs.freeList
  · rw [hframe.self]
    exact hs.self
  · refine seg_imp_located hs.blocks (fun q o c hc hok => ?_)
    rw [Nat.zero_add] at hok ⊢
    exact headerOk_same c hframe (hsame o (.inr ⟨c, hc⟩)) hok
  · exact tailOk_same hframe (hsame _ (.inl rfl)) hs.tail

theorem shape_header (hs : Shape h (ls ++ b :: rs)) :
    HeaderOk h (lastOff size (total size (ls ++ b :: rs)) 0 ls) (total size ls) b := by
  have hblocks := hs.blocks
  rw [seg_append, Nat.zero_add] at hblocks
  exact hblocks.2.1

theorem shape_prev (hs : Shape h (ls ++ b :: rs)) :
    h.get .prev (h.addr (total size ls + b.size)) = h.addr (total size ls) := by
  cases rs with
  | nil =>
    have hprev := hs.tail.prev
    rw [total_append, total_cons, total_nil, Nat.add_zero, lastOff_append, Nat.zero_add] at hprev
    exact hprev
  | cons c cs =>
    rw [append_cons] at hs
    have hprev := (shape_header (ls ++ [b]) cs c hs).prev
    rw [total_append, total_cons, total_nil, Nat.add_zero, lastOff_append, Nat.zero_add] at hprev
    exact hprev

end Shape

/-- The free list consists of the blocks at these offsets. -/
def FreeOk (h : Heap) (fl : List Nat) : Prop :=
  Ring.Seg h.links h.freeHeader (fl.map h.addr) h.freeHeader

section Free

variable (h h' : Heap) {bs : List Block} (fl : List Nat) {o : Nat}

theorem item_addr (ho : HeaderAt bs o) : IsItem h.startAddr h.freeHeader bs (h.addr o) :=
  .inr ⟨o, ho, rfl⟩

theorem item_head {bs : List Block} : IsItem h.startAddr h.freeHeader bs h.freeHeader :=
  .inl rfl

variable (hp : Place h.startAddr h.freeHeader bs)
include hp

theorem addr_ne_head (ho : HeaderAt bs o) : h.addr o ≠ h.freeHeader := by
  intro heq
  have hapart := apart_head hp (headerAt_le ho)
  have hle : 24 ≤ (h.addr o - h.freeHeader).toNat := hapart.1
  rw [heq, BitVec.sub_self] at hle
  exact absurd hle (by decide)

theorem addr_mem_iff (hfl : ∀ o ∈ fl, HeaderAt bs o)
    (ho : HeaderAt bs o) : h.addr o ∈ fl.map h.addr ↔ o ∈ fl := by
  have hroom := hp.room
  have hle := headerAt_le ho
  refine ⟨fun hmem => ?_, fun hmem => mem_map_of_mem hmem⟩
  rcases mem_map.mp hmem with ⟨o', ho', heq⟩
  have hle' := headerAt_le (hfl o' ho')
  rw [addr_inj heq.symm (by omega)]
  exact ho'

theorem nodup_addr (hfl : ∀ o ∈ fl, HeaderAt bs o)
    (hnd : fl.Nodup) : (h.freeHeader :: fl.map h.addr).Nodup := by
  have hroom := hp.room
  rw [nodup_cons]
  refine ⟨fun hmem => ?_, ?_⟩
  · rcases mem_map.mp hmem with ⟨o, ho, heq⟩
    exact addr_ne_head h hp (hfl o ho) heq
  · refine List.Nodup.map_on (fun o ho o' ho' heq => ?_) hnd
    have hle := headerAt_le (hfl o ho)
    have hle' := headerAt_le (hfl o' ho')
    exact addr_inj heq (by omega)

omit hp

theorem item_node (bs : List Block) (fl : List Nat) (hfl : ∀ o ∈ fl, HeaderAt bs o) (a : BitVec 32)
    (ha : a ∈ h.freeHeader :: fl.map h.addr) : IsItem h.startAddr h.freeHeader bs a := by
  rcases mem_cons.mp ha with rfl | ha
  · exact item_head h
  · rcases mem_map.mp ha with ⟨o, ho, rfl⟩
    exact item_addr h (hfl o ho)

theorem freeOk_congr (bs : List Block) {fl : List Nat} (hstart : h'.startAddr = h.startAddr)
    (hhead : h'.freeHeader = h.freeHeader) (hfl : ∀ o ∈ fl, HeaderAt bs o)
    (hsame : ∀ a, IsItem h.startAddr h.freeHeader bs a →
      h'.get .nextFree a = h.get .nextFree a ∧ h'.get .prevFree a = h.get .prevFree a)
    (hfree : FreeOk h fl) : FreeOk h' fl := by
  have hmap : fl.map h'.addr = fl.map h.addr :=
    map_congr_left (fun k _ => addr_congr k hstart)
  unfold FreeOk
  rw [hmap, hhead]
  refine Ring.seg_congr h.links h'.links (fun a ha => ?_) (fun a ha => ?_) hfree
  · exact (hsame a (item_node h bs fl hfl a ha)).1
  · exact (hsame a (item_node h bs fl hfl a ha)).2

theorem linkFree_spec (bs : List Block) {fl : List Nat} {o : Nat}
    (hp : Place h.startAddr h.freeHeader bs) (hlist : h.freeList = h.freeHeader)
    (hfl : ∀ o ∈ fl, HeaderAt bs o) (hnd : fl.Nodup) (ho : HeaderAt bs o) (hfresh : o ∉ fl)
    (hfree : FreeOk h fl) (heq : h.linkFree (h.addr o) = h') :
    FreeOk h' (o :: fl) ∧ Frame h h' bs ∧ h'.availableSize = h.availableSize ∧
      ∀ o', HeaderAt bs o' → SameAt h h' o' := by
  have hS := separate_items hp
  have hitem := item_addr h ho
  have hne := addr_ne_head h hp ho
  have hnodup := nodup_addr h fl hp hfl hnd
  have hnotin : h.addr o ∉ fl.map h.addr := fun hc =>
    hfresh ((addr_mem_iff h fl hp hfl ho).mp hc)
  have hnextmem : h.get .nextFree h.freeHeader ∈ h.freeHeader :: fl.map h.addr :=
    Ring.seg_next_mem hfree
  have hnext := item_node h bs fl hfl _ hnextmem
  have hlink := linkFree_eq h hS (by rw [hlist]; exact item_head h) hitem (by rw [hlist]; exact hne)
  rw [heq, hlist] at hlink
  rcases (show Written h h' bs fun g b =>
      if Field.nextFree = g ∧ h.freeHeader = b then h.addr o
      else if Field.prevFree = g ∧ h.get .nextFree h.freeHeader = b then h.addr o
      else if Field.prevFree = g ∧ h.addr o = b then h.freeHeader
      else if Field.nextFree = g ∧ h.addr o = b then h.get .nextFree h.freeHeader
      else h.get g b by
    rw [hlink]
    exact ((((written_refl h).set hp hitem).set hp hitem).set hp hnext).set hp (item_head h)) with
    ⟨hframe, havail, hget⟩
  refine ⟨?_, hframe, havail, fun o' ho' f hf hf' => ?_⟩
  · have hinsert := Ring.seg_insertAfter
      hnodup (nodup_cons.mp hnodup).1 (not_mem_cons_of_ne_of_not_mem hne hnotin) hne hfree
    have hmap : (o :: fl).map h'.addr = h.addr o :: fl.map h.addr := by
      rw [map_cons, addr_congr o hframe.startAddr,
        map_congr_left (fun k _ => addr_congr k hframe.startAddr)]
    have hnodes : ∀ a ∈ h.freeHeader :: h.addr o :: fl.map h.addr,
        IsItem h.startAddr h.freeHeader bs a := by
      intro a ha
      refine item_node h bs (o :: fl) (fun k hk => ?_) a ha
      rcases mem_cons.mp hk with rfl | hk
      · exact ho
      · exact hfl k hk
    unfold FreeOk
    rw [hmap, hframe.freeHeader]
    refine Ring.seg_congr _ h'.links (fun a ha => ?_) (fun a ha => ?_) hinsert
    · refine (hget _ a (hnodes a ha)).trans ?_
      simp only [Links.insertAfter, Heap.links, reduceCtorEq, false_and, if_false, true_and,
        update_apply, eq_comm]
    -- The first block of the list is not the one that is inserted.
    have hnn : h.get .nextFree h.freeHeader ≠ h.addr o := by
      intro hc
      rw [hc] at hnextmem
      rcases mem_cons.mp hnextmem with hc | hc
      · exact hne hc
      · exact hnotin hc
    refine (hget _ a (hnodes a ha)).trans ?_
    simp only [Links.insertAfter, Heap.links, reduceCtorEq, false_and, if_false, true_and,
      update_apply]
    by_cases ha1 : h.addr o = a
    · rw [← ha1, if_neg hnn, if_pos rfl, if_pos rfl]
    · rw [if_neg ha1, if_neg (show ¬ a = h.addr o from fun hc => ha1 hc.symm)]
      exact if_congr eq_comm rfl rfl
  · rw [hget f _ (item_addr h ho')]
    simp only [hf.symm, hf'.symm, false_and, if_false]

theorem unlinkFree_spec {o : Nat} {xs ys : List Nat} (hp : Place h.startAddr h.freeHeader bs)
    (hfl : ∀ k ∈ xs ++ o :: ys, HeaderAt bs k) (hnd : (xs ++ o :: ys).Nodup)
    (hfree : FreeOk h (xs ++ o :: ys)) (heq : h.unlinkFree (h.addr o) = h') :
    FreeOk h' (xs ++ ys) ∧ Frame h h' bs ∧ h'.availableSize = h.availableSize ∧
      ∀ o', HeaderAt bs o' → SameAt h h' o' := by
  have hS := separate_items hp
  have ho : HeaderAt bs o := hfl o (mem_append_right xs mem_cons_self)
  have hitem := item_addr h ho
  have hnodup := nodup_addr h _ hp hfl hnd
  have hseg := hfree
  unfold FreeOk at hseg
  rw [map_append, map_cons] at hnodup hseg
  rw [Ring.seg_append] at hseg
  rcases hseg with ⟨hx, hy⟩
  -- The neighbours on the list are headers as well.
  have hnext : IsItem h.startAddr h.freeHeader bs (h.get .nextFree (h.addr o)) := by
    refine item_node h bs (xs ++ o :: ys) hfl _ ?_
    rw [map_append, map_cons]
    refine Sublist.subset (Sublist.cons_cons _ ?_) (Ring.seg_next_mem hy)
    exact (sublist_cons_self _ _).trans (sublist_append_right _ _)
  have hprev : IsItem h.startAddr h.freeHeader bs (h.get .prevFree (h.addr o)) := by
    refine item_node h bs (xs ++ o :: ys) hfl _ ?_
    rw [map_append, map_cons]
    exact ((sublist_append_left _ _).cons_cons _).subset (Ring.seg_prev_mem hx)
  have hunlink := unlinkFree_eq h hS hitem hnext
  rw [heq] at hunlink
  rcases (show Written h h' bs fun g b =>
      if Field.nextFree = g ∧ h.get .prevFree (h.addr o) = b then h.get .nextFree (h.addr o)
      else if Field.prevFree = g ∧ h.get .nextFree (h.addr o) = b then h.get .prevFree (h.addr o)
      else h.get g b by
    rw [hunlink]
    exact ((written_refl h).set hp hnext).set hp hprev) with ⟨hframe, havail, hget⟩
  refine ⟨?_, hframe, havail, fun o' ho' f hf hf' => ?_⟩
  · have hremove := Ring.seg_remove hnodup (nodup_cons.mp hnodup).1 hx hy
    have hmap : (xs ++ ys).map h'.addr = xs.map h.addr ++ ys.map h.addr := by
      rw [map_congr_left (fun k _ => addr_congr k hframe.startAddr), map_append]
    have hnodes : ∀ a ∈ h.freeHeader :: (xs.map h.addr ++ ys.map h.addr),
        IsItem h.startAddr h.freeHeader bs a ∧ a ≠ h.addr o := by
      intro a ha
      refine ⟨item_node h bs (xs ++ o :: ys) hfl a ?_, ?_⟩
      · rw [map_append, map_cons]
        exact (((sublist_cons_self (h.addr o) _).append_left _).cons_cons _).subset ha
      · rintro rfl
        rw [← List.cons_append, nodup_middle] at hnodup
        exact hnodup.notMem ha
    unfold FreeOk
    rw [hmap, hframe.freeHeader]
    refine Ring.seg_congr _ h'.links (fun a ha => ?_) (fun a ha => ?_) hremove
    · rcases hnodes a ha with ⟨hia, hne⟩
      refine (hget _ a hia).trans ?_
      simp only [Links.remove, Heap.links, update_of_ne hne, reduceCtorEq, false_and,
        if_false, true_and, update_apply, ite_self]
      exact if_congr eq_comm rfl rfl
    rcases hnodes a ha with ⟨hia, hne⟩
    refine (hget _ a hia).trans ?_
    simp only [Links.remove, Heap.links, update_of_ne hne, reduceCtorEq, false_and,
      if_false, true_and, update_apply]
    exact if_congr eq_comm rfl rfl
  · rw [hget f _ (item_addr h ho')]
    simp only [hf.symm, hf'.symm, false_and, if_false]

end Free

end Honeycomb.MemHeap
