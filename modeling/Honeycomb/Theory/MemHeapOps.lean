import Honeycomb.Theory.MemHeapLists

/-!
# The Calls of a Memory Heap

What an allocation, a release and a resize do to the blocks and the free list.

Between two calls the lists agree: the free list has the offset of every free block,
and has it once, in whatever order. No two free blocks are neighbours, and the size
that is available is what the free blocks have to offer (`Inv`). During a call this is
not so, and every piece of a call says which block it has left on which list.

The pieces read the links and sizes they need from the headers. Nothing is known of
these numbers but that they are those of the blocks, so every sum the code makes has
to be shown not to wrap around, from the sizes of the blocks alone. The sizes that the
caller gives are another matter.

## Main definitions

* `Inv`: The lists agree.
* `Allocated`: What an allocation leaves.

## Theorems

* `allocSearch_spec`: The search ends, with a block that is large enough or without.
* `rtMemheapAlloc_spec`: An allocation.
* `mergeLeft_spec`, `mergeRight_spec`: Merging a free block with its neighbours.
* `rtMemheapFree_spec`: A release.
-/

namespace Honeycomb.MemHeap

open Layout List Memory
open BitVec (le_def lt_def toNat_add toNat_sub)
open SmallMem (Block Apart apart_free apart_used apart_neighbours)
open SmallMem.Block (size)

/-- The offsets of the free blocks. -/
def frees (off : Nat) (bs : List Block) : List Nat :=
  offsetsIf size (fun b => !b.used) off bs

/-- What the free blocks have to offer. -/
def freeTotal : List Block → Nat
  | [] => 0
  | b :: bs => (if b.used then 0 else b.size - 24) + freeTotal bs

/-- The lists agree, no two free blocks are neighbours, and what is available is what
    the free blocks have to offer. -/
structure Inv (h : Heap) (bs : List Block) (fl : List Nat) : Prop where
  lists : Lists h bs fl
  frees : fl.Perm (frees 0 bs)
  apart : bs.IsChain Apart
  available : h.availableSize.toNat = freeTotal bs

section Frees

variable (ls rs bs : List Block) {b : Block} (off : Nat)

theorem frees_append : frees off (ls ++ rs) = frees off ls ++ frees (off + total size ls) rs :=
  offsetsIf_append size ls rs _

variable {ls bs off}

theorem frees_used (hb : b.used = true) : frees off (b :: bs) = frees (off + b.size) bs := by
  unfold frees
  rw [offsetsIf, hb, if_neg (by simp only [Bool.not_true, Bool.false_eq_true, not_false_eq_true])]

theorem frees_free (hb : b.used = false) :
    frees off (b :: bs) = off :: frees (off + b.size) bs := by
  unfold frees
  rw [offsetsIf, hb, if_pos Bool.not_false]

theorem frees_concat (hb : b.used = true) : frees off (ls ++ [b]) = frees off ls := by
  rw [frees_append, frees_used hb]
  exact append_nil _

variable (ls bs off)

theorem mem_frees {o : Nat} : o ∈ frees 0 bs ↔ ∃ b, Located size bs o b ∧ b.used = false := by
  unfold frees
  rw [mem_offsetsIf, Nat.sub_zero]
  simp only [Nat.zero_le, true_and, Bool.not_eq_true']

@[simp]
theorem freeTotal_append : freeTotal (ls ++ rs) = freeTotal ls + freeTotal rs := by
  induction ls with
  | nil => rw [nil_append, freeTotal, Nat.zero_add]
  | cons c cs ih => rw [cons_append, freeTotal, freeTotal, ih, Nat.add_assoc]

theorem freeTotal_le : freeTotal bs ≤ total size bs := by
  induction bs with
  | nil => exact le_rfl
  | cons c cs ih =>
    rw [freeTotal, total_cons]
    split_ifs with hc
    · omega
    · omega

theorem length_le (hsizes : ∀ b ∈ bs, 24 ≤ b.size) : 24 * bs.length ≤ total size bs := by
  induction bs with
  | nil => exact le_rfl
  | cons c cs ih =>
    have hc := hsizes c mem_cons_self
    have hcs := ih (fun d hd => hsizes d (mem_cons_of_mem c hd))
    rw [length_cons, total_cons]
    omega

theorem length_frees : (frees off bs).length ≤ bs.length := by
  induction bs generalizing off with
  | nil => exact le_rfl
  | cons c cs ih =>
    have hcs := ih (off + c.size)
    cases hc : c.used with
    | true =>
      rw [frees_used hc, length_cons]
      omega
    | false =>
      rw [frees_free hc, length_cons, length_cons]
      omega

end Frees

section Fields

variable {h : Heap} (ls rs : List Block) {bs : List Block} (b : Block) {u : Bool}

theorem memheapSize_eq : memheapSize = 24#32 := by
  decide

theorem mark_used (u : Bool) : mark u &&& memheapUsed ≠ 0#32 ↔ u = true := by
  cases u with
  | false => exact ⟨fun hc => absurd rfl hc, fun hc => absurd hc Bool.false_ne_true⟩
  | true => exact ⟨fun _ => rfl, fun _ => by decide⟩

theorem isUsed_mark {a : BitVec 32} (hmagic : h.get .magic a = mark u) : h.isUsed a = u := by
  unfold Heap.isUsed
  rw [hmagic]
  cases u with
  | false => exact decide_eq_false (fun hc => Bool.false_ne_true ((mark_used false).mp hc))
  | true => exact decide_eq_true ((mark_used true).mpr rfl)

theorem isUsed_tail (hs : Shape h bs) : h.isUsed (h.addr (total size bs)) = true :=
  isUsed_mark hs.tail.magic

theorem memitemSize_next {o n : Nat} (hnext : h.get .next (h.addr o) = h.addr (o + n)) (hn : 24 ≤ n)
    (hroom : o + n < 2 ^ 32) : (h.memitemSize (h.addr o)).toNat = n - 24 := by
  unfold Heap.memitemSize
  rw [hnext, toNat_sub]
  unfold Heap.addr
  rw [addr_sub]
  change (2 ^ 32 - 24 + _) % 2 ^ 32 = _
  omega

variable (hs : Shape h (ls ++ [b] ++ rs))
include hs

variable {ls rs b} in
theorem shape_at :
    HeaderOk h (lastOff size (total size (ls ++ [b] ++ rs)) 0 ls) (total size ls) b := by
  rw [← append_cons] at hs ⊢
  exact shape_header ls rs b hs

variable {ls rs b} in
theorem isUsed_block : h.isUsed (h.addr (total size ls)) = b.used :=
  isUsed_mark (shape_at hs).magic

variable {ls rs b} in
/-- A block is at least as large as the least block, and inside the pool. -/
theorem shape_bounds :
    36 ≤ b.size ∧ h.startAddr.toNat + (total size ls + b.size + total size rs + 24) ≤ 2 ^ 32 := by
  have hroom := hs.place.room
  simp only [total_append, total_singleton] at hroom
  refine ⟨hs.large b ?_, by omega⟩
  rw [← append_cons]
  exact mem_append_right ls mem_cons_self

variable {ls rs b} in
theorem memitemSize_toNat : (h.memitemSize (h.addr (total size ls))).toNat = b.size - 24 := by
  rcases shape_bounds hs with ⟨hlarge, hroom⟩
  exact memitemSize_next (shape_at hs).next (by omega) (by omega)

omit hs

theorem addr_toNat {h : Heap} {o : Nat} (ho : h.startAddr.toNat + o < 2 ^ 32) :
    (h.addr o).toNat = h.startAddr.toNat + o := by
  unfold Heap.addr
  rw [toNat_add, BitVec.toNat_ofNat]
  omega

theorem allocSize_toNat (n : BitVec 32) :
    (allocSize n).toNat = max 12 ((n.toNat + 3) % 2 ^ 32 / 4 * 4) := by
  have halign := SmallMem.rtAlign_toNat n
  change (if rtAlign n < memheapMinialloc then memheapMinialloc else rtAlign n).toNat = _
  split_ifs with hlt
  · rw [lt_def, halign] at hlt
    exact (max_eq_left (le_of_lt hlt)).symm
  · rw [lt_def, halign] at hlt
    rw [halign]
    exact (max_eq_right (Nat.le_of_not_lt hlt)).symm

end Fields

/-- A block has been taken from the free list, all of it or the first part. It is not
    yet marked as used, but everything else is as if it were. -/
structure Taken (h h' : Heap) (ls rs : List Block) (b : Block) (n : Nat) (c : Block)
    (rs' : List Block) (fl' : List Nat) : Prop where
  lists : Lists h' (ls ++ [c] ++ rs') fl'
  free : c.used = false
  fits : n + 24 ≤ c.size
  frees : fl'.Perm (frees 0 (ls ++ [⟨c.size, true⟩] ++ rs'))
  available : h'.availableSize.toNat = freeTotal (ls ++ [⟨c.size, true⟩] ++ rs')
  keeps : Keeps h h' (ls ++ [b] ++ rs) (ls ++ [c] ++ rs') (fun _ => False)
  apart : rs'.IsChain Apart

/-- What an allocation leaves: a used block with enough room that was not used before. -/
structure Allocated (h : Heap) (bs : List Block) (n : Nat) (h' : Heap) (p : BitVec 32)
    (bs' : List Block) (fl' : List Nat) (o : Nat) (b : Block) : Prop where
  inv : Inv h' bs' fl'
  keeps : Keeps h h' bs bs' (fun _ => False)
  located : Located size bs' o b
  used : b.used = true
  ptr : p = h'.addr (o + 24)
  fits : n + 24 ≤ b.size
  fresh : ∀ c, Located size bs o c → c.used = false

section Alloc

variable {h : Heap} (h' : Heap) (ls rs : List Block) {bs : List Block} {b : Block} {fl : List Nat}
  (xs ys : List Nat) (o : Nat)

theorem inv_listed (hi : Inv h bs fl) (ho : o ∈ fl) : ∃ b, Located size bs o b ∧ b.used = false :=
  (mem_frees bs).mp (hi.frees.mem_iff.mp ho)

theorem allocSearch_spec (sz : BitVec 32) (hs : Shape h bs)
    (hys : ∀ o ∈ ys, ∃ b, Located size bs o b) (p freeSize : BitVec 32) (fuel : Nat)
    (hseg : Ring.Seg h.links p (ys.map h.addr) h.freeHeader) (hlt : freeSize < sz)
    (hfuel : ys.length + 2 ≤ fuel) :
    ∃ ptr found, allocSearch h sz fuel (h.get .nextFree p) freeSize = some (ptr, found) ∧
      ((found < sz ∧ ∀ o ∈ ys, h.memitemSize (h.addr o) < sz) ∨
        ∃ o ∈ ys, ∃ b, Located size bs o b ∧ ptr = h.addr o ∧
          found.toNat = b.size - 24 ∧ sz ≤ found) := by
  -- The induction is on the part of the list that is still to be searched.
  induction ys generalizing p freeSize fuel with
  | nil =>
    have hnext : h.get .nextFree p = h.freeHeader := hseg.1
    rw [hnext]
    cases fuel with
    | zero => omega
    | succ fuel =>
      refine ⟨h.freeHeader, freeSize, ?_, .inl ⟨hlt, nofun⟩⟩
      rw [allocSearch, if_neg (fun hc => hc.1 hs.freeList.symm)]
  | cons k ks ih =>
    have hnext : h.get .nextFree p = h.addr k := hseg.1
    rcases hys k mem_cons_self with ⟨b, hb⟩
    have hne : h.addr k ≠ h.freeList := by
      rw [hs.freeList]
      exact addr_ne_head h hs.place (.inr ⟨b, hb⟩)
    have hsize : (h.memitemSize (h.addr k)).toNat = b.size - 24 := by
      rcases hb.split with ⟨ls, rs, rfl, rfl⟩
      rw [append_cons] at hs
      exact memitemSize_toNat hs
    rw [length_cons] at hfuel
    rw [hnext]
    cases fuel with
    | zero => omega
    | succ fuel =>
      rw [allocSearch, if_pos ⟨hne, hlt⟩]
      dsimp only
      split_ifs with hsmall
      · rcases ih (fun o ho => hys o (mem_cons_of_mem k ho)) (h.addr k) _ fuel hseg.2.2 hsmall
          (by omega) with ⟨ptr, found, heq, hfound⟩
        refine ⟨ptr, found, heq, hfound.imp ?_ ?_⟩
        · rintro ⟨hnone, hall⟩
          exact ⟨hnone, forall_mem_cons.mpr ⟨hsmall, hall⟩⟩
        · rintro ⟨o, ho, hrest⟩
          exact ⟨o, mem_cons_of_mem k ho, hrest⟩
      · cases fuel with
        | zero => omega
        | succ fuel =>
          refine ⟨h.addr k, h.memitemSize (h.addr k), ?_, .inr ⟨k, mem_cons_self, b, hb, rfl,
            hsize, BitVec.not_lt.mp hsmall⟩⟩
          rw [allocSearch, if_neg (fun hc => hsmall hc.2)]

theorem takeFree_spec (hl : Lists h bs (xs ++ o :: ys)) (heq : takeFree h (h.addr o) = h') :
    Lists h' bs (xs ++ ys) ∧ Frame h h' bs ∧ h'.availableSize = h.availableSize := by
  have ho : HeaderAt bs o := hl.listed o (mem_append_right xs mem_cons_self)
  have hfresh : o ∉ xs ++ ys := (nodup_middle.mp hl.nodup).notMem
  generalize h1eq : h.unlinkFree (h.addr o) = h1
  rcases lists_unlink h1 o hl h1eq with ⟨hl1, hf1, ha1⟩
  have haddr := addr_congr o hf1.startAddr
  generalize h2eq : h1.set .nextFree (h1.addr o) 0#32 = h2
  rcases lists_clear h2 o (.inl rfl) hl1 ho hfresh h2eq with ⟨hl2, hf2, ha2⟩
  have haddr2 := addr_congr o hf2.startAddr
  have heq' : h2.set .prevFree (h2.addr o) 0#32 = h' := by
    rw [haddr2, ← h2eq, ← h1eq]
    exact heq
  rcases lists_clear h' o (.inr rfl) hl2 ho hfresh heq' with ⟨hl3, hf3, ha3⟩
  exact ⟨hl3, frame_trans h hf1 (frame_trans h1 hf2 hf3), ha3.trans (ha2.trans ha1)⟩

theorem addr_area (h : Heap) (o : Nat) (size : BitVec 32) :
    h.addr o + size + memheapSize = h.addr (o + (size.toNat + 24)) := by
  rw [memheapSize_eq, ← Nat.add_assoc, ← addr_add, ← addr_add, BitVec.ofNat_toNat,
    BitVec.setWidth_eq]

variable (hi : Inv h (ls ++ [b] ++ rs) fl)
include hi

theorem inv_split (hb : b.used = false) :
    ∃ xs ys, fl = xs ++ total size ls :: ys ∧
      (xs ++ ys).Perm (frees 0 ls ++ frees (total size ls + b.size) rs) := by
  have hperm := hi.frees
  rw [← append_cons, frees_append, frees_free hb, Nat.zero_add] at hperm
  have hmem : total size ls ∈ fl :=
    hperm.mem_iff.mpr (mem_append_right _ mem_cons_self)
  rcases append_of_mem hmem with ⟨xs, ys, rfl⟩
  exact ⟨xs, ys, rfl, perm_inv_core hperm⟩

/-- The first part of a free block is taken, and the rest is put on the free list. -/
theorem allocSplit_spec {sz : BitVec 32} (hb : b.used = false)
    (hmin : 12 ≤ sz.toNat) (hrest : sz.toNat + 60 ≤ b.size)
    (heq : allocSplit h (h.addr (total size ls)) sz = h') :
    ∃ c rs' fl', Taken h h' ls rs b sz.toNat c rs' fl' := by
  rcases inv_split ls rs hi hb with ⟨xs, ys, rfl, hperm⟩
  have havail := hi.available
  have hle := freeTotal_le (ls ++ [b] ++ rs)
  have hroom := hi.lists.shape.place.room
  have hlist : ∀ u, ls ++ [⟨sz.toNat + 24, u⟩, ⟨b.size - (sz.toNat + 24), false⟩] ++ rs
      = ls ++ [⟨sz.toNat + 24, u⟩] ++ (⟨b.size - (sz.toNat + 24), false⟩ :: rs) := by
    intro u
    simp only [append_assoc, cons_append, nil_append]
  have htotal : total size [(⟨sz.toNat + 24, b.used⟩ : Block), ⟨b.size - (sz.toNat + 24), false⟩]
      = total size [b] := by
    simp only [total_cons]
    omega
  -- The block is cut in two.
  generalize h1eq : h.splitItem (h.addr (total size ls))
    (h.addr (total size ls + (sz.toNat + 24))) = h1
  rcases lists_split hi.lists (by omega) (by omega) h1eq with
    ⟨hl1, hf1, ha1, hnew⟩
  have hsizes := hl1.shape.place.sizes
  have hk1 := keeps_replace (fun _ => False) htotal (.inr rfl) hf1 (fun o c hc hcu => by
      rw [mem_singleton.mp hc.mem, hb] at hcu
      exact Bool.false_ne_true hcu)
  have haddr := fun k => addr_congr k hf1.startAddr
  -- The first part is taken from the free list.
  generalize h2eq : takeFree h1 (h1.addr (total size ls)) = h2
  rcases takeFree_spec h2 xs ys _ hl1 h2eq with ⟨hl2, hf2, ha2⟩
  have haddr2 := fun k => addr_congr k hf2.startAddr
  -- The second part is put on it.
  generalize h3eq : h2.linkFree (h2.addr (total size ls + (sz.toNat + 24))) = h3
  have hat : HeaderAt (ls ++ [⟨sz.toNat + 24, b.used⟩, ⟨b.size - (sz.toNat + 24), false⟩] ++ rs)
      (total size ls + (sz.toNat + 24)) := by
    rw [hlist, ← append_cons]
    exact headerAt_behind ls _ ⟨sz.toNat + 24, b.used⟩
  have hnew' : total size ls + (sz.toNat + 24) ∉ xs ++ ys := by
    intro hc
    rcases mem_append.mp hc with hc | hc
    · exact hnew (mem_append_left _ hc)
    · exact hnew (mem_append_right _ (mem_cons_of_mem _ hc))
  rcases lists_link h3 _ hl2 hat hnew' h3eq with ⟨hl3, hf3, ha3⟩
  have hk := keeps_trans hk1 (keeps_same (frame_trans h1 hf2 hf3))
  have heq' : ({ h3 with availableSize := h3.availableSize - sz - memheapSize } : Heap).countUsed =
      h' := by
    rw [← heq, ← h3eq, haddr2, ← h2eq, haddr, haddr, ← h1eq, ← addr_area]
    rfl
  rw [hb] at hl3 hk
  rw [hlist] at hl3 hk
  have hcount : h'.availableSize = h3.availableSize - sz - 24#32 := by
    rw [← heq']
    rfl
  refine ⟨⟨sz.toNat + 24, false⟩, ⟨b.size - (sz.toNat + 24), false⟩ :: rs,
    (total size ls + (sz.toNat + 24)) :: (xs ++ ys), ?_, rfl, le_rfl, ?_, ?_, ?_, ?_⟩
  · rw [← heq']
    exact lists_count h3 hl3
  · rw [← append_cons, frees_append, frees_used rfl, Nat.zero_add]
    refine perm_cons_append_cons _ ?_
    dsimp only
    rw [show total size ls + (sz.toNat + 24) + (b.size - (sz.toNat + 24))
      = total size ls + b.size by omega]
    exact hperm
  · rw [hcount, ha3, ha2, ha1, toNat_sub, toNat_sub, havail]
    simp only [freeTotal_append, freeTotal, hb, Bool.false_eq_true, if_false, if_true] at hle ⊢
    change (2 ^ 32 - 24 + _) % 2 ^ 32 = _
    omega
  · rw [← heq']
    exact ⟨hk.startAddr, hk.blocks⟩
  · have happ := hi.apart
    rw [← append_cons] at happ
    rcases apart_neighbours ls rs b happ with ⟨_, hrs, hside⟩
    refine apart_free isChain_nil hrs (fun c hc => ?_) (hside hb).2
    exact nomatch hc

theorem allocWhole_spec (n : Nat) {freeSize : BitVec 32}
    (hb : b.used = false) (hsize : freeSize.toNat = b.size - 24) (hn : n ≤ freeSize.toNat)
    (heq : allocWhole h (h.addr (total size ls)) freeSize = h') :
    ∃ fl', Taken h h' ls rs b n b rs fl' := by
  rcases inv_split ls rs hi hb with ⟨xs, ys, rfl, hperm⟩
  have havail := hi.available
  have hle := freeTotal_le (ls ++ [b] ++ rs)
  rcases shape_bounds hi.lists.shape with ⟨hlarge, hroom⟩
  generalize h1eq : ({ h with availableSize := h.availableSize - freeSize } : Heap).countUsed = h1
  have hl1 : Lists h1 (ls ++ [b] ++ rs) (xs ++ total size ls :: ys) := by
    rw [← h1eq]
    exact lists_count h hi.lists
  have hf1 : Frame h h1 (ls ++ [b] ++ rs) := by
    rw [← h1eq]
    exact frame_count h _ _ _
  have haddr := addr_congr (total size ls) hf1.startAddr
  have heq' : takeFree h1 (h1.addr (total size ls)) = h' := by
    rw [← h1eq]
    exact heq
  rcases takeFree_spec h' xs ys _ hl1 heq' with ⟨hl2, hf2, ha2⟩
  have hcount : h1.availableSize = h.availableSize - freeSize := by
    rw [← h1eq]
    rfl
  have happ := hi.apart
  rw [← append_cons] at happ
  refine ⟨xs ++ ys, hl2, hb, by omega, ?_, ?_, ?_, (apart_neighbours ls rs b happ).2.1⟩
  · rw [← append_cons, frees_append, Nat.zero_add]
    exact hperm
  · rw [ha2, hcount, toNat_sub, havail]
    simp only [freeTotal_append, freeTotal, hb, Bool.false_eq_true, if_false, if_true, total_append,
      total_cons, total_nil] at hle ⊢
    omega
  · exact keeps_same (frame_trans h hf1 hf2)

theorem taken_mark {h'' : Heap} {n : Nat} {c : Block} {rs' : List Block} {fl' : List Nat}
    (hb : b.used = false) (ht : Taken h h' ls rs b n c rs' fl')
    (heq : h'.set .magic (h.addr (total size ls))
      (h'.get .magic (h.addr (total size ls)) ||| memheapUsed) = h'') :
    Allocated h (ls ++ [b] ++ rs) n h'' (h.addr (total size ls) + memheapSize)
      (ls ++ [⟨c.size, true⟩] ++ rs') fl' (total size ls) ⟨c.size, true⟩ := by
  have haddr := addr_congr (total size ls) ht.keeps.startAddr
  have hmagic : h'.get .magic (h'.addr (total size ls)) = mark false := by
    rw [(shape_at ht.lists.shape).magic, ht.free]
  have heq' : h'.set .magic (h'.addr (total size ls)) (mark true) = h'' := by
    rw [← heq, ← haddr, hmagic]
    rfl
  rcases lists_mark h'' ls rs' c ht.lists heq' with ⟨hl, hf, ha⟩
  have hk : Keeps h' h'' (ls ++ [c] ++ rs') (ls ++ [⟨c.size, true⟩] ++ rs') (fun _ => False) :=
    keeps_mark _ c ⟨c.size, true⟩ rfl
      (fun hcu => Bool.false_ne_true (ht.free.symm.trans hcu)) hf
  have happ := hi.apart
  rw [← append_cons] at happ
  refine ⟨⟨hl, ht.frees, ?_, ?_⟩, keeps_trans ht.keeps hk, ?_, rfl, ?_, ht.fits, fun d hd => ?_⟩
  · rw [← append_cons]
    exact apart_used (apart_neighbours ls rs b happ).1 ht.apart rfl
  · rw [ha]
    exact ht.available
  · rw [← append_cons]
    exact located_middle size ls rs' _
  · rw [addr_congr _ (hf.startAddr.trans ht.keeps.startAddr)]
    exact addr_add h _ 24
  -- Where the block is now, the free block was.
  have hmid := located_middle size ls rs b
  rw [append_cons] at hmid
  rcases shape_bounds hi.lists.shape with ⟨hlarge, _⟩
  rcases hd.apart hmid with ⟨_, rfl⟩ | hlt | hlt
  · exact hb
  · have hpos := hi.lists.shape.place.sizes d hd.mem
    omega
  · omega

omit hi

/-- An allocation returns a pointer to a new block, or none if less is available or no
    free block is large enough. -/
theorem rtMemheapAlloc_spec (sz : BitVec 32) (hi : Inv h bs fl) :
    ∃ h' p, rtMemheapAlloc h sz = some (h', p) ∧
      ((p = 0#32 ∧ h' = h ∧ (h.availableSize ≤ allocSize sz ∨
        ∀ o ∈ fl, h.memitemSize (h.addr o) < allocSize sz)) ∨
      ∃ bs' fl' o b, Allocated h bs (allocSize sz).toNat h' p bs' fl' o b) := by
  have hmin : 12 ≤ (allocSize sz).toNat := by
    rw [allocSize_toNat]
    exact Nat.le_max_left _ _
  have hlists := hi.lists
  unfold rtMemheapAlloc
  generalize allocSize sz = n at *
  dsimp only
  by_cases hav : n < h.availableSize
  · rw [if_pos hav]
    -- The free list is shorter than the number of steps.
    have hfuel : fl.length + 2 ≤ steps := by
      have h1 := hi.frees.length_eq
      have h2 := length_frees bs 0
      have h3 := length_le bs hlists.shape.place.sizes
      have h4 := hlists.shape.place.room
      unfold steps
      omega
    rcases allocSearch_spec fl n hlists.shape (fun o ho => by
        rcases inv_listed o hi ho with ⟨b, hb, _⟩
        exact ⟨b, hb⟩) h.freeHeader 0#32 steps hlists.free
        (lt_def.mpr (lt_of_lt_of_le (by decide) hmin)) hfuel with
      ⟨ptr, found, hsearch, hfound⟩
    rw [← hlists.shape.freeList] at hsearch
    rw [hsearch]
    simp only [some_bind]
    rcases hfound with ⟨hnone, hall⟩ | ⟨o, ho, b, hb, rfl, hsize, hfits⟩
    · refine ⟨h, 0#32, ?_, .inl ⟨rfl, rfl, .inr hall⟩⟩
      rw [if_neg (BitVec.not_le.mpr hnone)]
      rfl
    rw [if_pos hfits]
    rcases inv_listed o hi ho with ⟨b', hb', hfree⟩
    have hbb : b' = b := by
      have hs' := hlists.shape.place.sizes b' hb'.mem
      have hs := hlists.shape.place.sizes b hb.mem
      rcases hb'.apart hb with ⟨_, heq⟩ | hlt | hlt
      · exact heq
      · omega
      · omega
    subst hbb
    rcases hb.split with ⟨ls, rs, rfl, rfl⟩
    rw [append_cons] at hi hlists
    rcases shape_bounds hlists.shape with ⟨hlarge, hroom⟩
    rw [le_def] at hfits
    refine ⟨_, _, rfl, .inr ?_⟩
    rw [append_cons]
    have htaken : ∃ c rs' fl', Taken h
        (if n + memheapSize + memheapMinialloc ≤ found
          then allocSplit h (h.addr (total size ls)) n
          else allocWhole h (h.addr (total size ls)) found) ls rs b' n.toNat c rs' fl' := by
      split_ifs with hcut
      · refine allocSplit_spec _ ls rs hi hfree hmin ?_ rfl
        rw [le_def, hsize] at hcut
        change ((n.toNat + 24) % 2 ^ 32 + 12) % 2 ^ 32 ≤ b'.size - 24 at hcut
        omega
      · rcases allocWhole_spec _ ls rs hi n.toNat hfree hsize (by omega) rfl with
          ⟨fl', ht⟩
        exact ⟨b', rs, fl', ht⟩
    rcases htaken with ⟨c, rs', fl', ht⟩
    exact ⟨_, fl', _, _, taken_mark _ ls rs hi hfree ht rfl⟩
  · refine ⟨h, 0#32, ?_, .inl ⟨rfl, rfl, .inl (BitVec.not_lt.mp hav)⟩⟩
    rw [if_neg hav]

end Alloc

/-- The headers of two neighbours and the one behind them. -/
structure Pair (h : Heap) (bs : List Block) (o m k : Nat) : Prop where
  first : IsItem h.startAddr h.freeHeader bs (h.addr o)
  second : IsItem h.startAddr h.freeHeader bs (h.addr m)
  behind : IsItem h.startAddr h.freeHeader bs (h.addr k)
  next : h.get .next (h.addr m) = h.addr k
  prev : h.get .prev (h.addr m) = h.addr o
  first_ne : h.addr o ≠ h.addr m
  behind_ne : h.addr k ≠ h.addr m

section Merge

variable {h : Heap} (h' : Heap) (ls rs bs : List Block) (b c : Block) {fl : List Nat}
  (xs ys : List Nat)

variable {ls rs b c} in
theorem shape_pair (hs : Shape h (ls ++ [b, c] ++ rs)) {o m k : Nat} (ho : o = total size ls)
    (hm : m = total size ls + b.size) (hk : k = total size ls + (b.size + c.size)) :
    Pair h (ls ++ [b, c] ++ rs) o m k := by
  have hlist : ls ++ [b, c] ++ rs = ls ++ [b] ++ [c] ++ rs := by
    simp only [append_assoc, cons_append, nil_append]
  have hsc : Shape h (ls ++ [b] ++ [c] ++ rs) := by
    rw [← hlist]
    exact hs
  have hsb : Shape h (ls ++ [b] ++ c :: rs) := by
    rw [append_cons]
    exact hsc
  have hheader := shape_at hsc
  rw [lastOff_append, Nat.zero_add] at hheader
  rcases shape_bounds hsb with ⟨hlb, hrb⟩
  rcases shape_bounds hsc with ⟨hlc, hrc⟩
  simp only [total_append, total_singleton] at hheader hrc
  rcases headerAt_pair ls rs b c with ⟨hatO, hatM, hatK⟩
  refine ⟨item_addr h (ho ▸ hatO), item_addr h (hm ▸ hatM), item_addr h (hk ▸ hatK), ?_, ?_,
    fun hc => ?_, fun hc => ?_⟩
  · rw [hm, hk, ← Nat.add_assoc]
    exact hheader.next
  · rw [hm, ho]
    exact hheader.prev
  · have := addr_inj hc (by omega)
    omega
  · have := addr_inj hc (by omega)
    omega

theorem linkOut_get (hs : Shape h (ls ++ [b, c] ++ rs)) {o k : Nat} (ho : o = total size ls)
    (hk : k = total size ls + (b.size + c.size))
    (heq : (h.set .prev (h.addr k) (h.addr o)).set .next (h.addr o) (h.addr k) = h' ∨
      (h.set .next (h.addr o) (h.addr k)).set .prev (h.addr k) (h.addr o) = h') :
    Written h h' (ls ++ [b, c] ++ rs) fun g a =>
      if Field.next = g ∧ h.addr o = a then h.addr k
      else if Field.prev = g ∧ h.addr k = a then h.addr o else h.get g a := by
  have hp := hs.place
  have hpair := shape_pair hs ho rfl hk
  have hwrite : Written h h (ls ++ [b, c] ++ rs) h.get := written_refl h
  rcases heq with heq | heq
  · rw [← heq]
    exact (hwrite.set hp hpair.behind).set hp hpair.first
  -- The writes are to different fields, so the order does not matter.
  rcases heq ▸ (hwrite.set hp hpair.first).set hp hpair.behind with ⟨hframe, havail, hget⟩
  refine ⟨hframe, havail, fun g a ha => (hget g a ha).trans ?_⟩
  by_cases hg : Field.next = g
  · simp only [← hg, reduceCtorEq, false_and, if_false]
  · simp only [hg, false_and, if_false]

theorem linkOut_spec (hl : Lists h (ls ++ [b, c] ++ rs) fl) {o k : Nat}
    (ho : o = total size ls) (hk : k = total size ls + (b.size + c.size))
    (hfresh : total size ls + b.size ∉ fl)
    (heq : (h.set .prev (h.addr k) (h.addr o)).set .next (h.addr o) (h.addr k) = h' ∨
      (h.set .next (h.addr o) (h.addr k)).set .prev (h.addr k) (h.addr o) = h') :
    Lists h' (ls ++ [⟨b.size + c.size, b.used⟩] ++ rs) fl ∧ Frame h h' (ls ++ [b, c] ++ rs) ∧
      h'.availableSize = h.availableSize := by
  rcases linkOut_get h' ls rs b c hl.shape ho hk heq with ⟨hframe, havail, hget⟩
  rw [ho, hk] at hget
  exact ⟨lists_merge h' ls rs b c hl hframe hfresh hget, hframe, havail⟩

theorem absorb_spec (hl : Lists h (ls ++ [b, c] ++ rs) (xs ++ (total size ls + b.size) :: ys))
    (heq : h.absorb (h.addr (total size ls)) (h.addr (total size ls + b.size)) = h') :
    Lists h' (ls ++ [⟨b.size + c.size, b.used⟩] ++ rs) (xs ++ ys) ∧
      Frame h h' (ls ++ [b, c] ++ rs) ∧ h'.availableSize = h.availableSize := by
  have hs := hl.shape
  have hpair := shape_pair hs rfl rfl rfl
  -- The link of the second header is read again after the first write.
  have hread : (h.set .prev (h.addr (total size ls + (b.size + c.size)))
      (h.addr (total size ls))).get .next (h.addr (total size ls + b.size))
      = h.addr (total size ls + (b.size + c.size)) := by
    rw [get_set _ (separate_items hs.place) hpair.behind hpair.second]
    exact hpair.next
  generalize h1eq : (h.set .prev (h.addr (total size ls + (b.size + c.size)))
    (h.addr (total size ls))).set .next (h.addr (total size ls))
    (h.addr (total size ls + (b.size + c.size))) = h1
  have heq' : h1.unlinkFree (h.addr (total size ls + b.size)) = h' := by
    rw [← h1eq, ← heq]
    unfold Heap.absorb
    dsimp only
    rw [hpair.next, hread]
  rcases linkOut_get h1 ls rs b c hs rfl rfl (.inl h1eq) with ⟨hf1, ha1, hget1⟩
  have hshape := shape_merge h h1 ls rs b c hs hf1 (fun g a ha _ _ => hget1 g a ha)
  have hfree := freeOk_congr h h1 _ hf1.startAddr hf1.freeHeader hl.listed (fun a ha => by
    rw [hget1 _ a ha, hget1 _ a ha]
    simp only [reduceCtorEq, false_and, if_false, and_self]) hl.free
  -- The free list goes through the old header until it is unlinked.
  rw [← addr_congr _ hf1.startAddr] at heq'
  rcases unlinkFree_spec h1 h' (by rw [hf1.startAddr, hf1.freeHeader]; exact hs.place)
    hl.listed hl.nodup hfree heq' with ⟨hfree', hf2, ha2, hsame⟩
  have hnotin : total size ls + b.size ∉ xs ++ ys := (nodup_middle.mp hl.nodup).notMem
  have hsub : (xs ++ ys).Sublist (xs ++ (total size ls + b.size) :: ys) :=
    List.Sublist.append_left (sublist_cons_self _ ys) xs
  refine ⟨⟨shape_congr hshape hf2 (fun o ho => hsame o ?_), hfree', hl.nodup.sublist hsub,
    fun o ho => ?_⟩, frame_trans h hf1 hf2, ha2.trans ha1⟩
  · exact headerAt_cut ls rs b rfl ho
  · refine headerAt_join ls rs b c o (hl.listed o (hsub.subset ho)) ?_ rfl
    rintro rfl
    exact hnotin ho

end Merge

/-- A free block among the others, which agree with the free list. The block itself may
    be on it or not. -/
structure Open (h : Heap) (ls : List Block) (b : Block) (rs : List Block) (fl : List Nat)
    (listed : Bool) : Prop where
  lists : Lists h (ls ++ [b] ++ rs) fl
  free : b.used = false
  frees : fl.Perm (frees 0 ls ++ ((if listed then [total size ls] else []) ++
    frees (total size ls + b.size) rs))
  left : ls.IsChain Apart
  right : rs.IsChain Apart

section Free

variable {h : Heap} (h' : Heap) {ls : List Block} (rs : List Block) {bs : List Block} {b c : Block}
  {fl : List Nat} {listed : Bool}

theorem open_count (k : BitVec 32) (ho : Open h ls b rs fl listed) :
    Open { h with availableSize := k } ls b rs fl listed :=
  { ho with lists := lists_count h ho.lists }

theorem inv_of_open (ho : Open h ls b rs fl true)
    (hav : h.availableSize.toNat = freeTotal (ls ++ [b] ++ rs))
    (hlast : ∀ d ∈ ls.getLast?, d.used = true) (hhead : ∀ d ∈ rs.head?, d.used = true) :
    Inv h (ls ++ [b] ++ rs) fl := by
  refine ⟨ho.lists, ?_, ?_, hav⟩
  · have hfrees := ho.frees
    rw [← append_cons, frees_append, frees_free ho.free, Nat.zero_add]
    exact hfrees
  · rw [← append_cons]
    exact apart_free ho.left ho.right hlast hhead

/-- A block that is not on the free list by count is not on it at all. -/
theorem open_fresh (ho : Open h ls b rs fl false) : total size ls ∉ fl := by
  have hnd := nodup_offsetsIf size (ls ++ [b] ++ rs) (fun b => !b.used) 0 (fun d hd => by
    have := ho.lists.shape.place.sizes d hd
    omega)
  change (MemHeap.frees 0 (ls ++ [b] ++ rs)).Nodup at hnd
  rw [← append_cons, frees_append, frees_free ho.free, Nat.zero_add] at hnd
  rw [ho.frees.mem_iff]
  exact (nodup_middle.mp hnd).notMem

theorem open_link (ho : Open h ls b rs fl false) (heq : h.linkFree (h.addr (total size ls)) = h') :
    Open h' ls b rs (total size ls :: fl) true ∧ Frame h h' (ls ++ [b] ++ rs) ∧
      h'.availableSize = h.availableSize := by
  have hat : HeaderAt (ls ++ [b] ++ rs) (total size ls) := by
    rw [← append_cons]
    exact headerAt_middle
  rcases lists_link h' _ ho.lists hat (open_fresh rs ho) heq with ⟨hl, hf, ha⟩
  exact ⟨⟨hl, ho.free, perm_cons_append_cons _ ho.frees, ho.left, ho.right⟩, hf, ha⟩

theorem open_absorb (ho : Open h ls b (c :: rs) fl listed) (hc : c.used = false)
    (heq : h.absorb (h.addr (total size ls)) (h.addr (total size ls + b.size)) = h') :
    ∃ fl', Open h' ls ⟨b.size + c.size, false⟩ rs fl' listed ∧ (∀ d ∈ rs.head?, d.used = true) ∧
      Keeps h h' (ls ++ [b] ++ c :: rs) (ls ++ [⟨b.size + c.size, false⟩] ++ rs) (fun _ => False) ∧
      h'.availableSize = h.availableSize := by
  have hlist : ls ++ [b] ++ c :: rs = ls ++ [b, c] ++ rs := by
    simp only [append_assoc, cons_append, nil_append]
  have hperm := ho.frees
  rw [frees_free hc, ← append_assoc] at hperm
  have hmem : total size ls + b.size ∈ fl :=
    hperm.mem_iff.mpr (mem_append_right _ mem_cons_self)
  rcases append_of_mem hmem with ⟨xs, ys, rfl⟩
  have hperm' := perm_inv_core hperm
  have hl := ho.lists
  rw [hlist] at hl ⊢
  rcases absorb_spec h' ls rs b c xs ys hl heq with ⟨hl', hf, ha⟩
  rw [ho.free] at hl'
  have hright := ho.right
  rcases apart_neighbours [] rs c hright with ⟨_, hrs, hside⟩
  refine ⟨xs ++ ys, ⟨hl', rfl, ?_, ho.left, hrs⟩, (hside hc).2, ?_, ha⟩
  · rw [append_assoc, Nat.add_assoc] at hperm'
    exact hperm'
  · exact keeps_join _ rfl (fun hbu => Bool.false_ne_true (ho.free.symm.trans hbu)) hc hf

theorem open_right {k : BitVec 32} (ho : Open h ls b rs fl listed)
    (heq : (if h.isUsed (h.get .next (h.addr (total size ls))) then h
      else ({ h with availableSize := k } : Heap).absorb (h.addr (total size ls))
        (h.get .next (h.addr (total size ls)))) = h') :
    (h' = h ∧ ∀ d ∈ rs.head?, d.used = true) ∨
    ∃ c cs fl', rs = c :: cs ∧ c.used = false ∧ Open h' ls ⟨b.size + c.size, false⟩ cs fl' listed ∧
      (∀ d ∈ cs.head?, d.used = true) ∧
      Keeps h h' (ls ++ [b] ++ rs) (ls ++ [⟨b.size + c.size, false⟩] ++ cs) (fun _ => False) ∧
      h'.availableSize = k := by
  have hs := ho.lists.shape
  rw [(shape_at hs).next] at heq
  cases rs with
  | nil =>
    -- Behind the last block is the header at the end.
    have htail := isUsed_tail hs
    simp only [total_append, total_cons, total_nil, Nat.add_zero] at htail
    rw [htail] at heq
    refine .inl ⟨heq.symm, fun d hd => ?_⟩
    exact nomatch hd
  | cons c cs =>
    have hs' := hs
    rw [append_cons] at hs'
    have hused := isUsed_block hs'
    simp only [total_append, total_cons, total_nil, Nat.add_zero] at hused
    rw [hused] at heq
    cases hc : c.used with
    | true =>
      rw [hc] at heq
      refine .inl ⟨heq.symm, fun d hd => ?_⟩
      rw [head?_cons, Option.mem_some_iff] at hd
      rw [← hd]
      exact hc
    | false =>
      rw [hc] at heq
      have ho1 := open_count (c :: cs) k ho
      rcases open_absorb h' cs ho1 hc heq with
        ⟨fl', ho', hhead, hk, ha⟩
      exact .inr ⟨c, cs, fl', rfl, hc, ho', hhead, ⟨hk.startAddr, hk.blocks⟩, ha⟩

theorem mergeRight_spec (ho : Open h ls b rs fl listed)
    (hav : h.availableSize.toNat = freeTotal (ls ++ [b] ++ rs))
    (heq : mergeRight h (h.addr (total size ls)) = h') :
    ∃ b' rs' fl', Open h' ls b' rs' fl' listed ∧ (∀ d ∈ rs'.head?, d.used = true) ∧
      Keeps h h' (ls ++ [b] ++ rs) (ls ++ [b'] ++ rs') (fun _ => False) ∧
      h'.availableSize.toNat = freeTotal (ls ++ [b'] ++ rs') := by
  have hs := ho.lists.shape
  rcases shape_bounds hs with ⟨hlarge, hroom⟩
  rcases open_right h' rs ho heq with
    ⟨rfl, hhead⟩ | ⟨c, cs, fl', rfl, hc, ho', hhead, hk, ha⟩
  · exact ⟨b, rs, fl, ho, hhead, keeps_same (frame_refl h'), hav⟩
  have hlarge' := hs.large c (mem_append_right (ls ++ [b]) mem_cons_self)
  have hls := freeTotal_le ls
  have hcs := freeTotal_le cs
  refine ⟨_, cs, fl', ho', hhead, hk, ?_⟩
  rw [ha, toNat_add, hav]
  simp only [freeTotal_append, freeTotal, ho.free, hc, Bool.false_eq_true, if_false, total_cons]
    at hroom ⊢
  change (_ + 24) % 2 ^ 32 = _
  omega

/-- The writes of a merge with the block in front. The links of the block are read
    between them, and are not written. -/
theorem mergeLeft_eq {b : Block} {a : Block} (hs : Shape h (ls ++ [a, b] ++ rs)) {o m k : Nat}
    (ho : o = total size ls) (hm : m = total size ls + a.size)
    (hk : k = total size ls + (a.size + b.size)) (ha : a.used = false) :
    mergeLeft h (h.addr m) =
      (({ h with availableSize := h.availableSize + memheapSize }.set .next (h.addr o)
        (h.addr k)).set .prev (h.addr k) (h.addr o), h.addr o, true) := by
  have hS := separate_items hs.place
  have hpair := shape_pair hs ho hm hk
  have hused : h.isUsed (h.addr o) = false := by
    have hsa : Shape h (ls ++ [a] ++ b :: rs) := by
      rw [append_assoc] at hs ⊢
      exact hs
    rw [ho, isUsed_block hsa]
    exact ha
  generalize h1eq : ({ h with availableSize := h.availableSize + memheapSize } : Heap) = h1
  have hget1 : ∀ f a, h1.get f a = h.get f a := by
    intro f a
    rw [← h1eq]
    rfl
  have hnext2 : (h1.set .next (h.addr o) (h.addr k)).get .next (h.addr m) = h.addr k := by
    rw [get_set _ hS hpair.first hpair.second, if_neg (fun hc => hpair.first_ne hc.2),
      hget1, hpair.next]
  have hprev2 : (h1.set .next (h.addr o) (h.addr k)).get .prev (h.addr m) = h.addr o := by
    rw [get_set _ hS hpair.first hpair.second, if_neg (fun hc => hpair.first_ne hc.2),
      hget1, hpair.prev]
  have hprev3 : ((h1.set .next (h.addr o) (h.addr k)).set .prev (h.addr k) (h.addr o)).get .prev
      (h.addr m) = h.addr o := by
    rw [get_set _ hS hpair.behind hpair.second, if_neg (fun hc => hpair.behind_ne hc.2), hprev2]
  unfold mergeLeft
  rw [hpair.prev, hused, if_neg Bool.false_ne_true, h1eq]
  simp only [hget1, hpair.prev, hpair.next, hnext2, hprev2, hprev3]

theorem mergeLeft_spec (ho : Open h ls b rs fl false)
    (hav : h.availableSize.toNat = freeTotal (ls ++ [b] ++ rs)) {ptr : BitVec 32}
    (heq : mergeLeft h (h.addr (total size ls)) = (h', ptr, listed)) :
    ∃ ls' b', ptr = h'.addr (total size ls') ∧ Open h' ls' b' rs fl listed ∧
      (∀ d ∈ ls'.getLast?, d.used = true) ∧
      Keeps h h' (ls ++ [b] ++ rs) (ls' ++ [b'] ++ rs) (fun _ => False) ∧
      h'.availableSize.toNat = freeTotal (ls' ++ [b'] ++ rs) := by
  have hs := ho.lists.shape
  have hprev := (shape_at hs).prev
  rcases eq_nil_or_concat' ls with rfl | ⟨ls', a, rfl⟩
  · -- In front of the first block is the header at the end.
    unfold mergeLeft at heq
    rw [hprev] at heq
    have htail := isUsed_tail hs
    change h.isUsed (h.addr (lastOff size (total size ([] ++ [b] ++ rs)) 0 [])) = true at htail
    rw [htail] at heq
    cases heq
    refine ⟨[], b, rfl, ho, fun d hd => ?_, keeps_same (frame_refl h), hav⟩
    exact nomatch hd
  cases ha : a.used with
  | true =>
    have hsa : Shape h (ls' ++ [a] ++ b :: rs) := by
      rw [append_cons]
      exact hs
    have hused := isUsed_block hsa
    rw [lastOff_append] at hprev
    simp only [lastOff, Nat.zero_add] at hprev
    unfold mergeLeft at heq
    rw [hprev, hused, ha] at heq
    cases heq
    refine ⟨ls' ++ [a], b, rfl, ho, fun d hd => ?_, keeps_same (frame_refl h), hav⟩
    rw [getLast?_concat, Option.mem_some_iff] at hd
    rw [← hd]
    exact ha
  | false =>
    have hlist : ls' ++ [a] ++ [b] ++ rs = ls' ++ [a, b] ++ rs := by
      simp only [append_assoc, cons_append, nil_append]
    have hl := ho.lists
    rw [hlist] at hl
    have htotal : total size (ls' ++ [a]) = total size ls' + a.size := by
      simp only [total_append, total_singleton]
    rw [mergeLeft_eq rs hl.shape rfl htotal rfl ha] at heq
    generalize h1eq : ({ h with availableSize := h.availableSize + memheapSize } : Heap) = h1 at heq
    have hl1 : Lists h1 (ls' ++ [a, b] ++ rs) fl := by
      rw [← h1eq]
      exact lists_count h hl
    have hk1 : Keeps h h1 (ls' ++ [a, b] ++ rs) (ls' ++ [a, b] ++ rs) (fun _ => False) := by
      rw [← h1eq]
      exact keeps_same (frame_count h _ _ _)
    have hstart := hk1.startAddr
    rw [Prod.mk.injEq] at heq
    rcases heq with ⟨hheap, rfl, rfl⟩
    have haddr := fun k => addr_congr k hstart
    rw [← haddr, ← haddr] at hheap
    have hfresh := open_fresh rs ho
    rw [htotal] at hfresh
    rcases linkOut_spec h' ls' rs a b hl1 rfl rfl hfresh (.inr hheap) with ⟨hl', hf, hcount⟩
    rw [ha] at hl'
    rcases shape_bounds hs with ⟨hlarge, hroom⟩
    have hlarge' := hs.large a (by
      rw [hlist]
      exact mem_append_left rs (mem_append_right ls' mem_cons_self))
    have hls := freeTotal_le ls'
    have hrs := freeTotal_le rs
    have happ := ho.left
    rcases apart_neighbours ls' [] a happ with ⟨hleft, _, hside⟩
    refine ⟨ls', ⟨a.size + b.size, false⟩, ?_, ⟨hl', rfl, ?_, hleft, ho.right⟩, (hside ha).1, ?_,
      ?_⟩
    · exact (addr_congr _ (hf.startAddr.trans hstart)).symm
    · have hperm := ho.frees
      rw [frees_append, frees_free ha, htotal, Nat.zero_add, Nat.add_assoc, append_assoc] at hperm
      exact hperm
    · rw [hlist]
      exact keeps_trans hk1 (keeps_join _ rfl
        (fun hau => Bool.false_ne_true (ha.symm.trans hau)) ho.free hf)
    · have hadd : h1.availableSize = h.availableSize + 24#32 := by
        rw [← h1eq, memheapSize_eq]
      rw [hcount, hadd, toNat_add, hav]
      simp only [freeTotal_append, freeTotal, ho.free, ha, Bool.false_eq_true, if_false,
        total_append, total_cons] at hroom ⊢
      change (_ + 24) % 2 ^ 32 = _
      omega

theorem mark_magic (u : Bool) : mark u &&& memheapMask = memheapMagic := by
  cases u with
  | false => decide
  | true => decide

theorem magic_next {ls rs : List Block} {b : Block} (hs : Shape h (ls ++ [b] ++ rs)) :
    h.get .magic (h.get .next (h.addr (total size ls))) &&& memheapMask = memheapMagic := by
  rw [(shape_at hs).next]
  cases rs with
  | nil =>
    have htail := hs.tail.magic
    simp only [total_append, total_cons, total_nil, Nat.add_zero] at htail
    rw [htail]
    exact mark_magic true
  | cons c cs =>
    rw [append_cons] at hs
    have hmagic := (shape_at hs).magic
    simp only [total_append, total_cons, total_nil, Nat.add_zero] at hmagic
    rw [hmagic]
    exact mark_magic c.used

theorem ptr_sub (h : Heap) (o : Nat) : h.addr (o + 24) - memheapSize = h.addr o := by
  rw [← addr_add]
  exact BitVec.add_sub_cancel _ _

theorem ptr_ne_zero {o : Nat} (hs : Shape h bs) (hb : Located size bs o b) :
    h.addr (o + 24) ≠ 0#32 := by
  have hroom := hs.place.room
  have hbound := hb.bound
  have hlarge := hs.large b hb.mem
  intro hc
  have hnat := congrArg BitVec.toNat hc
  rw [addr_toNat (by omega)] at hnat
  change _ = 0 at hnat
  omega

/-- A block is released: it is marked as free, merged with its neighbours, and put on
    the free list, unless it has become part of a block that is on it. -/
theorem rtMemheapFree_spec {ls rs : List Block} (hi : Inv h (ls ++ [b] ++ rs) fl)
    (hb : b.used = true) :
    ∃ h' bs' fl', rtMemheapFree h (h.addr (total size ls + 24)) = some h' ∧ Inv h' bs' fl' ∧
      Keeps h h' (ls ++ [b] ++ rs) bs' (· = total size ls) := by
  have hs := hi.lists.shape
  have hheader := shape_at hs
  have hmagic := hheader.magic
  rw [hb] at hmagic
  have hmid := located_middle size ls rs b
  rw [append_cons] at hmid
  unfold rtMemheapFree
  rw [if_neg (ptr_ne_zero hs hmid), ptr_sub]
  dsimp only
  -- The checks pass.
  rw [hmagic, hheader.poolPtr]
  simp only [some_bind, rtAssert, if_pos (mark_magic true), if_pos ((mark_used true).mpr rfl),
    if_pos (magic_next hs), if_pos hs.self, if_true]
  have hclear : mark true &&& ~~~memheapUsed = mark false := by decide
  rw [hclear]
  generalize h1eq : h.set .magic (h.addr (total size ls)) (mark false) = h1
  rcases lists_mark h1 ls rs b hi.lists h1eq with ⟨hl1, hf1, ha1⟩
  have hk1 := keeps_mark (· = total size ls) b ⟨b.size, false⟩ rfl (fun _ => rfl) hf1
  have haddr := addr_congr (total size ls) hf1.startAddr
  have hsize := memitemSize_toNat hl1.shape
  rw [haddr] at hsize
  generalize h1.memitemSize (h.addr (total size ls)) = m at *
  generalize h2eq : ({ h1 with availableSize := h1.availableSize + m } : Heap) = h2
  rcases shape_bounds hs with ⟨hlarge, hroom⟩
  have hls := freeTotal_le ls
  have hrs := freeTotal_le rs
  have happ := hi.apart
  rw [← append_cons] at happ
  rcases apart_neighbours ls rs b happ with ⟨hleft, hright, _⟩
  have ho2 : Open h2 ls ⟨b.size, false⟩ rs fl false := by
    rw [← h2eq]
    refine ⟨lists_count h1 hl1, rfl, ?_, hleft, hright⟩
    have hperm := hi.frees
    rw [← append_cons, frees_append, frees_used hb, Nat.zero_add] at hperm
    exact hperm
  have hk2 : Keeps h1 h2 (ls ++ [⟨b.size, false⟩] ++ rs) (ls ++ [⟨b.size, false⟩] ++ rs)
      (fun _ => False) := by
    rw [← h2eq]
    exact keeps_same (frame_count h1 _ _ _)
  have hav2 : h2.availableSize.toNat = freeTotal (ls ++ [⟨b.size, false⟩] ++ rs) := by
    rw [← h2eq]
    dsimp only
    rw [toNat_add, hsize, ha1, hi.available]
    simp only [freeTotal_append, freeTotal, hb, Bool.false_eq_true, if_false, if_true]
    omega
  -- The merge to the left, and then the one to the right.
  rcases hleq : mergeLeft h2 (h.addr (total size ls)) with ⟨h3, ptr, listed⟩
  have haddr2 := addr_congr (total size ls) hk2.startAddr
  rw [← haddr, ← haddr2] at hleq
  rcases mergeLeft_spec h3 rs ho2 hav2 hleq with
    ⟨ls', b', rfl, ho3, hlast, hk3, hav3⟩
  dsimp only
  generalize hreq : mergeRight h3 (h3.addr (total size ls')) = h4
  rcases mergeRight_spec h4 rs ho3 hav3 hreq with
    ⟨b'', rs', fl', ho4, hhead, hk4, hav4⟩
  have hk : Keeps h h4 (ls ++ [b] ++ rs) (ls' ++ [b''] ++ rs') (· = total size ls) := by
    refine keeps_trans hk1 (keeps_all ?_)
    refine keeps_trans hk2 ?_
    exact keeps_trans hk3 hk4
  cases listed with
  | true =>
    refine ⟨h4, _, fl', ?_, inv_of_open rs' ho4 hav4 hlast hhead, hk⟩
    rw [if_pos rfl]
    rfl
  | false =>
    generalize h5eq : h4.linkFree (h4.addr (total size ls')) = h5
    rcases open_link h5 rs' ho4 h5eq with ⟨ho5, hf5, ha5⟩
    refine ⟨h5, _, _, ?_, inv_of_open rs' ho5 (by rw [ha5]; exact hav4) hlast hhead,
      keeps_trans hk (keeps_same hf5)⟩
    rw [if_neg Bool.false_ne_true, ← h5eq, addr_congr _ hk4.startAddr]
    rfl

end Free

end Honeycomb.MemHeap
