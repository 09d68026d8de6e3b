import Honeycomb.Theory.HeapFree

/-!
# Allocating and Resizing Blocks

What `rtMalloc` and `rtRealloc` do to the blocks of the heap.

An allocation looks for a free block that is large enough and uses the first part
of it, or the whole if the rest would be too small for a block: `taken`. A resize
cuts off the end of the block, or moves to a new one.

The search is proved to find only what it should. Nothing is said about a search
that finds nothing, or that does not end.

## Main definitions

* `Allocated`: A pointer to a block that was free has been returned.
* `Resized`: A pointer to a block with the old bytes has been returned.

## Theorems

* `mallocSearch_spec`: The search finds a free block.
* `mallocTake_spec`: A free block is taken.
* `rtMalloc_spec`: An allocation.
* `reallocShrink_spec`, `reallocMove_spec`: The two ways to resize a block.
* `rtRealloc_spec`: A resize.
-/

namespace Honeycomb.SmallMem

open Heap Layout List Memory
open BitVec (eq_of_toNat_eq le_def lt_def ofNat toNat_add toNat_ofNat toNat_sub)
open Block (size)

section Malloc

variable (h : Heap) (ls rs bs : List Block) (sz : BitVec 32)

theorem area_toNat (o s : Nat) (hs : 12 ≤ s ∧ o + s < 2 ^ 32) :
    (ofNat 32 (o + s) - (ofNat 32 o + sizeofStructMem)).toNat = s - 12 := by
  have hsum : (ofNat 32 o + sizeofStructMem).toNat = o + 12 := by
    simp only [toNat_add, toNat_ofNat, sizeofStructMem]
    omega
  rw [toNat_sub, toNat_ofNat, hsum]
  omega

theorem mallocSearch_spec (hs : Shape h bs) {fuel : Nat} {o : Nat} {ptr : BitVec 32}
    (ho : o = total size bs ∨ ∃ b, Located size bs o b)
    (h' : mallocSearch h sz fuel (ofNat 32 o) = some (some ptr)) :
    ∃ o b, ptr = ofNat 32 o ∧ Located size bs o b ∧ b.used = false ∧ sz.toNat + 12 ≤ b.size := by
  have hroom := hs.room
  induction fuel generalizing o with
  | zero => exact nomatch h'
  | succ fuel ih =>
    unfold mallocSearch at h'
    dsimp only at h'
    split_ifs at h' with hlt hfound
    · -- The header at this offset is that of a free block.
      rcases ho with rfl | ⟨b, hb⟩
      · have hused := hs.stop.used
        exact absurd (hused.symm.trans hfound.1) (by decide)
      have hfree := (used_located hs hb).mp hfound.1
      rcases hb.split with ⟨ls, rs, rfl, rfl⟩
      have hnext := (shape_fields ls rs b hs).2.2.1
      have hsize := hs.sizes b (mem_append_right _ mem_cons_self)
      rw [Option.some.injEq, Option.some.injEq] at h'
      refine ⟨total size ls, b, h'.symm, hb, hfree, ?_⟩
      · have hle : sz ≤ h.next (h.addr (total size ls))
            - (ofNat 32 (total size ls) + sizeofStructMem) := hfound.2
        simp only [total_append, total_cons] at hroom
        rw [hnext, le_def, area_toNat _ _ (by omega)] at hle
        omega
    · -- On to the next block, or once more to the end.
      rcases ho with rfl | ⟨b, hb⟩
      · have hnext : h.next (h.block (ofNat 32 (total size bs)))
            = ofNat 32 (total size bs) := hs.stop.next
        rw [hnext] at h'
        exact ih (.inl rfl) h'
      rcases hb.split with ⟨ls, rs, rfl, rfl⟩
      have hnext : h.next (h.block (ofNat 32 (total size ls)))
          = ofNat 32 (total size ls + b.size) := (shape_fields ls rs b hs).2.2.1
      rw [hnext] at h'
      exact ih located_next h'
    · exact nomatch h'

/-- What becomes of a free block when so many bytes of it are taken. -/
def taken (n : Nat) (f : Block) : List Block :=
  if n + 36 ≤ f.size then [⟨n + 12, true⟩, ⟨f.size - (n + 12), false⟩] else [⟨f.size, true⟩]

theorem taken_cases {n : Nat} {f : Block} (hfit : n + 12 ≤ f.size) :
    ∃ b more, taken n f = b :: more ∧ b.used = true ∧ n + 12 ≤ b.size ∧
      total size (b :: more) = f.size ∧ usedTotal (b :: more) = b.size ∧
      (more = [] ∨ ∃ c, more = [c] ∧ c.used = false) := by
  unfold taken
  split_ifs with hcut
  · refine ⟨_, _, rfl, rfl, le_rfl, ?_, rfl, .inr ⟨_, rfl, rfl⟩⟩
    simp only [total_cons, total_nil]
    omega
  · exact ⟨_, _, rfl, rfl, hfit, rfl, rfl, .inl rfl⟩

theorem linkBehind_vars (ptr2 : BitVec 32) :
    (linkBehind h ptr2).lfree = h.lfree ∧ (linkBehind h ptr2).usedMem = h.usedMem := by
  unfold linkBehind
  dsimp only
  split_ifs
  · exact ⟨rfl, rfl⟩
  · exact ⟨rfl, rfl⟩

section Take

variable (f : Block)

theorem mallocSplit_spec (hs : Shape h (ls ++ [f] ++ rs)) (hcut : sz.toNat + 36 ≤ f.size)
    (hmod : sz.toNat % 4 = 0) {h' : Heap}
    (heq : mallocSplit h (ofNat 32 (total size ls)) sz = h') :
    Shape h' (ls ++ [⟨sz.toNat + 12, true⟩, ⟨f.size - (sz.toNat + 12), false⟩] ++ rs) ∧
    Agrees h h' (total size ls) (total size ls + f.size + 12) ∧
    h'.lfree = h.lfree ∧ h'.usedMem = h.usedMem + (sz + sizeofStructMem) := by
  have hroom := hs.room
  have hheader := shape_header ls rs f (by rw [append_cons]; exact hs)
  simp only [total_append, total_cons, total_nil] at hroom
  generalize ho : total size ls = o at *
  have hptr2 : ofNat 32 o + sizeofStructMem + sz = ofNat 32 (o + (sz.toNat + 12)) := by
    refine eq_of_toNat_eq ?_
    simp only [toNat_add, toNat_ofNat, sizeofStructMem]
    omega
  unfold mallocSplit at heq
  rw [hptr2] at heq
  dsimp only at heq
  rcases cutBlock_memory o (sz.toNat + 12) (by omega) (by omega) rfl with
    ⟨hcutA, hcutO, hcutN, _, hcutL, hcutU⟩
  generalize cutBlock h (ofNat 32 o) (ofNat 32 (o + (sz.toNat + 12))) = g1 at *
  -- The first part is marked as used.
  rcases sets_used (g1.addr o) 1#16 rfl (by omega) with ⟨hsetA, hset⟩
  have hfirst : HeaderOk (g1.setUsed (g1.addr o) 1#16) (lastOff size 0 0 ls) o
      ⟨sz.toNat + 12, true⟩ := by
    unfold HeaderOk
    rw [hset, hcutO, hheader]
    rfl
  have hsecond : HeaderOk (g1.setUsed (g1.addr o) 1#16) o (o + (sz.toNat + 12))
      ⟨f.size - (sz.toNat + 12), false⟩ := by
    unfold HeaderOk
    rw [agrees_header _ hsetA (by omega), hcutN, hheader]
    dsimp only
    rw [show o + (sz.toNat + 12) + (f.size - (sz.toNat + 12)) = o + f.size by omega]
    rfl
  have hA : Agrees h (g1.setUsed (g1.addr o) 1#16) o (o + (sz.toNat + 12) + 12) :=
    agrees_trans hcutA (agrees_mono hsetA (by omega))
  have hcutS := shape_cut ls rs f (sz.toNat + 12) true hs
    (by omega) (by omega) (by omega) (by rw [ho]; exact hA) (by rw [ho]; exact hfirst)
    (by rw [ho]; exact hsecond)
  rw [ho] at hcutS
  rcases hcutS with ⟨hshape, hagrees, _⟩
  have hvars := linkBehind_vars (g1.setUsed (g1.addr o) 1#16) (ofNat 32 (o + (sz.toNat + 12)))
  rw [← heq]
  exact ⟨shape_congr hshape rfl rfl rfl rfl,
    ⟨hagrees.heapPtr, hagrees.heapEnd, hagrees.memSizeAligned, hagrees.byte⟩,
    hvars.1.trans hcutL, congrArg (· + (sz + sizeofStructMem)) (hvars.2.trans hcutU)⟩

theorem mallocWhole_spec (hs : Shape h (ls ++ [f] ++ rs)) {h' : Heap}
    (heq : mallocWhole h (ofNat 32 (total size ls)) = h') :
    Shape h' (ls ++ [⟨f.size, true⟩] ++ rs) ∧
    Agrees h h' (total size ls) (total size ls + f.size + 12) ∧
    h'.lfree = h.lfree ∧ h'.usedMem = h.usedMem + (ofNat 32 (total size ls + f.size)
      - ofNat 32 (total size ls)) := by
  have hroom := hs.room
  have hheader := shape_header ls rs f (by rw [append_cons]; exact hs)
  simp only [total_append, total_cons, total_nil] at hroom
  rcases sets_used (h.addr (total size ls)) 1#16 rfl (by omega) with ⟨hsetA, hset⟩
  have hok : HeaderOk (h.setUsed (h.addr (total size ls)) 1#16) (lastOff size 0 0 ls)
      (total size ls) ⟨f.size, true⟩ := by
    unfold HeaderOk
    rw [hset, hheader]
    rfl
  have hnext : Heap.next (h.setUsed (h.addr (total size ls)) 1#16)
      (h.addr (total size ls)) = ofNat 32 (total size ls + f.size) :=
    congrArg Header.next hok
  have hoff : Heap.offset (h.setUsed (h.addr (total size ls)) 1#16)
      (h.addr (total size ls)) = ofNat 32 (total size ls) := offset_addr
  have hshape := shape_rewrite ls rs f hs hsetA hok
  change (h.setUsed (h.addr (total size ls)) 1#16).count
    (Heap.next (h.setUsed (h.addr (total size ls)) 1#16) (h.addr (total size ls))
      - Heap.offset (h.setUsed (h.addr (total size ls)) 1#16)
        (h.addr (total size ls))) = h' at heq
  rw [hnext, hoff] at heq
  rw [← heq]
  exact ⟨shape_congr hshape rfl rfl rfl rfl,
    { hsetA with byte := fun x hx hout => hsetA.byte x hx (by omega) }, rfl, rfl⟩

theorem mallocTake_spec (hi : HeapInv h (ls ++ f :: rs)) (hf : f.used = false)
    (hfit : sz.toNat + 12 ≤ f.size) (hmod : sz.toNat % 4 = 0) {h' : Heap}
    (heq : mallocTake h (ofNat 32 (total size ls)) sz = h') :
    Shape h' (ls ++ taken sz.toNat f ++ rs) ∧
    Agrees h h' (total size ls) (total size ls + f.size + 12) ∧
    h'.lfree = h.lfree ∧ h'.usedMem.toNat = usedTotal (ls ++ taken sz.toNat f ++ rs) := by
  have hs := hi.shape
  have hroom := hs.room
  have hcount := hi.usedMem
  have hnext := (shape_fields ls rs f hs).2.2.1
  have hls := usedTotal_le ls
  have hrs := usedTotal_le rs
  simp only [total_append, total_cons] at hroom
  simp only [usedTotal_append, usedTotal_cons, hf, Bool.false_eq_true, if_false] at hcount
  have hcond : sz + sizeofStructMem + minSizeAligned ≤ h.next (h.addr (total size ls))
      - (ofNat 32 (total size ls) + sizeofStructMem) ↔ sz.toNat + 36 ≤ f.size := by
    have hsum : (sz + sizeofStructMem + minSizeAligned).toNat = sz.toNat + 24 := by
      rw [show minSizeAligned = 12#32 from rfl]
      simp only [toNat_add, toNat_ofNat, sizeofStructMem]
      omega
    rw [hnext, le_def, hsum, area_toNat _ f.size (by omega)]
    omega
  -- In either case, the mark of the header is written last.
  have hmark : ∀ (g : Heap) (b : Block) (more : List Block), Shape g (ls ++ b :: (more ++ rs)) →
      Agrees h g (total size ls) (total size ls + f.size + 12) →
      g.setMagic (h.addr (total size ls)) heapMagic = h' →
      Shape h' (ls ++ (b :: more) ++ rs) ∧
      Agrees h h' (total size ls) (total size ls + f.size + 12) ∧
      h'.lfree = g.lfree ∧ h'.usedMem = g.usedMem := by
    rintro g b more hshape hagrees rfl
    rcases shape_setMagic ls _ b hshape (agrees_addr _ hagrees).symm with ⟨hfinal, hfinalA⟩
    rw [append_assoc]
    exact ⟨hfinal, agrees_trans hagrees (agrees_mono hfinalA (by omega)), rfl, rfl⟩
  change Heap.setMagic (if sz + sizeofStructMem + minSizeAligned
    ≤ h.next (h.addr (total size ls)) - (ofNat 32 (total size ls) + sizeofStructMem)
    then _ else _) (h.addr (total size ls)) heapMagic = h' at heq
  rw [append_cons] at hs
  have hnil : usedTotal [] = 0 := rfl
  unfold taken
  by_cases hcut : sz.toNat + 36 ≤ f.size
  · rw [if_pos (hcond.mpr hcut)] at heq
    rw [if_pos hcut]
    rcases mallocSplit_spec h ls rs sz f hs hcut hmod rfl with ⟨hshape, hagrees, hlf, hum⟩
    rw [append_assoc] at hshape
    rcases hmark _ _ _ hshape hagrees heq with ⟨hfinal, hfinalA, hlf', hum'⟩
    refine ⟨hfinal, hfinalA, hlf'.trans hlf, ?_⟩
    rw [hum', hum]
    simp only [usedTotal_append, usedTotal_cons, Bool.false_eq_true, if_true, if_false]
    simp only [toNat_add, toNat_ofNat, sizeofStructMem, hcount]
    omega
  rw [if_neg (fun hc => hcut (hcond.mp hc))] at heq
  rw [if_neg hcut]
  rcases mallocWhole_spec h ls rs f hs rfl with ⟨hshape, hagrees, hlf, hum⟩
  rw [append_assoc] at hshape
  rcases hmark _ _ _ hshape hagrees heq with ⟨hfinal, hfinalA, hlf', hum'⟩
  refine ⟨hfinal, hfinalA, hlf'.trans hlf, ?_⟩
  have hdiff : (ofNat 32 (total size ls + f.size) - ofNat 32 (total size ls)).toNat = f.size := by
    simp only [toNat_sub, toNat_ofNat]
    omega
  rw [hum', hum, toNat_add, hdiff, hcount]
  simp only [usedTotal_append, usedTotal_cons, if_true]
  omega

end Take

theorem lowestFree_spec {fuel l : Nat} {h' : Heap} (hs : Shape h bs) (hlf : h.lfree = h.addr l)
    (hl : l = total size bs ∨ ∃ b, Located size bs l b)
    (heq : lowestFree fuel h = some h') :
    ∃ l', h' = { h with lfree := h.addr l' } ∧
      (l' = total size bs ∨ ∃ b, Located size bs l' b ∧ b.used = false) ∧
      ∀ o b, Located size bs o b → b.used = false → l ≤ o → l' ≤ o := by
  have hroom := hs.room
  induction fuel generalizing h l with
  | zero => exact nomatch heq
  | succ fuel ih =>
    unfold lowestFree at heq
    rw [hlf] at heq
    split_ifs at heq with hgo
    · rcases hl with rfl | ⟨b, hb⟩
      · exact absurd hs.heapEnd.symm hgo.2
      -- One block further.
      rcases hb.split with ⟨ls, rs, rfl, rfl⟩
      have hnext : h.block (h.next (h.addr (total size ls)))
          = h.addr (total size ls + b.size) :=
        congrArg h.block (shape_fields ls rs b hs).2.2.1
      rw [hnext] at heq
      rcases ih { h with lfree := h.addr (total size ls + b.size) }
        (shape_congr hs rfl rfl rfl rfl) rfl located_next heq hroom with
        ⟨l', hh', hl', hpass⟩
      refine ⟨l', hh', hl', fun o c hc hcu hlo => hpass o c hc hcu ?_⟩
      -- The block that is passed by is not free.
      rcases hb.apart hc with ⟨_, rfl⟩ | hapart | hapart
      · exact absurd ((used_located hs hb).mpr hcu) hgo.1
      · exact hapart
      · have := hs.sizes c hc.mem
        omega
    · rw [Option.some.injEq] at heq
      refine ⟨l, ?_, ?_, fun _ _ _ _ hlo => hlo⟩
      · rw [← heq, ← hlf]
      rcases hl with hl | ⟨b, hb⟩
      · exact .inl hl
      refine .inr ⟨b, hb, (used_located hs hb).mp (not_not.mp fun hused => hgo ⟨hused, ?_⟩)⟩
      have hsize := hs.sizes b hb.mem
      have hbound := hb.bound
      rw [hs.heapEnd]
      intro hc
      have := addr_inj _ hc (by omega)
      omega

/-- The pointer to the lowest free block after a block has been taken. -/
theorem mallocLfree_spec {o : Nat} {f : Block} {mid : List Block} {g h' : Heap}
    (hi : HeapInv h (ls ++ f :: rs)) (hfu : f.used = false) (ho : o = total size ls)
    (hmid : mid ≠ [])
    (htotal : total size mid = f.size) (hs : Shape g (ls ++ mid ++ rs))
    (hptr : g.heapPtr = h.heapPtr) (hlf : g.lfree = h.lfree)
    (heq : mallocLfree g (h.addr o) = some h') :
    ∃ l, h' = { g with lfree := g.addr l } ∧
      (l = total size (ls ++ mid ++ rs) ∨
        ∃ b, Located size (ls ++ mid ++ rs) l b ∧ b.used = false) ∧
      (LfreeLow h (ls ++ f :: rs) → ∀ x b, Located size (ls ++ mid ++ rs) x b →
        b.used = false → l ≤ x) := by
  have hroom := hi.shape.room
  have hlist := append_cons ls f rs
  -- A free block is behind a block that was free before.
  have hfree : ∀ l, (∀ x b, Located size (ls ++ f :: rs) x b → b.used = false → l ≤ x) →
      ∀ x b, Located size (ls ++ mid ++ rs) x b → b.used = false → l ≤ x := by
    intro l hold x b hb hbu
    rcases hb.replace [f] (by
      rw [htotal, total_singleton]) with hb | ⟨hle, _⟩
    · rw [← hlist] at hb
      exact hold x b hb hbu
    · exact (hold _ f (located_middle size ls rs f) hfu).trans hle
  unfold mallocLfree at heq
  by_cases hmem : h.addr o = g.lfree
  · -- The block that was taken is the one the pointer led to.
    rw [if_pos hmem] at heq
    simp only [bind_iff, assert_iff, pure_iff] at heq
    rcases heq with ⟨g', hlow, _, rfl⟩
    have hstart : ∃ b, Located size (ls ++ mid ++ rs) o b := by
      rcases exists_cons_of_ne_nil hmid with ⟨b, more, rfl⟩
      refine ⟨b, ?_⟩
      rw [ho, append_assoc, cons_append]
      exact located_middle size ls (more ++ rs) b
    rcases lowestFree_spec g _ hs (by rw [← hmem, addr_congr o hptr])
      (.inr hstart) hlow with ⟨l', hg', hl', hpass⟩
    refine ⟨l', hg', hl', fun ⟨l, hl, hle, hold⟩ x b hb hbu => hpass x b hb hbu ?_⟩
    simp only [total_append, total_cons] at hroom hle
    have hlo : l = o := addr_inj _ (hl.symm.trans (hlf.symm.trans hmem.symm)) (by omega)
    rw [← hlo]
    exact hfree l hold x b hb hbu
  rw [if_neg hmem, Option.some.injEq] at heq
  rcases hi.lfree with ⟨l, hl, hloc⟩
  refine ⟨l, ?_, ?_, fun ⟨l0, hl0, hle, hold⟩ => ?_⟩
  · rw [← heq, addr_congr l hptr, ← hl, ← hlf]
  · rcases hloc with hloc | ⟨d, hd, hdu⟩
    · refine .inl ?_
      rw [hloc]
      simp only [total_append, total_cons, htotal]
      omega
    rw [hlist] at hd
    rcases hd.replace mid (by
      rw [htotal, total_singleton]) with hd | ⟨hle, ⟨hz, _⟩ | ⟨_, hd⟩⟩
    · exact .inr ⟨d, hd, hdu⟩
    · refine absurd ?_ hmem
      rw [hlf, hl, ho, show l = total size ls by omega]
    · exact hd.elim
  · have hll : l ≤ total size (ls ++ f :: rs) := by
      rcases hloc with hloc | ⟨d, hd, _⟩
      · exact hloc.le
      · have := hd.bound
        omega
    have hsame : l = l0 := addr_inj _ (hl.symm.trans hl0) (by omega)
    rw [hsame]
    exact hfree l0 hold

/-- A pointer has been returned: it leads to a used block that was free before, and
    nothing else has changed. -/
structure Allocated (bs : List Block) (n : Nat) (h' : Heap) (p : BitVec 32) (bs' : List Block)
    (o : Nat) (b : Block) : Prop where
  inv : HeapInv h' bs'
  keeps : Keeps h h' bs bs' (fun _ => False)
  located : Located size bs' o b
  used : b.used = true
  ptr : p = h'.addr (o + 12)
  fits : n + 12 ≤ b.size
  pos : 12 < b.size
  fresh : ∀ c, Located size bs o c → c.used = false

theorem allocated_ne {h' : Heap} {bs' : List Block} {p : BitVec 32} {n o : Nat} {b : Block}
    (ha : Allocated h bs n h' p bs' o b) {o' : Nat} {c : Block} (hc : Located size bs o' c)
    (hcu : c.used = true) : o' ≠ o := by
  rintro rfl
  have hfree := ha.fresh c hc
  rw [hcu] at hfree
  exact absurd hfree.symm Bool.false_ne_true

variable {h bs} in
/-- An allocation returns no pointer and leaves the heap, or it returns a pointer to
    a block that is large enough. -/
theorem rtMalloc_spec (hi : HeapInv h bs) {n : BitVec 32} {h' : Heap} {p : BitVec 32}
    (heq : rtMalloc h n = some (h', p)) :
    (p = 0#32 ∧ h' = h) ∨ ∃ bs' o b, Allocated h bs (rtAlign n).toNat h' p bs' o b ∧
      (LfreeLow h bs → LfreeLow h' bs') := by
  have hsize : ∃ sz : BitVec 32, (if rtAlign n < minSizeAligned then minSizeAligned else rtAlign n)
      = sz ∧ 12 ≤ sz.toNat ∧ (rtAlign n).toNat ≤ sz.toNat ∧ sz.toNat % 4 = 0 := by
    have hmin : minSizeAligned.toNat = 12 := rfl
    have halign := rtAlign_toNat n
    split_ifs with hlt
    all_goals
      rw [lt_def] at hlt
      exact ⟨_, rfl, by omega, by omega, by omega⟩
  rcases hsize with ⟨sz, hsize, hmin, hle, hmod⟩
  unfold rtMalloc at heq
  dsimp only at heq
  rw [hsize] at heq
  split_ifs at heq with hzero hlarge
  · cases heq
    exact .inl ⟨rfl, rfl⟩
  · cases heq
    exact .inl ⟨rfl, rfl⟩
  simp only [bind_iff] at heq
  rcases heq with ⟨found, hfound, heq⟩
  cases found with
  | none =>
    cases heq
    exact .inl ⟨rfl, rfl⟩
  | some ptr =>
    simp only [bind_iff, assert_iff, pure_iff, Prod.mk.injEq] at heq
    rcases heq with ⟨g, hlf, _, _, _, rfl, rfl⟩
    refine .inr ?_
    -- The search starts where the pointer to the lowest free block leads.
    rcases hi.lfree with ⟨l, hl, hloc⟩
    rw [hl, offset_addr] at hfound
    rcases mallocSearch_spec h bs sz hi.shape
      (hloc.imp id (fun ⟨b, hb, _⟩ => ⟨b, hb⟩)) hfound with ⟨o, f, rfl, hf, hfu, hfit⟩
    rcases hf.split with ⟨ls, rs, rfl, rfl⟩
    have hlist := append_cons ls f rs
    rcases mallocTake_spec h ls rs sz f hi hfu hfit hmod rfl with
      ⟨hshape, hagrees, hlfree, hused⟩
    rcases taken_cases hfit with ⟨b, more, htaken, hb, hbsize, htotal, _, hmore⟩
    rw [htaken] at hshape hused
    rcases mallocLfree_spec h ls rs hi hfu rfl (cons_ne_nil b more) htotal
      hshape hagrees.heapPtr hlfree hlf with ⟨l', rfl, hl', hlow⟩
    generalize mallocTake h (ofNat 32 (total size ls)) sz = g at *
    refine ⟨ls ++ (b :: more) ++ rs, total size ls, b,
      ⟨⟨shape_congr hshape rfl rfl rfl rfl, ?_, hused, ⟨l', rfl, hl'⟩⟩, ?_, ?_, hb, ?_, ?_, ?_, ?_⟩,
      fun hlow0 => ⟨l', rfl, ?_, hlow hlow0⟩⟩
    · rcases apart_neighbours ls rs f hi.apart with ⟨hls, hrs, hnear⟩
      rw [append_assoc, cons_append]
      refine apart_used hls ?_ hb
      rcases hmore with rfl | ⟨c, rfl, _⟩
      · exact hrs
      · exact apart_free isChain_nil hrs
          (fun d hd => absurd hd (Option.not_mem_none d)) (hnear hfu).2
    · rw [hlist]
      refine keeps_replace ls rs (by rw [← hlist]; exact hi.shape) ?_ ?_ ?_
      · rw [htotal, total_singleton]
      · simp only [total_singleton]
        exact ⟨hagrees.heapPtr, hagrees.heapEnd, hagrees.memSizeAligned, hagrees.byte⟩
      · rintro o c (⟨_, rfl⟩ | ⟨_, hc⟩) hcu
        · rw [hfu] at hcu
          exact Bool.false_ne_true hcu
        · exact hc
    · rw [append_assoc, cons_append]
      exact located_middle size ls (more ++ rs) b
    · change h.addr (total size ls) + ofNat 32 12 = _
      rw [addr_add]
      exact (addr_congr _ hagrees.heapPtr).symm
    · omega
    · omega
    · intro c hc
      rcases (located_middle size ls rs f).apart hc with
        ⟨_, rfl⟩ | hapart | hapart
      · exact hfu
      · omega
      · have hcsize := hi.shape.sizes c hc.mem
        omega
    · rcases hl' with hl' | ⟨c, hc, _⟩
      · exact hl'.le
      · have := hc.bound
        omega

end Malloc

/-- Whether a resize cuts off the end of the block. -/
def cutsOff (h : Heap) (rmem newsize : BitVec 32) : Bool :=
  let newsize := rtAlign newsize
  let mem := rmem - sizeofStructMem
  let size := h.next mem - h.offset mem - sizeofStructMem
  decide (newsize ≤ h.memSizeAligned ∧ newsize ≠ 0#32 ∧ newsize + sizeofStructMem + minSize < size)

/-- The pointer to the lowest free block takes account of what is cut off a block: it leads to a
    block in front of it, or to the one behind it, with which the part that is cut off is merged. -/
def CutOk (h : Heap) (mem : BitVec 32) : Prop :=
  h.lfree < mem ∨ h.lfree = h.block (h.next mem) ∧ h.lfree ≠ h.heapEnd

section Realloc

variable (h : Heap) (ls rs bs : List Block) (b : Block) {h' : Heap}

/-- The block the pointer leads to, if it is the one behind `b`. -/
theorem lfree_behind (hi : HeapInv h (ls ++ b :: rs))
    (hl : h.lfree = h.addr (total size ls + b.size)) (hend : h.lfree ≠ h.heapEnd) :
    ∃ c ∈ rs.head?, c.used = false := by
  have hroom := hi.shape.room
  rcases hi.lfree with ⟨l, hl', hloc⟩
  simp only [total_append, total_cons] at hroom
  rcases hloc with rfl | ⟨d, hd, hdu⟩
  · exact absurd (hl'.trans hi.shape.heapEnd.symm) hend
  have hbound := hd.bound
  simp only [total_append, total_cons] at hbound
  have hlo : l = total size ls + b.size :=
    addr_inj _ (hl'.symm.trans hl) (by omega)
  rw [hlo, append_cons, located_append] at hd
  simp only [total_append, total_singleton, Nat.sub_self] at hd
  have hsize := hi.shape.sizes
  rcases hd with hd | ⟨_, hd⟩
  · have hdsize := hsize d (by
      rw [append_cons]
      exact mem_append_left _ hd.mem)
    have := hd.bound
    simp only [total_append, total_singleton] at this
    omega
  cases rs with
  | nil => exact hd.elim
  | cons c cs =>
    rcases hd with ⟨_, rfl⟩ | ⟨hle, _⟩
    · exact ⟨d, rfl, hdu⟩
    · have := hsize c (mem_append_right _ (mem_cons_of_mem b mem_cons_self))
      omega

/-- A used block is cut in two, of which the second is free. -/
theorem lfreeBut_cut {n : Nat} (hi : HeapInv h (ls ++ b :: rs)) (hn : n ≤ b.size)
    (hptr : h'.heapPtr = h.heapPtr) (hlfree : h'.lfree = h.lfree)
    (hcut : CutOk h (h.addr (total size ls))) (hlow : LfreeLow h (ls ++ b :: rs)) :
    LfreeBut h' (ls ++ [⟨n, true⟩]) ⟨b.size - n, false⟩ rs := by
  have hroom := hi.shape.room
  have hnext : h.block (h.next (h.addr (total size ls)))
      = h.addr (total size ls + b.size) :=
    congrArg h.block (shape_fields ls rs b hi.shape).2.2.1
  rcases hlow with ⟨l, hl, hle, hfree⟩
  simp only [total_append, total_cons] at hroom hle
  refine ⟨l, ?_, ?_, fun o c hc hcu => ?_, ?_⟩
  · rw [hlfree, hl, addr_congr l hptr]
  · simp only [total_append, total_cons, total_nil]
    omega
  · have hlist : ls ++ [⟨n, true⟩] ++ (⟨b.size - n, false⟩ : Block) :: rs
        = ls ++ [⟨n, true⟩, ⟨b.size - n, false⟩] ++ rs := by
      simp only [append_assoc, cons_append, nil_append]
    rw [hlist] at hc
    rcases hc.replace [b] (by
      simp only [total_cons, total_nil]
      omega) with hc | ⟨_, ⟨_, rfl⟩ | ⟨_, ⟨hz, _⟩ | ⟨_, hc⟩⟩⟩
    · rw [← append_cons] at hc
      exact .inr (hfree o c hc hcu)
    · exact absurd hcu.symm Bool.false_ne_true
    · refine .inl ?_
      simp only [total_append, total_cons, total_nil] at hz ⊢
      dsimp only at *
      omega
    · exact hc.elim
  · simp only [total_append, total_singleton]
    rcases hcut with hlt | ⟨hbehind, hend⟩
    · rw [lt_def, hl, addr_toNat h l (by omega), addr_toNat h _ (by omega)] at hlt
      exact .inl (by omega)
    rw [hnext] at hbehind
    have hlb : l = total size ls + b.size :=
      addr_inj _ (hl.symm.trans hbehind) (by omega)
    exact .inr ⟨by omega, lfree_behind h ls rs b hi hbehind hend⟩

/-- A used block is cut in two, before the second part is merged with what is behind it. -/
theorem cutBlock_spec {n : Nat} (hs : Shape h (ls ++ [b] ++ rs)) (hb : b.used = true)
    (hn : 12 ≤ n) (hn4 : n % 4 = 0) (hrest : n + 12 ≤ b.size)
    (heq : linkBehind (cutBlock h (ofNat 32 (total size ls)) (ofNat 32 (total size ls + n)))
      (ofNat 32 (total size ls + n)) = h') :
    Shape h' (ls ++ [⟨n, true⟩, ⟨b.size - n, false⟩] ++ rs) ∧
    Agrees h h' (total size ls) (total size ls + b.size + 12) ∧
    (∀ x, total size ls + 12 ≤ x → x < total size ls + n → h'.byte x = h.byte x) ∧
    h'.lfree = h.lfree ∧ h'.usedMem = h.usedMem := by
  have hroom := hs.room
  have hheader := shape_header ls rs b (by rw [append_cons]; exact hs)
  simp only [total_append, total_cons, total_nil] at hroom
  rcases cutBlock_memory (total size ls) n (by omega) (by omega) rfl with
    ⟨hcutA, hcutO, hcutN, hcutX, hcutL, hcutU⟩
  generalize cutBlock h (ofNat 32 (total size ls)) (ofNat 32 (total size ls + n)) = g at *
  rcases shape_cut ls rs b n true hs hn hn4 hrest hcutA (by
      unfold HeaderOk
      rw [hcutO, hheader, hb]) (by
      unfold HeaderOk
      rw [hcutN, hheader, Nat.add_assoc, Nat.add_sub_cancel' (by omega)]
      rfl) with ⟨hshape, hagrees, hbehind⟩
  have hvars := linkBehind_vars g (ofNat 32 (total size ls + n))
  rw [heq] at hshape hagrees hbehind hvars
  exact ⟨hshape, hagrees, fun x hlo hhi =>
    (hbehind.byte x (by omega) (by omega)).trans (hcutX x hlo hhi), hvars.1.trans hcutL,
    hvars.2.trans hcutU⟩

theorem reallocShrink_spec {sz newsize : BitVec 32} (hi : HeapInv h (ls ++ b :: rs))
    (hb : b.used = true) (hsize : sz.toNat + 12 = b.size) (hmod : newsize.toNat % 4 = 0)
    (hless : newsize.toNat + 24 < sz.toNat) :
    ∃ h' bs', reallocShrink h (ofNat 32 (total size ls)) sz newsize = some h' ∧
      HeapInv h' bs' ∧ Keeps h h' (ls ++ b :: rs) bs' (· = total size ls) ∧
      Located size bs' (total size ls) ⟨newsize.toNat + 12, true⟩ ∧
      (∀ x, total size ls + 12 ≤ x → x < total size ls + (newsize.toNat + 12) →
        h'.byte x = h.byte x) ∧
      (CutOk h (h.addr (total size ls)) → LfreeLow h (ls ++ b :: rs) → LfreeLow h' bs') := by
  have hs := hi.shape
  have hroom := hs.room
  have hcount := hi.usedMem
  have hlist := append_cons ls b rs
  simp only [total_append, total_cons] at hroom
  simp only [usedTotal_append, usedTotal_cons, hb, if_true] at hcount
  have hptr2 : ofNat 32 (total size ls) + sizeofStructMem + newsize
      = ofNat 32 (total size ls + (newsize.toNat + 12)) := by
    refine eq_of_toNat_eq ?_
    simp only [toNat_add, toNat_ofNat, sizeofStructMem]
    omega
  unfold reallocShrink
  dsimp only
  rw [hptr2]
  generalize hn : newsize.toNat + 12 = n at *
  -- The block is cut in two.
  rcases cutBlock_spec { h with usedMem := h.usedMem - (sz - newsize) } ls rs b (n := n)
    (hlist ▸ shape_congr hs rfl rfl rfl rfl) hb (by omega) (by omega) (by omega) rfl with
    ⟨hshape, hagrees, hbytes, hlfree, hused⟩
  generalize linkBehind (cutBlock _ _ _) _ = g at *
  have hptr : g.heapPtr = h.heapPtr := hagrees.heapPtr
  have htotal : total size [(⟨n, true⟩ : Block), ⟨b.size - n, false⟩] = b.size := by
    simp only [total_cons, total_nil]
    omega
  have hlist2 : ls ++ [(⟨n, true⟩ : Block), ⟨b.size - n, false⟩] ++ rs
      = ls ++ [⟨n, true⟩] ++ ⟨b.size - n, false⟩ :: rs := by
    simp only [append_assoc, cons_append, nil_append]
  have hkeeps : Keeps h g (ls ++ [b] ++ rs) (ls ++ [⟨n, true⟩, ⟨b.size - n, false⟩] ++ rs)
      (· = total size ls) := by
    refine keeps_replace ls rs (hlist ▸ hs) (htotal.trans (total_singleton _ _).symm) ?_ ?_
    · rw [total_singleton]
      exact ⟨hptr, hagrees.heapEnd, hagrees.memSizeAligned, hagrees.byte⟩
    · rintro o c (⟨rfl, _⟩ | ⟨_, hc⟩) _
      · rfl
      · exact hc.elim
  have hok := lfreeOk_replace ls rs b hi.lfree hb htotal hptr hlfree
  -- What was cut off is merged with what is behind it.
  rcases apart_neighbours ls rs b hi.apart with ⟨hlsA, hrsA, _⟩
  rw [hlist2] at hshape hok hkeeps
  rcases plugHoles_spec hshape hok rfl (apart_used hlsA isChain_nil rfl) hrsA with
    ⟨h', bs', hplug, hm, hchain, hholes⟩
  simp only [total_append, total_singleton] at hplug
  have hfirst : Located size (ls ++ [⟨n, true⟩] ++ ⟨b.size - n, false⟩ :: rs) (total size ls)
      ⟨n, true⟩ := by
    rw [append_assoc, singleton_append]
    exact located_middle size ls _ _
  rcases hm.keeps.blocks _ _ hfirst rfl not_false with ⟨hloc, hkept⟩
  refine ⟨h', bs', hplug, ⟨hm.shape, hchain, ?_, hm.lfree⟩, ?_, hloc, fun x hlo hhi => ?_,
    fun hcut hlow => hholes (lfreeBut_cut h ls rs b hi (by omega) hptr hlfree hcut hlow)⟩
  · rw [hm.usedMem, hm.usedTotal, hused]
    simp only [usedTotal_append, usedTotal_cons, Bool.false_eq_true, if_true, if_false]
    simp only [toNat_sub, hcount]
    have hnil : usedTotal [] = 0 := rfl
    omega
  · rw [hlist]
    exact keeps_trans hkeeps (keeps_mono (fun _ hc => hc.elim) hm.keeps)
  · rw [hkept x hlo hhi]
    exact hbytes x hlo hhi

theorem heapInv_user {o : Nat} (hi : HeapInv h bs) (hb : Located size bs o b)
    (hlfree : h'.lfree = h.lfree) (hused : h'.usedMem = h.usedMem)
    (hagrees : Agrees h h' (o + 12) (o + b.size)) :
    HeapInv h' bs ∧ Keeps h h' bs bs (· = o) := by
  have hroom := hi.shape.room
  refine ⟨⟨?_, hi.apart, ?_, ?_⟩, hagrees.heapPtr, rfl,
    fun o' c hc _ hne => ⟨hc, fun x hlo hhi => ?_⟩⟩
  · rcases hb.split with ⟨ls, rs, rfl, rfl⟩
    exact shape_user ls rs b hi.shape hagrees
  · rw [hused]
    exact hi.usedMem
  · rcases hi.lfree with ⟨l, hl, hloc⟩
    exact ⟨l, by rw [hlfree, hl, agrees_addr l hagrees], hloc⟩
  have hbound := hc.bound
  refine hagrees.byte x (by omega) ?_
  rcases hb.apart hc with ⟨ho, _⟩ | hapart | hapart
  · exact absurd ho.symm hne
  · omega
  · omega

theorem lfreeLow_congr (hptr : h'.heapPtr = h.heapPtr) (hlfree : h'.lfree = h.lfree)
    (hlow : LfreeLow h bs) : LfreeLow h' bs := by
  rcases hlow with ⟨l, hl, hle, hfree⟩
  exact ⟨l, by rw [hlfree, hl, addr_congr l hptr], hle, hfree⟩

/-- A block has been resized: there is a used block that is large enough, with the
    bytes of the old one, and nothing else has changed. -/
structure Resized (o : Nat) (n : Nat) (h' : Heap) (p : BitVec 32) (bs' : List Block) (o' : Nat)
    (b' : Block) : Prop where
  inv : HeapInv h' bs'
  keeps : Keeps h h' bs bs' (· = o)
  located : Located size bs' o' b'
  used : b'.used = true
  ptr : p = h'.addr (o' + 12)
  fits : n + 12 ≤ b'.size
  pos : 12 < b'.size
  fresh : ∀ c, Located size bs o' c → c.used = true → o' = o
  bytes : ∀ i, i < b.size - 12 → i < n → h'.byte (o' + 12 + i) = h.byte (o + 12 + i)

theorem reallocMove_spec {o : Nat} {sz newsize : BitVec 32} (hi : HeapInv h bs)
    (hb : Located size bs o b) (hbu : b.used = true) (hpos : 12 < b.size)
    (hsize : sz.toNat + 12 = b.size) (hmod : newsize.toNat % 4 = 0) {p : BitVec 32}
    (heq : reallocMove h (h.addr (o + 12)) sz newsize = some (h', p)) :
    (p = 0#32 ∧ h' = h) ∨ ∃ bs' o' b', Resized h bs b o newsize.toNat h' p bs' o' b' ∧
      (LfreeLow h bs → LfreeLow h' bs') := by
  have halign : (rtAlign newsize).toNat = newsize.toNat := by
    rw [rtAlign_toNat]
    have := newsize.isLt
    omega
  unfold reallocMove at heq
  simp only [bind_iff] at heq
  rcases heq with ⟨⟨h1, nmem⟩, hmalloc, heq⟩
  dsimp only at heq
  rcases rtMalloc_spec hi hmalloc with ⟨hz, rfl⟩ | ⟨bs1, o1, b1, ha, hlow1⟩
  · rw [if_neg (not_not_intro hz)] at heq
    cases heq
    exact .inl ⟨hz, rfl⟩
  refine .inr ?_
  have hroom1 := ha.inv.shape.room
  have hbound1 := ha.located.bound
  have hfits := ha.fits
  have hptr1 := ha.keeps.heapPtr
  -- The old block is still there, and is not the new one.
  rcases ha.keeps.blocks o b hb hbu not_false with ⟨hb1, hbytes1⟩
  have hne : o1 ≠ o := (allocated_ne h bs ha hb hbu).symm
  have hnz : nmem ≠ 0#32 := by
    rcases ha.located.split with ⟨ls, rs, rfl, rfl⟩
    rw [ha.ptr]
    exact (user_addr ha.inv.shape ha.pos).1
  rw [if_pos hnz] at heq
  simp only [bind_iff, pure_iff, Prod.mk.injEq] at heq
  rcases heq with ⟨h2, hfree, rfl, rfl⟩
  -- The bytes are copied.
  generalize hcnt : (if sz < newsize then sz else newsize) = cnt at hfree
  have hcnt' : cnt.toNat = min sz.toNat newsize.toNat := by
    rw [← hcnt]
    split_ifs with hlt
    · rw [lt_def] at hlt
      omega
    · rw [lt_def] at hlt
      omega
  generalize hg : ({ h1 with memory := h1.memory.copy nmem (h.addr (o + 12)) cnt } : Heap) = g
    at hfree
  have hbyte : ∀ x, x < 2 ^ 32 → g.byte x
      = if o1 + 12 ≤ x ∧ x < o1 + 12 + cnt.toNat then h1.byte (o + 12 + (x - (o1 + 12)))
        else h1.byte x := by
    intro x hx
    have hw := window_copy h1.memory h1.heapPtr (o1 + 12) x hx (o + 12) cnt (by omega)
    rw [← hg, ha.ptr, ← addr_congr (o + 12) hptr1]
    exact hw
  have hagrees : Agrees h1 g (o1 + 12) (o1 + b1.size) := by
    refine ⟨by rw [← hg], by rw [← hg], by rw [← hg], fun x hx hout => ?_⟩
    rw [hbyte x hx, if_neg (by omega)]
  rcases heapInv_user h1 bs1 b1 ha.inv ha.located (by rw [← hg]) (by rw [← hg]) hagrees with
    ⟨hi2, hkeeps2⟩
  have hptr : g.heapPtr = h.heapPtr := hkeeps2.heapPtr.trans hptr1
  -- The old block is released.
  rcases hb1.split with ⟨ls, rs, rfl, rfl⟩
  rcases rtFree_spec ls rs b hi2 hbu hpos with ⟨h3, bs3, hfree3, hi3, hkeeps3, hlow3⟩
  rw [addr_congr _ hptr, hfree] at hfree3
  cases hfree3
  rcases hkeeps3.blocks o1 b1 ha.located ha.used hne with ⟨hb3, hbytes3⟩
  refine ⟨bs3, o1, b1, ⟨hi3, ⟨hkeeps3.heapPtr.trans hptr, ?_, fun o' c hc hcu hne' => ?_⟩, hb3,
    ha.used, ?_, by omega, ha.pos, ?_, ?_⟩, fun hlow => hlow3 (lfreeLow_congr h1 _ hkeeps2.heapPtr
      (by rw [← hg]) (hlow1 hlow))⟩
  · rw [hkeeps3.total, ha.keeps.total]
  · -- Another used block is not touched by any of this.
    rcases ha.keeps.blocks o' c hc hcu not_false with ⟨hc1, hcb1⟩
    rcases hkeeps2.blocks o' c hc1 hcu (allocated_ne h bs ha hc hcu) with ⟨_, hcb2⟩
    rcases hkeeps3.blocks o' c hc1 hcu hne' with ⟨hc3, hcb3⟩
    exact ⟨hc3, fun x hlo hhi => ((hcb3 x hlo hhi).trans (hcb2 x hlo hhi)).trans (hcb1 x hlo hhi)⟩
  · rw [ha.ptr]
    exact (addr_congr _ (hkeeps3.heapPtr.trans hkeeps2.heapPtr)).symm
  · exact fun c hc hcu => absurd rfl (allocated_ne h bs ha hc hcu)
  · intro i hib hin
    rw [hbytes3 _ (by omega) (by omega), hbyte _ (by omega), if_pos (by omega),
      show total size ls + 12 + (o1 + 12 + i - (o1 + 12)) = total size ls + 12 + i by omega]
    exact hbytes1 _ (by omega) (by omega)

theorem keeps_refl {Except : Nat → Prop} : Keeps h h bs bs Except :=
  ⟨rfl, rfl, fun _ _ hc _ _ => ⟨hc, fun _ _ _ => rfl⟩⟩

variable {h bs b} in
/-- A live pointer is resized. It is released if the size rounds to nothing, and
    left alone if there is no memory. There is enough in place for the size of the block,
    and for one so much smaller that another block fits behind it. -/
theorem rtRealloc_spec {o : Nat} {n : BitVec 32} (hi : HeapInv h bs)
    (hb : Located size bs o b) (hbu : b.used = true) (hpos : 12 < b.size)
    {p : BitVec 32} (heq : rtRealloc h (h.addr (o + 12)) n = some (h', p)) :
    (p = 0#32 ∧ h' = h ∧ rtAlign n ≠ 0#32 ∧ (rtAlign n).toNat + 12 ≠ b.size ∧
      b.size ≤ (rtAlign n).toNat + 36) ∨
    (p = 0#32 ∧ rtAlign n = 0#32 ∧ ∃ bs', HeapInv h' bs' ∧ Keeps h h' bs bs' (· = o) ∧
      (LfreeLow h bs → LfreeLow h' bs')) ∨
    ∃ bs' o' b', Resized h bs b o (rtAlign n).toNat h' p bs' o' b' ∧
      ((cutsOff h (h.addr (o + 12)) n = true → CutOk h (h.addr o)) → LfreeLow h bs →
        LfreeLow h' bs') := by
  have hroom := hi.shape.room
  have hmemSize := hi.shape.memSize
  have hbound := hb.bound
  have hmod : (rtAlign n).toNat % 4 = 0 := by
    rw [rtAlign_toNat]
    omega
  rcases hb.split with ⟨ls, rs, rfl, rfl⟩
  rcases user_addr hi.shape hpos with ⟨hzero, _, hrange, hmem⟩
  rcases shape_fields ls rs b hi.shape with ⟨_, _, hnext, _⟩
  have hlegal : ¬ (h.addr (total size ls + 12) < h.heapPtr ∨
      h.heapEnd ≤ h.addr (total size ls + 12)) := by
    rw [le_def, lt_def] at hrange
    rw [le_def, lt_def]
    omega
  have hsize : (ofNat 32 (total size ls + b.size) - ofNat 32 (total size ls)
      - sizeofStructMem).toNat + 12 = b.size := by
    have harea := area_toNat (total size ls) b.size (by omega)
    rw [← BitVec.sub_sub] at harea
    rw [harea]
    omega
  have hcuts : cutsOff h (h.addr (total size ls + 12)) n = decide (rtAlign n ≤ h.memSizeAligned ∧
      rtAlign n ≠ 0#32 ∧ rtAlign n + sizeofStructMem + minSize
        < ofNat 32 (total size ls + b.size) - ofNat 32 (total size ls)
          - sizeofStructMem) := by
    unfold cutsOff
    simp only [hmem, hnext, offset_addr]
  unfold rtRealloc at heq
  simp only [hmem, hnext, offset_addr, if_neg hzero, if_neg hlegal] at heq
  generalize hsz : ofNat 32 (total size ls + b.size) - ofNat 32 (total size ls)
    - sizeofStructMem = sz at *
  have hsum : ¬ h.memSizeAligned < rtAlign n →
      (rtAlign n + sizeofStructMem + minSize).toNat = (rtAlign n).toNat + 24 := by
    intro hlarge
    rw [lt_def] at hlarge
    simp only [toNat_add, toNat_ofNat, sizeofStructMem, minSize]
    omega
  split_ifs at heq with hlarge hnone hsame hless
  · cases heq
    rw [lt_def] at hlarge
    refine .inl ⟨rfl, rfl, fun hz => ?_, by omega, by omega⟩
    rw [hz] at hlarge
    exact absurd hlarge (Nat.not_lt_zero _)
  · -- The size rounds to nothing.
    rcases rtFree_spec ls rs b hi hbu hpos with ⟨h1, bs1, hfree, hi1, hkeeps, hlow⟩
    rw [hfree] at heq
    cases heq
    exact .inr (.inl ⟨rfl, hnone, bs1, hi1, hkeeps, hlow⟩)
  · -- The block has this size already.
    cases heq
    refine .inr (.inr ⟨_, _, b, ⟨hi, keeps_refl h _, hb, hbu, rfl, ?_, hpos, fun _ _ _ => rfl,
      fun _ _ _ => rfl⟩, fun _ hlow => hlow⟩)
    rw [← hsame]
    omega
  · rw [decide_eq_true ⟨BitVec.not_lt.mp hlarge, hnone, hless⟩] at hcuts
    rw [lt_def, hsum hlarge] at hless
    rcases reallocShrink_spec h ls rs b hi hbu hsize hmod hless with
      ⟨h1, bs1, hshrink, hi1, hkeeps, hloc, hbytes, hlow⟩
    rw [hshrink] at heq
    cases heq
    have hpos' : 0 < (rtAlign n).toNat := by
      refine Nat.pos_of_ne_zero (fun hz => hnone ?_)
      exact eq_of_toNat_eq hz
    refine .inr (.inr ⟨bs1, _, _, ⟨hi1, hkeeps, hloc, rfl, ?_, le_rfl, ?_, fun _ _ _ => rfl,
      fun i _ hi => hbytes _ (by omega) (by omega)⟩, fun hcut hlow0 => hlow (hcut hcuts) hlow0⟩)
    · exact (addr_congr _ hkeeps.heapPtr).symm
    · change 12 < (rtAlign n).toNat + 12
      omega
  · rcases reallocMove_spec h _ b hi hb hbu hpos hsize hmod heq with
      ⟨hp, hh⟩ | ⟨bs', o', b', hmoved, hlow⟩
    · rw [lt_def, hsum hlarge] at hless
      refine .inl ⟨hp, hh, hnone, fun hc => hsame (eq_of_toNat_eq ?_), by omega⟩
      omega
    · exact .inr (.inr ⟨bs', o', b', hmoved, fun _ => hlow⟩)

end Realloc

end Honeycomb.SmallMem
