import Honeycomb.Theory.HeapLfree

/-!
# What an Allocation Finds

The search for a free block goes from header to header and stops in front of as many bytes at the
end of the heap as it looks for. It ends as long as this size, which may have been raised to the
minimum, is at most that of the heap. It then finds a block whenever one fits, except for a last
block of exactly the size. What it finds is as large as what was asked for, as long as neither the
product nor the rounding wraps around.

## Theorems

* `malloc_ends`, `search_stuck`: The search ends in a heap of twelve bytes or more.
* `malloc_complete`, `last_missed`: An allocation fails only if nothing fits.
* `area_holds`, `area_short`: An area is not smaller than the request.
* `realloc_clean`, `shrink_fails`: A resize keeps the bytes, and fails only for want of
  memory.
-/

namespace Honeycomb.SmallMem

open Heap Layout List Memory Run
open BitVec (eq_of_toNat_eq le_def lt_def ofNat)
open Block (size)

/-- The size that is searched for. -/
def searchSize (n : BitVec 32) : BitVec 32 :=
  if rtAlign n < minSizeAligned then minSizeAligned else rtAlign n

variable (h : Heap)

/-- The size of a block without its header. -/
def userArea (mem : BitVec 32) : BitVec 32 :=
  h.next mem - (h.offset mem + sizeofStructMem)

/-- Among the blocks that `next` leads to, this one is free and large enough. -/
def Fits (n o : BitVec 32) : Prop :=
  h.used (h.block o) = 0#16 ∧ searchSize n ≤ userArea h (h.block o)

variable (s : HeapSys)

/-- Every search ends. -/
def SearchEnds : Prop :=
  minSizeAligned ≤ s.heap.memSizeAligned → ∀ n, rtAlign n ≤ s.heap.memSizeAligned →
    ∃ r, mallocSearch s.heap (searchSize n) steps (s.heap.offset s.heap.lfree) = some r

/-- An allocation returns no pointer if and only if no free block fits. This is for heaps of the
    minimum size or more, and for sizes that are not exactly that of a free block at the end. -/
def MallocComplete : Prop :=
  ∃ os, Walk s.heap 0#32 os ∧ (minSizeAligned ≤ s.heap.memSizeAligned → ∀ n, 0#32 < rtAlign n →
    rtAlign n ≤ s.heap.memSizeAligned →
    (∀ o ∈ os, Fits s.heap n o → s.heap.block (s.heap.next (s.heap.block o)) = s.heap.heapEnd →
      userArea s.heap (s.heap.block o) ≠ searchSize n) →
    ∃ h' p, rtMalloc s.heap n = some (h', p) ∧ (p = 0#32 ↔ ∀ o ∈ os, ¬ Fits s.heap n o))

/-- What a call returns is large enough, for sizes that do not wrap around. -/
structure AreaHolds : Prop where
  malloc : ∀ n h' p, n.toNat ≤ 2 ^ 32 - 4 → rtMalloc s.heap n = some (h', p) → p ≠ 0#32 →
    n.toNat ≤ (userArea h' (p - sizeofStructMem)).toNat
  calloc : ∀ c z h' p, c.toNat * z.toNat ≤ 2 ^ 32 - 4 → rtCalloc s.heap c z = some (h', p) →
    p ≠ 0#32 → c.toNat * z.toNat ≤ (userArea h' (p - sizeofStructMem)).toNat
  realloc : ∀ rmem n h' p, rmem = 0#32 ∨ s.live rmem ≠ none →
    rtRealloc s.heap rmem n = some (h', p) → p ≠ 0#32 →
      n.toNat ≤ (userArea h' (p - sizeofStructMem)).toNat

/-- The block is left as it is, or enough is cut off for another one, if it is large enough. -/
def InPlace (rmem n : BitVec 32) : Prop :=
  rtAlign n ≤ userArea h (rmem - sizeofStructMem) →
    rtAlign n = userArea h (rmem - sizeofStructMem) ∨
      (rtAlign n).toNat + 24 < (userArea h (rmem - sizeofStructMem)).toNat

/-- A resize keeps the bytes, and those of the other owners. If it returns no pointer,
    nothing has changed, and the block was too small. -/
structure Resizes (rmem n : BitVec 32) (h' : Heap) (p : BitVec 32) : Prop where
  bytes : p ≠ 0#32 → ∀ i, i < (userArea s.heap (rmem - sizeofStructMem)).toNat → i < n.toNat →
    h'.memory.window p i = s.heap.memory.window rmem i
  others : p ≠ 0#32 → ∀ q, s.live q ≠ none → q ≠ rmem →
    userArea h' (q - sizeofStructMem) = userArea s.heap (q - sizeofStructMem) ∧
    (∀ i, i < (userArea s.heap (q - sizeofStructMem)).toNat →
      h'.memory.window q i = s.heap.memory.window q i) ∧
    (p.toNat + (userArea h' (p - sizeofStructMem)).toNat ≤ q.toNat ∨
      q.toNat + (userArea s.heap (q - sizeofStructMem)).toNat ≤ p.toNat)
  failed : n ≠ 0#32 → p = 0#32 → h' = s.heap
  granted : n ≠ 0#32 → rtAlign n ≤ userArea s.heap (rmem - sizeofStructMem) → p ≠ 0#32

/-- Every resize of a live pointer is such a one, if its size does not wrap around and
    no block has to move that is large enough. -/
def ReallocClean : Prop :=
  ∀ rmem n h' p, s.live rmem ≠ none → n.toNat ≤ 2 ^ 32 - 4 → InPlace s.heap rmem n →
    rtRealloc s.heap rmem n = some (h', p) → Resizes s rmem n h' p

section Search

variable {h : Heap} {bs : List Block} {sz n : BitVec 32} {o : Nat} {b : Block}

theorem searchSize_toNat (n : BitVec 32) :
    (searchSize n).toNat = max (rtAlign n).toNat 12 ∧ (searchSize n).toNat % 4 = 0 := by
  have hmin : minSizeAligned.toNat = 12 := rfl
  have halign := rtAlign_toNat n
  unfold searchSize
  split_ifs with hlt
  · rw [lt_def] at hlt
    omega
  · rw [lt_def] at hlt
    omega

theorem userArea_located (hs : Shape h bs) (hb : Located size bs o b) :
    (userArea h (h.addr o)).toNat = b.size - 12 := by
  have hroom := hs.room
  have hbound := hb.bound
  have hsize := hs.sizes b hb.mem
  rcases hb.split with ⟨ls, rs, rfl, rfl⟩
  unfold userArea
  rw [offset_addr, (shape_fields ls rs b hs).2.2.1]
  exact area_toNat _ _ (by omega)

theorem fits_iff (hs : Shape h bs) (hb : Located size bs o b) :
    Fits h n (ofNat 32 o) ↔ b.used = false ∧ (searchSize n).toNat + 12 ≤ b.size := by
  have harea := userArea_located hs hb
  have hsize := hs.sizes b hb.mem
  change h.used (h.addr o) = 0#16 ∧ searchSize n ≤ userArea h (h.addr o) ↔ _
  rw [le_def, harea, used_located hs hb]
  refine and_congr_right fun _ => ?_
  omega

/-- The search ends if the size is at most that of the heap. A block that it passes
    by is not free, too small, or ends with the heap and has exactly the size. -/
theorem mallocSearch_total (fuel : Nat) (hs : Shape h bs) (hle : sz ≤ h.memSizeAligned)
    (ho : o = total size bs ∨ ∃ b, Located size bs o b)
    (hfuel : total size bs < o + fuel) :
    ∃ r, mallocSearch h sz fuel (ofNat 32 o) = some r ∧
      (r = none → ∀ o' c, Located size bs o' c → o ≤ o' → c.used = false →
        sz.toNat + 12 ≤ c.size → o' + sz.toNat = h.memSizeAligned.toNat) := by
  have hroom := hs.room
  have hmem := hs.memSize
  rw [le_def] at hle
  induction fuel generalizing o with
  | zero =>
    rcases ho with rfl | ⟨b, hb⟩
    · omega
    · have := hb.bound
      omega
  | succ fuel ih =>
    have hguard : ofNat 32 o < h.memSizeAligned - sz ↔ o + sz.toNat < h.memSizeAligned.toNat := by
      have hbound : o ≤ total size bs := by
        rcases ho with rfl | ⟨b, hb⟩
        · exact le_rfl
        · have := hb.bound
          omega
      rw [lt_def, BitVec.toNat_ofNat, BitVec.toNat_sub]
      omega
    unfold mallocSearch
    dsimp only
    split_ifs with hlt hfound
    · exact ⟨_, rfl, by rintro ⟨⟩⟩
    · -- A block in front of the last bytes that is passed by.
      rw [hguard] at hlt
      rcases ho with rfl | ⟨b, hb⟩
      · omega
      have hfit : ¬ (b.used = false ∧ sz.toNat + 12 ≤ b.size) := by
        rintro ⟨hbu, hfit⟩
        have harea := userArea_located hs hb
        unfold userArea at harea
        rw [offset_addr] at harea
        refine hfound ⟨(used_located hs hb).mpr hbu, ?_⟩
        change sz ≤ h.next (h.addr o) - _
        rw [le_def, harea]
        omega
      have hsize := hs.sizes b hb.mem
      rcases hb.split with ⟨ls, rs, rfl, rfl⟩
      have hnext : h.next (h.block (ofNat 32 (total size ls)))
          = ofNat 32 (total size ls + b.size) := (shape_fields ls rs b hs).2.2.1
      rw [hnext]
      rcases ih located_next (by omega) with ⟨r, hr, hpass⟩
      refine ⟨r, hr, fun hnone o' c hc hlo hcu hcs => ?_⟩
      rcases hb.apart hc with ⟨_, rfl⟩ | hapart | hapart
      · exact absurd ⟨hcu, hcs⟩ hfit
      · exact hpass hnone o' c hc hapart hcu hcs
      · omega
    · rw [hguard] at hlt
      refine ⟨none, rfl, fun _ o' c hc hlo _ hcs => ?_⟩
      have := hc.bound
      omega

theorem lowestFree_total (fuel : Nat) {l : Nat} (hs : Shape h bs) (hlf : h.lfree = h.addr l)
    (hl : l = total size bs ∨ ∃ b, Located size bs l b)
    (hfuel : total size bs < l + fuel) :
    ∃ h', lowestFree fuel h = some h' ∧ (h'.lfree = h'.heapEnd ∨ h'.used h'.lfree = 0#16) ∧
      h'.heapEnd = h.heapEnd := by
  induction fuel generalizing h l with
  | zero =>
    rcases hl with rfl | ⟨b, hb⟩
    · omega
    · have := hb.bound
      omega
  | succ fuel ih =>
    unfold lowestFree
    split_ifs with hgo
    · rcases hl with rfl | ⟨b, hb⟩
      · exact absurd (hlf.trans hs.heapEnd.symm) hgo.2
      have hsize := hs.sizes b hb.mem
      rcases hb.split with ⟨ls, rs, rfl, rfl⟩
      have hnext : h.block (h.next h.lfree) = h.addr (total size ls + b.size) := by
        rw [hlf, (shape_fields ls rs b hs).2.2.1]
        rfl
      rw [hnext]
      exact ih (shape_congr hs rfl rfl rfl rfl) rfl located_next (by omega)
    · refine ⟨h, rfl, ?_, rfl⟩
      tauto

theorem mallocLfree_total (hs : Shape h bs) (hb : Located size bs o b) :
    ∃ h', mallocLfree h (h.addr o) = some h' ∧ h'.heapEnd = h.heapEnd := by
  unfold mallocLfree
  split_ifs with hmem
  · have hroom := hs.room
    have hsteps : steps = 2 ^ 32 := rfl
    rcases lowestFree_total steps hs hmem.symm (.inr ⟨b, hb⟩) (by omega) with
      ⟨h', heq, hstop, hend⟩
    refine ⟨h', ?_, hend⟩
    rw [heq, some_bind, (rtAssert_eq_some _ ()).mpr hstop]
    rfl
  · exact ⟨h, rfl, rfl⟩

/-- The search ends. If it finds nothing, no block from the pointer to the lowest free
    block on fits, apart from one at the end. -/
theorem search_total (hi : HeapInv h bs) (hmin : minSizeAligned ≤ h.memSizeAligned)
    (hle : rtAlign n ≤ h.memSizeAligned) :
    ∃ r, mallocSearch h (searchSize n) steps (h.offset h.lfree) = some r ∧
      (r = none → LfreeLow h bs → ∀ o c, Located size bs o c → c.used = false →
        (searchSize n).toNat + 12 ≤ c.size →
        o + (searchSize n).toNat = h.memSizeAligned.toNat) ∧
      ∀ ptr, r = some ptr → ∃ o f, ptr = ofNat 32 o ∧ Located size bs o f ∧
        f.used = false ∧ (searchSize n).toNat + 12 ≤ f.size := by
  have hroom := hi.shape.room
  have hsteps : steps = 2 ^ 32 := rfl
  have hmax : searchSize n ≤ h.memSizeAligned := by
    unfold searchSize
    split_ifs
    · exact hmin
    · exact hle
  rcases hi.lfree with ⟨l, hl, hloc⟩
  have hstart : l = total size bs ∨ ∃ b, Located size bs l b :=
    hloc.imp id fun ⟨b, hb, _⟩ => ⟨b, hb⟩
  have hbound : l ≤ total size bs := by
    rcases hstart with rfl | ⟨b, hb⟩
    · exact le_rfl
    · exact (Nat.le_add_right _ _).trans hb.bound
  rcases mallocSearch_total steps hi.shape hmax hstart (by omega) with ⟨r, hr, hpass⟩
  rw [hl, offset_addr]
  refine ⟨r, hr, fun hnone ⟨l', hl', hle', hlow⟩ o c hc hcu => ?_, ?_⟩
  · have hll : l = l' := addr_inj _ (hl.symm.trans hl') (by omega)
    exact hpass hnone o c hc (hll ▸ hlow o c hc hcu) hcu
  · rintro ptr rfl
    exact mallocSearch_spec h bs _ hi.shape hstart hr

theorem rtMalloc_total (hi : HeapInv h bs) (hmin : minSizeAligned ≤ h.memSizeAligned)
    (hn : n ≠ 0#32) (hle : rtAlign n ≤ h.memSizeAligned) :
    ∃ h' p, rtMalloc h n = some (h', p) ∧
      (p = 0#32 ↔ mallocSearch h (searchSize n) steps (h.offset h.lfree) = some none) := by
  have hroom := hi.shape.room
  rcases searchSize_toNat n with ⟨hsize, hmod⟩
  rcases search_total hi hmin hle with ⟨r, hr, _, hfound⟩
  unfold rtMalloc
  rw [if_neg hn]
  rw [if_neg (BitVec.not_lt.mpr hle)]
  change ∃ h' p, (mallocSearch h (searchSize n) _ _ >>= _) = some (h', p) ∧ _
  rw [hr, some_bind]
  cases r with
  | none => exact ⟨h, 0#32, rfl, iff_of_true rfl rfl⟩
  | some ptr =>
    rcases hfound ptr rfl with ⟨o, f, rfl, hf, hfu, hfit⟩
    rcases hf.split with ⟨ls, rs, rfl, rfl⟩
    rcases mallocTake_spec h ls rs _ f hi hfu hfit hmod rfl with ⟨hshape, hagrees, _, _⟩
    rcases taken_cases hfit with ⟨b, more, htaken, _⟩
    rw [htaken, append_assoc, cons_append] at hshape
    rcases mallocLfree_total hshape (located_middle size ls (more ++ rs) b) with
      ⟨g, hg, hend⟩
    rw [addr_congr _ hagrees.heapPtr] at hg
    have hne := (user_addr hi.shape (by omega)).1
    -- The three assertions about the block that has been found.
    have hmodls := total_mod ls (fun c hc => hi.shape.sizes c (mem_append_left _ hc))
    have haligned := hi.shape.aligned
    have htop := addr_toNat h (total size (ls ++ f :: rs)) (by omega)
    rw [← hi.shape.heapEnd, ← hagrees.heapEnd, ← hend] at htop
    simp only [total_append, total_cons] at hroom htop
    have haddr := addr_toNat h (total size ls) (by omega)
    have huser := addr_toNat h (total size ls + 12) (by omega)
    have hinside : h.addr (total size ls + 12) + searchSize n ≤ g.heapEnd := by
      rw [le_def, BitVec.toNat_add, huser, htop]
      omega
    have hmod4 : h.addr (total size ls + 12) % 4#32 = 0#32 := by
      refine eq_of_toNat_eq ?_
      change _ % 4 = 0
      omega
    refine ⟨g, h.addr (total size ls + 12), ?_, iff_of_false hne nofun⟩
    rw [← addr_add] at hinside hmod4 ⊢
    simp only [bind_iff, assert_iff, pure_iff, Prod.mk.injEq]
    exact ⟨g, hg, hinside, hmod4, and_three (h.addr _) (by omega), rfl, rfl⟩

theorem userArea_ptr (hs : Shape h bs) (hb : Located size bs o b) :
    (userArea h (h.addr (o + 12) - sizeofStructMem)).toNat = b.size - 12 := by
  rw [← addr_add]
  change (userArea h (h.addr o + 12#32 - 12#32)).toNat = _
  rw [BitVec.add_sub_cancel]
  exact userArea_located hs hb

theorem rtRealloc_zero {h' : Heap} {rmem p : BitVec 32} (hz : rtAlign n = 0#32)
    (heq : rtRealloc h rmem n = some (h', p)) : p = 0#32 := by
  unfold rtRealloc at heq
  rw [hz, if_neg BitVec.not_lt_zero, if_pos rfl] at heq
  simp only [bind_iff, pure_iff, Prod.mk.injEq] at heq
  rcases heq with ⟨_, _, _, hp⟩
  exact hp.symm

end Search

section Heap

variable {s : HeapSys}

theorem searchEnds_of_inv (hs : SysInv s) : SearchEnds s := by
  intro hmin n hle
  rcases hs with ⟨bs, hi, _⟩
  rcases search_total hi hmin hle with ⟨r, hr, _⟩
  exact ⟨r, hr⟩

theorem mallocComplete_of_inv (hs : SysInv s ∧ SysLow s) : MallocComplete s := by
  rcases hs with ⟨⟨bs, hi, _⟩, hlow⟩
  refine ⟨_, (chainOk_of_inv s.heap hi).walk, fun hmin n hpos hle hlast => ?_⟩
  have hn : n ≠ 0#32 := by
    rintro rfl
    exact absurd hpos (by decide)
  rcases rtMalloc_total hi hmin hn hle with ⟨h', p, heq, hnull⟩
  rcases search_total hi hmin hle with ⟨r, hr, hpass, hfound⟩
  refine ⟨h', p, heq, hnull.trans ?_⟩
  rw [hr, Option.some.injEq]
  constructor
  · -- A block that fits would be the last one, and of exactly the size.
    intro hnone x hx hfit
    rcases mem_map.mp hx with ⟨o, ho, rfl⟩
    rcases mem_offsets_zero.mp ho with ⟨b, hb⟩
    have hbig := (fits_iff hi.shape hb).mp hfit
    have hexact := hpass hnone (hlow bs hi) o b hb hbig.1 hbig.2
    have hbound := hb.bound
    have hmem := hi.shape.memSize
    have harea := userArea_located hi.shape hb
    refine hlast _ hx hfit ?_ (eq_of_toNat_eq (harea.trans (by omega)))
    rw [hi.shape.heapEnd]
    rcases hb.split with ⟨ls, rs, rfl, rfl⟩
    refine congrArg s.heap.block ((shape_fields ls rs b hi.shape).2.2.1.trans ?_)
    rw [show total size ls + b.size = total size (ls ++ b :: rs) by omega]
  · intro hno
    cases r with
    | none => rfl
    | some ptr =>
      rcases hfound ptr rfl with ⟨o, f, rfl, hf, hfree⟩
      refine absurd ((fits_iff hi.shape hf).mpr hfree) (hno _ (mem_map_of_mem ?_))
      exact mem_offsets_zero.mpr ⟨f, hf⟩

theorem areaHolds_of_inv (hs : SysInv s) : AreaHolds s := by
  rcases hs with ⟨bs, hi, hl⟩
  have hmalloc : ∀ n h' p, n.toNat ≤ 2 ^ 32 - 4 → rtMalloc s.heap n = some (h', p) → p ≠ 0#32 →
      n.toNat ≤ (userArea h' (p - sizeofStructMem)).toNat := by
    intro n h' p hn heq hp
    rcases rtMalloc_spec hi heq with ⟨hz, _⟩ | ⟨bs', o, b, ha, _⟩
    · exact absurd hz hp
    have hle := rtAlign_le hn
    have hfits := ha.fits
    rw [ha.ptr, userArea_ptr ha.inv.shape ha.located]
    omega
  refine ⟨hmalloc, fun c z h' p hn heq hp => ?_, fun rmem n h' p hr heq hp => ?_⟩
  · have hprod : (c * z).toNat = c.toNat * z.toNat := by
      exact Nat.mod_eq_of_lt (by omega)
    rw [← hprod] at hn ⊢
    rcases rtCalloc_spec p hn hi heq with ⟨hz, _⟩ | ⟨bs', o, b, ha, _⟩
    · exact absurd hz hp
    have hle := rtAlign_le hn
    have hfits := ha.fits
    rw [ha.ptr, userArea_ptr ha.inv.shape ha.located]
    omega
  have halign := rtAlign_toNat n
  have hne : (rtAlign n).toNat ≠ 0 := fun hz =>
    hp (rtRealloc_zero (eq_of_toNat_eq hz) heq)
  rcases hr with rfl | hr
  · rcases rtRealloc_null p heq with ⟨hz, _⟩ | heq
    · exact absurd hz hp
    · have := hmalloc _ h' p (by omega) heq hp
      omega
  rcases Option.ne_none_iff_exists'.mp hr with ⟨a, hlive⟩
  rcases hl rmem a hlive with ⟨o, b, hb, hbu, hpos, rfl, _, _⟩
  rcases rtRealloc_spec hi hb hbu hpos heq with
    ⟨hz, _⟩ | ⟨hz, _⟩ | ⟨bs', o', b', hres, _⟩
  · exact absurd hz hp
  · exact absurd hz hp
  · have hfits := hres.fits
    rw [hres.ptr, userArea_ptr hres.inv.shape hres.located]
    omega

theorem reallocClean_of_inv (hs : SysInv s) : ReallocClean s := by
  intro rmem n h' p hr hn hplace heq
  rcases hs with ⟨bs, hi, hl⟩
  rcases Option.ne_none_iff_exists'.mp hr with ⟨a, hlive⟩
  rcases hl rmem a hlive with ⟨o, b, hb, hbu, hpos, rfl, _, _⟩
  have hle := rtAlign_le hn
  have harea := userArea_ptr hi.shape hb
  rcases rtRealloc_spec hi hb hbu hpos heq with
    ⟨hz, hsame, _, hexact, hclose⟩ | ⟨hz, hnone, _⟩ | ⟨bs', o', b', hres, _⟩
  · refine ⟨fun hp => absurd hz hp, fun hp => absurd hz hp, fun _ _ => hsame, fun _ hlarge => ?_⟩
    rcases hplace hlarge with heq' | hcut
    · exact absurd (congrArg BitVec.toNat heq') (by omega)
    · omega
  · have hzero : n = 0#32 := by
      rw [hnone] at hle
      exact eq_of_toNat_eq (Nat.le_zero.mp hle)
    exact ⟨fun hp => absurd hz hp, fun hp => absurd hz hp, fun hn0 => absurd hzero hn0,
      fun hn0 => absurd hzero hn0⟩
  have hp := ptr_ne_zero p hres.inv.shape hres.located hres.pos hres.ptr
  refine ⟨fun _ i hio hin => ?_, fun _ q hq hne => ?_, fun _ hz => absurd hz hp, fun _ _ => hp⟩
  · rw [hres.ptr]
    refine window_add.trans ((hres.bytes i (by omega) (by omega)).trans ?_)
    exact window_add.symm
  rcases Option.ne_none_iff_exists'.mp hq with ⟨c, hc⟩
  rcases hl q c hc with ⟨o1, b1, hb1, hbu1, hpos1, rfl, _, _⟩
  have hne' : o1 ≠ o := fun h => hne (by rw [h])
  rcases hres.keeps.blocks o1 b1 hb1 hbu1 hne' with ⟨hb', hbytes⟩
  have haddr := addr_congr (o1 + 12) hres.keeps.heapPtr
  have harea' := userArea_ptr hres.inv.shape hb'
  have harea1 := userArea_ptr hi.shape hb1
  have hroom := hres.inv.shape.room
  have hbound := hb'.bound
  have hbound' := hres.located.bound
  rw [haddr] at harea'
  refine ⟨eq_of_toNat_eq (harea'.trans harea1.symm), fun i hi => ?_, ?_⟩
  · rw [← haddr]
    refine window_add.trans ((hbytes _ (by omega) (by omega)).trans ?_)
    rw [haddr]
    exact window_add.symm
  · -- The two are different blocks of the new heap.
    rw [harea1, hres.ptr, userArea_ptr hres.inv.shape hres.located, ← haddr,
      addr_toNat h' _ (by omega), addr_toNat h' _ (by omega)]
    rcases hres.located.apart hb' with ⟨rfl, _⟩ | hapart | hapart
    · exact absurd (hres.fresh b1 hb1 hbu1) hne'
    · omega
    · omega

end Heap

/-- The search ends in every run within bounds, in a heap of the minimum size or more. -/
theorem malloc_ends (memory : Memory) (beginAddr endAddr : BitVec 32) (s : HeapSys)
    (as : List HeapAction) (hinit : heapSysInit memory beginAddr endAddr = some s)
    (hC : Along heapStep HeapCond s as) : Always heapStep SearchEnds s as :=
  always_of_inv SysInv searchEnds_of_inv heapStep_inv (heapSysInit_inv hinit) hC

/-- A heap of the minimum size, before and after all of it has been used. -/
theorem malloc_ends_twelve :
    ∃ s, heapSysInit (fun _ => 0xcc#8) 0x20000000#32 0x20000024#32 = some s ∧
      s.heap.memSizeAligned = minSizeAligned ∧ Always heapStep SearchEnds s [.malloc 4#32] :=
  exists_of_run (fun s => s.heap.memSizeAligned = minSizeAligned ∧
    Along heapStep HeapCond s [.malloc 4#32]) (by decide +kernel)
    fun s hs h => ⟨h.1, malloc_ends _ _ _ s _ hs h.2⟩

/-- The header at the end of the heap leads to itself. -/
theorem mallocSearch_loops {h : Heap} {sz ptr : BitVec 32} {fuel : Nat}
    (hlt : ptr < h.memSizeAligned - sz) (hused : h.used (h.block ptr) ≠ 0#16)
    (hnext : h.next (h.block ptr) = ptr) : mallocSearch h sz fuel ptr = none := by
  induction fuel with
  | zero => rfl
  | succ fuel ih =>
    unfold mallocSearch
    rw [if_pos hlt, if_neg fun hc => hused hc.1, hnext]
    exact ih

/-- In a heap of eight bytes the size that is searched for is larger than the heap,
    and no number of steps is enough. -/
theorem search_stuck :
    ∃ s, heapSysInit (fun _ => 0xcc#8) 0x20000000#32 0x20000020#32 = some s ∧
      rtAlign 4#32 ≤ s.heap.memSizeAligned ∧ ∀ fuel,
        mallocSearch s.heap (searchSize 4#32) fuel (s.heap.offset s.heap.lfree) = none := by
  refine exists_of_run (fun s => rtAlign 4#32 ≤ s.heap.memSizeAligned ∧
    s.heap.memSizeAligned = 8#32 ∧ s.heap.offset s.heap.lfree = 0#32 ∧
    s.heap.next (s.heap.block 0#32) = 20#32 ∧ s.heap.used (s.heap.block 20#32) ≠ 0#16 ∧
    s.heap.next (s.heap.block 20#32) = 20#32) (by decide +kernel) ?_
  rintro s - ⟨hle, hmem, hlf, hnext, hused, hself⟩
  refine ⟨hle, fun fuel => ?_⟩
  rw [hlf]
  cases fuel with
  | zero => rfl
  | succ fuel =>
    unfold mallocSearch
    dsimp only
    rw [hmem, hnext, if_pos (by decide), if_neg fun hc => absurd hc.2 (by decide)]
    exact mallocSearch_loops (by rw [hmem]; decide) hused hself

/-- A pointer is returned whenever a block fits, in every run in which no size wraps
    around and no resize leaves the pointer to the lowest free block behind. -/
theorem malloc_complete (memory : Memory) (beginAddr endAddr : BitVec 32) (s : HeapSys)
    (as : List HeapAction) (hinit : heapSysInit memory beginAddr endAddr = some s)
    (hC : Along heapStep LfreeCond s as) : Always heapStep MallocComplete s as :=
  always_of_inv (fun s => SysInv s ∧ SysLow s) mallocComplete_of_inv
    (fun hs hc heq => ⟨heapStep_inv hs.1 hc.1 heq, heapStep_low _ hs.1 hs.2 hc heq⟩)
    ⟨heapSysInit_inv hinit, heapSysInit_low hinit⟩ hC

/-- A run in which a block is released that fits again. -/
theorem malloc_complete_again :
    ∃ s, heapSysInit (fun _ => 0xcc#8) 0x20000000#32 0x20000044#32 = some s ∧
      Always heapStep MallocComplete s [.malloc 12#32, .malloc 12#32, .free 0x2000000c#32] :=
  exists_of_run (Along heapStep LfreeCond ·
    [.malloc 12#32, .malloc 12#32, .free 0x2000000c#32]) (by decide +kernel)
    fun s hs hC => malloc_complete _ _ _ s _ hs hC

instance decidableFits (n o : BitVec 32) : Decidable (Fits h n o) :=
  inferInstanceAs (Decidable (_ ∧ _))

/-- All of a new heap is one free block of forty bytes, and no forty bytes can be allocated. -/
theorem last_missed :
    ∃ s, heapSysInit (fun _ => 0xcc#8) 0x20000000#32 0x20000040#32 = some s ∧
      rtAlign 40#32 ≤ s.heap.memSizeAligned ∧ Fits s.heap 40#32 0#32 ∧
      (rtMalloc s.heap 40#32).map Prod.snd = some 0#32 :=
  exists_of_run _ (by decide +kernel) fun _ _ h => h

/-- What is returned is large enough in every run within bounds. -/
theorem area_holds (memory : Memory) (beginAddr endAddr : BitVec 32) (s : HeapSys)
    (as : List HeapAction) (hinit : heapSysInit memory beginAddr endAddr = some s)
    (hC : Along heapStep HeapCond s as) : Always heapStep AreaHolds s as :=
  always_of_inv SysInv areaHolds_of_inv heapStep_inv (heapSysInit_inv hinit) hC

/-- A run in which a block is resized in place. -/
theorem area_holds_resized :
    ∃ s, heapSysInit (fun _ => 0xcc#8) 0x20000000#32 0x20000400#32 = some s ∧
      Always heapStep AreaHolds s [.calloc 5#32 20#32, .realloc 0x2000000c#32 40#32] :=
  exists_of_run (Along heapStep HeapCond ·
    [.calloc 5#32 20#32, .realloc 0x2000000c#32 40#32]) (by decide +kernel)
    fun s hs hC => area_holds _ _ _ s _ hs hC

/-- A size that is rounded up to nothing, and a product that wraps around: both get twelve bytes. -/
theorem area_short :
    ∃ s, heapSysInit (fun _ => 0xcc#8) 0x20000000#32 0x20000400#32 = some s ∧
      (rtMalloc s.heap 0xffffffff#32).map (fun r => userArea r.1 (r.2 - sizeofStructMem)) =
        some 12#32 ∧
      (rtCalloc s.heap 0x40000001#32 4#32).map (fun r => userArea r.1 (r.2 - sizeofStructMem)) =
        some 12#32 :=
  exists_of_run _ (by decide +kernel) fun _ _ h => h

/-- Every resize of a live pointer keeps the bytes, in every run within bounds. -/
theorem realloc_clean (memory : Memory) (beginAddr endAddr : BitVec 32) (s : HeapSys)
    (as : List HeapAction) (hinit : heapSysInit memory beginAddr endAddr = some s)
    (hC : Along heapStep HeapCond s as) : Always heapStep ReallocClean s as :=
  always_of_inv SysInv reallocClean_of_inv heapStep_inv (heapSysInit_inv hinit) hC

/-- A block is cut, and another one behind it moves to where there is room. -/
theorem realloc_clean_moved :
    ∃ s, heapSysInit (fun _ => 0xcc#8) 0x20000000#32 0x20000400#32 = some s ∧
      Always heapStep ReallocClean s [.malloc 100#32, .malloc 20#32,
        .realloc 0x2000000c#32 40#32, .realloc 0x2000007c#32 60#32] ∧
      (exec heapStep s [.malloc 100#32, .malloc 20#32, .realloc 0x2000000c#32 40#32,
        .realloc 0x2000007c#32 60#32]).any (fun t => (t.live 0x2000007c#32).isNone) = true :=
  exists_checked (fun s hs hC => realloc_clean _ _ _ s _ hs hC) (by decide +kernel)

/-- All of a heap is in use. A block of 44 bytes cannot become one of 40, since it is
    to move. Resized to a size that wraps around, it is released. -/
theorem shrink_fails :
    ∃ s t, heapSysInit (fun _ => 0xcc#8) 0x20000000#32 0x20000044#32 = some s ∧
      exec heapStep s [.malloc 32#32] = some t ∧ t.live 0x2000000c#32 ≠ none ∧
      userArea t.heap (0x2000000c#32 - sizeofStructMem) = 44#32 ∧
      (∃ h', rtRealloc t.heap 0x2000000c#32 40#32 = some (h', 0#32) ∧
        ¬ Resizes t 0x2000000c#32 40#32 h' 0#32) ∧
      ∃ h', rtRealloc t.heap 0x2000000c#32 0xffffffff#32 = some (h', 0#32) ∧
        ¬ Resizes t 0x2000000c#32 0xffffffff#32 h' 0#32 := by
  refine exists_of_runs (fun _ t => t.live 0x2000000c#32 ≠ none ∧
    userArea t.heap (0x2000000c#32 - sizeofStructMem) = 44#32 ∧
    (rtRealloc t.heap 0x2000000c#32 40#32).map Prod.snd = some 0#32 ∧
    (rtRealloc t.heap 0x2000000c#32 0xffffffff#32).map (fun r => (r.2, r.1.usedMem)) =
      some (0#32, 0#32) ∧ t.heap.usedMem = 56#32) (by decide +kernel) ?_
  rintro s t - - ⟨hlive, harea, hshrink, hwrap, hused⟩
  refine ⟨hlive, harea, ?_, ?_⟩
  · rcases Option.map_eq_some_iff.mp hshrink with ⟨⟨h', _⟩, hr, rfl⟩
    exact ⟨h', hr, fun hres => hres.granted (by decide) (by rw [harea]; decide) rfl⟩
  rcases Option.map_eq_some_iff.mp hwrap with ⟨⟨h', _⟩, hr, hsnd⟩
  simp only [Prod.mk.injEq] at hsnd
  rcases hsnd with ⟨rfl, hfree⟩
  refine ⟨h', hr, fun hres => ?_⟩
  rw [hres.failed (by decide) rfl, hused] at hfree
  exact absurd hfree (by decide)

end Honeycomb.SmallMem
