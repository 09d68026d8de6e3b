import Honeycomb.Lib.Run
import Honeycomb.Theory.MemHeapRealloc
import Mathlib.Algebra.Order.BigOperators.Group.List
import Mathlib.Algebra.Order.Group.Nat

/-!
# Memory Heap Objects in Every Run

In every run of allocations, resizes and releases the two lists of a memory heap
object are what they should be, and the bytes of every owner are its own.

That is so as long as the sizes that are asked for are not within a few bytes of the
largest number. An allocation rounds the size up, and a resize adds the least size of a
block to it before it compares the sum with the room there is; when one of these sums
wraps around, the header of the rest is written into the block itself.

## Theorems

* `memheap_returns`: No check of the code fails.
* `memheap_represents`: The heap is right in every run within bounds.
* `realloc_wraps`: It is not in every run.
* `alloc_exact`, `alloc_exact_missed`: An allocation gets a block that is large enough
  whenever there is one, unless the size is exactly what is available.
-/

namespace Honeycomb.MemHeap

open BitVec Function Layout List Memory Option Run
open BitVec (ofNat)
open SmallMem (Block Apart Alloc)
open SmallMem.Block (size)

variable {a : Alloc} {n ptr : BitVec 32} {act : MemAction} {off prev : Nat}

/-- A pointer has a used block, with the bytes its owner knows in it. -/
def LiveAt (h : Heap) (bs : List Block) (p : BitVec 32) (a : Alloc) : Prop :=
  ∃ o b, Located size bs o b ∧ b.used = true ∧ p = h.addr (o + 24) ∧
    a.size + 24 ≤ b.size ∧ ∀ i, i < a.size → h.byte (o + 24 + i) = a.bytes i

variable (s : MemSys)

/-- The lists agree, the owners have their blocks, and no pointer has two owners. -/
def SysInv : Prop :=
  s.fresh = true ∧ ∃ bs fl, Inv s.heap bs fl ∧ ∀ p a, s.live p = some a → LiveAt s.heap bs p a

/-- No size is so large that a sum wraps around. -/
def MemCond (_ : MemSys) : MemAction → Prop
  | .alloc size => size.toNat ≤ 2 ^ 32 - 4
  | .realloc _ newsize => newsize.toNat ≤ 2 ^ 32 - 16
  | .free _ => True
  | .write _ _ _ => True

instance decidableMemCond : ∀ act, Decidable (MemCond s act)
  | .alloc size => inferInstanceAs (Decidable (size.toNat ≤ 2 ^ 32 - 4))
  | .realloc _ newsize => inferInstanceAs (Decidable (newsize.toNat ≤ 2 ^ 32 - 16))
  | .free _ => isTrue trivial
  | .write _ _ _ => isTrue trivial

/-- A call is made with a pointer that has an owner, or with the null pointer, and a byte
    is written by its owner. -/
def Owned : MemAction → Prop
  | .alloc _ => True
  | .realloc ptr _ => ptr = 0#32 ∨ (s.live ptr).isSome
  | .free ptr => ptr = 0#32 ∨ (s.live ptr).isSome
  | .write ptr i _ => ∃ a, s.live ptr = some a ∧ i < a.size

section Step

variable {h h' : Heap} {bs bs' : List Block} (fl : List Nat) {fl' : List Nat} {p : BitVec 32}
  {s s' : MemSys}

theorem liveAt_keeps {Except : Nat → Prop} (hk : Keeps h h' bs bs' Except) (hl : LiveAt h bs p a)
    (hne : ∀ o, p = h.addr (o + 24) → ¬ Except o) : LiveAt h' bs' p a := by
  rcases hl with ⟨o, b, hb, hbu, hp, hsize, hbytes⟩
  rcases hk.blocks o b hb hbu (hne o hp) with ⟨hb', hsame⟩
  refine ⟨o, b, hb', hbu, ?_, hsize, fun i hi => ?_⟩
  · rw [hp, addr_congr _ hk.startAddr]
  · rw [hsame _ (by omega) (by omega)]
    exact hbytes i hi

theorem ptr_inj {o o' : Nat} {b b' : Block} (hs : Shape h bs) (hb : Located size bs o b)
    (hb' : Located size bs o' b') (heq : h.addr (o + 24) = h.addr (o' + 24)) : o = o' := by
  have hroom := hs.place.room
  have hbound := hb.bound
  have hbound' := hb'.bound
  have hsize := hs.large b hb.mem
  have hsize' := hs.large b' hb'.mem
  have := addr_inj heq (by omega)
  omega

theorem sysInv_give {known : Alloc} {sz o : Nat} {b : Block} (hfresh : s.fresh = true)
    (hi : Inv h' bs' fl') (hb : Located size bs' o b) (hbu : b.used = true)
    (hp : p = h'.addr (o + 24)) (hfits : sz + 24 ≤ b.size)
    (hknown : ∀ i, i < sz → i < known.size → h'.byte (o + 24 + i) = known.bytes i)
    (hnew : s.live p = none) (hold : ∀ q a, s.live q = some a → LiveAt h' bs' q a) :
    SysInv (s.give h' p sz known) := by
  have hnz : p ≠ 0#32 := by
    rw [hp]
    exact ptr_ne_zero hi.lists.shape hb
  unfold MemSys.give
  rw [if_neg hnz]
  refine ⟨?_, bs', fl', hi, forall_update_some (fun a ha => ?_) (fun q _ => hold q)⟩
  · dsimp only
    rw [hfresh, hnew]
    rfl
  cases ha
  refine ⟨o, b, hb, hbu, hp, hfits, fun i hi => ?_⟩
  dsimp only at hi ⊢
  split_ifs with hk
  · exact hknown i hi hk
  · rw [hp]
    exact window_add.symm

theorem sysInv_alloc {size : Nat} (hle : size ≤ (allocSize n).toNat) (hs : SysInv s)
    (heq : rtMemheapAlloc s.heap n = some (h', p)) :
    SysInv (s.give h' p size SmallMem.unknown) := by
  rcases hs with ⟨hfresh, bs, fl, hi, hl⟩
  rcases rtMemheapAlloc_spec n hi with ⟨h1, p1, halloc, hcase⟩
  rw [heq, some.injEq] at halloc
  rcases halloc with ⟨rfl, rfl⟩
  rcases hcase with ⟨rfl, rfl, _⟩ | ⟨bs', fl', o, b, ha⟩
  · unfold MemSys.give
    rw [if_pos rfl]
    exact ⟨hfresh, bs, fl, hi, hl⟩
  have hfits := ha.fits
  have hold : ∀ q a, s.live q = some a → LiveAt h' bs' q a := fun q a hq =>
    liveAt_keeps ha.keeps (hl q a hq) (fun _ _ => not_false)
  refine sysInv_give hfresh ha.inv ha.located ha.used ha.ptr (by omega)
    (fun i _ hk => absurd hk (Nat.not_lt_zero i)) ?_ hold
  -- An owner of the pointer would have the block that was free.
  cases hlive : s.live p with
  | none => rfl
  | some a =>
    exfalso
    rcases hl p a hlive with ⟨o', b', hb', hbu', hp', _, _⟩
    have hkept := (ha.keeps.blocks o' b' hb' hbu' not_false).1
    rw [← addr_congr _ ha.keeps.startAddr] at hp'
    have hoo := ptr_inj ha.inv.lists.shape hkept ha.located (hp'.symm.trans ha.ptr)
    rw [hoo] at hb'
    exact Bool.false_ne_true ((ha.fresh b' hb').symm.trans hbu')

theorem sysInv_drop {p : BitVec 32} {o : Nat} (hfresh : s.fresh = true) (hi : Inv h' bs' fl')
    (hl : ∀ p a, s.live p = some a → LiveAt s.heap bs p a)
    (hkeeps : Keeps s.heap h' bs bs' (· = o)) (hp : p = s.heap.addr (o + 24)) :
    SysInv ({ s with heap := h' }.drop p) := by
  refine ⟨hfresh, bs', fl', hi, forall_update_some nofun (fun q hqp c hq => ?_)⟩
  refine liveAt_keeps hkeeps (hl q c hq) (fun o' ho he => hqp ?_)
  rw [ho, he, hp]

theorem sysInv_free (hlive : s.live p = some a) (hs : SysInv s) :
    ∃ h', rtMemheapFree s.heap p = some h' ∧ SysInv ({ s with heap := h' }.drop p) := by
  rcases hs with ⟨hfresh, bs, fl, hi, hl⟩
  rcases hl p a hlive with ⟨o, b, hb, hbu, hp, _, _⟩
  rcases hb.split with ⟨ls, rs, rfl, rfl⟩
  rw [append_cons] at hi hl
  rcases rtMemheapFree_spec hi hbu with ⟨h', bs', fl', hfree, hi', hkeeps⟩
  rw [← hp] at hfree
  exact ⟨h', hfree, sysInv_drop hfresh hi' hl hkeeps hp⟩

theorem sysInv_realloc {n : BitVec 32} (hn : n.toNat ≤ 2 ^ 32 - 16) (hlive : s.live ptr = some a)
    (hs : SysInv s) :
    ∃ h' p, rtMemheapRealloc s.heap ptr n = some (h', p) ∧
      (p = 0#32 → n = 0#32 → SysInv ({ s with heap := h' }.drop ptr)) ∧
      (p = 0#32 → n ≠ 0#32 → SysInv { s with heap := h' }) ∧
      (p ≠ 0#32 → SysInv ((s.drop ptr).give h' p n.toNat a)) := by
  have hs' := hs
  rcases hs with ⟨hfresh, bs, fl, hi, hl⟩
  have hsize := allocSize_toNat n
  rcases hl ptr a hlive with ⟨o, b, hb, hbu, hp, hasize, habytes⟩
  rcases rtMemheapRealloc_spec hn hi hb hbu with ⟨h', p, heq, hcase⟩
  rw [← hp] at heq
  refine ⟨h', p, heq, ?_⟩
  rcases hcase with ⟨hz, rfl, hne⟩ | ⟨hz, hnone, bs', fl', hi', hkeeps⟩ | ⟨bs', fl', o', b', hr⟩
  · exact ⟨fun _ hn0 => absurd hn0 hne, fun _ _ => hs', fun hc => absurd hz hc⟩
  · exact ⟨fun _ _ => sysInv_drop hfresh hi' hl hkeeps hp,
      fun _ hn0 => absurd hnone hn0, fun hc => absurd hz hc⟩
  have hnz : p ≠ 0#32 := by
    rw [hr.ptr]
    exact ptr_ne_zero hr.inv.lists.shape hr.located
  refine ⟨fun hc => absurd hc hnz, fun hc => absurd hc hnz, fun _ => ?_⟩
  have hfits := hr.fits
  -- The other owners have their blocks still.
  have hother : ∀ q c, (s.drop ptr).live q = some c → q ≠ ptr ∧ s.live q = some c :=
    forall_update_some nofun (fun _ hqr _ hq => ⟨hqr, hq⟩)
  refine sysInv_give hfresh hr.inv hr.located hr.used hr.ptr
    (by omega) (fun i hin hia => ?_) ?_ (fun q c hq => ?_)
  · rw [hr.bytes i (by omega) (by omega)]
    exact habytes i hia
  · cases hq : (s.drop ptr).live p with
    | none => rfl
    | some c =>
      exfalso
      rcases hother p c hq with ⟨hpr, hq'⟩
      rcases hl p c hq' with ⟨o1, b1, hb1, hbu1, hp1, _, _⟩
      have hne : o1 ≠ o := by
        rintro rfl
        exact hpr (hp1.trans hp.symm)
      have hkept := (hr.keeps.blocks o1 b1 hb1 hbu1 hne).1
      rw [← addr_congr _ hr.keeps.startAddr] at hp1
      have hoo := ptr_inj hr.inv.lists.shape hkept hr.located (hp1.symm.trans hr.ptr)
      rcases hr.fresh with hsame | hnew
      · exact hne (hoo.trans hsame)
      · rw [hoo] at hb1
        exact Bool.false_ne_true ((hnew b1 hb1).symm.trans hbu1)
  · rcases hother q c hq with ⟨hqr, hq'⟩
    refine liveAt_keeps hr.keeps (hl q c hq') (fun o1 ho he => hqr ?_)
    rw [ho, he, hp]

theorem sysInv_reallocNull (hn : n.toNat ≤ 2 ^ 32 - 16) (hs : SysInv s)
    (heq : rtMemheapRealloc s.heap 0#32 n = some (h', p)) :
    SysInv (s.give h' p n.toNat SmallMem.unknown) := by
  have hsize := allocSize_toNat n
  have hsize' := allocSize_toNat (allocSize n)
  unfold rtMemheapRealloc rtMemheapFree at heq
  simp only [if_true] at heq
  split_ifs at heq with hzero
  · cases heq
    unfold MemSys.give
    rw [if_pos rfl]
    exact hs
  · exact sysInv_alloc (by omega) hs heq

theorem sysInv_write {i : Nat} {v : BitVec 8} (hlive : s.live ptr = some a) (hia : i < a.size)
    (hs : SysInv s) :
    SysInv { s with
      heap := { s.heap with memory := s.heap.memory.store8 (ptr + ofNat 32 i) v }
      live := update s.live ptr (some { a with bytes := update a.bytes i v }) } := by
  rcases hs with ⟨hfresh, bs, fl, hi, hl⟩
  rcases hl ptr a hlive with ⟨o, b, hb, hbu, hp, hasize, habytes⟩
  have hroom := hi.lists.shape.place.room
  have hbound := hb.bound
  generalize hg : ({ s.heap with
    memory := s.heap.memory.store8 (ptr + ofNat 32 i) v } : Heap) = g
  rw [hp, addr_add] at hg
  have hw : UserWrite s.heap g (o + 24) (o + b.size) := by
    rw [← hg]
    refine ⟨rfl, rfl, rfl, rfl, rfl, rfl, rfl, fun y hy => ?_⟩
    exact if_neg (hy (o + 24 + i) (by omega) (by omega))
  have hbyte : ∀ x, x < 2 ^ 32 → g.byte x = if x = o + 24 + i then v else s.heap.byte x := by
    intro x hx
    rw [← hg]
    exact window_store8 hx (by omega)
  rcases inv_user s.heap g bs b o hi hb hw with ⟨hi', hkeeps⟩
  refine ⟨hfresh, bs, fl, hi', forall_update_some (fun c hc => ?_) (fun q hqr c hq => ?_)⟩
  · cases hc
    refine ⟨o, b, hb, hbu, ?_, hasize, fun j hj => ?_⟩
    · rw [hp]
      exact (addr_congr _ hkeeps.startAddr).symm
    dsimp only at hj ⊢
    rw [hbyte _ (by omega)]
    by_cases hji : j = i
    · rw [hji, if_pos rfl, update_self]
    · rw [if_neg (by omega), update_of_ne hji]
      exact habytes j hj
  · refine liveAt_keeps hkeeps (hl q c hq) (fun o' ho he => hqr ?_)
    rw [ho, he, hp]

theorem memStep_inv (hs : SysInv s) (hc : MemCond s act) (heq : memStep s act = some s') :
    SysInv s' := by
  cases act with simp only [memStep] at heq
  | alloc size =>
    simp only [bind_iff, pure_iff] at heq
    rcases heq with ⟨⟨h', p⟩, hr, rfl⟩
    have hsize := allocSize_toNat size
    have hle : size.toNat ≤ 2 ^ 32 - 4 := hc
    exact sysInv_alloc (by omega) hs hr
  | realloc ptr newsize =>
    simp only [bind_eq_bind, Option.pure_def] at heq
    by_cases hz : ptr = 0#32
    · simp only [if_pos hz, bind_eq_some_iff, some.injEq] at heq
      rcases heq with ⟨⟨h', p⟩, hr, rfl⟩
      rw [hz] at hr
      exact sysInv_reallocNull hc hs hr
    simp only [if_neg hz, bind_eq_some_iff] at heq
    rcases heq with ⟨a, hlive, ⟨h', p⟩, hr, heq⟩
    rcases sysInv_realloc hc hlive hs with ⟨h1, p1, hr1, hnone, hfail, hmoved⟩
    rw [hr, some.injEq] at hr1
    rcases hr1 with ⟨rfl, rfl⟩
    dsimp only at heq
    split_ifs at heq with hp hn
    · cases heq
      exact hnone hp hn
    · cases heq
      exact hfail hp hn
    · cases heq
      exact hmoved hp
  | free ptr =>
    simp only [bind_eq_bind, Option.pure_def] at heq
    split_ifs at heq with hz
    · simp only [rtMemheapFree, if_pos hz] at heq
      cases heq
      exact hs
    simp only [bind_eq_some_iff, some.injEq] at heq
    rcases heq with ⟨a, hlive, h', hr, rfl⟩
    rcases sysInv_free hlive hs with ⟨h1, hr1, hinv⟩
    rw [hr, some.injEq] at hr1
    rw [hr1]
    exact hinv
  | write ptr i v =>
    simp only [bind_iff, assert_iff, pure_iff] at heq
    rcases heq with ⟨a, hlive, hia, rfl⟩
    exact sysInv_write hlive hia hs

theorem memStep_defined (hs : SysInv s) (hc : MemCond s act) (howned : Owned s act) :
    ∃ s', memStep s act = some s' := by
  rcases hs with ⟨hfresh, bs, fl, hi, hl⟩
  cases act with
  | alloc size =>
    rcases rtMemheapAlloc_spec size hi with ⟨h', p, halloc, _⟩
    exact ⟨_, by rw [memStep, halloc]; rfl⟩
  | realloc ptr newsize =>
    by_cases hz : ptr = 0#32
    · rcases rtMemheapAlloc_spec (allocSize newsize) hi with ⟨h', p, halloc, _⟩
      rw [memStep, hz]
      unfold rtMemheapRealloc
      by_cases hn : newsize = 0#32
      · rw [if_pos hn]
        exact ⟨_, rfl⟩
      rw [if_neg hn]
      dsimp only
      rw [halloc]
      exact ⟨_, rfl⟩
    · rcases isSome_iff_exists.mp (howned.resolve_left hz) with ⟨a, ha⟩
      rcases sysInv_realloc hc ha ⟨hfresh, bs, fl, hi, hl⟩ with ⟨h', p, hr, _⟩
      rw [memStep, ha]
      simp only [some_bind, hr]
      split_ifs with hp hn
      · exact ⟨_, rfl⟩
      · exact ⟨_, rfl⟩
      · exact ⟨_, rfl⟩
  | free ptr =>
    by_cases hz : ptr = 0#32
    · rw [memStep, if_pos hz]
      unfold rtMemheapFree
      rw [if_pos hz]
      exact ⟨_, rfl⟩
    rcases isSome_iff_exists.mp (howned.resolve_left hz) with ⟨a, ha⟩
    rcases sysInv_free ha ⟨hfresh, bs, fl, hi, hl⟩ with ⟨h', hr, _⟩
    rw [memStep, if_neg hz, ha]
    simp only [hr]
    exact ⟨_, rfl⟩
  | write ptr i v =>
    rcases howned with ⟨a, ha, hia⟩
    rw [memStep, ha]
    simp only [some_bind, rtAssert, if_pos hia]
    exact ⟨_, rfl⟩

end Step

/-- The links of the list of blocks. -/
def Heap.blockLinks (h : Heap) : Links (BitVec 32) :=
  ⟨h.get .next, h.get .prev⟩

/-- What the headers say about both lists. The list of blocks goes around from the header
    at the end, through all blocks in rising order from the start of the pool, back to
    the end of it, so that each block reaches to the next. The free list has the
    blocks that are marked as free, and each of them once. -/
structure ListsOk (h : Heap) (items : List (BitVec 32)) (tail : BitVec 32)
    (free : List (BitVec 32)) : Prop where
  ring : Ring.Seg h.blockLinks tail items tail
  first : items.head? = some h.startAddr
  rising : (items ++ [tail]).Pairwise (· < ·)
  last : tail.toNat + 24 = h.startAddr.toNat + h.poolSize.toNat
  room : ∀ a ∈ items, a.toNat + 36 ≤ (h.get .next a).toNat
  magic : ∀ a ∈ items ++ [tail], h.get .magic a &&& memheapMask = memheapMagic
  tailUsed : h.isUsed tail = true
  apart : items.IsChain (fun a b => h.isUsed a = true ∨ h.isUsed b = true)
  freeRing : Ring.Seg h.links h.freeList free h.freeList
  freeNodup : free.Nodup
  freeIff : ∀ a, a ∈ free ↔ a ∈ items ∧ h.isUsed a = false
  available : h.availableSize.toNat = ((items.filter (fun a => !h.isUsed a)).map
    (fun a => (h.memitemSize a).toNat)).sum

/-- The headers, and what the owners can rely on: their bytes are inside used blocks,
    apart from each other, and as they know them, and no pointer has two owners. -/
structure MemheapOk : Prop where
  lists : ∃ items tail free, ListsOk s.heap items tail free ∧
    ∀ p a, s.live p = some a → ∃ item ∈ items, s.heap.isUsed item = true ∧
      p = item + memheapSize ∧ a.size ≤ (s.heap.memitemSize item).toNat
  fresh : s.fresh = true
  disjoint : ∀ p a q c, s.live p = some a → s.live q = some c → p ≠ q →
    p.toNat + a.size ≤ q.toNat ∨ q.toNat + c.size ≤ p.toNat
  contents : ∀ p a, s.live p = some a → ∀ i, i < a.size → s.heap.memory.window p i = a.bytes i

section Lists

variable (h : Heap) {bs : List Block} {fl : List Nat}

variable (hseg : Seg size (HeaderOk h) prev off bs)
include hseg

/-- The headers of blocks that are laid end to end form a chain of links. -/
theorem ring_of_seg (hfirst : h.get .next (h.addr prev) = h.addr off)
    (hlast : h.get .prev (h.addr (off + total size bs)) = h.addr (lastOff size prev off bs)) :
    Ring.Seg h.blockLinks (h.addr prev) ((offsets size off bs).map h.addr)
      (h.addr (off + total size bs)) := by
  induction bs generalizing prev off with
  | nil => exact ⟨hfirst, hlast⟩
  | cons b bs ih =>
    rw [total_cons, ← add_assoc] at hlast ⊢
    exact ⟨hfirst, hseg.1.prev, ih hseg.2 hseg.1.next hlast⟩

theorem apart_of_seg (hapart : bs.IsChain Apart) :
    ((offsets size off bs).map h.addr).IsChain
      (fun a b => h.isUsed a = true ∨ h.isUsed b = true) := by
  induction bs generalizing prev off with
  | nil => exact isChain_nil
  | cons b bs ih =>
    have hrest := ih hseg.2 hapart.tail
    cases bs with
    | nil => exact isChain_singleton _
    | cons c cs =>
      have hb := isUsed_mark hseg.1.magic
      have hc := isUsed_mark hseg.2.1.magic
      refine isChain_cons_cons.mpr ⟨?_, hrest⟩
      rw [hb, hc]
      exact (isChain_cons_cons.mp hapart).1

theorem free_of_seg (hsizes : ∀ b ∈ bs, 24 ≤ b.size) (hbound : off + total size bs < 2 ^ 32) :
    ((((offsets size off bs).map h.addr).filter (fun a => !h.isUsed a)).map
      (fun a => (h.memitemSize a).toNat)).sum = freeTotal bs := by
  induction bs generalizing prev off with
  | nil => rfl
  | cons b bs ih =>
    rw [total_cons] at hbound
    have hrest := ih hseg.2 (fun c hc => hsizes c (mem_cons_of_mem b hc)) (by omega)
    have hb := isUsed_mark hseg.1.magic
    have hsize := memitemSize_next hseg.1.next (hsizes b mem_cons_self) (by omega)
    rw [offsets, map_cons, filter_cons, freeTotal, ← hrest, hb]
    cases hbu : b.used with
    | false => simp only [Bool.not_false, Bool.false_eq_true, if_true, if_false, map_cons,
        sum_cons, hsize]
    | true => simp only [Bool.not_true, Bool.false_eq_true, if_false, if_true, zero_add]

omit hseg

theorem listsOk_of_inv (hi : Inv h bs fl) :
    ListsOk h ((offsets size 0 bs).map h.addr) (h.addr (total size bs)) (fl.map h.addr) := by
  have hs := hi.lists.shape
  have hp := hs.place
  have hroom := hp.room
  have hseg := hs.blocks
  have hsum : (offsets size 0 bs).map h.addr ++ [h.addr (total size bs)]
      = (offsets size 0 bs ++ [0 + total size bs]).map h.addr := by
    rw [map_append, zero_add]
    rfl
  -- A header is that of a block, or the one at the end.
  have hcases : ∀ o ∈ offsets size 0 bs, ∃ ls b rs, bs = ls ++ b :: rs ∧ o = total size ls := by
    intro o ho
    rcases mem_offsets_zero.mp ho with ⟨b, hb⟩
    rcases hb.split with ⟨ls, rs, hbs, hols⟩
    exact ⟨ls, b, rs, hbs, hols⟩
  refine ⟨?_, ?_, ?_, ?_, fun a ha => ?_, fun a ha => ?_, isUsed_tail hs,
    apart_of_seg h hseg hi.apart, ?_, ?_, fun a => ?_, ?_⟩
  · have hring := ring_of_seg h hseg hs.tail.next
    rw [zero_add, lastOff_congr size hs.nonempty] at hring
    exact hring hs.tail.prev
  · have hzero : h.addr 0 = h.startAddr := BitVec.add_zero h.startAddr
    cases hbs : bs with
    | nil => exact absurd hbs hs.nonempty
    | cons b rest => exact congrArg some hzero
  · rw [hsum, pairwise_map]
    refine (pairwise_offsets size bs 0 (fun b hb => ?_)).imp_of_mem (fun {o o'} ho ho' hlt => ?_)
    · have := hs.large b hb
      omega
    · have := le_of_mem_offsets ho
      have := le_of_mem_offsets ho'
      rw [lt_def, addr_toNat (by omega), addr_toNat (by omega)]
      omega
  · rw [addr_toNat (by omega), hs.poolSize]
    omega
  · rcases mem_map.mp ha with ⟨o, ho, rfl⟩
    rcases hcases o ho with ⟨ls, b, rs, rfl, rfl⟩
    have hlarge := hs.large b (mem_append_right ls mem_cons_self)
    simp only [total_append, total_cons] at hroom
    rw [(shape_header ls rs b hs).next, addr_toNat (by omega), addr_toNat (by omega)]
    omega
  · rcases mem_append.mp ha with ha | ha
    · rcases mem_map.mp ha with ⟨o, ho, rfl⟩
      rcases hcases o ho with ⟨ls, b, rs, rfl, rfl⟩
      rw [(shape_header ls rs b hs).magic]
      exact mark_magic b.used
    · rw [mem_singleton.mp ha, hs.tail.magic]
      exact mark_magic true
  · rw [hs.freeList]
    exact hi.lists.free
  · exact (nodup_cons.mp (nodup_addr h fl hp hi.lists.listed hi.lists.nodup)).2
  · -- Both sides are about the offset of a block.
    have hused : ∀ o b, Located size bs o b → h.isUsed (h.addr o) = b.used := by
      intro o b hb
      rcases hb.split with ⟨ls, rs, rfl, rfl⟩
      rw [append_cons] at hs
      exact isUsed_block hs
    constructor
    · intro ha
      rcases mem_map.mp ha with ⟨o, ho, rfl⟩
      rcases inv_listed o hi ho with ⟨b, hb, hfree⟩
      refine ⟨mem_map_of_mem (mem_offsets_zero.mpr ⟨b, hb⟩), ?_⟩
      rw [hused o b hb]
      exact hfree
    rintro ⟨ha, hfree⟩
    rcases mem_map.mp ha with ⟨o, ho, rfl⟩
    rcases mem_offsets_zero.mp ho with ⟨b, hb⟩
    rw [hused o b hb] at hfree
    exact mem_map_of_mem (hi.frees.mem_iff.mpr ((mem_frees bs).mpr ⟨b, hb, hfree⟩))
  · rw [free_of_seg h hseg hp.sizes (by omega)]
    exact hi.available

end Lists

theorem memheapOk_of_inv (hs : SysInv s) : MemheapOk s := by
  rcases hs with ⟨hfresh, bs, fl, hi, hl⟩
  have hshape := hi.lists.shape
  have hroom := hshape.place.room
  -- Where a pointer leads, as a number.
  have hptr : ∀ o b, Located size bs o b → (s.heap.addr (o + 24)).toNat
      = s.heap.startAddr.toNat + (o + 24) := by
    intro o b hb
    have hbound := hb.bound
    have hlarge := hshape.large b hb.mem
    exact addr_toNat (by omega)
  refine ⟨⟨_, _, _, listsOk_of_inv s.heap hi, fun p a hp => ?_⟩, hfresh,
    fun p a q c hp hq hne => ?_, fun p a hp i hia => ?_⟩
  · rcases hl p a hp with ⟨o, b, hb, hbu, rfl, hsize, _⟩
    refine ⟨s.heap.addr o, mem_map_of_mem (mem_offsets_zero.mpr ⟨b, hb⟩), ?_⟩
    rcases hb.split with ⟨ls, rs, rfl, rfl⟩
    rw [append_cons] at hshape
    refine ⟨?_, ?_, ?_⟩
    · rw [isUsed_block hshape]
      exact hbu
    · rw [memheapSize_eq]
      exact (addr_add s.heap _ 24).symm
    · rw [memitemSize_toNat hshape]
      omega
  · rcases hl p a hp with ⟨o, b, hb, _, rfl, hsize, _⟩
    rcases hl q c hq with ⟨o', b', hb', _, rfl, hsize', _⟩
    rw [hptr o b hb, hptr o' b' hb']
    rcases hb.apart hb' with ⟨rfl, _⟩ | hapart | hapart
    · exact absurd rfl hne
    · omega
    · omega
  · rcases hl p a hp with ⟨o, b, _, _, rfl, _, hbytes⟩
    rw [← hbytes i hia]
    exact window_add

/-- The region is large enough for two headers and the least block, and the head of the
    free list, which is in the object, is not in it. -/
structure Region (freeHeader startAddr size : BitVec 32) : Prop where
  large : 60 ≤ (rtAlignDown size).toNat
  room : startAddr.toNat + (rtAlignDown size).toNat ≤ 2 ^ 32
  head : freeHeader.toNat + 24 ≤ 2 ^ 32
  outside : freeHeader.toNat + 24 ≤ startAddr.toNat ∨
    startAddr.toNat + (rtAlignDown size).toNat ≤ freeHeader.toNat

instance decidableRegion (freeHeader startAddr size : BitVec 32) :
    Decidable (Region freeHeader startAddr size) :=
  decidable_of_iff (60 ≤ (rtAlignDown size).toNat ∧
    startAddr.toNat + (rtAlignDown size).toNat ≤ 2 ^ 32 ∧ freeHeader.toNat + 24 ≤ 2 ^ 32 ∧
    (freeHeader.toNat + 24 ≤ startAddr.toNat ∨
      startAddr.toNat + (rtAlignDown size).toNat ≤ freeHeader.toNat))
    ⟨fun ⟨h₁, h₂, h₃, h₄⟩ => ⟨h₁, h₂, h₃, h₄⟩, fun ⟨h₁, h₂, h₃, h₄⟩ => ⟨h₁, h₂, h₃, h₄⟩⟩

/-- The variables of a new object. -/
def Heap.fresh (memory : Memory) (self freeHeader startAddr size : BitVec 32) : Heap :=
  ⟨memory, self, freeHeader, startAddr, rtAlignDown size, rtAlignDown size - 2#32 * memheapSize,
    rtAlignDown size - (rtAlignDown size - 2#32 * memheapSize), startAddr, freeHeader⟩

/-- Write some fields of one header, one after the other. -/
def Heap.writes (h : Heap) (a : BitVec 32) (ws : List (Field × BitVec 32)) : Heap :=
  ws.foldl (fun h w => h.set w.1 a w.2) h

/-- The calls of the owners return. -/
def Returns (s : MemSys) : Prop :=
  ∀ act, MemCond s act → Owned s act → ∃ s', memStep s act = some s'

section Init

variable {memory : Memory} {self freeHeader : BitVec 32} {startAddr : BitVec 32} {size : BitVec 32}

/-- Of the writes to a field, the last one counts. -/
theorem Written.writes {h h' : Heap} {bs : List Block} {w : Field → BitVec 32 → BitVec 32}
    {a : BitVec 32} {ws : List (Field × BitVec 32)} (hw : Written h h' bs w)
    (hp : Place h.startAddr h.freeHeader bs) (ha : IsItem h.startAddr h.freeHeader bs a) :
    Written h (h'.writes a ws) bs fun g b =>
      if a = b then ws.foldl (fun v w => if w.1 = g then w.2 else v) (w g b) else w g b := by
  induction ws generalizing h' w with
  | nil => exact ⟨hw.frame, hw.available, fun g b hb => (hw.get g b hb).trans (ite_self _).symm⟩
  | cons u ws ih =>
    rcases ih (hw.set hp ha) with ⟨hframe, havail, hget⟩
    refine ⟨hframe, havail, fun g b hb => (hget g b hb).trans ?_⟩
    by_cases hab : a = b
    · simp only [hab, and_true, if_true, foldl_cons]
    · simp only [hab, and_false, if_false]

variable (hr : Region freeHeader startAddr size)
include hr

theorem place_init : Place startAddr freeHeader [⟨(rtAlignDown size).toNat - 24, false⟩] := by
  have hlarge := hr.large
  have hroom := hr.room
  have hhead := hr.head
  have hout := hr.outside
  have htotal : total Block.size [⟨(rtAlignDown size).toNat - 24, false⟩]
      = (rtAlignDown size).toNat - 24 := by
    simp only [total_singleton]
  refine ⟨?_, fun b hb => ?_, fun k x hk hx hc => ?_⟩
  · rw [htotal]
    omega
  · rw [mem_singleton.mp hb]
    change 24 ≤ (rtAlignDown size).toNat - 24
    omega
  · rw [htotal] at hx
    have hnat := congrArg BitVec.toNat hc
    simp only [toNat_add, toNat_ofNat] at hnat
    omega

omit hr in
/-- The stages of the initialization: the head of the free list and the header of the block,
    the free list, and the header at the end. -/
theorem rtMemheapInit_stages {h h0 : Heap} {n : Nat}
    (heq : rtMemheapInit memory self freeHeader startAddr size = some h)
    (h0eq : Heap.fresh memory self freeHeader startAddr size = h0)
    (hn : (rtAlignDown size).toNat = n + 24) :
    self ≠ 0#32 ∧ ∃ h1,
      (h0.writes freeHeader [(.magic, memheapMagic), (.poolPtr, self), (.next, 0#32),
        (.prev, 0#32), (.nextFree, freeHeader), (.prevFree, freeHeader)]).writes (h0.addr 0)
          [(.magic, memheapMagic), (.poolPtr, self), (.next, 0#32), (.prev, 0#32),
            (.nextFree, h0.addr 0), (.prevFree, h0.addr 0), (.next, h0.addr n),
            (.prev, h0.addr n)] = h1 ∧
      (h1.linkFree (h0.addr 0)).writes ((h1.linkFree (h0.addr 0)).get .next (h0.addr 0))
        [(.magic, mark true), (.poolPtr, self), (.next, h0.addr 0), (.prev, h0.addr 0),
          (.prevFree, 0#32), (.nextFree, 0#32)] = h := by
  simp only [rtMemheapInit, bind_iff, assert_iff, pure_iff] at heq
  rcases heq with ⟨hself, heq⟩
  have hzero : h0.addr 0 = startAddr := by
    rw [← h0eq]
    exact BitVec.add_zero startAddr
  have hend : startAddr + (rtAlignDown size - 2#32 * memheapSize) + memheapSize = h0.addr n := by
    rw [← h0eq, memheapSize_eq]
    change startAddr + (rtAlignDown size - 2#32 * 24#32) + 24#32 = startAddr + ofNat 32 n
    refine eq_of_toNat_eq ?_
    simp only [toNat_add, toNat_sub, toNat_mul, toNat_ofNat]
    omega
  refine ⟨hself, _, rfl, ?_⟩
  -- The link to the end is read again for the link back.
  rw [hzero, ← hend, ← h0eq, ← heq]
  simp only [get_set_self, Heap.writes, foldl_cons, foldl_nil, mark, if_true]
  simp only [Heap.set, Heap.fresh]

theorem rtMemheapInit_spec {h : Heap}
    (heq : rtMemheapInit memory self freeHeader startAddr size = some h) :
    Inv h [⟨(rtAlignDown size).toNat - 24, false⟩] [0] := by
  have hp := place_init hr
  have hlarge := hr.large
  generalize hn : (rtAlignDown size).toNat - 24 = n at *
  generalize h0eq : Heap.fresh memory self freeHeader startAddr size = h0
  rcases rtMemheapInit_stages heq h0eq (n := n) (by omega) with ⟨hself, h1, h1eq, heq⟩
  have hvars : h0.self = self ∧ freeHeader = h0.freeHeader ∧ h0.poolSize = rtAlignDown size ∧
      h0.blockList = h0.startAddr ∧ h0.freeList = h0.freeHeader ∧
      h0.availableSize = rtAlignDown size - 2#32 * memheapSize ∧
      Place h0.startAddr h0.freeHeader [⟨n, false⟩] := by
    rw [← h0eq]
    exact ⟨rfl, rfl, rfl, rfl, rfl, rfl, hp⟩
  rcases hvars with ⟨vself, vhead, vpool, vblock, vfree, vavail, hp⟩
  have htotal : total Block.size [(⟨n, false⟩ : Block)] = n := total_singleton _ _
  have hatS : HeaderAt [⟨n, false⟩] 0 := .inr ⟨_, .inl ⟨rfl, rfl⟩⟩
  have hatT : HeaderAt [⟨n, false⟩] n := .inl htotal.symm
  have hST : h0.addr n ≠ h0.addr 0 :=
    addr_ne h0 n hp 0 (headerAt_le hatT) (headerAt_le hatS) (by omega)
  -- The head of the free list and the header of the block.
  rw [vhead] at h1eq
  have hw1 := h1eq ▸ ((written_refl h0).writes hp (item_head h0)).writes hp (item_addr h0 hatS)
  have hhead1 := fun g => (hw1.get g _ (item_head h0)).trans
    ((if_neg (addr_ne_head h0 hp hatS)).trans (if_pos rfl))
  have hget1 := fun g => (hw1.get g _ (item_addr h0 hatS)).trans (if_pos rfl)
  have hp1 : Place h1.startAddr h1.freeHeader [⟨n, false⟩] := by
    rw [hw1.frame.startAddr, hw1.frame.freeHeader]
    exact hp
  have hfree1 : FreeOk h1 [] := by
    unfold FreeOk
    rw [hw1.frame.freeHeader]
    exact ⟨hhead1 .nextFree, hhead1 .prevFree⟩
  -- The block is put on the free list.
  generalize h2eq : h1.linkFree (h0.addr 0) = h2 at heq
  have haddr1 := fun k => addr_congr k hw1.frame.startAddr
  rw [← haddr1] at h2eq
  rcases linkFree_spec h1 h2 [⟨n, false⟩] hp1 (by
    rw [hw1.frame.freeList, hw1.frame.freeHeader, vfree]) (fun o ho => absurd ho not_mem_nil)
    nodup_nil hatS not_mem_nil hfree1 h2eq with ⟨hfree2, hf2, ha2, hsame2⟩
  have hframe2 := frame_trans h0 hw1.frame hf2
  have hget2 : ∀ g, g ≠ .nextFree → g ≠ .prevFree →
      h2.get g (h0.addr 0) = h1.get g (h0.addr 0) := by
    rw [← haddr1]
    exact hsame2 0 hatS
  -- The header at the end is written, and no other one.
  rw [hget2 .next nofun nofun, hget1, ← addr_congr n hframe2.startAddr] at heq
  have hw := heq ▸ (written_refl h2).writes (by
    rw [hf2.startAddr, hf2.freeHeader]
    exact hp1) (item_addr h2 hatT)
  have hframe := frame_trans h0 hframe2 hw.frame
  have haddr := fun k => addr_congr k hframe.startAddr
  have hget : ∀ g a, IsItem h2.startAddr h2.freeHeader [⟨n, false⟩] a → h0.addr n ≠ a →
      h.get g a = h2.get g a := by
    intro g a ha hne
    rw [hw.get g a ha, addr_congr n hframe2.startAddr, if_neg hne]
  have hgetS : ∀ g, g ≠ .nextFree → g ≠ .prevFree → h.get g (h0.addr 0) = h1.get g (h0.addr 0) := by
    intro g hg hg'
    rw [hget g _ (addr_congr 0 hframe2.startAddr ▸ item_addr h2 hatS) hST, hget2 g hg hg']
  have hgetT := fun g => (hw.get g _ (item_addr h2 hatT)).trans (if_pos rfl)
  rw [addr_congr n hframe2.startAddr] at hgetT
  refine ⟨⟨⟨?_, fun b hb => ?_, cons_ne_nil _ _, ?_, ?_, ?_, ?_,
    ⟨(headerOk_frame _ hframe).mpr ?_, trivial⟩, ?_⟩, ?_, nodup_singleton 0, fun o ho => ?_⟩, ?_,
    isChain_singleton _, ?_⟩
  · rw [hframe.startAddr, hframe.freeHeader]
    exact hp
  · rw [mem_singleton.mp hb]
    change 36 ≤ n
    omega
  · rw [hframe.poolSize, vpool]
    omega
  · rw [hframe.blockList, vblock, hframe.startAddr]
  · rw [hframe.freeList, vfree, hframe.freeHeader]
  · rw [hframe.self, vself]
    exact hself
  · rw [hgetS .magic nofun nofun, hgetS .poolPtr nofun nofun, hgetS .next nofun nofun,
      hgetS .prev nofun nofun, hget1, hget1, hget1, hget1, vself, zero_add]
    exact ⟨rfl, rfl, rfl, rfl⟩
  · rw [htotal, tailOk_iff, haddr, haddr, haddr, hgetT, hgetT, hgetT]
    exact ⟨rfl, rfl, rfl⟩
  · -- The header at the end is not on the free list.
    have hmap : [0].map h.addr = [0].map h2.addr := by
      rw [map_singleton, map_singleton, haddr, addr_congr 0 hframe2.startAddr]
    have hnodes : ∀ a ∈ h2.freeHeader :: [0].map h2.addr, ∀ g, h.get g a = h2.get g a := by
      intro a ha g
      refine hget g a (item_node h2 _ [0] (fun o ho => mem_singleton.mp ho ▸ hatS) a ha) ?_
      rw [map_singleton, addr_congr 0 hframe2.startAddr, hframe2.freeHeader] at ha
      simp only [mem_cons, not_mem_nil, or_false] at ha
      rcases ha with rfl | rfl
      · exact addr_ne_head h0 hp hatT
      · exact hST
    unfold FreeOk
    rw [hmap, hw.frame.freeHeader]
    exact Ring.seg_congr h2.links h.links (fun a ha => hnodes a ha .nextFree)
      (fun a ha => hnodes a ha .prevFree) hfree2
  · rw [mem_singleton.mp ho]
    exact hatS
  · rw [frees_free rfl]
    exact List.Perm.refl _
  · have h48 : 2#32 * memheapSize = 48#32 := by rw [memheapSize_eq]; rfl
    rw [hw.available, ha2, hw1.available, vavail, toNat_sub, h48, toNat_ofNat]
    simp only [freeTotal, Bool.false_eq_true, if_false]
    omega

theorem memSysInit_inv {s : MemSys}
    (hinit : memSysInit memory self freeHeader startAddr size = some s) : SysInv s := by
  simp only [memSysInit, bind_iff, pure_iff] at hinit
  rcases hinit with ⟨h, hh, rfl⟩
  exact ⟨rfl, _, _, rtMemheapInit_spec hr hh, fun p a hp => nomatch hp⟩

/-- In a run within bounds no check fails, and no search goes on for ever. -/
theorem memheap_returns {s : MemSys} {as : List MemAction}
    (hinit : memSysInit memory self freeHeader startAddr size = some s)
    (hC : Along memStep MemCond s as) : Always memStep Returns s as :=
  always_of_inv SysInv (fun hs _ => memStep_defined hs) memStep_inv (memSysInit_inv hr hinit) hC

end Init

/-- An allocation of nine bytes, and its release. -/
theorem memheap_returns_free :
    ∃ s, memSysInit (fun _ => 0#8) 4#32 0x400#32 0x800#32 0x403#32 = some s ∧
      Always memStep Returns s [.alloc 9#32, .free 0x818#32] :=
  exists_of_run (Along memStep MemCond · _) (by decide +kernel) fun _ => memheap_returns (by decide)

/-- A memory heap object is right in every run within bounds: both lists are what they
    should be, and what the owners have is theirs alone. -/
theorem memheap_represents (memory : Memory) (self freeHeader startAddr size : BitVec 32)
    (s : MemSys) (as : List MemAction) (hr : Region freeHeader startAddr size)
    (hinit : memSysInit memory self freeHeader startAddr size = some s)
    (hC : Along memStep MemCond s as) : Always memStep MemheapOk s as :=
  always_of_inv SysInv (memheapOk_of_inv _) memStep_inv (memSysInit_inv hr hinit) hC

/-- A run in which a block grows where it is, another one has its end cut off, a third one
    moves, and the holes are merged. -/
theorem memheap_represents_resized :
    ∃ s, memSysInit (fun _ => 0xcc#8) 0x10000000#32 0x10000030#32 0x20000000#32 0x403#32 = some s ∧
      Always memStep MemheapOk s [.alloc 100#32, .write 0x20000018#32 4 0x5a#8, .alloc 20#32,
        .realloc 0x20000094#32 60#32, .realloc 0x20000018#32 40#32, .realloc 0x20000018#32 200#32,
        .free 0x20000094#32] ∧
      (exec memStep s [.alloc 100#32, .write 0x20000018#32 4 0x5a#8, .alloc 20#32,
        .realloc 0x20000094#32 60#32, .realloc 0x20000018#32 40#32,
        .realloc 0x20000018#32 200#32]).map (fun t =>
          (t.heap.availableSize, t.heap.memory 0x200000ec#32)) = some (644#32, 0x5a#8) :=
  exists_checked (fun s hs hC => memheap_represents _ _ _ _ _ s _ (by decide) hs hC)
    (by decide +kernel)

/-- A resize to a size that wraps around when the least size of a block is added to it. The
    block seems to fit where it is, and the header of the rest is written into the header
    of the block: it no longer leads back to the end of the pool. -/
theorem realloc_wraps :
    Region 0x10000030#32 0x20000000#32 0x403#32 ∧
    ∃ s s', memSysInit (fun _ => 0xcc#8) 0x10000000#32 0x10000030#32 0x20000000#32 0x403#32 =
        some s ∧
      exec memStep s [.alloc 100#32, .realloc 0x20000018#32 0xfffffff4#32] = some s' ∧
      ¬ MemheapOk s' := by
  refine ⟨by decide, exists_of_runs (fun _ t => t.heap.startAddr = 0x20000000#32 ∧
    t.heap.poolSize = 0x400#32 ∧ t.heap.get .prev t.heap.startAddr = 0x1ea01ea0#32)
    (by decide +kernel) ?_⟩
  rintro s t - - ⟨hstart, hpool, hprev⟩ hok
  rcases hok.lists with ⟨items, tail, free, hlists, _⟩
  -- The first block leads back to the header at the end.
  have hback : t.heap.get .prev t.heap.startAddr = tail := by
    have hfirst := hlists.first
    have hring := hlists.ring
    cases items with
    | nil => exact nomatch hfirst
    | cons a rest =>
      cases hfirst
      exact hring.2.1
  have hlast := hlists.last
  rw [← hback, hprev, hstart, hpool] at hlast
  exact absurd hlast (by decide)

/-- An allocation returns a block that is large enough, for sizes that do not wrap
    around, or it returns none. Then no block on the free list is large enough, unless the
    size is exactly what is available. -/
def AllocOk : Prop :=
  ∃ items tail free, ListsOk s.heap items tail free ∧ ∀ size : BitVec 32, ∃ h' p,
    rtMemheapAlloc s.heap size = some (h', p) ∧
    (p ≠ 0#32 → size.toNat ≤ 2 ^ 32 - 4 → size.toNat ≤ (h'.memitemSize (p - memheapSize)).toNat) ∧
    (p = 0#32 → allocSize size ≠ s.heap.availableSize →
      ∀ a ∈ free, s.heap.memitemSize a < allocSize size)

theorem allocOk_of_inv (hs : SysInv s) : AllocOk s := by
  rcases hs with ⟨_, bs, fl, hi, _⟩
  have hok := listsOk_of_inv s.heap hi
  refine ⟨_, _, _, hok, fun size => ?_⟩
  rcases rtMemheapAlloc_spec size hi with ⟨h', p, heq, hcase⟩
  refine ⟨h', p, heq, fun hp hsize => ?_, fun hp hne a ha => ?_⟩
  · rcases hcase with ⟨hz, _⟩ | ⟨bs', fl', o, b, hall⟩
    · exact absurd hz hp
    have hfits := hall.fits
    have hshape := hall.inv.lists.shape
    have hptr : p - memheapSize = h'.addr o := by
      rw [hall.ptr, ← addr_add, memheapSize_eq]
      exact BitVec.add_sub_cancel _ _
    rw [allocSize_toNat] at hfits
    rcases hall.located.split with ⟨ls, rs, rfl, rfl⟩
    rw [append_cons] at hshape
    rw [hptr, memitemSize_toNat hshape]
    omega
  rcases hcase with ⟨_, _, havail | hsmall⟩ | ⟨bs', fl', o, b, hall⟩
  · -- What one free block has is part of what is available.
    rcases (hok.freeIff a).mp ha with ⟨hitem, hfree⟩
    have hle : (s.heap.memitemSize a).toNat ≤ s.heap.availableSize.toNat := by
      rw [hok.available]
      exact le_sum_of_mem (mem_map_of_mem (mem_filter.mpr ⟨hitem, by rw [hfree]; rfl⟩))
    rw [le_def] at havail
    rw [ne_eq, ← toNat_inj] at hne
    rw [lt_def]
    omega
  · rcases mem_map.mp ha with ⟨o, ho, rfl⟩
    exact hsmall o ho
  · rw [hall.ptr] at hp
    exact absurd hp (ptr_ne_zero hall.inv.lists.shape hall.located)

/-- An allocation gets what there is in every run within bounds. -/
theorem alloc_exact (memory : Memory) (self freeHeader startAddr size : BitVec 32) (s : MemSys)
    (as : List MemAction) (hr : Region freeHeader startAddr size)
    (hinit : memSysInit memory self freeHeader startAddr size = some s)
    (hC : Along memStep MemCond s as) : Always memStep AllocOk s as :=
  always_of_inv SysInv (allocOk_of_inv _) memStep_inv (memSysInit_inv hr hinit) hC

/-- A run that leaves two free blocks. -/
theorem alloc_exact_two :
    ∃ s, memSysInit (fun _ => 0xcc#8) 0x10000000#32 0x10000030#32 0x20000000#32 0x400#32 = some s ∧
      Always memStep AllocOk s [.alloc 100#32, .alloc 20#32, .free 0x20000018#32] :=
  exists_of_run (Along memStep MemCond · [.alloc 100#32, .alloc 20#32, .free 0x20000018#32])
    (by decide +kernel) fun s hs hC => alloc_exact _ _ _ _ _ s _ (by decide) hs hC

/-- The one free block of a new heap has 976 bytes, but 976 bytes cannot be allocated; and
    a size that is rounded up to nothing gets twelve bytes. -/
theorem alloc_exact_missed :
    Region 0x10000030#32 0x20000000#32 0x400#32 ∧
    ∃ s, memSysInit (fun _ => 0xcc#8) 0x10000000#32 0x10000030#32 0x20000000#32 0x400#32 = some s ∧
      s.heap.get .nextFree s.heap.freeList = s.heap.startAddr ∧
      s.heap.memitemSize s.heap.startAddr = 976#32 ∧
      (rtMemheapAlloc s.heap 976#32).map Prod.snd = some 0#32 ∧
      (rtMemheapAlloc s.heap 0xffffffff#32).map
        (fun r => r.1.memitemSize (r.2 - memheapSize)) = some 12#32 :=
  ⟨by decide, exists_of_run _ (by decide +kernel) fun _ _ h => h⟩

end Honeycomb.MemHeap
