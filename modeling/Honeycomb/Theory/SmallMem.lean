import Honeycomb.Lib.Run
import Honeycomb.Theory.HeapAlloc

/-!
# The Small Memory Heap in Every Run

In every run of allocations, resizes and releases the headers in memory describe a heap that is cut
into blocks, with no two free blocks next to each other, and the bytes of every owner are its own.

That is so as long as no size is within three bytes of the largest number. Such a size is rounded up
to nothing, and the block is smaller than what is written to it.

## Theorems

* `heap_represents`: The heap is right in every run within bounds.
* `calloc_wraps`: It is not in every run.
-/

namespace Honeycomb.SmallMem

open BitVec Function Heap Layout List Memory Option Run
open BitVec (ofNat)
open Block (size)

variable {a : Alloc} {b : Block} {count n rmem sz : BitVec 32} {off prev : Nat}

/-- A pointer has a used block, with the bytes its owner knows in it. -/
def LiveAt (h : Heap) (bs : List Block) (p : BitVec 32) (a : Alloc) : Prop :=
  ∃ o b, Located size bs o b ∧ b.used = true ∧ 12 < b.size ∧ p = h.addr (o + 12) ∧
    a.size + 12 ≤ b.size ∧ ∀ i, i < a.size → h.byte (o + 12 + i) = a.bytes i

variable (s : HeapSys)

/-- Every owner has a used block, with its bytes in it. -/
def LiveOk (bs : List Block) : Prop :=
  ∀ p a, s.live p = some a → LiveAt s.heap bs p a

/-- The heap is as its blocks say, and the owners have theirs. -/
def SysInv : Prop :=
  ∃ bs, HeapInv s.heap bs ∧ LiveOk s bs

/-- No size is so large that rounding it up wraps around. -/
def HeapCond (_ : HeapSys) : HeapAction → Prop
  | .malloc size => size.toNat ≤ 2 ^ 32 - 4
  | .calloc count size => (count * size).toNat ≤ 2 ^ 32 - 4
  | .realloc _ newsize => newsize.toNat ≤ 2 ^ 32 - 4
  | .free _ => True
  | .write _ _ _ => True

instance decidableHeapCond : ∀ act, Decidable (HeapCond s act)
  | .malloc size => inferInstanceAs (Decidable (size.toNat ≤ 2 ^ 32 - 4))
  | .calloc count size => inferInstanceAs (Decidable ((count * size).toNat ≤ 2 ^ 32 - 4))
  | .realloc _ newsize => inferInstanceAs (Decidable (newsize.toNat ≤ 2 ^ 32 - 4))
  | .free _ => isTrue trivial
  | .write _ _ _ => isTrue trivial

section Step

variable {h h' : Heap} {bs bs' : List Block} (p : BitVec 32) {s s' : HeapSys}

theorem rtAlign_le {n : BitVec 32} (hn : n.toNat ≤ 2 ^ 32 - 4) : n.toNat ≤ (rtAlign n).toNat := by
  rw [rtAlign_toNat]
  omega

theorem liveAt_keeps {Except : Nat → Prop} (hk : Keeps h h' bs bs' Except) (hl : LiveAt h bs p a)
    (hne : ∀ o, p = h.addr (o + 12) → ¬ Except o) : LiveAt h' bs' p a := by
  rcases hl with ⟨o, b, hb, hbu, hpos, hp, hsize, hbytes⟩
  rcases hk.blocks o b hb hbu (hne o hp) with ⟨hb', hsame⟩
  refine ⟨o, b, hb', hbu, hpos, ?_, hsize, fun i hi => ?_⟩
  · rw [hp, addr_congr _ hk.heapPtr]
  · rw [hsame _ (by omega) (by omega)]
    exact hbytes i hi

theorem ptr_ne_zero {o : Nat} (hs : Shape h bs) (hb : Located size bs o b)
    (hpos : 12 < b.size) (hp : p = h.addr (o + 12)) : p ≠ 0#32 := by
  rcases hb.split with ⟨ls, rs, rfl, rfl⟩
  rw [hp]
  exact (user_addr hs hpos).1

theorem sysInv_give {s : HeapSys} {known : Alloc} {sz o : Nat} (hi : HeapInv h' bs')
    (hb : Located size bs' o b) (hbu : b.used = true) (hpos : 12 < b.size)
    (hp : p = h'.addr (o + 12)) (hfits : sz + 12 ≤ b.size)
    (hknown : ∀ i, i < sz → i < known.size → h'.byte (o + 12 + i) = known.bytes i)
    (hold : ∀ q a, q ≠ p → s.live q = some a → LiveAt h' bs' q a) :
    SysInv (s.give h' p sz known) := by
  have hnz := ptr_ne_zero p hi.shape hb hpos hp
  simp only [HeapSys.give, if_neg hnz]
  refine ⟨bs', hi, forall_update_some (fun a ha => ?_) (fun q hqp a => hold q a hqp)⟩
  cases ha
  refine ⟨o, b, hb, hbu, hpos, hp, hfits, fun i hi => ?_⟩
  dsimp only at hi ⊢
  split_ifs with hk
  · exact hknown i hi hk
  · rw [hp]
    exact window_add.symm

theorem sysInv_allocated (h' : Heap) (p : BitVec 32) (n sz : Nat) (known : Alloc)
    (hi : HeapInv s.heap bs) (hl : LiveOk s bs) (hle : sz ≤ n)
    (hcase : (p = 0#32 ∧ h' = s.heap) ∨ ∃ bs' o b, Allocated s.heap bs n h' p bs' o b ∧
      ∀ i, i < sz → i < known.size → h'.byte (o + 12 + i) = known.bytes i) :
    SysInv (s.give h' p sz known) := by
  rcases hcase with ⟨rfl, rfl⟩ | ⟨bs', o, b, ha, hknown⟩
  · refine ⟨bs, hi, fun q a hq => ?_⟩
    exact hl q a hq
  · have hfits := ha.fits
    exact sysInv_give p ha.inv ha.located ha.used ha.pos ha.ptr (by omega)
      hknown (fun q a _ hq => liveAt_keeps q ha.keeps (hl q a hq) (fun _ _ => not_false))

theorem sysInv_malloc (hn : n.toNat ≤ 2 ^ 32 - 4) (hs : SysInv s)
    (heq : rtMalloc s.heap n = some (h', p)) : SysInv (s.give h' p n.toNat unknown) := by
  rcases hs with ⟨bs, hi, hl⟩
  refine sysInv_allocated h' p _ n.toNat unknown hi hl (rtAlign_le hn) ?_
  rcases rtMalloc_spec hi heq with hz | ⟨bs', o, b, ha, _⟩
  · exact .inl hz
  · exact .inr ⟨bs', o, b, ha, fun i _ hk => absurd hk (Nat.not_lt_zero i)⟩

theorem rtCalloc_spec (hn : (count * sz).toNat ≤ 2 ^ 32 - 4) (hi : HeapInv h bs)
    (heq : rtCalloc h count sz = some (h', p)) :
    (p = 0#32 ∧ h' = h) ∨ ∃ bs' o b, Allocated h bs (rtAlign (count * sz)).toNat h' p bs' o b ∧
      (∀ i, i < (count * sz).toNat → h'.byte (o + 12 + i) = 0#8) ∧
      (LfreeLow h bs → LfreeLow h' bs') := by
  have hle := rtAlign_le hn
  unfold rtCalloc at heq
  simp only [bind_iff] at heq
  rcases heq with ⟨⟨h1, p1⟩, hmalloc, heq⟩
  rcases rtMalloc_spec hi hmalloc with ⟨rfl, rfl⟩ | ⟨bs', o, b, ha, hlow⟩
  · cases heq
    exact .inl ⟨rfl, rfl⟩
  have hfits := ha.fits
  have hroom := ha.inv.shape.room
  have hbound := ha.located.bound
  rw [if_pos (ptr_ne_zero p1 ha.inv.shape ha.located ha.pos ha.ptr)] at heq
  simp only [Option.pure_def, some.injEq, Prod.mk.injEq] at heq
  rcases heq with ⟨hh, rfl⟩
  -- The zeros go to the user area of the new block.
  have hfill : ∀ x, x < 2 ^ 32 → h'.byte x
      = if o + 12 ≤ x ∧ x < o + 12 + (count * sz).toNat then 0#8 else h1.byte x := by
    intro x hx
    have hw := window_fill h1.memory h1.heapPtr (o + 12) x hx (count * sz) 0#8 (by omega)
    rw [← hh, ha.ptr]
    exact hw
  have hagrees : Agrees h1 h' (o + 12) (o + b.size) := by
    refine ⟨by rw [← hh], by rw [← hh], by rw [← hh], fun x hx hout => ?_⟩
    rw [hfill x hx, if_neg (by omega)]
  rcases heapInv_user h1 bs' b ha.inv ha.located (by rw [← hh]) (by rw [← hh]) hagrees with
    ⟨hi', hkeeps⟩
  refine .inr ⟨bs', o, b, { ha with inv := hi', keeps := ⟨hkeeps.heapPtr.trans ha.keeps.heapPtr,
    ha.keeps.total, fun o' c hc hcu _ => ?_⟩, ptr := ?_ }, fun i hi => ?_,
    fun hlow0 => lfreeLow_congr h1 bs' hkeeps.heapPtr (by rw [← hh]) (hlow hlow0)⟩
  · rcases ha.keeps.blocks o' c hc hcu not_false with ⟨hc1, hbytes1⟩
    rcases hkeeps.blocks o' c hc1 hcu (allocated_ne h bs ha hc hcu) with
      ⟨hc2, hbytes2⟩
    exact ⟨hc2, fun x hlo hhi => (hbytes2 x hlo hhi).trans (hbytes1 x hlo hhi)⟩
  · rw [ha.ptr]
    exact (addr_congr _ hkeeps.heapPtr).symm
  · rw [hfill _ (by omega), if_pos (by omega)]

theorem sysInv_calloc (hn : (count * sz).toNat ≤ 2 ^ 32 - 4) (hs : SysInv s)
    (heq : rtCalloc s.heap count sz = some (h', p)) :
    SysInv (s.give h' p (count * sz).toNat ⟨(count * sz).toNat, fun _ => 0#8⟩) := by
  rcases hs with ⟨bs, hi, hl⟩
  refine sysInv_allocated h' p _ _ _ hi hl (rtAlign_le hn) ?_
  rcases rtCalloc_spec p hn hi heq with hz | ⟨bs', o, b, ha, hzeros, _⟩
  · exact .inl hz
  · exact .inr ⟨bs', o, b, ha, fun i hi _ => hzeros i hi⟩

theorem sysInv_drop {o : Nat} (hi : HeapInv h' bs') (hl : LiveOk s bs)
    (hkeeps : Keeps s.heap h' bs bs' (· = o)) (hp : p = s.heap.addr (o + 12)) :
    SysInv ({ s with heap := h' }.drop p) := by
  refine ⟨bs', hi, forall_update_some nofun (fun q hqp c hq => ?_)⟩
  refine liveAt_keeps q hkeeps (hl q c hq) (fun o' ho he => hqp ?_)
  rw [ho, he, hp]

theorem sysInv_free (hlive : s.live p = some a) (hs : SysInv s) (heq : rtFree s.heap p = some h') :
    SysInv ({ s with heap := h' }.drop p) := by
  rcases hs with ⟨bs, hi, hl⟩
  rcases hl p a hlive with ⟨o, b, hb, hbu, hpos, hp, _, _⟩
  rcases hb.split with ⟨ls, rs, rfl, rfl⟩
  rcases rtFree_spec ls rs b hi hbu hpos with ⟨h1, bs1, hfree, hi1, hkeeps, _⟩
  rw [← hp, heq] at hfree
  cases hfree
  exact sysInv_drop p hi1 hl hkeeps hp

theorem sysInv_realloc (hn : n.toNat ≤ 2 ^ 32 - 4) (hlive : s.live rmem = some a) (hs : SysInv s)
    (heq : rtRealloc s.heap rmem n = some (h', p)) :
    (p = 0#32 → n = 0#32 → SysInv ({ s with heap := h' }.drop rmem)) ∧
    (p = 0#32 → n ≠ 0#32 → SysInv { s with heap := h' }) ∧
    (p ≠ 0#32 → SysInv ((s.drop rmem).give h' p n.toNat a)) := by
  have hs' := hs
  rcases hs with ⟨bs, hi, hl⟩
  have hle := rtAlign_le hn
  rcases hl rmem a hlive with ⟨o, b, hb, hbu, hpos, hp, hasize, habytes⟩
  rw [hp] at heq
  rcases rtRealloc_spec hi hb hbu hpos heq with
    ⟨hz, rfl, hne, _⟩ | ⟨hz, hnone, bs', hi', hkeeps, _⟩ | ⟨bs', o', b', hr, _⟩
  · refine ⟨fun _ hn0 => absurd ?_ hne, fun _ _ => hs', fun hc => absurd hz hc⟩
    rw [hn0]
    rfl
  · refine ⟨fun _ _ => sysInv_drop rmem hi' hl hkeeps hp, fun _ hn0 => absurd ?_ hn0,
      fun hc => absurd hz hc⟩
    rw [hnone] at hle
    exact eq_of_toNat_eq (Nat.le_zero.mp hle)
  have hnz := ptr_ne_zero p hr.inv.shape hr.located hr.pos hr.ptr
  refine ⟨fun hc => absurd hc hnz, fun hc => absurd hc hnz, fun _ => ?_⟩
  have hfits := hr.fits
  refine sysInv_give p hr.inv hr.located hr.used hr.pos hr.ptr (by omega) (fun i hin hia => ?_)
    (fun q c _ => forall_update_some nofun (fun q hqr c hq => ?_) q c)
  · rw [hr.bytes i (by omega) (by omega)]
    exact habytes i hia
  · refine liveAt_keeps q hr.keeps (hl q c hq) (fun o1 ho he => hqr ?_)
    rw [ho, he, hp]

theorem rtRealloc_null (heq : rtRealloc h 0#32 n = some (h', p)) :
    (p = 0#32 ∧ h' = h) ∨ rtMalloc h (rtAlign n) = some (h', p) := by
  unfold rtRealloc rtFree at heq
  simp only [if_true] at heq
  split_ifs at heq with hlarge hnone
  · cases heq
    exact .inl ⟨rfl, rfl⟩
  · cases heq
    exact .inl ⟨rfl, rfl⟩
  · exact .inr heq

theorem sysInv_reallocNull (hn : n.toNat ≤ 2 ^ 32 - 4) (hs : SysInv s)
    (heq : rtRealloc s.heap 0#32 n = some (h', p)) : SysInv (s.give h' p n.toNat unknown) := by
  rcases hs with ⟨bs, hi, hl⟩
  have hle := rtAlign_le hn
  have halign : (rtAlign (rtAlign n)).toNat = (rtAlign n).toNat := by
    rw [rtAlign_toNat (rtAlign n), rtAlign_toNat n]
    omega
  refine sysInv_allocated h' p (rtAlign (rtAlign n)).toNat n.toNat unknown hi hl (by omega) ?_
  rcases rtRealloc_null p heq with hz | heq
  · exact .inl hz
  · rcases rtMalloc_spec hi heq with hz | ⟨bs', o, b, ha, _⟩
    · exact .inl hz
    · exact .inr ⟨bs', o, b, ha, fun i _ hk => absurd hk (Nat.not_lt_zero i)⟩

theorem heapInv_write (h' : Heap) (o i : Nat) (v : BitVec 8) (hi : HeapInv h bs)
    (hb : Located size bs o b) (hib : 12 + i < b.size)
    (heq : { h with memory := h.memory.store8 (h.addr (o + 12) + ofNat 32 i) v } = h') :
    HeapInv h' bs ∧ Keeps h h' bs bs (· = o) ∧ h'.lfree = h.lfree ∧
      ∀ x, x < 2 ^ 32 → h'.byte x = if x = o + 12 + i then v else h.byte x := by
  have hroom := hi.shape.room
  have hbound := hb.bound
  have hbyte : ∀ x, x < 2 ^ 32 → h'.byte x = if x = o + 12 + i then v else h.byte x := by
    intro x hx
    rw [← heq, addr_add]
    exact window_store8 hx (by omega)
  have hagrees : Agrees h h' (o + 12) (o + b.size) := by
    refine ⟨by rw [← heq], by rw [← heq], by rw [← heq], fun x hx hout => ?_⟩
    rw [hbyte x hx, if_neg (by omega)]
  rcases heapInv_user h bs b hi hb (by rw [← heq]) (by rw [← heq]) hagrees with ⟨hi', hkeeps⟩
  exact ⟨hi', hkeeps, by rw [← heq], hbyte⟩

theorem sysInv_write {i : Nat} {v : BitVec 8} (hlive : s.live rmem = some a) (hia : i < a.size)
    (hs : SysInv s) :
    SysInv ⟨{ s.heap with memory := s.heap.memory.store8 (rmem + ofNat 32 i) v },
      update s.live rmem (some { a with bytes := update a.bytes i v })⟩ := by
  rcases hs with ⟨bs, hi, hl⟩
  rcases hl rmem a hlive with ⟨o, b, hb, hbu, hpos, hp, hasize, habytes⟩
  have hroom := hi.shape.room
  have hbound := hb.bound
  generalize hg : ({ s.heap with
    memory := s.heap.memory.store8 (rmem + ofNat 32 i) v } : Heap) = g
  rw [hp] at hg
  rcases heapInv_write g o i v hi hb (by omega) hg with ⟨hi', hkeeps, _, hbyte⟩
  refine ⟨bs, hi', forall_update_some (fun c hc => ?_) (fun q hqr c hq => ?_)⟩
  · cases hc
    refine ⟨o, b, hb, hbu, hpos, ?_, hasize, fun j hj => ?_⟩
    · rw [hp]
      exact (addr_congr _ hkeeps.heapPtr).symm
    dsimp only at hj ⊢
    rw [hbyte _ (by omega)]
    by_cases hji : j = i
    · rw [hji, if_pos rfl, update_self]
    · rw [if_neg (by omega), update_of_ne hji]
      exact habytes j hj
  · refine liveAt_keeps q hkeeps (hl q c hq) (fun o' ho he => hqr ?_)
    rw [ho, he, hp]

theorem heapStep_inv {act : HeapAction} (hs : SysInv s) (hc : HeapCond s act)
    (heq : heapStep s act = some s') : SysInv s' := by
  cases act with simp only [heapStep, bind_iff, pure_iff] at heq
  | malloc sz =>
    rcases heq with ⟨⟨h', p⟩, hr, rfl⟩
    exact sysInv_malloc p hc hs hr
  | calloc count sz =>
    rcases heq with ⟨⟨h', p⟩, hr, rfl⟩
    exact sysInv_calloc p hc hs hr
  | realloc rmem newsize =>
    simp only [bind_eq_bind, Option.pure_def] at heq
    by_cases hz : rmem = 0#32
    · simp only [if_pos hz, bind_eq_some_iff, some.injEq] at heq
      rcases heq with ⟨⟨h', p⟩, hr, rfl⟩
      rw [hz] at hr
      exact sysInv_reallocNull p hc hs hr
    simp only [if_neg hz, bind_eq_some_iff] at heq
    rcases heq with ⟨a, hlive, ⟨h', p⟩, hr, heq⟩
    rcases sysInv_realloc p hc hlive hs hr with ⟨h1, h2, h3⟩
    split_ifs at heq with hp hnone
    · cases heq
      exact h1 hp hnone
    · cases heq
      exact h2 hp hnone
    · cases heq
      exact h3 hp
  | free rmem =>
    simp only [bind_eq_bind, Option.pure_def] at heq
    split_ifs at heq with hz
    · simp only [rtFree, if_pos hz, bind_some] at heq
      cases heq
      exact hs
    · simp only [bind_eq_some_iff, some.injEq] at heq
      rcases heq with ⟨a, hlive, h', hr, rfl⟩
      exact sysInv_free rmem hlive hs hr
  | write rmem i v =>
    simp only [assert_iff] at heq
    rcases heq with ⟨a, hlive, hia, rfl⟩
    exact sysInv_write hlive hia hs

end Step

/-- The offsets of the blocks that `next` leads to, up to the end of the heap. -/
def Walk (h : Heap) : BitVec 32 → List (BitVec 32) → Prop
  | ptr, [] => h.block ptr = h.heapEnd
  | ptr, o :: os => ptr = o ∧ h.block ptr ≠ h.heapEnd ∧ Walk h (h.next (h.block ptr)) os

/-- What the headers say, from the first block to the end. -/
structure ChainOk (h : Heap) (os : List (BitVec 32)) : Prop where
  walk : Walk h 0#32 os
  rising : (os ++ [h.offset h.heapEnd]).Pairwise (· < ·)
  aligned : ∀ o ∈ os ++ [h.offset h.heapEnd], o.toNat % 4 = 0
  prev : os.IsChain (fun o o' => h.prev (h.block o') = o)
  magic : ∀ o ∈ os ++ [h.offset h.heapEnd], h.magic (h.block o) = heapMagic
  apart : os.IsChain (fun o o' => h.used (h.block o) ≠ 0#16 ∨ h.used (h.block o') ≠ 0#16)
  usedMem : h.usedMem.toNat = ((os.filter (fun o => h.used (h.block o) ≠ 0#16)).map
    (fun o => (h.next (h.block o) - o).toNat)).sum

/-- The headers, and what the owners can rely on: their bytes are inside the heap,
    in used blocks, apart from each other, and as they know them. -/
structure HeapOk : Prop where
  chain : ∃ os, ChainOk s.heap os ∧ ∀ p a, s.live p = some a → ∃ o ∈ os,
    s.heap.used (s.heap.block o) ≠ 0#16 ∧ p = s.heap.block o + sizeofStructMem ∧
      a.size ≤ (s.heap.next (s.heap.block o) - (o + sizeofStructMem)).toNat
  inside : ∀ p a, s.live p = some a →
    s.heap.heapPtr.toNat ≤ p.toNat ∧ p.toNat + a.size ≤ s.heap.heapEnd.toNat
  disjoint : ∀ p a q c, s.live p = some a → s.live q = some c → p ≠ q →
    p.toNat + a.size ≤ q.toNat ∨ q.toNat + c.size ≤ p.toNat
  contents : ∀ p a, s.live p = some a → ∀ i, i < a.size → s.heap.memory.window p i = a.bytes i

section Chain

variable (h : Heap) {bs : List Block}

variable (hseg : Seg size (HeaderOk h) prev off bs)
include hseg

/-- Each block leads to the next, and the last to the end. -/
theorem walk_of_seg (hend : h.heapEnd = h.addr (off + total size bs))
    (hsizes : ∀ b ∈ bs, 12 ≤ b.size)
    (hbound : off + total size bs < 2 ^ 32) :
    Walk h (ofNat 32 off) ((offsets size off bs).map (ofNat 32)) := by
  induction bs generalizing prev off with
  | nil => exact hend.symm
  | cons b bs ih =>
    have hb := hsizes b mem_cons_self
    rw [total_cons] at hend hbound
    refine ⟨rfl, fun hc => ?_, ?_⟩
    · rw [hend] at hc
      have := addr_inj _ hc (by omega)
      omega
    have hnext : h.next (h.block (ofNat 32 off)) = ofNat 32 (off + b.size) :=
      congrArg Header.next hseg.1
    rw [hnext]
    exact ih hseg.2 (by rw [hend, Nat.add_assoc])
      (fun c hc => hsizes c (mem_cons_of_mem b hc)) (by omega)

theorem prev_of_seg :
    ((offsets size off bs).map (ofNat 32)).IsChain (fun o o' => h.prev (h.block o') = o) := by
  induction bs generalizing prev off with
  | nil => exact isChain_nil
  | cons b bs ih =>
    have hrest := ih hseg.2
    cases bs with
    | nil => exact isChain_singleton _
    | cons c cs => exact isChain_cons_cons.mpr ⟨congrArg Header.prev hseg.2.1, hrest⟩

omit hseg in
theorem flag_ne_zero (u : Bool) : flag u ≠ 0#16 ↔ u = true := by
  cases u with
  | false => exact ⟨fun h => absurd rfl h, fun h => absurd h Bool.false_ne_true⟩
  | true => exact ⟨fun _ => rfl, fun _ => by decide⟩

theorem apart_of_seg (hapart : bs.IsChain Apart) :
    ((offsets size off bs).map (ofNat 32)).IsChain
      (fun o o' => h.used (h.block o) ≠ 0#16 ∨ h.used (h.block o') ≠ 0#16) := by
  induction bs generalizing prev off with
  | nil => exact isChain_nil
  | cons b bs ih =>
    have hrest := ih hseg.2 hapart.tail
    cases bs with
    | nil => exact isChain_singleton _
    | cons c cs =>
      have hb : h.used (h.block (ofNat 32 off)) = flag b.used :=
        congrArg Header.used hseg.1
      have hc : h.used (h.block (ofNat 32 (off + b.size))) = flag c.used :=
        congrArg Header.used hseg.2.1
      refine isChain_cons_cons.mpr ⟨?_, hrest⟩
      rw [hb, hc, flag_ne_zero, flag_ne_zero]
      exact (isChain_cons_cons.mp hapart).1

theorem used_of_seg (hbound : off + total size bs < 2 ^ 32) :
    ((((offsets size off bs).map (ofNat 32)).filter
      (fun o => h.used (h.block o) ≠ 0#16)).map (fun o => (h.next (h.block o) - o).toNat)).sum
      = usedTotal bs := by
  induction bs generalizing prev off with
  | nil => rfl
  | cons b bs ih =>
    rw [total_cons] at hbound
    have hrest := ih hseg.2 (by omega)
    have hb : h.used (h.block (ofNat 32 off)) = flag b.used := congrArg Header.used hseg.1
    have hnext : h.next (h.block (ofNat 32 off)) = ofNat 32 (off + b.size) :=
      congrArg Header.next hseg.1
    have hsize : (ofNat 32 (off + b.size) - ofNat 32 off).toNat = b.size := by
      simp only [toNat_sub, toNat_ofNat]
      omega
    rw [offsets, map_cons, filter_cons, usedTotal_cons, ← hrest]
    simp only [hb, flag_ne_zero, decide_eq_true_eq]
    cases hbu : b.used with
    | false => simp only [Bool.false_eq_true, if_false, Nat.zero_add]
    | true => simp only [if_true, map_cons, sum_cons, hnext, hsize]

omit hseg

theorem chainOk_of_inv (hi : HeapInv h bs) : ChainOk h ((offsets size 0 bs).map (ofNat 32)) := by
  have hs := hi.shape
  have hroom := hs.room
  have hseg := hs.blocks
  have hend : h.offset h.heapEnd = ofNat 32 (total size bs) := by
    rw [hs.heapEnd, offset_addr]
  have hsum : (offsets size 0 bs).map (ofNat 32) ++ [h.offset h.heapEnd]
      = (offsets size 0 bs ++ [0 + total size bs]).map (ofNat 32) := by
    rw [hend, map_append, Nat.zero_add]
    rfl
  -- An offset is that of a block, or of the end.
  have hcases : ∀ o ∈ offsets size 0 bs ++ [0 + total size bs],
      (∃ ls b rs, bs = ls ++ b :: rs ∧ o = total size ls) ∨ o = total size bs := by
    intro o ho
    rcases mem_append.mp ho with ho | ho
    · rcases mem_offsets_zero.mp ho with ⟨b, hb⟩
      rcases hb.split with ⟨ls, rs, hbs, hols⟩
      exact .inl ⟨ls, b, rs, hbs, hols⟩
    · exact .inr ((mem_singleton.mp ho).trans (Nat.zero_add _))
  refine ⟨?_, ?_, ?_, prev_of_seg h hseg, ?_, apart_of_seg h hseg hi.apart, ?_⟩
  · exact walk_of_seg h hseg (by rw [Nat.zero_add]; exact hs.heapEnd)
      (fun b hb => (hs.sizes b hb).1) (by omega)
  · rw [hsum, pairwise_map]
    refine (pairwise_offsets size bs 0 (fun b hb => ?_)).imp_of_mem (fun {o o'} ho ho' hlt => ?_)
    · have := (hs.sizes b hb).1
      omega
    · have := le_of_mem_offsets ho'
      rw [lt_def, toNat_ofNat, toNat_ofNat]
      omega
  · rw [hsum]
    intro x hx
    rcases mem_map.mp hx with ⟨o, ho, rfl⟩
    have := le_of_mem_offsets ho
    rw [toNat_ofNat, Nat.mod_eq_of_lt (show o < 2 ^ 32 by omega)]
    rcases hcases o ho with ⟨ls, b, rs, rfl, rfl⟩ | rfl
    · exact total_mod ls (fun c hc => hs.sizes c (mem_append_left _ hc))
    · exact total_mod bs hs.sizes
  · rw [hsum]
    intro x hx
    rcases mem_map.mp hx with ⟨o, ho, rfl⟩
    rcases hcases o ho with ⟨ls, b, rs, rfl, rfl⟩ | rfl
    · exact (shape_fields ls rs b hs).1
    · exact hs.stop.magic
  · rw [used_of_seg h hseg (by omega)]
    exact hi.usedMem

end Chain

theorem heapOk_of_inv (hs : SysInv s) : HeapOk s := by
  rcases hs with ⟨bs, hi, hl⟩
  have hroom := hi.shape.room
  have hend : s.heap.heapEnd.toNat = s.heap.heapPtr.toNat + total size bs := by
    rw [hi.shape.heapEnd]
    exact addr_toNat s.heap _ (by omega)
  -- Where a pointer leads, as a number.
  have hptr : ∀ o b, Located size bs o b → (s.heap.addr (o + 12)).toNat
      = s.heap.heapPtr.toNat + (o + 12) := by
    intro o b hb
    have hbound := hb.bound
    exact addr_toNat s.heap _ (by omega)
  refine ⟨⟨_, chainOk_of_inv s.heap hi, fun p a hp => ?_⟩, fun p a hp => ?_,
    fun p a q c hp hq hne => ?_, fun p a hp i hia => ?_⟩
  · rcases hl p a hp with ⟨o, b, hb, hbu, hpos, rfl, hsize, _⟩
    have hbound := hb.bound
    refine ⟨ofNat 32 o, mem_map_of_mem (mem_offsets_zero.mpr ⟨b, hb⟩), ?_⟩
    rcases hb.split with ⟨ls, rs, rfl, rfl⟩
    rcases shape_fields ls rs b hi.shape with ⟨_, hused, hnext, _⟩
    refine ⟨?_, ?_, ?_⟩
    · change s.heap.used (s.heap.addr (total size ls)) ≠ 0#16
      rw [hused, flag_ne_zero]
      exact hbu
    · exact (addr_add s.heap (total size ls) 12).symm
    · change a.size ≤ (s.heap.next (s.heap.addr (total size ls)) - _).toNat
      rw [hnext, area_toNat _ _ (by omega)]
      omega
  · rcases hl p a hp with ⟨o, b, hb, _, _, rfl, hsize, _⟩
    have hbound := hb.bound
    rw [hptr o b hb]
    omega
  · rcases hl p a hp with ⟨o, b, hb, _, _, rfl, hsize, _⟩
    rcases hl q c hq with ⟨o', b', hb', _, _, rfl, hsize', _⟩
    rw [hptr o b hb, hptr o' b' hb']
    rcases hb.apart hb' with ⟨rfl, _⟩ | hapart | hapart
    · exact absurd rfl hne
    · omega
    · omega
  · rcases hl p a hp with ⟨o, b, _, _, _, rfl, _, hbytes⟩
    rw [← hbytes i hia]
    exact window_add

section Init

variable {memory : Memory} {beginAddr endAddr : BitVec 32}

/-- The first header is written in another order than the others. -/
theorem header_first {h : Heap} {m u : BitVec 16} {v p : BitVec 32} :
    ((((h.setMagic h.heapPtr m).setNext h.heapPtr v).setPrev h.heapPtr p).setUsed h.heapPtr
      u).header 0 = ⟨m, u, v, p⟩ := by
  have ha : h.heapPtr = h.addr 0 := (BitVec.add_zero h.heapPtr).symm
  rw [(sets_used (h := Heap.setPrev (.setNext (.setMagic h _ m) _ v) _ p) _ u ha (by omega)).header,
    (sets_prev (h := Heap.setNext (.setMagic h _ m) _ v) _ p ha (by omega)).header,
    (sets_next (h := h.setMagic h.heapPtr m) _ v ha (by omega)).header,
    (sets_magic _ m ha (by omega)).header]

theorem shape_init {h h' : Heap} {n : Nat} (hn : 12 ≤ n) (hmod : n % 4 = 0)
    (hroom : h.heapPtr.toNat + (n + 12) < 2 ^ 32) (haligned : h.heapPtr.toNat % 4 = 0)
    (hsize : h.memSizeAligned.toNat + 12 = n) (hend : h.heapEnd = h.addr n)
    (hagrees : Agrees h h' n (n + 12))
    (hfirst : h.header 0 = ⟨heapMagic, 0#16, ofNat 32 n, 0#32⟩)
    (hlast : h'.header n = ⟨heapMagic, 1#16, ofNat 32 n, ofNat 32 n⟩) :
    Shape h' [⟨n, false⟩] := by
  have htotal : total size [⟨n, false⟩] = n := by simp only [total_singleton]
  refine ⟨?_, ?_, fun b hb => ?_, ?_, ?_, ⟨?_, trivial⟩, ?_⟩
  · rw [htotal, hagrees.heapPtr]
    exact hroom
  · rw [hagrees.heapPtr]
    exact haligned
  · rw [mem_singleton.mp hb]
    exact ⟨hn, hmod⟩
  · rw [htotal, hagrees.memSizeAligned]
    exact hsize
  · rw [htotal, hagrees.heapEnd, agrees_addr n hagrees]
    exact hend
  · have hheader := agrees_header 0 hagrees (by omega)
    unfold HeaderOk
    rw [hheader, hfirst, Nat.zero_add]
    rfl
  · exact ⟨congrArg Header.magic hlast, congrArg Header.used hlast, congrArg Header.next hlast⟩

theorem rtSystemHeapInit_spec {h : Heap}
    (heq : rtSystemHeapInit memory beginAddr endAddr = some h) :
    HeapInv h [⟨h.memSizeAligned.toNat + 12, false⟩] := by
  unfold rtSystemHeapInit at heq
  dsimp only at heq
  split_ifs at heq with hcond
  rw [some.injEq] at heq
  have hb := rtAlign_toNat beginAddr
  have he : (rtAlignDown endAddr).toNat = endAddr.toNat / 4 * 4 := mask_toNat endAddr (k := 2) rfl
  rw [lt_def, le_def] at hcond
  generalize rtAlign beginAddr = b at *
  generalize rtAlignDown endAddr = e at *
  have h24 : (2#32 * sizeofStructMem).toNat = 24 := rfl
  rw [toNat_sub, h24] at hcond
  have hn : (e - b - 2#32 * sizeofStructMem).toNat = e.toNat - b.toNat - 24 := by
    rw [toNat_sub, toNat_sub, h24]
    omega
  generalize e - b - 2#32 * sizeofStructMem = sz at *
  have hsize : sz + sizeofStructMem = ofNat 32 (sz.toNat + 12) := by
    rfl
  rw [hsize] at heq
  -- The header of the block, and then the header at the end.
  generalize hg : ((((Heap.mk memory b 0#32 0#32 sz 0#32 0#32).setMagic b heapMagic).setNext b
    (ofNat 32 (sz.toNat + 12))).setPrev b 0#32).setUsed b 0#16 = g at *
  have hfirst : g.header 0 = ⟨heapMagic, 0#16, ofNat 32 (sz.toNat + 12), 0#32⟩ := by
    rw [← hg]
    exact header_first
  have hgvars : g.heapPtr = b ∧ g.memSizeAligned = sz ∧ g.usedMem = 0#32 := by
    rw [← hg]
    exact ⟨rfl, rfl, rfl⟩
  rcases hgvars with ⟨hptr, hmem, hused⟩
  have hnext : g.next b = ofNat 32 (sz.toNat + 12) := by
    have haddr : b = g.addr 0 := by
      rw [← hptr]
      exact (BitVec.add_zero g.heapPtr).symm
    rw [haddr]
    exact congrArg Header.next hfirst
  rw [hnext] at heq
  -- From here on the end of the heap is known.
  generalize hf : ({ g with heapEnd := g.addr (sz.toNat + 12) } : Heap) = f
  have hfvars : f.heapPtr = b ∧ f.memSizeAligned = sz ∧ f.heapEnd = f.addr (sz.toNat + 12) ∧
      f.header 0 = g.header 0 ∧ f.usedMem = 0#32 := by
    rw [← hf]
    exact ⟨hptr, hmem, rfl, rfl, hused⟩
  rcases hfvars with ⟨hfptr, hfmem, hfend, hfheader, hfused⟩
  rw [hfirst] at hfheader
  have heq' : ({ f.setHeader f.heapEnd heapMagic 1#16 (ofNat 32 (sz.toNat + 12))
      (ofNat 32 (sz.toNat + 12)) with lfree := f.heapPtr } : Heap) = h := by
    rw [← hf]
    exact heq
  rcases sets_new hfend (by omega) with ⟨hagrees, hlast⟩
  have hshape := shape_init (by omega) (by omega) (by rw [hfptr]; omega)
    (by rw [hfptr]; omega) (by rw [hfmem]) hfend hagrees hfheader hlast
  have hkused := (setHeader_vars f.heapEnd heapMagic 1#16 (ofNat 32 (sz.toNat + 12))
    (ofNat 32 (sz.toNat + 12)) f).2.trans hfused
  generalize f.setHeader _ _ _ _ _ = k at *
  have hkmem : h.memSizeAligned = sz := by
    rw [← heq', ← hfmem]
    exact hagrees.memSizeAligned
  rw [hkmem]
  refine ⟨shape_congr hshape ?_ ?_ ?_ ?_, isChain_singleton _, ?_, 0, ?_, .inr ?_⟩
  · rw [← heq']
  · rw [← heq']
  · rw [← heq']
  · rw [← heq']
  · rw [← heq']
    exact congrArg BitVec.toNat hkused
  · rw [← heq']
    change f.heapPtr = k.heapPtr + 0#32
    rw [BitVec.add_zero, hagrees.heapPtr]
  · exact ⟨⟨sz.toNat + 12, false⟩, .inl ⟨rfl, rfl⟩, rfl⟩

theorem heapSysInit_inv {s : HeapSys} (hinit : heapSysInit memory beginAddr endAddr = some s) :
    SysInv s := by
  simp only [heapSysInit, bind_iff, pure_iff] at hinit
  rcases hinit with ⟨h, hh, rfl⟩
  exact ⟨_, rtSystemHeapInit_spec hh, fun p a hp => nomatch hp⟩

end Init

/-- The heap is right in every run within bounds: the headers describe blocks laid
    end to end, and what the owners have is theirs alone. -/
theorem heap_represents (memory : Memory) (beginAddr endAddr : BitVec 32) (s : HeapSys)
    (as : List HeapAction) (hinit : heapSysInit memory beginAddr endAddr = some s)
    (hC : Along heapStep HeapCond s as) : Always heapStep HeapOk s as :=
  always_of_inv SysInv (heapOk_of_inv _) heapStep_inv (heapSysInit_inv hinit) hC

/-- A run in which a block is resized in place, another one moved, and the hole that
    is left merged with its neighbour. -/
theorem heap_represents_resized :
    ∃ s, heapSysInit (fun _ => 0xcc#8) 0x20000001#32 0x20000403#32 = some s ∧
      Always heapStep HeapOk s [.malloc 100#32, .calloc 3#32 7#32, .write 0x20000010#32 4 0x5a#8,
        .realloc 0x20000010#32 40#32, .realloc 0x20000080#32 60#32, .free 0x20000010#32] ∧
      (exec heapStep s [.malloc 100#32, .calloc 3#32 7#32, .write 0x20000010#32 4 0x5a#8,
        .realloc 0x20000010#32 40#32, .realloc 0x20000080#32 60#32]).map
          (fun t => (t.heap.usedMem, t.heap.memory 0x20000014#32)) = some (124#32, 0x5a#8) :=
  exists_checked (fun s hs hC => heap_represents _ _ _ s _ hs hC) (by decide +kernel)

/-- A size that is rounded up to nothing: the block is twelve bytes large, and all
    of the heap is filled with zeros. -/
theorem calloc_wraps :
    ∃ s s', heapSysInit (fun _ => 0xcc#8) 0x20000001#32 0x20000403#32 = some s ∧
      exec heapStep s [.calloc 1#32 0xffffffff#32] = some s' ∧ ¬ HeapOk s' := by
  refine exists_of_runs (fun _ t =>
    t.heap.magic (t.heap.block (t.heap.offset t.heap.heapEnd)) = 0#16) (by decide +kernel) ?_
  intro s t _ _ hmagic hok
  rcases hok.chain with ⟨os, hchain, _⟩
  have hend := hchain.magic _ (mem_append_right os mem_cons_self)
  rw [hmagic] at hend
  exact absurd hend (by decide)

end Honeycomb.SmallMem
