import Honeycomb.Core.MemPool
import Honeycomb.Lib.Chain
import Honeycomb.Lib.Run
import Honeycomb.Theory.HeapShape

/-!
# The Blocks of a Memory Pool

The word in front of a block is the link of a free block and leads to the pool from one
that is taken. So the free blocks are the list that is in memory, and the others are those
whose pointers were returned. Blocks that are apart do not see each other's words, and
what a user writes lies behind the word.

`rt_mp_init` makes as many blocks as there is room for. `rt_mp_create` asks for the memory
of as many as it is told, and does not see when this number of bytes wraps around: then
some blocks lie on others, and the list ends early.

## Theorems

* `blocks_conserved`: The free blocks and the taken ones are all blocks, in every run.
* `create_wraps`: A pool whose list ends early.
-/

namespace Honeycomb.PoolMem

open BitVec (eq_of_toNat_eq ofNat_add toNat_add toNat_mul toNat_ofNat toNat_sub)
open BitVec (ofNat)
open Function List Memory Nat Run

def pointer (p : BitVec 32) : Option (BitVec 32) :=
  if p = 0#32 then none else some p

def next (m : Memory) (a : BitVec 32) : Option (BitVec 32) :=
  pointer (m.load32 a)

variable {g : PoolPlace} {mp mp' : PoolMem} {free : List (BitVec 32)} {ctrl a b p : BitVec 32}
  {j k i n : Nat}

section Places

variable (g)

def blocks : List (BitVec 32) :=
  (List.range g.blockTotalCount.toNat).map g.addr

def stride : Nat :=
  g.blockSize.toNat + 4

/-- There is room for the blocks, and the pool does not wrap around. -/
structure Fits : Prop where
  null : g.startAddress ≠ 0#32
  word : stride g < 2 ^ 32
  room : g.blockTotalCount.toNat * stride g ≤ g.size.toNat
  memory : g.startAddress.toNat + g.size.toNat ≤ 2 ^ 32

/-- The pointer is behind the word of a block, and the bytes behind it are in the pool and
    in no other block. -/
def Own (p : BitVec 32) : Prop :=
  ∃ k < g.blockTotalCount.toNat, p = g.addr k + 4#32 ∧ ∀ i < g.blockSize.toNat,
    (p + ofNat 32 i - g.startAddress).toNat < g.size.toNat ∧
    ∀ j < g.blockTotalCount.toNat, j ≠ k → stride g ≤ (p + ofNat 32 i - g.addr j).toNat

variable {g} (h : Fits g)

include h

theorem addr_toNat (hk : k < g.blockTotalCount.toNat) (hi : i < stride g) :
    (g.addr k + ofNat 32 i).toNat = g.startAddress.toNat + k * stride g + i ∧
      k * stride g + stride g ≤ g.size.toNat := by
  have hmul := le_trans (Nat.mul_le_mul_right (stride g) hk) h.room
  rw [succ_mul] at hmul
  have hword := h.word
  have hmem := h.memory
  refine ⟨?_, hmul⟩
  have hstride : (g.blockSize + 4#32).toNat = stride g := BitVec.toNat_add_of_lt (y := 4#32) hword
  simp only [PoolPlace.addr, toNat_add, toNat_mul, toNat_ofNat, hstride]
  rw [mod_eq_of_lt (Nat.lt_trans hk g.blockTotalCount.isLt)]
  generalize k * stride g = o at *
  omega

/-- Another block is a whole block away, before and behind. -/
theorem block_far (hj : j < g.blockTotalCount.toNat) (hk : k < g.blockTotalCount.toNat)
    (hne : j ≠ k) (hi : i < stride g) :
    stride g ≤ (g.addr k + ofNat 32 i - g.addr j).toNat := by
  rcases addr_toNat h hk hi with ⟨hkn, hkr⟩
  rcases addr_toNat h hj (succ_pos _) with ⟨hjn, hjr⟩
  have horder : (j + 1) * stride g ≤ k * stride g ∨ (k + 1) * stride g ≤ j * stride g :=
    (Nat.lt_or_gt_of_ne hne).imp (Nat.mul_le_mul_right _) (Nat.mul_le_mul_right _)
  rw [BitVec.add_zero] at hjn
  rw [succ_mul, succ_mul] at horder
  rw [toNat_sub, hkn, hjn]
  omega

theorem addr_inj (hj : j < g.blockTotalCount.toNat) (hk : k < g.blockTotalCount.toNat)
    (heq : g.addr j = g.addr k) : j = k := by
  by_contra hne
  have hfar := block_far h hj hk hne (succ_pos _)
  rw [BitVec.add_zero, heq, BitVec.sub_self] at hfar
  exact nomatch hfar

theorem pointer_addr (hk : k < g.blockTotalCount.toNat) : pointer (g.addr k) = some (g.addr k) := by
  refine if_neg fun hc => h.null (eq_of_toNat_eq ?_)
  have hn := (addr_toNat h hk (succ_pos _)).1
  rw [BitVec.add_zero, hc] at hn
  exact (Nat.add_eq_zero_iff.mp (Nat.add_eq_zero_iff.mp hn.symm).1).1

theorem blocks_nodup : (blocks g).Nodup :=
  nodup_range.map_on fun _ hj _ hk => addr_inj h (mem_range.mp hj) (mem_range.mp hk)

theorem load_store {m : Memory} {v : BitVec 32} (ha : a ∈ blocks g) (hb : b ∈ blocks g) :
    (m.store32 a v).load32 b = update m.load32 a v b := by
  by_cases hab : b = a
  · rw [hab, update_self]
    exact load32_store32 m a
  rw [update_of_ne hab]
  rcases mem_map.mp ha with ⟨j, hj, rfl⟩
  rcases mem_map.mp hb with ⟨k, hk, rfl⟩
  rw [mem_range] at hj hk
  have hjk := block_far h hj hk (fun hc => hab (hc ▸ rfl)) (succ_pos _)
  have hkj := block_far h hk hj (fun hc => hab (hc ▸ rfl)) (succ_pos _)
  rw [BitVec.add_zero] at hjk hkj
  exact load32_store32_far m _ (le_trans (Nat.le_add_left 4 _) hjk)
    (le_trans (Nat.le_add_left 4 _) hkj)

end Places

/-- The free blocks are linked and counted, with those that are taken they are all blocks,
    and from these the word leads to the pool. -/
structure PoolInv (ctrl : BitVec 32) (mp : PoolMem) (free : List (BitVec 32)) : Prop where
  chain : Chain (next mp.memory) (pointer mp.blockList) free
  count : mp.blockFreeCount.toNat = free.length
  parts : (free ++ mp.live.map (· - 4#32)).Perm (blocks mp.toPoolPlace)
  owner : ∀ p ∈ mp.live, mp.memory.load32 (p - 4#32) = ctrl

/-- The list of free blocks has as many as are counted. No block is twice on it or taken,
    all blocks are on it or taken, and those that are taken can be used and given back. -/
def Conserved (ctrl : BitVec 32) (mp : PoolMem) : Prop :=
  ∃ free, PoolInv ctrl mp free ∧ (free ++ mp.live.map (· - 4#32)).Nodup ∧
    ∀ p ∈ mp.live, Own mp.toPoolPlace p

theorem conserved_of_inv (hf : Fits mp.toPoolPlace) (h : PoolInv ctrl mp free) :
    Conserved ctrl mp := by
  refine ⟨free, h, h.parts.nodup_iff.mpr (blocks_nodup hf), fun p hp => ?_⟩
  rcases mem_map.mp (h.parts.subset (mem_append_right free (mem_map_of_mem hp))) with ⟨k, hk, heq⟩
  rw [mem_range] at hk
  have hp' : p = mp.addr k + 4#32 := by rw [heq, BitVec.sub_add_cancel]
  refine ⟨k, hk, hp', fun i hi => ?_⟩
  have hin : 4 + i < stride mp.toPoolPlace := Nat.add_comm 4 i ▸ Nat.add_lt_add_right hi 4
  rw [show p + ofNat 32 i = mp.addr k + ofNat 32 (4 + i) by
    rw [hp', BitVec.add_assoc, ofNat_add]]
  refine ⟨?_, fun j hj hne => block_far hf hj hk hne hin⟩
  rcases addr_toNat hf hk hin with ⟨hn, hr⟩
  rw [toNat_sub, hn]
  omega

section Steps

variable (hf : Fits mp.toPoolPlace)

include hf

theorem inv_alloc (h : PoolInv ctrl mp free) (hs : mp.rtMpAlloc ctrl = some mp') :
    Fits mp'.toPoolPlace ∧ ∃ free', PoolInv ctrl mp' free' := by
  unfold rtMpAlloc at hs
  split_ifs at hs with hzero
  · cases hs
    exact ⟨hf, free, h⟩
  simp only [bind_iff, rtAssert_eq_some, pure_iff] at hs
  rcases hs with ⟨_, hlist, rfl⟩
  have hchain := h.chain
  rw [pointer, if_neg hlist] at hchain
  rcases chain_tail _ hchain with ⟨rest, rfl, hrest⟩
  have hnd := h.parts.nodup_iff.mpr (blocks_nodup hf)
  rw [cons_append, nodup_cons] at hnd
  have hload : ∀ b ∈ rest ++ mp.live.map (· - 4#32),
      (mp.memory.store32 mp.blockList ctrl).load32 b = mp.memory.load32 b := by
    intro b hb
    rw [load_store hf (h.parts.subset mem_cons_self)
      (h.parts.subset (mem_cons_of_mem _ hb)), update_of_ne]
    exact fun hc => hnd.1 (hc ▸ hb)
  refine ⟨hf, rest, chain_congr (fun c hc => ?_) hrest, ?_, ?_, ?_⟩
  · exact congrArg pointer (hload c (mem_append_left _ hc))
  · have hcount := h.count
    rw [length_cons] at hcount
    dsimp only
    bv_omega
  · rw [map_cons, BitVec.add_sub_cancel]
    exact perm_middle.trans h.parts
  · rintro p (_ | ⟨_, hp⟩)
    · rw [BitVec.add_sub_cancel]
      exact load32_store32 _ _
    · exact (hload _ (mem_append_right _ (mem_map_of_mem hp))).trans (h.owner p hp)

theorem inv_free (h : PoolInv ctrl mp free) (hp : p ∈ mp.live)
    (hs : mp.rtMpFree ctrl p = some mp') :
    Fits mp'.toPoolPlace ∧ ∃ free', PoolInv ctrl mp' free' := by
  simp only [rtMpFree, bind_iff, rtAssert_eq_some, pure_iff] at hs
  rcases hs with ⟨_, _, rfl⟩
  have hparts : ((p - 4#32) :: (free ++ (mp.live.erase p).map (· - 4#32))).Perm
      (blocks mp.toPoolPlace) := by
    refine (perm_middle.symm.trans (Perm.append_left free ?_)).trans h.parts
    exact ((perm_cons_erase hp).map (· - 4#32)).symm
  have hin := hparts.subset mem_cons_self
  have hnd := nodup_cons.mp (hparts.nodup_iff.mpr (blocks_nodup hf))
  have hload : ∀ b ∈ free ++ (mp.live.erase p).map (· - 4#32),
      (mp.memory.store32 (p - 4#32) mp.blockList).load32 b = mp.memory.load32 b := by
    intro b hb
    rw [load_store hf hin (hparts.subset (mem_cons_of_mem _ hb)), update_of_ne]
    exact fun hc => hnd.1 (hc ▸ hb)
  refine ⟨hf, (p - 4#32) :: free, ⟨?_, ?_⟩, ?_, hparts, fun q hq => ?_⟩
  · rcases mem_map.mp hin with ⟨k, hk, heq⟩
    rw [← heq]
    exact pointer_addr hf (mem_range.mp hk)
  · rw [next, load32_store32]
    exact chain_congr (fun c hc => congrArg pointer (hload c (mem_append_left _ hc))) h.chain
  · have hlen := hparts.length_eq
    simp only [blocks, length_append, length_cons, length_map, length_range] at hlen
    rw [length_cons, ← h.count, toNat_add]
    have hcount := h.count
    exact mod_eq_of_lt (by dsimp only [BitVec.reduceToNat]; omega)
  · exact (hload _ (mem_append_right _ (mem_map_of_mem hq))).trans (h.owner q (mem_of_mem_erase hq))

theorem inv_write {o : BitVec 32} {v : BitVec 8} (h : PoolInv ctrl mp free) (hp : p ∈ mp.live)
    (ho : o < mp.blockSize) :
    PoolInv ctrl { mp with memory := mp.memory.store8 (p + o) v } free := by
  rcases conserved_of_inv hf h with ⟨_, _, _, hown⟩
  rcases hown p hp with ⟨k, _, hp', hbytes⟩
  have hload : ∀ b ∈ blocks mp.toPoolPlace,
      (mp.memory.store8 (p + o) v).load32 b = mp.memory.load32 b := by
    intro b hb
    rcases mem_map.mp hb with ⟨j, hj, rfl⟩
    have hfar : 4 ≤ (p + o - mp.addr j).toNat := by
      by_cases hjk : j = k
      · have hword := hf.word
        rw [hp', hjk]
        unfold stride at hword
        bv_omega
      · have hapart := (hbytes o.toNat ho).2 j (mem_range.mp hj) hjk
        rw [BitVec.ofNat_toNat, BitVec.setWidth_eq] at hapart
        exact le_trans (Nat.le_add_left 4 _) hapart
    have hne : ∀ i : BitVec 32, i < 4#32 → mp.addr j + i ≠ p + o := by
      rintro i hi hc
      rw [← hc] at hfar
      bv_omega
    have hne0 := hne 0#32 (by decide)
    rw [BitVec.add_zero] at hne0
    simp only [load32, store8, if_neg (hne 3#32 (by decide)), if_neg (hne 2#32 (by decide)),
      if_neg (hne 1#32 (by decide)), if_neg hne0]
  refine ⟨chain_congr (fun c hc => ?_) h.chain, h.count, h.parts, fun q hq => ?_⟩
  · exact congrArg pointer (hload c (h.parts.subset (mem_append_left _ hc)))
  · rw [hload _ (h.parts.subset (mem_append_right _ (mem_map_of_mem hq)))]
    exact h.owner q hq

omit hf in
theorem poolStep_inv {act : PoolAction} (h : Fits mp.toPoolPlace ∧ ∃ free, PoolInv ctrl mp free)
    (hs : poolStep ctrl mp act = some mp') :
    Fits mp'.toPoolPlace ∧ ∃ free, PoolInv ctrl mp' free := by
  rcases h with ⟨hf, free, h⟩
  cases act with simp only [poolStep, bind_iff, rtAssert_eq_some, pure_iff] at hs
  | alloc => exact inv_alloc hf h hs
  | free p =>
    exact hs.elim fun _ hs => inv_free hf h hs.1 hs.2
  | write p o v =>
    rcases hs with ⟨_, ⟨hp, ho⟩, rfl⟩
    exact ⟨hf, free, inv_write hf h hp ho⟩

end Steps

theorem link_load (h : Fits g) {memory : Memory} (hn : n ≤ g.blockTotalCount.toNat) (hk : k < n) :
    ((List.range n).foldl (fun m offset => m.store32 (g.addr offset) (g.addr (offset + 1)))
      memory).load32 (g.addr k) = g.addr (k + 1) := by
  induction n with
  | zero => exact nomatch hk
  | succ n ih =>
    rw [range_succ, foldl_append, foldl_cons, foldl_nil,
      load_store h (mem_map_of_mem (mem_range.mpr hn))
        (mem_map_of_mem (mem_range.mpr (lt_of_lt_of_le hk hn)))]
    by_cases hkn : k = n
    · rw [hkn, update_self]
    · rw [update_of_ne fun hc => hkn (addr_inj h (lt_of_lt_of_le hk hn) hn hc)]
      exact ih (by omega) (by omega)

/-- In a new pool all blocks are free, in the order in which they lie. -/
theorem inv_link (h : Fits g) (hpos : 0#32 < g.blockTotalCount) {memory : Memory} :
    PoolInv ctrl (link g memory) (blocks g) := by
  have hpos' : 0 < g.blockTotalCount.toNat := hpos
  have hlast : (g.blockTotalCount - 1#32).toNat = g.blockTotalCount.toNat - 1 := by bv_omega
  have hfirst : pointer g.startAddress = some (g.addr 0) := by
    rw [pointer, if_neg h.null, PoolPlace.addr, BitVec.zero_mul, BitVec.add_zero]
  refine ⟨?_, ?_, ?_, nofun⟩
  · rw [link, hfirst]
    refine chain_map (fun k hk => ?_) (chain_range hpos' fun _ => rfl)
    have hk' := mem_range.mp hk
    rw [hlast, next, load_store h (mem_map_of_mem (mem_range.mpr (by omega))) (mem_map_of_mem hk)]
    split_ifs with hnext
    · rw [update_of_ne fun hc => absurd (addr_inj h hk' (by omega) hc) (by omega),
        link_load h le_rfl hk']
      exact pointer_addr h hnext
    · rw [show k = g.blockTotalCount.toNat - 1 by omega, update_self]
      rfl
  · rw [blocks, length_map, length_range]
    rfl
  · exact (append_nil (blocks g)).symm ▸ Perm.refl _

/-- The free blocks and the taken ones are all blocks of the pool, in every run in which
    blocks are allocated, used and released. For a pool that `rt_mp_create` makes, the
    bytes of all blocks have to be a 32-bit number. -/
theorem blocks_conserved {memory : Memory} {start blockSize : BitVec 32}
    (h : (∃ size, mp = rtMpInit memory start size blockSize) ∨
      ∃ blockCount, mp = rtMpCreate memory start blockCount blockSize ∧
        ((rtAlign blockSize).toNat + 4) * blockCount.toNat < 2 ^ 32)
    (hpos : 0#32 < mp.blockTotalCount) (hnull : start ≠ 0#32)
    (hmem : start.toNat + mp.size.toNat ≤ 2 ^ 32) (hrun : Reachable (poolStep ctrl) mp mp') :
    Conserved ctrl mp' := by
  have hinv : Fits mp.toPoolPlace ∧ ∃ free, PoolInv ctrl mp free := by
    have hadd : (rtAlign blockSize).toNat + 4 < 2 ^ 32 →
        (rtAlign blockSize + 4#32).toNat = (rtAlign blockSize).toNat + 4 :=
      fun hlt => BitVec.toNat_add_of_lt (y := 4#32) hlt
    rcases h with ⟨size, rfl⟩ | ⟨blockCount, rfl, hwrap⟩
    · have hword : (rtAlign blockSize).toNat + 4 < 2 ^ 32 := by
        -- Otherwise the distance of two blocks is zero, and there is no block.
        by_contra hc
        have halign := SmallMem.rtAlign_toNat blockSize
        have hzero : rtAlign blockSize + 4#32 = 0#32 := by bv_omega
        simp only [rtMpInit, link, hzero, BitVec.udiv_zero] at hpos
        exact nomatch hpos
      have hf : Fits ⟨start, _, _, _⟩ := ⟨hnull, hword, ?_, hmem⟩
      · exact ⟨hf, _, inv_link hf hpos⟩
      · dsimp only
        rw [BitVec.toNat_udiv, hadd hword]
        exact div_mul_le_self _ _
    · have hword : (rtAlign blockSize).toNat + 4 < 2 ^ 32 :=
        lt_of_le_of_lt (Nat.le_mul_of_pos_right _ hpos) hwrap
      have hf : Fits ⟨start, _, _, _⟩ := ⟨hnull, hword, ?_, hmem⟩
      · exact ⟨hf, _, inv_link hf hpos⟩
      · dsimp only
        rw [toNat_mul, hadd hword, mod_eq_of_lt hwrap, Nat.mul_comm]
        exact le_rfl
  rcases reachable_inv _ poolStep_inv hinv hrun with ⟨hf, free, h'⟩
  exact conserved_of_inv hf h'

/-- Two blocks are taken and used, one is released, and a third allocation gets it. -/
theorem blocks_conserved_reuse :
    ∃ mp, exec (poolStep 0x100#32) (rtMpInit (fun _ => 0#8) 0x200#32 26#32 5#32)
        [.alloc, .alloc, .write 0x204#32 7#32 1#8, .free 0x204#32, .alloc] = some mp ∧
      Conserved 0x100#32 mp ∧ mp.live = [0x204#32, 0x210#32] ∧ mp.blockFreeCount = 0#32 := by
  refine exists_checked (C := fun _ => True) (fun mp hs _ => ?_) (by decide +kernel)
  exact blocks_conserved (.inl ⟨_, rfl⟩) (by decide) (by decide) (by decide) ⟨_, hs⟩

/-- 257 blocks of 2 ^ 24 bytes are 2 ^ 24 bytes when their sum wraps around. The last block lies on
    the first, so the list has one block though 257 are counted, and the second allocation fails. -/
theorem create_wraps :
    ∃ mp, rtMpCreate (fun _ => 0#8) 0x60000000#32 257#32 0xfffffc#32 = mp ∧
      mp.size = 0x1000000#32 ∧ mp.blockFreeCount = 257#32 ∧
      pointer mp.blockList = some 0x60000000#32 ∧ next mp.memory mp.blockList = none ∧
      (exec (poolStep 0x100#32) mp [.alloc, .alloc]).isNone = true :=
  ⟨_, rfl, by decide +kernel⟩

end Honeycomb.PoolMem
