import Honeycomb.Theory.SmallMem

/-!
# The Lowest Free Block

The allocator keeps a pointer to the lowest free block, where its searches start.
A release moves it down, an allocation up, and a merge to the front of the whole.
A resize that cuts off the end of a block makes a free block and does not look at
the pointer, which is then right only if it leads to a block further down, or to
the block behind, with which the part that is cut off is merged.

The invariant of the heap in every run says that the pointer leads to some free
block. Here it is shown to be the lowest one, as long as no resize leaves the
pointer behind. The blocks are determined by the headers, so this can be stated
about the blocks of a heap and shown for the ones a call is known to leave.

## Theorems

* `lfree_lowest`: The pointer is right in every run that meets the condition.
* `shrink_hides`: It is not in every run.
-/

namespace Honeycomb.SmallMem

open Layout Option Run
open Block (size)

variable (s : HeapSys)

/-- The pointer leads to the lowest free block among those that `next` leads to, or
    to the end if there is none. -/
def LfreeLowest : Prop :=
  ∃ os, Walk s.heap 0#32 os ∧
    ((∃ o ∈ os, s.heap.used (s.heap.block o) = 0#16 ∧ s.heap.lfree = s.heap.block o ∧
        ∀ o' ∈ os, s.heap.used (s.heap.block o') = 0#16 → s.heap.lfree ≤ s.heap.block o') ∨
      (∀ o ∈ os, s.heap.used (s.heap.block o) ≠ 0#16) ∧ s.heap.lfree = s.heap.heapEnd)

/-- No size wraps around, and when a resize cuts off the end of a block, the pointer
    leads to a block in front of it, or to a free block right behind it. -/
def LfreeCond (act : HeapAction) : Prop :=
  HeapCond s act ∧
    match act with
    | .realloc rmem newsize => rmem ≠ 0#32 → cutsOff s.heap rmem newsize = true →
        CutOk s.heap (rmem - sizeofStructMem)
    | _ => True

instance decidableCutOk (h : Heap) (mem : BitVec 32) : Decidable (CutOk h mem) :=
  inferInstanceAs (Decidable (_ ∨ _))

instance decidableLfreeCond : ∀ act, Decidable (LfreeCond s act)
  | .malloc _ => inferInstanceAs (Decidable (_ ∧ True))
  | .calloc _ _ => inferInstanceAs (Decidable (_ ∧ True))
  | .realloc _ _ => inferInstanceAs (Decidable (_ ∧ (_ → _ → _)))
  | .free _ => inferInstanceAs (Decidable (_ ∧ True))
  | .write _ _ _ => inferInstanceAs (Decidable (_ ∧ True))

/-- The pointer is right for the blocks of the heap. -/
def SysLow : Prop :=
  ∀ bs, HeapInv s.heap bs → LfreeLow s.heap bs

section Step

variable (s : HeapSys) {s' : HeapSys}

/-- It is enough to know the blocks. -/
theorem sysLow_of {bs : List Block} (hi : HeapInv s.heap bs) (hlow : LfreeLow s.heap bs) :
    SysLow s := by
  intro bs' hi'
  rw [shape_unique hi.shape hi'.shape]
  exact hlow

theorem heapStep_low {act : HeapAction} (hs : SysInv s) (hlow : SysLow s) (hc : LfreeCond s act)
    (heq : heapStep s act = some s') : SysLow s' := by
  rcases hs with ⟨bs, hi, hl⟩
  have hlow0 := hlow bs hi
  cases act with simp only [heapStep, bind_iff, pure_iff] at heq
  | malloc size =>
    rcases heq with ⟨⟨h', p⟩, hr, rfl⟩
    rcases rtMalloc_spec hi hr with ⟨_, rfl⟩ | ⟨bs', o, b, ha, hkeep⟩
    · exact hlow
    · exact sysLow_of _ ha.inv (hkeep hlow0)
  | calloc count size =>
    rcases heq with ⟨⟨h', p⟩, hr, rfl⟩
    rcases rtCalloc_spec p hc.1 hi hr with
      ⟨_, rfl⟩ | ⟨bs', o, b, ha, _, hkeep⟩
    · exact hlow
    · exact sysLow_of _ ha.inv (hkeep hlow0)
  | realloc rmem newsize =>
    simp only [bind_eq_bind, Option.pure_def] at heq
    by_cases hz : rmem = 0#32
    · simp only [if_pos hz, bind_eq_some_iff, some.injEq] at heq
      rcases heq with ⟨⟨h', p⟩, hr, rfl⟩
      rw [hz] at hr
      rcases rtRealloc_null p hr with ⟨_, rfl⟩ | hr
      · exact hlow
      · rcases rtMalloc_spec hi hr with ⟨_, rfl⟩ | ⟨bs', o, b, ha, hkeep⟩
        · exact hlow
        · exact sysLow_of _ ha.inv (hkeep hlow0)
    simp only [if_neg hz, bind_eq_some_iff] at heq
    rcases heq with ⟨a, hlive, ⟨h', p⟩, hr, heq⟩
    -- Whoever owns the pointer afterwards, the heap is the one the call leaves.
    have hheap : s'.heap = h' := by
      split_ifs at heq
      · cases heq
        rfl
      · cases heq
        rfl
      · cases heq
        rfl
    rcases hl rmem a hlive with ⟨o, b, hb, hbu, hpos, rfl, _, _⟩
    have hcut : cutsOff s.heap (s.heap.addr (o + 12)) newsize = true →
        CutOk s.heap (s.heap.addr o) := by
      intro hcuts
      have hok := hc.2 hz hcuts
      rw [← addr_add s.heap o 12] at hok
      change CutOk s.heap (s.heap.addr o + 12#32 - 12#32) at hok
      rw [BitVec.add_sub_cancel] at hok
      exact hok
    have hleft : ∃ bs', HeapInv h' bs' ∧ LfreeLow h' bs' := by
      rcases rtRealloc_spec hi hb hbu hpos hr with
        ⟨_, rfl, _⟩ | ⟨_, _, bs', hi', _, hkeep⟩ | ⟨bs', o', b', hres, hkeep⟩
      · exact ⟨bs, hi, hlow0⟩
      · exact ⟨bs', hi', hkeep hlow0⟩
      · exact ⟨bs', hres.inv, hkeep hcut hlow0⟩
    rcases hleft with ⟨bs', hi', hlow'⟩
    rw [← hheap] at hi' hlow'
    exact sysLow_of s' hi' hlow'
  | free rmem =>
    simp only [bind_eq_bind, Option.pure_def] at heq
    split_ifs at heq with hz
    · simp only [rtFree, if_pos hz, bind_some] at heq
      cases heq
      exact hlow
    simp only [bind_eq_some_iff, some.injEq] at heq
    rcases heq with ⟨a, hlive, h', hr, rfl⟩
    rcases hl rmem a hlive with ⟨o, b, hb, hbu, hpos, rfl, _, _⟩
    rcases hb.split with ⟨ls, rs, rfl, rfl⟩
    rcases rtFree_spec ls rs b hi hbu hpos with ⟨h1, bs', hfree, hi', _, hkeep⟩
    rw [hr] at hfree
    cases hfree
    exact sysLow_of _ hi' (hkeep hlow0)
  | write rmem i v =>
    simp only [assert_iff] at heq
    rcases heq with ⟨a, hlive, hia, rfl⟩
    rcases hl rmem a hlive with ⟨o, b, hb, _, _, rfl, hsize, _⟩
    rcases heapInv_write _ o i v hi hb (by omega) rfl with ⟨hi', hkeeps, hlf, _⟩
    exact sysLow_of _ hi' (lfreeLow_congr s.heap bs hkeeps.heapPtr hlf hlow0)

end Step

theorem lfreeLowest_of_inv (hs : SysInv s ∧ SysLow s) : LfreeLowest s := by
  rcases hs with ⟨⟨bs, hi, _⟩, hlow⟩
  have hroom := hi.shape.room
  rcases hlow bs hi with ⟨l, hl, hle, hfree⟩
  refine ⟨_, (chainOk_of_inv s.heap hi).walk, ?_⟩
  -- An offset of the walk is that of a block, with its flag in the header.
  have hblock : ∀ x ∈ (offsets size 0 bs).map (BitVec.ofNat 32),
      ∃ o b, x = BitVec.ofNat 32 o ∧ Located size bs o b ∧
        (s.heap.used (s.heap.block x) = 0#16 → b.used = false) := by
    intro x hx
    rcases List.mem_map.mp hx with ⟨o, ho, rfl⟩
    rcases mem_offsets_zero.mp ho with ⟨b, hb⟩
    exact ⟨o, b, rfl, hb, (used_located hi.shape hb).mp⟩
  rcases hi.lfree with ⟨l', hl', hloc⟩
  rcases hloc with rfl | ⟨b, hb, hbu⟩
  · -- At the end: a free block would be further down.
    have hll : l = total size bs := addr_inj _ (hl.symm.trans hl') (by omega)
    refine .inr ⟨fun x hx hused => ?_, hl'.trans hi.shape.heapEnd.symm⟩
    rcases hblock x hx with ⟨o, b, _, hb, hbu⟩
    have hlo := hfree o b hb (hbu hused)
    have hbound := hb.bound
    have hsize := hi.shape.sizes b hb.mem
    omega
  have hbound := hb.bound
  have hll : l = l' := addr_inj _ (hl.symm.trans hl') (by omega)
  subst hll
  refine .inl ⟨BitVec.ofNat 32 l, List.mem_map_of_mem (mem_offsets_zero.mpr ⟨b, hb⟩),
    (used_located hi.shape hb).mpr hbu, hl, fun x hx hused => ?_⟩
  · rcases hblock x hx with ⟨o, c, rfl, hc, hcu⟩
    have hlo := hfree o c hc (hcu hused)
    have hboundc := hc.bound
    rw [hl, BitVec.le_def, addr_toNat s.heap l (by omega)]
    change _ ≤ (s.heap.addr o).toNat
    rw [addr_toNat s.heap o (by omega)]
    omega

theorem heapSysInit_low {memory : Memory} {beginAddr endAddr : BitVec 32} {s : HeapSys}
    (hinit : heapSysInit memory beginAddr endAddr = some s) : SysLow s := by
  simp only [heapSysInit, bind_iff, pure_iff] at hinit
  rcases hinit with ⟨h, hh, rfl⟩
  have hlfree : h.lfree = h.heapPtr := by
    unfold rtSystemHeapInit at hh
    dsimp only at hh
    split_ifs at hh
    cases hh
    rfl
  refine sysLow_of _ (rtSystemHeapInit_spec hh)
    ⟨0, hlfree.trans (BitVec.add_zero h.heapPtr).symm, Nat.zero_le _, fun o b _ _ => Nat.zero_le o⟩

/-- The pointer leads to the lowest free block in every run in which no size wraps
    around and no resize leaves the pointer behind. -/
theorem lfree_lowest (memory : Memory) (beginAddr endAddr : BitVec 32) (s : HeapSys)
    (as : List HeapAction) (hinit : heapSysInit memory beginAddr endAddr = some s)
    (hC : Along heapStep LfreeCond s as) : Always heapStep LfreeLowest s as :=
  always_of_inv (fun s => SysInv s ∧ SysLow s) (lfreeLowest_of_inv _)
    (fun hs hc heq => ⟨heapStep_inv hs.1 hc.1 heq, heapStep_low _ hs.1 hs.2 hc heq⟩)
    ⟨heapSysInit_inv hinit, heapSysInit_low hinit⟩ hC

/-- A run in which the end of a block is cut off and merged with the block behind it,
    the lowest free one. -/
theorem lfree_lowest_merged :
    ∃ s, heapSysInit (fun _ => 0xcc#8) 0x20000001#32 0x20000403#32 = some s ∧
      Always heapStep LfreeLowest s [.malloc 100#32, .realloc 0x20000010#32 40#32,
        .malloc 12#32, .free 0x20000010#32] ∧
      (exec heapStep s [.malloc 100#32, .realloc 0x20000010#32 40#32]).map
        (fun t => t.heap.lfree) = some 0x20000038#32 :=
  exists_checked (fun s hs hC => lfree_lowest _ _ _ s _ hs hC) (by decide +kernel)

/-- The end of a block is cut off in front of a used block. The free block is below
    the one the pointer leads to. -/
theorem shrink_hides :
    ∃ s s', heapSysInit (fun _ => 0xcc#8) 0x20000001#32 0x20000403#32 = some s ∧
      exec heapStep s [.malloc 100#32, .malloc 12#32, .realloc 0x20000010#32 40#32] = some s' ∧
      ¬ LfreeLowest s' := by
  refine exists_of_runs (fun _ t => t.heap.block 0#32 ≠ t.heap.heapEnd ∧
    t.heap.next (t.heap.block 0#32) = 52#32 ∧ t.heap.block 52#32 ≠ t.heap.heapEnd ∧
    t.heap.used (t.heap.block 52#32) = 0#16 ∧ ¬ t.heap.lfree ≤ t.heap.block 52#32)
    (by decide +kernel) ?_
  rintro s t - - ⟨hfirst, hnext, hsecond, hused, hlow⟩ ⟨os, hwalk, hcase⟩
  -- The walk passes by the free block.
  have hmem : 52#32 ∈ os := by
    cases os with
    | nil => exact absurd hwalk hfirst
    | cons o os =>
      have hrest := hwalk.2.2
      rw [hnext] at hrest
      cases os with
      | nil => exact absurd hrest hsecond
      | cons o' os =>
        rw [hrest.1]
        exact List.mem_cons_of_mem o List.mem_cons_self
  rcases hcase with ⟨o, _, _, _, hlowest⟩ | ⟨hnone, _⟩
  · exact hlow (hlowest _ hmem hused)
  · exact hnone _ hmem hused

end Honeycomb.SmallMem
