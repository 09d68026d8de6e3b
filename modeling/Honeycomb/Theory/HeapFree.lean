import Honeycomb.Theory.HeapShape

/-!
# Merging and Releasing Blocks

What `plugHoles` and `rtFree` do to the blocks of the heap.

A free block is merged with the one behind it and with the one before it, if they
are free. Both are the same operation on two neighbours, `mergeBlocks`. Afterwards
no two free blocks are next to each other, if none were before.

`Keeps` is what a call owes to those who own other blocks: their blocks are where
they were, with the same bytes. The calls compose, so it is stated for lists of
blocks before and after, and with exceptions.

## Main definitions

* `HeapInv`: The blocks of the heap, the count of used memory and the pointer to
  the lowest free block belong together.

## Theorems

* `keeps_replace`: Blocks that are not replaced are kept.
* `plugHoles_spec`: A free block is merged with its neighbours.
* `rtFree_spec`: A used block becomes free.
-/

namespace Honeycomb.SmallMem

open Heap Layout List Memory Option
open BitVec (le_def lt_def ofNat)
open Block (size)

def usedTotal (bs : List Block) : Nat :=
  total size (bs.filter Block.used)

/-- The pointer to the lowest free block leads to a free block, or to the end. -/
def LfreeOk (h : Heap) (bs : List Block) : Prop :=
  ∃ o, h.lfree = h.addr o ∧ (o = total size bs ∨ ∃ b, Located size bs o b ∧ b.used = false)

/-- No free block is in front of the one the pointer to the lowest free block leads to. -/
def LfreeLow (h : Heap) (bs : List Block) : Prop :=
  ∃ l, h.lfree = h.addr l ∧ l ≤ total size bs ∧ ∀ o b, Located size bs o b → b.used = false → l ≤ o

/-- The block `b` behind `ls` is free, and is not taken account of by the pointer to
    the lowest free block. It will be when it is merged with the block behind it. -/
def LfreeBut (h : Heap) (ls : List Block) (b : Block) (rs : List Block) : Prop :=
  ∃ l, h.lfree = h.addr l ∧ l ≤ total size (ls ++ b :: rs) ∧
    (∀ o c, Located size (ls ++ b :: rs) o c → c.used = false → o = total size ls ∨ l ≤ o) ∧
    (l ≤ total size ls ∨ l = total size ls + b.size ∧ ∃ c ∈ rs.head?, c.used = false)

/-- One of two neighbours is used. -/
def Apart (b c : Block) : Prop :=
  b.used = true ∨ c.used = true

/-- The blocks of the heap, the count of used memory and the pointer to the lowest
    free block belong together. -/
structure HeapInv (h : Heap) (bs : List Block) : Prop where
  shape : Shape h bs
  apart : bs.IsChain Apart
  usedMem : h.usedMem.toNat = usedTotal bs
  lfree : LfreeOk h bs

/-- Used blocks are where they were, with their bytes, except for some. -/
structure Keeps (h h' : Heap) (bs bs' : List Block) (Except : Nat → Prop) : Prop where
  heapPtr : h'.heapPtr = h.heapPtr
  total : total size bs' = total size bs
  blocks : ∀ o c, Located size bs o c → c.used = true → ¬ Except o →
    Located size bs' o c ∧ ∀ x, o + 12 ≤ x → x < o + c.size → h'.byte x = h.byte x

section Lists

variable (ls rs : List Block) (b : Block)

@[simp]
theorem usedTotal_append : usedTotal (ls ++ rs) = usedTotal ls + usedTotal rs := by
  unfold usedTotal
  rw [filter_append, total_append]

@[simp]
theorem usedTotal_cons : usedTotal (b :: rs) = (if b.used then b.size else 0) + usedTotal rs := by
  unfold usedTotal
  rw [filter_cons]
  cases b.used with
  | false => rw [if_neg Bool.false_ne_true, if_neg Bool.false_ne_true, Nat.zero_add]
  | true => rw [if_pos rfl, if_pos rfl, total_cons]

theorem usedTotal_le (bs : List Block) : usedTotal bs ≤ total size bs := by
  induction bs with
  | nil => exact le_rfl
  | cons c cs ih =>
    rw [usedTotal_cons, total_cons]
    cases c.used with
    | false =>
      rw [if_neg Bool.false_ne_true]
      omega
    | true =>
      rw [if_pos rfl]
      omega

variable {ls rs b} in
/-- A free block fits between blocks that are used. -/
theorem apart_free (hls : ls.IsChain Apart) (hrs : rs.IsChain Apart)
    (hlast : ∀ c ∈ ls.getLast?, c.used = true) (hhead : ∀ c ∈ rs.head?, c.used = true) :
    (ls ++ b :: rs).IsChain Apart := by
  rw [isChain_append]
  refine ⟨hls, ?_, fun c hc d _ => .inl (hlast c hc)⟩
  cases rs with
  | nil => exact isChain_singleton b
  | cons c cs => exact isChain_cons_cons.mpr ⟨.inr (hhead c rfl), hrs⟩

variable {ls rs b} in
theorem apart_used (hls : ls.IsChain Apart) (hrs : rs.IsChain Apart) (hb : b.used = true) :
    (ls ++ b :: rs).IsChain Apart := by
  rw [isChain_append]
  refine ⟨hls, ?_, fun c _ d hd => .inr ?_⟩
  · cases rs with
    | nil => exact isChain_singleton b
    | cons c cs => exact isChain_cons_cons.mpr ⟨.inl hb, hrs⟩
  · rw [head?_cons, mem_some_iff] at hd
    rw [← hd]
    exact hb

theorem apart_neighbours (h : (ls ++ b :: rs).IsChain Apart) :
    ls.IsChain Apart ∧ rs.IsChain Apart ∧ (b.used = false →
      (∀ c ∈ ls.getLast?, c.used = true) ∧ ∀ c ∈ rs.head?, c.used = true) := by
  rw [isChain_append] at h
  rcases h with ⟨hls, hbrs, hbetween⟩
  refine ⟨hls, hbrs.tail, fun hb => ⟨fun c hc => ?_, fun c hc => ?_⟩⟩
  · rcases hbetween c hc b rfl with h | h
    · exact h
    · rw [hb] at h
      exact absurd h Bool.false_ne_true
  cases rs with
  | nil => exact absurd hc (not_mem_none c)
  | cons d ds =>
    rw [head?_cons, mem_some_iff] at hc
    rw [← hc]
    rcases (isChain_cons_cons.mp hbrs).1 with h | h
    · rw [hb] at h
      exact absurd h Bool.false_ne_true
    · exact h

end Lists

section Keeps

variable {h h' h'' : Heap} {bs bs' bs'' : List Block} (ls : List Block) {mid mid' : List Block}
  (rs : List Block) {Except : Nat → Prop}

theorem keeps_trans (hk : Keeps h h' bs bs' Except) (hk' : Keeps h' h'' bs' bs'' Except) :
    Keeps h h'' bs bs'' Except := by
  refine ⟨hk'.heapPtr.trans hk.heapPtr, hk'.total.trans hk.total, fun o c hc hused hne => ?_⟩
  rcases hk.blocks o c hc hused hne with ⟨hc', hbytes⟩
  rcases hk'.blocks o c hc' hused hne with ⟨hc'', hbytes'⟩
  exact ⟨hc'', fun x hlo hhi => (hbytes' x hlo hhi).trans (hbytes x hlo hhi)⟩

theorem keeps_mono {Except' : Nat → Prop} (hsub : ∀ o, Except o → Except' o)
    (hk : Keeps h h' bs bs' Except) : Keeps h h' bs bs' Except' :=
  ⟨hk.heapPtr, hk.total, fun o c hc hused hne => hk.blocks o c hc hused (fun he => hne (hsub o he))⟩

theorem keeps_replace (hs : Shape h (ls ++ mid ++ rs))
    (htotal : Layout.total size mid' = Layout.total size mid)
    (hagrees : Agrees h h' (Layout.total size ls)
      (Layout.total size ls + Layout.total size mid + 12))
    (hmid : ∀ o c, Located size mid o c → c.used = true → Except (Layout.total size ls + o)) :
    Keeps h h' (ls ++ mid ++ rs) (ls ++ mid' ++ rs) Except := by
  have hroom := hs.room
  refine ⟨hagrees.heapPtr, ?_, fun o c hc hused hne => ?_⟩
  · simp only [total_append, htotal]
  have hbound := hc.bound
  have hnot : ∀ hle : Layout.total size ls ≤ o,
      ¬ Located size mid (o - Layout.total size ls) c := by
    intro hle hm
    refine hne ?_
    have he := hmid _ c hm hused
    rw [show Layout.total size ls + (o - Layout.total size ls) = o by omega] at he
    exact he
  refine ⟨?_, fun x hlo hhi => hagrees.byte x (by omega) ?_⟩
  · rcases hc.replace mid' htotal with hl | ⟨hle, hm⟩
    · exact hl
    · exact absurd hm (hnot hle)
  · -- A block in front ends before the ones replaced, one behind starts after them.
    rw [located_append, located_append, total_append] at hc
    rcases hc with (hc | ⟨hle, hm⟩) | ⟨hle, _⟩
    · have := hc.bound
      omega
    · exact absurd hm (hnot hle)
    · omega

end Keeps

/-- Free blocks have been merged, and nothing else has changed. -/
structure Merged (h h' : Heap) (bs bs' : List Block) : Prop where
  shape : Shape h' bs'
  lfree : LfreeOk h' bs'
  keeps : Keeps h h' bs bs' (fun _ => False)
  usedMem : h'.usedMem = h.usedMem
  usedTotal : usedTotal bs' = usedTotal bs

section Plug

variable {h : Heap} (ls rs : List Block) {b : Block} (c : Block)

/-- What the merging of the block at `o` with the one at `x` writes. The second
    block ends at `y`. -/
theorem mergeBlocks_memory {o x y : Nat} (hx : o + 12 ≤ x) (hy : x + 12 ≤ y)
    (hbound : y + 12 ≤ 2 ^ 32) (hnext : (h.header x).next = ofNat 32 y) {h' : Heap}
    (heq : mergeBlocks h (h.addr o) (h.addr x) = h') :
    Agrees h h' o (y + 12) ∧ h'.header o = { h.header o with next := ofNat 32 y } ∧
    h'.header y = { h.header y with prev := ofNat 32 o } ∧ h'.usedMem = h.usedMem ∧
    h'.lfree = if h.lfree = h.addr x then h.addr o else h.lfree := by
  unfold mergeBlocks at heq
  generalize (if h.lfree = h.addr x then h.addr o else h.lfree) = l at heq ⊢
  dsimp only at heq
  -- The first write does not touch the second block.
  have hread : Heap.next { h with lfree := l } (h.addr x) = ofNat 32 y := hnext
  rw [hread] at heq
  rcases sets_next (h := { h with lfree := l }) (h.addr o) (ofNat 32 y) rfl (by omega) with
    ⟨hset, hheader1⟩
  have hagrees1 : Agrees h (Heap.setNext { h with lfree := l } (h.addr o) (ofNat 32 y)) o
      (o + 12) :=
    ⟨hset.heapPtr, hset.heapEnd, hset.memSizeAligned, hset.byte⟩
  have hread1 : Heap.next (Heap.setNext { h with lfree := l } (h.addr o) (ofNat 32 y))
      (h.addr x) = ofNat 32 y := by
    have hsame := agrees_header x hagrees1 (by omega)
    exact (congrArg Header.next hsame).trans hnext
  rw [hread1] at heq
  have hoff : (Heap.setNext { h with lfree := l } (h.addr o) (ofNat 32 y)).offset (h.addr o)
      = ofNat 32 o := offset_addr
  rw [hoff] at heq
  have hheader1' := agrees_header y hagrees1 (by omega)
  generalize hg : Heap.setNext { h with lfree := l } (h.addr o) (ofNat 32 y) = g at *
  rcases heq ▸ sets_prev (g.addr y) (ofNat 32 o) rfl hbound with ⟨hagrees2, hheader2⟩
  refine ⟨?_, ?_, ?_, ?_, ?_⟩
  · exact agrees_trans (agrees_mono hagrees1 (by omega)) (agrees_mono hagrees2 (by omega))
  · rw [agrees_header o hagrees2 (by omega)]
    exact hheader1
  · rw [← hheader1']
    exact hheader2
  · rw [← heq, ← hg]
    rfl
  · rw [← heq, ← hg]
    rfl

theorem mergeBlocks_spec (hs : Shape h (ls ++ [b, c] ++ rs)) (hl : LfreeOk h (ls ++ [b, c] ++ rs))
    (hb : b.used = false) (hc : c.used = false) {h' : Heap}
    (heq : mergeBlocks h (h.addr (total size ls)) (h.addr (total size ls + b.size)) = h') :
    Merged h h' (ls ++ [b, c] ++ rs) (ls ++ [⟨b.size + c.size, b.used⟩] ++ rs) ∧
      h'.lfree = if h.lfree = h.addr (total size ls + b.size) then h.addr (total size ls)
        else h.lfree := by
  have hsb := hs.sizes b (mem_append_left _ (mem_append_right _ mem_cons_self))
  have hsc := hs.sizes c (mem_append_left _ (mem_append_right _ (mem_cons_of_mem b mem_cons_self)))
  have hroom := hs.room
  have hheadb := shape_header ls (c :: rs) b (by
    rw [append_assoc] at hs
    exact hs)
  have hheadc := shape_header (ls ++ [b]) rs c (by
    rw [append_assoc]
    rw [append_assoc] at hs
    exact hs)
  rw [lastOff_concat, total_append] at hheadc
  simp only [total_append, total_cons, total_nil, Nat.zero_add, Nat.add_zero] at hroom hheadc
  have hnext : (h.header (total size ls + b.size)).next
      = ofNat 32 (total size ls + (b.size + c.size)) := by
    rw [hheadc, ← Nat.add_assoc]
  rcases mergeBlocks_memory (by omega) (by omega) (by omega) hnext heq with
    ⟨hagrees, hheader, hbehind, hused, hlfree⟩
  have htotal : total size [(⟨b.size + c.size, b.used⟩ : Block)] = total size [b, c] := by
    simp only [total_cons, total_nil]
    omega
  refine ⟨⟨?_, ?_, ?_, hused, ?_⟩, hlfree⟩
  · refine shape_merge ls rs hs hagrees ?_ hbehind
    unfold HeaderOk
    rw [hheader, hheadb]
  · rcases hl with ⟨l, hl, hloc⟩
    by_cases hlc : h.lfree = h.addr (total size ls + b.size)
    · -- The pointer led to the second block, and leads to the whole now.
      rw [if_pos hlc] at hlfree
      refine ⟨total size ls, ?_, .inr ⟨⟨b.size + c.size, b.used⟩, ?_, hb⟩⟩
      · rw [hlfree, agrees_addr _ hagrees]
      · rw [append_assoc]
        exact located_middle size ls rs _
    rw [if_neg hlc] at hlfree
    refine ⟨l, ?_, ?_⟩
    · rw [hlfree, hl, agrees_addr _ hagrees]
    rcases hloc with hloc | ⟨d, hd, hdu⟩
    · refine .inl ?_
      rw [hloc]
      simp only [total_append, htotal]
    refine .inr ?_
    rcases hd.replace [⟨b.size + c.size, b.used⟩] htotal with hd' | ⟨hle, hd'⟩
    · exact ⟨d, hd', hdu⟩
    · -- It is not the second block, so it is the first.
      refine ⟨⟨b.size + c.size, b.used⟩, ?_, hb⟩
      rcases hd' with ⟨hzero, _⟩ | ⟨hle', hzero | hnil⟩
      · rw [append_assoc, show l = total size ls by omega]
        exact located_middle size ls rs _
      · exact absurd (hl.trans (by
          rw [show l = total size ls + b.size by omega])) hlc
      · exact hnil.2.elim
  · refine keeps_replace ls rs hs htotal ?_ (fun o d hd hdu => ?_)
    · simp only [total_cons, total_nil, Nat.add_zero]
      exact hagrees
    have hmem := hd.mem
    simp only [mem_cons, not_mem_nil, or_false] at hmem
    rcases hmem with rfl | rfl
    · rw [hb] at hdu
      exact Bool.false_ne_true hdu
    · rw [hc] at hdu
      exact Bool.false_ne_true hdu
  · simp only [usedTotal_append, usedTotal_cons, hb, hc, Bool.false_eq_true, if_false, Nat.zero_add]

theorem lfreeBut_of_low (hb : b.used = false) (hlow : LfreeLow h (ls ++ b :: rs)) :
    LfreeBut h ls b rs := by
  rcases hlow with ⟨l, hl, hle, hfree⟩
  exact ⟨l, hl, hle, fun o c hc hcu => .inr (hfree o c hc hcu),
    .inl (hfree _ b (located_middle size ls rs b) hb)⟩

/-- The block is taken account of already, unless it is about to be merged. -/
theorem low_of_lfreeBut (hbut : LfreeBut h ls b rs) (hhead : ∀ c ∈ rs.head?, c.used = true) :
    LfreeLow h (ls ++ b :: rs) := by
  rcases hbut with ⟨l, hl, hle, hfree, hcase⟩
  have hll : l ≤ total size ls := by
    rcases hcase with hcase | ⟨_, c, hc, hcu⟩
    · exact hcase
    · rw [hhead c hc] at hcu
      exact absurd hcu.symm Bool.false_ne_true
  refine ⟨l, hl, hle, fun o c hc hcu => ?_⟩
  rcases hfree o c hc hcu with rfl | hlo
  · exact hll
  · exact hlo

/-- After the merge, the pointer leads to the lowest free block. -/
theorem lfreeLow_merge (hs : Shape h (ls ++ b :: c :: rs)) {h' : Heap}
    (hptr : h'.heapPtr = h.heapPtr)
    (hlfree : h'.lfree = if h.lfree = h.addr (total size ls + b.size)
      then h.addr (total size ls) else h.lfree)
    (hbut : LfreeBut h ls b (c :: rs)) :
    LfreeLow h' (ls ++ ⟨b.size + c.size, b.used⟩ :: rs) := by
  have hroom := hs.room
  rcases hbut with ⟨l, hl, hle, hfree, hcase⟩
  simp only [total_append, total_cons] at hroom hle
  -- Blocks of the new list other than the whole were there before.
  have hold : ∀ o d, Located size (ls ++ ⟨b.size + c.size, b.used⟩ :: rs) o d →
      d.used = false → o = total size ls ∨ l ≤ o := by
    intro o d hd hdu
    rw [append_cons] at hd
    rcases hd.replace [b, c] (by
      simp only [total_cons, total_nil]
      omega) with hd | ⟨hlo, ⟨hz, _⟩ | ⟨_, hd⟩⟩
    · refine hfree o d ?_ hdu
      rw [append_assoc] at hd
      exact hd
    · exact .inl (by omega)
    · exact hd.elim
  by_cases hlc : h.lfree = h.addr (total size ls + b.size)
  · have hlb : l = total size ls + b.size :=
      addr_inj _ (hl.symm.trans hlc) (by omega)
    rw [if_pos hlc] at hlfree
    refine ⟨total size ls, hlfree.trans (addr_congr _ hptr).symm, ?_, fun o d hd hdu => ?_⟩
    · rw [total_append]
      omega
    · rcases hold o d hd hdu with rfl | hlo
      · exact le_rfl
      · omega
  have hll : l ≤ total size ls := by
    rcases hcase with hcase | ⟨hlb, _⟩
    · exact hcase
    · rw [hl, hlb] at hlc
      exact absurd rfl hlc
  rw [if_neg hlc] at hlfree
  refine ⟨l, ?_, ?_, fun o d hd hdu => ?_⟩
  · rw [hlfree, hl, addr_congr l hptr]
  · rw [total_append]
    omega
  · rcases hold o d hd hdu with rfl | hlo
    · exact hll
    · exact hlo

theorem merged_refl {bs : List Block} (hs : Shape h bs) (hl : LfreeOk h bs) : Merged h h bs bs :=
  ⟨hs, hl, ⟨rfl, rfl, fun _ _ hc _ _ => ⟨hc, fun _ _ _ => rfl⟩⟩, rfl, rfl⟩

theorem merged_trans {h' h'' : Heap} {bs bs' bs'' : List Block} (h1 : Merged h h' bs bs')
    (h2 : Merged h' h'' bs' bs'') : Merged h h'' bs bs'' :=
  ⟨h2.shape, h2.lfree, keeps_trans h1.keeps h2.keeps,
    h2.usedMem.trans h1.usedMem, h2.usedTotal.trans h1.usedTotal⟩

variable (hs : Shape h (ls ++ b :: rs)) (hl : LfreeOk h (ls ++ b :: rs))
include hs hl

theorem plugForward_spec (hb : b.used = false) (hrs : rs.IsChain Apart) :
    ∃ b' rs', Merged h (plugForward h (h.addr (total size ls))) (ls ++ b :: rs)
        (ls ++ b' :: rs') ∧ b'.used = false ∧ rs'.IsChain Apart ∧
      (∀ c ∈ rs'.head?, c.used = true) ∧
      (LfreeBut h ls b rs →
        LfreeLow (plugForward h (h.addr (total size ls))) (ls ++ b' :: rs')) := by
  have hsb := hs.sizes b (mem_append_right _ mem_cons_self)
  have hroom := hs.room
  have hnext : h.block (h.next (h.addr (total size ls)))
      = h.addr (total size ls + b.size) :=
    congrArg h.block (shape_fields ls rs b hs).2.2.1
  unfold plugForward
  dsimp only
  rw [hnext]
  cases rs with
  | nil =>
    -- Behind it is the end of the heap.
    have hend : h.heapEnd = h.addr (total size ls + b.size) := by
      rw [hs.heapEnd]
      simp only [total_append, total_singleton]
    rw [if_neg (fun hc => hc.2.2 hend.symm)]
    exact ⟨b, [], merged_refl hs hl, hb, hrs, fun c hc => absurd hc (not_mem_none c),
      fun hbut => low_of_lfreeBut ls [] hbut (fun c hc => absurd hc (not_mem_none c))⟩
  | cons c cs =>
    have hused : h.used (h.addr (total size ls + b.size)) = flag c.used := by
      have hok := (shape_fields (ls ++ [b]) cs c (by
        rw [append_assoc]
        exact hs)).2.1
      simp only [total_append, total_singleton] at hok
      exact hok
    cases hc : c.used with
    | true =>
      rw [hused, hc, if_neg (fun hcond => absurd hcond.2.1 (by decide))]
      have hhead : ∀ d ∈ (c :: cs).head?, d.used = true := by
        intro d hd
        rw [head?_cons, mem_some_iff] at hd
        rw [← hd]
        exact hc
      exact ⟨b, c :: cs, merged_refl hs hl, hb, hrs, hhead,
        fun hbut => low_of_lfreeBut ls (c :: cs) hbut hhead⟩
    | false =>
      have hsc := hs.sizes c (mem_append_right _ (mem_cons_of_mem b mem_cons_self))
      simp only [total_append, total_cons] at hroom
      have hcond : h.addr (total size ls) ≠ h.addr (total size ls + b.size) ∧
          h.used (h.addr (total size ls + b.size)) = 0#16 ∧
          h.addr (total size ls + b.size) ≠ h.heapEnd := by
        refine ⟨fun heq => ?_, ?_, fun heq => ?_⟩
        · have := addr_inj _ heq (by omega)
          omega
        · rw [hused, hc]
          rfl
        · rw [hs.heapEnd] at heq
          simp only [total_append, total_cons] at heq
          have := addr_inj _ heq (by omega)
          omega
      rw [if_pos hcond]
      have hlist : ls ++ b :: c :: cs = ls ++ [b, c] ++ cs := by
        rw [append_assoc]
        rfl
      have hs0 := hs
      rw [hlist] at hs hl ⊢
      rcases mergeBlocks_spec ls cs c hs hl hb hc rfl with ⟨hm, hlfree⟩
      refine ⟨⟨b.size + c.size, b.used⟩, cs, ?_, hb, hrs.tail, ?_,
        lfreeLow_merge ls cs c hs0 hm.keeps.heapPtr hlfree⟩
      · rw [append_assoc ls [_] cs] at hm
        exact hm
      · exact ((apart_neighbours [] cs c hrs).2.2 hc).2

theorem plugBackward_spec (hb : b.used = false) (hls : ls.IsChain Apart) :
    ∃ ls' b', Merged h (plugBackward h (h.addr (total size ls))) (ls ++ b :: rs)
        (ls' ++ b' :: rs) ∧ b'.used = false ∧ ls'.IsChain Apart ∧
      (∀ c ∈ ls'.getLast?, c.used = true) ∧
      (LfreeLow h (ls ++ b :: rs) →
        LfreeLow (plugBackward h (h.addr (total size ls))) (ls' ++ b' :: rs)) := by
  have hroom := hs.room
  have hprev : h.block (h.prev (h.addr (total size ls)))
      = h.addr (lastOff size 0 0 ls) :=
    congrArg h.block (shape_fields ls rs b hs).2.2.2
  unfold plugBackward
  dsimp only
  rw [hprev]
  rcases eq_nil_or_concat ls with rfl | ⟨cs, c, rfl⟩
  · -- The first block leads back to itself.
    rw [if_neg (fun hc => hc.1 rfl)]
    exact ⟨[], b, merged_refl hs hl, hb, hls, fun c hc => absurd hc (not_mem_none c), id⟩
  rw [concat_eq_append] at *
  have hsc := hs.sizes c (mem_append_left _ (mem_append_right _ mem_cons_self))
  have hlist : cs ++ [c] ++ b :: rs = cs ++ c :: b :: rs := by
    rw [append_assoc]
    rfl
  have hused : h.used (h.addr (total size cs)) = flag c.used := by
    rw [hlist] at hs
    exact (shape_fields cs (b :: rs) c hs).2.1
  rw [lastOff_concat, Nat.zero_add, hused]
  cases hc : c.used with
  | true =>
    rw [if_neg (fun hcond => absurd hcond.2 (by decide))]
    refine ⟨cs ++ [c], b, merged_refl hs hl, hb, hls, fun d hd => ?_, id⟩
    rw [getLast?_concat, mem_some_iff] at hd
    rw [← hd]
    exact hc
  | false =>
    simp only [total_append, total_singleton] at hroom ⊢
    have hne : h.addr (total size cs) ≠ h.addr (total size cs + c.size) := by
      intro heq
      have := addr_inj _ heq (by omega)
      omega
    rw [if_pos ⟨hne, rfl⟩]
    have hlist' : cs ++ [c] ++ b :: rs = cs ++ [c, b] ++ rs := by
      rw [append_assoc, append_assoc]
      rfl
    have hs0 := hs
    rw [hlist] at hs0
    rw [hlist'] at hs hl ⊢
    rcases mergeBlocks_spec cs rs b hs hl hc hb rfl with ⟨hm, hlfree⟩
    refine ⟨cs, ⟨c.size + b.size, c.used⟩, ?_, hc, ?_, ?_, fun hlow => ?_⟩
    · rw [append_assoc cs [_] rs] at hm
      exact hm
    · exact (apart_neighbours cs [] c hls).1
    · exact ((apart_neighbours cs [] c hls).2.2 hc).1
    · rw [← hlist', hlist] at hlow
      exact lfreeLow_merge cs rs b hs0 hm.keeps.heapPtr hlfree
        (lfreeBut_of_low cs (b :: rs) hc hlow)

variable {ls rs} in
theorem plugHoles_spec (hb : b.used = false) (hls : ls.IsChain Apart) (hrs : rs.IsChain Apart) :
    ∃ h' bs', plugHoles h (h.addr (total size ls)) = some h' ∧
      Merged h h' (ls ++ b :: rs) bs' ∧ bs'.IsChain Apart ∧
      (LfreeBut h ls b rs → LfreeLow h' bs') := by
  have hsb := hs.sizes b (mem_append_right _ mem_cons_self)
  have hroom := hs.room
  simp only [total_append, total_cons] at hroom
  rcases plugForward_spec ls rs hs hl hb hrs with ⟨b', rs', hm, hb', hrs', hhead, hforward⟩
  have hptr := hm.keeps.heapPtr
  rcases plugBackward_spec ls rs' hm.shape hm.lfree hb' hls with
    ⟨ls'', b'', hm', hb'', hls'', hlast, hbackward⟩
  rw [addr_congr _ hptr] at hm' hbackward
  refine ⟨_, ls'' ++ b'' :: rs', ?_, merged_trans hm hm',
    apart_free hls'' hrs' hlast hhead, fun hbut => hbackward (hforward hbut)⟩
  have hmem := addr_toNat h (total size ls) (by omega)
  have hend : h.heapEnd.toNat = h.heapPtr.toNat + total size (ls ++ b :: rs) := by
    rw [hs.heapEnd]
    exact addr_toNat h _ (by simp only [total_append, total_cons]; omega)
  simp only [total_append, total_cons] at hend
  have h1 : h.heapPtr ≤ h.addr (total size ls) := by
    rw [le_def]
    omega
  have h2 : h.addr (total size ls) < h.heapEnd := by
    rw [lt_def]
    omega
  have h3 : h.used (h.addr (total size ls)) = 0#16 := by
    rw [(shape_fields ls rs b hs).2.1, hb]
    rfl
  unfold plugHoles rtAssert
  rw [if_pos h1, if_pos h2, if_pos h3]
  rfl

end Plug

section Free

variable {h : Heap} (ls rs bs : List Block) (b : Block)

theorem total_mod (hsizes : ∀ b ∈ bs, 12 ≤ b.size ∧ b.size % 4 = 0) : total size bs % 4 = 0 := by
  induction bs with
  | nil => rfl
  | cons c cs ih =>
    have hc := hsizes c mem_cons_self
    have hcs := ih (fun d hd => hsizes d (mem_cons_of_mem c hd))
    rw [total_cons]
    omega

variable {ls rs b} in
theorem user_addr (hs : Shape h (ls ++ b :: rs)) (hpos : 12 < b.size) :
    h.addr (total size ls + 12) ≠ 0#32 ∧
    h.addr (total size ls + 12) &&& (4#32 - 1#32) = 0#32 ∧
    (h.heapPtr ≤ h.addr (total size ls + 12) ∧ h.addr (total size ls + 12) < h.heapEnd) ∧
    h.addr (total size ls + 12) - sizeofStructMem = h.addr (total size ls) := by
  have hroom := hs.room
  have hend : h.heapEnd.toNat = h.heapPtr.toNat + total size (ls ++ b :: rs) := by
    rw [hs.heapEnd]
    exact addr_toNat h _ (by omega)
  simp only [total_append, total_cons] at hroom hend
  have haddr := addr_toNat h (total size ls + 12) (by omega)
  have hmod := total_mod ls (fun c hc => hs.sizes c (mem_append_left _ hc))
  have haligned := hs.aligned
  refine ⟨fun hz => ?_, and_three _ (by omega), ⟨?_, ?_⟩, ?_⟩
  · rw [hz] at haddr
    change 0 = _ at haddr
    omega
  · rw [le_def]
    omega
  · rw [lt_def]
    omega
  · rw [← addr_add h (total size ls) 12]
    exact BitVec.add_sub_cancel _ _

variable {h' : Heap}

theorem lfreeOk_replace {mid : List Block} (hl : LfreeOk h (ls ++ b :: rs)) (hb : b.used = true)
    (htotal : total size mid = b.size) (hptr : h'.heapPtr = h.heapPtr)
    (hlfree : h'.lfree = h.lfree) : LfreeOk h' (ls ++ mid ++ rs) := by
  rcases hl with ⟨l, hl, hloc⟩
  refine ⟨l, by rw [hlfree, hl, addr_congr l hptr], ?_⟩
  rcases hloc with rfl | ⟨d, hd, hdu⟩
  · exact .inl (by simp only [total_append, total_cons, htotal, Nat.add_assoc])
  rw [append_cons] at hd
  rcases hd.replace mid (by rw [htotal, total_singleton]) with hd | ⟨_, ⟨_, rfl⟩ | ⟨_, hd⟩⟩
  · exact .inr ⟨d, hd, hdu⟩
  · exact absurd (hdu.symm.trans hb) Bool.false_ne_true
  · exact hd.elim

theorem lfreeLow_free (hs : Shape h (ls ++ b :: rs)) (hlow : LfreeLow h (ls ++ b :: rs))
    (hptr : h'.heapPtr = h.heapPtr) (hlfree : h'.lfree =
      if h.addr (total size ls) < h.lfree then h.addr (total size ls) else h.lfree) :
    LfreeLow h' (ls ++ ⟨b.size, false⟩ :: rs) := by
  have hroom := hs.room
  rcases hlow with ⟨l, hl, hle, hfree⟩
  have hlist := fun c : Block => append_cons ls c rs
  simp only [total_append, total_cons] at hle hroom
  have hlt : h.addr (total size ls) < h.lfree ↔ total size ls < l := by
    rw [lt_def, hl, addr_toNat h _ (by omega), addr_toNat h l (by omega)]
    omega
  have hold : ∀ x d, Located size (ls ++ ⟨b.size, false⟩ :: rs) x d → d.used = false →
      x = total size ls ∨ l ≤ x := by
    intro x d hd hdu
    rw [hlist] at hd
    rcases hd.replace [b] rfl with hd | ⟨hlo, ⟨hz, _⟩ | ⟨_, hd⟩⟩
    · rw [← hlist] at hd
      exact .inr (hfree x d hd hdu)
    · exact .inl (by omega)
    · exact hd.elim
  by_cases hol : total size ls < l
  · rw [if_pos (hlt.mpr hol)] at hlfree
    refine ⟨total size ls, hlfree.trans (addr_congr _ hptr).symm, ?_, fun x d hd hdu => ?_⟩
    · rw [total_append]
      omega
    · have := hold x d hd hdu
      omega
  rw [if_neg (fun hc => hol (hlt.mp hc)), hl] at hlfree
  refine ⟨l, hlfree.trans (addr_congr l hptr).symm, ?_, fun x d hd hdu => ?_⟩
  · rw [total_append]
    exact hle
  · have := hold x d hd hdu
    omega

theorem markFree_memory {o : Nat} (ho : o + 12 ≤ 2 ^ 32) (heq : markFree h (h.addr o) = h') :
    Agrees h h' o (o + 12) ∧ h'.header o = { h.header o with magic := heapMagic, used := 0#16 } ∧
    h'.lfree = (if h.addr o < h.lfree then h.addr o else h.lfree) ∧
    h'.usedMem = h.usedMem - ((h.header o).next - ofNat 32 o) := by
  have hused := sets_used (h.addr o) 0#16 rfl ho
  have hmagic := sets_magic (h := h.setUsed (h.addr o) 0#16) (h.addr o) heapMagic rfl ho
  rw [hused.header] at hmagic
  rcases sets_trans hused hmagic with ⟨hagrees, hheader⟩
  -- The size is read after the writes, which do not change it.
  have hnext := congrArg Header.next hheader
  rw [← heq]
  refine ⟨⟨rfl, rfl, rfl, hagrees.byte⟩, hheader, rfl, ?_⟩
  exact congrArg (h.usedMem - ·) (congrArg₂ (· - ·) hnext offset_addr)

/-- A used block becomes a free one, before it is merged with its neighbours. -/
theorem markFree_spec (hi : HeapInv h (ls ++ b :: rs)) (hb : b.used = true)
    (heq : markFree h (h.addr (total size ls)) = h') :
    Shape h' (ls ++ ⟨b.size, false⟩ :: rs) ∧ LfreeOk h' (ls ++ ⟨b.size, false⟩ :: rs) ∧
    h'.usedMem.toNat = usedTotal (ls ++ ⟨b.size, false⟩ :: rs) ∧
    Keeps h h' (ls ++ b :: rs) (ls ++ ⟨b.size, false⟩ :: rs) (· = total size ls) ∧
    (LfreeLow h (ls ++ b :: rs) → LfreeLow h' (ls ++ ⟨b.size, false⟩ :: rs)) := by
  have hs := hi.shape
  have hroom := hs.room
  have hheader := shape_header ls rs b hs
  have hlist := fun c : Block => append_cons ls c rs
  simp only [total_append, total_cons] at hroom
  rcases markFree_memory (by omega) heq with ⟨hagrees, hmark, hlfree, hused⟩
  rw [hheader] at hmark hused
  refine ⟨?_, ?_, ?_, ?_, fun hlow => lfreeLow_free ls rs b hs hlow hagrees.heapPtr hlfree⟩
  · rw [hlist] at hs ⊢
    exact shape_rewrite ls rs b hs hagrees hmark
  · split_ifs at hlfree with hlt
    · exact ⟨total size ls, hlfree.trans (agrees_addr _ hagrees).symm,
        .inr ⟨_, located_middle size ls rs _, rfl⟩⟩
    · rw [hlist]
      exact lfreeOk_replace ls rs b hi.lfree hb rfl hagrees.heapPtr hlfree
  · have hcount := hi.usedMem
    have := usedTotal_le ls
    have := usedTotal_le rs
    rw [hused]
    simp only [usedTotal_append, usedTotal_cons, hb, Bool.false_eq_true, if_true, if_false]
      at hcount ⊢
    simp only [BitVec.toNat_sub, BitVec.toNat_ofNat, hcount]
    omega
  · rw [hlist, hlist]
    refine keeps_replace ls rs (by rw [← hlist]; exact hs) rfl ?_ ?_
    · exact agrees_mono hagrees (by rw [total_singleton]; omega)
    · rintro o c (⟨rfl, rfl⟩ | ⟨_, hc⟩) _
      · rfl
      · exact hc.elim

theorem rtFree_spec (hi : HeapInv h (ls ++ b :: rs)) (hb : b.used = true) (hpos : 12 < b.size) :
    ∃ h' bs', rtFree h (h.addr (total size ls + 12)) = some h' ∧ HeapInv h' bs' ∧
      Keeps h h' (ls ++ b :: rs) bs' (· = total size ls) ∧
      (LfreeLow h (ls ++ b :: rs) → LfreeLow h' bs') := by
  have hs := hi.shape
  rcases user_addr hs hpos with ⟨hzero, hmask, hrange, hmem⟩
  rcases shape_fields ls rs b hs with ⟨hmagic, hflag, _, _⟩
  have hused : h.used (h.addr (total size ls)) ≠ 0#16 := by
    rw [hflag, hb]
    decide
  have hlegal : ¬ (h.addr (total size ls + 12) < h.heapPtr ∨
      h.heapEnd ≤ h.addr (total size ls + 12)) := by
    rw [le_def, lt_def] at hrange
    rw [le_def, lt_def]
    omega
  have hcode : rtFree h (h.addr (total size ls + 12))
      = plugHoles (markFree h (h.addr (total size ls))) (h.addr (total size ls)) := by
    unfold rtFree rtAssert
    simp only [if_neg hzero, if_pos hmask, if_pos hrange, if_neg hlegal, hmem, if_pos hused,
      if_pos hmagic]
    rfl
  rcases markFree_spec ls rs b hi hb rfl with ⟨hs', hl', hcount, hkeeps, hmark⟩
  rcases apart_neighbours ls rs b hi.apart with ⟨hls, hrs, _⟩
  rcases plugHoles_spec hs' hl' rfl hls hrs with
    ⟨h', bs', hplug, hm, hchain, hholes⟩
  rw [addr_congr _ hkeeps.heapPtr] at hplug
  refine ⟨h', bs', hcode.trans hplug, ⟨hm.shape, hchain, ?_, hm.lfree⟩, ?_,
    fun hlow => hholes (lfreeBut_of_low ls rs rfl (hmark hlow))⟩
  · rw [hm.usedMem, hm.usedTotal]
    exact hcount
  · exact keeps_trans hkeeps (keeps_mono (fun _ hc => hc.elim) hm.keeps)

end Free

end Honeycomb.SmallMem
