import Honeycomb.Theory.MemHeapShape

/-!
# Cutting, Merging and Marking Blocks

The three things the code does to the blocks of a memory heap: a block is cut in two,
two neighbours become one, and a block is marked as used or free.

Each of them writes a few fields of headers that are known by where they are. What
has to be shown is that these are the headers they should be, and that all others
are missed. The links of the free list are in the same headers, in other fields, and
are not touched (`SameLinks`).

## Theorems

* `splitItem_spec`: A block is cut in two.
* `shape_merge`: Two neighbours become one block.
* `shape_mark`: A block is marked.
-/

namespace Honeycomb.MemHeap

open Layout List Memory
open SmallMem (Block)
open SmallMem.Block (size)

/-- The links of the free list are as before in the headers of these blocks. -/
def SameLinks (h h' : Heap) (bs : List Block) : Prop :=
  ∀ a, IsItem h.startAddr h.freeHeader bs a →
    h'.get .nextFree a = h.get .nextFree a ∧ h'.get .prevFree a = h.get .prevFree a

section Blocks

variable (h h' : Heap) (ls : List Block) {mid mid' : List Block} (rs : List Block) {bs : List Block}
  (b c : Block) (o n : Nat)

theorem addr_ne (hp : Place h.startAddr h.freeHeader bs) (o' : Nat) (ho : o ≤ total size bs)
    (ho' : o' ≤ total size bs) (hne : o ≠ o') : h.addr o ≠ h.addr o' := by
  have hroom := hp.room
  exact fun heq => hne (addr_inj heq (by omega))

/-- A header outside of the blocks that are replaced stays where it is. -/
theorem headerAt_replace (htotal : total size mid' = total size mid)
    (hsizes : ∀ b ∈ mid, 0 < b.size) (ho : HeaderAt (ls ++ mid ++ rs) o)
    (hout : o < total size ls ∨ total size ls + total size mid ≤ o) :
    HeaderAt (ls ++ mid' ++ rs) o := by
  rcases ho with rfl | ⟨d, hd⟩
  · refine .inl ?_
    simp only [total_append, htotal]
  refine .inr ⟨d, ?_⟩
  rcases hd.replace mid' htotal with hd | ⟨hle, hd⟩
  · exact hd
  · have hbound := hd.bound
    have hpos := hsizes d hd.mem
    omega

variable {ls rs b} in
theorem headerAt_middle : HeaderAt (ls ++ b :: rs) (total size ls) :=
  .inr ⟨b, located_middle size ls rs b⟩

theorem headerAt_behind : HeaderAt (ls ++ b :: rs) (total size ls + b.size) := by
  rcases located_next with hend | ⟨c, hc⟩
  · exact .inl hend
  · exact .inr ⟨c, hc⟩

theorem headerAt_pair : HeaderAt (ls ++ [b, c] ++ rs) (total size ls) ∧
    HeaderAt (ls ++ [b, c] ++ rs) (total size ls + b.size) ∧
    HeaderAt (ls ++ [b, c] ++ rs) (total size ls + (b.size + c.size)) := by
  have hbehind := headerAt_behind (ls ++ [b]) rs c
  rw [total_append, total_singleton, Nat.add_assoc, append_assoc, singleton_append] at hbehind
  rw [append_assoc]
  exact ⟨headerAt_middle, headerAt_behind ls _ b, hbehind⟩

/-- The writes that cut a block in two. -/
theorem splitItem_written (hp : Place h.startAddr h.freeHeader (ls ++ [b, c] ++ rs))
    (hnext : h.get .next (h.addr (total size ls)) = h.addr (total size ls + (b.size + c.size)))
    (heq : h.splitItem (h.addr (total size ls)) (h.addr (total size ls + b.size)) = h') :
    Written h h' (ls ++ [b, c] ++ rs) fun g a =>
      if Field.next = g ∧ h.addr (total size ls) = a then h.addr (total size ls + b.size)
      else if Field.prev = g ∧ h.addr (total size ls + (b.size + c.size)) = a
        then h.addr (total size ls + b.size)
      else if Field.next = g ∧ h.addr (total size ls + b.size) = a
        then h.addr (total size ls + (b.size + c.size))
      else if Field.prev = g ∧ h.addr (total size ls + b.size) = a then h.addr (total size ls)
      else if Field.poolPtr = g ∧ h.addr (total size ls + b.size) = a then h.self
      else if Field.magic = g ∧ h.addr (total size ls + b.size) = a then memheapMagic
      else h.get g a := by
  rcases headerAt_pair ls rs b c with ⟨hat, hatN, hatB⟩
  have hsize := hp.sizes b (mem_append_left rs (mem_append_right ls mem_cons_self))
  rw [← heq, splitItem_eq h (separate_items hp) (item_addr h hat) (item_addr h hatN)
    (addr_ne h _ hp _ (headerAt_le hatN) (headerAt_le hat) (by omega)), hnext]
  have hN := item_addr h hatN
  exact ((((((written_refl h).set hp hN).set hp hN).set hp hN).set hp hN).set hp
    (item_addr h hatB)).set hp (item_addr h hat)

/-- A block is cut in two. The second part is free, but not yet on the free list. -/
theorem splitItem_spec (hs : Shape h (ls ++ [b] ++ rs)) (hn : 36 ≤ n) (hrest : n + 36 ≤ b.size)
    (heq : h.splitItem (h.addr (total size ls)) (h.addr (total size ls + n)) = h') :
    Shape h' (ls ++ [⟨n, b.used⟩, ⟨b.size - n, false⟩] ++ rs) ∧
    Frame h h' (ls ++ [⟨n, b.used⟩, ⟨b.size - n, false⟩] ++ rs) ∧
    h'.availableSize = h.availableSize ∧
    SameLinks h h' (ls ++ [⟨n, b.used⟩, ⟨b.size - n, false⟩] ++ rs) := by
  have hheader := shape_header ls rs b (by rw [append_cons]; exact hs)
  have hsum : n + (b.size - n) = b.size := by omega
  have htotal : total size [(⟨n, b.used⟩ : Block), ⟨b.size - n, false⟩] = total size [b] := by
    simp only [total_cons, total_nil]
    omega
  have hlarge : ∀ d ∈ [(⟨n, b.used⟩ : Block), ⟨b.size - n, false⟩], 36 ≤ d.size := by
    simp only [mem_cons, not_mem_nil, or_false, forall_eq_or_imp, forall_eq]
    omega
  have hp := place_replace ls rs htotal (fun d hd => by
    have := hlarge d hd
    omega) hs.place
  rcases headerAt_pair ls rs ⟨n, b.used⟩ ⟨b.size - n, false⟩ with ⟨hat, hatN, hatB⟩
  have hw := splitItem_written h h' ls rs ⟨n, b.used⟩ ⟨b.size - n, false⟩ hp
    (by rw [hsum]; exact hheader.next) heq
  simp only [hsum] at hatN hatB hw
  rcases hw with ⟨hframe, havail, hget⟩
  generalize hT : total size ls = o at *
  have hbound := headerAt_le hatB
  have hne := fun x y hx hy hxy => addr_ne h x hp y hx hy hxy
  -- What the first two of the headers say now.
  have hgetO := fun g => hget g _ (item_addr h hat)
  have hgetN := fun g => hget g _ (item_addr h hatN)
  simp (disch := omega) only [and_true, hne, and_false, if_false] at hgetO hgetN
  refine ⟨?_, hframe, havail, fun a ha => ?_⟩
  · refine shape_replace ls rs hs hframe htotal hlarge (cons_ne_nil _ _) (fun x hx hout => ?_)
      ⟨(headerOk_frame _ hframe).mpr ?_, (headerOk_frame _ hframe).mpr ?_, trivial⟩
      (fun f _ _ => ?_)
    · -- A header elsewhere is none of the three.
      simp only [hT, total_singleton] at hout
      have hx' := headerAt_replace ls rs x htotal (fun d hd => by
        rw [mem_singleton.mp hd]
        omega) hx (by simp only [hT, total_singleton]; omega)
      have hle := headerAt_le hx'
      intro f _ _
      rw [hget f _ (item_addr h hx')]
      simp (disch := omega) only [hne, and_false, if_false]
    · simp only [hT, hgetO, reduceCtorEq, if_false, if_true, hheader.magic, hheader.poolPtr,
        hheader.prev, append_assoc, singleton_append, and_self]
    · simp only [hT, hgetN, reduceCtorEq, if_false, if_true, Nat.add_assoc, hsum, and_self,
        and_true]
      rfl
    · simp only [hT, total_singleton]
      rw [hget f _ (item_addr h hatB)]
      simp (disch := omega) only [and_true, hne, and_false, if_false]
      exact if_congr eq_comm rfl rfl
  · rw [hget _ a ha, hget _ a ha]
    simp only [reduceCtorEq, false_and, if_false, and_self]

theorem shape_merge (hs : Shape h (ls ++ [b, c] ++ rs)) (hframe : Frame h h' (ls ++ [b, c] ++ rs))
    (hget : ∀ g a, IsItem h.startAddr h.freeHeader (ls ++ [b, c] ++ rs) a →
      g ≠ .nextFree → g ≠ .prevFree → h'.get g a =
        if Field.next = g ∧ h.addr (total size ls) = a
          then h.addr (total size ls + (b.size + c.size))
        else if Field.prev = g ∧ h.addr (total size ls + (b.size + c.size)) = a
          then h.addr (total size ls)
        else h.get g a) :
    Shape h' (ls ++ [⟨b.size + c.size, b.used⟩] ++ rs) := by
  have hp := hs.place
  have hlargeC := hs.large c (mem_append_left rs (mem_append_right ls
    (mem_cons_of_mem b mem_cons_self)))
  have hheader := shape_header ls (c :: rs) b (by rw [append_assoc] at hs; exact hs)
  rcases headerAt_pair ls rs b c with ⟨hat, _, hatB⟩
  have hmid : total size [b, c] = b.size + c.size := by
    simp only [total_cons, total_nil, Nat.add_zero]
  generalize hT : total size ls = o at *
  have hbound := headerAt_le hatB
  have hne := fun x y hx hy hxy => addr_ne h x hp y hx hy hxy
  have hgetO := fun g => hget g _ (item_addr h hat)
  simp (disch := omega) only [and_true, hne, and_false, if_false] at hgetO
  refine shape_replace ls rs hs hframe hmid.symm (fun d hd => ?_) (cons_ne_nil _ _)
    (fun x hx hout => ?_) ⟨(headerOk_frame _ hframe).mpr ?_, trivial⟩ (fun f hf hf' => ?_)
  · rw [mem_singleton.mp hd]
    change 36 ≤ b.size + c.size
    omega
  · have hle := headerAt_le hx
    intro f hf hf'
    rw [hget f _ (item_addr h hx) hf hf']
    simp (disch := omega) only [hne, and_false, if_false]
  · rw [hT, hgetO .magic nofun nofun, hgetO .poolPtr nofun nofun, hgetO .next nofun nofun,
      hgetO .prev nofun nofun, append_assoc]
    exact ⟨hheader.magic, hheader.poolPtr, rfl, hheader.prev⟩
  · rw [hT, hmid, hget f _ (item_addr h hatB) hf hf']
    simp (disch := omega) only [hne, and_false, if_false, and_true]
    exact if_congr eq_comm rfl rfl

theorem shape_mark {u : Bool} (hs : Shape h (ls ++ [b] ++ rs))
    (heq : h.set .magic (h.addr (total size ls)) (mark u) = h') :
    Shape h' (ls ++ [⟨b.size, u⟩] ++ rs) ∧ Frame h h' (ls ++ [b] ++ rs) ∧
      SameLinks h h' (ls ++ [b] ++ rs) := by
  have hp := hs.place
  have hlist := append_cons ls b rs
  have hheader := shape_header ls rs b (by rw [hlist]; exact hs)
  have hprev := shape_prev ls rs b (by rw [hlist]; exact hs)
  have hlarge := hs.large b (by
    rw [← hlist]
    exact mem_append_right ls mem_cons_self)
  have hat : HeaderAt (ls ++ [b] ++ rs) (total size ls) := hlist ▸ headerAt_middle
  have hatB : HeaderAt (ls ++ [b] ++ rs) (total size ls + b.size) := hlist ▸ headerAt_behind ls rs b
  generalize hT : total size ls = o at *
  have hne := fun x y hx hy hxy => addr_ne h x hp y hx hy hxy
  rcases heq ▸ (written_refl h).set hp (item_addr h hat) with ⟨hframe, _, hget⟩
  have hle := headerAt_le hatB
  refine ⟨?_, hframe, fun a ha => ?_⟩
  · refine shape_replace ls rs hs hframe rfl (fun d hd => ?_) (cons_ne_nil _ _)
      (fun x hx hout => ?_) ⟨(headerOk_frame _ hframe).mpr ?_, trivial⟩ (fun f _ _ => ?_)
    · rw [mem_singleton.mp hd]
      exact hlarge
    · have hlex := headerAt_le hx
      intro f _ _
      rw [hget f _ (item_addr h hx), if_neg (fun hc => hne _ _ (by omega) hlex (by omega) hc.2)]
    · have hgetO := fun g => hget g _ (item_addr h hat)
      rw [hT, hgetO, hgetO, hgetO, hgetO, ← hlist]
      exact ⟨if_pos ⟨rfl, rfl⟩, hheader.poolPtr, hheader.next, hheader.prev⟩
    · simp only [hT, total_singleton]
      rw [hget _ _ (item_addr h hatB),
        if_neg (fun hc => hne _ _ (by omega) (by omega) (by omega) hc.2)]
      by_cases hfp : f = .prev
      · rw [if_pos hfp, hfp]
        exact hprev
      · rw [if_neg hfp]
  · rw [hget _ a ha, hget _ a ha]
    exact ⟨rfl, rfl⟩

end Blocks

end Honeycomb.MemHeap
