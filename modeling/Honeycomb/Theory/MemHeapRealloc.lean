import Honeycomb.Theory.MemHeapOps

/-!
# Resizing a Block of a Memory Heap

A block can grow into the free block behind it, have its end cut off, or move. When it
grows, the header of the free block is linked out of both lists before the new one is
written, because the two may overlap; from then on nothing is read from the old header.

A block that moves is copied, so that bytes between the headers are written, and only
there.

## Main definitions

* `UserWrite`: Some bytes of the pool have been written.
* `Resized`: What a resize leaves.

## Theorems

* `reallocGrow_spec`: A block grows into the one behind it.
* `reallocShrink_spec`: The end of a block is cut off.
* `reallocMove_spec`: A block moves.
* `rtMemheapRealloc_spec`: A resize.
-/

namespace Honeycomb.MemHeap

open Layout List Memory
open BitVec (le_def lt_def ofNat_toNat setWidth_eq toNat_add toNat_sub)
open SmallMem (Block Apart apart_free apart_used apart_neighbours)
open SmallMem.Block (size)

/-- What a resize leaves: a used block with enough room, with the bytes of the old one
    as far as they fit. It is the old block or was not used before. -/
structure Resized (h : Heap) (bs : List Block) (o : Nat) (b : Block) (n : Nat) (h' : Heap)
    (p : BitVec 32) (bs' : List Block) (fl' : List Nat) (o' : Nat) (b' : Block) : Prop where
  inv : Inv h' bs' fl'
  keeps : Keeps h h' bs bs' (· = o)
  located : Located size bs' o' b'
  used : b'.used = true
  ptr : p = h'.addr (o' + 24)
  fits : n + 24 ≤ b'.size
  bytes : ∀ i, i + 24 < b.size → i + 24 < b'.size → h'.byte (o' + 24 + i) = h.byte (o + 24 + i)
  fresh : o' = o ∨ ∀ c, Located size bs o' c → c.used = false

section Resize

variable (h h' : Heap) (ls rs bs : List Block) (b c : Block) {fl : List Nat}

theorem ptr_add (o : Nat) (newsize : BitVec 32) :
    h.addr (o + 24) + newsize = h.addr (o + (newsize.toNat + 24)) := by
  have hadd := addr_add h (o + 24) newsize.toNat
  rw [ofNat_toNat, setWidth_eq] at hadd
  rw [hadd, Nat.add_assoc, Nat.add_comm 24]

/-- The writes that link the header behind a block out of the list of blocks. The links
    of that header are read between them, and are not written. -/
theorem linkOut_eq (hs : Shape h (ls ++ [b, c] ++ rs)) {o m k : Nat} (ho : o = total size ls)
    (hm : m = total size ls + b.size) (hk : k = total size ls + (b.size + c.size)) :
    (h.set .prev (h.get .next (h.addr m)) (h.get .prev (h.addr m))).set .next
        ((h.set .prev (h.get .next (h.addr m)) (h.get .prev (h.addr m))).get .prev (h.addr m))
        ((h.set .prev (h.get .next (h.addr m)) (h.get .prev (h.addr m))).get .next (h.addr m))
      = (h.set .prev (h.addr k) (h.addr o)).set .next (h.addr o) (h.addr k) := by
  have hS := separate_items hs.place
  have hpair := shape_pair hs ho hm hk
  have hread : ∀ f, (h.set .prev (h.addr k) (h.addr o)).get f (h.addr m) = h.get f (h.addr m) := by
    intro f
    rw [get_set _ hS hpair.behind hpair.second, if_neg (fun hc => hpair.behind_ne hc.2)]
  rw [hpair.next, hpair.prev, hread, hread, hpair.next, hpair.prev]

/-- A used block is cut in two. The second part is free, and not yet on the free list. -/
theorem open_split {n : Nat} (hl : Lists h (ls ++ [b] ++ rs) fl) (hb : b.used = true)
    (hperm : fl.Perm (frees 0 ls ++ frees (total size ls + b.size) rs))
    (hleft : ls.IsChain Apart) (hright : rs.IsChain Apart) (hn : 36 ≤ n) (hrest : n + 36 ≤ b.size)
    (heq : h.splitItem (h.addr (total size ls)) (h.addr (total size ls + n)) = h') :
    Open h' (ls ++ [⟨n, true⟩]) ⟨b.size - n, false⟩ rs fl false ∧
    Frame h h' (ls ++ [⟨n, true⟩] ++ [⟨b.size - n, false⟩] ++ rs) ∧
    h'.availableSize = h.availableSize ∧
    Keeps h h' (ls ++ [b] ++ rs) (ls ++ [⟨n, true⟩] ++ [⟨b.size - n, false⟩] ++ rs)
      (· = total size ls) := by
  rcases lists_split hl hn hrest heq with ⟨hl', hf, ha, _⟩
  have hlist : ls ++ [(⟨n, true⟩ : Block), ⟨b.size - n, false⟩] ++ rs
      = ls ++ [⟨n, true⟩] ++ [⟨b.size - n, false⟩] ++ rs := by
    simp only [append_assoc, cons_append, nil_append]
  rw [hb] at hl' hf
  have hk : Keeps h h' (ls ++ [b] ++ rs) (ls ++ [⟨n, true⟩, ⟨b.size - n, false⟩] ++ rs)
      (· = total size ls) := by
    refine keeps_replace _ ?_ (.inr rfl) hf (fun o d hd _ => ?_)
    · simp only [total_cons, total_nil]
      omega
    · rcases hd with ⟨rfl, _⟩ | ⟨_, hd⟩
      · exact Nat.add_zero _
      · exact hd.elim
  rw [hlist] at hl' hf hk
  refine ⟨⟨hl', rfl, ?_, apart_used hleft isChain_nil rfl, hright⟩, hf, ha, hk⟩
  rw [frees_concat rfl]
  simp only [total_append, total_singleton]
  rw [Nat.add_assoc, Nat.add_sub_cancel' (show n ≤ b.size by omega)]
  exact hperm

theorem located_first {n m : Nat} :
    Located size (ls ++ [⟨n, true⟩] ++ [⟨m, false⟩] ++ rs) (total size ls) ⟨n, true⟩ := by
  rw [append_assoc, ← append_cons]
  exact located_middle size ls _ _

theorem reallocGrow_spec {oldsize newsize : BitVec 32} (hi : Inv h (ls ++ [b, c] ++ rs) fl)
    (hb : b.used = true) (hc : c.used = false) (hold : oldsize.toNat = b.size - 24)
    (hgrow : oldsize.toNat < newsize.toNat)
    (hfits : newsize.toNat + 12 < c.size - 24 + (b.size - 24))
    (heq : reallocGrow h (h.addr (total size ls + 24)) oldsize newsize = h') :
    ∃ fl', Resized h (ls ++ [b, c] ++ rs) (total size ls) b newsize.toNat h'
      (h.addr (total size ls + 24))
      (ls ++ [⟨newsize.toNat + 24, true⟩] ++
        [⟨b.size + c.size - (newsize.toNat + 24), false⟩] ++ rs)
      fl' (total size ls) ⟨newsize.toNat + 24, true⟩ := by
  have hs := hi.lists.shape
  have hlistC : ls ++ [b, c] ++ rs = ls ++ [b] ++ [c] ++ rs := by
    simp only [append_assoc, cons_append, nil_append]
  have hiC := hi
  rw [hlistC] at hiC
  rcases inv_split (ls ++ [b]) rs hiC hc with ⟨xs, ys, rfl, hperm⟩
  simp only [total_append, total_cons, total_nil, Nat.add_zero] at hperm hi hiC
  have hroom := hs.place.room
  simp only [total_append, total_cons, total_nil, Nat.add_zero] at hroom
  have hlargeB := hs.large b (mem_append_left rs (mem_append_right ls mem_cons_self))
  have hbs : Located size (ls ++ [b, c] ++ rs) (total size ls) b := by
    rw [append_assoc]
    exact located_middle size ls _ b
  have hnext : h.get .next (h.addr (total size ls)) = h.addr (total size ls + b.size) := by
    have hheader := shape_at (by rw [append_assoc] at hs ⊢; exact hs)
    exact hheader.next
  unfold reallocGrow at heq
  rw [ptr_sub] at heq
  dsimp only at heq
  rw [hnext] at heq
  -- The counters.
  generalize h1eq :
    ({ h with availableSize := h.availableSize - (newsize - oldsize) } : Heap).countUsed = h1 at heq
  have hl1 : Lists h1 (ls ++ [b, c] ++ rs) (xs ++ (total size ls + b.size) :: ys) := by
    rw [← h1eq]
    exact lists_count h hi.lists
  have hf1 : Frame h h1 (ls ++ [b, c] ++ rs) := by
    rw [← h1eq]
    exact frame_count h _ _ _
  have ha1 : h1.availableSize = h.availableSize - (newsize - oldsize) := by
    rw [← h1eq]
    rfl
  have haddr1 := fun k => addr_congr k hf1.startAddr
  -- The free block is taken from the free list, and then from the list of blocks.
  generalize h2eq : h1.unlinkFree (h.addr (total size ls + b.size)) = h2 at heq
  rw [← haddr1] at h2eq
  rcases lists_unlink h2 _ hl1 h2eq with ⟨hl2, hf2, ha2⟩
  have haddr2 := fun k => (addr_congr k hf2.startAddr).trans (haddr1 k)
  have hout := linkOut_eq h2 ls rs b c hl2.shape rfl rfl rfl
  simp only [haddr2] at hout
  rw [hout] at heq
  generalize h3eq : (h2.set .prev (h.addr (total size ls + (b.size + c.size)))
    (h.addr (total size ls))).set .next (h.addr (total size ls))
    (h.addr (total size ls + (b.size + c.size))) = h3 at heq
  simp only [← haddr2] at h3eq
  have hnotin : total size ls + b.size ∉ xs ++ ys := (nodup_middle.mp hl1.nodup).notMem
  rcases linkOut_spec h3 ls rs b c hl2 rfl rfl hnotin (.inl h3eq) with ⟨hl3, hf3, ha3⟩
  have haddr3 := fun k => (addr_congr k hf3.startAddr).trans (haddr2 k)
  -- The large block is cut in two again, at another place.
  rw [ptr_add] at heq
  generalize h4eq : h3.splitItem (h.addr (total size ls))
    (h.addr (total size ls + (newsize.toNat + 24))) = h4 at heq
  simp only [← haddr3] at h4eq
  have hapart := hiC.apart
  rw [← append_cons] at hapart
  rcases apart_neighbours (ls ++ [b]) rs c hapart with ⟨hleft, hright, hside⟩
  rw [frees_concat hb, Nat.add_assoc] at hperm
  rcases open_split h3 h4 ls rs _ hl3 hb hperm (isChain_append.mp hleft).1
    hright (by omega) (by dsimp only; omega) h4eq with ⟨ho4, hf4, ha4, hk4⟩
  have haddr4 := fun k => (addr_congr k hf4.startAddr).trans (haddr3 k)
  have hsizes := ho4.lists.shape.place.sizes
  have htotal : total size (ls ++ [(⟨newsize.toNat + 24, true⟩ : Block)])
      = total size ls + (newsize.toNat + 24) := by
    simp only [total_append, total_cons, total_nil, Nat.add_zero]
  -- The rest is put on the free list.
  rw [← haddr4, ← htotal] at heq
  rcases open_link h' rs ho4 heq with ⟨ho5, hf5, ha5⟩
  have hstart : h'.startAddr = h.startAddr :=
    hf5.startAddr.trans (hf4.startAddr.trans (hf3.startAddr.trans (hf2.startAddr.trans
      hf1.startAddr)))
  have hfront := frame_trans h hf1 (frame_trans h1 hf2 hf3)
  have hback := frame_trans h3 hf4 hf5
  refine ⟨_, inv_of_open rs ho5 ?_ (fun d hd => ?_) (hside hc).2, ?_, located_first ls rs, rfl, ?_,
    le_rfl, fun i hib hib' => ?_, .inl rfl⟩
  · rw [ha5, ha4, ha3, ha2, ha1, toNat_sub, toNat_sub, hi.available]
    have hls := freeTotal_le ls
    have hrs := freeTotal_le rs
    simp only [freeTotal_append, freeTotal, hb, hc, Bool.false_eq_true, if_false, if_true]
    omega
  · rw [getLast?_concat, Option.mem_some_iff] at hd
    rw [← hd]
  · -- The blocks are followed to the large block, and from there to the two parts of it.
    refine keeps_trans ?_ (keeps_trans hk4 (keeps_same hf5))
    exact keeps_join _ rfl (fun _ => rfl) hc hfront
  · exact (addr_congr _ hstart).symm
  · dsimp only at hib'
    rw [frame_bytes hback (located_first ls rs) _ (by omega) (by dsimp only; omega)]
    exact frame_bytes hfront hbs _ (by omega) (by omega)

theorem reallocShrink_spec (newsize : BitVec 32) (hi : Inv h (ls ++ [b] ++ rs) fl)
    (hb : b.used = true) (hmin : 12 ≤ newsize.toNat) (hfits : newsize.toNat + 60 ≤ b.size)
    (heq : reallocShrink h (h.addr (total size ls)) newsize = h') :
    ∃ bs' fl', Resized h (ls ++ [b] ++ rs) (total size ls) b newsize.toNat h'
      (h.addr (total size ls + 24)) bs' fl' (total size ls) ⟨newsize.toNat + 24, true⟩ := by
  have hs := hi.lists.shape
  rcases shape_bounds hs with ⟨hlarge, hroom⟩
  have hperm := hi.frees
  rw [← append_cons, frees_append, frees_used hb, Nat.zero_add] at hperm
  have hapart := hi.apart
  rw [← append_cons] at hapart
  rcases apart_neighbours ls rs b hapart with ⟨hleft, hright, _⟩
  unfold reallocShrink at heq
  rw [addr_area] at heq
  generalize hn : newsize.toNat + 24 = n at *
  have htotal : total size (ls ++ [(⟨n, true⟩ : Block)]) = total size ls + n := by
    simp only [total_append, total_singleton]
  dsimp only at heq
  generalize h1eq : h.splitItem (h.addr (total size ls))
    (h.addr (total size ls + n)) = h1 at heq
  rcases open_split h h1 ls rs b hi.lists hb hperm hleft hright (by omega)
    (by omega) h1eq with ⟨ho1, hf1, ha1, hk1⟩
  have haddr1 := addr_congr (total size ls + n) hf1.startAddr
  rw [← haddr1, ← htotal] at heq
  -- The part that is cut off takes in the block behind it, if that is free.
  generalize h2eq : (if h1.isUsed (h1.get .next (h1.addr _)) = true then h1 else _) = h2 at heq
  have hmerge : ∃ b' rs' fl', Open h2 (ls ++ [⟨n, true⟩]) b' rs' fl' false ∧
      (∀ d ∈ rs'.head?, d.used = true) ∧
      Keeps h1 h2 (ls ++ [⟨n, true⟩] ++ [⟨b.size - n, false⟩] ++ rs)
        (ls ++ [⟨n, true⟩] ++ [b'] ++ rs') (fun _ => False) ∧
      h2.availableSize.toNat = freeTotal ls + freeTotal rs' := by
    have hs1 := ho1.lists.shape
    have hav1 : h1.availableSize.toNat = freeTotal ls + freeTotal rs := by
      rw [ha1, hi.available]
      simp only [freeTotal_append, freeTotal, hb, if_true, Nat.add_zero]
    have hls := freeTotal_le ls
    rcases open_right h2 rs ho1 h2eq with
      ⟨rfl, hhead⟩ | ⟨c, cs, fl', rfl, hc, ho2, hhead, hk2, ha2⟩
    · exact ⟨_, rs, fl, ho1, hhead, keeps_same (frame_refl h2), hav1⟩
    refine ⟨_, cs, fl', ho2, hhead, hk2, ?_⟩
    have hs1' := hs1
    rw [append_cons] at hs1'
    have hsize := memitemSize_toNat hs1'
    have hcs := freeTotal_le cs
    rcases shape_bounds hs1' with ⟨_, hroom1⟩
    rw [ha2, (shape_at hs1).next, toNat_sub, hav1]
    simp only [total_append, total_singleton] at hsize hroom1 ⊢
    rw [hsize]
    simp only [freeTotal, hc, Bool.false_eq_true, if_false]
    omega
  rcases hmerge with ⟨b', rs', fl', ho2, hhead, hk2, hav2⟩
  have hstart2 := hk2.startAddr
  -- It is put on the free list, and its size is counted as available.
  rw [← addr_congr _ hstart2] at heq
  generalize h3eq : h2.linkFree (h2.addr (total size (ls ++ [⟨n, true⟩]))) = h3
    at heq
  rcases open_link h3 rs' ho2 h3eq with ⟨ho3, hf3, ha3⟩
  rw [← addr_congr _ hf3.startAddr] at heq
  have hsize := memitemSize_toNat ho3.lists.shape
  generalize h3.memitemSize (h3.addr (total size (ls ++ [⟨n, true⟩]))) = m at *
  rcases shape_bounds ho3.lists.shape with ⟨hlarge', hroom'⟩
  simp only [total_append, total_singleton] at hroom'
  have hk3 : Keeps h1 h'
      (ls ++ [⟨n, true⟩] ++ [⟨b.size - n, false⟩] ++ rs)
      (ls ++ [⟨n, true⟩] ++ [b'] ++ rs') (fun _ => False) := by
    refine keeps_trans hk2 ?_
    refine keeps_trans (keeps_same hf3) ?_
    rw [← heq]
    exact keeps_same (frame_count h3 _ _ _)
  have hblock := hk3.blocks _ _ (located_first ls rs) rfl not_false
  have ho' := open_count rs' (h3.availableSize + m) ho3
  rw [heq] at ho'
  refine ⟨_, _, inv_of_open rs' ho' ?_ (fun d hd => ?_) hhead,
    keeps_trans hk1 (keeps_all hk3), hblock.1, rfl, ?_, hn.le,
    fun i _ hib' => ?_, .inl rfl⟩
  · have hls := freeTotal_le ls
    have hrs := freeTotal_le rs'
    rw [← heq]
    dsimp only
    rw [toNat_add, hsize, ha3, hav2]
    simp only [freeTotal_append, freeTotal, ho2.free, Bool.false_eq_true, if_false, if_true]
    omega
  · rw [getLast?_concat, Option.mem_some_iff] at hd
    rw [← hd]
  · exact (addr_congr _ (hk3.startAddr.trans hf1.startAddr)).symm
  · dsimp only at hib'
    rw [hblock.2 _ (by omega) (by dsimp only; omega)]
    exact frame_bytes hf1 (located_first ls rs) _ (by omega)
      (by dsimp only; omega)

end Resize

/-- Some bytes of the pool have been written, and nothing else. -/
structure UserWrite (h h' : Heap) (lo hi : Nat) : Prop where
  self : h'.self = h.self
  freeHeader : h'.freeHeader = h.freeHeader
  startAddr : h'.startAddr = h.startAddr
  poolSize : h'.poolSize = h.poolSize
  availableSize : h'.availableSize = h.availableSize
  blockList : h'.blockList = h.blockList
  freeList : h'.freeList = h.freeList
  memory : ∀ y, (∀ x, lo ≤ x → x < hi → y ≠ h.addr x) → h'.memory y = h.memory y

section User

variable (h h' : Heap) (bs : List Block) (b : Block) {fl : List Nat} (o : Nat)

theorem get_user (hp : Place h.startAddr h.freeHeader bs) (hb : Located size bs o b)
    (hw : UserWrite h h' (o + 24) (o + b.size)) (f : Field) (a : BitVec 32)
    (ha : IsItem h.startAddr h.freeHeader bs a) : h'.get f a = h.get f a := by
  have hroom := hp.room
  have hbound := hb.bound
  -- The bytes of the header are elsewhere.
  have hbytes : ∀ k, k < 24 →
      h'.memory (a + BitVec.ofNat 32 k) = h.memory (a + BitVec.ofNat 32 k) := by
    intro k hk
    refine hw.memory _ (fun x hlo hhi => ?_)
    rcases ha with rfl | ⟨o', ho', rfl⟩
    · exact hp.outside k x hk (by omega)
    have hle := headerAt_le ho'
    have hapart : o' + 24 ≤ x ∨ x < o' := by
      rcases ho' with rfl | ⟨c, hc⟩
      · exact .inr (by omega)
      have hsize' := hp.sizes c hc.mem
      rcases hb.apart hc with ⟨rfl, _⟩ | hlt | hlt
      · exact .inl (by omega)
      · exact .inr (by omega)
      · exact .inl (by omega)
    change h.addr o' + BitVec.ofNat 32 k ≠ h.addr x
    rw [addr_add]
    intro hc
    have := addr_inj hc (by omega)
    omega
  refine load32_congr (fun k hk => ?_)
  have hfits := itemFormat.fits f
  change _ ≤ 24 at hfits
  exact hbytes _ (by omega)

/-- Writing to the bytes of a used block keeps everything but these bytes. -/
theorem inv_user (hi : Inv h bs fl) (hb : Located size bs o b)
    (hw : UserWrite h h' (o + 24) (o + b.size)) :
    Inv h' bs fl ∧ Keeps h h' bs bs (· = o) := by
  have hs := hi.lists.shape
  have hp := hs.place
  have hroom := hp.room
  have hbound := hb.bound
  have hget := get_user h h' bs b o hp hb hw
  -- With no blocks to speak of, this says nothing about bytes.
  have hframe : Frame h h' [] := by
    refine { hw with byte := fun x hx hout => ?_ }
    rw [total_nil] at hx
    have := hout 0 (.inl rfl)
    omega
  have hshape : Shape h' bs := shape_congr hs hframe (fun o' ho' f _ _ =>
    hget f _ (item_addr h ho'))
  have hfree : FreeOk h' fl := freeOk_congr h h' bs hw.startAddr hw.freeHeader hi.lists.listed
    (fun a ha => ⟨hget _ a ha, hget _ a ha⟩) hi.lists.free
  refine ⟨⟨⟨hshape, hfree, hi.lists.nodup, hi.lists.listed⟩, hi.frees, hi.apart, ?_⟩, hw.startAddr,
    fun o' c hc _ hne => ⟨hc, fun x hlo hhi => ?_⟩⟩
  · rw [hw.availableSize]
    exact hi.available
  -- The bytes of another block.
  have hbound' := hc.bound
  have hapart : x < o ∨ o + b.size ≤ x := by
    rcases hb.apart hc with ⟨heq, _⟩ | hlt | hlt
    · exact absurd heq.symm hne
    · exact .inr (by omega)
    · exact .inl (by omega)
  have hother : h'.memory (h.addr x) = h.memory (h.addr x) := by
    refine hw.memory _ (fun y hly hhy hc => ?_)
    have := addr_inj hc (by omega)
    omega
  change h'.memory (h'.addr x) = h.memory (h.addr x)
  rw [addr_congr x hw.startAddr]
  exact hother

end User

section Move

variable {h : Heap} {bs : List Block} {b : Block} {fl : List Nat} {o : Nat}

theorem copy_user {h' : Heap} {o' : Nat} {b' : Block} {n : BitVec 32} (hs : Shape h bs)
    (hb' : Located size bs o' b') (hn : n.toNat + 24 ≤ b'.size)
    (heq : { h with memory := h.memory.copy (h.addr (o' + 24)) (h.addr (o + 24)) n } = h') :
    UserWrite h h' (o' + 24) (o' + b'.size) ∧
      ∀ i, i < n.toNat → h'.byte (o' + 24 + i) = h.byte (o + 24 + i) := by
  have hroom := hs.place.room
  have hbound' := hb'.bound
  refine ⟨?_, fun i hi => ?_⟩
  · subst heq
    refine ⟨rfl, rfl, rfl, rfl, rfl, rfl, rfl, fun y hy => ?_⟩
    change (if y - h.addr (o' + 24) < n then _ else h.memory y) = h.memory y
    rw [if_neg]
    -- An address within the copy is that of a byte of the block.
    intro hlt
    rw [lt_def] at hlt
    refine hy (o' + 24 + (y - h.addr (o' + 24)).toNat) (by omega) (by omega) ?_
    rw [← addr_add, ofNat_toNat, setWidth_eq, BitVec.add_comm, BitVec.sub_add_cancel]
  · have hcopy := window_copy h.memory h.startAddr (o' + 24) (o' + 24 + i) (by omega) (o + 24) n
      (by omega)
    rw [if_pos (by omega), Nat.add_sub_cancel_left] at hcopy
    rw [← heq]
    exact hcopy

theorem reallocMove_spec {oldsize newsize : BitVec 32} (hi : Inv h bs fl)
    (hb : Located size bs o b) (hbu : b.used = true) (hold : oldsize.toNat = b.size - 24)
    (hgrow : oldsize < newsize) (hle : newsize.toNat ≤ (allocSize newsize).toNat) :
    ∃ h' p, reallocMove h (h.addr (o + 24)) oldsize newsize = some (h', p) ∧ ((p = 0#32 ∧ h' = h) ∨
      ∃ bs' fl' o' b', Resized h bs o b newsize.toNat h' p bs' fl' o' b') := by
  unfold reallocMove
  rcases rtMemheapAlloc_spec newsize hi with ⟨h1, p1, halloc, hcase⟩
  rw [halloc]
  simp only [some_bind]
  rcases hcase with ⟨rfl, rfl, _⟩ | ⟨bs1, fl1, o1, b1, ha⟩
  · refine ⟨h1, 0#32, ?_, .inl ⟨rfl, rfl⟩⟩
    rw [if_neg (not_not_intro rfl)]
    rfl
  have hs1 := ha.inv.lists.shape
  have hfits := ha.fits
  have hne : o1 ≠ o := by
    rintro rfl
    exact Bool.false_ne_true ((ha.fresh b hb).symm.trans hbu)
  rcases ha.keeps.blocks o b hb hbu not_false with ⟨hb1, hbytes1⟩
  rw [lt_def] at hgrow
  -- The copy.
  rw [if_pos (by rw [ha.ptr]; exact ptr_ne_zero hs1 ha.located),
    if_pos (lt_def.mpr hgrow), ha.ptr, ← addr_congr _ ha.keeps.startAddr]
  generalize h2eq : ({ h1 with
    memory := h1.memory.copy (h1.addr (o1 + 24)) (h1.addr (o + 24)) oldsize } : Heap) = h2
  rcases copy_user hs1 ha.located (by omega) h2eq with ⟨hw, hcopy⟩
  rcases inv_user h1 h2 bs1 b1 o1 ha.inv ha.located hw with ⟨hi2, hk2⟩
  -- The release.
  rcases hb1.split with ⟨ls, rs, rfl, rfl⟩
  rw [append_cons] at hi2 hk2
  rcases rtMemheapFree_spec hi2 hbu with ⟨h3, bs3, fl3, hfree, hi3, hk3⟩
  rw [addr_congr _ hw.startAddr] at hfree
  rw [hfree]
  have hlocated := ha.located
  rw [append_cons] at hlocated
  rcases hk3.blocks o1 b1 hlocated ha.used hne with ⟨hb3, hbytes3⟩
  have hstart := hk3.startAddr.trans hw.startAddr
  refine ⟨h3, _, rfl, .inr ⟨bs3, fl3, o1, b1, hi3, ⟨hstart.trans ha.keeps.startAddr,
    fun o' c hc hcu hno => ?_⟩, hb3, ha.used, (addr_congr _ hstart).symm, by omega,
    fun i hib _ => ?_, .inr ha.fresh⟩⟩
  · have hne' : o' ≠ o1 := by
      rintro rfl
      exact Bool.false_ne_true ((ha.fresh c hc).symm.trans hcu)
    rcases ha.keeps.blocks o' c hc hcu not_false with ⟨hc1, hb1'⟩
    rw [append_cons] at hc1
    rcases hk2.blocks o' c hc1 hcu hne' with ⟨hc2, hb2'⟩
    rcases hk3.blocks o' c hc2 hcu hno with ⟨hc3, hb3'⟩
    exact ⟨hc3, fun x hlo hhi =>
      (hb3' x hlo hhi).trans ((hb2' x hlo hhi).trans (hb1' x hlo hhi))⟩
  · rw [hbytes3 _ (by omega) (by omega), hcopy i (by omega)]
    exact hbytes1 _ (by omega) (by omega)

theorem rtMemheapRealloc_spec {n : BitVec 32} (hn : n.toNat ≤ 2 ^ 32 - 16) (hi : Inv h bs fl)
    (hb : Located size bs o b) (hbu : b.used = true) :
    ∃ h' p, rtMemheapRealloc h (h.addr (o + 24)) n = some (h', p) ∧
      ((p = 0#32 ∧ h' = h ∧ n ≠ 0#32) ∨
      (p = 0#32 ∧ n = 0#32 ∧ ∃ bs' fl', Inv h' bs' fl' ∧ Keeps h h' bs bs' (· = o)) ∨
      ∃ bs' fl' o' b', Resized h bs o b (allocSize n).toNat h' p bs' fl' o' b') := by
  have hs := hi.lists.shape
  have hnz := ptr_ne_zero hs hb
  rcases hb.split with ⟨ls, rs, rfl, rfl⟩
  rw [append_cons] at hi hs hb ⊢
  have hsize := allocSize_toNat n
  have hsize' := allocSize_toNat (allocSize n)
  rcases shape_bounds hs with ⟨hlarge, hroom⟩
  have hold := memitemSize_toNat hs
  have hnext := (shape_at hs).next
  unfold rtMemheapRealloc
  by_cases hzero : n = 0#32
  · rw [if_pos hzero]
    rcases rtMemheapFree_spec hi hbu with ⟨h', bs', fl', hfree, hi', hk'⟩
    rw [hfree]
    exact ⟨h', 0#32, rfl, .inr (.inl ⟨rfl, hzero, bs', fl', hi', hk'⟩)⟩
  rw [if_neg hzero]
  dsimp only
  rw [if_neg hnz, ptr_sub, hnext]
  generalize h.memitemSize (h.addr (total size ls)) = oldsize at *
  generalize allocSize n = sz at *
  -- A move is the answer whenever the block cannot grow where it is.
  have hmove : oldsize < sz → ∃ h' p,
      reallocMove h (h.addr (total size ls + 24)) oldsize sz = some (h', p) ∧
      ((p = 0#32 ∧ h' = h ∧ n ≠ 0#32) ∨
      (p = 0#32 ∧ n = 0#32 ∧ ∃ bs' fl', Inv h' bs' fl' ∧
        Keeps h h' (ls ++ [b] ++ rs) bs' (· = total size ls)) ∨
      ∃ bs' fl' o' b',
        Resized h (ls ++ [b] ++ rs) (total size ls) b sz.toNat h' p bs' fl' o' b') := by
    intro hgrow
    rcases reallocMove_spec hi hb hbu hold hgrow (by omega) with
      ⟨h', p, hmove, ⟨hp, hh⟩ | hr⟩
    · exact ⟨h', p, hmove, .inl ⟨hp, hh, hzero⟩⟩
    · exact ⟨h', p, hmove, .inr (.inr hr)⟩
  by_cases hgrow : oldsize < sz
  · rw [if_pos hgrow]
    have hlt : h.addr (total size ls) < h.addr (total size ls + b.size) := by
      rw [lt_def, addr_toNat (by omega), addr_toNat (by omega)]
      omega
    have hpos : 0#32 < h.addr (total size ls + b.size) := by
      rw [lt_def, addr_toNat (by omega)]
      change 0 < _
      omega
    simp only [some_bind, rtAssert, if_pos hlt, if_pos hpos]
    cases rs with
    | nil =>
      have htail := isUsed_tail hs
      simp only [total_append, total_cons, total_nil, Nat.add_zero] at htail
      rw [if_pos htail]
      exact hmove hgrow
    | cons c cs =>
      have hs' := hs
      rw [append_cons] at hs'
      have hused := isUsed_block hs'
      have hitem := memitemSize_toNat hs'
      simp only [total_append, total_cons, total_nil, Nat.add_zero] at hused hitem hroom
      rw [hused]
      cases hc : c.used with
      | true =>
        rw [if_pos rfl]
        exact hmove hgrow
      | false =>
        rw [if_neg Bool.false_ne_true]
        by_cases hfits : sz + memheapMinialloc
            < h.memitemSize (h.addr (total size ls + b.size)) + oldsize
        · rw [if_pos hfits]
          rw [lt_def, toNat_add, toNat_add, hitem, hold] at hfits
          change (sz.toNat + 12) % 2 ^ 32 < _ at hfits
          rw [lt_def] at hgrow
          rw [append_assoc] at hi ⊢
          rw [show [b] ++ c :: cs = [b, c] ++ cs from rfl, ← append_assoc] at hi ⊢
          rcases reallocGrow_spec h _ ls cs b c hi hbu hc hold hgrow (by omega) rfl with
            ⟨fl', hr⟩
          exact ⟨_, _, rfl, .inr (.inr ⟨_, fl', _, _, hr⟩)⟩
        · rw [if_neg hfits]
          exact hmove hgrow
  · rw [if_neg hgrow]
    rw [BitVec.not_lt, le_def] at hgrow
    by_cases hkeep : oldsize ≤ sz + memheapSize + memheapMinialloc
    · -- The block stays as it is.
      rw [if_pos hkeep]
      refine ⟨h, _, rfl, .inr (.inr ⟨_, fl, _, b, hi, ?_, hb, hbu, rfl, by omega, fun _ _ _ => rfl,
        .inl rfl⟩)⟩
      exact keeps_same (frame_refl h)
    rw [if_neg hkeep]
    rw [memheapSize_eq, le_def, toNat_add, toNat_add, hold] at hkeep
    change ¬ b.size - 24 ≤ ((sz.toNat + 24) % 2 ^ 32 + 12) % 2 ^ 32 at hkeep
    rcases reallocShrink_spec h _ ls rs b sz hi hbu (by omega) (by omega) rfl with ⟨bs', fl', hr⟩
    exact ⟨_, _, rfl, .inr (.inr ⟨bs', fl', _, _, hr⟩)⟩

end Move

end Honeycomb.MemHeap
