import Honeycomb.Theory.MemHeapBlocks

/-!
# Both Lists of a Memory Heap

The calls of a memory heap are made of a few pieces, each of which changes the
blocks or the free list. Between the pieces the two lists do not agree: a block that
has been cut off is free, but not yet on the free list, and one that has been taken
from the free list is not yet marked as used. `Lists` is what holds all the time: the
headers describe the blocks, and the free list goes through headers of blocks.

What the users have is followed separately. A piece writes to headers only, but which
headers there are changes on the way, so `Keeps` follows the used blocks and their
bytes from one list of blocks to the next, and can be chained.

## Main definitions

* `Lists`: The headers describe the blocks, and the free list goes through them.
* `Keeps`: Used blocks are where they were, with their bytes.

## Theorems

* `lists_link`, `lists_unlink`: A block is put on the free list, or taken from it.
* `lists_split`, `lists_merge`, `lists_mark`: What happens to the blocks.
* `keeps_frame`, `keeps_replace`, `keeps_trans`: What the users have.
-/

namespace Honeycomb.MemHeap

open Layout List
open SmallMem (Block)
open SmallMem.Block (size)

/-- The headers describe the blocks, and the free list goes through headers of blocks. -/
structure Lists (h : Heap) (bs : List Block) (fl : List Nat) : Prop where
  shape : Shape h bs
  free : FreeOk h fl
  nodup : fl.Nodup
  listed : ∀ o ∈ fl, HeaderAt bs o

/-- Used blocks are where they were, with their bytes, except for some. -/
structure Keeps (h h' : Heap) (bs bs' : List Block) (Except : Nat → Prop) : Prop where
  startAddr : h'.startAddr = h.startAddr
  blocks : ∀ o b, Located size bs o b → b.used = true → ¬ Except o →
    Located size bs' o b ∧ ∀ x, o + 24 ≤ x → x < o + b.size → h'.byte x = h.byte x

section Headers

variable (ls rs bs : List Block) (b : Block) {b' : Block} (c : Block) (o : Nat)

theorem headerAt_cons : HeaderAt (b :: bs) o ↔ o = 0 ∨ b.size ≤ o ∧ HeaderAt bs (o - b.size) := by
  unfold HeaderAt
  simp only [total_cons, Located]
  constructor
  · rintro (ho | ⟨d, ⟨hz, _⟩ | ⟨hle, hd⟩⟩)
    · exact .inr ⟨by omega, .inl (by omega)⟩
    · exact .inl hz
    · exact .inr ⟨hle, .inr ⟨d, hd⟩⟩
  · rintro (hz | ⟨hle, ho | ⟨d, hd⟩⟩)
    · exact .inr ⟨b, .inl ⟨hz, rfl⟩⟩
    · exact .inl (by omega)
    · exact .inr ⟨d, .inr ⟨hle, hd⟩⟩

theorem headerAt_append :
    HeaderAt (ls ++ rs) o ↔
      (∃ d, Located size ls o d) ∨ total size ls ≤ o ∧ HeaderAt rs (o - total size ls) := by
  induction ls generalizing o with
  | nil => simp only [nil_append, Located, exists_false, total_nil, Nat.zero_le, Nat.sub_zero,
      true_and, false_or]
  | cons c cs ih =>
    rw [cons_append, headerAt_cons, ih, total_cons, Nat.sub_sub]
    simp only [Located]
    constructor
    · rintro (hz | ⟨hle, ⟨d, hd⟩ | ⟨hle', ho⟩⟩)
      · exact .inl ⟨c, .inl ⟨hz, rfl⟩⟩
      · exact .inl ⟨d, .inr ⟨hle, hd⟩⟩
      · exact .inr ⟨by omega, ho⟩
    · rintro (⟨d, ⟨hz, _⟩ | ⟨hle, hd⟩⟩ | ⟨hle, ho⟩)
      · exact .inl hz
      · exact .inr ⟨hle, .inl ⟨d, hd⟩⟩
      · exact .inr ⟨by omega, .inr ⟨by omega, ho⟩⟩

theorem headerAt_mark (hsize : b'.size = b.size) (ho : HeaderAt (ls ++ [b] ++ rs) o) :
    HeaderAt (ls ++ [b'] ++ rs) o := by
  rw [← append_cons, headerAt_append, headerAt_cons] at ho ⊢
  rw [hsize]
  exact ho

theorem headerAt_cut {b' : Block} {c : Block} {o : Nat} (hsize : b.size + b'.size = c.size)
    (ho : HeaderAt (ls ++ [c] ++ rs) o) :
    HeaderAt (ls ++ [b, b'] ++ rs) o := by
  rw [append_assoc, headerAt_append] at ho ⊢
  refine ho.imp_right (fun ⟨hle, ho⟩ => ⟨hle, ?_⟩)
  simp only [cons_append, nil_append, headerAt_cons] at ho ⊢
  rcases ho with hz | ⟨hle', ho⟩
  · exact .inl hz
  · refine .inr ⟨by omega, .inr ⟨by omega, ?_⟩⟩
    rw [Nat.sub_sub, hsize]
    exact ho

/-- The new header of a block that is cut in two was not there before. -/
theorem headerAt_inside {n : Nat} (hn : 0 < n) (hlt : n < b.size) :
    ¬ HeaderAt (ls ++ [b] ++ rs) (total size ls + n) := by
  intro ho
  rw [append_assoc, headerAt_append] at ho
  rcases ho with ⟨d, hd⟩ | ⟨_, ho⟩
  · -- The header of a block in front would lie behind its block.
    have hbound := hd.bound
    omega
  · rw [Nat.add_sub_cancel_left, singleton_append, headerAt_cons] at ho
    omega

theorem headerAt_join (ho : HeaderAt (ls ++ [b, c] ++ rs) o)
    (hne : o ≠ total size ls + b.size) (hsize : b'.size = b.size + c.size) :
    HeaderAt (ls ++ [b'] ++ rs) o := by
  rw [append_assoc, headerAt_append] at ho ⊢
  refine ho.imp_right (fun ⟨hle, ho⟩ => ⟨hle, ?_⟩)
  simp only [cons_append, nil_append, headerAt_cons] at ho ⊢
  rcases ho with hz | ⟨hle', hz | ⟨hle'', ho⟩⟩
  · exact .inl hz
  · omega
  · refine .inr ⟨by omega, ?_⟩
    rw [hsize, ← Nat.sub_sub]
    exact ho

end Headers

section Keeps

variable {h h' : Heap} (h'' : Heap) {fs bs : List Block} (bs' : List Block) {bs'' : List Block}
  {b : Block} {o : Nat} (Except : Nat → Prop)

theorem frame_bytes (hframe : Frame h h' fs) (hb : Located size fs o b) :
    ∀ x, o + 24 ≤ x → x < o + b.size → h'.byte x = h.byte x := by
  intro x hlo hhi
  have hbound := hb.bound
  refine hframe.byte x (by omega) (fun o' ho' => ?_)
  rcases ho' with rfl | ⟨c, hc⟩
  · exact .inl (by omega)
  rcases hb.apart hc with ⟨rfl, _⟩ | hapart | hapart
  · exact .inr (by omega)
  · exact .inl (by omega)
  · exact .inr (by omega)

/-- Only headers have been written, and the blocks that count are among those between
    the headers. -/
theorem keeps_frame {bs bs' : List Block} {Except : Nat → Prop} (hframe : Frame h h' fs)
    (hblocks : ∀ o b, Located size bs o b → b.used = true → ¬ Except o →
      Located size fs o b ∧ Located size bs' o b) : Keeps h h' bs bs' Except := by
  refine ⟨hframe.startAddr, fun o b hb hbu hne => ?_⟩
  rcases hblocks o b hb hbu hne with ⟨hfs, hbs'⟩
  exact ⟨hbs', frame_bytes hframe hfs⟩

variable {Except}

theorem keeps_trans {h'' : Heap} {bs' : List Block} (h1 : Keeps h h' bs bs' Except)
    (h2 : Keeps h' h'' bs' bs'' Except) : Keeps h h'' bs bs'' Except := by
  refine ⟨h2.startAddr.trans h1.startAddr, fun o b hb hbu hne => ?_⟩
  rcases h1.blocks o b hb hbu hne with ⟨hb', hbytes⟩
  rcases h2.blocks o b hb' hbu hne with ⟨hb'', hbytes'⟩
  exact ⟨hb'', fun x hlo hhi => (hbytes' x hlo hhi).trans (hbytes x hlo hhi)⟩

theorem keeps_all {bs' : List Block} (hk : Keeps h h' bs bs' (fun _ => False)) :
    Keeps h h' bs bs' Except :=
  ⟨hk.startAddr, fun o b hb hbu _ => hk.blocks o b hb hbu not_false⟩

theorem keeps_same (hframe : Frame h h' bs) : Keeps h h' bs bs Except :=
  keeps_frame hframe (fun _ _ hb _ _ => ⟨hb, hb⟩)

variable (Except)

theorem keeps_replace {ls : List Block} {mid mid' : List Block} {rs : List Block}
    (htotal : total size mid' = total size mid)
    (hfs : fs = ls ++ mid ++ rs ∨ fs = ls ++ mid' ++ rs) (hframe : Frame h h' fs)
    (hmid : ∀ o c, Located size mid o c → c.used = true → Except (total size ls + o)) :
    Keeps h h' (ls ++ mid ++ rs) (ls ++ mid' ++ rs) Except := by
  refine keeps_frame hframe (fun o c hc hcu hne => ?_)
  rcases hc.replace mid' htotal with hc' | ⟨hle, hc'⟩
  · refine ⟨?_, hc'⟩
    rcases hfs with rfl | rfl
    · exact hc
    · exact hc'
  · have hexcept := hmid _ c hc' hcu
    rw [Nat.add_sub_cancel' hle] at hexcept
    exact absurd hexcept hne

theorem keeps_join {ls rs : List Block} {b : Block} {c b' : Block}
    (hsize : b'.size = b.size + c.size) (hb : b.used = true → Except (total size ls))
    (hc : c.used = false)
    (hframe : Frame h h' (ls ++ [b, c] ++ rs)) :
    Keeps h h' (ls ++ [b, c] ++ rs) (ls ++ [b'] ++ rs) Except := by
  refine keeps_replace Except ?_ (.inl rfl) hframe (fun o d hd hdu => ?_)
  · simp only [total_cons, total_nil, Nat.add_zero, hsize]
  · rcases hd with ⟨rfl, rfl⟩ | ⟨_, ⟨_, rfl⟩ | ⟨_, hd⟩⟩
    · exact hb hdu
    · exact absurd (hc.symm.trans hdu) Bool.false_ne_true
    · exact hd.elim

theorem keeps_mark {h h' : Heap} (Except : Nat → Prop) {ls rs : List Block} (b b' : Block)
    (hsize : b'.size = b.size) (hb : b.used = true → Except (total size ls))
    (hframe : Frame h h' (ls ++ [b] ++ rs)) :
    Keeps h h' (ls ++ [b] ++ rs) (ls ++ [b'] ++ rs) Except := by
  refine keeps_replace Except ?_ (.inl rfl) hframe (fun o d hd hdu => ?_)
  · simp only [total_cons, total_nil, hsize]
  · rcases hd with ⟨rfl, rfl⟩ | ⟨_, hd⟩
    · exact hb hdu
    · exact hd.elim

end Keeps

section Lists

variable {h : Heap} (h' : Heap) (ls rs : List Block) {bs : List Block} (b c : Block) {fl : List Nat}
  (o n : Nat)

theorem lists_congr (hl : Lists h bs fl) (hframe : Frame h h' bs)
    (hsame : ∀ o, HeaderAt bs o → SameAt h h' o) (hlinks : SameLinks h h' bs) : Lists h' bs fl :=
  ⟨shape_congr hl.shape hframe hsame,
    freeOk_congr h h' bs hframe.startAddr hframe.freeHeader hl.listed hlinks hl.free,
    hl.nodup, hl.listed⟩

theorem lists_count (h : Heap) {k m : BitVec 32} (hl : Lists h bs fl) :
    Lists { h with availableSize := k, maxUsedSize := m } bs fl :=
  lists_congr _ hl (frame_count h bs k m) (fun _ _ _ _ _ => rfl) (fun _ _ => ⟨rfl, rfl⟩)

theorem lists_link (hl : Lists h bs fl) (ho : HeaderAt bs o) (hfresh : o ∉ fl)
    (heq : h.linkFree (h.addr o) = h') :
    Lists h' bs (o :: fl) ∧ Frame h h' bs ∧ h'.availableSize = h.availableSize := by
  rcases linkFree_spec h h' bs hl.shape.place hl.shape.freeList hl.listed hl.nodup ho hfresh
    hl.free heq with ⟨hfree, hframe, havail, hsame⟩
  refine ⟨⟨shape_congr hl.shape hframe hsame, hfree, nodup_cons.mpr ⟨hfresh, hl.nodup⟩,
    fun k hk => ?_⟩, hframe, havail⟩
  rcases mem_cons.mp hk with rfl | hk
  · exact ho
  · exact hl.listed k hk

theorem lists_unlink {xs ys : List Nat} (hl : Lists h bs (xs ++ o :: ys))
    (heq : h.unlinkFree (h.addr o) = h') :
    Lists h' bs (xs ++ ys) ∧ Frame h h' bs ∧ h'.availableSize = h.availableSize := by
  rcases unlinkFree_spec h h' hl.shape.place hl.listed hl.nodup hl.free heq with
    ⟨hfree, hframe, havail, hsame⟩
  have hsub : (xs ++ ys).Sublist (xs ++ o :: ys) :=
    List.Sublist.append_left (sublist_cons_self o ys) xs
  exact ⟨⟨shape_congr hl.shape hframe hsame, hfree, hl.nodup.sublist hsub,
    fun k hk => hl.listed k (hsub.subset hk)⟩, hframe, havail⟩

/-- The links of a block that is not on the free list are of no account. -/
theorem lists_clear {f : Field} {v : BitVec 32} (hf : f = .nextFree ∨ f = .prevFree)
    (hl : Lists h bs fl) (ho : HeaderAt bs o) (hfresh : o ∉ fl)
    (heq : h.set f (h.addr o) v = h') :
    Lists h' bs fl ∧ Frame h h' bs ∧ h'.availableSize = h.availableSize := by
  have hp := hl.shape.place
  rcases heq ▸ (written_refl h).set hp (item_addr h ho) with ⟨hframe, havail, hget⟩
  refine ⟨⟨shape_congr hl.shape hframe (fun o' ho' g hg hg' => ?_), ?_, hl.nodup, hl.listed⟩,
    hframe, havail⟩
  · rw [hget g _ (item_addr h ho'), if_neg]
    rintro ⟨rfl, _⟩
    rcases hf with hf | hf
    · exact hg hf
    · exact hg' hf
  · -- The nodes of the free list are other headers.
    have hmap : fl.map h'.addr = fl.map h.addr :=
      map_congr_left (fun k _ => addr_congr k hframe.startAddr)
    have hother : ∀ a ∈ h.freeHeader :: fl.map h.addr, ∀ g, h'.get g a = h.get g a := by
      intro a ha g
      rw [hget g a (item_node h bs fl hl.listed a ha), if_neg]
      rintro ⟨_, rfl⟩
      rcases mem_cons.mp ha with ha | ha
      · exact addr_ne_head h hp ho ha
      · exact hfresh ((addr_mem_iff h fl hp hl.listed ho).mp ha)
    unfold FreeOk
    rw [hmap, hframe.freeHeader]
    exact Ring.seg_congr h.links h'.links (fun a ha => hother a ha .nextFree)
      (fun a ha => hother a ha .prevFree) hl.free

variable {h' ls rs b n} in
theorem lists_split (hl : Lists h (ls ++ [b] ++ rs) fl) (hn : 36 ≤ n) (hrest : n + 36 ≤ b.size)
    (heq : h.splitItem (h.addr (total size ls)) (h.addr (total size ls + n)) = h') :
    Lists h' (ls ++ [⟨n, b.used⟩, ⟨b.size - n, false⟩] ++ rs) fl ∧
    Frame h h' (ls ++ [⟨n, b.used⟩, ⟨b.size - n, false⟩] ++ rs) ∧
    h'.availableSize = h.availableSize ∧ total size ls + n ∉ fl := by
  rcases splitItem_spec h h' ls rs b n hl.shape hn hrest heq with ⟨hshape, hframe, havail, hlinks⟩
  have hlisted : ∀ o ∈ fl, HeaderAt (ls ++ [⟨n, b.used⟩, ⟨b.size - n, false⟩] ++ rs) o := by
    intro o ho
    refine headerAt_cut ls rs _ ?_ (hl.listed o ho)
    change n + (b.size - n) = b.size
    omega
  refine ⟨⟨hshape, ?_, hl.nodup, hlisted⟩, hframe, havail, fun ho => ?_⟩
  · exact freeOk_congr h h' _ hframe.startAddr hframe.freeHeader hlisted hlinks hl.free
  · exact headerAt_inside ls rs b (by omega) (by omega) (hl.listed _ ho)

theorem lists_merge (hl : Lists h (ls ++ [b, c] ++ rs) fl)
    (hframe : Frame h h' (ls ++ [b, c] ++ rs)) (hfresh : total size ls + b.size ∉ fl)
    (hget : ∀ g a, IsItem h.startAddr h.freeHeader (ls ++ [b, c] ++ rs) a → h'.get g a =
      if Field.next = g ∧ h.addr (total size ls) = a
        then h.addr (total size ls + (b.size + c.size))
      else if Field.prev = g ∧ h.addr (total size ls + (b.size + c.size)) = a
        then h.addr (total size ls)
      else h.get g a) :
    Lists h' (ls ++ [⟨b.size + c.size, b.used⟩] ++ rs) fl := by
  refine ⟨shape_merge h h' ls rs b c hl.shape hframe (fun g a ha _ _ => hget g a ha), ?_, hl.nodup,
    fun o ho => ?_⟩
  · refine freeOk_congr h h' _ hframe.startAddr hframe.freeHeader hl.listed (fun a ha => ?_) hl.free
    rw [hget _ a ha, hget _ a ha]
    simp only [reduceCtorEq, false_and, if_false, and_self]
  · refine headerAt_join ls rs b c o (hl.listed o ho) ?_ rfl
    rintro rfl
    exact hfresh ho

theorem lists_mark {u : Bool} (hl : Lists h (ls ++ [b] ++ rs) fl)
    (heq : h.set .magic (h.addr (total size ls)) (mark u) = h') :
    Lists h' (ls ++ [⟨b.size, u⟩] ++ rs) fl ∧ Frame h h' (ls ++ [b] ++ rs) ∧
      h'.availableSize = h.availableSize := by
  rcases shape_mark h h' ls rs b hl.shape heq with ⟨hshape, hframe, hlinks⟩
  refine ⟨⟨hshape, ?_, hl.nodup, fun o ho => ?_⟩, hframe, ?_⟩
  · exact freeOk_congr h h' _ hframe.startAddr hframe.freeHeader hl.listed hlinks hl.free
  · exact headerAt_mark ls rs b o rfl (hl.listed o ho)
  · rw [← heq]
    rfl

end Lists

end Honeycomb.MemHeap
