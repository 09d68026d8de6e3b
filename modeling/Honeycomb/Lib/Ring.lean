import Mathlib.Algebra.GroupWithZero.Nat
import Mathlib.Data.List.Nodup

/-!
# Intrusive Circular Lists

The doubly linked list that has its links inside its elements. A list is a ring
of nodes, one of which is the head; the others belong to the items on the list.
Nothing but the links says which ring a node is on, so a node can be taken off
its list without knowing which list that is, and the same operation applied to
a node that is on no list must leave everything as it was.

The operations below are the four pointer writes each of them performs, in the
order in which they are performed. Later writes read the result of earlier
ones, which is why the definitions thread the memory through.

`Seg` says that a chain of links runs from one node through a list of nodes to
another, in both directions. A ring is a segment from a node to itself. The
whole point of segments is that they split at any inner node
(`seg_append`), so that an operation on a ring is an operation on the two
segments that meet at the node it touches.

`Rep` describes the whole memory: every head carries its own ring, no item is
on two rings, and an item on no ring is linked to itself. The theorems at
the end say that the pointer operations act on this description as the obvious
operations on lists do, and they are all a client needs.

## Main definitions

* `Links`: The link fields of all nodes.
* `Links.init`, `Links.insertAfter`, `Links.insertBefore`, `Links.remove`,
  `Links.isempty`: The pointer operations.
* `Links.first`: The item right after a head.
* `Seg`: A doubly linked path between two nodes.
* `Rep`: A memory of links represents a family of lists.

## Theorems

* `seg_append`: A segment splits at an inner node.
* `seg_congr`: A segment survives writes outside of it.
* `rep_remove`: Unlinking a node filters it out of the lists.
* `rep_insertBefore`: Linking a node before a head appends it.
* `rep_insertAfter`: Linking a node after a head prepends it.
* `rep_insertAt`: Linking a node after another puts it behind this one.
* `rep_isempty`, `rep_first`, `rep_prev`, `rep_next`: What the links say about a list.
* `rep_alone`: A node's two neighbours coincide when it is the only one.
-/

namespace Honeycomb

open Function List Sum

/-- The two link fields of every node. -/
@[ext]
structure Links (N : Type) where
  next : N → N
  prev : N → N

namespace Links

variable {N : Type} [DecidableEq N]

variable (m : Links N)

/-- Link a node to itself. -/
def init (l : N) : Links N :=
  { next := update m.next l l, prev := update m.prev l l }

/-- Link node `n` in right after `l`. -/
def insertAfter (l n : N) : Links N :=
  let m := { m with prev := update m.prev (m.next l) n }
  let m := { m with next := update m.next n (m.next l) }
  let m := { m with next := update m.next l n }
  { m with prev := update m.prev n l }

/-- Link node `n` in right before `l`. -/
def insertBefore (l n : N) : Links N :=
  let m := { m with next := update m.next (m.prev l) n }
  let m := { m with prev := update m.prev n (m.prev l) }
  let m := { m with prev := update m.prev l n }
  { m with next := update m.next n l }

/-- Unlink a node from its neighbours and link it to itself. -/
def remove (n : N) : Links N :=
  let m := { m with prev := update m.prev (m.next n) (m.prev n) }
  let m := { m with next := update m.next (m.prev n) (m.next n) }
  { next := update m.next n n, prev := update m.prev n n }

/-- A list is empty when its head is followed by itself. -/
def isempty (l : N) : Bool :=
  m.next l = l

/-- The item a head is followed by. A head that is followed by a head has no item after it. -/
def first {H T : Type} (m : Links (H ⊕ T)) (h : H) : Option T :=
  (m.next (.inl h)).getRight?

end Links

namespace Ring

section Segments

variable {N : Type}

/-- A doubly linked path from `a` through the listed nodes to `b`. -/
def Seg (m : Links N) (a : N) : List N → N → Prop
  | [], b => m.next a = b ∧ m.prev b = a
  | x :: xs, b => m.next a = x ∧ m.prev x = a ∧ Seg m x xs b

/-- A segment splits at any of its inner nodes. -/
theorem seg_append (m : Links N) (a x b : N) (xs ys : List N) :
    Seg m a (xs ++ x :: ys) b ↔ Seg m a xs x ∧ Seg m x ys b := by
  induction xs generalizing a with
  | nil => simp only [nil_append, Seg, and_assoc]
  | cons y xs ih => simp only [cons_append, Seg, ih, and_assoc]

variable {xs ys : List N} {a b l n : N} {m : Links N}

/-- A segment survives every write that misses the forward links out of it
    and the backward links into it. -/
theorem seg_congr (m m' : Links N) (hnext : ∀ x ∈ a :: xs, m'.next x = m.next x)
    (hprev : ∀ x ∈ b :: xs, m'.prev x = m.prev x) (h : Seg m a xs b) : Seg m' a xs b := by
  induction xs generalizing a with
  | nil =>
    rw [Seg] at h ⊢
    rw [hnext a (mem_singleton_self a), hprev b (mem_singleton_self b)]
    exact h
  | cons x xs ih =>
    rcases h with ⟨hax, hxa, hrest⟩
    refine ⟨?_, ?_, ih (fun y hy => hnext y (mem_cons_of_mem a hy)) ?_ hrest⟩
    · rw [hnext a mem_cons_self]
      exact hax
    · rw [hprev x (mem_cons_of_mem b mem_cons_self)]
      exact hxa
    · intro y hy
      rcases mem_cons.mp hy with rfl | hmem
      · exact hprev y mem_cons_self
      · exact hprev y (mem_cons_of_mem b (mem_cons_of_mem x hmem))

/-- The links lead through one list of nodes only. -/
theorem seg_unique (h : Seg m a xs b) (h' : Seg m a ys b) (hx : b ∉ xs) (hy : b ∉ ys) :
    xs = ys := by
  induction xs generalizing a ys with
  | nil =>
    cases ys with
    | nil => rfl
    | cons y ys =>
      rw [h.1.symm.trans h'.1] at hy
      exact absurd mem_cons_self hy
  | cons x xs ih =>
    cases ys with
    | nil =>
      rw [h'.1.symm.trans h.1] at hx
      exact absurd mem_cons_self hx
    | cons y ys =>
      have hxy : x = y := h.1.symm.trans h'.1
      subst hxy
      rw [mem_cons, not_or] at hx hy
      rw [ih h.2.2 h'.2.2 hx.2 hy.2]

/-- The node before the end of a segment lies on the segment. -/
theorem seg_prev_mem (h : Seg m a xs b) : m.prev b ∈ a :: xs := by
  induction xs generalizing a with
  | nil =>
    rw [h.2]
    exact mem_singleton_self a
  | cons x xs ih => exact mem_cons_of_mem a (ih h.2.2)

/-- The node after the start of a segment lies on the segment or ends it. -/
theorem seg_next_mem (h : Seg m a xs b) : m.next a ∈ b :: xs := by
  cases xs with rw [h.1]
  | nil =>
    exact mem_singleton_self b
  | cons x xs =>
    exact mem_cons_of_mem b mem_cons_self

/-- A segment whose last node is linked to another end. -/
theorem seg_end {m' : Links N} {t : N} (hnd : (a :: xs).Nodup) (h : Seg m a xs t)
    (hnext : ∀ x ∈ a :: xs, x ≠ m.prev t → m'.next x = m.next x)
    (hprev : ∀ x ∈ xs, m'.prev x = m.prev x) (hlast : m'.next (m.prev t) = b)
    (hback : m'.prev b = m.prev t) : Seg m' a xs b := by
  induction xs generalizing a with
  | nil =>
    rw [h.2] at hlast hback
    exact ⟨hlast, hback⟩
  | cons x xs ih =>
    rcases h with ⟨hax, hxa, hrest⟩
    rw [nodup_cons] at hnd
    refine ⟨?_, ?_, ih hnd.2 hrest (fun y hy => hnext y (mem_cons_of_mem a hy))
      (fun y hy => hprev y (mem_cons_of_mem x hy))⟩
    · rw [hnext a mem_cons_self (ne_of_mem_of_not_mem (seg_prev_mem hrest) hnd.1).symm]
      exact hax
    · rw [hprev x mem_cons_self]
      exact hxa

/-- A segment whose first node is linked to another start. -/
theorem seg_start {m' : Links N} (hnd : (b :: xs).Nodup) (h : Seg m l xs b)
    (hnext : ∀ x ∈ xs, m'.next x = m.next x)
    (hprev : ∀ x ∈ b :: xs, x ≠ m.next l → m'.prev x = m.prev x)
    (hfirst : m'.next n = m.next l) (hback : m'.prev (m.next l) = n) : Seg m' n xs b := by
  cases xs with
  | nil =>
    rw [h.1] at hfirst hback
    exact ⟨hfirst, hback⟩
  | cons x xs =>
    rw [h.1] at hfirst hback hprev
    simp only [nodup_cons, mem_cons, not_or] at hnd
    refine ⟨hfirst, hback, seg_congr m _ hnext (fun y hy => hprev y ?_ ?_) h.2.2⟩
    · exact mem_cons.mpr ((mem_cons.mp hy).imp_right (mem_cons_of_mem x))
    · rcases mem_cons.mp hy with rfl | hy
      · exact hnd.1.1
      · exact ne_of_mem_of_not_mem hy hnd.2.1

variable [DecidableEq N]

/-- Unlinking a node whose links are already its own changes nothing. -/
theorem remove_self (hn : m.next n = n) (hp : m.prev n = n) : m.remove n = m := by
  have hnext : update m.next n n = m.next := by
    exact update_eq_self_iff.mpr hn.symm
  have hprev : update m.prev n n = m.prev := update_eq_self_iff.mpr hp.symm
  simp only [Links.remove, hn, hp, hprev, hnext]

/-- Unlinking an inner node joins the two segments that met there. -/
theorem seg_remove {t : N} (hnd : (a :: (xs ++ t :: ys)).Nodup) (hb : b ∉ xs ++ t :: ys)
    (hx : Seg m a xs t) (hy : Seg m t ys b) : Seg (m.remove t) a (xs ++ ys) b := by
  have hq := seg_next_mem hy
  have hp := seg_prev_mem hx
  rw [nodup_cons, nodup_append] at hnd
  rcases hnd with ⟨ha, hxs, hys, hdis⟩
  rw [nodup_cons] at hys
  rw [mem_append, mem_cons, not_or, not_or] at ha hb
  have hty : t ∉ b :: ys := not_mem_cons_of_ne_of_not_mem (Ne.symm hb.2.1) hys.1
  have htn : t ≠ m.next t := (ne_of_mem_of_not_mem hq hty).symm
  have htx : t ∉ a :: xs := not_mem_cons_of_ne_of_not_mem (Ne.symm ha.2.1)
    (fun hc => hdis t hc t mem_cons_self rfl)
  have hpt : m.prev t ≠ t := ne_of_mem_of_not_mem hp htx
  -- The forward link of one neighbour moves, and the backward link of the other.
  have hnext : ∀ x, x ≠ t → x ≠ m.prev t → (m.remove t).next x = m.next x := fun x ht hxp => by
    simp only [Links.remove, update_of_ne ht, update_of_ne htn, update_of_ne hxp]
  have hprev : ∀ x, x ≠ t → x ≠ m.next t → (m.remove t).prev x = m.prev x := fun x ht hxn => by
    simp only [Links.remove, update_of_ne ht, update_of_ne hxn]
  have hjoin : Seg (m.remove t) a xs (m.next t) := by
    refine seg_end (nodup_cons.mpr ⟨ha.1, hxs⟩) hx
      (fun x hx hxp => hnext x (ne_of_mem_of_not_mem hx htx) hxp)
      (fun x hx => hprev x (ne_of_mem_of_not_mem hx (fun hc => htx (mem_cons_of_mem a hc)))
        ?_) ?_ ?_
    · rcases mem_cons.mp hq with h | h
      · exact h ▸ ne_of_mem_of_not_mem hx hb.1
      · exact hdis x hx _ (mem_cons_of_mem t h)
    · simp only [Links.remove, update_of_ne hpt, update_of_ne htn, update_self]
    · simp only [Links.remove, update_of_ne (Ne.symm htn), update_self]
  cases ys with
  | nil =>
    rw [append_nil, ← hy.1]
    exact hjoin
  | cons y ys =>
    rcases hy with ⟨hnt, _, hrest⟩
    rw [hnt] at hjoin hprev
    rw [seg_append]
    refine ⟨hjoin, seg_congr m _ (fun x hxy => ?_) (fun x hx => ?_) hrest⟩
    · refine hnext x (ne_of_mem_of_not_mem hxy hys.1) (ne_of_mem_of_not_mem hp (fun hc => ?_)).symm
      rcases mem_cons.mp hc with rfl | hc
      · exact ha.2.2 hxy
      · exact hdis x hc x (mem_cons_of_mem t hxy) rfl
    rw [mem_cons, not_or] at hty
    rcases mem_cons.mp hx with rfl | hx
    · exact hprev x (Ne.symm hty.1) (fun hc => hb.2.2 (hc ▸ mem_cons_self))
    · exact hprev x (ne_of_mem_of_not_mem (mem_cons_of_mem y hx) hty.2)
        (ne_of_mem_of_not_mem hx (nodup_cons.mp hys.2).1)

/-- Linking a fresh node before the end of a segment appends it. -/
theorem seg_insertBefore (hnd : (a :: xs).Nodup) (hl : l ∉ xs) (hn : n ∉ a :: xs) (hnl : n ≠ l)
    (h : Seg m a xs l) : Seg (m.insertBefore l n) a (xs ++ [n]) l := by
  have hpl := seg_prev_mem h
  rw [seg_append]
  refine ⟨seg_end hnd h (fun x hx hxp => ?_) (fun x hx => ?_) ?_ ?_, ?_, ?_⟩
  · simp only [Links.insertBefore, update_of_ne (ne_of_mem_of_not_mem hx hn), update_of_ne hxp]
  · simp only [Links.insertBefore, update_of_ne (ne_of_mem_of_not_mem hx hl),
      update_of_ne (ne_of_mem_of_not_mem (mem_cons_of_mem a hx) hn)]
  · simp only [Links.insertBefore, update_of_ne (ne_of_mem_of_not_mem hpl hn), update_self]
  · simp only [Links.insertBefore, update_of_ne hnl, update_self]
  · simp only [Links.insertBefore, update_self]
  · simp only [Links.insertBefore, update_self]

/-- Linking a fresh node after the start of a segment prepends it. -/
theorem seg_insertAfter {n : N} (hnd : (b :: xs).Nodup) (hl : l ∉ xs) (hn : n ∉ b :: xs)
    (hnl : n ≠ l) (h : Seg m l xs b) : Seg (m.insertAfter l n) l (n :: xs) b := by
  have hnl' := seg_next_mem h
  refine ⟨?_, ?_, seg_start hnd h (fun x hx => ?_) (fun x hx hxq => ?_) ?_ ?_⟩
  · simp only [Links.insertAfter, update_self]
  · simp only [Links.insertAfter, update_self]
  · simp only [Links.insertAfter, update_of_ne (ne_of_mem_of_not_mem hx hl),
      update_of_ne (ne_of_mem_of_not_mem (mem_cons_of_mem b hx) hn)]
  · simp only [Links.insertAfter, update_of_ne (ne_of_mem_of_not_mem hx hn), update_of_ne hxq]
  · simp only [Links.insertAfter, update_of_ne hnl, update_self]
  · simp only [Links.insertAfter, update_of_ne (ne_of_mem_of_not_mem hnl' hn), update_self]

/-- Linking a fresh node after an inner node of a segment puts it between the two
    segments that met there. -/
theorem seg_insertAfter_inner (hnd : (b :: ys).Nodup) (hl : l ∉ ys) (hn : n ∉ b :: ys) (hnl : n ≠ l)
    (hla : l ∉ a :: xs) (hna : n ∉ a :: xs) (hdis : ∀ x ∈ l :: xs, x ∉ b :: ys) (hx : Seg m a xs l)
    (hy : Seg m l ys b) : Seg (m.insertAfter l n) a (xs ++ l :: n :: ys) b := by
  rw [seg_append]
  refine ⟨seg_congr m _ (fun x hx => ?_) (fun x hx => ?_) hx, seg_insertAfter hnd hl hn hnl hy⟩
  · have hxl : x ≠ l := fun hc => hla (hc ▸ hx)
    have hxn : x ≠ n := fun hc => hna (hc ▸ hx)
    simp only [Links.insertAfter, update_of_ne hxl, update_of_ne hxn]
  -- The only backward link that moves is that of the node after `l`.
  have hxq : x ≠ m.next l := fun hc => hdis x hx (hc ▸ seg_next_mem hy)
  have hxn : x ≠ n := by
    intro hc
    rcases mem_cons.mp hx with h1 | h1
    · exact hnl (hc.symm.trans h1)
    · exact hna (hc ▸ mem_cons_of_mem a h1)
  simp only [Links.insertAfter, update_of_ne hxn, update_of_ne hxq]

end Segments

/-- The memory represents the family of lists: each head carries the ring of its list, no item is on
    two lists, and an item on no list is linked to itself. -/
structure Rep {H T : Type} (m : Links (H ⊕ T)) (L : H → List T) : Prop where
  ring : ∀ h, Seg m (.inl h) ((L h).map .inr) (.inl h)
  nodup : ∀ h, (L h).Nodup
  disjoint : ∀ h h' t, t ∈ L h → t ∈ L h' → h = h'
  loose : ∀ t, (∀ h, t ∉ L h) → m.next (.inr t) = .inr t ∧ m.prev (.inr t) = .inr t

section Rep

variable {H T : Type} {t : T}

theorem inl_not_mem_items (h : H) (xs : List T) : (inl h : H ⊕ T) ∉ xs.map inr := by
  intro hc
  rcases mem_map.mp hc with ⟨t, _, ht⟩
  exact nomatch ht

theorem inr_mem_items {xs : List T} : (inr t : H ⊕ T) ∈ xs.map inr ↔ t ∈ xs :=
  mem_map_of_injective fun _ _ => inr.inj

theorem inr_mem_ring {h : H} {xs : List T} :
    (inr t : H ⊕ T) ∈ (inl h : H ⊕ T) :: xs.map inr ↔ t ∈ xs := by
  rw [mem_cons, inr_mem_items, or_iff_right nofun]

theorem nodup_items (h : H) (xs : List T) (hnd : xs.Nodup) :
    ((inl h : H ⊕ T) :: xs.map inr).Nodup :=
  nodup_cons.mpr ⟨inl_not_mem_items h xs, hnd.map (fun _ _ h => inr.inj h)⟩

variable {m : Links (H ⊕ T)} {L : H → List T} {xs : List T}

/-- The ring a node is on, cut at that node. -/
theorem rep_split (hm : Rep m L) (h : H) (ht : t ∈ L h) :
    ∃ xs ys, L h = xs ++ t :: ys ∧ t ∉ xs ∧ t ∉ ys ∧
      Seg m (.inl h) (xs.map .inr) (.inr t) ∧ Seg m (.inr t) (ys.map .inr) (.inl h) := by
  rcases append_of_mem ht with ⟨xs, ys, hxy⟩
  have hnd : (xs ++ t :: ys).Nodup := hxy ▸ hm.nodup h
  have hseg := hm.ring h
  rw [hxy, map_append, map_cons, seg_append] at hseg
  rw [nodup_middle, nodup_cons, mem_append, not_or] at hnd
  exact ⟨xs, ys, hxy, hnd.1.1, hnd.1.2, hseg.1, hseg.2⟩

/-- A ring stays as it is when the writes only touch nodes that are off it. -/
theorem rep_ring_congr {m m' : Links (H ⊕ T)} (hm : Rep m L) {h : H}
    (hnext : ∀ n, n ∈ (inl h : H ⊕ T) :: (L h).map .inr → m'.next n = m.next n)
    (hprev : ∀ n, n ∈ (inl h : H ⊕ T) :: (L h).map .inr → m'.prev n = m.prev n) :
    Seg m' (.inl h) ((L h).map .inr) (.inl h) :=
  seg_congr m m' hnext hprev (hm.ring h)

/-- An item on one ring is no node of another. -/
theorem rep_off_ring (hm : Rep m L) (h h' : H) (hne : h' ≠ h) (n : H ⊕ T)
    (hn : n ∈ (inl h' : H ⊕ T) :: (L h').map .inr) :
    n ∉ (inl h : H ⊕ T) :: (L h).map .inr := by
  intro hc
  rcases mem_cons.mp hn with rfl | hn
  · rcases mem_cons.mp hc with h1 | h1
    · exact hne (inl.inj h1)
    · exact inl_not_mem_items h' (L h) h1
  rcases mem_map.mp hn with ⟨t, ht, rfl⟩
  rcases mem_cons.mp hc with h1 | h1
  · exact nomatch h1
  · exact hne (hm.disjoint h' h t ht (inr_mem_items.mp h1))

/-- A loose item is no node of any ring. -/
theorem loose_not_mem (L : H → List T) (h : H) (t : T) (hloose : ∀ h, t ∉ L h) :
    (inr t : H ⊕ T) ∉ (inl h : H ⊕ T) :: (L h).map .inr :=
  fun hc => hloose h (inr_mem_ring.mp hc)

/-- The item after a head is the first of its list. -/
theorem rep_first (hm : Rep m L) {h : H} : m.first h = (L h).head? := by
  have hseg := hm.ring h
  cases hL : L h with
  | nil =>
    rw [hL, map_nil, Seg] at hseg
    rw [Links.first, hseg.1]
    rfl
  | cons t ts =>
    rw [hL, map_cons, Seg] at hseg
    rw [Links.first, hseg.1]
    rfl

/-- The two neighbours of an item coincide exactly when it is alone on its
    list, both being the head then. -/
theorem rep_alone (hm : Rep m L) {h : H} (ht : t ∈ L h) :
    m.next (.inr t) = m.prev (.inr t) ↔ L h = [t] := by
  rcases rep_split hm h ht with ⟨xs, ys, hxy, htx, hty, hsx, hsy⟩
  have hp := seg_prev_mem hsx
  have hn := seg_next_mem hsy
  have hnd := hm.nodup h
  rw [hxy] at hnd ⊢
  constructor
  · intro heq
    rw [heq] at hn
    -- A common neighbour that is an item would be on both sides of `t`.
    have hhead : m.prev (.inr t) = .inl h := by
      rcases mem_cons.mp hp with h1 | h1
      · exact h1
      rcases mem_cons.mp hn with h2 | h2
      · exact h2
      rcases mem_map.mp h1 with ⟨u, hu, hu'⟩
      rcases mem_map.mp h2 with ⟨v, hv, hv'⟩
      have huv : u = v := inr.inj (hu'.trans hv'.symm)
      have hdis := (nodup_append.mp hnd).2.2 u hu v (mem_cons_of_mem t hv)
      exact absurd huv hdis
    have hxs : xs = [] := by
      refine eq_nil_iff_forall_not_mem.mpr (fun u hu => ?_)
      rcases eq_nil_or_concat xs with hx | ⟨zs, z, rfl⟩
      · cases hx ▸ hu
      rw [concat_eq_append, map_append, map_cons, map_nil, seg_append] at hsx
      have hz' := hsx.2.2
      rw [hhead] at hz'
      exact nomatch hz'
    have hys : ys = [] := by
      cases ys with
      | nil => rfl
      | cons y ys =>
        have hy' := hsy.1
        rw [heq, hhead] at hy'
        exact nomatch hy'
    rw [hxs, hys, nil_append]
  · intro hone
    have hxs : xs = [] := by
      cases xs with
      | nil => rfl
      | cons x xs => simp at hone
    have hys : ys = [] := by
      rw [hxs] at hone
      simpa using hone
    rw [hxs] at hsx
    rw [hys] at hsy
    rw [hsy.1, hsx.2]

variable [DecidableEq H]

/-- The lists after one more item has been put on one of them. -/
theorem rep_of_link {m' : Links (H ⊕ T)} (hm : Rep m L) {h : H} (t : T) (hloose : ∀ h, t ∉ L h)
    (hperm : ∀ u, u ∈ xs ↔ u = t ∨ u ∈ L h) (hnd : xs.Nodup)
    (hseg : Seg m' (.inl h) (xs.map .inr) (.inl h))
    (hoff : ∀ n, n ∉ (inl h : H ⊕ T) :: (L h).map .inr → n ≠ .inr t →
      m'.next n = m.next n ∧ m'.prev n = m.prev n) : Rep m' (update L h xs) := by
  refine ⟨fun h' => ?_, fun h' => ?_, fun h1 h2 u hu1 hu2 => ?_, fun u hu => ?_⟩
  · by_cases hh : h' = h
    · subst hh
      rw [update_self]
      exact hseg
    rw [update_of_ne hh]
    have hne : ∀ n ∈ (inl h' : H ⊕ T) :: (L h').map .inr, n ≠ .inr t := by
      rintro n hn rfl
      exact hloose h' (inr_mem_ring.mp hn)
    have hmiss := fun n hn => hoff n (rep_off_ring hm h h' hh n hn) (hne n hn)
    exact rep_ring_congr hm (fun n hn => (hmiss n hn).1) (fun n hn => (hmiss n hn).2)
  · by_cases hh : h' = h
    · subst hh
      rw [update_self]
      exact hnd
    · rw [update_of_ne hh]
      exact hm.nodup h'
  · -- Only the new item is on a list it was not on before.
    have hold : ∀ h', u ∈ update L h xs h' → u = t ∧ h' = h ∨ u ∈ L h' := by
      intro h' hu
      by_cases hh : h' = h
      · subst hh
        rw [update_self] at hu
        rcases (hperm u).mp hu with hut | hul
        · exact .inl ⟨hut, rfl⟩
        · exact .inr hul
      · rw [update_of_ne hh] at hu
        exact .inr hu
    rcases hold h1 hu1 with ⟨hut, rfl⟩ | hl1
    · rcases hold h2 hu2 with ⟨_, hh2⟩ | hl2
      · rw [hh2]
      · exact absurd hl2 (hut ▸ hloose h2)
    · rcases hold h2 hu2 with ⟨hut, _⟩ | hl2
      · exact absurd hl1 (hut ▸ hloose h1)
      · exact hm.disjoint h1 h2 u hl1 hl2
  · have hut : u ≠ t := by
      rintro rfl
      apply hu h
      rw [update_self]
      exact (hperm u).mpr (.inl rfl)
    have hnone : ∀ h', u ∉ L h' := by
      intro h' hc
      by_cases hh : h' = h
      · subst hh
        apply hu h'
        rw [update_self]
        exact (hperm u).mpr (.inr hc)
      · apply hu h'
        rw [update_of_ne hh]
        exact hc
    have hmiss := hoff (.inr u) (loose_not_mem L h u hnone) (fun hc => hut (inr.inj hc))
    rw [hmiss.1, hmiss.2]
    exact hm.loose u hnone

variable [DecidableEq T]

theorem filter_ne_of_not_mem {xs : List T} (h : t ∉ xs) : xs.filter (· ≠ t) = xs := by
  refine filter_eq_self.mpr (fun x hx => ?_)
  simp only [ne_eq, decide_not, Bool.not_eq_eq_eq_not, Bool.not_true, decide_eq_false_iff_not]
  rintro rfl
  exact h hx

theorem filter_ne_split {xs ys : List T} (hx : t ∉ xs) (hy : t ∉ ys) :
    (xs ++ t :: ys).filter (· ≠ t) = xs ++ ys := by
  rw [filter_append, filter_cons_of_neg (by simp), filter_ne_of_not_mem hx, filter_ne_of_not_mem hy]

variable (hm : Rep m L)
include hm

variable (h : H)

/-- Writes around the node of one ring miss every other ring. -/
theorem remove_off_ring (t : T) (ht : t ∈ L h) (n : H ⊕ T)
    (hn : n ∉ (inl h : H ⊕ T) :: (L h).map .inr) :
    (m.remove (.inr t)).next n = m.next n ∧ (m.remove (.inr t)).prev n = m.prev n := by
  rcases rep_split hm h ht with ⟨xs, ys, hxy, _, hty, hsx, hsy⟩
  have hsub : ∀ k : H ⊕ T, k ∈ (inl h : H ⊕ T) :: xs.map .inr ∨
      k ∈ (inl h : H ⊕ T) :: ys.map .inr → k ≠ n := by
    rintro k hk rfl
    apply hn
    rw [hxy, map_append, map_cons]
    rcases hk with hk | hk
    · rcases mem_cons.mp hk with h1 | h1
      · exact h1 ▸ mem_cons_self
      · exact mem_cons_of_mem _ (mem_append_left _ h1)
    · rcases mem_cons.mp hk with h1 | h1
      · exact h1 ▸ mem_cons_self
      · exact mem_cons_of_mem _ (mem_append_right _ (mem_cons_of_mem _ h1))
  have hp := hsub _ (.inl (seg_prev_mem hsx))
  have hq := hsub _ (.inr (seg_next_mem hsy))
  have htn : n ≠ .inr t := by
    rintro rfl
    apply hn
    rw [hxy, map_append, map_cons]
    exact mem_cons_of_mem _ (mem_append_right _ mem_cons_self)
  -- The links of `t` itself are read after the first write, which misses them.
  have hself : m.next (.inr t) ≠ .inr t := by
    intro hc
    have hmem := seg_next_mem hsy
    rw [hc] at hmem
    exact hty (inr_mem_ring.mp hmem)
  constructor
  · simp only [Links.remove, update_of_ne htn, update_of_ne (Ne.symm hself),
      update_of_ne (Ne.symm hp)]
  · simp only [Links.remove, update_of_ne htn, update_of_ne (Ne.symm hq)]

/-- Unlinking a node filters it out of the lists, whichever list it was on and
    also when it was on none. -/
theorem rep_remove (t : T) : Rep (m.remove (.inr t)) (fun h => (L h).filter (· ≠ t)) := by
  by_cases hon : ∃ h, t ∈ L h
  · rcases hon with ⟨h, ht⟩
    rcases rep_split hm h ht with ⟨xs, ys, hxy, htx, hty, hsx, hsy⟩
    have hoff : ∀ h', h' ≠ h → t ∉ L h' := fun h' hne hc => hne (hm.disjoint h' h t hc ht)
    have hnd := hm.nodup h
    rw [hxy] at hnd
    refine ⟨fun h' => ?_, fun h' => (hm.nodup h').filter _, fun h1 h2 u hu1 hu2 => ?_,
      fun u hu => ?_⟩
    · by_cases hh : h' = h
      · subst hh
        rw [hxy, filter_ne_split htx hty, map_append]
        refine seg_remove ?_ ?_ hsx hsy
        · have hn := nodup_items (H := H) h' (xs ++ t :: ys) hnd
          rwa [map_append, map_cons] at hn
        · have hi := inl_not_mem_items (H := H) h' (xs ++ t :: ys)
          rwa [map_append, map_cons] at hi
      · rw [filter_ne_of_not_mem (hoff h' hh)]
        have hmiss := fun n hn => remove_off_ring hm h t ht n (rep_off_ring hm h h' hh n hn)
        exact rep_ring_congr hm (fun n hn => (hmiss n hn).1) (fun n hn => (hmiss n hn).2)
    · exact hm.disjoint h1 h2 u (mem_filter.mp hu1).1 (mem_filter.mp hu2).1
    · by_cases hut : u = t
      · subst hut
        constructor
        · simp only [Links.remove, update_self]
        · simp only [Links.remove, update_self]
      -- A node that was loose before is away from the ring of `t`.
      have hnone : ∀ h', u ∉ L h' := by
        intro h' hc
        exact hu h' (mem_filter.mpr ⟨hc, by simpa using hut⟩)
      have hmiss := remove_off_ring hm h t ht (.inr u) (loose_not_mem L h u hnone)
      rw [hmiss.1, hmiss.2]
      exact hm.loose u hnone
  · have hnone : ∀ h, t ∉ L h := fun h hc => hon ⟨h, hc⟩
    rcases hm.loose t hnone with ⟨hn, hp⟩
    have hL : (fun h => (L h).filter (· ≠ t)) = L := by
      funext h
      exact filter_ne_of_not_mem (hnone h)
    rw [remove_self hn hp, hL]
    exact hm

/-- Linking a loose node before a head appends it to the head's list. -/
theorem rep_insertBefore (t : T) (hloose : ∀ h, t ∉ L h) :
    Rep (m.insertBefore (.inl h) (.inr t)) (update L h (L h ++ [t])) := by
  have hout := loose_not_mem L h t hloose
  refine rep_of_link hm t hloose (fun u => ?_) ?_ ?_ (fun n hn hnt => ?_)
  · rw [mem_append, mem_singleton, or_comm]
  · refine nodup_append.mpr ⟨hm.nodup h, nodup_singleton t, fun a ha b hb => ?_⟩
    rintro rfl
    rw [mem_singleton] at hb
    exact hloose h (hb ▸ ha)
  · rw [map_append, map_cons, map_nil]
    exact seg_insertBefore (nodup_items h (L h) (hm.nodup h))
      (inl_not_mem_items h (L h)) hout nofun
      (hm.ring h)
  · have hp : n ≠ m.prev (.inl h) := (ne_of_mem_of_not_mem (seg_prev_mem (hm.ring h)) hn).symm
    have hh : n ≠ .inl h := (ne_of_mem_of_not_mem mem_cons_self hn).symm
    constructor
    · simp only [Links.insertBefore, update_of_ne hnt, update_of_ne hp]
    · simp only [Links.insertBefore, update_of_ne hh, update_of_ne hnt]

/-- Linking a loose node after a head puts it first on the head's list. -/
theorem rep_insertAfter (hloose : ∀ h, t ∉ L h) :
    Rep (m.insertAfter (.inl h) (.inr t)) (update L h (t :: L h)) := by
  have hout := loose_not_mem L h t hloose
  refine rep_of_link hm t hloose (fun u => mem_cons) ?_ ?_ (fun n hn hnt => ?_)
  · exact nodup_cons.mpr ⟨hloose h, hm.nodup h⟩
  · exact seg_insertAfter (nodup_items h (L h) (hm.nodup h)) (inl_not_mem_items h (L h)) hout nofun
      (hm.ring h)
  have hq : n ≠ m.next (.inl h) := (ne_of_mem_of_not_mem (seg_next_mem (hm.ring h)) hn).symm
  have hh : n ≠ .inl h := (ne_of_mem_of_not_mem mem_cons_self hn).symm
  constructor
  · simp only [Links.insertAfter, update_of_ne hh, update_of_ne hnt]
  · simp only [Links.insertAfter, update_of_ne hnt, update_of_ne hq]

/-- A head is followed by itself exactly when its list is empty. -/
theorem rep_isempty : m.isempty (.inl h) = (L h).isEmpty := by
  have hseg := hm.ring h
  cases hL : L h with
  | nil =>
    rw [hL, map_nil, Seg] at hseg
    simp only [Links.isempty, hseg.1, decide_true, isEmpty_nil]
  | cons t ts =>
    rw [hL, map_cons, Seg] at hseg
    simp only [Links.isempty, hseg.1, reduceCtorEq, decide_false, isEmpty_cons]

omit hm

/-- The node after the given items of a list, the head if there are none. -/
def lastNode (xs : List T) : H ⊕ T :=
  xs.getLast?.elim (.inl h) .inr

omit [DecidableEq H] [DecidableEq T] in
@[simp]
theorem lastNode_nil : lastNode h ([] : List T) = .inl h := rfl

omit [DecidableEq H] [DecidableEq T] in
@[simp]
theorem lastNode_concat (xs : List T) (t : T) : lastNode h (xs ++ [t]) = .inr t := by
  rw [lastNode, getLast?_concat]
  rfl

omit [DecidableEq H] [DecidableEq T] in
/-- The node a list ends with is the one before its head. -/
theorem rep_prev (hm : Rep m L) (h : H) : m.prev (.inl h) = lastNode h (L h) := by
  have hseg := hm.ring h
  rcases eq_nil_or_concat' (L h) with hL | ⟨xs, t, hL⟩
  · rw [hL] at hseg ⊢
    exact hseg.2
  · rw [hL, map_append, map_cons, map_nil, seg_append] at hseg
    rw [hL, lastNode_concat]
    exact hseg.2.2

omit [DecidableEq H] [DecidableEq T] in
/-- The node after the first items of a list is that of the next item. -/
theorem rep_next (hm : Rep m L) (h : H) (xs ys : List T) (t : T) (hL : L h = xs ++ t :: ys) :
    m.next (lastNode h xs) = .inr t := by
  have hseg := hm.ring h
  rcases eq_nil_or_concat' xs with rfl | ⟨zs, z, rfl⟩
  · rw [hL, nil_append, map_cons] at hseg
    exact hseg.1
  rw [hL, append_assoc, singleton_append, map_append, map_cons, seg_append] at hseg
  rw [lastNode_concat]
  exact hseg.2.1

omit [DecidableEq H] [DecidableEq T] in
/-- The node the first items of a list end with is not the one the list ends with
    if there are more items. -/
theorem lastNode_ne {ys : List T} (hnd : (xs ++ t :: ys).Nodup) :
    lastNode h xs ≠ lastNode h (xs ++ t :: ys) := by
  have hlast : ∃ u ∈ t :: ys, lastNode h (xs ++ t :: ys) = .inr u := by
    rcases eq_nil_or_concat' (t :: ys) with hy | ⟨zs, z, hy⟩
    · exact absurd hy (cons_ne_nil t ys)
    · refine ⟨z, hy ▸ mem_append_right zs mem_cons_self, ?_⟩
      rw [hy, ← append_assoc, lastNode_concat]
  rcases hlast with ⟨u, hu, hlast⟩
  rw [hlast]
  rcases eq_nil_or_concat' xs with hx | ⟨zs, z, hx⟩
  · rw [hx, lastNode_nil]
    exact inl_ne_inr
  rw [hx, lastNode_concat]
  intro hc
  rw [inr.injEq] at hc
  exact (nodup_append.mp hnd).2.2 z (hx ▸ mem_append_right zs mem_cons_self) u hu hc

/-- Linking a loose node after the node the first items of a list end with puts it behind these. -/
theorem rep_insertAt (hm : Rep m L) {h : H} {xs ys : List T} (hL : L h = xs ++ ys)
    (hloose : ∀ h, t ∉ L h) :
    Rep (m.insertAfter (lastNode h xs) (.inr t)) (update L h (xs ++ t :: ys)) := by
  rcases eq_nil_or_concat' xs with hx | ⟨zs, z, hx⟩
  · rw [hx, nil_append] at hL ⊢
    rw [← hL]
    exact rep_insertAfter hm h hloose
  rw [hx, append_assoc, singleton_append] at hL
  have hnd := hm.nodup h
  have hseg := hm.ring h
  have hmem : ∀ u ∈ zs ++ z :: ys, u ≠ t := fun u hu hc => hloose h (hc ▸ hL ▸ hu)
  rw [hL] at hnd
  rw [hL, map_append, map_cons, seg_append] at hseg
  rw [hx, lastNode_concat, append_assoc, singleton_append]
  have hz := nodup_middle.mp hnd
  rw [nodup_cons, mem_append, not_or] at hz
  refine rep_of_link hm t hloose (fun u => ?_) ?_ ?_ (fun n hn hnt => ?_)
  · rw [hL]
    simp only [mem_append, mem_cons]
    tauto
  · have hperm : (zs ++ z :: t :: ys).Perm (t :: (zs ++ z :: ys)) := by
      rw [append_cons zs z (t :: ys), append_cons zs z ys]
      exact perm_middle
    exact hperm.nodup_iff.mpr (nodup_cons.mpr ⟨fun hc => hmem t hc rfl, hnd⟩)
  · rw [map_append, map_cons, map_cons]
    refine seg_insertAfter_inner (nodup_items h ys hz.2.of_append_right) ?_ ?_ ?_
      ?_ ?_ ?_ hseg.1 hseg.2
    · exact fun hc => hz.1.2 (inr_mem_items.mp hc)
    · exact fun hc => hmem t (mem_append_right zs (mem_cons_of_mem z (inr_mem_ring.mp hc))) rfl
    · exact fun hc => hmem z (mem_append_right zs mem_cons_self) (inr.inj hc).symm
    · exact fun hc => hz.1.1 (inr_mem_ring.mp hc)
    · exact fun hc => hmem t (mem_append_left _ (inr_mem_ring.mp hc)) rfl
    intro x hx hc
    rw [← map_cons (f := inr), mem_map] at hx
    rcases hx with ⟨u, hu, rfl⟩
    rw [inr_mem_ring] at hc
    rcases mem_cons.mp hu with rfl | hu
    · exact hz.1.2 hc
    · exact (nodup_append.mp hz.2).2.2 u hu u hc rfl
  · rw [hL, map_append, map_cons] at hn
    have hnz : n ≠ .inr z := by
      rintro rfl
      exact hn (mem_cons_of_mem _ (mem_append_right _ mem_cons_self))
    have hq : n ≠ m.next (.inr z) := by
      rintro rfl
      rcases mem_cons.mp (seg_next_mem hseg.2) with h1 | h1
      · exact hn (h1 ▸ mem_cons_self)
      · exact hn (mem_cons_of_mem _ (mem_append_right _ (mem_cons_of_mem _ h1)))
    constructor
    · simp only [Links.insertAfter, update_of_ne hnz, update_of_ne hnt]
    · simp only [Links.insertAfter, update_of_ne hnt, update_of_ne hq]

end Rep

end Ring

end Honeycomb
