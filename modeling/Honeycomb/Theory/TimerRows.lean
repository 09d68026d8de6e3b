import Honeycomb.Core.Timer
import Mathlib.Data.List.TakeWhile

/-!
# The Rows of the Timer List

What the link nodes of all timers amount to: one list of timers for each row, with
every row a part of the row below it. The calls are described by what they do to
these lists.

The search for the place of a timer goes down the rows. In each it starts behind
timers that it has passed in the row above, and stops before a timer that it does not
pass. So the place it finds in a row lies between the two timers around the place in
the row above, and this is all that is needed for the rows to stay parts of each
other. In which order the timers are does not matter here.

## Main definitions

* `Rows`: The links represent rows, each a part of the one below.
* `insertFrom`: The rows with a timer put on all rows from one on.

## Theorems

* `rows_remove`: A timer is taken off all rows.
* `walkRow_spec`: The search goes on behind all timers it passes.
* `rowHeads_spec`: The places in the rows fit together.
* `rtTimerStart_spec`: A start puts the timer at such a place.
-/

namespace Honeycomb.Timers

open Function Honeycomb.Ring List

variable {level : Nat} {T : Type}

/-- The link nodes of rows of timers. -/
def nodes (rows : Nat → List T) (lvl : Nat) : List (T × Nat) :=
  (rows lvl).map fun t => (t, lvl)

@[simp]
theorem mem_nodes {rows : Nat → List T} {lvl : Nat} {t : T} {i : Nat} :
    (t, i) ∈ nodes rows lvl ↔ t ∈ rows lvl ∧ i = lvl := by
  simp only [nodes, mem_map, Prod.mk.injEq]
  constructor
  · intro h
    rcases h with ⟨u, hu, hut, hi⟩
    exact ⟨hut ▸ hu, hi.symm⟩
  · intro h
    exact ⟨t, h.1, rfl, h.2.symm⟩

/-- The links represent the rows. There are no others, and each is a part of the row below it. -/
structure Rows (level : Nat) (m : Links (Node T)) (rows : Nat → List T) : Prop where
  rep : Rep m (nodes rows)
  out : ∀ lvl, level ≤ lvl → rows lvl = []
  sub : ∀ lvl, lvl + 1 < level → (rows lvl).Sublist (rows (lvl + 1))

variable {rows : Nat → List T} {m : Links (Node T)} {t : T} {rowHead : List (Node T)}
  {s s' : State T}

variable (hr : Rows level m rows)
include hr

theorem rows_nodup (lvl : Nat) : (rows lvl).Nodup :=
  (hr.rep.nodup lvl).of_map

theorem rows_unique {rows' : Nat → List T} (hr' : Rows level m rows') : rows' = rows := by
  funext lvl
  have hitems := seg_unique (hr'.rep.ring lvl) (hr.rep.ring lvl) (inl_not_mem_items _ _)
    (inl_not_mem_items _ _)
  rw [nodes, nodes, map_map, map_map] at hitems
  exact map_injective_iff.mpr (fun t u htu => (Prod.mk.inj (Sum.inr.inj htu)).1) hitems

/-- Every row is a part of every row below it, so the last row has all timers. -/
theorem rows_sub (lvl k : Nat) (h : lvl + k < level) : (rows lvl).Sublist (rows (lvl + k)) := by
  induction k with
  | zero => exact Sublist.refl _
  | succ k ih =>
    have hk : lvl + k < level := by omega
    exact (ih hk).trans (hr.sub (lvl + k) h)

theorem not_mem_rows {t : T} (h : t ∉ rows (level - 1)) (lvl : Nat) : t ∉ rows lvl := by
  intro ht
  by_cases hlvl : lvl < level
  · have hsub := rows_sub hr lvl (level - 1 - lvl) (by omega)
    rw [show lvl + (level - 1 - lvl) = level - 1 by omega] at hsub
    exact h (hsub.subset ht)
  · rw [hr.out lvl (by omega)] at ht
    exact absurd ht not_mem_nil

theorem rows_entry {lvl : Nat} {ts : List T} (h : rows lvl = t :: ts) :
    entry lvl (m.next (.inl lvl)) = some t := by
  have hnext := rep_next hr.rep lvl [] (ts.map fun u => (u, lvl)) (t, lvl) (by rw [nodes, h]; rfl)
  rw [lastNode_nil] at hnext
  rw [hnext, entry, if_pos rfl]

omit hr

theorem timerInit_rows {level : Nat} {tick randomNr : BitVec 32} :
    Rows level (timerInit tick randomNr : State T).links (fun _ => []) := by
  refine ⟨⟨?_, ?_, ?_, ?_⟩, fun _ _ => rfl, fun _ _ => Sublist.refl _⟩
  · intro lvl
    exact ⟨rfl, rfl⟩
  · intro _
    exact nodup_nil
  · intro lvl lvl' n hn
    exact absurd hn not_mem_nil
  · intro n _
    exact ⟨rfl, rfl⟩

section Blocks

variable [DecidableEq T] (s : State T) (t : T) (f : Timer → Timer)

@[simp]
theorem set_self : (s.set t f).timer t = f (s.timer t) :=
  update_self _ _ _

variable {s t f} in
theorem set_of_ne {u : T} (h : u ≠ t) : (s.set t f).timer u = s.timer u :=
  update_of_ne h _ _

end Blocks

section Remove

variable [DecidableEq T]

def without (rows : Nat → List T) (t : T) (lvl : Nat) : List T :=
  (rows lvl).filter (· ≠ t)

theorem mem_without {rows : Nat → List T} {t u : T} {lvl : Nat} :
    u ∈ without rows t lvl ↔ u ∈ rows lvl ∧ u ≠ t := by
  rw [without, mem_filter, decide_eq_true_iff]

theorem rows_isempty (hr : Rows level m rows) (lvl : Nat) :
    m.isempty (.inl lvl) = (rows lvl).isEmpty := by
  rw [rep_isempty hr.rep lvl, nodes, isEmpty_map]

theorem rep_removeAll {rows : Nat → List T} (t : T) (lvls : List Nat) (hm : Rep m (nodes rows)) :
    Rep (lvls.foldl (fun m i => m.remove (.inr (t, i))) m)
      (nodes fun lvl => if lvl ∈ lvls then (rows lvl).filter (· ≠ t) else rows lvl) := by
  induction lvls generalizing m rows with
  | nil =>
    simp only [not_mem_nil, if_false, foldl_nil]
    exact hm
  | cons i lvls ih =>
    have hone := rep_remove hm (t, i)
    have hrow : (fun lvl => (nodes rows lvl).filter (· ≠ (t, i))) =
        nodes (fun lvl => if lvl = i then (rows lvl).filter (· ≠ t) else rows lvl) := by
      funext lvl
      simp only [nodes]
      by_cases hi : lvl = i
      · subst hi
        rw [if_pos rfl, filter_map]
        congr 1
        refine filter_congr (fun u _ => ?_)
        simp only [Function.comp, ne_eq, Prod.mk.injEq, and_true]
      rw [if_neg hi]
      refine filter_eq_self.mpr (fun n hn => ?_)
      rcases mem_map.mp hn with ⟨u, _, rfl⟩
      simp only [ne_eq, Prod.mk.injEq, hi, and_false, not_false_eq_true, decide_true]
    rw [hrow] at hone
    have hrest := ih hone
    rw [foldl_cons]
    convert hrest using 2
    funext lvl
    by_cases hi : lvl = i
    · by_cases hl : lvl ∈ lvls
      · rw [if_pos (mem_cons.mpr (.inl hi)), if_pos hl, if_pos hi, filter_filter]
        simp only [Bool.and_self]
      · rw [if_pos (mem_cons.mpr (.inl hi)), if_neg hl, if_pos hi]
    · simp only [mem_cons, hi, false_or, if_false]

theorem rows_remove (hr : Rows level m rows) (t : T) :
    Rows level (rtTimerRemove level m t) (without rows t) := by
  refine ⟨?_, fun lvl hlvl => ?_, fun lvl hlvl => (hr.sub lvl hlvl).filter _⟩
  · have hrep := rep_removeAll t (range level) hr.rep
    rw [rtTimerRemove]
    convert hrep using 2
    funext lvl
    by_cases hlvl : lvl < level
    · rw [if_pos (mem_range.mpr hlvl), without]
    · rw [if_neg (fun hc => hlvl (mem_range.mp hc)), without, hr.out lvl (by omega), filter_nil]
  · rw [without, hr.out lvl hlvl, filter_nil]

/-- Linking the nodes of a timer that is on no row to themselves changes nothing. -/
theorem rows_init (hr : Rows level m rows) {t : T} (h : t ∉ rows (level - 1)) (lvls : List Nat) :
    lvls.foldl (fun m i => m.init (.inr (t, i))) m = m := by
  induction lvls with
  | nil => rfl
  | cons i lvls ih =>
    have hloose := hr.rep.loose (t, i) (fun lvl hc =>
      not_mem_rows hr h lvl (mem_nodes.mp hc).1)
    have hinit : m.init (.inr (t, i)) = m := by
      ext n
      · exact congrFun (update_eq_self_iff.mpr hloose.1.symm) n
      · exact congrFun (update_eq_self_iff.mpr hloose.2.symm) n
    rw [foldl_cons, hinit]
    exact ih

end Remove

section Search

/-- A place in a row the search can stop at: the timer before it is one that the
    search passes, the timer behind it is not. -/
structure Cut (pass : T → Bool) (row p q : List T) : Prop where
  split : row = p ++ q
  last : ∀ u, p.getLast? = some u → pass u = true
  head : ∀ u, q.head? = some u → pass u = false

/-- The part of a row from the last timer of the place above on. -/
theorem sublist_split {row lower p q : List T} {u : T}
    (hrow : row = p ++ [u] ++ q) (hsub : row.Sublist lower) :
    ∃ xs ys, lower = xs ++ [u] ++ ys ∧ (p ++ [u]).Sublist (xs ++ [u]) ∧ q.Sublist ys := by
  rw [hrow] at hsub
  rcases append_sublist_iff.mp hsub with ⟨l1, l2, rfl, h1, h2⟩
  rcases append_sublist_iff.mp h1 with ⟨k1, k2, rfl, hk1, hk2⟩
  have hu : u ∈ k2 := singleton_sublist.mp hk2
  rcases append_of_mem hu with ⟨zs, ws, rfl⟩
  refine ⟨k1 ++ zs, ws ++ l2, ?_, ?_, ?_⟩
  · simp only [append_assoc, cons_append, nil_append]
  · exact (hk1.trans (sublist_append_left k1 zs)).append (Sublist.refl [u])
  · exact h2.trans (sublist_append_right ws l2)

theorem cut_takeWhile {pass : T → Bool} {row xs ys : List T} (hrow : row = xs ++ ys)
    (hlast : ∀ u, xs.getLast? = some u → pass u = true) :
    Cut pass row (xs ++ ys.takeWhile pass) (ys.dropWhile pass) := by
  refine ⟨?_, fun u hu => ?_, fun u hu => ?_⟩
  · rw [hrow, append_assoc, takeWhile_append_dropWhile]
  · rcases eq_nil_or_concat' (ys.takeWhile pass) with ht | ⟨zs, z, ht⟩
    · rw [ht, append_nil] at hu
      exact hlast u hu
    · rw [ht, ← append_assoc, getLast?_concat] at hu
      cases hu
      exact mem_takeWhile_imp (ht ▸ mem_append_right zs mem_cons_self)
  · have hhead := head?_dropWhile_not pass ys
    rw [hu] at hhead
    exact hhead

theorem cut_below {pass : T → Bool} {row lower p q : List T}
    (hsub : row.Sublist lower) (hcut : Cut pass row p q) :
    ∃ xs ys, lower = xs ++ ys ∧ xs.getLast? = p.getLast? ∧ p.Sublist xs ∧
      q.Sublist (ys.dropWhile pass) := by
  -- Nothing that the search passes can be the first timer behind the place above.
  have hdrop : ∀ ys, q.Sublist ys → q.Sublist (ys.dropWhile pass) := by
    intro ys hq
    cases hqs : q with
    | nil => exact nil_sublist _
    | cons v vs =>
      have hv := hcut.head v (by rw [hqs]; rfl)
      rw [← takeWhile_append_dropWhile (p := pass) (l := ys), hqs] at hq
      rcases sublist_append_iff.mp hq with ⟨l1, l2, hl, h1, h2⟩
      cases l1 with
      | nil =>
        rw [hl]
        exact h2
      | cons w ws =>
        rw [cons_append, cons.injEq] at hl
        have hw := mem_takeWhile_imp (h1.subset mem_cons_self)
        rw [← hl.1, hv] at hw
        exact nomatch hw
  rcases eq_nil_or_concat' p with hp | ⟨p', u, hp⟩
  · refine ⟨[], lower, rfl, by rw [hp], by rw [hp], hdrop lower ?_⟩
    rw [hcut.split, hp, nil_append] at hsub
    exact hsub
  · rcases sublist_split (hp ▸ hcut.split) hsub with ⟨xs, ys, hl, hx, hy⟩
    refine ⟨xs ++ [u], ys, hl, ?_, hp ▸ hx, hdrop ys hy⟩
    rw [hp, getLast?_concat, getLast?_concat]

theorem below_lastNode {lvl : Nat} {p xs : List T} (h : xs.getLast? = p.getLast?) :
    below (lastNode lvl (p.map fun t => (t, lvl))) =
      lastNode (lvl + 1) (xs.map fun t => (t, lvl + 1)) := by
  simp only [lastNode, getLast?_map, h]
  cases p.getLast? with
  | none => rfl
  | some u => rfl

variable [DecidableEq T]

/-- The search goes on behind all timers it passes. -/
theorem walkRow_spec (s : State T) (hr : Rows level s.links rows) (timeout : BitVec 32)
    (lvl fuel : Nat) (xs ys : List T) (hrow : rows lvl = xs ++ ys) (hfuel : ys.length < fuel) :
    walkRow s timeout lvl fuel (lastNode lvl (xs.map fun t => (t, lvl))) =
      some (lastNode lvl ((xs ++ ys.takeWhile (passes s timeout)).map fun t => (t, lvl))) := by
  induction ys generalizing xs fuel with
  | nil =>
    cases fuel with
    | zero => exact absurd hfuel (by omega)
    | succ fuel =>
      -- The row ends here, and the node before the head is this one.
      have hprev := rep_prev hr.rep lvl
      rw [nodes, hrow, append_nil] at hprev
      rw [walkRow, hprev, if_pos rfl, takeWhile_nil, append_nil]
  | cons y ys ih =>
    cases fuel with
    | zero => exact absurd hfuel (by omega)
    | succ fuel =>
      have hnodes : nodes rows lvl = xs.map (fun t => (t, lvl)) ++
          (y, lvl) :: ys.map (fun t => (t, lvl)) := by
        rw [nodes, hrow, map_append, map_cons]
      have hnd := hr.rep.nodup lvl
      rw [hnodes] at hnd
      have hprev := rep_prev hr.rep lvl
      have hnext := rep_next hr.rep lvl _ _ _ hnodes
      have hne := lastNode_ne lvl hnd
      rw [walkRow, hprev, hnodes, if_neg hne, hnext]
      simp only [entry, if_true, some_bind]
      by_cases hpass : passes s timeout y = true
      · have hstep := ih fuel (xs ++ [y]) (by rw [hrow, append_assoc]; rfl)
          (by rw [length_cons] at hfuel; omega)
        rw [map_append, map_cons, map_nil, lastNode_concat] at hstep
        rw [if_pos hpass, hstep, takeWhile_cons_of_pos hpass, append_assoc]
        rfl
      · rw [if_neg hpass, takeWhile_cons_of_neg hpass, append_nil]

/-- The places found in the rows fit together. -/
theorem rowHeads_spec [Fintype T] (s : State T) (hr : Rows level s.links rows) (timeout : BitVec 32)
    (k lvl : Nat) (hk : lvl + k = level) (xs ys : List T) (hrow : rows lvl = xs ++ ys)
    (hlast : ∀ u, xs.getLast? = some u → passes s timeout u = true) :
    ∃ p q : Nat → List T,
      rowHeads s timeout k lvl (lastNode lvl (xs.map fun t => (t, lvl))) =
        some ((range' lvl k).map fun i => lastNode i ((p i).map fun t => (t, i))) ∧
      (∀ i, lvl ≤ i → i < level → Cut (passes s timeout) (rows i) (p i) (q i)) ∧
      (∀ i, lvl ≤ i → i + 1 < level → (p i).Sublist (p (i + 1)) ∧ (q i).Sublist (q (i + 1))) ∧
      (lvl < level → xs.Sublist (p lvl) ∧ q lvl = ys.dropWhile (passes s timeout)) := by
  induction k generalizing lvl xs ys with
  | zero =>
    refine ⟨fun _ => [], fun _ => [], rfl, ?_, ?_, ?_⟩
    all_goals intros; omega
  | succ k ih =>
    have hlen : ys.length < Fintype.card T + 1 := by
      have hnd := rows_nodup hr lvl
      rw [hrow] at hnd
      exact Nat.lt_succ_of_le hnd.of_append_right.length_le_card
    have hwalk := walkRow_spec s hr timeout lvl _ xs ys hrow hlen
    have hcut := cut_takeWhile hrow hlast
    -- The row below is searched from the last timer before the place found here.
    have hlower : ∃ p q : Nat → List T,
        rowHeads s timeout k (lvl + 1) (below (lastNode lvl
          ((xs ++ ys.takeWhile (passes s timeout)).map fun t => (t, lvl)))) =
          some ((range' (lvl + 1) k).map fun i =>
            lastNode i ((p i).map fun t => (t, i))) ∧
        (∀ i, lvl + 1 ≤ i → i < level → Cut (passes s timeout) (rows i) (p i) (q i)) ∧
        (∀ i, lvl + 1 ≤ i → i + 1 < level → (p i).Sublist (p (i + 1)) ∧ (q i).Sublist (q (i + 1))) ∧
        (lvl + 1 < level → (xs ++ ys.takeWhile (passes s timeout)).Sublist (p (lvl + 1)) ∧
          (ys.dropWhile (passes s timeout)).Sublist (q (lvl + 1))) := by
      cases k with
      | zero =>
        refine ⟨fun _ => [], fun _ => [], rfl, ?_, ?_, ?_⟩
        all_goals intros; omega
      | succ k =>
        rcases cut_below (hr.sub lvl (by omega)) hcut with
          ⟨xs', ys', hrow', hlast', hpsub, hqsub⟩
        rcases ih (lvl + 1) (by omega) xs' ys' hrow' (fun u hu => hcut.last u (hlast' ▸ hu))
          with ⟨p, q, hheads, hcuts, hsubs, hfirst⟩
        refine ⟨p, q, ?_, hcuts, hsubs, fun hi => ?_⟩
        · rw [below_lastNode hlast']
          exact hheads
        · rw [(hfirst hi).2]
          exact ⟨hpsub.trans (hfirst hi).1, hqsub⟩
    rcases hlower with ⟨p, q, hheads, hcuts, hsubs, hfirst⟩
    refine ⟨update p lvl (xs ++ ys.takeWhile (passes s timeout)),
      update q lvl (ys.dropWhile (passes s timeout)), ?_, ?_, ?_, ?_⟩
    · simp only [rowHeads, hwalk, hheads, some_bind, Option.pure_def, Option.some.injEq,
        range'_succ, map_cons, update_self, cons.injEq, true_and]
      refine map_congr_left (fun i hi => ?_)
      have hne : i ≠ lvl := by
        rw [mem_range'_1] at hi
        omega
      rw [update_of_ne hne]
    · intro i hi hi'
      by_cases heq : i = lvl
      · rw [heq, update_self, update_self]
        exact hcut
      · rw [update_of_ne heq, update_of_ne heq]
        exact hcuts i (by omega) hi'
    · intro i hi hi'
      have hne : i + 1 ≠ lvl := by omega
      rw [update_of_ne hne, update_of_ne hne]
      by_cases heq : i = lvl
      · rw [heq, update_self, update_self]
        exact hfirst (heq ▸ hi')
      · rw [update_of_ne heq, update_of_ne heq]
        exact hsubs i (by omega) hi'
    · intro _
      rw [update_self, update_self]
      exact ⟨sublist_append_left _ _, rfl⟩

end Search

section Insert

/-- The rows with a timer put at the given places of all rows from one on. -/
def insertFrom (level : Nat) (rows p q : Nat → List T) (t : T) (from_ lvl : Nat) : List T :=
  if from_ ≤ lvl ∧ lvl < level then p lvl ++ t :: q lvl else rows lvl

variable [DecidableEq T] (level : Nat) (rows p q : Nat → List T) (t : T)
  (hsplit : ∀ lvl, lvl < level → rows lvl = p lvl ++ q lvl) (hnot : ∀ lvl, t ∉ rows lvl)

include hsplit hnot

theorem rep_insertFrom {lvl : Nat} (hlvl : lvl < level)
    (hm : Rep m (nodes (insertFrom level rows p q t (lvl + 1)))) :
    Rep (m.insertAfter (lastNode lvl ((p lvl).map fun u => (u, lvl))) (.inr (t, lvl)))
      (nodes (insertFrom level rows p q t lvl)) := by
  have hrow : insertFrom level rows p q t (lvl + 1) lvl = p lvl ++ q lvl := by
    rw [insertFrom, if_neg (by omega), hsplit lvl hlvl]
  have hins := rep_insertAt hm (by rw [nodes, hrow, map_append]) (fun i hc => by
      rw [mem_nodes] at hc
      rw [← hc.2, hrow, ← hsplit lvl hlvl] at hc
      exact hnot lvl hc.1)
  convert hins using 1
  funext i
  by_cases hi : i = lvl
  · rw [hi, update_self, nodes, insertFrom, if_pos ⟨le_refl lvl, hlvl⟩, map_append, map_cons]
  rw [update_of_ne hi, nodes, nodes, insertFrom, insertFrom]
  by_cases hle : lvl ≤ i ∧ i < level
  · rw [if_pos hle, if_pos (by omega)]
  · rw [if_neg hle, if_neg (by omega)]

theorem rep_insertUpper (mask : BitVec 32) (rowHead : List (Node T))
    (hheads : ∀ lvl, lvl < level →
      rowHead.getD lvl (.inl lvl) = lastNode lvl ((p lvl).map fun u => (u, lvl)))
    {n : Nat} (hn : n ≤ level) (tstNr : BitVec 32)
    (hm : Rep m (nodes (insertFrom level rows p q t n))) :
    ∃ lvl, lvl ≤ n ∧ Rep (insertUpper mask rowHead t n tstNr m)
      (nodes (insertFrom level rows p q t lvl)) := by
  induction n generalizing tstNr m with
  | zero => exact ⟨0, le_refl 0, hm⟩
  | succ n ih =>
    rw [insertUpper]
    split_ifs with hbit
    · rw [hheads n (by omega)]
      rcases ih (by omega) _
        (rep_insertFrom level rows p q t hsplit hnot (by omega) hm) with ⟨lvl, hlvl, hrep⟩
      exact ⟨lvl, by omega, hrep⟩
    · exact ⟨n + 1, le_refl _, hm⟩

omit [DecidableEq T] hnot in
theorem sub_insertFrom (hsub : ∀ lvl, lvl + 1 < level → (rows lvl).Sublist (rows (lvl + 1)))
    (hcuts : ∀ lvl, lvl + 1 < level → (p lvl).Sublist (p (lvl + 1)) ∧ (q lvl).Sublist (q (lvl + 1)))
    (from_ lvl : Nat) (hlvl : lvl + 1 < level) :
    (insertFrom level rows p q t from_ lvl).Sublist
      (insertFrom level rows p q t from_ (lvl + 1)) := by
  rw [insertFrom, insertFrom]
  by_cases hfrom : from_ ≤ lvl
  · rw [if_pos (by omega), if_pos (by omega)]
    exact (hcuts lvl hlvl).1.append ((hcuts lvl hlvl).2.cons_cons t)
  rw [if_neg (by omega)]
  by_cases hnext : from_ ≤ lvl + 1
  · rw [if_pos (by omega)]
    refine (hsub lvl hlvl).trans ?_
    rw [hsplit (lvl + 1) hlvl]
    exact (Sublist.refl _).append (sublist_cons_self t _)
  · rw [if_neg (by omega)]
    exact hsub lvl hlvl

theorem rows_insert (mask : BitVec 32) (hr : Rows level m rows) (hlevel : 0 < level)
    (hheads : ∀ lvl, lvl < level →
      rowHead.getD lvl (.inl lvl) = lastNode lvl ((p lvl).map fun u => (u, lvl)))
    (hcuts : ∀ lvl, lvl + 1 < level → (p lvl).Sublist (p (lvl + 1)) ∧ (q lvl).Sublist (q (lvl + 1)))
    (tstNr : BitVec 32) :
    ∃ rows', Rows level (insertRows level mask rowHead t tstNr m) rows' ∧
      rows' (level - 1) = p (level - 1) ++ t :: q (level - 1) := by
  have hstart : Rep m (nodes (insertFrom level rows p q t (level - 1 + 1))) := by
    convert hr.rep using 2
    funext lvl
    rw [insertFrom, if_neg (by omega)]
  have hlast := rep_insertFrom level rows p q t hsplit hnot (by omega) hstart
  rw [← hheads (level - 1) (by omega)] at hlast
  rcases rep_insertUpper level rows p q t hsplit hnot mask rowHead hheads (by omega)
    tstNr hlast with ⟨lvl, hlvl, hrep⟩
  refine ⟨_, ⟨hrep, fun i hi => ?_, sub_insertFrom level rows p q t hsplit hr.sub hcuts lvl⟩, ?_⟩
  · rw [insertFrom, if_neg (by omega), hr.out i hi]
  · rw [insertFrom, if_pos (by omega)]

end Insert

section Start

variable [DecidableEq T] [Fintype T] (level : Nat) (mask : BitVec 32)

/-- The control block of a timer that is started at a tick. -/
def Timer.start (b : Timer) (tick : BitVec 32) : Timer :=
  { b with activated := true, timeoutTick := tick + b.initTick }

/-- What a start makes of the state: the timer is at a place of the last row the
    search can stop at. If there is no other row, it has passed all timers before it. -/
structure Started (s s' : State T) (t : T) (rows rows' : Nat → List T) (p q : List T) : Prop where
  list : Rows level s'.links rows'
  cut : Cut (passes s (s.tick + (s.timer t).initTick)) (without rows t (level - 1)) p q
  only : level = 1 → ∀ u ∈ p, passes s (s.tick + (s.timer t).initTick) u = true
  row : rows' (level - 1) = p ++ t :: q
  timer : s'.timer = update s.timer t ((s.timer t).start s.tick)
  tick : s'.tick = s.tick
  history : s'.history = { s.history with
    starts := s.history.starts + 1
    startNo := update s.history.startNo t s.history.starts
    startTime := update s.history.startTime t (s.timer t).initTick }

omit [Fintype T] in
theorem started_mem {p q : List T} (h : Started level s s' t rows rows' p q) (u : T) :
    u ∈ rows' (level - 1) ↔ u = t ∨ u ∈ rows (level - 1) ∧ u ≠ t := by
  rw [← mem_without, h.cut.split, h.row, mem_append, mem_cons, mem_append]
  tauto

/-- A timer can be started exactly when it is registered and its time is small. -/
theorem rtTimerStart_guard (h : rtTimerStart level mask s t = some s') :
    (s.timer t).registered = true ∧ (s.timer t).initTick < rtTickMax / 2#32 := by
  simp only [rtTimerStart, bind_iff, rtAssert_eq_some, State.set, update_self] at h
  rcases h with ⟨_, hreg, _, hinit, _⟩
  exact ⟨hreg, hinit⟩

/-- The state in which a start searches the rows: the timer is on none of them, and
    has its new deadline. -/
def searched (s : State T) (t : T) : State T :=
  { s with links := rtTimerRemove level s.links t }.set t fun b =>
    { b with activated := false, timeoutTick := s.tick + b.initTick }

theorem rtTimerStart_eq {s : State T} {t : T} (hreg : (s.timer t).registered = true)
    (hinit : (s.timer t).initTick < rtTickMax / 2#32)
    (hheads : rowHeads (searched level s t) (s.tick + (s.timer t).initTick) level 0 (.inl 0) =
      some rowHead) :
    rtTimerStart level mask s t = some
      { timer := update s.timer t ((s.timer t).start s.tick)
        links := insertRows level mask rowHead t (s.randomNr + 1#32) (rtTimerRemove level s.links t)
        tick := s.tick
        randomNr := s.randomNr + 1#32
        history := { s.history with
          starts := s.history.starts + 1
          startNo := update s.history.startNo t s.history.starts
          startTime := update s.history.startTime t (s.timer t).initTick } } := by
  simp only [searched, State.set, hreg] at hheads
  simp only [rtTimerStart, rtAssert, State.set, update_self, update_idem, hreg,
    hinit, if_true, some_bind, hheads, Option.pure_def, Timer.start]

theorem rtTimerStart_spec (hlevel : 0 < level) {s : State T} {t : T} (hr : Rows level s.links rows)
    (hreg : (s.timer t).registered = true) (hinit : (s.timer t).initTick < rtTickMax / 2#32) :
    ∃ s' rows' p q, rtTimerStart level mask s t = some s' ∧
      Started level s s' t rows rows' p q := by
  have hrem := rows_remove hr t
  have hnot : ∀ lvl, t ∉ without rows t lvl := fun lvl hc => (mem_without.mp hc).2 rfl
  rcases rowHeads_spec (searched level s t) hrem (s.tick + (s.timer t).initTick) level 0
    (by omega) [] _ rfl
    (fun u hu => nomatch hu)
    with ⟨p, q, hheads, hcuts, hsubs, hfirst⟩
  have hget : ∀ lvl, lvl < level → ((range' 0 level).map fun i =>
      lastNode i ((p i).map fun u => (u, i))).getD lvl (.inl lvl) =
        lastNode lvl ((p lvl).map fun u => (u, lvl)) := by
    intro lvl hlvl
    rw [getD_eq_getElem?_getD, getElem?_map, getElem?_range' hlvl, Option.map_some,
      Option.getD_some, Nat.one_mul, Nat.zero_add]
  rcases rows_insert level _ p q t (fun lvl hlvl => (hcuts lvl (Nat.zero_le lvl) hlvl).split) hnot
    mask hrem hlevel hget (fun lvl hlvl => hsubs lvl (Nat.zero_le lvl) hlvl)
    (s.randomNr + 1#32) with ⟨rows', hrows', hrow'⟩
  have hcut := hcuts (level - 1) (Nat.zero_le _) (by omega)
  -- The search never meets the timer itself, whose new deadline is already set.
  have hpass : ∀ u, u ∈ without rows t (level - 1) →
      passes (searched level s t) (s.tick + (s.timer t).initTick) u =
        passes s (s.tick + (s.timer t).initTick) u := by
    intro u hu
    have hne : u ≠ t := fun hc => hnot (level - 1) (hc ▸ hu)
    simp only [passes, searched, State.set, update_of_ne hne]
  refine ⟨_, rows', p (level - 1), q (level - 1),
    rtTimerStart_eq level mask hreg hinit hheads, hrows', ⟨hcut.split, ?_, ?_⟩, ?_, hrow', rfl,
    rfl, rfl⟩
  · intro u hu
    rw [← hpass u (by rw [hcut.split]; exact mem_append_left _ (mem_of_getLast? hu))]
    exact hcut.last u hu
  · intro u hu
    rw [← hpass u (by rw [hcut.split]; exact mem_append_right _ (mem_of_head? hu))]
    exact hcut.head u hu
  · intro hone u hu
    rw [← hpass u (by rw [hcut.split]; exact mem_append_left _ hu)]
    subst hone
    have hsplit := hcut.split
    rw [(hfirst hlevel).2, ← takeWhile_append_dropWhile (p := passes (searched 1 s t)
      (s.tick + (s.timer t).initTick)) (l := without rows t (1 - 1))] at hsplit
    exact mem_takeWhile_imp ((append_left_inj _).mp hsplit ▸ hu)

variable {level mask} in
theorem rtTimerStart_cases (hlevel : 0 < level) (hr : Rows level s.links rows)
    (h : rtTimerStart level mask s t = some s') :
    (s.timer t).registered = true ∧ (s.timer t).initTick < rtTickMax / 2#32 ∧
      ∃ rows' p q, Started level s s' t rows rows' p q := by
  have hguard := rtTimerStart_guard level mask h
  rcases rtTimerStart_spec level mask hlevel hr hguard.1 hguard.2 with
    ⟨s'', rows', p, q, hs, hstarted⟩
  rw [h, Option.some.injEq] at hs
  exact ⟨hguard.1, hguard.2, rows', p, q, hs ▸ hstarted⟩

omit [Fintype T] in
variable {level} in
theorem started_of_cleared {p q : List T}
    (h : Started level (s.set t fun b => { b with activated := false }) s' t rows rows' p q) :
    Started level s s' t rows rows' p q := by
  have hpass : passes s (s.tick + (s.timer t).initTick) =
      passes (s.set t fun b => { b with activated := false })
        (s.tick + ((s.set t fun b => { b with activated := false }).timer t).initTick) := by
    funext u
    rw [set_self, passes, passes]
    by_cases hut : u = t
    · rw [hut, set_self]
    · rw [set_of_ne hut]
  refine { h with cut := hpass ▸ h.cut, only := hpass ▸ h.only, timer := ?_, history := ?_ }
  · rw [h.timer, set_self]
    simp only [State.set, update_idem]
    rfl
  · rw [h.history, set_self]
    rfl

end Start

section Calls

variable [DecidableEq T] (level : Nat)

/-- Whether a timer that was on the list, or not, is sure to be on it after a call. -/
def Call.leaves (u : T) (was : Bool) : Call T → Bool
  | .start t => was || decide (u = t)
  | .stop t | .detach t | .delete t => was && decide (u ≠ t)
  | .init .. | .control .. => was

/-- What a call can do. -/
inductive Effect (s : State T) (rows : Nat → List T) : State T → (Nat → List T) → Prop
  | create (t : T) (b : Timer) (hfree : (s.timer t).registered = false)
      (hidle : b.activated = false) : Effect s rows (s.set t fun _ => b) rows
  | start (t : T) (s' : State T) (rows' : Nat → List T) (p q : List T)
      (hreg : (s.timer t).registered = true) (hinit : (s.timer t).initTick < rtTickMax / 2#32)
      (hstarted : Started level s s' t rows rows' p q) : Effect s rows (s'.note t false) rows'
  | idle (t : T) (hreg : (s.timer t).registered = true) (hact : (s.timer t).activated = false) :
      Effect s rows (s.note t true) rows
  | stop (t : T) (hreg : (s.timer t).registered = true) (hact : (s.timer t).activated = true) :
      Effect s rows ((({ s with links := rtTimerRemove level s.links t } : State T).set t fun b =>
        { b with activated := false }).note t true) (without rows t)
  | control (t : T) (f : Timer → Timer) (hreg : (s.timer t).registered = true)
      (hkeep : ∀ b, (f b).registered = b.registered ∧ (f b).activated = b.activated ∧
        (f b).timeoutTick = b.timeoutTick) : Effect s rows (s.set t f) rows
  | release (t : T) (hreg : (s.timer t).registered = true) :
      Effect s rows (rtTimerRelease level s t) (without rows t)

variable {mask : BitVec 32} [Fintype T]

/-- A call has one of these effects, on the timer that it is for. Only timers that are
    registered are on the list, so a new timer is on none of its rows. -/
theorem call_effect (hlevel : 0 < level) (hr : Rows level s.links rows)
    (hreg : ∀ u ∈ rows (level - 1), (s.timer u).registered = true) {c : Call T}
    (h : call level mask s c = some s') : ∃ rows', Effect level s rows s' rows' ∧
      ∀ u was, (was = true → u ∈ rows (level - 1)) → c.leaves u was = true →
        u ∈ rows' (level - 1) := by
  have hwithout : ∀ t u was, (was = true → u ∈ rows (level - 1)) →
      (was && decide (u ≠ t)) = true → u ∈ without rows t (level - 1) := by
    intro t u was hu hwas
    rw [Bool.and_eq_true, decide_eq_true_iff] at hwas
    exact mem_without.mpr ⟨hu hwas.1, hwas.2⟩
  cases c with simp only [call] at h
  | init t isStatic periodic time =>
    simp only [rtTimerInit, bind_iff, rtAssert_eq_some, pure_iff] at h
    rcases h with ⟨_, hfree, h⟩
    have hnot : t ∉ rows (level - 1) := by
      intro hc
      rw [hreg t hc] at hfree
      cases hfree
    have hinit := rows_init hr hnot (range level)
    refine ⟨rows, ?_, fun _ _ => id⟩
    rw [← h]
    simp only [State.set, hinit]
    exact Effect.create t _ hfree rfl
  | start t =>
    simp only [Option.map_eq_some_iff] at h
    rcases h with ⟨s'', hs, h⟩
    rcases rtTimerStart_cases hlevel hr hs with
      ⟨hreg', hinit, rows', p, q, hstarted⟩
    refine ⟨rows', h ▸ Effect.start t s'' rows' p q hreg' hinit hstarted, fun u was hu hwas => ?_⟩
    simp only [Call.leaves, Bool.or_eq_true, decide_eq_true_iff] at hwas
    rw [started_mem level hstarted]
    tauto
  | stop t =>
    simp only [rtTimerStop, bind_iff, Option.map_eq_some_iff, rtAssert_eq_some,
      Option.pure_def] at h
    rcases h with ⟨r, ⟨_, hreg', hr'⟩, h⟩
    split_ifs at hr' with hact
    · rw [Option.some.injEq] at hr'
      rw [← h, ← hr']
      exact ⟨rows, Effect.idle t hreg' hact, fun u was hu hwas => hu (Bool.and_elim_left hwas)⟩
    · rw [Option.some.injEq] at hr'
      rw [← h, ← hr']
      exact ⟨without rows t, Effect.stop t hreg' ((Bool.not_eq_false _).mp hact), hwithout t⟩
  | control t cmd =>
    simp only [rtTimerControl, bind_iff, rtAssert_eq_some, pure_iff] at h
    rcases h with ⟨_, hreg', h⟩
    refine ⟨rows, ?_, fun _ _ => id⟩
    rw [← h]
    cases cmd with
    | getTime =>
      have hid : (s.set t fun b => b) = s := by
        rw [State.set, update_eq_self]
      have heff : Effect level s rows (s.set t fun b => b) rows :=
        Effect.control t _ hreg' (fun b => ⟨rfl, rfl, rfl⟩)
      rw [hid] at heff
      exact heff
    | setTime | setOneshot | setPeriodic =>
      exact Effect.control t _ hreg' (fun _ => ⟨rfl, rfl, rfl⟩)
  | detach t =>
    simp only [rtTimerDetach, bind_iff, rtAssert_eq_some, pure_iff] at h
    rcases h with ⟨_, hreg', _, _, h⟩
    exact ⟨without rows t, h ▸ Effect.release t hreg', hwithout t⟩
  | delete t =>
    simp only [rtTimerDelete, bind_iff, rtAssert_eq_some, pure_iff] at h
    rcases h with ⟨_, hreg', _, _, h⟩
    exact ⟨without rows t, h ▸ Effect.release t hreg', hwithout t⟩

/-- What the turns of a check keep holds when it ends, and then no timer is due. -/
theorem check_keeps {P : List (List (Call T)) → State T → Prop}
    (hturn : ∀ callback callbacks s t s1 s2, P (callback :: callbacks) s →
      firstDue level s = some (some t) → callAll level mask callback (expire level s t) = some s1 →
      afterCallback level mask s1 t = some s2 → P callbacks s2)
    {callbacks : List (List (Call T))} (h : P callbacks s)
    (hc : rtTimerCheck level mask callbacks s = some s') :
    (∃ rest, P rest s') ∧ firstDue level s' = some none := by
  induction callbacks generalizing s with simp only [rtTimerCheck, bind_iff] at hc
  | nil =>
    rcases hc with ⟨due, hdue, hc⟩
    cases due with
    | none =>
      cases hc
      exact ⟨⟨_, h⟩, hdue⟩
    | some t => exact nomatch hc
  | cons callback callbacks ih =>
    rcases hc with ⟨due, hdue, hc⟩
    cases due with
    | none =>
      cases hc
      exact ⟨⟨_, h⟩, hdue⟩
    | some t =>
      simp only [bind_iff] at hc
      rcases hc with ⟨s1, hs1, s2, hs2, hrest⟩
      exact ih (hturn callback callbacks s t s1 s2 h hdue hs1 hs2) hrest

omit [Fintype T] in
theorem firstDue_cons {s : State T} (hr : Rows level s.links rows) {u : T} {us : List T}
    (hrow : rows (level - 1) = u :: us) :
    firstDue level s = some
      (if s.tick - (s.timer u).timeoutTick < rtTickMax / 2#32 then some u else none) := by
  have hempty := rows_isempty hr (level - 1)
  rw [hrow, isEmpty_cons] at hempty
  rw [firstDue, hempty, rows_entry hr hrow]
  rfl

omit [Fintype T] in
theorem firstDue_nil {s : State T} (hr : Rows level s.links rows) (hrow : rows (level - 1) = []) :
    firstDue level s = some none := by
  have hempty := rows_isempty hr (level - 1)
  rw [hrow, isEmpty_nil] at hempty
  rw [firstDue, hempty, if_pos rfl]

end Calls

end Honeycomb.Timers
