import Mathlib.Data.List.Pairwise

/-!
# Queues With Urgent Items

A queue that items join at the end, or at the front if they are urgent, and
leave from the front.

A clock counts the items that have joined or left. Every item carries the time at
which it joined, and the record of what has left carries the time of leaving.
`Precedes` is what the order of the items has to be in terms of these times, and
`Ordered` says that what has left and what is still there are in that order.

## Main definitions

* `Item`, `Deque`: Items with their times, and the queue with its record.
* `Deque.join`, `Deque.leave`, `Deque.drop`: The operations.
* `Precedes`: The order in which two items have to leave.
* `Deque.Ordered`: The record and the queue are in that order.

## Theorems

* `ordered_join`, `ordered_leave`, `ordered_drop`: The operations keep the
  order.
-/

namespace Honeycomb

open List

variable {α : Type}

/-- Something in the queue, with the time at which it joined. -/
structure Item (α : Type) where
  value : α
  urgent : Bool
  joined : Nat

/-- The queue, and what has left it with the times of leaving. -/
structure Deque (α : Type) where
  clock : Nat
  queued : List (Item α)
  left : List (Item α × Nat)

namespace Deque

/-- Nothing has happened. -/
def empty : Deque α :=
  { clock := 0, queued := [], left := [] }

variable (d : Deque α)

/-- The item that joins now. -/
def newest (value : α) (urgent : Bool) : Item α :=
  { value := value, urgent := urgent, joined := d.clock }

/-- An item joins, at the front if it is urgent. -/
def join (value : α) (urgent : Bool) : Deque α :=
  { d with
    clock := d.clock + 1
    queued := if urgent = true then d.newest value urgent :: d.queued
      else d.queued ++ [d.newest value urgent] }

/-- The item at the front leaves. -/
def leave : Deque α :=
  match d.queued with
  | [] => d
  | m :: ms => { clock := d.clock + 1, queued := ms, left := d.left ++ [(m, d.clock)] }

/-- All that is there is dropped. -/
def drop : Deque α :=
  { d with queued := [] }

end Deque

/-- The first item leaves before the second: it joined earlier, and if the
    second is urgent the first had left by then; or it joined later, and is
    urgent. `leftAt` is when the first one left, if it has. -/
def Precedes (x : Item α) (leftAt : Option Nat) (y : Item α) : Prop :=
  (x.joined < y.joined ∧ (y.urgent = true → ∃ time, leftAt = some time ∧ time < y.joined)) ∨
  (y.joined < x.joined ∧ x.urgent = true)

/-- What has left, and what is still there, is in order. -/
structure Deque.Ordered (d : Deque α) : Prop where
  past : d.left.Pairwise (fun x y => Precedes x.1 (some x.2) y.1)
  present : d.queued.Pairwise (fun x y => Precedes x none y)
  between : ∀ x ∈ d.left, ∀ y ∈ d.queued, Precedes x.1 (some x.2) y
  clock : (∀ x ∈ d.left, x.1.joined < d.clock ∧ x.2 < d.clock) ∧ ∀ y ∈ d.queued, y.joined < d.clock

section Ordered

variable {d : Deque α}

theorem ordered_empty : (Deque.empty : Deque α).Ordered :=
  ⟨List.Pairwise.nil, List.Pairwise.nil, nofun, nofun, nofun⟩

theorem ordered_drop (h : d.Ordered) : d.drop.Ordered :=
  ⟨h.past, List.Pairwise.nil, fun _ _ _ hy => absurd hy not_mem_nil, h.clock.1, nofun⟩

/-- The newest item has joined after all others. -/
theorem ordered_join {value : α} {urgent : Bool} (h : d.Ordered) :
    (d.join value urgent).Ordered := by
  have hbetween : ∀ x ∈ d.left, Precedes x.1 (some x.2) (d.newest value urgent) :=
    fun x hx => .inl ⟨(h.clock.1 x hx).1, fun _ => ⟨x.2, rfl, (h.clock.1 x hx).2⟩⟩
  have hmem : ∀ y, y ∈ (d.join value urgent).queued → y = d.newest value urgent ∨ y ∈ d.queued := by
    intro y hy
    unfold Deque.join at hy
    by_cases hu : urgent = true
    · rw [if_pos hu] at hy
      exact mem_cons.mp hy
    · rw [if_neg hu] at hy
      exact (mem_append.mp hy).symm.imp_left mem_singleton.mp
  refine ⟨h.past, ?_, fun x hx y hy => ?_, fun x hx => ?_, fun y hy => ?_⟩
  · unfold Deque.join
    by_cases hu : urgent = true
    · rw [if_pos hu]
      exact pairwise_cons.mpr ⟨fun y hy => .inr ⟨h.clock.2 y hy, hu⟩, h.present⟩
    rw [if_neg hu]
    refine pairwise_append.mpr ⟨h.present, pairwise_singleton _ _, fun x hx y hy => ?_⟩
    rw [mem_singleton.mp hy]
    exact .inl ⟨h.clock.2 x hx, fun hc => absurd hc hu⟩
  · rcases hmem y hy with rfl | hy
    · exact hbetween x hx
    · exact h.between x hx y hy
  · have hold := h.clock.1 x hx
    change x.1.joined < d.clock + 1 ∧ x.2 < d.clock + 1
    omega
  · change y.joined < d.clock + 1
    rcases hmem y hy with rfl | hy
    · exact Nat.lt_succ_self d.clock
    · exact Nat.lt_succ_of_lt (h.clock.2 y hy)

/-- What is in front leaves before everything behind it, and after everything that has left. -/
theorem ordered_leave (h : d.Ordered) : d.leave.Ordered := by
  unfold Deque.leave
  cases hq : d.queued with
  | nil => exact h
  | cons m ms =>
    have hpresent := h.present
    rw [hq, pairwise_cons] at hpresent
    have hlater : ∀ y ∈ ms, Precedes m (some d.clock) y := by
      intro y hy
      rcases hpresent.1 y hy with ⟨hlt, hu⟩ | hlater
      · refine .inl ⟨hlt, fun hc => ?_⟩
        rcases hu hc with ⟨time, htime, _⟩
        exact nomatch htime
      · exact .inr hlater
    have hm : m ∈ d.queued := by
      rw [hq]
      exact mem_cons_self
    have hms : ∀ y ∈ ms, y ∈ d.queued := by
      intro y hy
      rw [hq]
      exact mem_cons_of_mem m hy
    refine ⟨?_, hpresent.2, fun x hx y hy => ?_, fun x hx => ?_, fun y hy => ?_⟩
    · refine pairwise_append.mpr ⟨h.past, pairwise_singleton _ _, fun x hx y hy => ?_⟩
      rw [mem_singleton.mp hy]
      exact h.between x hx m hm
    · rcases mem_append.mp hx with hx | hx
      · exact h.between x hx y (hms y hy)
      · rw [mem_singleton.mp hx]
        exact hlater y hy
    · change x.1.joined < d.clock + 1 ∧ x.2 < d.clock + 1
      rcases mem_append.mp hx with hx | hx
      · have hold := h.clock.1 x hx
        omega
      · rw [mem_singleton.mp hx]
        exact ⟨Nat.lt_succ_of_lt (h.clock.2 m hm), Nat.lt_succ_self d.clock⟩
    · exact Nat.lt_succ_of_lt (h.clock.2 y (hms y hy))

end Ordered

end Honeycomb
