import Mathlib.Data.List.Nodup

/-!
# Singly Linked Chains

Lists of cells that are linked by a `next` field, as free lists and queues are
built from them.

A chain is a relation between a pointer and the list of cells it leads to. The
lemmas say what each operation on the pointers does to the list. Cells outside a
chain may be written at will, so two disjoint chains in one array of cells do not
disturb each other.

## Main definitions

* `Chain`: The cells a pointer leads to.

## Theorems

* `chain_update`: Writing to a cell outside the chain.
* `chain_push`: A cell is put in front.
* `chain_snoc`: A cell is put at the end.
* `chain_tail`: The first cell is taken off.
* `chain_map`: The same chain with other names for the cells.
* `chain_range`: Cells that are linked in the order of their numbers.
-/

namespace Honeycomb

open Function List

variable {α : Type}

/-- The cells a pointer leads to, by following `next` to the end. -/
def Chain (next : α → Option α) : Option α → List α → Prop
  | p, [] => p = none
  | p, b :: bs => p = some b ∧ Chain next (next b) bs

section Chain

variable {next : α → Option α} {p : Option α} (b : α) {bs : List α}

theorem chain_congr {next' : α → Option α} (heq : ∀ c ∈ bs, next' c = next c)
    (h : Chain next p bs) : Chain next' p bs := by
  induction bs generalizing p with
  | nil => exact h
  | cons c cs ih =>
    refine ⟨h.1, ?_⟩
    rw [heq c mem_cons_self]
    exact ih (fun d hd => heq d (mem_cons_of_mem c hd)) h.2

theorem chain_head (h : Chain next p bs) : p = bs.head? := by
  cases bs with
  | nil => exact h
  | cons c cs => exact h.1

/-- The first cell is taken off. -/
theorem chain_tail (h : Chain next (some b) bs) : ∃ cs, bs = b :: cs ∧ Chain next (next b) cs := by
  cases bs with
  | nil => exact nomatch h
  | cons c cs =>
    have hc : b = c := Option.some.inj h.1
    rw [hc]
    exact ⟨cs, rfl, h.2⟩

/-- The same chain with other names for the cells. -/
theorem chain_map {β : Type} {next' : β → Option β} {f : α → β}
    (hnext : ∀ b ∈ bs, next' (f b) = (next b).map f) (h : Chain next p bs) :
    Chain next' (p.map f) (bs.map f) := by
  induction bs generalizing p with
  | nil => exact congrArg (Option.map f) h
  | cons c cs ih =>
    refine ⟨congrArg (Option.map f) h.1, ?_⟩
    rw [hnext c mem_cons_self]
    exact ih (fun b hb => hnext b (mem_cons_of_mem c hb)) h.2

theorem chain_range {next : Nat → Option Nat} {n : Nat} (hpos : 0 < n)
    (hnext : ∀ b, next b = if b + 1 < n then some (b + 1) else none) :
    Chain next (some 0) (List.range n) := by
  have hfrom : ∀ k b, b + k + 1 = n → Chain next (some b) (List.range' b (k + 1)) := by
    intro k
    induction k with
    | zero => exact fun b hb => ⟨rfl, (hnext b).trans (if_neg (by omega))⟩
    | succ k ih =>
      intro b hb
      refine ⟨rfl, ?_⟩
      rw [hnext, if_pos (by omega)]
      exact ih (b + 1) (by omega)
  rcases Nat.exists_eq_add_of_lt hpos with ⟨k, rfl⟩
  rw [List.range_eq_range', Nat.zero_add]
  exact hfrom k 0 (by omega)

variable [DecidableEq α]

/-- Writing to a cell outside the chain. -/
theorem chain_update {q : Option α} (hb : b ∉ bs) (h : Chain next p bs) :
    Chain (update next b q) p bs := by
  refine chain_congr (fun c hc => ?_) h
  refine update_of_ne ?_ _ _
  rintro rfl
  exact hb hc

theorem chain_push (hb : b ∉ bs) (h : Chain next p bs) :
    Chain (update next b p) (some b) (b :: bs) := by
  refine ⟨rfl, ?_⟩
  rw [update_self]
  exact chain_update b hb h

/-- A cell that leads nowhere is put at the end: the last cell leads to it. -/
theorem chain_snoc {l : α} (hnd : bs.Nodup) (hb : b ∉ bs) (hlast : bs.getLast? = some l)
    (hnext : next b = none) (h : Chain next p bs) :
    Chain (update next l (some b)) p (bs ++ [b]) := by
  induction bs generalizing p with
  | nil => exact nomatch hlast
  | cons c cs ih =>
    rw [nodup_cons] at hnd
    rw [mem_cons, not_or] at hb
    refine ⟨h.1, ?_⟩
    cases cs with
    | nil =>
      -- The last cell is this one.
      rw [getLast?_singleton, Option.some.injEq] at hlast
      refine ⟨by rw [← hlast, update_self], ?_⟩
      change update next l (some b) b = none
      rw [update_of_ne (by rw [← hlast]; exact hb.1), hnext]
    | cons d ds =>
      rw [getLast?_cons_cons] at hlast
      have hcl : c ≠ l := by
        rintro rfl
        exact hnd.1 (mem_of_getLast? hlast)
      rw [update_of_ne hcl]
      exact ih hnd.2 hb.2 hlast h.2

end Chain

end Honeycomb
