import Mathlib.Data.List.Nodup
import Mathlib.Data.List.Pairwise
import Mathlib.Data.List.Perm.Basic

/-!
# Queues Sorted by Level

A queue whose elements have a key can be kept as one list in the order of arrival, or
as one list for each key. The second is the first one filtered. The lemmas say what an
arrival and a departure do to the lists of the levels.

Nothing is taken from a level but its first element, which is the one of the level that
has arrived first.

## Main definitions

* `level`: The elements of one key, in the order of arrival.

## Theorems

* `level_snoc_self`, `level_snoc_ne`: An element arrives.
* `level_erase_self`, `level_erase_ne`: The first element of a level leaves.
* `level_first`: The first element of a level has arrived before the others.
-/

namespace Honeycomb

open List

variable {α : Type} (key : α → Nat) (queue : List α) {b : α}

/-- The elements of one key. -/
def level (p : Nat) : List α :=
  queue.filter fun b => key b = p

variable {key queue} in
theorem mem_level {p : Nat} : b ∈ level key queue p ↔ b ∈ queue ∧ key b = p := by
  simp only [level, mem_filter, decide_eq_true_eq]

/-- The keys of other elements do not matter. -/
theorem level_congr {key' : α → Nat} (h : ∀ b ∈ queue, key' b = key b) (p : Nat) :
    level key' queue p = level key queue p := by
  refine filter_congr (fun b hb => ?_)
  rw [h b hb]

theorem level_snoc_self (b : α) :
    level key (queue ++ [b]) (key b) = level key queue (key b) ++ [b] := by
  simp only [level, filter_append, filter_cons, filter_nil, decide_true, if_true]

variable {key queue} in
theorem level_snoc_ne {p : Nat} (hp : p ≠ key b) :
    level key (queue ++ [b]) p = level key queue p := by
  simp only [level, filter_append, filter_cons, filter_nil, decide_eq_true_eq,
    if_neg (Ne.symm hp), append_nil]

variable {rest : List α} {p : Nat}

/-- The first element of a level has arrived before the others of the level. -/
theorem level_first {R : α → α → Prop} {c : α} (hsort : queue.Pairwise R)
    (h : level key queue p = b :: rest) (hc : c ∈ queue) (hkey : key c = p) : c = b ∨ R b c := by
  have hlevel : (level key queue p).Pairwise R := hsort.sublist filter_sublist
  have hmem : c ∈ level key queue p := mem_level.mpr ⟨hc, hkey⟩
  rw [h] at hlevel hmem
  rcases mem_cons.mp hmem with heq | hmem
  · exact .inl heq
  · exact .inr ((pairwise_cons.mp hlevel).1 c hmem)

variable [DecidableEq α]

theorem level_erase_self (hnd : queue.Nodup) (h : level key queue p = b :: rest) :
    level key (queue.erase b) p = rest := by
  have hndl : (level key queue p).Nodup := hnd.filter _
  have hcomm : level key (queue.erase b) p = (level key queue p).erase b := by
    rw [hnd.erase_eq_filter, hndl.erase_eq_filter]
    simp only [level, filter_filter, Bool.and_comm]
  rw [hcomm, h, erase_cons_head]

theorem level_erase_ne {p : Nat} (hnd : queue.Nodup) (hp : p ≠ key b) :
    level key (queue.erase b) p = level key queue p := by
  rw [hnd.erase_eq_filter]
  simp only [level, filter_filter]
  refine filter_congr (fun c _ => ?_)
  by_cases hc : key c = p
  · have hcb : c ≠ b := fun heq => hp (by rw [← hc, heq])
    simp only [hc, decide_true, Bool.true_and, bne_iff_ne, ne_eq, hcb, not_false_eq_true]
  · simp only [hc, decide_false, Bool.false_and]

end Honeycomb
