import Mathlib.Data.List.Nodup
import Mathlib.Data.List.Perm.Basic

/-!
# Rosters

Threads are in phases, and a list has those whose phase is of one kind, each of them once. So its
length is the number of these threads. A thread that changes its phase gets on the list, gets off
it, or leaves it as it is.

## Main definitions

* `Lists`: A list has the threads in the phases of one kind.

## Theorems

* `lists_keep`, `lists_enter`, `lists_leave`: What a change of phase does.
-/

namespace Honeycomb

open Function List

variable {P : Type}

/-- The list has the threads in the phases of one kind, each of them once. -/
def Lists (l : List Nat) (phase : Nat → P) (kind : P → Bool) : Prop :=
  l.Nodup ∧ ∀ t, t ∈ l ↔ kind (phase t) = true

variable {l : List Nat} (l' : List Nat) {phase : Nat → P} {kind : P → Bool} (t : Nat) (p : P)

/-- Nobody is on the list. -/
theorem lists_nil {kind : P → Bool} (h : ∀ u, kind (phase u) = false) : Lists [] phase kind := by
  refine ⟨nodup_nil, fun u => ⟨fun hmem => absurd hmem not_mem_nil, fun hu => ?_⟩⟩
  rw [h u] at hu
  exact absurd hu (by decide)

variable {t p} in
/-- A thread that is not on the list goes on without getting on it. -/
theorem lists_keep (h : Lists l phase kind) (hold : kind (phase t) = false)
    (hnew : kind p = false) : Lists l (update phase t p) kind := by
  refine ⟨h.1, fun u => ?_⟩
  by_cases hu : u = t
  · rw [hu, update_self, h.2 t, hold, hnew]
  · rw [update_of_ne hu]
    exact h.2 u

theorem lists_enter (h : Lists l phase kind) (hperm : l'.Perm (t :: l))
    (hold : kind (phase t) = false) (hnew : kind p = true) :
    Lists l' (update phase t p) kind := by
  have hnot : t ∉ l := by
    intro hmem
    rw [(h.2 t).mp hmem] at hold
    exact absurd hold (by decide)
  refine ⟨hperm.nodup_iff.mpr (nodup_cons.mpr ⟨hnot, h.1⟩), fun u => ?_⟩
  rw [hperm.mem_iff, mem_cons]
  by_cases hu : u = t
  · rw [hu, update_self, hnew]
    exact ⟨fun _ => rfl, fun _ => .inl rfl⟩
  · rw [update_of_ne hu, ← h.2 u]
    exact ⟨fun hor => hor.resolve_left hu, .inr⟩

variable {l' t p} in
theorem lists_leave (h : Lists l phase kind) (hperm : l.Perm (t :: l'))
    (hnew : kind p = false) : Lists l' (update phase t p) kind := by
  have hnd := nodup_cons.mp (hperm.nodup_iff.mp h.1)
  refine ⟨hnd.2, fun u => ?_⟩
  by_cases hu : u = t
  · rw [hu, update_self, hnew]
    exact ⟨fun hmem => absurd hmem hnd.1, fun h => absurd h (by decide)⟩
  · rw [update_of_ne hu, ← h.2 u, hperm.mem_iff, mem_cons]
    exact ⟨.inr, fun hor => hor.resolve_left hu⟩

end Honeycomb
