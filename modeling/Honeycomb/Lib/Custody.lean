import Mathlib.Data.List.Perm.Subperm
import Mathlib.Data.List.Range

/-!
# Things That Are on a List or Held by Somebody

A fixed number of things circulate. Each of them is on a list, once, or it is held
by one of several holders, each of which holds at most one. A thing moves when a
holder takes it off the list or gives it back; where on the list it is does not
matter for where the things are.

Several lists are treated as one, their concatenation.

## Main definitions

* `Custody`: Every thing is in exactly one place.

## Theorems

* `custody_perm`: The order on the list does not matter.
* `custody_take`, `custody_give`: The two moves.
* `custody_room`: While something is held, the list is shorter than it could be.
-/

namespace Honeycomb

open Function List

variable {O : Type}

/-- The things below `n` are each on the list once or held by one holder, and nothing else is. -/
structure Custody (n : Nat) (l : List Nat) (holds : O → Option Nat) : Prop where
  nodup : l.Nodup
  bound : ∀ b ∈ l, b < n
  heldBound : ∀ o b, holds o = some b → b < n
  cover : ∀ b < n, b ∈ l ∨ ∃ o, holds o = some b
  apart : ∀ o b, holds o = some b → b ∉ l
  once : ∀ o o' b, holds o = some b → holds o' = some b → o = o'

variable {n : Nat} {l : List Nat} (l' : List Nat) {holds : O → Option Nat}

/-- All things are on the list. -/
theorem custody_all {n : Nat} : Custody n (List.range n) (fun _ : O => none) where
  nodup := nodup_range
  bound := fun _ hb => mem_range.mp hb
  heldBound := fun _ _ h => nomatch h
  cover := fun _ hb => .inl (mem_range.mpr hb)
  apart := fun _ _ h => nomatch h
  once := fun _ _ _ h => nomatch h

/-- The order on the list does not matter. -/
theorem custody_perm (hperm : l.Perm l') (h : Custody n l holds) : Custody n l' holds where
  nodup := hperm.nodup_iff.mp h.nodup
  bound := fun b hb => h.bound b (hperm.mem_iff.mpr hb)
  heldBound := h.heldBound
  cover := fun b hb => (h.cover b hb).imp_left hperm.mem_iff.mp
  apart := fun o b hob hmem => h.apart o b hob (hperm.mem_iff.mpr hmem)
  once := h.once

/-- Not more things are on the list than there are. -/
theorem custody_length (h : Custody n l holds) : l.length ≤ n := by
  have hsub : l ⊆ List.range n := fun b hb => mem_range.mpr (h.bound b hb)
  have hle := (h.nodup.subperm hsub).length_le
  rw [length_range] at hle
  exact hle

variable [DecidableEq O]

/-- A holder goes on with what it has. -/
theorem custody_keep {o : O} {b : Option Nat} (hsame : holds o = b) (h : Custody n l holds) :
    Custody n l (update holds o b) := by
  rw [update_eq_self_iff.mpr hsame.symm]
  exact h

variable {l'} in
/-- A holder that has nothing takes a thing off the list. -/
theorem custody_take {o : O} {b : Nat} (hperm : l.Perm (b :: l')) (hnone : holds o = none)
    (h : Custody n l holds) : Custody n l' (update holds o (some b)) := by
  have h' := custody_perm (b :: l') hperm h
  have hnodup := nodup_cons.mp h'.nodup
  have hother : ∀ p c, p ≠ o → update holds o (some b) p = some c → holds p = some c := by
    intro p c hp hc
    rw [update_of_ne hp] at hc
    exact hc
  have hself : ∀ c, update holds o (some b) o = some c → c = b := by
    intro c hc
    rw [update_self, Option.some.injEq] at hc
    exact hc.symm
  refine ⟨hnodup.2, fun c hc => h'.bound c (mem_cons_of_mem _ hc), fun p c hc => ?_,
    fun c hc => ?_, fun p c hc => ?_, fun p q c hp hq => ?_⟩
  · by_cases hpo : p = o
    · rw [hpo] at hc
      rw [hself c hc]
      exact h'.bound b mem_cons_self
    · exact h'.heldBound p c (hother p c hpo hc)
  · rcases h'.cover c hc with hmem | ⟨p, hp⟩
    · rcases mem_cons.mp hmem with heq | hmem
      · exact .inr ⟨o, by rw [update_self, heq]⟩
      · exact .inl hmem
    -- whoever held it still does
    have hpo : p ≠ o := by
      intro heq
      rw [heq, hnone] at hp
      exact nomatch hp
    exact .inr ⟨p, by rw [update_of_ne hpo]; exact hp⟩
  · by_cases hpo : p = o
    · rw [hpo] at hc
      rw [hself c hc]
      exact hnodup.1
    · intro hmem
      exact h'.apart p c (hother p c hpo hc) (mem_cons_of_mem _ hmem)
  · by_cases hpo : p = o
    · by_cases hqo : q = o
      · rw [hpo, hqo]
      · rw [hpo] at hp
        rw [hself c hp] at hq
        exact absurd mem_cons_self (h'.apart q b (hother q b hqo hq))
    by_cases hqo : q = o
    · rw [hqo] at hq
      rw [hself c hq] at hp
      exact absurd mem_cons_self (h'.apart p b (hother p b hpo hp))
    · exact h'.once p q c (hother p c hpo hp) (hother q c hqo hq)

variable {l'} in
/-- A holder gives its thing back. -/
theorem custody_give {o : O} {b : Nat} (hperm : l'.Perm (b :: l)) (hsome : holds o = some b)
    (h : Custody n l holds) : Custody n l' (update holds o none) := by
  have hother : ∀ p c, update holds o none p = some c → p ≠ o ∧ holds p = some c := by
    intro p c hc
    by_cases hpo : p = o
    · rw [hpo, update_self] at hc
      exact nomatch hc
    · rw [update_of_ne hpo] at hc
      exact ⟨hpo, hc⟩
  refine custody_perm l' hperm.symm ⟨?_, fun c hc => ?_, fun p c hc => ?_,
    fun c hc => ?_, fun p c hc => ?_, fun p q c hp hq => ?_⟩
  · exact nodup_cons.mpr ⟨h.apart o b hsome, h.nodup⟩
  · rcases mem_cons.mp hc with heq | hmem
    · rw [heq]
      exact h.heldBound o b hsome
    · exact h.bound c hmem
  · exact h.heldBound p c (hother p c hc).2
  · rcases h.cover c hc with hmem | ⟨p, hp⟩
    · exact .inl (mem_cons_of_mem _ hmem)
    by_cases hpo : p = o
    · left
      rw [hpo, hsome] at hp
      cases hp
      exact mem_cons_self
    · exact .inr ⟨p, by rw [update_of_ne hpo]; exact hp⟩
  · rcases hother p c hc with ⟨hpo, hpc⟩
    intro hmem
    rcases mem_cons.mp hmem with heq | hmem
    · rw [heq] at hpc
      exact hpo (h.once p o b hpc hsome)
    · exact h.apart p c hpc hmem
  · exact h.once p q c (hother p c hp).2 (hother q c hq).2

/-- While something is held, the list is shorter. -/
theorem custody_room (o : O) {b : Nat} (hsome : holds o = some b) (h : Custody n l holds) :
    l.length < n :=
  custody_length (custody_give (List.Perm.refl _) hsome h)

end Honeycomb
