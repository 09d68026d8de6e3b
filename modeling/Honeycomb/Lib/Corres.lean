import Honeycomb.Lib.Run

/-!
# Corresponding Computations

The same program over two representations of its data. `Corres R x y` says that
two partial results agree: both are missing, or both are there and related by
`R`. The rules follow the shape of a program, one per construct, so that a
proof that two copies of a program correspond walks down the program once.

A correspondence that may rely on an invariant of the second machine carries
over to whole runs (`exec_corres`).

## Main definitions

* `Corres`: Two partial results agree.

## Theorems

* `Corres.bind`, `Corres.ite`: The rules for sequencing and branching.
* `exec_corres`: Corresponding steps give corresponding runs.
-/

namespace Honeycomb

open Run

variable {α β γ δ : Type}

/-- Two partial results agree: both missing, or both there and related. -/
inductive Corres (R : α → β → Prop) : Option α → Option β → Prop
  | none : Corres R none none
  | some (a : α) (b : β) (h : R a b) : Corres R (some a) (some b)

namespace Corres

variable {x : Option α} {y : Option β} {R : α → β → Prop}

theorem bind (R : α → β → Prop) (S : γ → δ → Prop) {f : α → Option γ} {g : β → Option δ}
    (h : Corres R x y) (hfg : ∀ a b, R a b → Corres S (f a) (g b)) :
    Corres S (x >>= f) (y >>= g) := by
  cases h with
  | none => exact Corres.none
  | some a b hab => exact hfg a b hab

theorem ite (R : α → β → Prop) {p q : Prop} [Decidable p] [Decidable q] {x' : Option α}
    {y' : Option β} (hpq : p ↔ q) (ht : p → Corres R x y) (hf : ¬p → Corres R x' y') :
    Corres R (if p then x else x') (if q then y else y') := by
  by_cases hp : p
  · rw [if_pos hp, if_pos (hpq.mp hp)]
    exact ht hp
  · rw [if_neg hp, if_neg (fun hq => hp (hpq.mpr hq))]
    exact hf hp

theorem map {S : γ → δ → Prop} {f : α → γ} {g : β → δ} (h : Corres R x y)
    (hfg : ∀ a b, R a b → S (f a) (g b)) : Corres S (x.map f) (y.map g) := by
  cases h with
  | none => exact Corres.none
  | some a b hab => exact Corres.some _ _ (hfg a b hab)

/-- A result on the first side has its counterpart on the second. -/
theorem exists_of_some {a : α} (h : Corres R (Option.some a) y) :
    ∃ b, y = Option.some b ∧ R a b := by
  cases h with
  | some a b hab => exact ⟨b, rfl, hab⟩

/-- A value computed the same way on both sides is itself on both sides. -/
theorem refl : Corres Eq x x := by
  cases x with
  | none => exact Corres.none
  | some a => exact Corres.some a a rfl

end Corres

/-- Two machines whose steps correspond wherever the second one's invariant
    holds: what the first can reach is matched by the second. -/
theorem exec_corres {S T A : Type} {step : S → A → Option S} (step' : T → A → Option T)
    (R : S → T → Prop) (I : T → Prop)
    (hstep : ∀ s t a, R s t → I t → Corres R (step s a) (step' t a))
    (hI : ∀ t a t', I t → step' t a = some t' → I t')
    {s s' : S} {t : T} {as : List A} (hs : R s t) (ht : I t) (h : exec step s as = some s') :
    ∃ t', exec step' t as = some t' ∧ R s' t' ∧ I t' := by
  induction as generalizing s t with
  | nil =>
    cases h
    exact ⟨t, rfl, hs, ht⟩
  | cons a as ih =>
    simp only [exec, Option.bind_eq_some_iff] at h
    rcases h with ⟨s1, hs1, hrest⟩
    have hc := hstep s t a hs ht
    rw [hs1] at hc
    rcases Corres.exists_of_some hc with ⟨t1, ht1, hR⟩
    rcases ih hR (hI t a t1 ht ht1) hrest with ⟨t', ht', hlast⟩
    refine ⟨t', ?_, hlast⟩
    simp only [exec, ht1, Option.bind_some]
    exact ht'

end Honeycomb
