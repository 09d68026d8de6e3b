import Mathlib.Algebra.GroupWithZero.Nat

/-!
# Runs of a Partial Step Function

A machine is a step function that takes a state and an action and returns the
next state, or nothing when the action is not enabled there. Everything a
client wants to say about such a machine is about whole runs: a property holds
in every state that is passed through, given that every step taken satisfies
some side condition.

A run is given by its list of actions. The step function is a function, so the
list determines the states, and `exec` computes the last of them. `Always` and
`Along` walk the same list, one checking the states and the other the steps, so
that a run can be described without naming its states one by one.

`always_of_inv` is the rule every safety theorem goes through: an invariant
that holds at the start and is preserved by each step satisfying the side
condition holds throughout. `always_iff_along` is its exact form, for a side
condition that is not only enough but also needed.

## Main definitions

* `exec`: The state a list of actions leads to.
* `Reachable`: A state some list of actions leads to.
* `ReachableBy`: The same with actions of one kind only.
* `Always`: A property holds in every state of a run.
* `Along`: A side condition holds at every step of a run.

## Theorems

* `along_mono`: A stronger side condition is enough.
* `exec_append`: A run splits at any point of its action list.
* `reachableBy_trans`, `reachableBy_step`: Runs of one kind of actions are put together
  from steps.
* `reachable_inv`: An invariant preserved by every step holds everywhere.
* `always_of_inv`: An invariant carries a property through a run.
* `along_of_inv`: An invariant carries a property of steps through a run.
* `always_iff_along`: A property holds throughout exactly when every step
  meets its side condition.
-/

namespace Honeycomb.Run

open List Option

variable {S A : Type} (step : S → A → Option S)

/-- The state a list of actions leads to, or `none` if one of them is not
    enabled when its turn comes. -/
def exec : S → List A → Option S
  | s, [] => some s
  | s, a :: as => (step s a).bind fun s' => exec s' as

/-- Some list of actions leads from `s` to `t`. -/
def Reachable (s t : S) : Prop :=
  ∃ as, exec step s as = some t

/-- Some list of actions of the kind `K` leads from `s` to `t`. -/
def ReachableBy (K : A → Prop) (s t : S) : Prop :=
  ∃ as, (∀ a ∈ as, K a) ∧ exec step s as = some t

/-- The property holds in every state the run passes through, its first and last included. -/
def Always (P : S → Prop) : S → List A → Prop
  | s, [] => P s
  | s, a :: as => P s ∧ ∀ s', step s a = some s' → Always P s' as

/-- The side condition holds at every step the run takes. A step that is not
    enabled is not taken, so nothing is asked of it. -/
def Along (C : S → A → Prop) : S → List A → Prop
  | _, [] => True
  | s, a :: as => ∀ s', step s a = some s' → C s a ∧ Along C s' as

/-- A side condition that can be checked at a step can be checked along a run. -/
instance decidableAlong (C : S → A → Prop) [∀ s a, Decidable (C s a)] :
    ∀ s as, Decidable (Along step C s as)
  | _, [] => isTrue trivial
  | s, a :: as =>
    match h : step s a with
    | none => isTrue (fun s' hs' => by
      rw [h] at hs'
      exact nomatch hs')
    | some t =>
      have := decidableAlong C t as
      if hc : C s a ∧ Along step C t as then
        isTrue (fun s' hs' => by
          rw [h] at hs'
          cases hs'
          exact hc)
      else isFalse (fun hall => hc (hall t h))

variable {step} {as : List A} {s t : S} {K : A → Prop}

/-- A stronger side condition is enough. -/
theorem along_mono {C : S → A → Prop} (C' : S → A → Prop) (hCC' : ∀ s a, C s a → C' s a)
    (h : Along step C s as) : Along step C' s as := by
  induction as generalizing s with
  | nil => trivial
  | cons a as ih =>
    intro s' hs'
    rcases h s' hs' with ⟨hc, hrest⟩
    exact ⟨hCC' s a hc, ih hrest⟩

theorem exec_append (bs : List A) (h : exec step s as = some t) :
    exec step s (as ++ bs) = exec step t bs := by
  induction as generalizing s with
  | nil =>
    simp only [exec, some.injEq] at h
    rw [h, nil_append]
  | cons a as ih =>
    simp only [exec, bind_eq_some_iff] at h
    rcases h with ⟨s', hstep, hrest⟩
    simp only [cons_append, exec, hstep, bind_some]
    exact ih hrest

section Views

variable {x : Option S} {P Q : S → Prop} [DecidablePred P]

/-- What a run leads to can be computed, and a result about it drawn from a look at it. -/
theorem exists_of_run (P : S → Prop) [DecidablePred P]
    (h : x.any (fun s => decide (P s)) = true) (hQ : ∀ s, x = some s → P s → Q s) :
    ∃ s, x = some s ∧ Q s := by
  cases x with
  | none => exact nomatch h
  | some s => exact ⟨s, rfl, hQ s rfl (of_decide_eq_true h)⟩

/-- The same for a run that starts where another one ended. -/
theorem exists_of_runs {T : Type} {y : S → Option T} {Q : S → T → Prop} (P : S → T → Prop)
    [∀ s t, Decidable (P s t)] (h : x.any (fun s => (y s).any fun t => decide (P s t)) = true)
    (hQ : ∀ s t, x = some s → y s = some t → P s t → Q s t) :
    ∃ s t, x = some s ∧ y s = some t ∧ Q s t := by
  rcases (Option.any_eq_true _ _).mp h with ⟨s, hs, ht⟩
  rcases (Option.any_eq_true _ _).mp ht with ⟨t, ht, hP⟩
  exact ⟨s, t, hs, ht, hQ s t hs ht (of_decide_eq_true hP)⟩

/-- What is seen is stated, and so is a result. -/
theorem exists_viewed (hQ : ∀ s, x = some s → Q s) (h : x.any (fun s => decide (P s)) = true) :
    ∃ s, x = some s ∧ P s ∧ Q s :=
  exists_of_run P h fun s hs hP => ⟨hP, hQ s hs⟩

/-- The result has a condition, which can be checked. -/
theorem exists_checked {C : S → Prop} [DecidablePred C] (hQ : ∀ s, x = some s → C s → Q s)
    (h : x.any (fun s => decide (C s ∧ P s)) = true) : ∃ s, x = some s ∧ Q s ∧ P s :=
  exists_of_run _ h fun s hs hC => ⟨hQ s hs hC.1, hC.2⟩

end Views

theorem reachableBy_refl {s : S} : ReachableBy step K s s :=
  ⟨[], nofun, rfl⟩

theorem reachableBy_step {a : A} (ha : K a) (h : step s a = some t) : ReachableBy step K s t := by
  refine ⟨[a], fun b hb => ?_, ?_⟩
  · rw [mem_singleton.mp hb]
    exact ha
  · simp only [exec, h, bind_some]

theorem reachableBy_trans {u : S} (h : ReachableBy step K s t) (h' : ReachableBy step K t u) :
    ReachableBy step K s u := by
  rcases h with ⟨as, has, hrun⟩
  rcases h' with ⟨bs, hbs, hrun'⟩
  refine ⟨as ++ bs, fun a ha => ?_, ?_⟩
  · rcases mem_append.mp ha with ha | ha
    · exact has a ha
    · exact hbs a ha
  · rw [exec_append bs hrun]
    exact hrun'

variable (I : S → Prop) {P : S → Prop} {C : S → A → Prop}

/-- An invariant that every step preserves holds in every reachable state. -/
theorem reachable_inv (hstep : ∀ {s a s'}, I s → step s a = some s' → I s') (hs : I s)
    (h : Reachable step s t) : I t := by
  rcases h with ⟨as, has⟩
  induction as generalizing s with
  | nil =>
    cases has
    exact hs
  | cons a as ih =>
    simp only [exec, bind_eq_some_iff] at has
    rcases has with ⟨s', hs', hrest⟩
    exact ih (hstep hs hs') hrest

/-- An invariant that implies the property, and that every admissible step
    preserves, carries the property through an admissible run. -/
theorem always_of_inv (hI : ∀ {s}, I s → P s)
    (hstep : ∀ {s a s'}, I s → C s a → step s a = some s' → I s') (hs : I s)
    (hC : Along step C s as) : Always step P s as := by
  induction as generalizing s with
  | nil => exact hI hs
  | cons a as ih =>
    refine ⟨hI hs, fun s' hs' => ?_⟩
    rcases hC s' hs' with ⟨hc, hC'⟩
    exact ih (hstep hs hc hs') hC'

theorem always_exec {P : S → Prop} (h : Always step P s as) (ht : exec step s as = some t) :
    P t := by
  induction as generalizing s with
  | nil =>
    cases ht
    exact h
  | cons a as ih =>
    simp only [exec, bind_eq_some_iff] at ht
    rcases ht with ⟨s', hs', hrest⟩
    exact ih (h.2 s' hs') hrest

/-- An invariant that every admissible step preserves, and that makes every admissible
    step have a property, gives all steps of an admissible run that property. -/
theorem along_of_inv {P : S → A → Prop}
    (hI : ∀ {s a s'}, I s → C s a → step s a = some s' → P s a ∧ I s') (hs : I s)
    (hC : Along step C s as) : Along step P s as := by
  induction as generalizing s with
  | nil => trivial
  | cons a as ih =>
    intro s' hs'
    rcases hC s' hs' with ⟨hc, hC'⟩
    rcases hI hs hc hs' with ⟨hp, hinv⟩
    exact ⟨hp, ih hinv hC'⟩

/-- The exact form: where the background invariant makes the property after a
    step equivalent to the side condition before it, the property holds
    throughout a run exactly when every step meets the side condition. -/
theorem always_iff_along
    (hstep : ∀ {s a s'}, I s → P s → step s a = some s' → I s' ∧ (P s' ↔ C s a)) (hs : I s)
    (hP : P s) : Always step P s as ↔ Along step C s as := by
  induction as generalizing s with
  | nil => exact ⟨fun _ => trivial, fun _ => hP⟩
  | cons a as ih =>
    constructor
    · intro h s' hs'
      rcases hstep hs hP hs' with ⟨hI', hiff⟩
      have hrest : Always step P s' as := h.2 s' hs'
      -- The property at `s'` is the head of the remaining walk.
      have hP' : P s' := by
        cases as with
        | nil => exact hrest
        | cons b bs => exact hrest.1
      exact ⟨hiff.mp hP', (ih hI' hP').mp hrest⟩
    · intro h
      refine ⟨hP, fun s' hs' => ?_⟩
      rcases hstep hs hP hs' with ⟨hI', hiff⟩
      rcases h s' hs' with ⟨hc, hrest⟩
      exact (ih hI' (hiff.mpr hc)).mpr hrest

end Honeycomb.Run
