import Honeycomb.Core.WorkQueue
import Honeycomb.Theory.Idle
import Honeycomb.Theory.Wait

/-!
# Submitted Work Runs

An item is due from when it is submitted until it is run or cancelled, and the history says which
items are due. The list has exactly these as long as the worker only takes items that are due.

The worker takes the first node of the list without another look at it, and the list can be empty
then: its last item was cancelled after the worker saw it, or the worker was resumed for an item
that it had run before. It suspends itself without another look as well, and an item that is
submitted after the look is not run when its submission resumes the worker too early. `WqCond`
excludes these three, and `wq_lost` has runs with them.

## Theorems

* `work_runs`: Submitted work runs in every run within the condition.
* `wq_lost`: In other runs it does not.
* `completion_wakes_all`: The end of an item resumes every thread that waits for it.
-/

namespace Honeycomb

open Function List Run

/-- The item was submitted, and neither cancelled nor run since. -/
def Due : List WorkEvent → Nat → Prop
  | [], _ => False
  | .submit v :: hist, w => v = w ∨ Due hist w
  | .cancel v :: hist, w => v ≠ w ∧ Due hist w
  | .cancelAll :: _, _ => False
  | .run p :: hist, w => p ≠ .item w ∧ Due hist w

/-- Whatever was run was due. -/
def RunsDue : List WorkEvent → Prop
  | [] => True
  | .run .head :: _ => False
  | .run (.item w) :: hist => Due hist w ∧ RunsDue hist
  | _ :: hist => RunsDue hist

/-- Only items that were due were run, the list has the items that are due, and it is empty when
    the worker is suspended and no submission is in progress. -/
structure WqOk (s : WqSys) : Prop where
  runs : RunsDue s.hist
  queued : ∀ w, w ∈ s.q.workList ↔ Due s.hist w
  idle : s.suspended = true → (∀ t, s.resuming t = false) → s.q.workList = []

/-- What the steps keep: the worker has an item ahead of it when it is about to take one, and
    someone is about to resume it when it sleeps, or goes to sleep, with items in the list. -/
structure WqInv (s : WqSys) : Prop where
  runs : RunsDue s.hist
  queued : ∀ w, w ∈ s.q.workList ↔ Due s.hist w
  nodup : s.q.workList.Nodup
  current : s.q.workCurrent ≠ none → s.pc = .run
  asleep : s.suspended = true → s.pc = .take
  take : s.pc = .take → s.suspended = false → s.q.workList ≠ []
  wake : s.pc = .suspend ∨ s.suspended = true → s.q.workList ≠ [] → ∃ t, s.resuming t = true

/-- The worker is not resumed between its look at the list and its suspension, and not for an empty
    list. The last item is not cancelled when the worker is about to take it. -/
def WqCond (s : WqSys) : WqAction → Prop
  | .resume _ => s.pc ≠ .suspend ∧ (s.suspended = true → s.q.workList ≠ [])
  | .cancel w => s.pc = .take → s.suspended = false → s.q.workList.erase w ≠ []
  | .cancelAll => s.pc = .take → s.suspended = true
  | _ => True

instance (s : WqSys) : (a : WqAction) → Decidable (WqCond s a)
  | .worker | .submit _ _ _ => isTrue trivial
  | .resume _ => inferInstanceAs (Decidable (s.pc ≠ .suspend ∧ _))
  | .cancel _ => inferInstanceAs (Decidable (s.pc = .take → s.suspended = false → _))
  | .cancelAll => inferInstanceAs (Decidable (s.pc = .take → s.suspended = true))

section Steps

variable {s : WqSys}

theorem workerStep_inv (hinv : WqInv s) (hs : s.suspended = false) : WqInv (workerStep s) := by
  have hawake : ¬ s.suspended = true := by rw [hs]; exact Bool.false_ne_true
  cases hpc : s.pc with
  | test =>
    have hcur : ¬ s.q.workCurrent ≠ none := fun h => absurd (hinv.current h) (by rw [hpc]; decide)
    simp only [workerStep, hpc]
    split
    · next hnil =>
      exact { hinv with
        current := fun h => absurd h hcur
        asleep := fun h => absurd h hawake
        take := nofun
        wake := fun _ h => absurd hnil h }
    next hne =>
    exact { hinv with
      current := fun h => absurd h hcur
      asleep := fun _ => rfl
      take := fun _ _ => hne
      wake := fun h => absurd h (by simp only [hs]; decide) }
  | suspend =>
    simp only [workerStep, hpc]
    exact { hinv with
      current := fun h => absurd (hinv.current h) (by rw [hpc]; decide)
      asleep := fun _ => rfl
      take := nofun
      wake := fun _ => hinv.wake (.inl hpc) }
  | take =>
    -- The list has an item, and the first one is due.
    rcases hl : s.q.workList with _ | ⟨v, rest⟩
    · exact absurd hl (hinv.take hpc hs)
    have hq := hinv.queued
    have hnd := hinv.nodup
    rw [hl] at hq hnd
    have hv := (nodup_cons.mp hnd).1
    simp only [workerStep, hpc, takeWork, hl]
    refine ⟨⟨(hq v).mp mem_cons_self, hinv.runs⟩, fun w => ?_, (nodup_cons.mp hnd).2,
      fun _ => rfl, fun h => absurd h hawake, nofun,
      fun h => absurd h (by simp only [hs]; decide)⟩
    simp only [Due, ← hq, mem_cons, ne_eq, WorkPtr.item.injEq]
    constructor
    · intro hw
      exact ⟨fun he => hv (he ▸ hw), .inr hw⟩
    · rintro ⟨hne, he | hw⟩
      · exact absurd he.symm hne
      · exact hw
  | run =>
    simp only [workerStep, hpc]
    exact { hinv with
      current := fun h => absurd rfl h
      asleep := fun h => absurd h hawake
      take := nofun
      wake := fun h => absurd h (by simp only [hs]; decide) }

theorem submit_inv {t work : Nat} (hinv : WqInv s) :
    WqInv { s with
      q := { s.q with workList := s.q.workList.erase work ++ [work] }
      resuming := update s.resuming t s.q.workCurrent.isNone
      hist := .submit work :: s.hist } := by
  refine ⟨hinv.runs, fun w => ?_, ?_, hinv.current, hinv.asleep,
    fun _ _ => append_ne_nil_of_right_ne_nil _ (cons_ne_nil _ _), fun h _ => ⟨t, ?_⟩⟩
  · simp only [Due, ← hinv.queued, mem_append, hinv.nodup.mem_erase_iff, mem_singleton]
    grind
  · refine List.Nodup.append (hinv.nodup.erase work) (nodup_singleton work) ?_
    exact disjoint_singleton.mpr fun h => (hinv.nodup.mem_erase_iff.mp h).1 rfl
  -- A worker that sleeps or goes to sleep has no item, so the submission is about to resume it.
  refine (update_self t _ _).trans (Option.isNone_iff_eq_none.mpr ?_)
  by_contra hne
  have hpc := hinv.current hne
  rcases h with h | h
  · exact absurd (h.symm.trans hpc) (by decide)
  · exact absurd ((hinv.asleep h).symm.trans hpc) (by decide)

theorem resume_inv {t : Nat} (hinv : WqInv s) (hcond : WqCond s (.resume t)) :
    WqInv { s with suspended := false, resuming := update s.resuming t false } := by
  refine { hinv with asleep := nofun, take := fun hpc _ => ?_, wake := fun h => absurd h ?_ }
  · cases hs : s.suspended with
    | true => exact hcond.2 hs
    | false => exact hinv.take hpc hs
  · rintro (h | h)
    · exact hcond.1 h
    · exact nomatch h

theorem cancel_inv {l : List Nat} {e : WorkEvent} (hinv : WqInv s) (hruns : RunsDue (e :: s.hist))
    (hqueued : ∀ w, w ∈ l ↔ Due (e :: s.hist) w) (hsub : l.Sublist s.q.workList)
    (htake : s.pc = .take → s.suspended = false → l ≠ []) :
    WqInv { s with q := { s.q with workList := l }, hist := e :: s.hist } :=
  ⟨hruns, hqueued, hinv.nodup.sublist hsub, hinv.current, hinv.asleep, htake,
    fun h hne => hinv.wake h fun hnil => hne (sublist_nil.mp (hnil ▸ hsub))⟩

theorem erase_all (l : List Nat) : l.foldl List.erase l = [] := by
  induction l with
  | nil => rfl
  | cons w l ih => rw [foldl_cons, erase_cons_head, ih]

theorem wqStep_inv {a : WqAction} {s' : WqSys} (hinv : WqInv s) (hcond : WqCond s a)
    (h : wqStep s a = some s') : WqInv s' := by
  cases a with simp only [wqStep, bind_iff, assert_iff, pure_iff] at h
  | worker =>
    rcases h with ⟨hs, rfl⟩
    exact workerStep_inv hinv hs
  | submit t critical work =>
    simp only [rtWorkqueueCriticalWork, ite_self] at h
    rcases h with ⟨ht, rfl⟩
    by_cases hcur : s.q.workCurrent = some (.item work)
    · simp only [rtWorkqueueDowork, hcur, if_true, reduceCtorEq, if_false]
      rw [← ht, update_eq_self]
      exact hinv
    · simp only [rtWorkqueueDowork, hcur, if_false, if_true]
      exact submit_inv hinv
  | resume t =>
    rcases h with ⟨_, rfl⟩
    exact resume_inv hinv hcond
  | cancel work =>
    cases h
    by_cases hcur : s.q.workCurrent = some (.item work)
    · simp only [rtWorkqueueCancelWork, hcur, if_true, reduceCtorEq, if_false]
      exact hinv
    simp only [rtWorkqueueCancelWork, hcur, if_false, if_true]
    refine cancel_inv hinv hinv.runs (fun w => ?_) erase_sublist hcond
    rw [hinv.nodup.mem_erase_iff, hinv.queued, ne_comm]
    rfl
  | cancelAll =>
    simp only [rtWorkqueueCancelAllWork, erase_all] at h
    cases h
    refine cancel_inv hinv hinv.runs (fun w => ?_) (nil_sublist _)
      (fun hpc hs => absurd ((hcond hpc).symm.trans hs) (by decide))
    exact iff_of_false not_mem_nil id

end Steps

/-- Submitted work runs and nothing else does, in every run in which the worker is resumed for an
    item that it has to sleep for, and has an item left to take. -/
theorem work_runs (as : List WqAction) (hcond : Along wqStep WqCond wqInit as) :
    Always wqStep WqOk wqInit as := by
  refine always_of_inv WqInv (fun hinv => ⟨hinv.runs, hinv.queued, ?_⟩) wqStep_inv ?_ hcond
  · intro hs hnone
    by_contra hne
    rcases hinv.wake (.inr hs) hne with ⟨t, ht⟩
    exact absurd ((hnone t).symm.trans ht) (by decide)
  · refine ⟨trivial, fun w => ?_, nodup_nil, fun h => absurd rfl h, nofun, nofun,
      fun _ h => absurd rfl h⟩
    exact iff_of_false not_mem_nil id

/-- One item is submitted twice and run, and another one is cancelled. -/
theorem work_runs_twice :
    Always wqStep WqOk wqInit
      [.worker, .worker, .submit 0 false 7, .submit 1 true 7, .submit 2 false 8, .resume 0,
        .cancel 8, .worker, .resume 1, .submit 3 false 7, .worker, .resume 2, .worker, .worker] :=
  work_runs _ (by decide +kernel)

/-- An item is submitted after the worker looked at the list, and the worker is suspended with it
    in the list. An item is cancelled after the worker was resumed for it, and the worker runs what
    it takes the list itself for. -/
theorem wq_lost :
    (∃ s, exec wqStep wqInit [.worker, .submit 0 false 7, .resume 0, .worker] = some s ∧
        s.suspended = true ∧ (∀ t, s.resuming t = false) ∧ s.q.workList = [7]) ∧
      (exec wqStep wqInit [.worker, .worker, .submit 0 false 7, .resume 0, .cancel 7,
          .worker]).map WqSys.hist = some [.run .head, .cancel 7, .submit 7] := by
  refine ⟨⟨_, rfl, rfl, fun t => ?_, rfl⟩, by decide +kernel⟩
  refine (congrFun (update_idem _ _ _) t).trans ?_
  exact (update_apply _ _ _ t).trans (ite_self _)

section Completion

open Kernel ThreadLists

variable {prioMax : Nat} {list : Head} {worker : Tid} {k : Kernel Queues} {sem : Semaphore}
  {ws : List Tid}

variable (hP : prioMax ≤ 256) (hlist : list.IsWait) (hk : ReadyInv prioMax k)
include hP hlist hk

/-- With the scheduler locked, a release hands over to the first thread that waits. -/
theorem release_wakes {w : Tid} (sem : Semaphore) (hlock : k.lockNest ≠ 0)
    (hws : k.lists list = w :: ws) (hw : w ∉ ws) (hs : k.state w = .suspend)
    (htimer : (k.thread w).threadTimer.registered = true) :
    ∃ k', rtSemRelease prioMax k sem list = some (k', sem) ∧ ReadyInv prioMax k' ∧
      k'.lockNest = k.lockNest ∧ k'.lists list = ws ∧ k'.state w = .ready ∧
      ∀ u, u ≠ w → k'.thread u = k.thread u := by
  have hcreated := threadOk_created (hk.threads w) (by rw [← state, hs]; decide)
  have hresume : ∃ k', rtThreadResume prioMax k w = some (k', .eok) ∧ k'.lockNest = k.lockNest := by
    rw [rtThreadResume, rtAssert, if_pos hcreated, some_bind, if_neg (not_not.mpr hs)]
    simp only [onTimer, rtTimerStop, rtAssert, htimer, if_true, some_bind, rtScheduleInsertThread]
    split_ifs <;> exact ⟨_, rfl, rfl⟩
  rcases hresume with ⟨k', hres, hlock'⟩
  have hwakes := wakes_of_resume hs hres
  refine ⟨k', ?_, readyInv_resume w hk hP hres, hlock', ?_, hwakes.state, hwakes.of_ne⟩
  · simp only [rtSemRelease, rtIpcListResume, isempty, first, hws, isEmpty_cons, if_true,
      head?_cons, some_bind, hres, Option.pure_def, rtSchedule, hlock', if_neg hlock]
  · rw [hwakes.lists list hlist, hws]
    exact Ring.filter_ne_split not_mem_nil hw

/-- The loop resumes every thread that waits, and leaves no count. -/
theorem completionLoop_drains (worker : Tid) (hvalue : sem.value = 0) (hlock : k.lockNest ≠ 0)
    (hws : k.lists list = ws) (hnodup : ws.Nodup)
    (hs : ∀ w ∈ ws, k.state w = .suspend ∧ (k.thread w).threadTimer.registered = true) :
    ∃ k', completionLoop prioMax list worker (ws.length + 2) k sem = some (k', sem, .eok) ∧
      ReadyInv prioMax k' ∧ k'.lists list = [] ∧
      ∀ u, u ∈ ws ∨ k.state u = .ready → k'.state u = .ready := by
  rcases sem with ⟨value, flag⟩
  obtain rfl : value = 0 := hvalue
  -- The try fails, and the next round starts from what the release leaves.
  have hround : ∀ {n k k1 sem1}, rtSemRelease prioMax k ⟨0, flag⟩ list = some (k1, sem1) →
      completionLoop prioMax list worker (n + 1) k ⟨0, flag⟩ =
        completionLoop prioMax list worker n k1 sem1 := by
    intro n k k1 sem1 h
    have htry : rtSemTrytake prioMax k ⟨0, flag⟩ list worker =
        some (k, ⟨0, flag⟩, .done .etimeout) := rfl
    simp only [completionLoop, htry, some_bind, if_true, h]
  induction ws generalizing k with
  | nil =>
    refine ⟨k, ?_, hk, hws, fun u hu => hu.resolve_left not_mem_nil⟩
    have hrelease : rtSemRelease prioMax k ⟨0, flag⟩ list = some (k, ⟨1, flag⟩) := by
      simp only [rtSemRelease, isempty, hws, isEmpty_nil, Bool.true_eq_false, if_false]
      rfl
    rw [hround hrelease, completionLoop]
    simp only [rtSemTrytake, rtSemTake]
    rfl
  | cons w ws ih =>
    rcases nodup_cons.mp hnodup with ⟨hw, hnodup⟩
    rcases hs w mem_cons_self with ⟨hsus, htimer⟩
    rcases release_wakes hP hlist hk ⟨0, flag⟩ hlock hws hw hsus htimer with
      ⟨k1, hrelease, hk1, hlock1, hws1, hready, hother⟩
    have hstate : ∀ u, u ≠ w → k1.state u = k.state u := fun u hu => by rw [state, hother u hu]; rfl
    rcases ih hk1 (hlock1 ▸ hlock) hws1 hnodup (fun u hu => by
      have hne : u ≠ w := fun hc => hw (hc ▸ hu)
      rw [hstate u hne, hother u hne]
      exact hs u (mem_cons_of_mem w hu)) with ⟨k', hloop, hk', hnil, hall⟩
    refine ⟨k', ?_, hk', hnil, fun u hu => ?_⟩
    · rw [length_cons, Nat.add_right_comm, hround hrelease]
      exact hloop
    · by_cases hne : u = w
      · exact hall u (.inr (hne ▸ hready))
      · rw [mem_cons, or_iff_right hne, ← hstate u hne] at hu
        exact hall u hu

/-- The completion of an item returns, and resumes every thread that waits for it. -/
theorem completion_wakes_all (hvalue : sem.value = 0) (hlock : k.lockNest + 1 ≠ 0)
    (hnodup : (k.lists list).Nodup) (hs : ∀ w ∈ k.lists list, k.state w = .suspend ∧
      (k.thread w).threadTimer.registered = true) (hworker : k.state worker = .ready) :
    ∃ k', workqueueWorkCompletion prioMax list worker ((k.lists list).length + 2) k sem =
        some (k', sem, .eok) ∧ k'.lists list = [] ∧ ∀ w ∈ k.lists list, k'.state w = .ready := by
  rcases completionLoop_drains (k := rtEnterCritical k) hP hlist (readyInv_lockNest hk _) worker
    hvalue hlock rfl hnodup hs with ⟨k1, hloop, hk1, hnil, hall⟩
  rcases exitCritical_enabled hP hk1 (hall worker (.inr hworker)) with ⟨k', hexit⟩
  have hsame := rtExitCritical_frame hexit
  refine ⟨k', ?_, by rw [hsame.lists, hnil], fun w hw => ?_⟩
  · rw [workqueueWorkCompletion]
    simp only [rtEnterCritical] at hloop ⊢
    rw [hloop]
    simp only [some_bind, hexit]
  · rw [state, hsame.thread]
    exact hall w (.inl hw)

omit hP in
/-- A thread in a wait list is of no concern to the ready table. -/
theorem readyInv_insertWait {t : Tid} (hs : k.state t ≠ .init) :
    ReadyInv prioMax { k with lists := insertBefore k.lists list t } := by
  have hready : ∀ p, insertBefore k.lists list t (.ready p) = k.lists (.ready p) := fun p =>
    update_of_ne (fun hc => by rw [← hc] at hlist; exact hlist) _ _
  refine ⟨⟨fun u p => ?_, ?_⟩, hk.threads, fun u h hu hm => ?_, hk.current⟩
  · simp only [hready]
    exact hk.core.mem u p
  · simp only [hready]
    exact hk.core.bitmap
  · by_cases hut : u = t
    · exact hs (hut ▸ hu)
    · exact hk.initLoose u h hu (mem_insertBefore_of_ne t u h list hut hm)

end Completion

open ThreadLists in
/-- Two threads wait. -/
theorem completion_wakes_two : ∃ k k' : Kernel Queues, k.lists (.suspend (.sem 0)) = [2, 3] ∧
    workqueueWorkCompletion 32 (.suspend (.sem 0)) 1 4 k ⟨0, .fifo⟩ =
      some (k', ⟨0, .fifo⟩, .eok) ∧
    k'.lists (.suspend (.sem 0)) = [] ∧ k'.state 2 = .ready ∧ k'.state 3 = .ready := by
  have hrun : ∃ k, exec (schedStep 32) (rtSystemSchedulerInit 32 queuesInit)
      [.init 1 true 10, .startup 1, .init 2 true 11, .startup 2, .init 3 true 12, .startup 3,
        .suspend 2, .suspend 3] = some k ∧ k.lockNest = 0 ∧ k.state 1 = .ready ∧
      (∀ w ∈ [2, 3], k.state w = .suspend ∧ (k.thread w).threadTimer.registered = true) ∧
      k.lists (.suspend (.sem 0)) = [] :=
    ⟨_, rfl, rfl, rfl, forall_mem_cons.mpr ⟨⟨rfl, rfl⟩, forall_mem_singleton.mpr ⟨rfl, rfl⟩⟩, rfl⟩
  rcases hrun with ⟨k, hrun, hlock, hready, hsus, hnil⟩
  have hk := reachable_inv (ReadyInv 32) (schedStep_readyInv (by decide)) readyInv_schedulerInit
    ⟨_, hrun⟩
  have hlist : (Head.suspend (.sem 0)).IsWait := trivial
  have hk1 := readyInv_insertWait (t := 2) hlist hk (by rw [(hsus 2 (by decide)).1]; decide)
  have hk2 := readyInv_insertWait (t := 3) hlist hk1
    (show k.state 3 ≠ _ by rw [(hsus 3 (by decide)).1]; decide)
  generalize hk0 : ({ k with
    lists := insertBefore (insertBefore k.lists (.suspend (.sem 0)) 2) (.suspend (.sem 0)) 3 } :
      Kernel Queues) = k0 at hk2
  have hlast : ∀ (q : Queues) (h : Head) (t : Tid), insertBefore q h t h = q h ++ [t] :=
    fun _ _ _ => update_self ..
  have hws : k0.lists (.suspend (.sem 0)) = [2, 3] := by
    simp only [← hk0, hlast, hnil, nil_append, cons_append]
  have hvalue : (⟨0, .fifo⟩ : Semaphore).value = 0 := rfl
  rcases completion_wakes_all (by decide) hlist hk2 hvalue (by rw [← hk0, hlock]; decide)
    (by rw [hws]; decide) (by rw [hws, ← hk0]; exact hsus) (by rw [← hk0]; exact hready) with
    ⟨k', hdone, hempty, hall⟩
  rw [hws] at hdone hall
  exact ⟨k0, k', hws, hdone, hempty, hall 2 (by decide), hall 3 (by decide)⟩

end Honeycomb
