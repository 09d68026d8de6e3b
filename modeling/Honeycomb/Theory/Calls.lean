import Honeycomb.Core.Sched

/-!
# What the Thread Calls Do

One inversion lemma per function of the thread interface: when the call comes
back, which guards held and what the new state is, in terms of the two
operations on the ready table. Everything that is proved about the scheduler
goes through these, so that the functions are unfolded here and nowhere else.

The lemmas hold for every type of lists.

## Theorems

* `rtSchedule_frame`: A schedule changes nothing but who runs.
* `rtThreadResume_cases`, `rtThreadSuspend_cases`: Resume and suspend.
* `rtThreadStartup_cases`: Startup is a resume of a thread made suspended.
* `rtThreadYield_cases`, `rtThreadSleep_cases`: Giving up the processor.
* `rtThreadControl_cases`: A change of priority.
* `rtThreadTimeout_cases`: The timer callback.
* `rtThreadExit_cases`, `rtThreadDetach_cases`, `rtThreadDelete_cases`: The
  three ways to close a thread.
-/

namespace Honeycomb

open Function Kernel ThreadLists

section ReadyTable

variable {Q : Type} [ThreadLists Q] (prioMax : Nat) (k : Kernel Q) (t : Tid)

@[simp]
theorem rtScheduleInsertThread_thread : (rtScheduleInsertThread prioMax k t).thread
    = update k.thread t ((k.thread t).setState .ready) := by
  unfold rtScheduleInsertThread
  by_cases hP : 32 < prioMax
  · simp only [if_pos hP, setThread_thread]
  · simp only [if_neg hP, setThread_thread]

@[simp]
theorem rtScheduleInsertThread_lists : (rtScheduleInsertThread prioMax k t).lists
    = insertBefore k.lists (.ready (k.thread t).currentPriority) t := by
  unfold rtScheduleInsertThread
  by_cases hP : 32 < prioMax
  · simp only [if_pos hP, setThread_thread, setThread_lists, update_self, Thread.setState]
  · simp only [if_neg hP, setThread_thread, setThread_lists, update_self, Thread.setState]

theorem rtScheduleInsertThread_group : (rtScheduleInsertThread prioMax k t).readyPriorityGroup
    = k.readyPriorityGroup ||| (k.thread t).numberMask := by
  unfold rtScheduleInsertThread
  by_cases hP : 32 < prioMax
  · simp only [if_pos hP, setThread_thread, setThread_readyPriorityGroup,
      update_self, Thread.setState]
  · simp only [if_neg hP, setThread_thread, setThread_readyPriorityGroup,
      update_self, Thread.setState]

theorem rtScheduleInsertThread_table : (rtScheduleInsertThread prioMax k t).readyTable
    = if 32 < prioMax then update k.readyTable (k.thread t).number
        (k.readyTable (k.thread t).number ||| (k.thread t).highMask)
      else k.readyTable := by
  unfold rtScheduleInsertThread
  by_cases hP : 32 < prioMax
  · simp only [if_pos hP, setThread_thread, setThread_readyTable, update_self, Thread.setState]
  · simp only [if_neg hP, setThread_readyTable]

@[simp]
theorem rtScheduleInsertThread_currentThread :
    (rtScheduleInsertThread prioMax k t).currentThread = k.currentThread := by
  unfold rtScheduleInsertThread
  by_cases hP : 32 < prioMax
  · simp only [if_pos hP, setThread]
  · simp only [if_neg hP, setThread]

@[simp]
theorem rtScheduleRemoveThread_thread : (rtScheduleRemoveThread prioMax k t).thread = k.thread := by
  unfold rtScheduleRemoveThread
  dsimp only
  split_ifs <;> rfl

@[simp]
theorem rtScheduleRemoveThread_lists :
    (rtScheduleRemoveThread prioMax k t).lists = remove k.lists t := by
  unfold rtScheduleRemoveThread
  dsimp only
  split_ifs <;> rfl

variable {prioMax k t} in
@[simp]
theorem rtScheduleRemoveThread_currentThread :
    (rtScheduleRemoveThread prioMax k t).currentThread = k.currentThread := by
  unfold rtScheduleRemoveThread
  dsimp only
  split_ifs <;> rfl

/-- The list of the thread's priority still has a thread: no bit changes. -/
theorem rtScheduleRemoveThread_keep
    (he : isempty (remove k.lists t) (.ready (k.thread t).currentPriority) = false) :
    (rtScheduleRemoveThread prioMax k t).readyPriorityGroup = k.readyPriorityGroup ∧
      (rtScheduleRemoveThread prioMax k t).readyTable = k.readyTable := by
  unfold rtScheduleRemoveThread
  simp only [he, Bool.false_eq_true, if_false, and_self]

/-- The list of the thread's priority is now empty: its bits are cleared. -/
theorem rtScheduleRemoveThread_clear
    (he : isempty (remove k.lists t) (.ready (k.thread t).currentPriority) = true) :
    (rtScheduleRemoveThread prioMax k t).readyPriorityGroup
      = (if 32 < prioMax then
          if k.readyTable (k.thread t).number &&& ~~~(k.thread t).highMask = 0 then
            k.readyPriorityGroup &&& ~~~(k.thread t).numberMask
          else k.readyPriorityGroup
        else k.readyPriorityGroup &&& ~~~(k.thread t).numberMask) ∧
    (rtScheduleRemoveThread prioMax k t).readyTable
      = (if 32 < prioMax then update k.readyTable (k.thread t).number
          (k.readyTable (k.thread t).number &&& ~~~(k.thread t).highMask)
        else k.readyTable) := by
  unfold rtScheduleRemoveThread
  by_cases hP : 32 < prioMax
  · simp only [he, if_true, if_pos hP, update_self]
    split_ifs <;> exact ⟨rfl, rfl⟩
  · simp only [he, if_true, if_neg hP, and_self]

/-- Two states that differ at most in who runs and at what priority. -/
structure SameTable (k k' : Kernel Q) : Prop where
  thread : k'.thread = k.thread
  lists : k'.lists = k.lists
  group : k'.readyPriorityGroup = k.readyPriorityGroup
  table : k'.readyTable = k.readyTable

/-- A schedule changes nothing but who runs, and who runs afterwards either
    ran before or is the first thread of a ready list. -/
theorem rtSchedule_frame {prioMax : Nat} {k k' : Kernel Q} (h : rtSchedule prioMax k = some k') :
    SameTable k k' ∧ (k'.currentThread = k.currentThread ∨ ∃ t,
      first k.lists (.ready (highestReadyPriority prioMax k)) = some t ∧
        k'.currentThread = some t) := by
  unfold rtSchedule at h
  split_ifs at h with hl
  · simp only [bind_iff] at h
    rcases h with ⟨t, ht, h⟩
    split_ifs at h with hc
    · cases h
      exact ⟨⟨rfl, rfl, rfl, rfl⟩, .inr ⟨t, ht, rfl⟩⟩
    · cases h
      exact ⟨⟨rfl, rfl, rfl, rfl⟩, .inl rfl⟩
  · cases h
    exact ⟨⟨rfl, rfl, rfl, rfl⟩, .inl rfl⟩

theorem rtSchedule_first (hl : k.lockNest = 0)
    (ht : first k.lists (.ready (highestReadyPriority prioMax k)) = some t) :
    ∃ k', rtSchedule prioMax k = some k' ∧ k'.currentThread = some t := by
  unfold rtSchedule
  simp only [some_bind, ht]
  split_ifs with hc
  · exact ⟨_, rfl, rfl⟩
  · exact ⟨_, rfl, (not_not.mp hc).symm⟩

end ReadyTable

section Fields

variable {Q : Type} {k k' : Kernel Q} {t : Tid}

theorem onTimer_cases {f : ThreadTimer → Option ThreadTimer} (h : onTimer k t f = some k') :
    ∃ timer, f (k.thread t).threadTimer = some timer ∧
      k' = k.setThread t { k.thread t with threadTimer := timer } := by
  simp only [onTimer, bind_iff, pure_iff] at h
  rcases h with ⟨timer, hf, rfl⟩
  exact ⟨timer, hf, rfl⟩

theorem rtThreadSleepReturn_cases {k : Kernel Q} {t : Tid} :
    rtThreadSleepReturn k t = k ∨
      rtThreadSleepReturn k t = k.setThread t { k.thread t with error := .eok } := by
  unfold rtThreadSleepReturn
  split_ifs
  · exact .inr rfl
  · exact .inl rfl

end Fields

variable {priority : Nat} {isStatic : Bool} {e : RtErr}

section Calls

variable {Q : Type} [ThreadLists Q] {prioMax : Nat} {k k' : Kernel Q} {t : Tid}

theorem rtThreadInit_cases (h : rtThreadInit prioMax k t isStatic priority = some k') :
    priority < prioMax ∧ ∃ th : Thread, th.created = true ∧ th.isStatic = isStatic ∧
      th.stat = ⟨.init, 0⟩ ∧ th.currentPriority = priority ∧ th.initPriority = priority ∧
      th.number = 0 ∧ th.numberMask = 0#32 ∧ th.highMask = 0#8 ∧ th.error = .eok ∧
      k' = { k with lists := init k.lists t }.setThread t th := by
  simp only [rtThreadInit, bind_iff, pure_iff, assert_iff] at h
  rcases h with ⟨hp, rfl⟩
  exact ⟨hp, _, rfl, rfl, rfl, rfl, rfl, rfl, rfl, rfl, rfl, rfl⟩

/-- A resume of a thread that is not suspended does nothing. Otherwise the
    thread leaves the list it is on, its timer stops, and it becomes ready. -/
theorem rtThreadResume_cases (h : rtThreadResume prioMax k t = some (k', e)) :
    (k.thread t).created = true ∧
      ((k.state t ≠ .suspend ∧ k' = k ∧ e = .error) ∨
       (k.state t = .suspend ∧ e = .eok ∧
        ∃ timer, rtTimerStop (k.thread t).threadTimer = some timer ∧
          k' = rtScheduleInsertThread prioMax
            ({ k with lists := remove k.lists t }.setThread t
              { k.thread t with threadTimer := timer }) t)) := by
  simp only [rtThreadResume, bind_iff, assert_iff] at h
  rcases h with ⟨hc, h⟩
  refine ⟨hc, ?_⟩
  split_ifs at h with hs
  · cases h
    exact .inl ⟨hs, rfl, rfl⟩
  simp only [bind_iff] at h
  rcases h with ⟨k1, ht, h⟩
  rcases onTimer_cases ht with ⟨timer, hstop, rfl⟩
  cases h
  exact .inr ⟨not_not.mp hs, rfl, timer, hstop, rfl⟩

/-- A suspend of a thread that is not ready does nothing. Otherwise the thread
    leaves the ready table and its timer stops. -/
theorem rtThreadSuspend_cases (h : rtThreadSuspend prioMax k t = some (k', e)) :
    (k.thread t).created = true ∧
      ((k.state t ≠ .ready ∧ k' = k ∧ e = .error) ∨
       (k.state t = .ready ∧ e = .eok ∧
        ∃ timer, rtTimerStop (k.thread t).threadTimer = some timer ∧
          k' = (rtScheduleRemoveThread prioMax
              (k.setThread t ((k.thread t).setState .suspend)) t).setThread t
            { (k.thread t).setState .suspend with threadTimer := timer })) := by
  simp only [rtThreadSuspend, bind_iff, assert_iff] at h
  rcases h with ⟨hc, h⟩
  refine ⟨hc, ?_⟩
  split_ifs at h with hs
  · cases h
    exact .inl ⟨hs, rfl, rfl⟩
  simp only [bind_iff] at h
  rcases h with ⟨k1, ht, h⟩
  rcases onTimer_cases ht with ⟨timer, hstop, rfl⟩
  simp only [rtScheduleRemoveThread_thread, setThread_self] at hstop h
  cases h
  exact .inr ⟨not_not.mp hs, rfl, timer, hstop, rfl⟩

theorem rtThreadStartup_cases (h : rtThreadStartup prioMax k t = some k') :
    (k.thread t).created = true ∧ k.state t = .init ∧
      ∃ k1 e, rtThreadResume prioMax (k.setThread t
          { priorityAttribute prioMax
              { k.thread t with currentPriority := (k.thread t).initPriority } with
            stat := ⟨.suspend, 0⟩ }) t = some (k1, e) ∧
        (k' = k1 ∨ rtSchedule prioMax k1 = some k') := by
  simp only [rtThreadStartup, bind_iff, assert_iff] at h
  rcases h with ⟨hc, hs, ⟨k1, e⟩, hr, h⟩
  refine ⟨hc, hs, k1, e, hr, ?_⟩
  split_ifs at h with hcur
  · exact .inr h
  · cases h
    exact .inl rfl

theorem rtThreadYield_cases (h : rtThreadYield prioMax k = some k') :
    ∃ t, k.currentThread = some t ∧
      (k' = k ∨ (k.state t = .ready ∧
        alone k.lists (.ready (k.thread t).currentPriority) t = false ∧
        rtSchedule prioMax { k with
          lists := insertBefore (remove k.lists t) (.ready (k.thread t).currentPriority) t }
            = some k')) := by
  simp only [rtThreadYield, bind_iff] at h
  rcases h with ⟨t, ht, h⟩
  refine ⟨t, ht, ?_⟩
  split_ifs at h with hs
  · exact .inr ⟨hs.1, hs.2, h⟩
  · cases h
    exact .inl rfl

theorem rtThreadSleep_cases {tick : BitVec 32} (h : rtThreadSleep prioMax k tick = some k') :
    ∃ t, k.currentThread = some t ∧ (k.thread t).created = true ∧
      ∃ k1 e timer, rtThreadSuspend prioMax k t = some (k1, e) ∧
        rtSchedule prioMax (k1.setThread t { k1.thread t with threadTimer := timer })
          = some k' := by
  simp only [rtThreadSleep, bind_iff, assert_iff] at h
  rcases h with ⟨t, ht, hc, ⟨k1, e⟩, hs, k2, h2, k3, h3, h⟩
  rcases onTimer_cases h2 with ⟨timer2, _, rfl⟩
  rcases onTimer_cases h3 with ⟨timer3, _, rfl⟩
  refine ⟨t, ht, hc, k1, e, timer3, hs, ?_⟩
  simp only [setThread, update_self, update_idem] at h ⊢
  exact h

theorem rtThreadControl_cases (h : rtThreadControl prioMax k t priority = some k') :
    (k.thread t).created = true ∧
      let th := priorityAttribute prioMax { k.thread t with currentPriority := priority }
      (k.state t ≠ .ready ∧ k' = k.setThread t th) ∨
      (k.state t = .ready ∧
        k' = rtScheduleInsertThread prioMax
          ((rtScheduleRemoveThread prioMax k t).setThread t th) t) := by
  simp only [rtThreadControl, bind_iff, assert_iff] at h
  rcases h with ⟨hc, h⟩
  refine ⟨hc, ?_⟩
  split_ifs at h with hs
  · cases h
    rw [rtScheduleRemoveThread_thread]
    exact .inr ⟨hs, rfl⟩
  · cases h
    exact .inl ⟨hs, rfl⟩

theorem rtThreadTimeout_cases (h : rtThreadTimeout prioMax k t = some k') :
    (k.thread t).created = true ∧ k.state t = .suspend ∧
      rtSchedule prioMax (rtScheduleInsertThread prioMax
        ({ k with lists := remove k.lists t }.setThread t
          { k.thread t with error := .etimeout }) t) = some k' := by
  simp only [rtThreadTimeout, bind_iff, assert_iff] at h
  exact h

/-- An exit takes the running thread off its list and closes it. Its node ends on no list, if
    nothing has to be done for it, or on that of the dead threads. -/
theorem rtThreadExit_cases (h : rtThreadExit prioMax k = some k') :
    ∃ t, k.currentThread = some t ∧ ∃ timer isStatic k1,
      k1 = (rtScheduleRemoveThread prioMax k t).setThread t
        { k.thread t with stat := ⟨.close, 0⟩, threadTimer := timer, isStatic := isStatic } ∧
      ((rtSchedule prioMax k1 = some k' ∧ (k.thread t).isStatic = true ∧
          (k.thread t).cleanup = false) ∨
        (rtSchedule prioMax { k1 with lists := insertAfter k1.lists .defunct t } = some k' ∧
          isStatic = (k.thread t).isStatic)) := by
  simp only [rtThreadExit, bind_iff] at h
  rcases h with ⟨t, ht, k1, h1, h⟩
  rcases onTimer_cases h1 with ⟨timer, _, rfl⟩
  simp only [rtScheduleRemoveThread_thread, setThread_self] at h
  refine ⟨t, ht, timer, ?_⟩
  split_ifs at h with hs
  · refine ⟨false, _, rfl, .inl ⟨?_, hs⟩⟩
    simp only [setThread, update_idem, rtScheduleRemoveThread_thread] at h ⊢
    exact h
  · refine ⟨(k.thread t).isStatic, _, rfl, .inr ⟨?_, rfl⟩⟩
    simp only [setThread, update_idem, rtScheduleRemoveThread_thread] at h ⊢
    exact h

/-- Detaching and deleting share their shape: a thread that was ever started leaves the ready table,
    the thread is closed, and its node ends on no list or on that of the dead threads. The calls
    differ in what the static flag is afterwards and in whether the thread is among the dead. -/
def ClosedAs (prioMax : Nat) (k : Kernel Q) (t : Tid) (isStatic dead : Bool) (k' : Kernel Q) :
    Prop :=
  ∃ k₀ k₁ timer, (k.thread t).created = true ∧
    ((k.state t = .init ∧ k₀ = k) ∨ (k.state t ≠ .init ∧ k₀ = rtScheduleRemoveThread prioMax k t)) ∧
    k₁ = k₀.setThread t
      { k.thread t with stat := ⟨.close, 0⟩, threadTimer := timer, isStatic := isStatic } ∧
    k' = if dead then { k₁ with lists := insertAfter k₁.lists .defunct t } else k₁

theorem closed_first {k1 : Kernel Q}
    (h : onTimer (if k.state t ≠ .init then rtScheduleRemoveThread prioMax k t else k) t
      rtTimerDetach = some k1) :
    ∃ k0 timer, ((k.state t = .init ∧ k0 = k) ∨
      (k.state t ≠ .init ∧ k0 = rtScheduleRemoveThread prioMax k t)) ∧
      k1 = k0.setThread t { k.thread t with threadTimer := timer } := by
  rcases onTimer_cases h with ⟨timer, _, rfl⟩
  split_ifs with hs
  · rw [rtScheduleRemoveThread_thread]
    exact ⟨_, timer, .inr ⟨hs, rfl⟩, rfl⟩
  · exact ⟨_, timer, .inl ⟨not_not.mp hs, rfl⟩, rfl⟩

/-- A detached thread goes to the dead threads if it has a cleanup function,
    and has lost its static flag by then. -/
theorem rtThreadDetach_cases (h : rtThreadDetach prioMax k t = some k') :
    (k.thread t).isStatic = true ∧ ClosedAs prioMax k t false (k.thread t).cleanup k' := by
  simp only [rtThreadDetach, bind_iff, assert_iff] at h
  rcases h with ⟨hc, hstatic, k1, h1, h⟩
  rcases closed_first h1 with ⟨k0, timer, hfirst, rfl⟩
  refine ⟨hstatic, k0, _, timer, hc, hfirst, rfl, ?_⟩
  simp only [setThread, update_self, update_idem] at h ⊢
  by_cases hcl : (k.thread t).cleanup = true
  · rw [if_pos hcl] at h ⊢
    cases h
    rfl
  · rw [if_neg hcl] at h ⊢
    cases h
    rfl

theorem rtThreadDelete_cases (h : rtThreadDelete prioMax k t = some k') :
    (k.thread t).isStatic = false ∧ ClosedAs prioMax k t false true k' := by
  simp only [rtThreadDelete, bind_iff, assert_iff] at h
  rcases h with ⟨hc, hstatic, k1, h1, h⟩
  rcases closed_first h1 with ⟨k0, timer, hfirst, rfl⟩
  refine ⟨hstatic, k0, _, timer, hc, hfirst, rfl, ?_⟩
  simp only [setThread, update_self, update_idem, if_true] at h ⊢
  rw [← hstatic]
  cases h
  rfl

end Calls

end Honeycomb
