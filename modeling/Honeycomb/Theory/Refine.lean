import Honeycomb.Lib.Corres
import Honeycomb.Theory.ReadyTable

/-!
# From Sequences to Rings

The kernel over rings of pointers does what the kernel over sequences does.
`Sim` relates the two: all fields agree, and the links in memory represent the
sequences. Every call takes related states to related states, or is refused on
both sides.

The one thing that can go wrong with an intrusive list is linking a node that
is still on another list. The invariant of the ready table rules that out where
the code does not unlink the node first.

The main theorem is about the machine with pointers. It collects what the
invariant of the ready table says about every state the machine can reach.

## Theorems

* `schedStep_sim`: The two kernels correspond, call by call.
* `readyTable_reachable`: Every reachable state has a ready table in order.
-/

namespace Honeycomb

open Honeycomb.Ring ThreadLists

/-- A state with rings of pointers represents a state with sequences. -/
structure Sim (k : Kernel (Links (Head ⊕ Tid))) (a : Kernel Queues) : Prop where
  thread : a.thread = k.thread
  group : a.readyPriorityGroup = k.readyPriorityGroup
  table : a.readyTable = k.readyTable
  current : a.currentThread = k.currentThread
  priority : a.currentPriority = k.currentPriority
  lock : a.lockNest = k.lockNest
  rep : Rep k.lists a.lists

section Primitives

variable (prioMax : Nat) {k : Kernel (Links (Head ⊕ Tid))} {a : Kernel Queues} (t : Tid)

theorem sim_setThread (th : Thread) (hs : Sim k a) : Sim (k.setThread t th) (a.setThread t th) := by
  refine { hs with thread := ?_ }
  rw [Kernel.setThread_thread, Kernel.setThread_thread, hs.thread]

variable (hs : Sim k a)
include hs

theorem sim_lists {m : Links (Head ⊕ Tid)} {q : Queues} (hr : Rep m q) :
    Sim { k with lists := m } { a with lists := q } :=
  { hs with rep := hr }

theorem rep_remove_thread : Rep (remove k.lists t) (remove a.lists t) :=
  rep_remove hs.rep t

omit hs in
theorem not_mem_remove (q : Queues) (h : Head) : t ∉ remove q t h := by
  rw [mem_remove_iff]
  exact fun hc => hc.2 rfl

theorem sim_first {h : Head} : first k.lists h = first a.lists h :=
  rep_first hs.rep

theorem sim_insertThread (hloose : ∀ h, t ∉ a.lists h) :
    Sim (rtScheduleInsertThread prioMax k t) (rtScheduleInsertThread prioMax a t) := by
  unfold rtScheduleInsertThread
  have hs1 := sim_setThread t ((k.thread t).setState .ready) hs
  rw [hs.thread]
  generalize hk1 : k.setThread t ((k.thread t).setState .ready) = k1 at hs1
  generalize ha1 : a.setThread t ((k.thread t).setState .ready) = a1 at hs1
  have hlists : a1.lists = a.lists := by rw [← ha1, Kernel.setThread_lists]
  have hrep := rep_insertBefore hs1.rep
    (.ready (k1.thread t).currentPriority) t (by rw [hlists]; exact hloose)
  by_cases hP : 32 < prioMax
  · simp only [if_pos hP]
    refine { hs1 with group := ?_, table := ?_, rep := ?_ }
    · dsimp only
      rw [hs1.group, hs1.thread]
    · dsimp only
      rw [hs1.table, hs1.thread]
    · dsimp only
      rw [hs1.thread]
      exact hrep
  · simp only [if_neg hP]
    refine { hs1 with group := ?_, rep := ?_ }
    · dsimp only
      rw [hs1.group, hs1.thread]
    · dsimp only
      rw [hs1.thread]
      exact hrep

theorem sim_removeThread :
    Sim (rtScheduleRemoveThread prioMax k t) (rtScheduleRemoveThread prioMax a t) := by
  have hrep := rep_remove_thread t hs
  have he : isempty (remove k.lists t) (.ready (k.thread t).currentPriority)
      = isempty (remove a.lists t) (.ready (a.thread t).currentPriority) := by
    rw [hs.thread]
    exact rep_isempty hrep _
  -- Group and table are the same functions of fields that agree.
  have hbits : (rtScheduleRemoveThread prioMax a t).readyPriorityGroup
        = (rtScheduleRemoveThread prioMax k t).readyPriorityGroup ∧
      (rtScheduleRemoveThread prioMax a t).readyTable
        = (rtScheduleRemoveThread prioMax k t).readyTable := by
    cases hc : isempty (remove a.lists t) (.ready (a.thread t).currentPriority) with
    | false =>
      rcases rtScheduleRemoveThread_keep prioMax a t hc with ⟨hga, hta⟩
      rcases rtScheduleRemoveThread_keep prioMax k t (he.trans hc) with ⟨hgk, htk⟩
      rw [hga, hta, hgk, htk]
      exact ⟨hs.group, hs.table⟩
    | true =>
      rcases rtScheduleRemoveThread_clear prioMax a t hc with ⟨hga, hta⟩
      rcases rtScheduleRemoveThread_clear prioMax k t (he.trans hc) with ⟨hgk, htk⟩
      rw [hga, hta, hgk, htk, hs.group, hs.table, hs.thread]
      exact ⟨rfl, rfl⟩
  have hframe : ∀ {Q : Type} [ThreadLists Q] (k : Kernel Q),
      (rtScheduleRemoveThread prioMax k t).currentPriority = k.currentPriority ∧
        (rtScheduleRemoveThread prioMax k t).lockNest = k.lockNest := by
    intro Q _ k
    unfold rtScheduleRemoveThread
    dsimp only
    split_ifs <;> exact ⟨rfl, rfl⟩
  refine ⟨?_, hbits.1, hbits.2, ?_, ?_, ?_, ?_⟩
  · rw [rtScheduleRemoveThread_thread, rtScheduleRemoveThread_thread, hs.thread]
  · rw [rtScheduleRemoveThread_currentThread, rtScheduleRemoveThread_currentThread, hs.current]
  · rw [(hframe a).1, (hframe k).1, hs.priority]
  · rw [(hframe a).2, (hframe k).2, hs.lock]
  · rw [rtScheduleRemoveThread_lists, rtScheduleRemoveThread_lists]
    exact hrep

omit hs in
theorem loose_removeThread (a : Kernel Queues) (t : Tid) (h : Head) :
    t ∉ (rtScheduleRemoveThread prioMax a t).lists h := by
  rw [rtScheduleRemoveThread_lists]
  exact not_mem_remove t a.lists h

theorem sim_highest : highestReadyPriority prioMax a = highestReadyPriority prioMax k := by
  unfold highestReadyPriority
  rw [hs.group, hs.table]

theorem sim_schedule : Corres Sim (rtSchedule prioMax k) (rtSchedule prioMax a) := by
  unfold rtSchedule
  refine Corres.ite Sim (by rw [hs.lock]) (fun _ => ?_) (fun _ => Corres.some k a hs)
  dsimp only
  rw [sim_highest prioMax hs, sim_first hs]
  refine Corres.bind Eq Sim Corres.refl (fun u v huv => ?_)
  rw [huv]
  refine Corres.ite Sim (by rw [hs.current]) (fun _ => ?_) (fun _ => ?_)
  · exact Corres.some _ _ { hs with current := rfl, priority := rfl }
  · exact Corres.some _ _ hs

omit hs

variable (f : ThreadTimer → Option ThreadTimer)

theorem sim_onTimer (hs : Sim k a) : Corres Sim (onTimer k t f) (onTimer a t f) := by
  unfold onTimer
  rw [hs.thread]
  refine Corres.bind Eq Sim Corres.refl (fun x y hxy => ?_)
  rw [hxy]
  exact Corres.some _ _ (sim_setThread t _ hs)

variable {t f} in
/-- Nothing but the timer of the thread changes, so a loose node stays loose. -/
theorem sim_onTimer_loose (hs : Sim k a) (hloose : ∀ h, t ∉ a.lists h) :
    Corres (fun k1 a1 => Sim k1 a1 ∧ ∀ h, t ∉ a1.lists h) (onTimer k t f) (onTimer a t f) := by
  have hcorres := sim_onTimer t f hs
  generalize hx : onTimer k t f = x at hcorres
  generalize hy : onTimer a t f = y at hcorres
  cases hcorres with
  | none => exact Corres.none
  | some k1 a1 h1 =>
    refine Corres.some _ _ ⟨h1, fun h => ?_⟩
    rcases onTimer_cases hy with ⟨timer, _, rfl⟩
    exact hloose h

/-- An assertion about fields that agree is passed on both sides or on none. -/
theorem corres_assert {α β : Type} {R : α → β → Prop} {p q : Prop} [Decidable p] [Decidable q]
    {x : Option α} {y : Option β} (hpq : p ↔ q) (h : p → Corres R x y) :
    Corres R (rtAssert p >>= fun _ => x) (rtAssert q >>= fun _ => y) := by
  unfold rtAssert
  by_cases hp : p
  · rw [if_pos hp, if_pos (hpq.mp hp)]
    exact h hp
  · rw [if_neg hp, if_neg (fun hq => hp (hpq.mpr hq))]
    exact Corres.none

end Primitives

section Calls

variable (prioMax : Nat) {k : Kernel (Links (Head ⊕ Tid))} {a : Kernel Queues} (t : Tid)

/-- Related states and the same status. -/
def SimStatus (x : Kernel (Links (Head ⊕ Tid)) × RtErr) (y : Kernel Queues × RtErr) : Prop :=
  Sim x.1 y.1 ∧ x.2 = y.2

theorem sim_init {isStatic : Bool} {priority : Nat} (hs : Sim k a) (hloose : ∀ h, t ∉ a.lists h) :
    Corres Sim (rtThreadInit prioMax k t isStatic priority)
      (rtThreadInit prioMax a t isStatic priority) := by
  -- A loose node is linked to itself already.
  have hsame : init k.lists t = k.lists := by
    rcases hs.rep.loose t hloose with ⟨hnext, hprev⟩
    change k.lists.init (.inr t) = k.lists
    unfold Links.init
    rw [Function.update_eq_self_iff.mpr hnext.symm, Function.update_eq_self_iff.mpr hprev.symm]
  unfold rtThreadInit
  dsimp only
  rw [hsame, hs.thread]
  refine corres_assert Iff.rfl (fun _ => ?_)
  exact Corres.some _ _ { hs with thread := rfl }

theorem sim_lockNest {n : BitVec 16} (hs : Sim k a) :
    Sim { k with lockNest := n } { a with lockNest := n } :=
  { hs with lock := rfl }

variable (hs : Sim k a)
include hs

theorem sim_state : a.state t = k.state t := by
  unfold Kernel.state
  rw [hs.thread]

theorem sim_resume :
    Corres SimStatus (rtThreadResume prioMax k t) (rtThreadResume prioMax a t) := by
  unfold rtThreadResume
  refine corres_assert (by rw [hs.thread]) (fun _ => ?_)
  refine Corres.ite _ (by rw [sim_state t hs]) (fun _ => ?_) (fun _ => ?_)
  · exact Corres.some _ _ ⟨hs, rfl⟩
  · have hs1 := sim_lists hs (rep_remove_thread t hs)
    refine Corres.bind (fun k1 a1 => Sim k1 a1 ∧ ∀ h, t ∉ a1.lists h) _ ?_ (fun k1 a1 h1 => ?_)
    · exact sim_onTimer_loose hs1 (not_mem_remove t a.lists)
    · exact Corres.some _ _ ⟨sim_insertThread prioMax t h1.1 h1.2, rfl⟩

theorem sim_suspend :
    Corres SimStatus (rtThreadSuspend prioMax k t) (rtThreadSuspend prioMax a t) := by
  unfold rtThreadSuspend
  refine corres_assert (by rw [hs.thread]) (fun _ => ?_)
  refine Corres.ite _ (by rw [sim_state t hs]) (fun _ => ?_) (fun _ => ?_)
  · exact Corres.some _ _ ⟨hs, rfl⟩
  dsimp only
  rw [hs.thread]
  have hs1 := sim_removeThread prioMax t (sim_setThread t ((k.thread t).setState .suspend) hs)
  refine Corres.bind Sim _ (sim_onTimer t rtTimerStop hs1) (fun k1 a1 h1 => ?_)
  exact Corres.some _ _ ⟨h1, rfl⟩

theorem sim_startup : Corres Sim (rtThreadStartup prioMax k t) (rtThreadStartup prioMax a t) := by
  unfold rtThreadStartup
  rw [hs.thread, sim_state t hs]
  refine corres_assert Iff.rfl (fun _ => ?_)
  refine corres_assert Iff.rfl (fun _ => ?_)
  refine Corres.bind SimStatus Sim (sim_resume prioMax t (sim_setThread t _ hs)) (fun x y hxy => ?_)
  rcases x with ⟨k1, e⟩
  rcases y with ⟨a1, e'⟩
  refine Corres.ite Sim (by rw [hxy.1.current]) (fun _ => ?_) (fun _ => ?_)
  · exact sim_schedule prioMax hxy.1
  · exact Corres.some _ _ hxy.1

theorem sim_yield (ha : ReadyInv prioMax a) :
    Corres Sim (rtThreadYield prioMax k) (rtThreadYield prioMax a) := by
  unfold rtThreadYield
  rw [hs.current]
  refine Corres.bind Eq Sim Corres.refl (fun u v huv => ?_)
  rw [← huv]
  dsimp only
  rw [hs.thread, sim_state u hs]
  have halone : k.state u = .ready →
      alone k.lists (.ready (k.thread u).currentPriority) u
        = alone a.lists (.ready (k.thread u).currentPriority) u := by
    intro hst
    have hmem : u ∈ a.lists (.ready (k.thread u).currentPriority) := by
      rw [ha.core.mem, ← hs.thread]
      exact readyAt_of_ready (by rw [hs.thread]; exact hst)
    exact decide_eq_decide.mpr (rep_alone hs.rep hmem)
  refine Corres.ite Sim ?_ (fun _ => ?_) (fun _ => Corres.some _ _ hs)
  · constructor
    · exact fun h => ⟨h.1, halone h.1 ▸ h.2⟩
    · exact fun h => ⟨h.1, (halone h.1).symm ▸ h.2⟩
  · have hrep := rep_insertBefore (rep_remove_thread u hs)
      (.ready (k.thread u).currentPriority) u (not_mem_remove u a.lists)
    exact sim_schedule prioMax ⟨rfl, hs.group, hs.table, rfl, hs.priority, hs.lock, hrep⟩

omit hs in
theorem sim_sleep {tick : BitVec 32} (hs : Sim k a) :
    Corres Sim (rtThreadSleep prioMax k tick) (rtThreadSleep prioMax a tick) := by
  unfold rtThreadSleep
  rw [hs.current]
  refine Corres.bind Eq Sim Corres.refl (fun u v huv => ?_)
  rw [← huv]
  refine corres_assert (by rw [hs.thread]) (fun _ => ?_)
  refine Corres.bind SimStatus Sim (sim_suspend prioMax u hs) (fun x y hxy => ?_)
  rcases x with ⟨k1, e⟩
  rcases y with ⟨a1, e'⟩
  refine Corres.bind Sim Sim (sim_onTimer u _ hxy.1) (fun k2 a2 h2 => ?_)
  refine Corres.bind Sim Sim (sim_onTimer u _ h2) (fun k3 a3 h3 => ?_)
  exact sim_schedule prioMax h3

theorem sim_sleepReturn : Sim (rtThreadSleepReturn k t) (rtThreadSleepReturn a t) := by
  unfold rtThreadSleepReturn
  rw [hs.thread]
  by_cases he : (k.thread t).error = .etimeout
  · rw [if_pos he, if_pos he]
    exact sim_setThread t _ hs
  · rw [if_neg he, if_neg he]
    exact hs

omit hs in
theorem sim_control {priority : Nat} (hs : Sim k a) :
    Corres Sim (rtThreadControl prioMax k t priority) (rtThreadControl prioMax a t priority) := by
  unfold rtThreadControl
  refine corres_assert (by rw [hs.thread]) (fun _ => ?_)
  refine Corres.ite Sim (by rw [sim_state t hs]) (fun _ => ?_) (fun _ => ?_)
  · dsimp only
    rw [rtScheduleRemoveThread_thread, rtScheduleRemoveThread_thread, hs.thread]
    refine Corres.some _ _ (sim_insertThread prioMax t
      (sim_setThread t _ (sim_removeThread prioMax t hs)) (fun h => ?_))
    exact loose_removeThread prioMax a t h
  · rw [hs.thread]
    exact Corres.some _ _ (sim_setThread t _ hs)

theorem sim_timeout : Corres Sim (rtThreadTimeout prioMax k t) (rtThreadTimeout prioMax a t) := by
  unfold rtThreadTimeout
  rw [hs.thread, sim_state t hs]
  refine corres_assert Iff.rfl (fun _ => ?_)
  refine corres_assert Iff.rfl (fun _ => ?_)
  have hs1 := sim_setThread t { k.thread t with error := .etimeout } hs
  refine sim_schedule prioMax (sim_insertThread prioMax t
    (sim_lists hs1 (rep_remove_thread t hs1)) (fun h => ?_))
  exact not_mem_remove t _ h

theorem sim_exit : Corres Sim (rtThreadExit prioMax k) (rtThreadExit prioMax a) := by
  unfold rtThreadExit
  rw [hs.current]
  refine Corres.bind Eq Sim Corres.refl (fun u v huv => ?_)
  rw [← huv]
  dsimp only
  rw [rtScheduleRemoveThread_thread, rtScheduleRemoveThread_thread, hs.thread]
  have hs1 := sim_setThread u { k.thread u with stat := ⟨.close, 0⟩ }
    (sim_removeThread prioMax u hs)
  refine Corres.bind _ Sim (sim_onTimer_loose hs1 (loose_removeThread prioMax a u))
    (fun k1 a1 h1 => ?_)
  rw [h1.1.thread]
  by_cases hc : (k1.thread u).isStatic = true ∧ (k1.thread u).cleanup = false
  · rw [if_pos hc, if_pos hc]
    exact sim_schedule prioMax (sim_setThread u _ h1.1)
  rw [if_neg hc, if_neg hc]
  have hrep := rep_insertAfter h1.1.rep .defunct h1.2
  exact sim_schedule prioMax
    ⟨rfl, h1.1.group, h1.1.table, h1.1.current, h1.1.priority, h1.1.lock, hrep⟩

/-- The first half of detaching and deleting: afterwards the node is loose. -/
theorem sim_close_first (ha : ReadyInv prioMax a) :
    Corres (fun k1 a1 => Sim k1 a1 ∧ ∀ h, t ∉ a1.lists h)
      (onTimer (if k.state t ≠ .init then rtScheduleRemoveThread prioMax k t else k) t
        rtTimerDetach)
      (onTimer (if a.state t ≠ .init then rtScheduleRemoveThread prioMax a t else a) t
        rtTimerDetach) := by
  rw [sim_state t hs]
  by_cases hst : k.state t ≠ .init
  · rw [if_pos hst, if_pos hst]
    exact sim_onTimer_loose (sim_removeThread prioMax t hs) (loose_removeThread prioMax a t)
  rw [if_neg hst, if_neg hst]
  refine sim_onTimer_loose hs (fun h => ha.initLoose t h ?_)
  rw [sim_state t hs]
  exact not_not.mp hst

theorem sim_detach (ha : ReadyInv prioMax a) :
    Corres Sim (rtThreadDetach prioMax k t) (rtThreadDetach prioMax a t) := by
  unfold rtThreadDetach
  rw [hs.thread]
  refine corres_assert Iff.rfl (fun _ => ?_)
  refine corres_assert Iff.rfl (fun _ => ?_)
  refine Corres.bind _ Sim (sim_close_first prioMax t hs ha) (fun k1 a1 h1 => ?_)
  rw [h1.1.thread]
  have hs2 := sim_setThread t { k1.thread t with stat := ⟨.close, 0⟩ } h1.1
  dsimp only
  rw [hs2.thread]
  have hs3 := sim_setThread t
    { (k1.setThread t { k1.thread t with stat := ⟨.close, 0⟩ }).thread t with
      isStatic := false } hs2
  refine Corres.ite Sim (by rw [hs3.thread]) (fun _ => ?_) (fun _ => ?_)
  · exact Corres.some _ _ (sim_lists hs3 (rep_insertAfter hs3.rep _ h1.2))
  · exact Corres.some _ _ hs3

theorem sim_delete (ha : ReadyInv prioMax a) :
    Corres Sim (rtThreadDelete prioMax k t) (rtThreadDelete prioMax a t) := by
  unfold rtThreadDelete
  rw [hs.thread]
  refine corres_assert Iff.rfl (fun _ => ?_)
  refine corres_assert Iff.rfl (fun _ => ?_)
  refine Corres.bind _ Sim (sim_close_first prioMax t hs ha) (fun k1 a1 h1 => ?_)
  rw [h1.1.thread]
  have hs2 := sim_setThread t { k1.thread t with stat := ⟨.close, 0⟩ } h1.1
  exact Corres.some _ _ (sim_lists hs2 (rep_insertAfter hs2.rep _ h1.2))

theorem sim_start :
    Corres Sim (rtSystemSchedulerStart prioMax k) (rtSystemSchedulerStart prioMax a) := by
  unfold rtSystemSchedulerStart
  rw [sim_highest prioMax hs, sim_first hs]
  refine Corres.bind Eq Sim Corres.refl (fun u v huv => ?_)
  rw [huv]
  exact Corres.some _ _ { hs with current := rfl }

theorem sim_exitCritical : Corres Sim (rtExitCritical prioMax k) (rtExitCritical prioMax a) := by
  unfold rtExitCritical
  dsimp only
  rw [hs.lock]
  refine Corres.ite Sim Iff.rfl (fun _ => ?_) (fun _ => ?_)
  · exact sim_schedule prioMax (sim_lockNest hs)
  · exact Corres.some _ _ (sim_lockNest hs)

omit hs

theorem schedStep_sim {x : SchedAction} (hs : Sim k a) (ha : ReadyInv prioMax a) :
    Corres Sim (schedStep prioMax k x) (schedStep prioMax a x) := by
  cases x with
  | init t isStatic priority =>
    simp only [schedStep]
    rw [hs.thread]
    refine corres_assert Iff.rfl (fun hc => ?_)
    refine sim_init prioMax t hs (fun h => ha.initLoose t h ?_)
    exact (ha.threads t).fresh (by rw [hs.thread]; exact hc)
  | startup t => exact sim_startup prioMax t hs
  | suspend t =>
    exact Corres.map (sim_suspend prioMax t hs) (fun _ _ h => h.1)
  | resume t =>
    exact Corres.map (sim_resume prioMax t hs) (fun _ _ h => h.1)
  | yield => exact sim_yield prioMax hs ha
  | sleep tick => exact sim_sleep prioMax hs
  | sleepReturn t => exact Corres.some _ _ (sim_sleepReturn t hs)
  | changePriority t priority =>
    simp only [schedStep]
    exact corres_assert Iff.rfl (fun _ => sim_control prioMax t hs)
  | timeout t => exact sim_timeout prioMax t hs
  | exit => exact sim_exit prioMax hs
  | detach t => exact sim_detach prioMax t hs ha
  | delete t => exact sim_delete prioMax t hs ha
  | setCleanup t set =>
    simp only [schedStep]
    rw [hs.thread]
    exact Corres.some _ _ (sim_setThread t _ hs)
  | start => exact sim_start prioMax hs
  | enterCritical =>
    simp only [schedStep, rtEnterCritical]
    rw [hs.lock]
    exact Corres.some _ _ (sim_lockNest hs)
  | exitCritical => exact sim_exitCritical prioMax hs

end Calls

/-- The bitmap has the bit of a priority set. -/
def marks {Q : Type} (prioMax : Nat) (k : Kernel Q) (p : Nat) : Bool :=
  if 32 < prioMax then
    k.readyPriorityGroup.getLsbD (p >>> 3) && (k.readyTable (p >>> 3)).getLsbD (p &&& 0x07)
  else k.readyPriorityGroup.getLsbD p

/-- What the ready table guarantees. The list of every priority is a ring through its head; the
    bitmap marks the priorities whose list is not empty; a thread is on the list of a priority
    exactly when it is ready and has that priority, and is on it once; and an unlocked schedule with
    a ready thread runs the first thread of the most urgent list. -/
def ReadyTableOk (prioMax : Nat) (k : Kernel (Links (Head ⊕ Tid))) : Prop :=
  ∃ table : Nat → List Tid,
    (∀ p, Seg k.lists (.inl (.ready p)) ((table p).map .inr) (.inl (.ready p))) ∧
    (∀ p, p < prioMax → (marks prioMax k p = true ↔ table p ≠ [])) ∧
    (∀ t p, t ∈ table p ↔ k.state t = .ready ∧ (k.thread t).currentPriority = p) ∧
    (∀ p, (table p).Nodup) ∧
    (k.lockNest = 0 → ∀ t, k.state t = .ready →
      ∃ k' p u, rtSchedule prioMax k = some k' ∧ k'.currentThread = some u ∧
        (table p).head? = some u ∧ ∀ q, q < p → table q = [])

theorem bitmap_marks {Q : Type} {prioMax : Nat} {k : Kernel Q} {S : Nat → Prop}
    (hr : BitmapRep prioMax k.readyPriorityGroup k.readyTable S) {p : Nat} (hp : p < prioMax)
    (hP : prioMax ≤ 256) : marks prioMax k p = true ↔ S p := by
  unfold BitmapRep at hr
  unfold marks
  split_ifs at hr with hL
  · rw [if_pos hL, Bool.and_eq_true, hr.1 p (by omega)]
    refine ⟨fun h => h.2, fun h => ⟨?_, h⟩⟩
    -- The group bit follows from the bit in the byte.
    have hn : p >>> 3 < 32 := by
      rw [shiftRight_three]
      omega
    refine (hr.2 _ hn).mpr (ne_zero_iff_getLsbD.mpr ⟨p &&& 0x07, ?_, (hr.1 p (by omega)).mpr h⟩)
    rw [and_seven]
    omega
  · rw [if_neg hL]
    exact hr p (by omega)

theorem sim_init_state {prioMax : Nat} :
    Sim (schedInit prioMax) (rtSystemSchedulerInit prioMax queuesInit) := by
  refine ⟨rfl, rfl, rfl, rfl, rfl, rfl, ⟨fun h => ⟨rfl, rfl⟩, fun _ => List.nodup_nil,
    fun h h' t ht => absurd ht List.not_mem_nil, fun t _ => ⟨rfl, rfl⟩⟩⟩

theorem readyTableOk_of_sim {prioMax : Nat} (hP : prioMax ≤ 256)
    {k : Kernel (Links (Head ⊕ Tid))} {a : Kernel Queues} (hs : Sim k a)
    (ha : ReadyInv prioMax a) : ReadyTableOk prioMax k := by
  refine ⟨fun p => a.lists (.ready p), fun p => hs.rep.ring _, fun p hp => ?_, fun t p => ?_,
    fun p => hs.rep.nodup _, fun hl t ht => ?_⟩
  · have hb := ha.core.bitmap
    rw [hs.group, hs.table] at hb
    exact bitmap_marks hb hp hP
  · rw [ha.core.mem, readyAt, hs.thread]
    unfold Thread.readyAt Kernel.state
    split_ifs with hst
    · simp only [Option.some.injEq, hst, true_and]
    · simp only [hst, false_and]
  · rcases readyInv_schedule_first t hP ha (by rw [hs.lock]; exact hl)
      (by rw [sim_state t hs]; exact ht) with ⟨a', p, u, ha', hcur, hhead, hleast⟩
    have hc := sim_schedule prioMax hs
    rw [ha'] at hc
    generalize hx : rtSchedule prioMax k = x at hc
    cases hc with
    | some k' a' hs' =>
      exact ⟨k', p, u, rfl, by rw [← hs'.current]; exact hcur, hhead, hleast⟩

/-- Every state the machine can reach has its ready table in order, for every
    number of priorities that the table has room for. -/
theorem readyTable_reachable (prioMax : Nat) (hP : prioMax ≤ 256) (k : Kernel (Links (Head ⊕ Tid)))
    (h : Run.Reachable (schedStep prioMax) (schedInit prioMax) k) : ReadyTableOk prioMax k := by
  rcases h with ⟨as, has⟩
  rcases exec_corres (schedStep prioMax) Sim (ReadyInv prioMax)
    (fun k a x hs ha => schedStep_sim prioMax hs ha)
    (fun a x a' ha hx => schedStep_readyInv hP ha hx)
    sim_init_state readyInv_schedulerInit has with ⟨a, _, hs, ha⟩
  exact readyTableOk_of_sim hP hs ha

/-- A machine with sixty-four priorities, two threads of which are started, the
    first of them is suspended and the second moved to another priority. -/
theorem readyTable_reachable_two_level :
    ∃ k, Run.exec (schedStep 64) (schedInit 64) [.init 1 true 5, .startup 1, .init 2 false 40,
        .startup 2, .start, .suspend 1, .changePriority 2 41] = some k ∧
      k.state 2 = .ready ∧ ReadyTableOk 64 k :=
  Run.exists_viewed (fun k hk => readyTable_reachable 64 (by decide) k ⟨_, hk⟩) (by decide)

end Honeycomb
