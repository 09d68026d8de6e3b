import Honeycomb.Core.Ipc
import Honeycomb.Theory.ReadyTable

/-!
# Waiting Threads

What the operations on wait lists do to the control blocks and to the lists,
and the invariant of wait lists that follows for every kernel object.

The effects are equations: the control block of one thread is replaced, and the
wait lists lose or gain that thread. `Blocks`, `Wakes`, `Reprioritizes` and
`Spawns` name the four of them, and every call of a kernel object is a chain of
such effects.

`WaitInv` says that the wait lists agree with a function `loc` that tells for
each thread which list it is waiting in, or was until it was woken. A client
reads `loc` off the point each thread has reached in its call.

## Main definitions

* `Head.IsWait`: The list is the wait list of some object.
* `Blocks`, `Wakes`, `Reprioritizes`, `Spawns`: The effects.
* `WaitInv`: Wait lists, thread states and `loc` agree.
* `ResumesAll`: A whole wait list has been woken.
* `Calm`: Nobody starts to wait, and calls are left alone or woken.

## Theorems

* `blocks_of_waitIn`, `wakes_of_resume`, `resumeWaiting_cases`,
  `wakes_of_expire`, `reprioritizes_of_control`, `spawns_of_spawn`: What the
  calls do.
* `waitInv_blocks`, `waitInv_wakes`, `waitInv_spawns`: The effects keep the invariant.
* `resumesAll_of_loop`: What the loop over a wait list does.
* `calm_spawns`, `calm_wakes`, `calm_schedule`, `calm_setError`, `calm_resumesAll`: What
  is calm.
-/

namespace Honeycomb

open Kernel List Option Thread ThreadLists
open Function (apply_update update update_eq_self update_eq_self_iff update_idem update_of_ne
  update_self)

/-- The wait list of some object, as opposed to a list of the scheduler. -/
def Head.IsWait : Head → Prop
  | .ready _ => False
  | .defunct => False
  | .suspend _ => True
  | .sender _ => True
  | .pool _ => True

/-- The wait list after a thread has been linked into it. -/
def place (flag : IpcFlag) (prio : Tid → Nat) (t : Tid) (ts : List Tid) : List Tid :=
  match flag with
  | .fifo => ts ++ [t]
  | .prio => insertPrio prio t ts

theorem first_eq_head (q : Queues) (h : Head) : first q h = (q h).head? := rfl

section Place

variable {prio : Tid → Nat} {ts : List Tid}

theorem mem_insertPrio {t u : Tid} : u ∈ insertPrio prio t ts ↔ u = t ∨ u ∈ ts := by
  induction ts with
  | nil => simp only [insertPrio, mem_singleton, not_mem_nil, or_false]
  | cons s ss ih =>
    simp only [insertPrio]
    split_ifs
    · simp only [mem_cons]
    · simp only [mem_cons, ih]
      exact ⟨fun h => h.elim (fun h => .inr (.inl h)) (fun h => h.imp id .inr),
        fun h => h.elim (fun h => .inr (.inl h)) (fun h => h.imp id .inr)⟩

theorem nodup_insertPrio {t : Tid} (ht : t ∉ ts)
    (hnd : ts.Nodup) : (insertPrio prio t ts).Nodup := by
  induction ts with
  | nil => exact nodup_singleton t
  | cons s ss ih =>
    simp only [insertPrio]
    split_ifs
    · exact nodup_cons.mpr ⟨ht, hnd⟩
    rw [nodup_cons] at hnd
    rw [mem_cons, not_or] at ht
    refine nodup_cons.mpr ⟨fun hs => ?_, ih ht.2 hnd.2⟩
    rw [mem_insertPrio] at hs
    exact hs.elim (fun h => ht.1 h.symm) hnd.1

theorem mem_place (flag : IpcFlag) (prio : Tid → Nat) (t u : Tid) (ts : List Tid) :
    u ∈ place flag prio t ts ↔ u = t ∨ u ∈ ts := by
  cases flag with
  | fifo => simp only [place, mem_append, mem_singleton, or_comm]
  | prio => exact mem_insertPrio

theorem nodup_place {flag : IpcFlag} {t : Tid}
    (ht : t ∉ ts) (hnd : ts.Nodup) : (place flag prio t ts).Nodup := by
  cases flag with
  | fifo =>
    refine nodup_append.mpr ⟨hnd, nodup_singleton t, fun a ha b hb => ?_⟩
    rintro rfl
    rw [mem_singleton] at hb
    exact ht (hb ▸ ha)
  | prio => exact nodup_insertPrio ht hnd

end Place

variable {h list : Head} {e : RtErr} {flag : IpcFlag} {time : BitVec 32} {k1 : Kernel Queues}
  {priority : Nat}

section Effects

variable (prioMax : Nat) (k k' : Kernel Queues) (t : Tid)

/-- A ready thread suspends itself into a wait list. -/
structure Blocks (list : Head) (flag : IpcFlag) : Prop where
  ready : k.state t = .ready
  created : (k.thread t).created = true
  thread : ∃ timer, k'.thread = update k.thread t
    { (k.thread t).setState .suspend with threadTimer := timer }
  on : k'.lists list = place flag (fun u => (k.thread u).currentPriority) t
    ((k.lists list).filter (· ≠ t))
  off : ∀ h, h.IsWait → h ≠ list → k'.lists h = (k.lists h).filter (· ≠ t)

/-- A suspended thread leaves its wait list and becomes ready, with `e` in its error field. -/
structure Wakes (e : RtErr) : Prop where
  suspend : k.state t = .suspend
  created : (k.thread t).created = true
  thread : ∃ timer, k'.thread = update k.thread t
    { (k.thread t).setState .ready with threadTimer := timer, error := e }
  lists : ∀ h, h.IsWait → k'.lists h = (k.lists h).filter (· ≠ t)

/-- The priority of a thread changes. Where the thread waits it stays. -/
structure Reprioritizes (priority : Nat) : Prop where
  created : (k.thread t).created = true
  thread : k'.thread = update k.thread t
    (priorityAttribute prioMax { k.thread t with currentPriority := priority })
  lists : ∀ h, h.IsWait →
    k'.lists h = if k.state t = .ready then (k.lists h).filter (· ≠ t) else k.lists h

structure Spawns (priority : Nat) : Prop where
  fresh : (k.thread t).created = false
  bound : priority < prioMax
  thread : ∃ th : Thread, k'.thread = update k.thread t th ∧ th.created = true ∧
    th.stat.state = .ready ∧ th.currentPriority = priority ∧ th.initPriority = priority ∧
    th.error = .eok
  lists : ∀ h, h.IsWait → k'.lists h = (k.lists h).filter (· ≠ t)

variable {prioMax k k' t}

theorem ready_ne_wait {p : Nat} (hw : h.IsWait) : h ≠ .ready p := by
  rintro rfl
  exact hw

theorem insertBefore_ready_wait {t : Tid} {q : Queues} {p : Nat} (hw : h.IsWait) :
    insertBefore q (.ready p) t h = q h :=
  update_of_ne (ready_ne_wait hw) _ _

variable (hs : k.state t = .ready)
include hs

/-- A ready thread is suspended: it is on no list, and its timer is stopped. -/
theorem suspend_frame (h : rtThreadSuspend prioMax k t = some (k', e)) :
    (k.thread t).created = true ∧ ∃ timer, k'.thread = update k.thread t
        { (k.thread t).setState .suspend with threadTimer := timer } ∧
      ∀ h, k'.lists h = (k.lists h).filter (· ≠ t) := by
  rcases rtThreadSuspend_cases h with ⟨hc, ⟨hns, _, _⟩ | ⟨_, _, timer, _, rfl⟩⟩
  · exact absurd hs hns
  refine ⟨hc, timer, ?_, fun h => ?_⟩
  · rw [setThread_thread, rtScheduleRemoveThread_thread, setThread_thread, update_idem]
  · rw [setThread_lists, rtScheduleRemoveThread_lists, setThread_lists]
    rfl

/-- Waiting, first half: the thread is in the list, its timer as set. -/
theorem blocks_of_suspend (h : rtIpcListSuspend prioMax k list t flag = some k') :
    Blocks k k' t list flag := by
  simp only [rtIpcListSuspend, bind_iff] at h
  rcases h with ⟨⟨k1, e⟩, hsus, h⟩
  rcases suspend_frame hs hsus with ⟨hc, timer, hthread, hlists⟩
  have hprio : (fun u => (update k.thread t
      { (k.thread t).setState .suspend with threadTimer := timer } u).currentPriority)
      = fun u => (k.thread u).currentPriority :=
    funext (field_update Thread.currentPriority rfl rfl)
  cases flag with
  | fifo =>
    cases h
    refine ⟨hs, hc, ⟨timer, hthread⟩, ?_, fun h' _ hne => ?_⟩
    · change update _ list _ list = _
      rw [update_self, hlists]
      rfl
    · change update _ list _ h' = _
      rw [update_of_ne hne, hlists]
  | prio =>
    cases h
    refine ⟨hs, hc, ⟨timer, hthread⟩, ?_, fun h' _ hne => ?_⟩
    · dsimp only
      rw [update_self, hlists, hthread, hprio]
      rfl
    · dsimp only
      rw [update_of_ne hne, hlists]

omit hs in
theorem startThreadTimer_cases (h : startThreadTimer k t time = some k') :
    ∃ timer, k' = k.setThread t { k.thread t with threadTimer := timer } := by
  unfold startThreadTimer at h
  split_ifs at h
  · simp only [bind_iff] at h
    rcases h with ⟨k1, h1, h2⟩
    rcases onTimer_cases h1 with ⟨timer1, _, rfl⟩
    rcases onTimer_cases h2 with ⟨timer2, _, rfl⟩
    refine ⟨timer2, ?_⟩
    simp only [setThread, update_self, update_idem]
  · cases h
    refine ⟨(k.thread t).threadTimer, ?_⟩
    unfold setThread
    rw [update_eq_self]

theorem blocks_of_wait {k2 : Kernel Queues} (h1 : rtIpcListSuspend prioMax k list t flag = some k1)
    (h2 : startThreadTimer k1 t time = some k2) (h : rtSchedule prioMax k2 = some k') :
    Blocks k k' t list flag := by
  rcases blocks_of_suspend hs h1 with ⟨hr, hc, ⟨timer1, ht⟩, hon, hoff⟩
  rcases startThreadTimer_cases h2 with ⟨timer2, rfl⟩
  rcases rtSchedule_frame h with ⟨hsame, _⟩
  refine ⟨hr, hc, ⟨timer2, ?_⟩, ?_, fun h' hw hne => ?_⟩
  · rw [hsame.thread, setThread_thread, ht, update_idem, update_self]
  · rw [hsame.lists, setThread_lists, hon]
  · rw [hsame.lists, setThread_lists, hoff h' hw hne]

theorem blocks_of_waitIn {timeout : BitVec 32}
    (h : waitIn prioMax k list t flag timeout = some k') : Blocks k k' t list flag := by
  simp only [waitIn, bind_iff] at h
  rcases h with ⟨k1, h1, k2, h2, h3⟩
  exact blocks_of_wait hs h1 h2 h3

omit hs

/-- Unlinking a thread and inserting it into the ready table, at the level of
    fields and wait lists. -/
theorem wake_insert {prioMax : Nat} {k : Kernel Queues} {t : Tid} {th : Thread} :
    (rtScheduleInsertThread prioMax ({ k with lists := remove k.lists t }.setThread t th) t).thread
      = update k.thread t (th.setState .ready) ∧
    ∀ h, h.IsWait → (rtScheduleInsertThread prioMax
      (({ k with lists := remove k.lists t } : Kernel Queues).setThread t th) t).lists h
        = (k.lists h).filter (· ≠ t) := by
  refine ⟨?_, fun h hw => ?_⟩
  · rw [rtScheduleInsertThread_thread, setThread_thread, update_self, update_idem]
  · rw [rtScheduleInsertThread_lists, insertBefore_ready_wait hw, setThread_lists]
    rfl

theorem wakes_of_resume (hs : k.state t = .suspend)
    (h : rtThreadResume prioMax k t = some (k', e)) : Wakes k k' t (k.thread t).error := by
  rcases rtThreadResume_cases h with ⟨hc, ⟨hns, _, _⟩ | ⟨_, _, timer, _, rfl⟩⟩
  · exact absurd hs hns
  · rcases wake_insert with ⟨ht, hl⟩
    exact ⟨hs, hc, ⟨timer, ht⟩, hl⟩

theorem wakes_of_resume_first (hw : ∀ w ∈ k.lists list, k.state w = .suspend)
    (h1 : rtIpcListResume prioMax k list = some k1) (h2 : rtSchedule prioMax k1 = some k') :
    ∃ w, first k.lists list = some w ∧ Wakes k k' w (k.thread w).error := by
  simp only [rtIpcListResume, bind_iff] at h1
  rcases h1 with ⟨w, hfirst, ⟨k2, e⟩, hr, hk2⟩
  cases hk2
  rcases rtSchedule_frame h2 with ⟨hsame, _⟩
  rcases wakes_of_resume (hw w (mem_of_head? hfirst)) hr with
    ⟨hsus, hc, ⟨timer, hth⟩, hl⟩
  refine ⟨w, hfirst, hsus, hc, ⟨timer, ?_⟩, fun h' hw' => ?_⟩
  · rw [hsame.thread, hth]
  · rw [hsame.lists, hl h' hw']

theorem resumeWaiting_cases (hw : ∀ w ∈ k.lists list, k.state w = .suspend)
    (h : resumeWaiting prioMax k list = some k') :
    (k.lists list = [] ∧ k' = k) ∨
      ∃ w, first k.lists list = some w ∧ Wakes k k' w (k.thread w).error := by
  unfold resumeWaiting at h
  split_ifs at h with he
  · simp only [bind_iff] at h
    rcases h with ⟨k1, h1, h2⟩
    exact .inr (wakes_of_resume_first hw h1 h2)
  · rw [some.injEq] at h
    rw [Bool.not_eq_false] at he
    exact .inl ⟨List.isEmpty_iff.mp he, h.symm⟩

theorem wakes_of_timeout (h : rtThreadTimeout prioMax k t = some k') : Wakes k k' t .etimeout := by
  rcases rtThreadTimeout_cases h with ⟨hc, hs, hsched⟩
  rcases rtSchedule_frame hsched with ⟨hsame, _⟩
  rcases wake_insert with ⟨ht, hl⟩
  refine ⟨hs, hc, ⟨(k.thread t).threadTimer, ?_⟩, fun h hw => ?_⟩
  · rw [hsame.thread, ht]
    rfl
  · rw [hsame.lists]
    exact hl h hw

theorem wakes_of_expire (h : rtTimerExpire prioMax k t = some k') : Wakes k k' t .etimeout := by
  simp only [rtTimerExpire, bind_iff, assert_iff] at h
  rcases h with ⟨_, k1, h1, k2, h2, h3⟩
  rcases onTimer_cases h1 with ⟨timer1, _, rfl⟩
  rcases onTimer_cases h3 with ⟨timer3, _, rfl⟩
  rcases wakes_of_timeout h2 with ⟨hs, hc, ⟨timer2, ht⟩, hl⟩
  rw [state, setThread_thread, update_self] at hs
  rw [setThread_thread, update_self] at hc
  refine ⟨hs, hc, ⟨timer3, ?_⟩, fun h hw => ?_⟩
  · rw [setThread_thread, ht, setThread_thread, update_self, update_idem, update_self, update_idem]
    rfl
  · rw [setThread_lists, hl h hw, setThread_lists]

theorem reprioritizes_of_control (h : rtThreadControl prioMax k t priority = some k') :
    Reprioritizes prioMax k k' t priority := by
  rcases rtThreadControl_cases h with ⟨hc, hcase⟩
  have hstat := priorityAttribute_stat prioMax { k.thread t with currentPriority := priority }
  generalize hth : priorityAttribute prioMax { k.thread t with currentPriority := priority } = th
    at hcase hstat
  rcases hcase with ⟨hs, rfl⟩ | ⟨hs, rfl⟩
  · refine ⟨hc, ?_, fun h' _ => ?_⟩
    · rw [hth, setThread_thread]
    · rw [if_neg hs, setThread_lists]
  refine ⟨hc, ?_, fun h' hw => ?_⟩
  · rw [hth, rtScheduleInsertThread_thread, setThread_thread, update_self,
      update_idem, rtScheduleRemoveThread_thread]
    -- A ready thread is set to ready once more.
    have hsame : th.setState .ready = th := by
      have hst : th.stat.state = .ready := by
        rw [hstat]
        exact hs
      unfold setState
      rw [← hst]
    rw [hsame]
  · rw [if_pos hs, rtScheduleInsertThread_lists, insertBefore_ready_wait hw,
      setThread_lists, rtScheduleRemoveThread_lists]
    rfl

theorem spawns_of_spawn {isStatic : Bool} (h : spawn prioMax k t isStatic priority = some k') :
    Spawns prioMax k k' t priority := by
  simp only [spawn, bind_iff, assert_iff] at h
  rcases h with ⟨hf, k1, h1, h2⟩
  rcases rtThreadInit_cases h1 with
    ⟨hp, th, hc, _, _, _, rfl, _, _, _, he, rfl⟩
  rcases rtThreadStartup_cases h2 with ⟨_, _, k2, e, hr, hlast⟩
  simp only [setThread_self] at hr
  have hthread0 : ∀ th' : Thread,
      (({ k with lists := init k.lists t }.setThread t th).setThread t th').thread
        = update k.thread t th' := by
    intro th'
    rw [setThread_thread, setThread_thread, update_idem]
  rcases wakes_of_resume (by
      rw [state, hthread0, update_self]) hr with ⟨_, _, ⟨timer, ht⟩, hl⟩
  rw [hthread0, update_idem, update_self] at ht
  have hfinal : k'.thread = k2.thread ∧ k'.lists = k2.lists := by
    rcases hlast with rfl | hsched
    · exact ⟨rfl, rfl⟩
    · rcases rtSchedule_frame hsched with ⟨hsame, _⟩
      exact ⟨hsame.thread, hsame.lists⟩
  refine ⟨hf, hp, ⟨_, by rw [hfinal.1, ht], ?_, rfl, ?_, ?_, ?_⟩, fun h' hw => ?_⟩
  · simp only [setState, priorityAttribute_created, hc]
  · simp only [setState, priorityAttribute_currentPriority]
  · simp only [setState, priorityAttribute_initPriority]
  · unfold priorityAttribute
    split_ifs
    · exact he
    · exact he
  · rw [hfinal.2, hl h' hw, setThread_lists, setThread_lists]
    rfl

end Effects

section Fields

variable {prioMax : Nat} {k k' : Kernel Queues} {t : Tid}

variable (hb : Blocks k k' t list flag)
include hb

theorem Blocks.of_ne (u : Tid) (hu : u ≠ t) : k'.thread u = k.thread u := by
  rcases hb.thread with ⟨timer, ht⟩
  rw [ht, update_of_ne hu]

theorem Blocks.state : k'.state t = .suspend := by
  rcases hb.thread with ⟨timer, ht⟩
  rw [Kernel.state, ht, update_self]
  rfl

theorem Blocks.error : (k'.thread t).error = (k.thread t).error := by
  rcases hb.thread with ⟨timer, ht⟩
  rw [ht, update_self]
  rfl

theorem Blocks.prio (u : Tid) :
    (k'.thread u).currentPriority = (k.thread u).currentPriority ∧
      (k'.thread u).initPriority = (k.thread u).initPriority := by
  rcases hb.thread with ⟨timer, ht⟩
  exact ⟨field_update Thread.currentPriority ht rfl u, field_update Thread.initPriority ht rfl u⟩

omit hb

theorem Wakes.of_ne (hb : Wakes k k' t e) (u : Tid) (hu : u ≠ t) : k'.thread u = k.thread u := by
  rcases hb.thread with ⟨timer, ht⟩
  rw [ht, update_of_ne hu]

theorem Wakes.state (hb : Wakes k k' t e) : k'.state t = .ready := by
  rcases hb.thread with ⟨timer, ht⟩
  rw [Kernel.state, ht, update_self]
  rfl

theorem Wakes.error (hb : Wakes k k' t e) : (k'.thread t).error = e := by
  rcases hb.thread with ⟨timer, ht⟩
  rw [ht, update_self]

theorem Wakes.prio (hb : Wakes k k' t e) (u : Tid) :
    (k'.thread u).currentPriority = (k.thread u).currentPriority ∧
      (k'.thread u).initPriority = (k.thread u).initPriority := by
  rcases hb.thread with ⟨timer, ht⟩
  exact ⟨field_update Thread.currentPriority ht rfl u, field_update Thread.initPriority ht rfl u⟩

theorem Reprioritizes.of_ne (hb : Reprioritizes prioMax k k' t priority) (u : Tid) (hu : u ≠ t) :
    k'.thread u = k.thread u := by
  rw [hb.thread, update_of_ne hu]

theorem Spawns.of_ne (hb : Spawns prioMax k k' t priority) (u : Tid) (hu : u ≠ t) :
    k'.thread u = k.thread u := by
  rcases hb.thread with ⟨th, ht, _⟩
  rw [ht, update_of_ne hu]

theorem state_of_thread {u : Tid} (h : k'.thread u = k.thread u) : k'.state u = k.state u := by
  unfold state
  rw [h]

end Fields

/-- The wait lists agree with the thread states and with where each thread is
    waiting, or was until it was woken. -/
structure WaitInv (k : Kernel Queues) (loc : Tid → Option Head) : Prop where
  mem : ∀ t h, h.IsWait → (t ∈ k.lists h ↔ k.state t = .suspend ∧ loc t = some h)
  nodup : ∀ h, h.IsWait → (k.lists h).Nodup
  wait : ∀ t h, loc t = some h → h.IsWait
  waiting : ∀ t, k.state t = .suspend → loc t ≠ none
  alive : ∀ t, (k.thread t).created = true → k.state t = .ready ∨ k.state t = .suspend
  fresh : ∀ t, (k.thread t).created = false → k.state t = .init ∧ loc t = none

/-- Where each thread waits, read off the call it is in. -/
def locOf {C : Type} (headOf : C → Head) (call : Tid → Option C) (t : Tid) : Option Head :=
  (call t).map headOf

section Location

variable {C : Type} (headOf : C → Head) (call : Tid → Option C) (t : Tid)

variable {c : C}

variable {headOf call t} in
theorem locOf_of_call (h : call t = some c) : locOf headOf call t = some (headOf c) := by
  rw [locOf, h, map_some]

variable {headOf call t} in
theorem call_of_loc (hl : locOf headOf call t = some h) : ∃ c, call t = some c ∧ headOf c = h := by
  rw [locOf, map_eq_some_iff] at hl
  exact hl

theorem locOf_enter : locOf headOf (update call t (some c))
    = update (locOf headOf call) t (some (headOf c)) :=
  funext (apply_update (fun _ => Option.map headOf) call t (some c))

theorem locOf_leave : locOf headOf (update call t none) = update (locOf headOf call) t none :=
  funext (apply_update (fun _ => Option.map headOf) call t none)

/-- A call that changes without changing where it waits. -/
theorem locOf_change (c d : C) (hc : call t = some c) (hd : headOf d = headOf c) :
    locOf headOf (update call t (some d)) = locOf headOf call := by
  rw [locOf_enter, hd]
  exact update_eq_self_iff.mpr (locOf_of_call hc).symm

end Location

section Invariant

variable {prioMax : Nat} {k k' : Kernel Queues} {loc : Tid → Option Head} {t : Tid}

theorem state_update_of_ne {k : Kernel Queues} {t : Tid} {th : Thread}
    (h : k'.thread = update k.thread t th) {u : Tid}
    (hu : u ≠ t) : k'.state u = k.state u :=
  state_of_thread (by rw [h, update_of_ne hu])

theorem state_update_self {k : Kernel Queues} {t : Tid} {th : Thread}
    (h : k'.thread = update k.thread t th) :
    k'.state t = th.stat.state := by
  rw [state, h, update_self]

theorem reprioritizes_state (hb : Reprioritizes prioMax k k' t priority) (u : Tid) :
    k'.state u = k.state u := by
  refine field_update (fun th : Thread => th.stat.state) hb.thread ?_ u
  rw [priorityAttribute_stat]

variable (hk : WaitInv k loc)
include hk

theorem not_mem_wait (t : Tid) (hs : k.state t ≠ .suspend) (h : Head) (hw : h.IsWait) :
    t ∉ k.lists h := by
  rw [hk.mem t h hw]
  exact fun hc => hs hc.1

theorem filter_wait {t : Tid} (hs : k.state t ≠ .suspend) {h : Head} (hw : h.IsWait) :
    (k.lists h).filter (· ≠ t) = k.lists h :=
  Ring.filter_ne_of_not_mem (not_mem_wait hk t hs h hw)

theorem not_mem_other {t : Tid} {h' : Head} (hw : h.IsWait) (hw' : h'.IsWait)
    (hne : h' ≠ h) (hm : t ∈ k.lists h) : t ∉ k.lists h' := by
  intro hm'
  have hloc := ((hk.mem t h' hw').mp hm').2
  rw [((hk.mem t h hw).mp hm).2, some.injEq] at hloc
  exact hne hloc.symm

theorem waiting_of_first (hw : h.IsWait) (hf : first k.lists h = some t) :
    k.state t = .suspend ∧ loc t = some h :=
  (hk.mem t h hw).mp (mem_of_head? hf)

/-- Blocking into a list: who is in which list, without the order. -/
theorem blocks_off {list : Head} {flag : IpcFlag}
    (hb : Blocks k k' t list flag) {h : Head} (hw : h.IsWait) (hne : h ≠ list) :
    k'.lists h = k.lists h := by
  rw [hb.off h hw hne, filter_wait hk (by rw [hb.ready]; decide) hw]

theorem blocks_on {list : Head} {flag : IpcFlag} (hb : Blocks k k' t list flag) (hw : list.IsWait) :
    k'.lists list = place flag (fun u => (k.thread u).currentPriority) t (k.lists list) := by
  rw [hb.on, filter_wait hk (by rw [hb.ready]; decide) hw]

theorem waitInv_update {loc' : Tid → Option Head} {th : Thread}
    (ht : k'.thread = update k.thread t th) (hc : th.created = true)
    (hst : k'.state t = .ready ∨ k'.state t = .suspend) (hloc : ∀ u, u ≠ t → loc' u = loc u)
    (hself : ∀ h, loc' t = some h → h.IsWait) (hwaiting : k'.state t = .suspend → loc' t ≠ none)
    (hmem : ∀ h, h.IsWait → (t ∈ k'.lists h ↔ k'.state t = .suspend ∧ loc' t = some h))
    (hother : ∀ u h, u ≠ t → h.IsWait → (u ∈ k'.lists h ↔ u ∈ k.lists h))
    (hnd : ∀ h, h.IsWait → (k'.lists h).Nodup) : WaitInv k' loc' := by
  have hcr : (k'.thread t).created = true := by
    rw [ht, update_self, hc]
  have hne : ∀ u, u ≠ t → k'.thread u = k.thread u := fun u hu => by
    rw [ht, update_of_ne hu]
  refine ⟨fun u h hh => ?_, hnd, fun u h hu => ?_, fun u hu => ?_, fun u hu => ?_, fun u hu => ?_⟩
    <;> rcases eq_or_ne u t with rfl | hut
  · exact hmem h hh
  · rw [hother u h hut hh, hloc u hut, state_of_thread (hne u hut)]
    exact hk.mem u h hh
  · exact hself h hu
  · exact hk.wait u h (hloc u hut ▸ hu)
  · exact hwaiting hu
  · rw [hloc u hut]
    exact hk.waiting u (state_of_thread (hne u hut) ▸ hu)
  · exact hst
  · rw [state_of_thread (hne u hut)]
    exact hk.alive u (hne u hut ▸ hu)
  · exact absurd hu (by rw [hcr]; decide)
  · rw [hloc u hut, state_of_thread (hne u hut)]
    exact hk.fresh u (hne u hut ▸ hu)

theorem waitInv_suspends {k' : Kernel Queues} {list : Head} (hw : list.IsWait)
    (hready : k.state t = .ready) (hcreated : (k.thread t).created = true)
    (hthread : ∃ timer, k'.thread = update k.thread t
      { (k.thread t).setState .suspend with threadTimer := timer })
    (hon : ∀ u, u ∈ k'.lists list ↔ u = t ∨ u ∈ k.lists list) (hnd : (k'.lists list).Nodup)
    (hoff : ∀ h, h.IsWait → h ≠ list → k'.lists h = k.lists h) :
    WaitInv k' (update loc t (some list)) := by
  rcases hthread with ⟨timer, ht⟩
  have hself : k'.state t = .suspend := state_update_self ht
  have hnt := not_mem_wait hk t (by rw [hready]; decide)
  refine waitInv_update hk ht hcreated (.inr hself)
    (fun u hu => update_of_ne hu _ _) ?_ (fun _ => ?_) ?_ ?_ ?_
  · rw [update_self]
    rintro h ⟨⟩
    exact hw
  · rw [update_self]
    exact some_ne_none list
  · intro h hh
    rw [update_self, hself, some.injEq]
    by_cases hl : h = list
    · rw [hl, hon]
      exact ⟨fun _ => ⟨rfl, rfl⟩, fun _ => .inl rfl⟩
    · rw [hoff h hh hl]
      exact ⟨fun h' => absurd h' (hnt h hh), fun h' => absurd h'.2.symm hl⟩
  · intro u h hu hh
    by_cases hl : h = list
    · rw [hl, hon, or_iff_right hu]
    · rw [hoff h hh hl]
  · intro h hh
    by_cases hl : h = list
    · exact hl ▸ hnd
    · rw [hoff h hh hl]
      exact hk.nodup h hh

theorem waitInv_blocks {list : Head} {flag : IpcFlag} (hw : list.IsWait)
    (hb : Blocks k k' t list flag) : WaitInv k' (update loc t (some list)) := by
  have hnt := not_mem_wait hk t (by rw [hb.ready]; decide) list hw
  refine waitInv_suspends hk hw hb.ready hb.created hb.thread (fun u => ?_) ?_
    (fun h hh hl => blocks_off hk hb hh hl)
  · rw [blocks_on hk hb hw, mem_place]
  · rw [blocks_on hk hb hw]
    exact nodup_place hnt (hk.nodup list hw)

theorem waitInv_wakes {e : RtErr} (hb : Wakes k k' t e) : WaitInv k' loc := by
  rcases hb.thread with ⟨timer, ht⟩
  have hself : k'.state t = .ready := state_update_self ht
  refine waitInv_update hk ht hb.created (.inl hself) (fun _ _ => rfl) (hk.wait t)
    (fun hs => ?_) (fun h hh => ?_) (fun u h hu hh => ?_) (fun h hh => ?_)
  · exact nomatch hself.symm.trans hs
  · rw [hb.lists h hh, mem_filter, decide_eq_true_eq, hself]
    exact ⟨fun h' => absurd rfl h'.2, fun h' => nomatch h'.1⟩
  · rw [hb.lists h hh, mem_filter, decide_eq_true_eq, and_iff_left hu]
  · rw [hb.lists h hh]
    exact (hk.nodup h hh).filter _

/-- States, creation and wait lists are all the invariant reads. -/
theorem waitInv_congr (k' : Kernel Queues) (hstate : ∀ u, k'.state u = k.state u)
    (hcr : ∀ u, (k'.thread u).created = (k.thread u).created)
    (hlists : ∀ h, h.IsWait → k'.lists h = k.lists h) : WaitInv k' loc := by
  refine ⟨fun u h hh => ?_, fun h hh => ?_, hk.wait, fun u hu => ?_, fun u hu => ?_, fun u hu => ?_⟩
  · rw [hlists h hh, hstate]
    exact hk.mem u h hh
  · rw [hlists h hh]
    exact hk.nodup h hh
  · rw [hstate] at hu
    exact hk.waiting u hu
  · rw [hcr] at hu
    rw [hstate]
    exact hk.alive u hu
  · rw [hcr] at hu
    rw [hstate]
    exact hk.fresh u hu

theorem waitInv_setThread (t : Tid) (th : Thread) (hst : th.stat.state = (k.thread t).stat.state)
    (hcr : th.created = (k.thread t).created) :
    WaitInv (k.setThread t th) loc := by
  refine waitInv_congr (k := k) hk _ (fun u => ?_) (fun u => ?_) (fun h _ => rfl)
  · exact field_update (fun th : Thread => th.stat.state) rfl hst u
  · exact field_update created rfl hcr u

theorem waitInv_schedule (h : rtSchedule prioMax k = some k') : WaitInv k' loc := by
  rcases rtSchedule_frame h with ⟨hsame, _⟩
  refine waitInv_congr hk k' (fun u => ?_) (fun u => ?_) (fun h _ => ?_)
  · unfold state
    rw [hsame.thread]
  · rw [hsame.thread]
  · rw [hsame.lists]

theorem reprioritizes_lists (hb : Reprioritizes prioMax k k' t priority)
    (h : Head) (hw : h.IsWait) : k'.lists h = k.lists h := by
  rw [hb.lists h hw]
  by_cases hs : k.state t = .ready
  · rw [if_pos hs, filter_wait hk (by rw [hs]; decide) hw]
  · rw [if_neg hs]

theorem spawns_lists (hb : Spawns prioMax k k' t priority) (h : Head)
    (hw : h.IsWait) : k'.lists h = k.lists h := by
  rw [hb.lists h hw, filter_wait hk (by rw [(hk.fresh t hb.fresh).1]; decide) hw]

theorem waitInv_spawns (hb : Spawns prioMax k k' t priority) : WaitInv k' loc := by
  rcases hb.thread with ⟨th, ht, hc, hst, _, _, _⟩
  have hself : k'.state t = .ready := (state_update_self ht).trans hst
  rcases hk.fresh t hb.fresh with ⟨hinit, _⟩
  have hlists := spawns_lists hk hb
  refine waitInv_update hk ht hc (.inl hself) (fun _ _ => rfl) (hk.wait t) (fun hs => ?_)
    (fun h hh => ?_) (fun u h _ hh => ?_) (fun h hh => ?_)
  · exact nomatch hself.symm.trans hs
  · rw [hlists h hh, hk.mem t h hh, hinit, hself]
    simp only [reduceCtorEq, false_and]
  · rw [hlists h hh]
  · rw [hlists h hh]
    exact hk.nodup h hh

theorem waitInv_leave {t : Tid} (hs : k.state t ≠ .suspend) : WaitInv k (update loc t none) := by
  refine ⟨fun u h hh => ?_, hk.nodup, forall_update_some nofun (fun u _ => hk.wait u),
    fun u hu => ?_, hk.alive, fun u hu => ?_⟩
  · rw [hk.mem u h hh]
    by_cases hut : u = t
    · rw [hut, update_self]
      exact ⟨fun h' => absurd h'.1 hs, fun h' => nomatch h'.2⟩
    · rw [update_of_ne hut]
  · by_cases hut : u = t
    · rw [hut] at hu
      exact absurd hu hs
    · rw [update_of_ne hut]
      exact hk.waiting u hu
  · by_cases hut : u = t
    · rw [hut, update_self]
      rw [hut] at hu
      exact ⟨(hk.fresh t hu).1, rfl⟩
    · rw [update_of_ne hut]
      exact hk.fresh u hu

omit hk

theorem waitInv_init {prioMax : Nat} :
    WaitInv (rtSystemSchedulerInit prioMax queuesInit) (fun _ => none) := by
  refine ⟨fun u h _ => ⟨fun hm => absurd hm not_mem_nil, fun hc => ?_⟩,
    fun h _ => nodup_nil, fun _ h hu => ?_, fun u hu => ?_, fun u hu => ?_,
    fun u _ => ⟨rfl, rfl⟩⟩
  · exact nomatch hc.2
  · exact nomatch hu
  · change ThreadState.init = .suspend at hu
    exact absurd hu (by decide)
  · change false = true at hu
    exact absurd hu (by decide)

end Invariant

def setError (k : Kernel Queues) (t : Tid) (e : RtErr) : Kernel Queues :=
  k.setThread t { k.thread t with error := e }

section SetError

variable (k : Kernel Queues) (t : Tid) (e : RtErr)

variable {k t e} in
theorem setError_of_ne {u : Tid} (hu : u ≠ t) : (setError k t e).thread u = k.thread u := by
  rw [setError, setThread_thread, update_of_ne hu]

theorem setError_self : (setError k t e).thread t = { k.thread t with error := e } := by
  rw [setError, setThread_self]

theorem setError_state (u : Tid) : (setError k t e).state u = k.state u :=
  field_update (fun th : Thread => th.stat.state)
    (k.setThread_thread t { k.thread t with error := e }) rfl u

variable {k t e} in
theorem setError_prio {u : Tid} :
    ((setError k t e).thread u).currentPriority = (k.thread u).currentPriority ∧
      ((setError k t e).thread u).initPriority = (k.thread u).initPriority := by
  have h := k.setThread_thread t { k.thread t with error := e }
  exact ⟨field_update Thread.currentPriority h rfl u, field_update Thread.initPriority h rfl u⟩

variable {k t e} in
theorem setError_created (u : Tid) : ((setError k t e).thread u).created = (k.thread u).created :=
  field_update created (k.setThread_thread t { k.thread t with error := e }) rfl u

theorem setError_idem (e' : RtErr) : setError (setError k t e) t e' = setError k t e' := by
  unfold setError setThread
  simp only [update_self, update_idem]

theorem waitInv_setError {loc : Tid → Option Head} (hk : WaitInv k loc) :
    WaitInv (setError k t e) loc :=
  waitInv_setThread hk t _ rfl rfl

end SetError

/-- All threads of one wait list have been resumed with an error. -/
structure ResumesAll (k k' : Kernel Queues) (list : Head) : Prop where
  of_not_mem : ∀ u, u ∉ k.lists list → k'.thread u = k.thread u
  of_mem : ∀ u, u ∈ k.lists list → ∃ timer, k'.thread u =
    { (k.thread u).setState .ready with error := .error, threadTimer := timer }
  empty : k'.lists list = []
  other : ∀ h, h.IsWait → h ≠ list → k'.lists h = k.lists h

/-- The loop ends with the list empty, and everybody on it has been woken. The
    induction is on the number of rounds, which is the length of the list. -/
theorem resumesAll_of_loop (prioMax n : Nat) (k k' : Kernel Queues) (loc : Tid → Option Head)
    (list : Head) (hw : list.IsWait) (hk : WaitInv k loc) (hn : (k.lists list).length = n)
    (h : rtIpcListResumeAll prioMax n k list = some k') :
    ResumesAll k k' list ∧ WaitInv k' loc := by
  induction n generalizing k with
  | zero =>
    cases h
    have hnil := eq_nil_of_length_eq_zero hn
    refine ⟨⟨fun _ _ => rfl, fun u hu => ?_, hnil, fun _ _ _ => rfl⟩, hk⟩
    cases hnil ▸ hu
  | succ n ih =>
    rcases exists_cons_of_length_eq_add_one hn with ⟨w, ws, hlist⟩
    have hfirst : first k.lists list = some w := by
      rw [first_eq_head, hlist]
      rfl
    simp only [rtIpcListResumeAll, hfirst, bind_iff] at h
    rcases h with ⟨⟨k1, e⟩, hr, hrest⟩
    rcases waiting_of_first hk hw hfirst with ⟨hsus, _⟩
    have hk0 := waitInv_setError k w .error hk
    have hb := wakes_of_resume (k := setError k w .error) (by rw [setError_state]; exact hsus) hr
    have hk1 := waitInv_wakes hk0 hb
    -- Taking the first thread off a list without repetitions leaves the rest.
    have hnd : (w :: ws).Nodup := hlist ▸ hk.nodup list hw
    have htail : k1.lists list = ws := by
      rw [hb.lists list hw]
      change (k.lists list).filter (· ≠ w) = ws
      rw [hlist]
      exact Ring.filter_ne_split not_mem_nil (nodup_cons.mp hnd).1
    have hother : ∀ h, h.IsWait → h ≠ list → k1.lists h = k.lists h := by
      intro h hh hne
      rw [hb.lists h hh]
      exact Ring.filter_ne_of_not_mem (not_mem_other hk hw hh hne
        (by rw [hlist]; exact mem_cons_self))
    rcases ih k1 hk1 (by rw [htail]; simpa only [hlist, length_cons,
      Nat.add_right_cancel_iff] using hn) hrest with ⟨hall, hk'⟩
    refine ⟨⟨fun u hu => ?_, fun u hu => ?_, hall.empty, fun h hh hne => ?_⟩, hk'⟩
    · rw [hlist, mem_cons, not_or] at hu
      rw [hall.of_not_mem u (by rw [htail]; exact hu.2), hb.of_ne u hu.1, setError_of_ne hu.1]
    · rw [hlist] at hu
      rcases mem_cons.mp hu with rfl | htl
      · rcases hb.thread with ⟨timer, hth⟩
        refine ⟨timer, ?_⟩
        rw [hall.of_not_mem u (by rw [htail]; exact (nodup_cons.mp hnd).1), hth,
          update_self, setError_self]
        rfl
      have huw : u ≠ w := by
        rintro rfl
        exact (nodup_cons.mp hnd).1 htl
      rcases hall.of_mem u (by rw [htail]; exact htl) with ⟨timer, hth⟩
      refine ⟨timer, ?_⟩
      rw [hth, hb.of_ne u huw, setError_of_ne huw]
    · rw [hall.other h hh hne, hother h hh hne]

/-- Nobody starts to wait. A thread that is in a call is left alone, or it is woken with an
    error of some kind. -/
structure Calm (E : RtErr → Prop) (k k' : Kernel Queues) (loc : Tid → Option Head) : Prop where
  wait : WaitInv k' loc
  thread : ∀ u, loc u ≠ none → k'.thread u = k.thread u ∨
    k.state u = .suspend ∧ k'.state u = .ready ∧ E (k'.thread u).error
  created : ∀ u, (k.thread u).created = true → (k'.thread u).created = true
  lists : ∀ h, h.IsWait → k'.lists h ⊆ k.lists h

section Calm

variable {E : RtErr → Prop} {prioMax : Nat} {k k' : Kernel Queues} {loc : Tid → Option Head}
  {t : Tid}

variable (hk : WaitInv k loc)
include hk

theorem calm_spawns {priority : Nat} (hb : Spawns prioMax k k' t priority) : Calm E k k' loc := by
  have hother : ∀ u, u ≠ t → k'.thread u = k.thread u := hb.of_ne
  refine ⟨waitInv_spawns hk hb, fun u hu => .inl (hother u ?_), fun u hu => ?_, fun h hh => ?_⟩
  · rintro rfl
    exact hu (hk.fresh u hb.fresh).2
  · rw [hother u (by rintro rfl; exact nomatch hb.fresh.symm.trans hu)]
    exact hu
  · rw [spawns_lists hk hb h hh]
    exact Subset.refl _

theorem calm_wakes (hb : Wakes k k' t e) (he : E e) : Calm E k k' loc := by
  refine ⟨waitInv_wakes hk hb, fun u _ => ?_, fun u hu => ?_, fun h hh => ?_⟩
  · by_cases hut : u = t
    · rw [hut]
      exact .inr ⟨hb.suspend, hb.state, hb.error ▸ he⟩
    · exact .inl (hb.of_ne u hut)
  · rcases hb.thread with ⟨timer, hth⟩
    exact (field_update created hth rfl u).trans hu
  · rw [hb.lists h hh]
    exact filter_sublist.subset

theorem calm_schedule (h : rtSchedule prioMax k = some k') : Calm E k k' loc := by
  rcases rtSchedule_frame h with ⟨hsame, _⟩
  refine ⟨waitInv_schedule hk h, fun u _ => .inl ?_, fun u hu => ?_, fun h _ => ?_⟩
  · rw [hsame.thread]
  · rw [hsame.thread]
    exact hu
  · rw [hsame.lists]
    exact Subset.refl _

theorem calm_setError {e : RtErr} (ht : loc t = none) : Calm E k (setError k t e) loc := by
  refine ⟨waitInv_setError k t e hk, fun u hu => .inl (setError_of_ne ?_), fun u hu => ?_,
    fun h _ => Subset.refl _⟩
  · rintro rfl
    exact hu ht
  · rw [setError_created]
    exact hu

theorem calm_resumesAll (hk' : WaitInv k' loc)
    (hb : ResumesAll k k' list) (hw : list.IsWait) (he : E .error) : Calm E k k' loc := by
  refine ⟨hk', fun u _ => ?_, fun u hu => ?_, fun h hh => ?_⟩
  · by_cases hu : u ∈ k.lists list
    · rcases hb.of_mem u hu with ⟨timer, hth⟩
      refine .inr ⟨((hk.mem u list hw).mp hu).1, ?_, ?_⟩
      · rw [state, hth]
        rfl
      · rw [hth]
        exact he
    · exact .inl (hb.of_not_mem u hu)
  · by_cases hm : u ∈ k.lists list
    · rcases hb.of_mem u hm with ⟨timer, hth⟩
      rw [hth]
      exact hu
    · rw [hb.of_not_mem u hm]
      exact hu
  · by_cases hl : h = list
    · rw [hl, hb.empty]
      exact nil_subset _
    · rw [hb.other h hh hl]
      exact Subset.refl _

omit hk

/-- Those who still wait have been left alone. -/
theorem Calm.of_mem {w : Tid} (hq : Calm E k k' loc) (hw : h.IsWait) (hm : w ∈ k'.lists h) :
    w ∈ k.lists h ∧ k'.thread w = k.thread w := by
  rcases (hq.wait.mem w h hw).mp hm with ⟨hsus, hloc⟩
  refine ⟨hq.lists h hw hm, (hq.thread w (hloc ▸ nofun)).resolve_right fun hc => ?_⟩
  exact nomatch hc.2.1.symm.trans hsus

theorem Calm.nil (hq : Calm E k k' loc) (hw : h.IsWait) (hnil : k.lists h = []) : k'.lists h = [] :=
  eq_nil_of_subset_nil (hnil ▸ hq.lists h hw)

end Calm

end Honeycomb
