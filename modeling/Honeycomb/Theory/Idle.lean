import Honeycomb.Core.Idle
import Honeycomb.Theory.ReadyTable
import Honeycomb.Lib.Run

/-!
# What the Reaper Releases

A thread made by `rt_thread_create` is to lose its stack and its control block once, after
it has ended. A thread made by `rt_thread_init` is to keep them. The reaper goes by the
static flag of the object, and `rt_thread_detach` clears this flag before it hands a thread
with a cleanup function to the reaper, which then releases memory that is not from the heap.

Without such a call the flag says who made the thread for as long as the reaper may look at
it. This is the invariant `ReapInv`, and with it the books are right. Three routes lead to
the end of a thread, and what they have in common is `Ends`: the thread goes to the reaper
with its flag as it was, or it goes nowhere, being static and without a cleanup function.
All other calls are `Quiet`.

## Theorems

* `storage_released_once`: The property of all runs.
* `static_storage_released`: A static thread loses its memory.
-/

namespace Honeycomb

open Function IdleSys Kernel List Run ThreadLists

namespace IdleSys

/-- The reaper is done with a thread and has released what there is to release. -/
def Released (s : IdleSys) (t : Tid) : Prop :=
  s.Done t ∧ s.reaping ≠ some t

instance (s : IdleSys) (t : Tid) : Decidable (s.Released t) :=
  inferInstanceAs (Decidable (_ ∧ _))

end IdleSys

/-- What a thread's memory and its cleanup function have gone through. Nothing of a static
    thread is released. Stack and object of another one are released once, and not before it
    has ended. The cleanup function has been called once, if there is one, when the reaper is
    done with the thread, and not before. And left alone, the reaper gets all of this done
    for the threads that have ended, provided there is a thread it can switch to. -/
structure StorageOk (prioMax : Nat) (s : IdleSys) : Prop where
  static : ∀ t, s.dynamic t = false → s.stackFreed t = 0 ∧ s.objectDeleted t = 0
  dynamic : ∀ t, s.dynamic t = true → s.stackFreed t = (if s.Released t then 1 else 0) ∧
    s.objectDeleted t = if s.Released t then 1 else 0
  cleaned : ∀ t, s.cleaned t = if (s.k.thread t).cleanup = true ∧ s.Done t then 1 else 0
  finishes : ∀ u, s.k.state u = .ready → ∃ s',
    ReachableBy (idleStep prioMax) (fun a => a = .reap ∨ a = .release) s s' ∧
    ∀ t, s.k.state t = .close →
      (s.dynamic t = true → s'.stackFreed t = 1 ∧ s'.objectDeleted t = 1) ∧
      ((s.k.thread t).cleanup = true → s'.cleaned t = 1)

/-- A thread that is detached has no cleanup function, and a cleanup function is not set
    when the reaper is done with the thread. -/
def IdleCond (s : IdleSys) : IdleAction → Prop
  | .sched (.detach t) => (s.k.thread t).cleanup = false
  | .sched (.setCleanup t _) => ¬ s.Done t
  | _ => True

instance decidableIdleCond (s : IdleSys) (a : IdleAction) : Decidable (IdleCond s a) :=
  match a with
  | .sched (.detach t) => inferInstanceAs (Decidable ((s.k.thread t).cleanup = false))
  | .sched (.setCleanup t _) => inferInstanceAs (Decidable (¬ s.Done t))
  | .sched (.init _ _ _) | .sched (.startup _) | .sched (.suspend _) | .sched (.resume _)
  | .sched .yield | .sched (.sleep _) | .sched (.sleepReturn _) | .sched (.changePriority _ _)
  | .sched (.timeout _) | .sched .exit | .sched (.delete _) | .sched .start
  | .sched .enterCritical | .sched .exitCritical | .reap | .release => isTrue trivial

variable {e : RtErr} {a : SchedAction} {k k' : Kernel Queues} {rest : List Tid}

section Quiet

variable {prioMax : Nat} {k k' : Kernel Queues} {t : Tid}

/-- A call that ends no thread and that leaves alone what the reaper looks at. -/
structure Quiet (k k' : Kernel Queues) : Prop where
  lists : k'.lists .defunct = k.lists .defunct
  close : ∀ t, k'.state t = .close ↔ k.state t = .close
  created : ∀ t, (k'.thread t).created = (k.thread t).created
  isStatic : ∀ t, (k'.thread t).isStatic = (k.thread t).isStatic
  cleanup : ∀ t, (k'.thread t).cleanup = (k.thread t).cleanup

theorem quiet_refl : Quiet k k :=
  ⟨rfl, fun _ => Iff.rfl, fun _ => rfl, fun _ => rfl, fun _ => rfl⟩

theorem quiet_trans {k1 : Kernel Queues} (h : Quiet k k1) (h' : Quiet k1 k') : Quiet k k' :=
  ⟨h'.lists.trans h.lists, fun t => (h'.close t).trans (h.close t),
    fun t => (h'.created t).trans (h.created t), fun t => (h'.isStatic t).trans (h.isStatic t),
    fun t => (h'.cleanup t).trans (h.cleanup t)⟩

/-- One control block is overwritten, and a thread is moved among the other lists. -/
theorem quiet_of_thread (t : Tid) (th : Thread) (hthread : k'.thread = update k.thread t th)
    (hlists : k'.lists .defunct = k.lists .defunct)
    (hclose : th.stat.state = .close ↔ k.state t = .close)
    (hcreated : th.created = (k.thread t).created)
    (hstatic : th.isStatic = (k.thread t).isStatic)
    (hcleanup : th.cleanup = (k.thread t).cleanup) : Quiet k k' := by
  refine ⟨hlists, fun u => ?_, field_update Thread.created hthread hcreated,
    field_update Thread.isStatic hthread hstatic, field_update Thread.cleanup hthread hcleanup⟩
  have h := field_update (fun th : Thread => th.stat.state = .close) hthread (propext hclose) u
  exact iff_of_eq h

theorem quiet_sameTable (h : SameTable k k') : Quiet k k' :=
  ⟨by rw [h.lists], fun t => by rw [state, h.thread]; rfl, fun t => by rw [h.thread],
    fun t => by rw [h.thread], fun t => by rw [h.thread]⟩

theorem quiet_schedule (h : rtSchedule prioMax k = some k') : Quiet k k' :=
  quiet_sameTable (rtSchedule_frame h).1

/-- A thread that is not among the dead can be unlinked without them noticing. -/
theorem remove_defunct {q : Queues} (ht : t ∉ q .defunct) : remove q t .defunct = q .defunct :=
  Ring.filter_ne_of_not_mem ht

theorem insertBefore_defunct {q : Queues} {p : Nat} :
    insertBefore q (.ready p) t .defunct = q .defunct :=
  update_of_ne (by nofun) _ _

/-- Threads among the dead have ended. -/
def DeadClosed (k : Kernel Queues) : Prop :=
  ∀ t ∈ k.lists .defunct, k.state t = .close

theorem quiet_dead (h : Quiet k k') (hd : DeadClosed k) : DeadClosed k' := by
  intro t ht
  rw [h.lists] at ht
  exact (h.close t).mpr (hd t ht)

theorem priorityAttribute_fields {prioMax : Nat} {th : Thread} :
    (priorityAttribute prioMax th).stat = th.stat ∧
      (priorityAttribute prioMax th).created = th.created ∧
      (priorityAttribute prioMax th).isStatic = th.isStatic ∧
      (priorityAttribute prioMax th).cleanup = th.cleanup := by
  unfold priorityAttribute
  split_ifs <;> exact ⟨rfl, rfl, rfl, rfl⟩

theorem quiet_sleepReturn : Quiet k (rtThreadSleepReturn k t) := by
  rcases rtThreadSleepReturn_cases with h | h
  · rw [h]
    exact quiet_refl
  · rw [h]
    exact quiet_of_thread t _ rfl rfl Iff.rfl rfl rfl rfl

variable (hd : DeadClosed k)
include hd

theorem not_dead (hs : k.state t ≠ .close) : t ∉ k.lists .defunct :=
  fun hm => hs (hd t hm)

omit hd in
/-- A thread that has not ended becomes ready, with some fields of no interest here
    changed on the way. -/
theorem quiet_wake (prioMax : Nat) {k : Kernel Queues} {t : Tid} (th : Thread) (hd : DeadClosed k)
    (hs : k.state t ≠ .close) (hcreated : th.created = (k.thread t).created)
    (hstatic : th.isStatic = (k.thread t).isStatic) (hcleanup : th.cleanup = (k.thread t).cleanup) :
    Quiet k (rtScheduleInsertThread prioMax
      ({ k with lists := remove k.lists t }.setThread t th) t) := by
  refine quiet_of_thread t (th.setState .ready) ?_ ?_ ?_ hcreated hstatic hcleanup
  · rw [rtScheduleInsertThread_thread]
    simp only [setThread_thread, update_self, update_idem]
  · rw [rtScheduleInsertThread_lists]
    exact remove_defunct (not_dead hd hs)
  · simp only [Thread.setState, reduceCtorEq, hs]

theorem quiet_resume (h : rtThreadResume prioMax k t = some (k', e)) : Quiet k k' := by
  rcases rtThreadResume_cases h with ⟨_, ⟨_, rfl, _⟩ | ⟨hs, _, timer, _, rfl⟩⟩
  · exact quiet_refl
  · exact quiet_wake prioMax _ hd (by rw [hs]; simp only [ne_eq, reduceCtorEq,
      not_false_eq_true]) rfl rfl rfl

theorem quiet_suspend (h : rtThreadSuspend prioMax k t = some (k', e)) : Quiet k k' := by
  rcases rtThreadSuspend_cases h with ⟨_, ⟨_, rfl, _⟩ | ⟨hs, _, timer, _, rfl⟩⟩
  · exact quiet_refl
  have hopen : k.state t ≠ .close := by
    rw [hs]
    nofun
  refine quiet_of_thread t { (k.thread t).setState .suspend with threadTimer := timer }
    ?_ ?_ ?_ rfl rfl rfl
  · simp only [setThread_thread, rtScheduleRemoveThread_thread, update_idem]
  · rw [setThread_lists, rtScheduleRemoveThread_lists]
    have hnot := not_dead hd hopen
    exact remove_defunct hnot
  · simp only [Thread.setState, reduceCtorEq, hopen]

theorem quiet_startup (h : rtThreadStartup prioMax k t = some k') : Quiet k k' := by
  rcases rtThreadStartup_cases h with ⟨_, hs, k1, e, hr, hlast⟩
  have h0 : Quiet k (k.setThread t { priorityAttribute prioMax
      { k.thread t with currentPriority := (k.thread t).initPriority } with
        stat := ⟨.suspend, 0⟩ }) := by
    rcases priorityAttribute_fields with ⟨_, hcr, his, hcl⟩
    exact quiet_of_thread t _ rfl rfl (by simp only [reduceCtorEq, hs]) hcr his hcl
  have h1 := quiet_trans h0 (quiet_resume (quiet_dead h0 hd) hr)
  rcases hlast with rfl | hsched
  · exact h1
  · exact quiet_trans h1 (quiet_schedule hsched)

theorem quiet_yield (h : rtThreadYield prioMax k = some k') : Quiet k k' := by
  rcases rtThreadYield_cases h with ⟨t, _, rfl | ⟨hs, _, hsched⟩⟩
  · exact quiet_refl
  have hmove : Quiet k { k with
      lists := insertBefore (remove k.lists t) (.ready (k.thread t).currentPriority) t } := by
    refine ⟨?_, fun _ => Iff.rfl, fun _ => rfl, fun _ => rfl, fun _ => rfl⟩
    refine insertBefore_defunct.trans (remove_defunct (not_dead hd ?_))
    rw [hs]
    nofun
  exact quiet_trans hmove (quiet_schedule hsched)

theorem quiet_sleep {tick : BitVec 32}
    (h : rtThreadSleep prioMax k tick = some k') : Quiet k k' := by
  rcases rtThreadSleep_cases h with ⟨t, _, _, k1, e, timer, hsus, hsched⟩
  have h1 := quiet_suspend hd hsus
  have h2 : Quiet k1 (k1.setThread t { k1.thread t with threadTimer := timer }) :=
    quiet_of_thread t _ rfl rfl Iff.rfl rfl rfl rfl
  exact quiet_trans (quiet_trans h1 h2) (quiet_schedule hsched)

theorem quiet_control {priority : Nat}
    (h : rtThreadControl prioMax k t priority = some k') : Quiet k k' := by
  rcases rtThreadControl_cases h with ⟨_, hcase⟩
  rcases priorityAttribute_fields with
    ⟨hst, hcr, his, hcl⟩
  generalize priorityAttribute prioMax { k.thread t with currentPriority := priority } = th
    at hcase hst hcr his hcl
  rcases hcase with ⟨_, rfl⟩ | ⟨hs, rfl⟩
  · refine quiet_of_thread t th rfl rfl ?_ hcr his hcl
    rw [hst]
    rfl
  have hopen : k.state t ≠ .close := by
    rw [hs]
    nofun
  refine quiet_of_thread t (th.setState .ready) ?_ ?_ ?_ hcr his hcl
  · rw [rtScheduleInsertThread_thread]
    simp only [setThread_thread, update_self, update_idem, rtScheduleRemoveThread_thread]
  · rw [rtScheduleInsertThread_lists, setThread_lists,
      rtScheduleRemoveThread_lists]
    exact remove_defunct (not_dead hd hopen)
  · simp only [Thread.setState, reduceCtorEq, hopen]

theorem quiet_timeout (h : rtThreadTimeout prioMax k t = some k') : Quiet k k' := by
  rcases rtThreadTimeout_cases h with ⟨_, hs, hsched⟩
  have hopen : k.state t ≠ .close := by
    rw [hs]
    nofun
  exact quiet_trans (quiet_wake prioMax { k.thread t with error := .etimeout } hd hopen rfl rfl rfl)
    (quiet_schedule hsched)

omit hd

theorem rtExitCritical_frame (h : rtExitCritical prioMax k = some k') : SameTable k k' := by
  unfold rtExitCritical at h
  dsimp only at h
  split_ifs at h with hn
  · have hsame := (rtSchedule_frame h).1
    exact ⟨hsame.thread, hsame.lists, hsame.group, hsame.table⟩
  · cases h
    exact ⟨rfl, rfl, rfl, rfl⟩

/-- The calls that neither make nor end a thread, and that are not an assignment of the
    cleanup field. -/
def SchedAction.IsQuiet : SchedAction → Prop
  | .init _ _ _ | .exit | .detach _ | .delete _ | .setCleanup _ _ => False
  | _ => True

theorem schedStep_quiet (ha : a.IsQuiet) (hd : DeadClosed k) (h : schedStep prioMax k a = some k') :
    Quiet k k' := by
  cases a with simp only [schedStep] at h
  | startup t => exact quiet_startup hd h
  | suspend t =>
    simp only [Option.map_eq_some_iff] at h
    rcases h with ⟨⟨k1, e⟩, h, rfl⟩
    exact quiet_suspend hd h
  | resume t =>
    simp only [Option.map_eq_some_iff] at h
    rcases h with ⟨⟨k1, e⟩, h, rfl⟩
    exact quiet_resume hd h
  | yield => exact quiet_yield hd h
  | sleep tick => exact quiet_sleep hd h
  | sleepReturn t =>
    cases h
    exact quiet_sleepReturn
  | changePriority t priority =>
    simp only [bind_iff, assert_iff] at h
    exact quiet_control hd h.2
  | timeout t => exact quiet_timeout hd h
  | start =>
    simp only [rtSystemSchedulerStart, bind_iff, pure_iff] at h
    rcases h with ⟨v, _, rfl⟩
    exact ⟨rfl, fun _ => Iff.rfl, fun _ => rfl, fun _ => rfl, fun _ => rfl⟩
  | enterCritical =>
    cases h
    exact ⟨rfl, fun _ => Iff.rfl, fun _ => rfl, fun _ => rfl, fun _ => rfl⟩
  | exitCritical => exact quiet_sameTable (rtExitCritical_frame h)
  | init | exit | detach | delete | setCleanup => exact absurd ha id

end Quiet

section Ends

variable {prioMax : Nat} {k k' : Kernel Queues} {t : Tid}

/-- A thread ends. It goes to the reaper with its static flag as it was, or it goes nowhere,
    being static and without a cleanup function. -/
structure Ends (k k' : Kernel Queues) (t : Tid) (th : Thread) : Prop where
  created : (k.thread t).created = true
  thread : k'.thread = update k.thread t th
  close : th.stat.state = .close
  cleanup : th.cleanup = (k.thread t).cleanup
  route : (k'.lists .defunct = t :: k.lists .defunct ∧ th.isStatic = (k.thread t).isStatic) ∨
    (k'.lists .defunct = k.lists .defunct ∧ (k.thread t).isStatic = true ∧
      (k.thread t).cleanup = false)

theorem insertAfter_defunct {q : Queues} : insertAfter q .defunct t .defunct = t :: q .defunct :=
  update_self _ _ _

theorem exit_ends (hk : ReadyInv prioMax k) (hd : DeadClosed k)
    (hopen : ∀ t, k.currentThread = some t → k.state t ≠ .close)
    (h : rtThreadExit prioMax k = some k') : ∃ t th, k.state t ≠ .close ∧ Ends k k' t th := by
  rcases rtThreadExit_cases h with ⟨t, ht, timer, isStatic, k1, hk1, hlast⟩
  have hnot := not_dead hd (hopen t ht)
  have hthread : k1.thread = update k.thread t { k.thread t with
      stat := ⟨.close, 0⟩, threadTimer := timer, isStatic := isStatic } := by
    rw [hk1, setThread_thread, rtScheduleRemoveThread_thread]
  have hlists : k1.lists .defunct = k.lists .defunct := by
    rw [hk1, setThread_lists, rtScheduleRemoveThread_lists]
    exact remove_defunct hnot
  refine ⟨t, { k.thread t with
    stat := ⟨.close, 0⟩, threadTimer := timer, isStatic := isStatic }, hopen t ht,
    hk.current t ht, ?_, rfl, rfl, ?_⟩
  · rcases hlast with ⟨hsched, _⟩ | ⟨hsched, _⟩
    · exact (rtSchedule_frame hsched).1.thread.trans hthread
    · exact (rtSchedule_frame hsched).1.thread.trans hthread
  rcases hlast with ⟨hsched, hstatic, hcl⟩ | ⟨hsched, hstatic⟩
  · refine .inr ⟨?_, hstatic, hcl⟩
    rw [(rtSchedule_frame hsched).1.lists, hlists]
  · refine .inl ⟨?_, hstatic⟩
    rw [(rtSchedule_frame hsched).1.lists, ← hlists]
    exact insertAfter_defunct

theorem closedAs_ends {isStatic dead : Bool} (hd : DeadClosed k) (hopen : k.state t ≠ .close)
    (hdead : dead = true → isStatic = (k.thread t).isStatic)
    (hlost : dead = false → (k.thread t).isStatic = true ∧ (k.thread t).cleanup = false)
    (h : ClosedAs prioMax k t isStatic dead k') : ∃ th, Ends k k' t th := by
  rcases h with ⟨k0, k1, timer, hc, hfirst, hk1, rfl⟩
  have hfirst' : k0.thread = k.thread ∧ k0.lists .defunct = k.lists .defunct := by
    rcases hfirst with ⟨_, rfl⟩ | ⟨_, rfl⟩
    · exact ⟨rfl, rfl⟩
    · rw [rtScheduleRemoveThread_thread, rtScheduleRemoveThread_lists]
      exact ⟨rfl, remove_defunct (not_dead hd hopen)⟩
  have hthread : k1.thread = update k.thread t { k.thread t with
      stat := ⟨.close, 0⟩, threadTimer := timer, isStatic := isStatic } := by
    rw [hk1, setThread_thread, hfirst'.1]
  have hlists : k1.lists .defunct = k.lists .defunct := by
    rw [hk1, setThread_lists, hfirst'.2]
  refine ⟨{ k.thread t with stat := ⟨.close, 0⟩, threadTimer := timer, isStatic := isStatic },
    hc, ?_, rfl, rfl, ?_⟩
  · rw [← hthread]
    split_ifs <;> rfl
  by_cases hon : dead = true
  · refine .inl ⟨?_, hdead hon⟩
    rw [if_pos hon, ← hlists]
    exact insertAfter_defunct
  · rw [Bool.not_eq_true] at hon
    refine .inr ⟨?_, hlost hon⟩
    rw [hon, if_neg Bool.false_ne_true, hlists]

theorem detach_ends (hd : DeadClosed k) (hopen : k.state t ≠ .close)
    (hcl : (k.thread t).cleanup = false) (h : rtThreadDetach prioMax k t = some k') :
    ∃ th, Ends k k' t th := by
  rcases rtThreadDetach_cases h with ⟨hstatic, hclosed⟩
  rw [hcl] at hclosed
  exact closedAs_ends hd hopen
    (fun hc => absurd hc Bool.false_ne_true) (fun _ => ⟨hstatic, hcl⟩) hclosed

theorem delete_ends (hd : DeadClosed k) (hopen : k.state t ≠ .close)
    (h : rtThreadDelete prioMax k t = some k') : ∃ th, Ends k k' t th := by
  rcases rtThreadDelete_cases h with ⟨hstatic, hclosed⟩
  exact closedAs_ends hd hopen (fun _ => hstatic.symm)
    (fun hc => absurd hc.symm Bool.false_ne_true) hclosed

end Ends

section Inv

variable {prioMax : Nat} {s s' : IdleSys} {t : Tid}

/-- What is true of each thread. The one the reaper holds is from the heap and has ended, and
    the static flag says who made a thread until the reaper is done with it. -/
structure ReapOk (s : IdleSys) (t : Tid) : Prop where
  reaping : s.reaping = some t → s.Done t ∧ s.dynamic t = true ∧ (s.k.thread t).isStatic = false
  kind : (s.k.thread t).created = true → ¬ s.Done t → (s.k.thread t).isStatic = !s.dynamic t
  freed : s.stackFreed t = if s.dynamic t = true ∧ s.Released t then 1 else 0
  deleted : s.objectDeleted t = if s.dynamic t = true ∧ s.Released t then 1 else 0
  cleaned : s.cleaned t = if (s.k.thread t).cleanup = true ∧ s.Done t then 1 else 0

/-- The invariant of the reaper. -/
structure ReapInv (prioMax : Nat) (s : IdleSys) : Prop where
  table : ReadyInv prioMax s.k
  nodup : (s.k.lists .defunct).Nodup
  dead : DeadClosed s.k
  each : ∀ t, ReapOk s t

/-- A step does nothing to a thread that the reaper would notice. -/
structure Agree (s s' : IdleSys) (t : Tid) : Prop where
  created : (s'.k.thread t).created = (s.k.thread t).created
  isStatic : (s'.k.thread t).isStatic = (s.k.thread t).isStatic
  cleanup : (s'.k.thread t).cleanup = (s.k.thread t).cleanup
  done : s'.Done t ↔ s.Done t
  reaping : s'.reaping = some t ↔ s.reaping = some t
  dynamic : s'.dynamic t = s.dynamic t
  freed : s'.stackFreed t = s.stackFreed t
  deleted : s'.objectDeleted t = s.objectDeleted t
  cleaned : s'.cleaned t = s.cleaned t

theorem reapOk_agree (h : Agree s s' t) (hok : ReapOk s t) : ReapOk s' t := by
  have hreleased : s'.Released t ↔ s.Released t := by
    simp only [Released, h.done, ne_eq, h.reaping]
  refine ⟨fun hr => ?_, fun hc hd => ?_, ?_, ?_, ?_⟩
  · rw [h.done, h.dynamic, h.isStatic]
    exact hok.reaping (h.reaping.mp hr)
  · rw [h.isStatic, h.dynamic]
    exact hok.kind (h.created.symm.trans hc) (fun hdone => hd (h.done.mpr hdone))
  · rw [h.freed, hok.freed]
    simp only [h.dynamic, hreleased]
  · rw [h.deleted, hok.deleted]
    simp only [h.dynamic, hreleased]
  · rw [h.cleaned, hok.cleaned]
    simp only [h.cleanup, h.done]

theorem reapOk_zero (hok : ReapOk s t) (hd : ¬ s.Done t) :
    s.reaping ≠ some t ∧ s.stackFreed t = 0 ∧ s.objectDeleted t = 0 ∧ s.cleaned t = 0 := by
  refine ⟨fun hr => hd (hok.reaping hr).1, ?_, ?_, ?_⟩
  · rw [hok.freed, if_neg (fun hc => hd hc.2.1)]
  · rw [hok.deleted, if_neg (fun hc => hd hc.2.1)]
  · rw [hok.cleaned, if_neg (fun hc => hd hc.2)]

/-- A thread the reaper has not seen, before and after a step that leaves the books alone. -/
theorem reapOk_unseen (hok : ReapOk s t) (hd : ¬ s.Done t) (hd' : ¬ s'.Done t)
    (hreaping : s'.reaping = s.reaping) (hfreed : s'.stackFreed = s.stackFreed)
    (hdeleted : s'.objectDeleted = s.objectDeleted) (hcleaned : s'.cleaned = s.cleaned)
    (hkind : (s'.k.thread t).created = true → (s'.k.thread t).isStatic = !s'.dynamic t) :
    ReapOk s' t := by
  rcases reapOk_zero hok hd with ⟨hr, hf, hdel, hcl⟩
  refine ⟨fun hr' => absurd (hreaping.symm.trans hr') hr, fun hc _ => hkind hc, ?_, ?_, ?_⟩
  · rw [hfreed, hf, if_neg (fun hc => hd' hc.2.1)]
  · rw [hdeleted, hdel, if_neg (fun hc => hd' hc.2.1)]
  · rw [hcleaned, hcl, if_neg (fun hc => hd' hc.2)]

theorem agree_of_ne {dynamic : Tid → Bool} {u : Tid} (hthread : k'.thread u = s.k.thread u)
    (hlists : u ∈ k'.lists .defunct ↔ u ∈ s.k.lists .defunct) (hdyn : dynamic u = s.dynamic u) :
    Agree s { s with k := k', dynamic := dynamic } u := by
  refine ⟨by rw [hthread], by rw [hthread], by rw [hthread], ?_, Iff.rfl, hdyn, rfl, rfl, rfl⟩
  simp only [Done, state, hthread, hlists]

/-- A call about a thread the reaper has not seen, which may change its control block and who
    made it. -/
theorem reapInv_setThread {t : Tid} {th : Thread} {dynamic : Tid → Bool} (hI : ReapInv prioMax s)
    (htable : ReadyInv prioMax (s.k.setThread t th)) (hundone : ¬ s.Done t)
    (hclose : th.stat.state = .close ↔ s.k.state t = .close)
    (hdyn : ∀ u, u ≠ t → dynamic u = s.dynamic u)
    (hkind : th.created = true → th.isStatic = !dynamic t) :
    ReapInv prioMax { s with k := s.k.setThread t th, dynamic := dynamic } := by
  have hself : (s.k.setThread t th).thread t = th := by
    rw [setThread_self]
  have hother : ∀ u, u ≠ t → (s.k.setThread t th).thread u = s.k.thread u := by
    intro u hu
    rw [setThread_thread, update_of_ne hu]
  have hstate : (s.k.setThread t th).state t = .close ↔ s.k.state t = .close := by
    rw [state, hself]
    exact hclose
  refine ⟨htable, hI.nodup, fun u hu => ?_, fun u => ?_⟩
  · by_cases hut : u = t
    · rw [hut] at hu ⊢
      exact hstate.mpr (hI.dead t hu)
    · rw [state, hother u hut]
      exact hI.dead u hu
  by_cases hut : u = t
  · rw [hut]
    refine reapOk_unseen (hI.each t) hundone (fun hc => ?_) rfl rfl rfl rfl ?_
    · exact hundone ⟨hstate.mp hc.1, hc.2⟩
    · rw [hself]
      exact hkind
  · exact reapOk_agree (agree_of_ne (hother u hut) Iff.rfl (hdyn u hut)) (hI.each u)

theorem idleReap_cases (h : idleReap prioMax s = some s') :
    s.reaping = none ∧ ((s.k.lists .defunct = [] ∧ s' = s) ∨
      ∃ t rest k', s.k.lists .defunct = t :: rest ∧
        rtExitCritical prioMax (rtEnterCritical { s.k with lists := remove s.k.lists t }) =
          some k' ∧
        s' = { s with
          k := k'
          cleaned := if (s.k.thread t).cleanup then
              update s.cleaned t (s.cleaned t + 1)
            else s.cleaned
          reaping := if (s.k.thread t).isStatic then none else some t }) := by
  simp only [idleReap, bind_iff, assert_iff] at h
  rcases h with ⟨hr, h⟩
  refine ⟨hr, ?_⟩
  cases hlist : s.k.lists .defunct with
  | nil =>
    have hfirst : first s.k.lists .defunct = none := by
      change (s.k.lists .defunct).head? = none
      rw [hlist]
      rfl
    rw [hfirst] at h
    cases h
    exact .inl ⟨rfl, rfl⟩
  | cons t rest =>
    have hfirst : first s.k.lists .defunct = some t := by
      change (s.k.lists .defunct).head? = some t
      rw [hlist]
      rfl
    rw [hfirst] at h
    simp only [bind_iff, pure_iff] at h
    rcases h with ⟨k', hexit, h⟩
    exact .inr ⟨t, rest, k', rfl, hexit, h.symm⟩

theorem idleRelease_cases (h : idleRelease s = some s') :
    ∃ t, s.reaping = some t ∧ s' = { s with
      reaping := none
      stackFreed := update s.stackFreed t (s.stackFreed t + 1)
      objectDeleted := update s.objectDeleted t (s.objectDeleted t + 1) } := by
  simp only [idleRelease, bind_iff, assert_iff, pure_iff] at h
  rcases h with ⟨t, hr, _, h⟩
  exact ⟨t, hr, h.symm⟩

/-- The ready table does not notice when a thread that is not ready is unlinked and the
    scheduler locked. -/
theorem readyInv_locked {t : Tid} (hk : ReadyInv prioMax k) (hs : k.state t ≠ .ready) :
    ReadyInv prioMax (rtEnterCritical { k with lists := remove k.lists t }) := by
  refine readyInv_lockNest (k := { k with lists := remove k.lists t })
    ⟨?_, hk.threads, ?_, hk.current⟩ _
  · exact core_same hk.core (remove_ready t hk.core (readyAt_of_state _ hs))
  · intro u h hu hm
    exact hk.initLoose u h hu ((mem_remove_iff t k.lists u h).mp hm).1

variable (hI : ReapInv prioMax s)
include hI

theorem reapInv_quiet (htable : ReadyInv prioMax k') (h : Quiet s.k k') :
    ReapInv prioMax { s with k := k' } := by
  refine ⟨htable, ?_, quiet_dead h hI.dead, fun t => reapOk_agree ?_ (hI.each t)⟩
  · rw [h.lists]
    exact hI.nodup
  · refine ⟨h.created t, h.isStatic t, h.cleanup t, ?_, Iff.rfl, rfl, rfl, rfl, rfl⟩
    simp only [Done, h.close t, h.lists]

theorem reapInv_ends {th : Thread} (htable : ReadyInv prioMax k')
    (hopen : s.k.state t ≠ .close) (h : Ends s.k k' t th) : ReapInv prioMax { s with k := k' } := by
  have hnot := not_dead hI.dead hopen
  have hself : k'.thread t = th := by rw [h.thread, update_self]
  have hother : ∀ u, u ≠ t → k'.thread u = s.k.thread u := by
    intro u hu
    rw [h.thread, update_of_ne hu]
  have hstate : k'.state t = .close := by rw [state, hself, h.close]
  have hundone : ¬ s.Done t := fun hc => hopen hc.1
  have hkind := (hI.each t).kind h.created hundone
  refine ⟨htable, ?_, fun u hu => ?_, fun u => ?_⟩
  · rcases h.route with ⟨hl, _⟩ | ⟨hl, _⟩
    · rw [hl]
      exact nodup_cons.mpr ⟨hnot, hI.nodup⟩
    · rw [hl]
      exact hI.nodup
  · by_cases hut : u = t
    · rw [hut]
      exact hstate
    have hmem : u ∈ s.k.lists .defunct := by
      rcases h.route with ⟨hl, _⟩ | ⟨hl, _⟩
      · rw [hl] at hu
        exact mem_of_ne_of_mem hut hu
      · rw [hl] at hu
        exact hu
    rw [state, hother u hut]
    exact hI.dead u hmem
  by_cases hut : u = t
  · rw [hut]
    rcases h.route with ⟨hl, hstatic⟩ | ⟨hl, hstatic, hcl⟩
    · -- The thread waits for the reaper, which will find the flag as it was.
      refine reapOk_unseen (hI.each t) hundone (fun hc => hc.2 ?_) rfl rfl rfl rfl (fun _ => ?_)
      · rw [hl]
        exact mem_cons_self
      · rw [hself, hstatic]
        exact hkind
    -- Nothing is left to be done for the thread, and nothing has been done.
    rcases reapOk_zero (hI.each t) hundone with ⟨hr, hf, hdel, hcln⟩
    have hdyn : s.dynamic t = false := by
      rw [hstatic] at hkind
      exact (Bool.not_eq_true' _).mp hkind.symm
    have hdone : IdleSys.Done { s with k := k' } t := ⟨hstate, by rw [hl]; exact hnot⟩
    refine ⟨fun hr' => absurd hr' hr, fun _ hc => absurd hdone hc, ?_, ?_, ?_⟩
    · rw [hf, if_neg (fun hc => absurd (hdyn.symm.trans hc.1) Bool.false_ne_true)]
    · rw [hdel, if_neg (fun hc => absurd (hdyn.symm.trans hc.1) Bool.false_ne_true)]
    · rw [hcln, if_neg (fun hc => ?_)]
      rw [hself, h.cleanup, hcl] at hc
      exact absurd hc.1 Bool.false_ne_true
  · refine reapOk_agree (agree_of_ne (hother u hut) ?_ rfl) (hI.each u)
    rcases h.route with ⟨hl, _⟩ | ⟨hl, _⟩
    · rw [hl, mem_cons]
      exact ⟨fun hc => hc.resolve_left hut, .inr⟩
    · rw [hl]

theorem first_dead (hlist : s.k.lists .defunct = t :: rest) :
    s.k.state t = .close ∧ t ∉ rest ∧ remove s.k.lists t .defunct = rest := by
  have hnodup := hI.nodup
  rw [hlist] at hnodup
  have hnot := (nodup_cons.mp hnodup).1
  refine ⟨hI.dead t (by rw [hlist]; exact mem_cons_self), hnot, ?_⟩
  change (s.k.lists .defunct).filter (· ≠ t) = rest
  rw [hlist]
  exact Ring.filter_ne_split not_mem_nil hnot

theorem reapInv_reap (h : idleReap prioMax s = some s') : ReapInv prioMax s' := by
  rcases idleReap_cases h with ⟨hr, ⟨_, hs⟩ | ⟨t, rest, k', hlist, hexit, hs⟩⟩
  · rw [hs]
    exact hI
  rcases first_dead hI hlist with ⟨hclose, hnot, hrest⟩
  have hsame := rtExitCritical_frame hexit
  have hthread : k'.thread = s.k.thread := hsame.thread
  have hdefunct : k'.lists .defunct = rest := by
    rw [hsame.lists]
    exact hrest
  have hstate : ∀ u, k'.state u = s.k.state u := by
    intro u
    rw [state, hthread]
    rfl
  have hundone : ¬ s.Done t := fun hc => hc.2 (by rw [hlist]; exact mem_cons_self)
  have hdone : ∀ u, s'.Done u ↔ s.Done u ∨ u = t := by
    intro u
    rw [hs]
    simp only [Done, hstate, hdefunct, hlist, mem_cons, not_or]
    by_cases hut : u = t
    · rw [hut]
      exact ⟨fun _ => .inr rfl, fun _ => ⟨hclose, hnot⟩⟩
    · simp only [hut, not_false_eq_true, true_and, or_false]
  refine ⟨?_, ?_, fun u hu => ?_, fun u => ?_⟩
  · rw [hs]
    exact readyInv_exitCritical (readyInv_locked hI.table (by
      rw [hclose]
      rintro ⟨⟩)) hexit
  · have hnodup := hI.nodup
    rw [hlist] at hnodup
    rw [hs, hdefunct]
    exact (nodup_cons.mp hnodup).2
  · rw [hs] at hu ⊢
    rw [hstate]
    rw [hdefunct] at hu
    exact hI.dead u (by rw [hlist]; exact mem_cons_of_mem t hu)
  by_cases hut : u = t
  · rw [hut]
    rcases reapOk_zero (hI.each t) hundone with ⟨_, hf, hdel, hcln⟩
    have hkind := (hI.each t).kind (threadOk_created (hI.table.threads t) (by
      rw [show (s.k.thread t).stat.state = .close from hclose]
      rintro ⟨⟩)) hundone
    have hdone' : s'.Done t := (hdone t).mpr (.inr rfl)
    -- The memory is not released yet if it is from the heap, and never if it is not.
    have hreleased : ¬ (s'.dynamic t = true ∧ s'.Released t) := by
      intro hc
      have hdyn : s.dynamic t = true := by
        rw [hs] at hc
        exact hc.1
      refine hc.2.2 ?_
      rw [hs]
      simp only [hkind, hdyn, Bool.not_true, Bool.false_eq_true, if_false]
    refine ⟨fun hr' => ⟨hdone', ?_⟩, fun _ hc => absurd hdone' hc, ?_, ?_, ?_⟩
    · rw [hs] at hr' ⊢
      simp only at hr' ⊢
      rw [hthread]
      split_ifs at hr' with hstatic
      rw [Bool.not_eq_true] at hstatic
      rw [hstatic] at hkind
      exact ⟨(Bool.not_eq_false' _).mp hkind.symm, hstatic⟩
    · rw [if_neg hreleased, hs]
      exact hf
    · rw [if_neg hreleased, hs]
      exact hdel
    · simp only [hdone', and_true]
      rw [hs]
      simp only [hthread]
      split_ifs
      · rw [update_self, hcln]
      · exact hcln
  · have hdone' : s'.Done u ↔ s.Done u := by
      rw [hdone u]
      exact or_iff_left hut
    refine reapOk_agree ?_ (hI.each u)
    rw [hs] at hdone' ⊢
    refine ⟨by rw [hthread], by rw [hthread], by rw [hthread], hdone', ?_, rfl, rfl, rfl, ?_⟩
    · rw [hr]
      simp only [reduceCtorEq, iff_false]
      split_ifs
      · exact not_false
      · exact fun hc => hut (Option.some.inj hc).symm
    · simp only
      split_ifs
      · exact update_of_ne hut _ _
      · rfl

theorem reapInv_release (h : idleRelease s = some s') : ReapInv prioMax s' := by
  rcases idleRelease_cases h with ⟨t, hr, hs⟩
  rcases (hI.each t).reaping hr with ⟨hdone, hdyn, _⟩
  have hheld : ¬ (s.dynamic t = true ∧ s.Released t) := fun hc => hc.2.2 hr
  refine ⟨by rw [hs]; exact hI.table, by rw [hs]; exact hI.nodup, by rw [hs]; exact hI.dead,
    fun u => ?_⟩
  by_cases hut : u = t
  · have hf := (hI.each t).freed
    have hdel := (hI.each t).deleted
    rw [if_neg hheld] at hf hdel
    have hreleased : s'.dynamic t = true ∧ s'.Released t := by
      rw [hs]
      exact ⟨hdyn, hdone, fun hc => nomatch hc⟩
    rw [hut]
    refine ⟨fun hr' => ?_, fun _ hc => ?_, ?_, ?_, ?_⟩
    · rw [hs] at hr'
      exact nomatch hr'
    · rw [hs] at hc
      exact absurd hdone hc
    · rw [if_pos hreleased, hs]
      simp only [update_self, hf]
    · rw [if_pos hreleased, hs]
      simp only [update_self, hdel]
    · rw [hs]
      exact (hI.each t).cleaned
  · refine reapOk_agree ?_ (hI.each u)
    rw [hs]
    refine ⟨rfl, rfl, rfl, Iff.rfl, ?_, rfl, ?_, ?_, rfl⟩
    · rw [hr, Option.some.injEq]
      exact ⟨fun hc => (nomatch hc), fun hc => absurd hc.symm hut⟩
    · exact update_of_ne hut _ _
    · exact update_of_ne hut _ _

theorem reapInv_sched (hc : IdleCond s (.sched a))
    (honce : s.endsOnce a = true) (htable : ReadyInv prioMax k')
    (h : schedStep prioMax s.k a = some k') :
    ReapInv prioMax { s with k := k', dynamic := s.noteInit a } := by
  cases a with
  | init t isStatic priority =>
    simp only [schedStep, bind_iff, assert_iff] at h
    rcases rtThreadInit_cases h.2 with
      ⟨_, th, _, rfl, hstat, _, _, _, _, _, _, rfl⟩
    -- Memory that no thread has been set up in is that of a thread that has not ended.
    have hopen : s.k.state t ≠ .close := by
      rw [show s.k.state t = .init from (hI.table.threads t).fresh h.1]
      rintro ⟨⟩
    refine reapInv_setThread hI htable (fun hd => hopen hd.1) ?_
      (fun u hu => update_of_ne hu _ _) (fun _ => ?_)
    · simp only [hstat, reduceCtorEq, hopen]
    · simp only [noteInit, update_self, Bool.not_not]
  | exit =>
    have hopen : ∀ t, s.k.currentThread = some t → s.k.state t ≠ .close := by
      intro t ht
      simp only [endsOnce, ht, Option.all_some, decide_eq_true_eq] at honce
      exact honce
    rcases exit_ends hI.table hI.dead hopen h with ⟨t, th, ht, hends⟩
    exact reapInv_ends hI htable ht hends
  | detach t =>
    have hopen : s.k.state t ≠ .close := of_decide_eq_true honce
    rcases detach_ends hI.dead hopen hc h with ⟨th, hends⟩
    exact reapInv_ends hI htable hopen hends
  | delete t =>
    have hopen : s.k.state t ≠ .close := of_decide_eq_true honce
    rcases delete_ends hI.dead hopen h with ⟨th, hends⟩
    exact reapInv_ends hI htable hopen hends
  | setCleanup t set =>
    simp only [schedStep, Option.some.injEq] at h
    rw [← h] at htable ⊢
    exact reapInv_setThread hI htable
      hc Iff.rfl (fun _ _ => rfl) (fun hcr => (hI.each t).kind hcr hc)
  | _ =>
    refine reapInv_quiet hI htable (schedStep_quiet ?_ hI.dead h)
    exact trivial

omit hI

theorem reapInv_step {a : IdleAction} (hP : prioMax ≤ 256) (hI : ReapInv prioMax s)
    (hc : IdleCond s a) (h : idleStep prioMax s a = some s') : ReapInv prioMax s' := by
  cases a with
  | sched a =>
    simp only [idleStep, bind_iff, assert_iff, pure_iff] at h
    rcases h with ⟨honce, k', hk', rfl⟩
    exact reapInv_sched hI hc honce (schedStep_readyInv hP hI.table hk') hk'
  | reap => exact reapInv_reap hI h
  | release => exact reapInv_release hI h

theorem reapInv_init {prioMax : Nat} : ReapInv prioMax (idleSysInit prioMax) := by
  have hundone : ∀ t, ¬ (idleSysInit prioMax).Done t := by
    intro t hc
    exact nomatch hc.1
  refine ⟨readyInv_schedulerInit, nodup_nil, nofun,
    fun t => ⟨fun hr => ?_, fun hc _ => ?_, ?_, ?_, ?_⟩⟩
  · exact nomatch hr
  · exact nomatch hc
  · rw [if_neg (fun hc => hundone t hc.2.1)]
    rfl
  · rw [if_neg (fun hc => hundone t hc.2.1)]
    rfl
  · rw [if_neg (fun hc => hundone t hc.2)]
    rfl

end Inv

section Drain

variable {prioMax : Nat} {s s' : IdleSys} {t u : Tid}

/-- The reaper alone leads from one state to the other. -/
structure Idles (prioMax : Nat) (s s' : IdleSys) : Prop where
  run : ReachableBy (idleStep prioMax) (fun a => a = .reap ∨ a = .release) s s'
  inv : ReapInv prioMax s'
  thread : s'.k.thread = s.k.thread
  dynamic : s'.dynamic = s.dynamic

theorem idles_trans {s1 : IdleSys} (h : Idles prioMax s s1) (h' : Idles prioMax s1 s') :
    Idles prioMax s s' :=
  ⟨reachableBy_trans h.run h'.run, h'.inv, h'.thread.trans h.thread, h'.dynamic.trans h.dynamic⟩

theorem idles_release (hI : ReapInv prioMax s) :
    ∃ s', Idles prioMax s s' ∧ s'.reaping = none ∧ s'.k = s.k := by
  cases hr : s.reaping with
  | none => exact ⟨s, ⟨reachableBy_refl, hI, rfl, rfl⟩, hr, rfl⟩
  | some t =>
    have hstatic := ((hI.each t).reaping hr).2.2
    have hstep : ∃ s', idleRelease s = some s' := by
      simp only [idleRelease, hr, some_bind, rtAssert, hstatic]
      exact ⟨_, rfl⟩
    rcases hstep with ⟨s', hs'⟩
    have hI' := reapInv_release hI hs'
    rcases idleRelease_cases hs' with ⟨_, _, hs⟩
    refine ⟨s', ⟨reachableBy_step (.inr rfl) hs', hI', ?_, ?_⟩, ?_, ?_⟩
    all_goals rw [hs]

variable (hP : prioMax ≤ 256)
include hP

/-- The scheduler can be unlocked if there is a thread to switch to. -/
theorem exitCritical_enabled (hk : ReadyInv prioMax k)
    (hu : k.state u = .ready) : ∃ k', rtExitCritical prioMax k = some k' := by
  unfold rtExitCritical
  dsimp only
  split_ifs with hn
  · rcases readyInv_schedule_first u hP (readyInv_lockNest hk 0) rfl hu with ⟨k', _, _, hk', _⟩
    exact ⟨k', hk'⟩
  · exact ⟨_, rfl⟩

theorem idles_reap (hI : ReapInv prioMax s) (hu : s.k.state u = .ready)
    (hr : s.reaping = none) (hlist : s.k.lists .defunct = t :: rest) :
    ∃ s', Idles prioMax s s' ∧ s'.k.lists .defunct = rest := by
  rcases first_dead hI hlist with ⟨hclose, _, hrest⟩
  have hlocked := readyInv_locked hI.table (by
    rw [hclose]
    nofun)
  rcases exitCritical_enabled hP hlocked hu with ⟨k', hexit⟩
  have hsame := rtExitCritical_frame hexit
  have hfirst : first s.k.lists .defunct = some t := by
    change (s.k.lists .defunct).head? = some t
    rw [hlist]
    rfl
  have hstep : ∃ s', idleReap prioMax s = some s' ∧ s'.k = k' ∧ s'.dynamic = s.dynamic := by
    simp only [idleReap, rtAssert, hr, hfirst, hexit]
    exact ⟨_, rfl, rfl, rfl⟩
  rcases hstep with ⟨s', hs', rfl, hdyn⟩
  refine ⟨s', ⟨reachableBy_step (.inl rfl) hs', reapInv_reap hI hs', ?_, hdyn⟩, ?_⟩
  · exact hsame.thread
  · rw [hsame.lists]
    exact hrest

/-- The reaper comes to an end: with each round there is one dead thread less. -/
theorem reaper_drains {n : Nat} (hI : ReapInv prioMax s)
    (hu : s.k.state u = .ready) (hn : (s.k.lists .defunct).length = n) :
    ∃ s', Idles prioMax s s' ∧ s'.k.lists .defunct = [] ∧ s'.reaping = none := by
  induction n generalizing s with
  | zero =>
    rcases idles_release hI with ⟨s1, h1, hr1, hk1⟩
    refine ⟨s1, h1, ?_, hr1⟩
    rw [hk1]
    exact length_eq_zero_iff.mp hn
  | succ n ih =>
    rcases idles_release hI with ⟨s1, h1, hr1, hk1⟩
    rcases exists_of_length_succ _ hn with ⟨t, rest, hlist⟩
    have hu1 : s1.k.state u = .ready := by rw [hk1]; exact hu
    have hlist1 : s1.k.lists .defunct = t :: rest := by rw [hk1]; exact hlist
    rcases idles_reap hP h1.inv hu1 hr1 hlist1 with ⟨s2, h2, rfl⟩
    have hu2 : s2.k.state u = .ready := by
      rw [state, h2.thread]
      exact hu1
    have hn2 : (s2.k.lists .defunct).length = n := by
      rw [hlist, length_cons] at hn
      omega
    rcases ih h2.inv hu2 hn2 with ⟨s3, h3, hend⟩
    exact ⟨s3, idles_trans (idles_trans h1 h2) h3, hend⟩

theorem storageOk_of_inv (hI : ReapInv prioMax s) : StorageOk prioMax s := by
  refine ⟨fun t ht => ?_, fun t ht => ?_, fun t => (hI.each t).cleaned, fun u hu => ?_⟩
  · have hnot : ¬ (s.dynamic t = true ∧ s.Released t) :=
      fun hc => absurd (ht.symm.trans hc.1) Bool.false_ne_true
    rw [(hI.each t).freed, (hI.each t).deleted, if_neg hnot]
    exact ⟨rfl, rfl⟩
  · rw [(hI.each t).freed, (hI.each t).deleted]
    simp only [ht, true_and]
  rcases reaper_drains hP hI hu rfl with ⟨s', hidle, hempty, hr⟩
  refine ⟨s', hidle.run, fun t ht => ?_⟩
  have hdone : s'.Done t := by
    refine ⟨?_, by rw [hempty]; exact not_mem_nil⟩
    rw [state, hidle.thread]
    exact ht
  have hreleased : s'.Released t := by
    refine ⟨hdone, ?_⟩
    rw [hr]
    rintro ⟨⟩
  refine ⟨fun hdyn => ?_, fun hcl => ?_⟩
  · rw [← hidle.dynamic] at hdyn
    rw [(hidle.inv.each t).freed, (hidle.inv.each t).deleted, if_pos ⟨hdyn, hreleased⟩]
    exact ⟨rfl, rfl⟩
  · rw [← hidle.thread] at hcl
    rw [(hidle.inv.each t).cleaned, if_pos ⟨hcl, hdone⟩]

end Drain

/-- If no thread with a cleanup function is detached, and no cleanup function is set for a
    thread the reaper is done with, then in every state of a run memory from the heap has been
    released once for each thread that is gone, no other memory has been released, and the
    cleanup functions have been called once. -/
theorem storage_released_once (prioMax : Nat) (as : List IdleAction) (hP : prioMax ≤ 256)
    (hc : Along (idleStep prioMax) IdleCond (idleSysInit prioMax) as) :
    Always (idleStep prioMax) (StorageOk prioMax) (idleSysInit prioMax) as :=
  always_of_inv (ReapInv prioMax) (storageOk_of_inv hP) (reapInv_step hP) reapInv_init hc

/-- Two threads end, one from the heap by a call of another thread and one that is static by
    itself, and both have cleanup functions. -/
theorem storage_released_once_mixed :
    Always (idleStep 32) (StorageOk 32) (idleSysInit 32)
      [.sched (.init 0 true 31), .sched (.startup 0), .sched .start, .sched (.init 1 false 10),
        .sched (.setCleanup 1 true), .sched (.init 2 true 12), .sched (.setCleanup 2 true),
        .sched (.startup 2), .sched (.delete 1), .sched .exit, .reap, .reap, .release] ∧
    (exec (idleStep 32) (idleSysInit 32)
      [.sched (.init 0 true 31), .sched (.startup 0), .sched .start, .sched (.init 1 false 10),
        .sched (.setCleanup 1 true), .sched (.init 2 true 12), .sched (.setCleanup 2 true),
        .sched (.startup 2), .sched (.delete 1), .sched .exit, .reap, .reap, .release]).map
      (fun s => ([s.stackFreed 1, s.objectDeleted 1, s.cleaned 1],
        [s.stackFreed 2, s.objectDeleted 2, s.cleaned 2])) = some ([1, 1, 1], [0, 0, 1]) := by
  refine ⟨storage_released_once 32 _ (by decide) ?_, by decide +kernel⟩
  exact of_decide_eq_true (by decide +kernel)

/-- A static thread with a cleanup function is detached. Its flag is gone when the reaper looks
    at it, so the reaper releases its stack and deletes its object. -/
theorem static_storage_released :
    (exec (idleStep 32) (idleSysInit 32)
      [.sched (.init 0 true 31), .sched (.startup 0), .sched .start, .sched (.init 1 true 10),
        .sched (.setCleanup 1 true), .sched (.detach 1), .reap, .release]).map
      (fun s => (s.dynamic 1, s.stackFreed 1, s.objectDeleted 1, s.cleaned 1)) =
      some (false, 1, 1, 1) := by decide +kernel

end Honeycomb
