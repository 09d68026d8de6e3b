import Honeycomb.Theory.Bitmap
import Honeycomb.Theory.Calls

/-!
# The Ready Table

Four things have to be kept in step by every call that touches a thread: the
list the thread is on, its state, its priority with the masks cached from it,
and the bitmap over the ready lists. A call changes them one after another, so
in the middle of it they do not agree.

`ReadyCore` is the part that is about lists and bitmap alone. Where each thread
is supposed to be is a parameter `r`, so that the two operations on the ready
table have a specification that does not depend on how far the caller has got
with the thread's own fields. `ReadyInv` says that at the end of a call `r` is
what the fields say: a thread is in the table exactly when it is ready, at its
current priority.

## Main definitions

* `ReadyCore`: Lists and bitmap place the threads where `r` says.
* `ReadyInv`: The invariant of the ready table.

## Theorems

* `core_insert`, `core_remove`, `core_unlink`, `core_requeue`: The operations
  on the ready table.
* `schedStep_readyInv`: Every call preserves the invariant.
* `readyInv_schedule_first`: A schedule picks the first thread of the most
  urgent list.
-/

namespace Honeycomb

open Function Kernel List Option Thread ThreadLists

/-- Lists and bitmap place each thread at the priority `r` gives it. -/
structure ReadyCore (prioMax : Nat) (k : Kernel Queues) (r : Tid → Option Nat) : Prop where
  mem : ∀ t p, t ∈ k.lists (.ready p) ↔ r t = some p
  bitmap : BitmapRep prioMax k.readyPriorityGroup k.readyTable (fun p => k.lists (.ready p) ≠ [])

/-- The fields of one thread agree with each other. -/
structure ThreadOk (prioMax : Nat) (th : Thread) : Prop where
  bound : th.created = true → th.currentPriority < prioMax ∧ th.initPriority < prioMax
  attr : th.stat.state = .ready ∨ th.stat.state = .suspend → Attr prioMax th
  masks : Attr prioMax th ∨ Unmarked th
  fresh : th.created = false → th.stat.state = .init

/-- Where the fields of a thread place it in the ready table. -/
def Thread.readyAt (th : Thread) : Option Nat :=
  if th.stat.state = .ready then some th.currentPriority else none

/-- Where the fields of the threads place them in the ready table. -/
def readyAt {Q : Type} (k : Kernel Q) (t : Tid) : Option Nat :=
  (k.thread t).readyAt

structure ReadyInv (prioMax : Nat) (k : Kernel Queues) : Prop where
  core : ReadyCore prioMax k (readyAt k)
  threads : ∀ t, ThreadOk prioMax (k.thread t)
  initLoose : ∀ t h, k.state t = .init → t ∉ k.lists h
  current : ∀ t, k.currentThread = some t → (k.thread t).created = true

variable {q : Queues} {th th' : Thread} {e : RtErr} {priority : Nat}

section Core

variable {prioMax : Nat} {k : Kernel Queues} {r : Tid → Option Nat} (t : Tid)

theorem mem_insertBefore_ready (q : Queues) (p p' : Nat) (u : Tid) :
    u ∈ insertBefore q (.ready p) t (.ready p') ↔ u ∈ q (.ready p') ∨ (p' = p ∧ u = t) := by
  by_cases hp : p' = p
  · rw [hp]
    change u ∈ update q _ _ _ ↔ _
    rw [update_self, mem_append, mem_singleton]
    simp only [true_and]
  have hne : Head.ready p' ≠ Head.ready p := fun hc => hp (Head.ready.inj hc)
  change u ∈ update q _ _ _ ↔ _
  rw [update_of_ne hne]
  simp only [hp, false_and, or_false]

theorem insertBefore_ready_ne_nil {q : Queues} {p p' : Nat} :
    insertBefore q (.ready p) t (.ready p') ≠ [] ↔ p' = p ∨ q (.ready p') ≠ [] := by
  simp only [ne_eq, eq_nil_iff_forall_not_mem, not_forall, not_not, mem_insertBefore_ready]
  constructor
  · rintro ⟨u, hu | ⟨hp, _⟩⟩
    · exact .inr ⟨u, hu⟩
    · exact .inl hp
  · rintro (hp | ⟨u, hu⟩)
    · exact ⟨t, .inr ⟨hp, rfl⟩⟩
    · exact ⟨u, .inl hu⟩

variable (hk : ReadyCore prioMax k r)
include hk

theorem core_setThread (th : Thread) : ReadyCore prioMax (k.setThread t th) r :=
  ⟨hk.mem, hk.bitmap⟩

theorem core_of_lists {r' : Tid → Option Nat} (hmem : ∀ u p, u ∈ q (.ready p) ↔ r' u = some p)
    (hne : ∀ p, q (.ready p) ≠ [] ↔ k.lists (.ready p) ≠ []) :
    ReadyCore prioMax { k with lists := q } r' :=
  ⟨hmem, bitmap_congr hk.bitmap (fun p => (hne p).symm)⟩

theorem core_same (hq : ∀ p, q (.ready p) = k.lists (.ready p)) :
    ReadyCore prioMax { k with lists := q } r := by
  refine core_of_lists hk (fun u p => ?_) (fun p => ?_)
  · rw [hq]
    exact hk.mem u p
  · rw [hq]

/-- A thread that is in no ready list can be unlinked from wherever it is. -/
theorem remove_ready (hr : r t = none) (p : Nat) :
    remove k.lists t (.ready p) = k.lists (.ready p) := by
  refine Ring.filter_ne_of_not_mem (fun hm => ?_)
  rw [hk.mem, hr] at hm
  exact nomatch hm

theorem core_insert (hP : prioMax ≤ 256) (hc : (k.thread t).currentPriority < prioMax)
    (ha : Attr prioMax (k.thread t)) (hr : r t = none) :
    ReadyCore prioMax (rtScheduleInsertThread prioMax k t)
      (update r t (some (k.thread t).currentPriority)) := by
  refine ⟨fun u p => ?_, ?_⟩
  · rw [rtScheduleInsertThread_lists, mem_insertBefore_ready, hk.mem]
    by_cases hu : u = t
    · rw [hu, hr, update_self]
      simp only [reduceCtorEq, and_true, false_or, some.injEq, eq_comm]
    · rw [update_of_ne hu]
      simp only [hu, and_false, or_false]
  · rw [rtScheduleInsertThread_lists, rtScheduleInsertThread_group, rtScheduleInsertThread_table]
    exact bitmap_congr (bitmap_insert hk.bitmap hP hc ha)
      (fun p => (insertBefore_ready_ne_nil t).symm)

/-- Removing a thread that is in the list of its priority, or in none, takes
    it out of the table. Its masks may be zero if it is in none. -/
theorem core_remove (hP : prioMax ≤ 256) (hc : (k.thread t).currentPriority < prioMax)
    (hm : Attr prioMax (k.thread t) ∨ (Unmarked (k.thread t) ∧ r t = none))
    (hr : r t = none ∨ r t = some (k.thread t).currentPriority) :
    ReadyCore prioMax (rtScheduleRemoveThread prioMax k t) (update r t none) := by
  have hother : ∀ p, p ≠ (k.thread t).currentPriority →
      remove k.lists t (.ready p) = k.lists (.ready p) := by
    intro p hp
    refine Ring.filter_ne_of_not_mem (fun hin => ?_)
    rw [hk.mem] at hin
    rcases hr with h | h
    · rw [h] at hin
      exact nomatch hin
    · rw [h, some.injEq] at hin
      exact hp hin.symm
  refine ⟨fun u p => ?_, ?_⟩
  · rw [rtScheduleRemoveThread_lists]
    change u ∈ (k.lists (.ready p)).filter (· ≠ t) ↔ _
    rw [mem_filter, hk.mem, decide_eq_true_eq]
    by_cases hu : u = t
    · rw [hu, update_self]
      simp only [ne_eq, not_true_eq_false, and_false, reduceCtorEq]
    · rw [update_of_ne hu]
      simp only [ne_eq, hu, not_false_eq_true, and_true]
  rw [rtScheduleRemoveThread_lists]
  cases he : isempty (remove k.lists t) (.ready (k.thread t).currentPriority) with
  | false =>
    -- The list was and is non-empty, so the set has not changed.
    rcases rtScheduleRemoveThread_keep prioMax k t he with ⟨hg, ht⟩
    rw [hg, ht]
    refine bitmap_congr hk.bitmap (fun p => ?_)
    by_cases hp : p = (k.thread t).currentPriority
    · have hne : remove k.lists t (.ready p) ≠ [] := by
        intro hc0
        rw [hp] at hc0
        change List.isEmpty _ = false at he
        rw [hc0] at he
        exact absurd he (by decide)
      refine ⟨fun _ => hne, fun _ hc0 => hne ?_⟩
      change (k.lists (.ready p)).filter (· ≠ t) = []
      rw [hc0, filter_nil]
    · rw [hother p hp]
  | true =>
    rcases rtScheduleRemoveThread_clear prioMax k t he with ⟨hg, ht⟩
    have hnil : remove k.lists t (.ready (k.thread t).currentPriority) = [] :=
      List.isEmpty_iff.mp he
    rw [hg, ht]
    rcases hm with ha | ⟨hu, hnone⟩
    · refine bitmap_congr (bitmap_remove hk.bitmap hP hc ha) (fun p => ?_)
      by_cases hp : p = (k.thread t).currentPriority
      · rw [hp, hnil]
        simp only [ne_eq, not_true_eq_false, false_and]
      · rw [hother p hp]
        simp only [ne_eq, hp, not_false_eq_true, true_and]
    · -- A thread that never was in the table: no list loses anything.
      refine bitmap_congr (bitmap_unmarked hk.bitmap hu) (fun p => ?_)
      rw [remove_ready t hk hnone]

theorem core_requeue {p : Nat} (hr : r t = some p) :
    ReadyCore prioMax { k with lists := insertBefore (remove k.lists t) (.ready p) t } r := by
  have hmem : ∀ u p', u ∈ insertBefore (remove k.lists t) (.ready p) t (.ready p') ↔
      u ∈ k.lists (.ready p') := by
    intro u p'
    rw [mem_insertBefore_ready]
    change u ∈ (k.lists (.ready p')).filter (· ≠ t) ∨ _ ↔ _
    rw [mem_filter, decide_eq_true_eq]
    by_cases hu : u = t
    · rw [hu, hk.mem, hr]
      simp only [ne_eq, not_true_eq_false, and_false, and_true, false_or, some.injEq, eq_comm]
    · simp only [ne_eq, hu, not_false_eq_true, and_true, and_false, or_false]
  refine core_of_lists hk (fun u p' => ?_) (fun p' => ?_)
  · rw [hmem]
    exact hk.mem u p'
  · simp only [ne_eq, eq_nil_iff_forall_not_mem, hmem]

end Core

section Fields

variable {prioMax : Nat}

theorem readyAt_of_state (th : Thread) (h : th.stat.state ≠ .ready) : th.readyAt = none :=
  if_neg h

theorem readyAt_of_ready (h : th.stat.state = .ready) : th.readyAt = some th.currentPriority :=
  if_pos h

/-- Changing the fields of one thread changes where that thread is placed. -/
theorem readyAt_update {Q : Type} {k k' : Kernel Q} {t : Tid} {th : Thread}
    (h : k'.thread = update k.thread t th) :
    readyAt k' = update (readyAt k) t th.readyAt := by
  ext1 u
  rw [readyAt, h]
  exact apply_update (fun _ => Thread.readyAt) k.thread t th u

theorem threadOk_created (h : ThreadOk prioMax th) (hs : th.stat.state ≠ .init) :
    th.created = true := by
  cases hc : th.created with
  | false => exact absurd (h.fresh hc) hs
  | true => rfl

/-- The fields that give a thread its place in the table. -/
def Thread.place (th : Thread) : Nat × Nat × Nat × BitVec 32 × BitVec 8 :=
  (th.currentPriority, th.initPriority, th.number, th.numberMask, th.highMask)

theorem attr_place (h : th'.place = th.place) (ha : Attr prioMax th) : Attr prioMax th' := by
  simp only [place, Prod.mk.injEq] at h
  rcases h with ⟨hcp, _, hn, hnm, hhm⟩
  unfold Attr
  rw [hcp, hn, hnm, hhm]
  exact ha

theorem unmarked_place (h : th'.place = th.place) (hu : Unmarked th) : Unmarked th' := by
  simp only [place, Prod.mk.injEq] at h
  rcases h with ⟨_, _, hn, hnm, hhm⟩
  unfold Unmarked
  rw [hn, hnm, hhm]
  exact hu

/-- Fields that the table does not read may change freely. -/
theorem threadOk_frame (h : ThreadOk prioMax th) (hc : th'.created = th.created)
    (hst : th'.stat.state = th.stat.state) (hplace : th'.place = th.place) :
    ThreadOk prioMax th' := by
  refine ⟨?_, fun hs => ?_, h.masks.imp (attr_place hplace) (unmarked_place hplace), ?_⟩
  · simp only [place, Prod.mk.injEq] at hplace
    rw [hc, hplace.1, hplace.2.1]
    exact h.bound
  · rw [hst] at hs
    exact attr_place hplace (h.attr hs)
  · rw [hc, hst]
    exact h.fresh

theorem threadOk_state (h : ThreadOk prioMax th) (hcr : th.created = true)
    (ha : Attr prioMax th ∨ (Unmarked th ∧ th'.stat.state = .close)) (hc : th'.created = true)
    (hplace : th'.place = th.place) : ThreadOk prioMax th' := by
  refine ⟨fun _ => ?_, fun hs => ?_,
    ha.imp (attr_place hplace) fun hu => unmarked_place hplace hu.1, fun hc0 => ?_⟩
  · simp only [place, Prod.mk.injEq] at hplace
    rw [hplace.1, hplace.2.1]
    exact h.bound hcr
  · rcases ha with ha | ⟨_, hcl⟩
    · exact attr_place hplace ha
    · rw [hcl] at hs
      exact nomatch hs
  · rw [hc] at hc0
    exact absurd hc0 (by decide)

theorem threadOk_priority {p : Nat} (st : Stat) (h : ThreadOk prioMax th) (hcr : th.created = true)
    (hp : p < prioMax) :
    ThreadOk prioMax
      { priorityAttribute prioMax { th with currentPriority := p } with stat := st } := by
  have hattr := priorityAttribute_attr prioMax { th with currentPriority := p }
  refine ⟨fun _ => ⟨?_, ?_⟩, fun _ => hattr, .inl hattr, fun hc0 => ?_⟩
  · rw [priorityAttribute_currentPriority]
    exact hp
  · rw [priorityAttribute_initPriority]
    exact (h.bound hcr).2
  · rw [priorityAttribute_created, hcr] at hc0
    exact absurd hc0 (by decide)

end Fields

section Calls

variable {prioMax : Nat} {k k' : Kernel Queues} (t : Tid)

theorem mem_remove_iff (q : Queues) (u : Tid) (h : Head) : u ∈ remove q t h ↔ u ∈ q h ∧ u ≠ t := by
  change u ∈ (q h).filter (· ≠ t) ↔ _
  rw [mem_filter, decide_eq_true_eq]

theorem mem_insertBefore_of_ne (u : Tid) (h h' : Head) (hu : u ≠ t)
    (hm : u ∈ insertBefore q h' t h) : u ∈ q h := by
  change u ∈ update q h' _ h at hm
  by_cases hh : h = h'
  · rw [hh, update_self, mem_append, mem_singleton] at hm
    rw [hh]
    exact hm.resolve_right hu
  · rwa [update_of_ne hh] at hm

theorem mem_insertAfter_of_ne {u : Tid} {h h' : Head} (hu : u ≠ t) (hm : u ∈ insertAfter q h' t h) :
    u ∈ q h := by
  change u ∈ update q h' _ h at hm
  by_cases hh : h = h'
  · rw [hh, update_self, mem_cons] at hm
    rw [hh]
    exact hm.resolve_left hu
  · rwa [update_of_ne hh] at hm

variable (hk : ReadyInv prioMax k)
include hk

/-- The shape of every call that works on one thread: its fields change, lists
    and bitmap follow, and no other thread is linked anywhere. -/
theorem readyInv_of_thread (th : Thread) (hthread : k'.thread = update k.thread t th)
    (hth : ThreadOk prioMax th) (hcr : th.created = true)
    (hcore : ReadyCore prioMax k' (update (readyAt k) t th.readyAt))
    (hlists : ∀ u h, u ≠ t → u ∈ k'.lists h → u ∈ k.lists h)
    (hinit : th.stat.state = .init → ∀ h, t ∉ k'.lists h)
    (hcur : k'.currentThread = k.currentThread) : ReadyInv prioMax k' := by
  refine ⟨?_, fun u => ?_, fun u h hu => ?_, fun u hu => ?_⟩
  · rw [readyAt_update hthread]
    exact hcore
  · rw [hthread]
    exact (forall_update_iff _ fun _ => ThreadOk prioMax).mpr ⟨hth, fun u _ => hk.threads u⟩ u
  · unfold state at hu
    rw [hthread] at hu
    by_cases hut : u = t
    · rw [hut, update_self] at hu
      rw [hut]
      exact hinit hu h
    · rw [update_of_ne hut] at hu
      exact fun hc => hk.initLoose u h hu (hlists u h hut hc)
  · rw [hthread]
    by_cases hut : u = t
    · rw [hut, update_self]
      exact hcr
    · rw [update_of_ne hut]
      rw [hcur] at hu
      exact hk.current u hu

theorem threadOk_closed (timer : ThreadTimer) (isStatic : Bool)
    (hcr : (k.thread t).created = true) :
    ThreadOk prioMax { k.thread t with
      stat := ⟨.close, 0⟩, threadTimer := timer, isStatic := isStatic } :=
  threadOk_state (hk.threads t) hcr ((hk.threads t).masks.imp id (fun hu => ⟨hu, rfl⟩)) hcr rfl

theorem readyInv_lockNest (n : BitVec 16) : ReadyInv prioMax { k with lockNest := n } :=
  { hk with core := ⟨hk.core.mem, hk.core.bitmap⟩ }

theorem readyInv_setThread (hth : ThreadOk prioMax th)
    (hcr : th.created = (k.thread t).created) (hst : th.stat.state = (k.thread t).stat.state)
    (hrt : th.readyAt = (k.thread t).readyAt) : ReadyInv prioMax (k.setThread t th) := by
  have hsame : update (readyAt k) t th.readyAt = readyAt k :=
    update_eq_self_iff.mpr hrt
  refine ⟨?_, fun u => ?_, fun u h hu => ?_, fun u hu => ?_⟩
  · rw [readyAt_update rfl, hsame]
    exact core_setThread t hk.core th
  · exact (forall_update_iff _ fun _ => ThreadOk prioMax).mpr ⟨hth, fun u _ => hk.threads u⟩ u
  · refine hk.initLoose u h ?_
    unfold state at hu ⊢
    rw [field_update (fun th : Thread => th.stat.state) (k.setThread_thread t th) hst] at hu
    exact hu
  · rw [field_update created (k.setThread_thread t th) hcr]
    exact hk.current u hu

theorem created_of_first {p : Nat}
    (ht : (k.lists (.ready p)).head? = some t) : (k.thread t).created = true := by
  have hin := (hk.core.mem t p).mp (mem_of_head? ht)
  refine threadOk_created (hk.threads t) (fun hs => ?_)
  rw [readyAt, readyAt_of_state _ (by rw [hs]; decide)] at hin
  exact nomatch hin

theorem readyInv_schedule (h : rtSchedule prioMax k = some k') : ReadyInv prioMax k' := by
  rcases rtSchedule_frame h with ⟨hsame, hcur⟩
  refine ⟨?_, fun u => ?_, fun u h hu => ?_, fun u hu => ?_⟩
  · have hr : readyAt k' = readyAt k := by
      ext u
      unfold readyAt
      rw [hsame.thread]
    refine ⟨fun u p => ?_, ?_⟩
    · rw [hr, hsame.lists]
      exact hk.core.mem u p
    · rw [hsame.lists, hsame.group, hsame.table]
      exact hk.core.bitmap
  · rw [hsame.thread]
    exact hk.threads u
  · unfold state at hu
    rw [hsame.thread] at hu
    rw [hsame.lists]
    exact hk.initLoose u h hu
  · rw [hsame.thread]
    rcases hcur with heq | ⟨v, hv, heq⟩
    · rw [heq] at hu
      exact hk.current u hu
    · rw [heq, some.injEq] at hu
      exact created_of_first u hk (hu ▸ hv)

theorem readyInv_init {isStatic : Bool} (hcr : (k.thread t).created = false)
    (h : rtThreadInit prioMax k t isStatic priority = some k') : ReadyInv prioMax k' := by
  rcases rtThreadInit_cases h with
    ⟨hp, th, hc, _, hst, rfl, hip, hn, hnm, hhm, _, rfl⟩
  have hsi : k.state t = .init := (hk.threads t).fresh hcr
  have hni : th.stat.state = .init := by rw [hst]
  refine readyInv_of_thread t hk th rfl ?_ hc ?_ (fun u h _ hm => hm)
    (fun _ h => hk.initLoose t h hsi) rfl
  · refine ⟨fun _ => ?_, fun hs => ?_, .inr ⟨hn, hnm, hhm⟩, fun hc0 => ?_⟩
    · rw [hip]
      exact ⟨hp, hp⟩
    · rw [hni] at hs
      exact nomatch hs
    · rw [hc] at hc0
      exact absurd hc0 (by decide)
  · have hold : readyAt k t = none := readyAt_of_state _ (by
      change k.state t ≠ _
      rw [hsi]
      decide)
    rw [readyAt_of_state th (by rw [hni]; decide), update_eq_self_iff.mpr hold.symm]
    exact ⟨hk.core.mem, hk.core.bitmap⟩

theorem readyInv_yield (h : rtThreadYield prioMax k = some k') : ReadyInv prioMax k' := by
  rcases rtThreadYield_cases h with ⟨t, ht, rfl | ⟨hs, _, hsched⟩⟩
  · exact hk
  refine readyInv_schedule ?_ hsched
  refine ⟨?_, hk.threads, fun u h hu hm => ?_, hk.current⟩
  · exact core_requeue t hk.core (readyAt_of_ready hs)
  have hut : u ≠ t := by
    intro hc
    rw [hc] at hu
    change k.state t = .init at hu
    rw [hs] at hu
    exact absurd hu (by decide)
  exact hk.initLoose u h hu
    ((mem_remove_iff t k.lists u h).mp (mem_insertBefore_of_ne t u h _ hut hm)).1

theorem readyInv_sleepReturn : ReadyInv prioMax (rtThreadSleepReturn k t) := by
  rcases rtThreadSleepReturn_cases with h | h
  · rw [h]
    exact hk
  · rw [h]
    exact readyInv_setThread t hk (threadOk_frame (hk.threads t) rfl rfl rfl) rfl rfl rfl

theorem readyInv_defunct (hs : k.state t ≠ .init) :
    ReadyInv prioMax { k with lists := insertAfter k.lists .defunct t } := by
  have hready : ∀ p, insertAfter k.lists .defunct t (.ready p) = k.lists (.ready p) :=
    fun p => update_of_ne (by nofun) _ _
  refine ⟨core_same hk.core hready, hk.threads, fun u h hu hm => ?_, hk.current⟩
  have hut : u ≠ t := by
    intro hc
    rw [hc] at hu
    exact hs hu
  exact hk.initLoose u h hu (mem_insertAfter_of_ne t hut hm)

theorem readyInv_start (h : rtSystemSchedulerStart prioMax k = some k') : ReadyInv prioMax k' := by
  -- Starting is an unlocked schedule from a state in which nobody runs.
  simp only [rtSystemSchedulerStart, bind_iff, pure_iff] at h
  rcases h with ⟨v, hv, rfl⟩
  refine ⟨⟨hk.core.mem, hk.core.bitmap⟩, hk.threads, hk.initLoose, fun u hu => ?_⟩
  have hv := created_of_first v hk hv
  rw [← some.inj hu]
  exact hv

theorem readyInv_exitCritical (h : rtExitCritical prioMax k = some k') : ReadyInv prioMax k' := by
  unfold rtExitCritical at h
  dsimp only at h
  split_ifs at h with hl
  · exact readyInv_schedule (readyInv_lockNest hk 0) h
  · cases h
    exact readyInv_lockNest hk _

omit hk

theorem readyInv_schedulerInit {prioMax : Nat} :
    ReadyInv prioMax (rtSystemSchedulerInit prioMax queuesInit) := by
  have hunmarked : Unmarked blank := ⟨rfl, rfl, rfl⟩
  refine ⟨⟨fun t p => ?_, ?_⟩, fun t => ?_, fun t _ _ => not_mem_nil, fun t ht => ?_⟩
  · constructor
    · intro hm
      exact absurd hm not_mem_nil
    · intro hr
      change blank.readyAt = some p at hr
      exact nomatch hr
  · unfold BitmapRep
    split_ifs
    · refine ⟨fun p _ => ?_, fun n _ => ?_⟩
      · exact ⟨fun h => absurd h (by simp [rtSystemSchedulerInit]), fun h => absurd rfl h⟩
      · exact ⟨fun h => absurd h (by simp [rtSystemSchedulerInit]), fun h => absurd rfl h⟩
    · exact fun p _ => ⟨fun h => absurd h (by simp [rtSystemSchedulerInit]), fun h => absurd rfl h⟩
  · refine ⟨fun hc => ?_, fun hs => ?_, .inr hunmarked, fun _ => rfl⟩
    · change blank.created = true at hc
      exact absurd hc (by decide)
    · change blank.stat.state = .ready ∨ blank.stat.state = .suspend at hs
      exact absurd hs (by decide)
  · exact nomatch ht

variable (hP : prioMax ≤ 256)
include hk hP

/-- Unlinking a thread that is not ready and inserting it into the ready
    table, with its fields changed in between, as resume and timeout do. -/
theorem readyInv_wake (hs : k.state t ≠ .ready)
    (hth : ThreadOk prioMax th) (hcr : th.created = true) (ha : Attr prioMax th) :
    ReadyInv prioMax (rtScheduleInsertThread prioMax
      ({ k with lists := remove k.lists t }.setThread t th) t) := by
  have hr : readyAt k t = none := readyAt_of_state _ hs
  have hcore := core_insert t (core_setThread t (core_same hk.core (remove_ready t hk.core hr)) th)
    hP (by rw [setThread_thread, update_self]; exact (hth.bound hcr).1)
    (by rw [setThread_thread, update_self]; exact ha) hr
  refine readyInv_of_thread t hk (th.setState .ready) ?_ ?_ hcr ?_
    (fun u h hu hm => ?_) (fun hi => ?_) (rtScheduleInsertThread_currentThread prioMax _ t)
  · rw [rtScheduleInsertThread_thread, setThread_thread, update_self, update_idem]
  · exact threadOk_state hth hcr (.inl ha) hcr rfl
  · rw [setThread_thread, update_self] at hcore
    exact hcore
  · rw [rtScheduleInsertThread_lists] at hm
    exact ((mem_remove_iff t k.lists u h).mp (mem_insertBefore_of_ne t u h _ hu hm)).1
  · exact nomatch hi

theorem readyInv_resume (h : rtThreadResume prioMax k t = some (k', e)) : ReadyInv prioMax k' := by
  rcases rtThreadResume_cases h with ⟨hcr, ⟨_, rfl, _⟩ | ⟨hs, _, timer, _, rfl⟩⟩
  · exact hk
  have hth := hk.threads t
  refine readyInv_wake t hk hP (by rw [hs]; decide) ?_ hcr ?_
  · exact threadOk_frame hth rfl rfl rfl
  · exact hth.attr (.inr hs)

theorem readyInv_remove {th1 : Thread}
    (hcr : (k.thread t).created = true) (hth : ThreadOk prioMax th) (hcr' : th.created = true)
    (hst : th.stat.state ≠ .ready) (hni : th.stat.state ≠ .init)
    (hplace : th1.place = (k.thread t).place) :
    ReadyInv prioMax ((rtScheduleRemoveThread prioMax (k.setThread t th1) t).setThread t th) := by
  have hold := hk.threads t
  have hfield : (k.setThread t th1).thread t = th1 := by
    rw [setThread_self]
  have hcp : th1.currentPriority = (k.thread t).currentPriority := congrArg Prod.fst hplace
  have hat : readyAt k t = none ∨ readyAt k t = some (k.thread t).currentPriority := by
    by_cases hs : (k.thread t).stat.state = .ready
    · exact .inr (readyAt_of_ready hs)
    · exact .inl (readyAt_of_state _ hs)
  -- Zero masks mean that the thread never was in the table.
  have hmasks : Attr prioMax th1 ∨ (Unmarked th1 ∧ readyAt k t = none) := by
    by_cases hs : (k.thread t).stat.state = .ready
    · exact .inl (attr_place hplace (hold.attr (.inl hs)))
    · exact hold.masks.imp (attr_place hplace)
        fun hu => ⟨unmarked_place hplace hu, readyAt_of_state _ hs⟩
  have hcore := core_remove t (core_setThread t hk.core th1) hP
    (by rw [hfield, hcp]; exact (hold.bound hcr).1) (by rw [hfield]; exact hmasks)
    (by rw [hfield, hcp]; exact hat)
  refine readyInv_of_thread t hk th ?_ hth hcr' ?_ (fun u h _ hm => ?_) (fun hi => absurd hi hni) ?_
  · rw [setThread_thread, rtScheduleRemoveThread_thread, setThread_thread, update_idem]
  · rw [readyAt_of_state th hst]
    exact core_setThread t hcore th
  · rw [setThread_lists, rtScheduleRemoveThread_lists, mem_remove_iff] at hm
    exact hm.1
  · exact rtScheduleRemoveThread_currentThread

theorem readyInv_suspend
    (h : rtThreadSuspend prioMax k t = some (k', e)) : ReadyInv prioMax k' := by
  rcases rtThreadSuspend_cases h with ⟨hcr, ⟨_, rfl, _⟩ | ⟨hs, _, timer, _, rfl⟩⟩
  · exact hk
  refine readyInv_remove t hk hP hcr ?_ hcr ?_ ?_ rfl
  · exact threadOk_state (hk.threads t) hcr (.inl ((hk.threads t).attr (.inl hs))) hcr rfl
  · nofun
  · nofun

theorem readyInv_startup (h : rtThreadStartup prioMax k t = some k') : ReadyInv prioMax k' := by
  rcases rtThreadStartup_cases h with ⟨hcr, hs, k1, e, hr, hlast⟩
  have hth := threadOk_priority ⟨.suspend, 0⟩ (hk.threads t) hcr ((hk.threads t).bound hcr).2
  have hold : (k.thread t).readyAt = none := readyAt_of_state _ (by
    change k.state t ≠ _
    rw [hs]
    decide)
  -- The thread is on no list yet, and being suspended places it on none.
  have hk0 : ReadyInv prioMax (k.setThread t
      { priorityAttribute prioMax
          { k.thread t with currentPriority := (k.thread t).initPriority } with
        stat := ⟨.suspend, 0⟩ }) := by
    refine readyInv_of_thread t hk _ rfl hth ?_ ?_ (fun u h _ hm => hm) ?_ rfl
    · rw [priorityAttribute_created]
      exact hcr
    · rw [readyAt_of_state _ (by nofun), update_eq_self_iff.mpr (Eq.symm (a := readyAt k t) hold)]
      exact core_setThread t hk.core _
    · exact fun hc => nomatch hc
  have hk1 := readyInv_resume t hk0 hP hr
  rcases hlast with rfl | hsched
  · exact hk1
  · exact readyInv_schedule hk1 hsched

theorem readyInv_sleep {tick : BitVec 32}
    (h : rtThreadSleep prioMax k tick = some k') : ReadyInv prioMax k' := by
  rcases rtThreadSleep_cases h with ⟨t, _, _, k1, e, timer, hsus, hsched⟩
  have hk1 := readyInv_suspend t hk hP hsus
  refine readyInv_schedule ?_ hsched
  exact readyInv_setThread t hk1 (threadOk_frame (hk1.threads t) rfl rfl rfl) rfl rfl rfl

theorem readyInv_control (hp : priority < prioMax)
    (h : rtThreadControl prioMax k t priority = some k') : ReadyInv prioMax k' := by
  rcases rtThreadControl_cases h with ⟨hcr, hcase⟩
  have hth := threadOk_priority (k.thread t).stat (hk.threads t) hcr hp
  have hattr := priorityAttribute_attr prioMax { k.thread t with currentPriority := priority }
  have hfields : (priorityAttribute prioMax
        { k.thread t with currentPriority := priority }).created = true ∧
      (priorityAttribute prioMax
        { k.thread t with currentPriority := priority }).stat = (k.thread t).stat := by
    rw [priorityAttribute_created, priorityAttribute_stat]
    exact ⟨hcr, rfl⟩
  generalize hnew : priorityAttribute prioMax { k.thread t with currentPriority := priority } = th
    at hcase hth hattr hfields
  have hstat : ({ th with stat := (k.thread t).stat } : Thread) = th := by
    rw [← hfields.2]
  rw [hstat] at hth
  rcases hcase with ⟨hs, rfl⟩ | ⟨hs, rfl⟩
  · have hnr : (k.thread t).stat.state ≠ .ready := hs
    refine readyInv_setThread t hk hth ?_ ?_ ?_
    · rw [hfields.1, hcr]
    · rw [hfields.2]
    · rw [readyAt_of_state _ hnr, readyAt_of_state _ (by rw [hfields.2]; exact hnr)]
  -- Out of the table at the old priority, back in at the new one.
  have hsr : (k.thread t).stat.state = .ready := hs
  have hcore := core_remove t hk.core hP ((hk.threads t).bound hcr).1
    (.inl ((hk.threads t).attr (.inl hsr))) (.inr (readyAt_of_ready hsr))
  have hcore' := core_insert t (core_setThread t hcore th) hP
    (by rw [setThread_thread, update_self]; exact (hth.bound hfields.1).1)
    (by rw [setThread_thread, update_self]; exact hattr)
    (by rw [update_self])
  refine readyInv_of_thread t hk (th.setState .ready) ?_ ?_ hfields.1 ?_
    (fun u h hu hm => ?_) (fun hi => ?_) ?_
  · rw [rtScheduleInsertThread_thread, setThread_thread, update_self,
      update_idem, rtScheduleRemoveThread_thread]
  · exact threadOk_state hth hfields.1 (.inl hattr) hfields.1 rfl
  · rw [update_idem, setThread_thread, update_self] at hcore'
    exact hcore'
  · rw [rtScheduleInsertThread_lists, setThread_lists, rtScheduleRemoveThread_lists] at hm
    exact ((mem_remove_iff t k.lists u h).mp (mem_insertBefore_of_ne t u h _ hu hm)).1
  · exact nomatch hi
  · rw [rtScheduleInsertThread_currentThread]
    exact rtScheduleRemoveThread_currentThread

theorem readyInv_timeout (h : rtThreadTimeout prioMax k t = some k') : ReadyInv prioMax k' := by
  rcases rtThreadTimeout_cases h with ⟨hcr, hs, hsched⟩
  have hth := hk.threads t
  refine readyInv_schedule ?_ hsched
  refine readyInv_wake t hk hP (by rw [hs]; decide) ?_ hcr ?_
  · exact threadOk_frame hth rfl rfl rfl
  · exact hth.attr (.inr hs)

theorem readyInv_close (timer : ThreadTimer) (isStatic : Bool) (hcr : (k.thread t).created = true) :
    ReadyInv prioMax ((rtScheduleRemoveThread prioMax k t).setThread t
      { k.thread t with stat := ⟨.close, 0⟩, threadTimer := timer, isStatic := isStatic }) := by
  have hself : k.setThread t (k.thread t) = k := by
    unfold setThread
    rw [update_eq_self]
  have h := readyInv_remove t hk hP hcr (threadOk_closed t hk timer isStatic hcr) hcr
    nofun nofun rfl
  rw [hself] at h
  exact h

theorem readyInv_exit (h : rtThreadExit prioMax k = some k') : ReadyInv prioMax k' := by
  rcases rtThreadExit_cases h with ⟨t, ht, timer, isStatic, k1, hk1, hlast⟩
  have hclose : ReadyInv prioMax k1 := by
    rw [hk1]
    exact readyInv_close t hk hP timer isStatic (hk.current t ht)
  have hst : k1.state t ≠ .init := by
    rw [hk1, state, setThread_self]
    nofun
  rcases hlast with ⟨hsched, _⟩ | ⟨hsched, _⟩
  · exact readyInv_schedule hclose hsched
  · exact readyInv_schedule (readyInv_defunct t hclose hst) hsched

theorem readyInv_closedAs {isStatic dead : Bool} (h : ClosedAs prioMax k t isStatic dead k') :
    ReadyInv prioMax k' := by
  rcases h with ⟨k0, k1, timer, hcr, hfirst, hk1, hlast⟩
  have hclose : ReadyInv prioMax k1 := by
    rcases hfirst with ⟨hs, rfl⟩ | ⟨_, rfl⟩
    · -- A thread that was never started is on no list.
      rw [hk1]
      have hold : readyAt k0 t = none := readyAt_of_state _ (by
        change k0.state t ≠ _
        rw [hs]
        decide)
      refine readyInv_of_thread t hk _ rfl
        (threadOk_closed t hk timer isStatic hcr) hcr ?_ (fun u h _ hm => hm)
        (fun hi => nomatch hi) rfl
      rw [readyAt_of_state _ (by nofun), update_eq_self_iff.mpr hold.symm]
      exact core_setThread t hk.core _
    · rw [hk1]
      exact readyInv_close t hk hP timer isStatic hcr
  rw [hlast]
  split_ifs
  · refine readyInv_defunct t hclose ?_
    rw [hk1, state, setThread_self]
    nofun
  · exact hclose

omit hk

theorem schedStep_readyInv {a : SchedAction} (hk : ReadyInv prioMax k)
    (h : schedStep prioMax k a = some k') : ReadyInv prioMax k' := by
  cases a with simp only [schedStep, bind_iff, assert_iff, map_eq_some_iff] at h
  | init t isStatic priority =>
    exact readyInv_init t hk h.1 h.2
  | startup t => exact readyInv_startup t hk hP h
  | suspend t =>
    rcases h with ⟨⟨k1, e⟩, h, rfl⟩
    exact readyInv_suspend t hk hP h
  | resume t =>
    rcases h with ⟨⟨k1, e⟩, h, rfl⟩
    exact readyInv_resume t hk hP h
  | yield => exact readyInv_yield hk h
  | sleep tick => exact readyInv_sleep hk hP h
  | sleepReturn t =>
    cases h
    exact readyInv_sleepReturn t hk
  | changePriority t priority =>
    exact readyInv_control t hk hP h.1 h.2
  | timeout t => exact readyInv_timeout t hk hP h
  | exit => exact readyInv_exit hk hP h
  | detach t =>
    exact readyInv_closedAs t hk hP (rtThreadDetach_cases h).2
  | delete t =>
    exact readyInv_closedAs t hk hP (rtThreadDelete_cases h).2
  | setCleanup t set =>
    cases h
    exact readyInv_setThread t hk (threadOk_frame (hk.threads t) rfl rfl rfl) rfl rfl rfl
  | start => exact readyInv_start hk h
  | enterCritical =>
    cases h
    exact readyInv_lockNest hk _
  | exitCritical => exact readyInv_exitCritical hk h

/-- A thread that is ready makes an unlocked schedule pick the first thread of
    the most urgent ready list. -/
theorem readyInv_schedule_first (hk : ReadyInv prioMax k)
    (hl : k.lockNest = 0) (hs : k.state t = .ready) :
    ∃ k' p u, rtSchedule prioMax k = some k' ∧ k'.currentThread = some u ∧
      (k.lists (.ready p)).head? = some u ∧ ∀ q, q < p → k.lists (.ready q) = [] := by
  have hbound : ∀ p, k.lists (.ready p) ≠ [] → p < prioMax := by
    intro p hp
    rcases exists_mem_of_ne_nil _ hp with ⟨u, hu⟩
    rw [hk.core.mem] at hu
    by_cases hur : (k.thread u).stat.state = .ready
    · rw [readyAt, readyAt_of_ready hur] at hu
      cases hu
      refine ((hk.threads u).bound (threadOk_created (hk.threads u) ?_)).1
      rw [hur]
      decide
    · rw [readyAt, readyAt_of_state _ hur] at hu
      exact nomatch hu
  have hsome : k.lists (.ready (k.thread t).currentPriority) ≠ [] :=
    ne_nil_of_mem ((hk.core.mem t _).mpr (readyAt_of_ready hs))
  rcases highestReadyPriority_spec hP hk.core.bitmap hbound ⟨_, hsome⟩ with
    ⟨hhigh, hleast⟩
  rcases exists_cons_of_ne_nil hhigh with ⟨u, us, hu⟩
  have hfirst : first k.lists (.ready (highestReadyPriority prioMax k)) = some u := by
    change (k.lists _).head? = some u
    rw [hu]
    rfl
  rcases rtSchedule_first prioMax k u hl hfirst with ⟨k', hk', hcur⟩
  refine ⟨k', _, u, hk', hcur, hfirst, fun q hq => ?_⟩
  by_contra hc
  have := hleast q hc
  omega

end Calls

end Honeycomb
