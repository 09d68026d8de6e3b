import Honeycomb.Theory.Wait

/-!
# The Order of Wait Lists

When a wait list that is ordered by priority stays ordered.

Three things happen to wait lists. Threads are taken off them, which `Shrinks`
says of whole calls at once: every wait list becomes a sublist, and those who
stay keep their priority. A thread is linked into one of them, at the place its
priority gives it. And the priority of a thread changes while it stays where it
is. Only the last of these can break the order, and it does so unless the thread
fits between its neighbours with its new priority.

## Main definitions

* `Before`: More urgent, or as urgent and waiting for longer.
* `Ordered`: The lists ordered by priority are in order.

## Theorems

* `pairwise_insertPrio`: The place the code finds is the right one.
* `shrinks_resume`, `shrinks_resumeAll`, `shrinks_wakes`, `shrinks_spawns`: Calls
  that only take threads off.
* `ordered_shrinks`, `ordered_blocks`, `ordered_reprioritizes`: The order is kept.
-/

namespace Honeycomb

open Function List

/-- The first thread is more urgent, or as urgent and has been waiting for longer. -/
def Before (prio stamp : Tid → Nat) (u v : Tid) : Prop :=
  prio u < prio v ∨ prio u = prio v ∧ stamp u < stamp v

variable {priority : Nat} {e : RtErr} {list : Head}

section Lists

variable (prio stamp : Tid → Nat) (t : Tid) (ts : List Tid)

theorem pairwise_insertPrio (h : ts.Pairwise (Before prio stamp))
    (hnew : ∀ u ∈ ts, stamp u < stamp t) : (insertPrio prio t ts).Pairwise (Before prio stamp) := by
  induction ts with
  | nil => exact pairwise_singleton _ _
  | cons s ss ih =>
    rw [pairwise_cons] at h
    unfold insertPrio
    by_cases hlt : prio t < prio s
    · -- In front of a less urgent thread, and so of all behind it.
      rw [if_pos hlt]
      refine pairwise_cons.mpr ⟨fun u hu => .inl ?_, pairwise_cons.mpr h⟩
      rcases mem_cons.mp hu with rfl | hu
      · exact hlt
      · rcases h.1 u hu with hsu | ⟨hsu, _⟩
        · omega
        · omega
    rw [if_neg hlt]
    refine pairwise_cons.mpr ⟨fun u hu => ?_, ih h.2 (fun u hu =>
      hnew u (mem_cons_of_mem s hu))⟩
    rcases mem_insertPrio.mp hu with rfl | hu
    · have hs := hnew s mem_cons_self
      unfold Before
      omega
    · exact h.1 u hu

/-- A thread of the list would be in the right place with another priority: those
    in front of it come before it, and it comes before those behind it. -/
def Fits (priority : Nat) : Prop :=
  ∀ ls rs, ts = ls ++ t :: rs →
    (∀ u ∈ ls, prio u < priority ∨ prio u = priority ∧ stamp u < stamp t) ∧
    ∀ u ∈ rs, priority < prio u ∨ priority = prio u ∧ stamp t < stamp u

theorem before_irrefl {u : Tid} : ¬ Before prio stamp u u := by
  unfold Before
  omega

/-- The order is kept by a change of priority that fits. -/
theorem pairwise_update (h : ts.Pairwise (Before prio stamp))
    (hfit : Fits prio stamp t ts priority) :
    ts.Pairwise (Before (update prio t priority) stamp) := by
  have hsame : ∀ us : List Tid, t ∉ us → us.Pairwise (Before prio stamp) →
      us.Pairwise (Before (update prio t priority) stamp) := by
    intro us hus hp
    refine hp.imp_of_mem (fun {u v} hu hv huv => ?_)
    unfold Before
    rw [update_of_ne (ne_of_mem_of_not_mem hu hus), update_of_ne (ne_of_mem_of_not_mem hv hus)]
    exact huv
  by_cases ht : t ∈ ts
  · rcases append_of_mem ht with ⟨ls, rs, rfl⟩
    rcases hfit ls rs rfl with ⟨hleft, hright⟩
    rcases pairwise_append.mp h with ⟨hls, hrest, hbetween⟩
    rw [pairwise_cons] at hrest
    have htl : t ∉ ls := fun hc => before_irrefl prio stamp (hbetween t hc t mem_cons_self)
    have htr : t ∉ rs := fun hc => before_irrefl prio stamp (hrest.1 t hc)
    refine pairwise_append.mpr ⟨hsame ls htl hls, pairwise_cons.mpr
      ⟨fun u hu => ?_, hsame rs htr hrest.2⟩, fun u hu v hv => ?_⟩
    · unfold Before
      rw [update_self, update_of_ne (ne_of_mem_of_not_mem hu htr)]
      exact hright u hu
    unfold Before
    rw [update_of_ne (ne_of_mem_of_not_mem hu htl)]
    rcases mem_cons.mp hv with rfl | hv
    · rw [update_self]
      exact hleft u hu
    · rw [update_of_ne (ne_of_mem_of_not_mem hv htr)]
      exact hbetween u hu v (mem_cons_of_mem t hv)
  · exact hsame ts ht h

end Lists

/-- Threads are only taken off wait lists: nobody is suspended, and those who
    stay in a list keep their order and their priority. -/
structure Shrinks (k k' : Kernel Queues) : Prop where
  sub : ∀ h, h.IsWait → (k'.lists h).Sublist (k.lists h)
  prio : ∀ h, h.IsWait → ∀ u ∈ k'.lists h,
    (k'.thread u).currentPriority = (k.thread u).currentPriority
  state : ∀ u, k'.state u = .suspend → k.state u = .suspend

section Shrinks

variable {prioMax : Nat} {k k' : Kernel Queues} {t : Tid}

theorem shrinks_refl : Shrinks k k :=
  ⟨fun _ _ => List.Sublist.refl _, fun _ _ _ _ => rfl, fun _ hu => hu⟩

theorem shrinks_trans {k1 : Kernel Queues} (h1 : Shrinks k k1) (h2 : Shrinks k1 k') :
    Shrinks k k' := by
  refine ⟨fun h hw => (h2.sub h hw).trans (h1.sub h hw), fun h hw u hu => ?_,
    fun u hu => h1.state u (h2.state u hu)⟩
  rw [h2.prio h hw u hu, h1.prio h hw u ((h2.sub h hw).subset hu)]

theorem shrinks_setThread (th : Thread) (hst : th.stat.state = k.state t)
    (hp : th.currentPriority = (k.thread t).currentPriority) : Shrinks k (k.setThread t th) := by
  refine ⟨fun _ _ => List.Sublist.refl _, fun h _ u _ => ?_, fun u hu => ?_⟩
  · exact field_update Thread.currentPriority (k.setThread_thread t th) hp u
  · have hs := field_update (fun th : Thread => th.stat.state) (k.setThread_thread t th) hst u
    exact hs.symm.trans hu

theorem shrinks_setError {k : Kernel Queues} {t : Tid} {e : RtErr} : Shrinks k (setError k t e) :=
  shrinks_setThread _ rfl rfl

theorem shrinks_schedule (h : rtSchedule prioMax k = some k') : Shrinks k k' := by
  rcases rtSchedule_frame h with ⟨hsame, _⟩
  refine ⟨fun h _ => by rw [hsame.lists], fun h _ u _ => by rw [hsame.thread], fun u hu => ?_⟩
  rw [Kernel.state, hsame.thread] at hu
  exact hu

/-- One thread leaves all wait lists, and its control block is replaced by one
    that is not suspended. -/
theorem shrinks_off {k : Kernel Queues} {t : Tid} {th : Thread}
    (hth : k'.thread = update k.thread t th) (hst : th.stat.state ≠ .suspend)
    (hl : ∀ h, h.IsWait → k'.lists h = (k.lists h).filter (· ≠ t)) : Shrinks k k' := by
  refine ⟨fun h hw => ?_, fun h hw u hu => ?_, fun u hu => ?_⟩
  · rw [hl h hw]
    exact filter_sublist
  · rw [hl h hw, mem_filter, decide_eq_true_eq] at hu
    rw [hth, update_of_ne hu.2]
  · by_cases hut : u = t
    · rw [hut, state_update_self hth] at hu
      exact absurd hu hst
    · exact state_update_of_ne hth hut ▸ hu

theorem shrinks_wakes (hb : Wakes k k' t e) : Shrinks k k' := by
  rcases hb.thread with ⟨timer, hth⟩
  exact shrinks_off hth nofun hb.lists

theorem shrinks_spawns (hb : Spawns prioMax k k' t priority) : Shrinks k k' := by
  rcases hb.thread with ⟨th, hth, _, hst, _⟩
  exact shrinks_off hth (by
    rw [hst]
    nofun) hb.lists

theorem shrinks_resume (h : rtThreadResume prioMax k t = some (k', e)) : Shrinks k k' := by
  by_cases hs : k.state t = .suspend
  · exact shrinks_wakes (wakes_of_resume hs h)
  · rcases rtThreadResume_cases h with ⟨_, ⟨_, rfl, _⟩ | ⟨hsus, _⟩⟩
    · exact shrinks_refl
    · exact absurd hsus hs

theorem shrinks_listResume (h : rtIpcListResume prioMax k list = some k') : Shrinks k k' := by
  simp only [rtIpcListResume, bind_iff] at h
  rcases h with ⟨w, _, ⟨k1, e⟩, hr, hk⟩
  cases hk
  exact shrinks_resume hr

theorem shrinks_resumeWaiting (h : resumeWaiting prioMax k list = some k') : Shrinks k k' := by
  unfold resumeWaiting at h
  split_ifs at h
  · simp only [bind_iff] at h
    rcases h with ⟨k1, h1, h2⟩
    exact shrinks_trans (shrinks_listResume h1) (shrinks_schedule h2)
  · cases h
    exact shrinks_refl

theorem shrinks_resumeAll {n : Nat} (h : rtIpcListResumeAll prioMax n k list = some k') :
    Shrinks k k' := by
  induction n generalizing k with
  | zero =>
    cases h
    exact shrinks_refl
  | succ n ih =>
    unfold rtIpcListResumeAll at h
    split at h
    · cases h
      exact shrinks_refl
    next w _ =>
      simp only [bind_iff] at h
      rcases h with ⟨⟨k1, e⟩, hr, hrest⟩
      exact shrinks_trans (shrinks_trans shrinks_setError (shrinks_resume hr)) (ih hrest)

theorem shrinks_reprioritizes (hs : k.state t = .ready)
    (hb : Reprioritizes prioMax k k' t priority) : Shrinks k k' := by
  refine shrinks_off hb.thread ?_ (fun h hw => ?_)
  · rw [priorityAttribute_stat]
    change k.state t ≠ .suspend
    rw [hs]
    nofun
  · rw [hb.lists h hw, if_pos hs]

end Shrinks

/-- The wait lists that are ordered by priority are in order, and everybody who
    waits was suspended in the past. -/
structure Ordered (flag : Head → IpcFlag) (k : Kernel Queues) (stamp : Tid → Nat) (clock : Nat) :
    Prop where
  sorted : ∀ h, h.IsWait → flag h = .prio →
    (k.lists h).Pairwise (Before (fun u => (k.thread u).currentPriority) stamp)
  past : ∀ h, h.IsWait → ∀ u ∈ k.lists h, stamp u < clock

section Ordered

variable {prioMax : Nat} {flag : Head → IpcFlag} {k k' : Kernel Queues} {stamp : Tid → Nat}
  {clock : Nat} (t : Tid)

theorem ordered_shrinks (hk : Ordered flag k stamp clock) (hb : Shrinks k k') :
    Ordered flag k' stamp clock := by
  refine ⟨fun h hw hf => ?_, fun h hw u hu => hk.past h hw u ((hb.sub h hw).subset hu)⟩
  refine ((hk.sorted h hw hf).sublist (hb.sub h hw)).imp_of_mem (fun {u v} hu hv huv => ?_)
  unfold Before
  dsimp only
  rw [hb.prio h hw u hu, hb.prio h hw v hv]
  exact huv

theorem ordered_stamp {stamp' : Tid → Nat} {clock' : Nat} (hclock : clock ≤ clock')
    (heq : ∀ h, h.IsWait → ∀ u ∈ k.lists h, stamp' u = stamp u)
    (hk : Ordered flag k stamp clock) : Ordered flag k stamp' clock' := by
  refine ⟨fun h hw hf => ?_, fun h hw u hu => ?_⟩
  · refine (hk.sorted h hw hf).imp_of_mem (fun {u v} hu hv huv => ?_)
    unfold Before
    rw [heq h hw u hu, heq h hw v hv]
    exact huv
  · rw [heq h hw u hu]
    exact lt_of_lt_of_le (hk.past h hw u hu) hclock

/-- A thread is suspended now, at the place the flag of its list gives it. -/
theorem ordered_blocks (hw : list.IsWait) (hk : Ordered flag k stamp clock)
    (hb : Blocks k k' t list (flag list)) :
    Ordered flag k' (update stamp t clock) (clock + 1) := by
  have hprio : (fun u => (k'.thread u).currentPriority)
      = fun u => (k.thread u).currentPriority := by
    ext u
    exact (hb.prio u).1
  -- Without the thread itself, the lists are as before.
  have hrest : ∀ h, h.IsWait → flag h = .prio → ((k.lists h).filter (· ≠ t)).Pairwise
      (Before (fun u => (k.thread u).currentPriority) (update stamp t clock)) := by
    intro h hh hf
    refine ((hk.sorted h hh hf).sublist filter_sublist).imp_of_mem (fun {u v} hu hv huv => ?_)
    rw [mem_filter, decide_eq_true_eq] at hu hv
    unfold Before
    rw [update_of_ne hu.2, update_of_ne hv.2]
    exact huv
  have hpast : ∀ h, h.IsWait → ∀ u ∈ (k.lists h).filter (· ≠ t),
      update stamp t clock u < clock := by
    intro h hh u hu
    rw [mem_filter, decide_eq_true_eq] at hu
    rw [update_of_ne hu.2]
    exact hk.past h hh u hu.1
  refine ⟨fun h hh hf => ?_, fun h hh u hu => ?_⟩
  · rw [hprio]
    by_cases hl : h = list
    · rw [hl] at hf ⊢
      rw [hb.on, hf]
      refine pairwise_insertPrio _ _ t _ (hrest list hw hf) (fun u hu => ?_)
      rw [update_self]
      exact hpast list hw u hu
    · rw [hb.off h hh hl]
      exact hrest h hh hf
  · by_cases hl : h = list
    · rw [hl, hb.on, mem_place] at hu
      rcases hu with rfl | hu
      · rw [update_self]
        exact Nat.lt_succ_self clock
      · exact Nat.lt_succ_of_lt (hpast list hw u hu)
    · rw [hb.off h hh hl] at hu
      exact Nat.lt_succ_of_lt (hpast h hh u hu)

/-- A change of priority keeps the order if the thread fits wherever it waits. -/
theorem ordered_reprioritizes (flag : Head → IpcFlag) (k k' : Kernel Queues) (stamp : Tid → Nat)
    (clock : Nat) (t : Tid) (priority : Nat) (hk : Ordered flag k stamp clock)
    (hb : Reprioritizes prioMax k k' t priority)
    (hfit : k.state t ≠ .ready → ∀ h, h.IsWait → flag h = .prio →
      Fits (fun u => (k.thread u).currentPriority) stamp t (k.lists h) priority) :
    Ordered flag k' stamp clock := by
  by_cases hs : k.state t = .ready
  · exact ordered_shrinks hk (shrinks_reprioritizes hs hb)
  have hprio : (fun u => (k'.thread u).currentPriority)
      = update (fun u => (k.thread u).currentPriority) t priority := by
    ext1 u
    rw [hb.thread, apply_update (fun _ => Thread.currentPriority),
      priorityAttribute_currentPriority]
  refine ⟨fun h hw hf => ?_, fun h hw u hu => ?_⟩
  · rw [hprio, hb.lists h hw, if_neg hs]
    exact pairwise_update _ stamp t _ (hk.sorted h hw hf) (hfit hs h hw hf)
  · rw [hb.lists h hw, if_neg hs] at hu
    exact hk.past h hw u hu

end Ordered

end Honeycomb
