import Honeycomb.Core.Mutex
import Honeycomb.Lib.Run
import Honeycomb.Theory.Wait

/-!
# What a Mutex Can Do

The transitions of the system of mutexes, each with everything it changes, and
the part of its invariant that needs no side condition: who waits where, that a
mutex is free exactly when it has no owner, and that a waiting take is woken
either by being handed the mutex or by its timer.

`MutexStep` is the one place where the calls are taken apart. What is proved
about mutexes is proved by going through its cases.

## Main definitions

* `MutexStep`: The transitions.

## Theorems

* `mutexStep_cases`: Every step is one of the transitions.
* `mutexStep_base`: Every step keeps the invariant.
-/

namespace Honeycomb

open Function List MutexSys Option

/-- One thread has been given a priority, and nothing else that matters to
    waiting threads has changed. -/
structure PrioSet (k k' : Kernel Queues) (t : Tid) (priority : Nat) : Prop where
  of_ne : ∀ u, u ≠ t → k'.thread u = k.thread u
  prio : (k'.thread t).currentPriority = priority
  init : (k'.thread t).initPriority = (k.thread t).initPriority
  created : (k'.thread t).created = (k.thread t).created
  error : (k'.thread t).error = (k.thread t).error
  state : ∀ u, k'.state u = k.state u
  lists : ∀ h, h.IsWait → k'.lists h = k.lists h

variable {p priority : Nat} {o t : Tid} {k k' k1 : Kernel Queues}
  {r : Kernel Queues × Mutex × Outcome} {c : MutexCall} {a : MutexAction}

theorem prioSet_self {k : Kernel Queues} {t : Tid} (hp : (k.thread t).currentPriority = priority) :
    PrioSet k k t priority :=
  ⟨fun _ _ => rfl, hp, rfl, rfl, rfl, fun _ => rfl, fun _ _ => rfl⟩

theorem prioSet_of_control {prioMax : Nat} {loc : Tid → Option Head} (hk : WaitInv k loc)
    (h : rtThreadControl prioMax k t priority = some k') : PrioSet k k' t priority := by
  have hb := reprioritizes_of_control h
  refine ⟨hb.of_ne, ?_, ?_, ?_, ?_, reprioritizes_state hb, reprioritizes_lists hk hb⟩
  · rw [hb.thread, update_self, priorityAttribute_currentPriority]
  · rw [hb.thread, update_self, priorityAttribute_initPriority]
  · rw [hb.thread, update_self, priorityAttribute_created]
  · rw [hb.thread, update_self, priorityAttribute_error]

variable (hp : PrioSet k k' t priority)
include hp

theorem PrioSet.field {α : Type} {f : Thread → α}
    (hf : f (k'.thread t) = f (k.thread t)) (u : Tid) : f (k'.thread u) = f (k.thread u) := by
  by_cases hu : u = t
  · rw [hu]
    exact hf
  · rw [hp.of_ne u hu]

theorem PrioSet.created_eq (u : Tid) : (k'.thread u).created = (k.thread u).created :=
  hp.field hp.created u

theorem PrioSet.init_eq (u : Tid) : (k'.thread u).initPriority = (k.thread u).initPriority :=
  hp.field hp.init u

omit hp

theorem waitInv_prioSet {loc : Tid → Option Head} (hk : WaitInv k loc)
    (hp : PrioSet k k' t priority) : WaitInv k' loc :=
  waitInv_congr hk k' hp.state hp.created_eq hp.lists

/-- The transitions of the system, with the whole state they lead to. -/
inductive MutexStep (prioMax : Nat) (s : MutexSys) : MutexAction → MutexSys → Prop
  | spawn (t : Tid) (isStatic : Bool) (priority : Nat) (k' : Kernel Queues)
      (hb : Spawns prioMax s.k k' t priority) :
      MutexStep prioMax s (.spawn t isStatic priority) { s with k := k' }
  | nested (t : Tid) (n : Nat) (time : BitVec 32) (hready : s.k.state t = .ready)
      (hcall : s.call t = none) (howner : (s.mutex n).owner = some t) :
      MutexStep prioMax s (.take t n time) { s with
        k := setError s.k t .eok
        mutex := update s.mutex n { s.mutex n with hold := (s.mutex n).hold + 1#8 }
        taken := bump s.taken n t
        returns := ⟨t, n, .eok, true⟩ :: s.returns }
  | free (t : Tid) (n : Nat) (time : BitVec 32) (hready : s.k.state t = .ready)
      (hcall : s.call t = none) (howner : (s.mutex n).owner = none) :
      MutexStep prioMax s (.take t n time) { s with
        k := setError s.k t .eok
        mutex := update s.mutex n { s.mutex n with
          value := (s.mutex n).value - 1#16
          owner := some t
          originalPriority := (s.k.thread t).currentPriority
          hold := (s.mutex n).hold + 1#8 }
        taken := bump s.taken n t
        returns := ⟨t, n, .eok, true⟩ :: s.returns }
  | giveUp (t : Tid) (n : Nat) (hready : s.k.state t = .ready)
      (hcall : s.call t = none) (o : Tid) (howner : (s.mutex n).owner = some o) (hne : t ≠ o) :
      MutexStep prioMax s (.take t n 0#32) { s with
        k := setError s.k t .etimeout
        returns := ⟨t, n, .etimeout, false⟩ :: s.returns }
  | wait (t : Tid) (n : Nat) (time : BitVec 32) (o : Tid) (k₁ k' : Kernel Queues)
      (hready : s.k.state t = .ready) (hcall : s.call t = none)
      (howner : (s.mutex n).owner = some o) (hne : t ≠ o) (htime : time ≠ 0#32)
      (hboost : PrioSet (setError s.k t .eok) k₁ o
        (min (s.k.thread t).currentPriority (s.k.thread o).currentPriority))
      (hb : Blocks k₁ k' t (list n) (s.mutex n).flag) :
      MutexStep prioMax s (.take t n time) { s with
        k := k'
        call := update s.call t (some ⟨n, time, false⟩) }
  | takeReturn (t : Tid) (c : MutexCall) (hready : s.k.state t = .ready)
      (hcall : s.call t = some c) :
      MutexStep prioMax s (.takeReturn t) { s with
        call := update s.call t none
        returns := ⟨t, c.mutex, (s.k.thread t).error, c.granted⟩ :: s.returns }
  | releaseFail (t : Tid) (n : Nat) (hready : s.k.state t = .ready) (hcall : s.call t = none)
      (howner : (s.mutex n).owner ≠ some t) :
      MutexStep prioMax s (.release t n) { s with k := setError s.k t .error }
  | releaseNested (t : Tid) (n : Nat) (hready : s.k.state t = .ready) (hcall : s.call t = none)
      (howner : (s.mutex n).owner = some t) (hhold : (s.mutex n).hold ≠ 1#8) :
      MutexStep prioMax s (.release t n) { s with
        mutex := update s.mutex n { s.mutex n with hold := (s.mutex n).hold - 1#8 }
        released := bump s.released n t }
  | releaseFree (t : Tid) (n : Nat) (k' : Kernel Queues) (hready : s.k.state t = .ready)
      (hcall : s.call t = none) (howner : (s.mutex n).owner = some t)
      (hhold : (s.mutex n).hold = 1#8)
      (hset : PrioSet s.k k' t (s.mutex n).originalPriority) (hnil : s.k.lists (list n) = []) :
      MutexStep prioMax s (.release t n) { s with
        k := k'
        mutex := update s.mutex n { s.mutex n with
          value := (s.mutex n).value + 1#16
          owner := none
          originalPriority := 0xff
          hold := 0#8 }
        released := bump s.released n t }
  | handOver (t : Tid) (n : Nat) (w : Tid) (c : MutexCall) (k₁ k' : Kernel Queues)
      (hready : s.k.state t = .ready) (hcall : s.call t = none)
      (howner : (s.mutex n).owner = some t) (hhold : (s.mutex n).hold = 1#8)
      (hset : PrioSet s.k k₁ t (s.mutex n).originalPriority)
      (hfirst : (s.k.lists (list n)).head? = some w) (hne : w ≠ t)
      (hcw : s.call w = some c) (hcn : c.mutex = n)
      (hb : Wakes k₁ k' w (s.k.thread w).error) :
      MutexStep prioMax s (.release t n) { s with
        k := k'
        mutex := update s.mutex n { s.mutex n with
          owner := some w
          originalPriority := (s.k.thread w).currentPriority
          hold := 1#8 }
        released := bump s.released n t
        taken := bump s.taken n w
        call := update s.call w (some { c with granted := true }) }
  | timeout (t : Tid) (k' : Kernel Queues) (hb : Wakes s.k k' t .etimeout) :
      MutexStep prioMax s (.timeout t) { s with k := k' }

/-- Where each thread waits: in the list of the mutex it takes. -/
def MutexSys.loc (s : MutexSys) : Tid → Option Head :=
  locOf (fun c => list c.mutex) s.call

/-- A take that waits has been granted nothing and has no error. One that has been woken was handed
    the mutex, or has run out of time. A take that has not been granted is not by the owner. -/
structure MutexPending (s : MutexSys) (t : Tid) (c : MutexCall) : Prop where
  waiting : s.k.state t = .suspend → c.granted = false ∧ (s.k.thread t).error = .eok
  woken : s.k.state t = .ready →
    (c.granted = true ∧ (s.k.thread t).error = .eok) ∨
      (c.granted = false ∧ (s.k.thread t).error = .etimeout)
  notOwner : c.granted = false → (s.mutex c.mutex).owner ≠ some t

/-- The part of the invariant that needs no side condition. -/
structure MutexBase (s : MutexSys) : Prop where
  wait : WaitInv s.k s.loc
  free : ∀ n, (s.mutex n).owner = none → (s.mutex n).value = 1#16 ∧ s.k.lists (list n) = []
  owned : ∀ n o, (s.mutex n).owner = some o →
    (s.mutex n).value = 0#16 ∧ (s.k.thread o).created = true
  pending : ∀ t c, s.call t = some c → MutexPending s t c
  returns : ∀ r ∈ s.returns, r.status = .eok ↔ r.granted = true

section Cases

variable {prioMax : Nat} {s s' : MutexSys} {n : Nat}

theorem mutex_list_isWait : (list n).IsWait := trivial

/-- The boost of a blocking take, whether it happens or not. -/
theorem boost_cases {loc : Tid → Option Head} (hk : WaitInv k loc)
    (h : lendPriority prioMax k t o = some k1) :
    PrioSet k k1 o (min (k.thread t).currentPriority (k.thread o).currentPriority) := by
  unfold lendPriority at h
  split_ifs at h with hlt
  · rw [min_eq_left (le_of_lt hlt)]
    exact prioSet_of_control hk h
  · cases h
    exact prioSet_self (min_eq_right (Nat.le_of_not_lt hlt)).symm

/-- The restoration of a final release, whether it happens or not. -/
theorem restore_cases {loc : Tid → Option Head} (hk : WaitInv k loc)
    (h : restorePriority prioMax k t priority = some k1) : PrioSet k k1 t priority := by
  unfold restorePriority at h
  split_ifs at h with hne
  · exact prioSet_of_control hk h
  · cases h
    exact prioSet_self (not_not.mp hne).symm

variable (hs : MutexBase s)
include hs

theorem call_of_mem {w : Tid} (hw : w ∈ s.k.lists (list n)) :
    s.k.state w = .suspend ∧ ∃ c, s.call w = some c ∧ c.mutex = n := by
  rcases (hs.wait.mem w (list n) mutex_list_isWait).mp hw with ⟨hsus, hloc⟩
  rcases call_of_loc hloc with ⟨c, hcall, hcn⟩
  cases hcn
  exact ⟨hsus, c, hcall, rfl⟩

theorem value_pos_iff : 0#16 < (s.mutex n).value ↔ (s.mutex n).owner = none := by
  rcases howner : (s.mutex n).owner with _ | o
  · rw [(hs.free n howner).1]
    exact ⟨fun _ => rfl, fun _ => by decide⟩
  · rw [(hs.owned n o howner).1]
    exact ⟨fun h => absurd h (by decide), fun h => nomatch h⟩

theorem take_cases {time : BitVec 32} (hready : s.k.state t = .ready)
    (hcall : s.call t = none) (h : rtMutexTake prioMax s.k (s.mutex n) (list n) t time = some r) :
    MutexStep prioMax s (.take t n time) (s.finishTake t n time r) := by
  have hself : update s.mutex n (s.mutex n) = s.mutex := update_eq_self n s.mutex
  unfold rtMutexTake at h
  split_ifs at h with howner
  · cases h
    exact MutexStep.nested t n time hready hcall howner
  unfold rtMutexTakeAgain at h
  by_cases hv : 0#16 < (s.mutex n).value
  · rw [if_pos hv] at h
    cases h
    have hfree := @MutexStep.free prioMax s t n time hready hcall ((value_pos_iff hs).mp hv)
    rw [show s.k.setThread t { s.k.thread t with error := .eok } = setError s.k t .eok from rfl,
      setError_prio.1]
    exact hfree
  -- Somebody else owns the mutex.
  rcases ho : (s.mutex n).owner with _ | o
  · exact absurd ((value_pos_iff hs).mpr ho) hv
  have hne : t ≠ o := by
    intro hc
    rw [ho, hc] at howner
    exact howner rfl
  split_ifs at h with htime
  · cases h
    simp only [finishTake, hself, reduceCtorEq, if_false, decide_false]
    have hgive := @MutexStep.giveUp prioMax s t n hready hcall o ho hne
    rw [← setError_idem s.k t .eok .etimeout] at hgive
    rw [htime]
    exact hgive
  rw [ho] at h
  simp only [bind_eq_bind, bind_some, bind_eq_some_iff] at h
  rcases h with ⟨k1, h1, k2, h2, k3, h3, k4, h4, h⟩
  cases h
  have hw0 := waitInv_setError s.k t .eok hs.wait
  have hboost := boost_cases hw0 h1
  rw [setError_prio.1, setError_prio.1] at hboost
  have hs1 : k1.state t = .ready := by
    rw [hboost.state, setError_state]
    exact hready
  simp only [finishTake, hself]
  exact MutexStep.wait t n time o k1 k4 hready hcall ho hne htime hboost
    (blocks_of_wait hs1 h2 h3 h4)

theorem takeReturn_cases (hready : s.k.state t = .ready) (hcall : s.call t = some c)
    (h : rtMutexTakeReturn prioMax s.k (s.mutex c.mutex) (list c.mutex) t c.time = some r) :
    MutexStep prioMax s (.takeReturn t) (s.finishReturn t c r) := by
  have hself : update s.mutex c.mutex (s.mutex c.mutex) = s.mutex :=
    update_eq_self c.mutex s.mutex
  have hret := @MutexStep.takeReturn prioMax s t c hready hcall
  unfold rtMutexTakeReturn at h
  rcases (hs.pending t c hcall).woken hready with ⟨hg, he⟩ | ⟨hg, he⟩
  · rw [if_neg (not_not.mpr he)] at h
    cases h
    simp only [finishReturn, hself, hg, Bool.true_eq_false, and_false, if_false]
    rw [he, hg] at hret
    exact hret
  -- Out of time; there is no signal to make it try again.
  rw [if_pos (by rw [he]; nofun), if_neg (by rw [he]; nofun)] at h
  cases h
  simp only [finishReturn, hself, he, reduceCtorEq, false_and, if_false]
  rw [he] at hret
  exact hret

theorem release_cases {r : Kernel Queues × Mutex × RtErr}
    (hready : s.k.state t = .ready) (hcall : s.call t = none)
    (h : rtMutexRelease prioMax s.k (s.mutex n) (list n) t = some r) :
    MutexStep prioMax s (.release t n) (s.finishRelease t n r) := by
  have hself : update s.mutex n (s.mutex n) = s.mutex := update_eq_self n s.mutex
  unfold rtMutexRelease at h
  split_ifs at h with hnot
  · cases h
    simp only [finishRelease, hself, reduceCtorEq, if_false]
    exact MutexStep.releaseFail t n hready hcall (fun hc => hnot hc.symm)
  have howner : (s.mutex n).owner = some t := (not_not.mp hnot).symm
  by_cases hzero : (s.mutex n).hold - 1#8 = 0#8
  swap
  · rw [if_neg hzero] at h
    cases h
    simp only [finishRelease, if_true]
    refine MutexStep.releaseNested t n hready hcall howner (fun hc => hzero ?_)
    rw [hc]
    rfl
  rw [if_pos hzero] at h
  have hhold : (s.mutex n).hold = 1#8 := by bv_omega
  simp only [bind_iff] at h
  rcases h with ⟨k1, h1, h⟩
  have hset := restore_cases hs.wait h1
  have hlist := hset.lists (list n) mutex_list_isWait
  split_ifs at h with he
  · simp only [rtIpcListResume, bind_iff] at h
    rcases h with ⟨w, hfirst, k2, ⟨w', hfirst', ⟨k3, e⟩, hr, hk2⟩, k4, hsched, h⟩
    cases hk2
    cases h
    rw [hfirst, some.injEq] at hfirst'
    rw [← hfirst'] at hr
    rw [first_eq_head, hlist] at hfirst
    rcases call_of_mem hs (mem_of_head? hfirst) with ⟨hsus, c, hcw, hcn⟩
    have hwt : w ≠ t := by
      rintro rfl
      rw [hready] at hsus
      cases hsus
    have hsus1 : k1.state w = .suspend := by rw [hset.state, hsus]
    rcases wakes_of_resume hsus1 hr with ⟨_, hc, ⟨timer, hth⟩, hl⟩
    rcases rtSchedule_frame hsched with ⟨hsame, _⟩
    have hb : Wakes k1 k4 w (s.k.thread w).error := by
      refine ⟨hsus1, hc, ⟨timer, ?_⟩, fun h' hw' => ?_⟩
      · rw [hsame.thread, hth, hset.of_ne w hwt]
      · rw [hsame.lists, hl h' hw']
    have hdiff : (some t : Option Tid) ≠ some w := fun hc => hwt (Option.some.inj hc).symm
    have hover := @MutexStep.handOver prioMax s t n w c k1 k4 hready hcall howner hhold
      hset hfirst hwt hcw hcn hb
    simp only [finishRelease, if_true, howner, if_neg hdiff, hcw, map_some]
    rw [hset.of_ne w hwt, hhold]
    exact hover
  · cases h
    rw [Bool.not_eq_false] at he
    have hnil : s.k.lists (list n) = [] := by
      rw [← hlist]
      exact List.isEmpty_iff.mp he
    simp only [finishRelease, if_true, howner, reduceCtorEq, if_false]
    rw [hzero]
    exact MutexStep.releaseFree t n k1 hready hcall howner hhold hset hnil

theorem mutexStep_cases (h : mutexStep prioMax s a = some s') : MutexStep prioMax s a s' := by
  cases a with simp only [mutexStep, bind_iff, pure_iff, assert_iff] at h
  | spawn t isStatic priority =>
    rcases h with ⟨k', hk', rfl⟩
    exact MutexStep.spawn t isStatic priority k' (spawns_of_spawn hk')
  | take t n time =>
    rcases h with ⟨⟨hready, hcall⟩, r, hr, rfl⟩
    exact take_cases hs hready hcall hr
  | takeReturn t =>
    rcases h with ⟨hready, c, hc, r, hr, rfl⟩
    exact takeReturn_cases hs hready hc hr
  | release t n =>
    rcases h with ⟨⟨hready, hcall⟩, r, hr, rfl⟩
    exact release_cases hs hready hcall hr
  | timeout t =>
    rcases h with ⟨k', hk', rfl⟩
    exact MutexStep.timeout t k' (wakes_of_expire hk')

end Cases

section Base

variable {prioMax : Nat} {s s' : MutexSys}

/-- A call sees the state and error of its thread, and who owns its mutex. -/
theorem mutex_pending_frame {u : Tid} {c : MutexCall} (hstate : s'.k.state u = s.k.state u)
    (herr : (s'.k.thread u).error = (s.k.thread u).error)
    (howner : (s.mutex c.mutex).owner ≠ some u → (s'.mutex c.mutex).owner ≠ some u)
    (hp : MutexPending s u c) : MutexPending s' u c := by
  refine ⟨fun h => ?_, fun h => ?_, fun hg => howner (hp.notOwner hg)⟩
  · rw [herr]
    exact hp.waiting (by rw [← hstate]; exact h)
  · rw [herr]
    exact hp.woken (by rw [← hstate]; exact h)

theorem ne_of_call {u : Tid} (ht : s.call t = none) (hu : s.call u = some c) : u ≠ t := by
  rintro rfl
  rw [ht] at hu
  exact nomatch hu

theorem base_returns (r : MutexReturn) (hr : r.status = .eok ↔ r.granted = true)
    (hs : MutexBase s) : MutexBase { s with returns := r :: s.returns } := by
  refine ⟨hs.wait, hs.free, hs.owned, fun u c hc => ?_, fun r' hr' => ?_⟩
  · exact mutex_pending_frame (s := s) rfl rfl id (hs.pending u c hc)
  · rcases mem_cons.mp hr' with rfl | hr'
    · exact hr
    · exact hs.returns r' hr'

variable (hs : MutexBase s)
include hs

/-- A change of the kernel in which nobody starts to wait, and threads are woken only because
    they have run out of time. -/
theorem base_calm (hq : Calm (· = .etimeout) s.k k' s.loc) : MutexBase { s with k := k' } := by
  refine ⟨hq.wait, fun n hn => ⟨(hs.free n hn).1, hq.nil mutex_list_isWait (hs.free n hn).2⟩,
    fun n o ho => ⟨(hs.owned n o ho).1, hq.created o (hs.owned n o ho).2⟩, fun u c hc => ?_,
    hs.returns⟩
  have hp := hs.pending u c hc
  rcases hq.thread u (by rw [loc, locOf_of_call hc]; nofun) with
    hth | ⟨hsus, hready, he⟩
  · exact mutex_pending_frame (state_of_thread hth) (by rw [hth]) id hp
  · exact ⟨fun h => (nomatch hready.symm.trans h), fun _ => .inr ⟨(hp.waiting hsus).1, he⟩,
      hp.notOwner⟩

theorem base_setError {t : Tid} (e : RtErr) (hcall : s.call t = none) :
    MutexBase { s with k := setError s.k t e } :=
  base_calm hs (calm_setError hs.wait (by rw [loc, locOf, hcall, Option.map_none]))

theorem base_set {n : Nat} {m : Mutex}
    (hfree : m.owner = none → m.value = 1#16 ∧ s.k.lists (list n) = [])
    (howned : ∀ o, m.owner = some o → m.value = 0#16 ∧ (s.k.thread o).created = true)
    (hpend : ∀ u c, s.call u = some c → (s.mutex n).owner ≠ some u → m.owner ≠ some u) :
    MutexBase { s with mutex := update s.mutex n m } := by
  refine ⟨hs.wait, fun i hi => ?_, fun i o hi => ?_, fun u c hc => ?_, hs.returns⟩
  · by_cases hin : i = n
    · simp only [hin, update_self] at hi ⊢
      exact hfree hi
    · simp only [update_of_ne hin] at hi ⊢
      exact hs.free i hi
  · by_cases hin : i = n
    · simp only [hin, update_self] at hi ⊢
      exact howned o hi
    · simp only [update_of_ne hin] at hi ⊢
      exact hs.owned i o hi
  · refine mutex_pending_frame (s := s) rfl rfl (fun h => ?_) (hs.pending u c hc)
    by_cases hin : c.mutex = n
    · rw [hin] at h
      simp only [hin, update_self]
      exact hpend u c hc h
    · simp only [update_of_ne hin]
      exact h

theorem base_mutex (n : Nat) (m : Mutex) (ho : m.owner = (s.mutex n).owner)
    (hv : m.value = (s.mutex n).value) :
    MutexBase { s with mutex := update s.mutex n m } := by
  refine base_set hs (fun h => ?_) (fun o h => ?_) (fun u c _ h => ?_)
  · rw [hv]
    exact hs.free n (ho.symm.trans h)
  · rw [hv]
    exact hs.owned n o (ho.symm.trans h)
  · rw [ho]
    exact h

theorem base_books {taken released : Nat → Tid → Nat} :
    MutexBase { s with taken := taken, released := released } := by
  refine { hs with pending := fun u c hc => ?_ }
  exact mutex_pending_frame (s := s) rfl rfl id (hs.pending u c hc)

theorem base_free (t : Tid) (n : Nat) (m : Mutex) (hm : m.owner = some t) (hv : m.value = 0#16)
    (hcr : (s.k.thread t).created = true) (hcall : s.call t = none) :
    MutexBase { s with mutex := update s.mutex n m } := by
  refine base_set hs (fun h => ?_) (fun o h => ?_) (fun u c hc _ h => ?_)
  · exact nomatch (hm.symm.trans h)
  · rw [← Option.some.inj (hm.symm.trans h)]
    exact ⟨hv, hcr⟩
  · exact ne_of_call hcall hc (Option.some.inj (hm.symm.trans h)).symm

theorem base_wait {n : Nat} {time : BitVec 32} (howner : (s.mutex n).owner = some o) (hne : t ≠ o)
    (hboost : PrioSet (setError s.k t .eok) k1 o p)
    (hb : Blocks k1 k' t (list n) (s.mutex n).flag) :
    MutexBase { s with
      k := k'
      call := update s.call t (some ⟨n, time, false⟩) } := by
  have hw1 := waitInv_prioSet (waitInv_setError s.k t .eok hs.wait) hboost
  have hw := waitInv_blocks hw1 mutex_list_isWait hb
  -- Every other thread keeps its state, its error and its control block's life.
  have hother : ∀ u, u ≠ t → k'.state u = s.k.state u ∧
      (k'.thread u).error = (s.k.thread u).error := by
    intro u hu
    have hth := hb.of_ne u hu
    refine ⟨?_, ?_⟩
    · rw [state_of_thread hth, hboost.state, setError_state]
    · rw [hth, hboost.field hboost.error, setError_of_ne hu]
  have hself : (k'.thread t).error = .eok := by
    rw [hb.error, hboost.of_ne t hne, setError_self]
  refine ⟨by rw [loc, locOf_enter]; exact hw, fun i hi => ?_, fun i v hi => ?_,
    forall_update_some (fun c hc => ?_) (fun u hu c hc => ?_), hs.returns⟩
  · have hin : list i ≠ list n := by
      intro hc
      cases hc
      rw [howner] at hi
      exact nomatch hi
    rw [blocks_off hw1 hb mutex_list_isWait hin, hboost.lists _ mutex_list_isWait]
    exact hs.free i hi
  · refine ⟨(hs.owned i v hi).1, ?_⟩
    rcases hb.thread with ⟨timer, hth⟩
    rw [field_update Thread.created hth rfl v, hboost.created_eq, setError_created]
    exact (hs.owned i v hi).2
  · cases hc
    refine ⟨fun _ => ⟨rfl, hself⟩, fun hr => ?_, fun _ => ?_⟩
    · exact nomatch (hb.state.symm.trans hr)
    · rw [howner]
      exact fun hc => hne (Option.some.inj hc).symm
  · exact mutex_pending_frame (hother u hu).1 (hother u hu).2 id (hs.pending u c hc)

theorem base_takeReturn (hready : s.k.state t = .ready) :
    MutexBase { s with call := update s.call t none } := by
  refine ⟨?_, hs.free, hs.owned, forall_update_some nofun (fun u _ d hd => ?_), hs.returns⟩
  · rw [loc, locOf_leave]
    exact waitInv_leave hs.wait (by
      rw [hready]
      nofun)
  · exact mutex_pending_frame (s := s) rfl rfl id (hs.pending u d hd)

theorem base_prioSet (hset : PrioSet s.k k' t p) : MutexBase { s with k := k' } := by
  refine ⟨waitInv_prioSet hs.wait hset, fun n hn => ?_, fun n o ho => ?_,
    fun u c hc => ?_, hs.returns⟩
  · rw [hset.lists _ mutex_list_isWait]
    exact hs.free n hn
  · rw [hset.created_eq]
    exact hs.owned n o ho
  · exact mutex_pending_frame (hset.state u) (hset.field hset.error u) id (hs.pending u c hc)

theorem base_releaseFree (n : Nat) (m : Mutex) (hm : m.owner = none) (hv : m.value = 1#16)
    (hnil : s.k.lists (list n) = []) :
    MutexBase { s with mutex := update s.mutex n m } := by
  have hnone : ∀ u, m.owner ≠ some u := by
    intro u
    rw [hm]
    exact (some_ne_none u).symm
  exact base_set hs (fun _ => ⟨hv, hnil⟩) (fun o h => absurd h (hnone o)) (fun u _ _ _ => hnone u)

theorem base_handOver (n : Nat) (w : Tid) (c : MutexCall) (k' : Kernel Queues) (m : Mutex)
    (hm : m.owner = some w) (hv : m.value = 0#16) (hcw : s.call w = some c)
    (hb : Wakes s.k k' w (s.k.thread w).error) :
    MutexBase { s with
      k := k'
      mutex := update s.mutex n m
      call := update s.call w (some { c with granted := true }) } := by
  have herr := ((hs.pending w c hcw).waiting hb.suspend).2
  refine ⟨?_, fun i hi => ?_, fun i o hi => ?_,
    forall_update_some (fun d hd => ?_) (fun u hu d hd => ?_), hs.returns⟩
  · rw [loc, locOf_change _ s.call w c { c with granted := true } hcw rfl]
    exact waitInv_wakes hs.wait hb
  · by_cases hin : i = n
    · simp only [hin, update_self, hm, reduceCtorEq] at hi
    · simp only [update_of_ne hin] at hi ⊢
      rw [hb.lists _ mutex_list_isWait, (hs.free i hi).2, filter_nil]
      exact ⟨(hs.free i hi).1, rfl⟩
  · have hcreated : ∀ v, (s.k.thread v).created = true → (k'.thread v).created = true := by
      intro v hv
      rcases hb.thread with ⟨timer, hth⟩
      rw [field_update Thread.created hth rfl v]
      exact hv
    by_cases hin : i = n
    · simp only [hin, update_self, hm, some.injEq] at hi ⊢
      rw [← hi]
      exact ⟨hv, hcreated w hb.created⟩
    · simp only [update_of_ne hin] at hi ⊢
      exact ⟨(hs.owned i o hi).1, hcreated o (hs.owned i o hi).2⟩
  · cases hd
    refine ⟨fun hsus => ?_, fun _ => .inl ⟨rfl, ?_⟩, fun hg => ?_⟩
    · exact nomatch (hb.state.symm.trans hsus)
    · rw [hb.error]
      exact herr
    · exact nomatch hg
  · have hth := hb.of_ne u hu
    refine mutex_pending_frame (state_of_thread hth) (by rw [hth]) (fun h => ?_) (hs.pending u d hd)
    by_cases hin : d.mutex = n
    · simp only [hin, update_self, hm, ne_eq, some.injEq]
      exact fun hc => hu hc.symm
    · simp only [update_of_ne hin]
      exact h

theorem created_of_ready (hready : s.k.state t = .ready) : (s.k.thread t).created = true := by
  cases hc : (s.k.thread t).created with
  | true => rfl
  | false =>
    have hinit := (hs.wait.fresh t hc).1
    rw [hready] at hinit
    exact nomatch hinit

theorem mutexStep_base (h : MutexStep prioMax s a s') : MutexBase s' := by
  cases h with
  | spawn t isStatic priority k' hb => exact base_calm hs (calm_spawns hs.wait hb)
  | nested t n time hready hcall howner =>
    have h1 := base_setError hs .eok hcall
    have h2 := base_mutex (s := { s with k := setError s.k t .eok }) h1 n
      { s.mutex n with hold := (s.mutex n).hold + 1#8 } rfl rfl
    have h3 := base_returns ⟨t, n, .eok, true⟩ ⟨fun _ => rfl, fun _ => rfl⟩ h2
    exact base_books h3
  | free t n time hready hcall howner =>
    have h1 := base_setError hs .eok hcall
    have hval : (s.mutex n).value - 1#16 = 0#16 := by
      rw [(hs.free n howner).1]
      rfl
    have hcr : ((setError s.k t .eok).thread t).created = true := by
      rw [setError_created]
      exact created_of_ready hs hready
    have h2 := base_free (s := { s with k := setError s.k t .eok }) h1 t n { s.mutex n with
        value := (s.mutex n).value - 1#16
        owner := some t
        originalPriority := (s.k.thread t).currentPriority
        hold := (s.mutex n).hold + 1#8 } rfl hval hcr hcall
    have h3 := base_returns ⟨t, n, .eok, true⟩ ⟨fun _ => rfl, fun _ => rfl⟩ h2
    exact base_books h3
  | giveUp t n hready hcall o howner hne =>
    refine base_returns _ ?_ (base_setError hs .etimeout hcall)
    simp only [reduceCtorEq, Bool.false_eq_true]
  | wait t n time o k1 k' hready hcall howner hne htime hboost hb =>
    exact base_wait hs howner hne hboost hb
  | takeReturn t c hready hcall =>
    refine base_returns _ ?_ (base_takeReturn hs hready)
    rcases (hs.pending t c hcall).woken hready with ⟨hg, he⟩ | ⟨hg, he⟩
    · simp only [he, hg]
    · simp only [he, hg, reduceCtorEq, Bool.false_eq_true]
  | releaseFail t n hready hcall howner => exact base_setError hs .error hcall
  | releaseNested t n hready hcall howner hhold =>
    have h1 := base_mutex hs n { s.mutex n with hold := (s.mutex n).hold - 1#8 } rfl rfl
    exact base_books h1
  | releaseFree t n k' hready hcall howner hhold hset hnil =>
    have h1 := base_prioSet hs hset
    have hval : (s.mutex n).value + 1#16 = 1#16 := by
      rw [(hs.owned n t howner).1]
      rfl
    have hnil' : k'.lists (list n) = [] := by
      rw [hset.lists _ mutex_list_isWait, hnil]
    have h2 := base_releaseFree (s := { s with k := k' }) h1 n { s.mutex n with
        value := (s.mutex n).value + 1#16
        owner := none
        originalPriority := 0xff
        hold := 0#8 } rfl hval hnil'
    exact base_books h2
  | handOver t n w c k1 k' hready hcall howner hhold hset hfirst hne hcw hcn hb =>
    have h1 := base_prioSet hs hset
    have hb' : Wakes k1 k' w (k1.thread w).error := by
      rw [hset.field hset.error]
      exact hb
    have h2 := base_handOver (s := { s with k := k1 }) h1 n w c k' { s.mutex n with
        owner := some w
        originalPriority := (s.k.thread w).currentPriority
        hold := 1#8 } rfl (hs.owned n t howner).1 hcw hb'
    exact base_books h2
  | timeout t k' hb => exact base_calm hs (calm_wakes hs.wait hb rfl)

omit hs

theorem base_init (prioMax : Nat) (flag : Nat → IpcFlag) :
    MutexBase (mutexSysInit prioMax flag) := by
  refine ⟨waitInv_init, fun n _ => ⟨rfl, rfl⟩, fun n o ho => ?_, fun t c hc => ?_, nofun⟩
  · exact nomatch ho
  · exact nomatch hc

end Base

end Honeycomb
