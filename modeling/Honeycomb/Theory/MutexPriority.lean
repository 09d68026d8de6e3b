import Honeycomb.Theory.Mutex

/-!
# Priorities Lent Through Mutexes

Two things are expected of priority inheritance: a thread that holds no mutex
is back at its own priority, and the owner of a mutex is at least as urgent as
whoever waits for it.

The code keeps the priority to go back to with the mutex. A mutex taken while
its new owner is already boosted remembers the boosted priority, so what a
release restores depends on the order in which mutexes are released; and a
release restores a priority without looking at the other mutexes the thread
holds. The owner is boosted once, by the thread that blocks, and the boost is
not passed on to whoever that owner waits for.

For both expectations the exact condition is a condition on single steps, and
the theorems say that a run meets the expectation in every state it passes
through precisely when all of its steps meet the condition.

## Theorems

* `priority_restored`, `no_inversion`: Expectation and condition are
  equivalent, run by run.
* `boost_kept`, `boost_dropped`: Runs that fail the expectations.
-/

namespace Honeycomb

open Function List MutexSys Option Run

variable (s : MutexSys)

def MutexSys.cur (t : Tid) : Nat := (s.k.thread t).currentPriority

/-- The thread owns none of the mutexes. -/
def MutexSys.HoldsNone (t : Tid) : Prop := ∀ n, (s.mutex n).owner ≠ some t

/-- A thread that holds no mutex and is not inside a take has the priority it was started with. -/
def PrioRestored : Prop :=
  ∀ t, (s.k.thread t).created = true → s.HoldsNone t → s.call t = none →
    s.cur t = (s.k.thread t).initPriority

/-- When a thread gives up the last mutex it holds, that mutex remembers the
    priority the thread was started with. -/
def RestoreCond : MutexAction → Prop
  | .release t n => (s.mutex n).owner = some t → (s.mutex n).hold = 1#8 →
      (s.mutex n).originalPriority = (s.k.thread t).initPriority ∨
        ∃ m, m ≠ n ∧ (s.mutex m).owner = some t
  | _ => True

/-- The owner of a mutex is at least as urgent as every thread that is suspended on it. -/
def NoInversion : Prop :=
  ∀ n w, w ∈ s.k.lists (list n) → ∃ o, (s.mutex n).owner = some o ∧ s.cur o ≤ s.cur w

/-- A take that boosts an owner which itself waits finds the thread that one
    waits for urgent enough already. A final release goes back to a priority
    that is urgent enough for everybody who waits for the other mutexes of the
    thread, and hands the mutex to the most urgent thread that waits for it. -/
def InheritCond : MutexAction → Prop
  | .take t n time => ∀ o, (s.mutex n).owner = some o → t ≠ o → time ≠ 0#32 → s.cur t < s.cur o →
      ∀ m, o ∈ s.k.lists (list m) → ∀ o', (s.mutex m).owner = some o' → s.cur o' ≤ s.cur t
  | .release t n => (s.mutex n).owner = some t → (s.mutex n).hold = 1#8 →
      (∀ m, m ≠ n → (s.mutex m).owner = some t →
        ∀ w ∈ s.k.lists (list m), (s.mutex n).originalPriority ≤ s.cur w) ∧
      (∀ w, (s.k.lists (list n)).head? = some w → ∀ u ∈ s.k.lists (list n), s.cur w ≤ s.cur u)
  | _ => True

variable {o t : Tid} {k' : Kernel Queues} {m : Mutex} {a : MutexAction}

section Restore

variable {prioMax : Nat} (s : MutexSys) {s' : MutexSys}

/-- The expectation without the exception for threads inside a take. -/
def FreePrio (s : MutexSys) : Prop :=
  ∀ t, (s.k.thread t).created = true → s.HoldsNone t → s.cur t = (s.k.thread t).initPriority

/-- What is known about threads inside a take. -/
def FreePrioInside (s : MutexSys) : Prop :=
  ∀ t, (s.k.thread t).created = true → s.HoldsNone t → s.call t ≠ none →
    s.cur t = (s.k.thread t).initPriority

theorem freePrio_iff : FreePrio s ↔ PrioRestored s ∧ FreePrioInside s := by
  constructor
  · exact fun h => ⟨fun t hc hn _ => h t hc hn, fun t hc hn _ => h t hc hn⟩
  · intro h t hc hn
    by_cases hcall : s.call t = none
    · exact h.1 t hc hn hcall
    · exact h.2 t hc hn hcall

/-- Steps that change no priority and take no mutex away. -/
theorem freePrio_frame (hs : FreePrio s)
    (hcr : ∀ u, (s'.k.thread u).created = (s.k.thread u).created)
    (hprio : ∀ u, s'.HoldsNone u → s'.cur u = s.cur u)
    (hinit : ∀ u, (s'.k.thread u).initPriority = (s.k.thread u).initPriority)
    (hholds : ∀ u, s'.HoldsNone u → s.HoldsNone u) : FreePrio s' := by
  intro u hc hn
  rw [hprio u hn, hinit]
  exact hs u (by rw [← hcr]; exact hc) (hholds u hn)

theorem holdsNone_update {n : Nat} {m : Mutex} {u : Tid} (hold : (s.mutex n).owner ≠ some u)
    (hmutex : s'.mutex = update s.mutex n m) (hn : s'.HoldsNone u) :
    s.HoldsNone u := by
  intro i
  by_cases hi : i = n
  · rw [hi]
    exact hold
  · have h := hn i
    rw [hmutex, update_of_ne hi] at h
    exact h

theorem holdsNone_congr {u : Tid} (howner : ∀ i, (s'.mutex i).owner = (s.mutex i).owner)
    (hn : s'.HoldsNone u) : s.HoldsNone u := by
  intro i
  rw [← howner i]
  exact hn i

theorem freePrio_spawn {priority : Nat} (hb : Spawns prioMax s.k k' t priority) (hs : FreePrio s) :
    FreePrio { s with k := k' } := by
  intro u hc hn
  by_cases hu : u = t
  · rcases hb.thread with ⟨th, hth, _, _, rfl, hip, _⟩
    simp only [cur, hu, hth, update_self, hip]
  · simp only [cur, hb.of_ne u hu] at hc ⊢
    exact hs u hc hn

/-- A final release, exactly: the thread that gives up its last mutex goes back
    to what that mutex remembers. -/
theorem restored_release_iff {n : Nat} (hmutex : s'.mutex = update s.mutex n m)
    (howner : (s.mutex n).owner = some t) (hhold : (s.mutex n).hold = 1#8) (hm : m.owner ≠ some t)
    (hcall : s'.call t = none) (hcreated : (s.k.thread t).created = true)
    (hcr : ∀ u, (s'.k.thread u).created = (s.k.thread u).created)
    (hinit : ∀ u, (s'.k.thread u).initPriority = (s.k.thread u).initPriority)
    (hself : s'.cur t = (s.mutex n).originalPriority) (hother : ∀ u, u ≠ t → s'.cur u = s.cur u)
    (hs : FreePrio s) : FreePrioInside s' ∧ (PrioRestored s' ↔ RestoreCond s (.release t n)) := by
  -- Everybody else keeps priority and mutexes.
  have hrest : ∀ u, u ≠ t → (s'.k.thread u).created = true → s'.HoldsNone u →
      s'.cur u = (s'.k.thread u).initPriority := by
    intro u hu hc hn
    have hold : (s.mutex n).owner ≠ some u := by
      rw [howner]
      exact fun hc => hu (some.inj hc).symm
    rw [hother u hu, hinit]
    rw [hcr] at hc
    exact hs u hc (holdsNone_update s hold hmutex hn)
  refine ⟨fun u hc hn hcu => ?_, ?_⟩
  · refine hrest u ?_ hc hn
    rintro rfl
    exact hcu hcall
  constructor
  · intro hp _ _
    by_contra hno
    rcases not_or.mp hno with ⟨hneq, hlast⟩
    refine hneq ?_
    rw [← hself, ← hinit]
    refine hp t (by rw [hcr]; exact hcreated) (fun i => ?_) hcall
    by_cases hi : i = n
    · rw [hmutex, hi, update_self]
      exact hm
    · rw [hmutex, update_of_ne hi]
      exact fun hc => hlast ⟨i, hi, hc⟩
  · intro hc u hcu hn _
    by_cases hu : u = t
    · rcases hc howner hhold with heq | ⟨i, hi, ho⟩
      · rw [hu, hself, heq, hinit]
      · have h := hn i
        rw [hu, hmutex, update_of_ne hi] at h
        exact absurd ho h
    · exact hrest u hu hcu hn

theorem free_of_freePrio (hcond : RestoreCond s a) (hs' : FreePrio s') :
    FreePrioInside s' ∧ (PrioRestored s' ↔ RestoreCond s a) :=
  ⟨((freePrio_iff s').mp hs').2, fun _ => hcond, fun _ => ((freePrio_iff s').mp hs').1⟩

theorem mutexStep_restored_iff (hb : MutexBase s) (hs : FreePrio s) (h : MutexStep prioMax s a s') :
    FreePrioInside s' ∧ (PrioRestored s' ↔ RestoreCond s a) := by
  cases h with
  | spawn t isStatic priority k' hsp =>
    exact free_of_freePrio s trivial (freePrio_spawn s hsp hs)
  | nested t n time hready hcall howner =>
    refine free_of_freePrio s trivial (freePrio_frame s hs setError_created
      (fun u _ => setError_prio.1) (fun u => setError_prio.2)
      (fun u => holdsNone_congr s ?_))
    exact field_update Mutex.owner rfl rfl
  | free t n time hready hcall howner =>
    refine free_of_freePrio s trivial (freePrio_frame s hs setError_created
      (fun u _ => setError_prio.1) (fun u => setError_prio.2)
      (fun u hn => holdsNone_update s ?_ rfl hn))
    rw [howner]
    nofun
  | giveUp t n hready hcall o howner hne =>
    exact free_of_freePrio s trivial (freePrio_frame s hs
      setError_created (fun u _ => setError_prio.1)
      (fun u => setError_prio.2) (fun u hn => hn))
  | wait t n time o k1 k' hready hcall howner hne htime hboost hbl =>
    refine free_of_freePrio s trivial (freePrio_frame s hs (fun u => ?_) (fun u hn => ?_)
      (fun u => ?_) (fun u hn => hn))
    · rcases hbl.thread with ⟨timer, hth⟩
      rw [field_update Thread.created hth rfl u, hboost.created_eq, setError_created]
    · -- Only the owner is boosted, and it holds a mutex.
      have huo : u ≠ o := by
        rintro rfl
        exact hn n howner
      simp only [cur]
      rw [(hbl.prio u).1, hboost.of_ne u huo, setError_prio.1]
    · rw [(hbl.prio u).2, hboost.init_eq, setError_prio.2]
  | takeReturn t c hready hcall =>
    exact free_of_freePrio s trivial (freePrio_frame s hs (fun _ => rfl)
      (fun _ _ => rfl) (fun _ => rfl) (fun _ hn => hn))
  | releaseFail t n hready hcall howner =>
    refine free_of_freePrio s (fun hc => absurd hc howner) (freePrio_frame s hs
      setError_created (fun u _ => setError_prio.1)
      (fun u => setError_prio.2) (fun u hn => hn))
  | releaseNested t n hready hcall howner hhold =>
    refine free_of_freePrio s (fun _ hc => absurd hc hhold) (freePrio_frame s hs
      (fun _ => rfl) (fun _ _ => rfl) (fun _ => rfl) (fun u => holdsNone_congr s ?_))
    exact field_update Mutex.owner rfl rfl
  | releaseFree t n k' hready hcall howner hhold hset hnil =>
    exact restored_release_iff s rfl howner hhold nofun hcall (hb.owned n t howner).2
      hset.created_eq hset.init_eq hset.prio
      (fun u hu => by simp only [cur, hset.of_ne u hu]) hs
  | handOver t n w c k1 k' hready hcall howner hhold hset hfirst hne hcw hcn hwk =>
    have hcr : ∀ u, (k'.thread u).created = (s.k.thread u).created := by
      intro u
      rcases hwk.thread with ⟨timer, hth⟩
      rw [field_update Thread.created hth rfl u, hset.created_eq]
    exact restored_release_iff s rfl howner hhold (fun hc => hne (some.inj hc))
      (by simp only [update_of_ne hne.symm]; exact hcall)
      (hb.owned n t howner).2 hcr (fun u => by rw [(hwk.prio u).2, hset.init_eq])
      (by simp only [cur]; rw [(hwk.prio t).1, hset.prio])
      (fun u hu => by simp only [cur]; rw [(hwk.prio u).1, hset.of_ne u hu]) hs
  | timeout t k' hwk =>
    refine free_of_freePrio s trivial (freePrio_frame s hs (fun u => ?_)
      (fun u _ => (hwk.prio u).1) (fun u => (hwk.prio u).2) (fun u hn => hn))
    rcases hwk.thread with ⟨timer, hth⟩
    exact field_update Thread.created hth rfl u

end Restore

/-- Every thread without a mutex is back at its own priority in every state of a run exactly when
    every last release of the run is of a mutex that remembers that priority. -/
theorem priority_restored (prioMax : Nat) (flag : Nat → IpcFlag) (as : List MutexAction) :
    Always (mutexStep prioMax) PrioRestored (mutexSysInit prioMax flag) as ↔
      Along (mutexStep prioMax) RestoreCond (mutexSysInit prioMax flag) as := by
  have hinit : FreePrio (mutexSysInit prioMax flag) := by
    intro t hc _
    exact absurd hc (by
      change ¬ (false = true)
      simp only [Bool.false_eq_true, not_false_eq_true])
  refine always_iff_along (fun s => MutexBase s ∧ FreePrioInside s)
    (fun {s a s'} hI hP h => ?_)
    ⟨base_init prioMax flag, ((freePrio_iff _).mp hinit).2⟩ ((freePrio_iff _).mp hinit).1
  have hcase := mutexStep_cases hI.1 h
  rcases mutexStep_restored_iff s hI.1 ((freePrio_iff s).mpr ⟨hP, hI.2⟩) hcase with
    ⟨hin, hiff⟩
  exact ⟨⟨mutexStep_base hI.1 hcase, hin⟩, hiff⟩

/-- The action is on no mutex from `N` on. -/
def NamesBelow (N : Nat) : MutexAction → Prop
  | .take _ n _ => n < N
  | .release _ n => n < N
  | _ => True

instance (N : Nat) : DecidablePred (NamesBelow N) := by
  intro a
  cases a with
  | spawn t isStatic priority => exact isTrue trivial
  | take t n time => exact Nat.decLt n N
  | takeReturn t => exact isTrue trivial
  | release t n => exact Nat.decLt n N
  | timeout t => exact isTrue trivial

/-- A mutex that a run does not name stays as it was. -/
theorem mutex_untouched (prioMax N : Nat) {s t : MutexSys} {as : List MutexAction}
    (hb : MutexBase s) (hC : ∀ a ∈ as, NamesBelow N a)
    (h : exec (mutexStep prioMax) s as = some t) (n : Nat) (hn : N ≤ n) :
    t.mutex n = s.mutex n := by
  induction as generalizing s with
  | nil =>
    simp only [exec, some.injEq] at h
    rw [h]
  | cons a as ih =>
    simp only [exec, bind_eq_some_iff] at h
    rcases h with ⟨s', hs', hrest⟩
    have hcase := mutexStep_cases hb hs'
    have hbelow := hC a mem_cons_self
    rw [ih (mutexStep_base hb hcase) (fun b hmem => hC b (mem_cons_of_mem a hmem)) hrest]
    cases hcase with
    | spawn | giveUp | wait | takeReturn | releaseFail | timeout => rfl
    | nested | free | releaseNested | releaseFree | handOver =>
      exact update_of_ne (by
        unfold NamesBelow at hbelow
        omega) _ _

/-- A thread takes a second mutex while it is boosted through the first, and
    gives the first one up first: the second remembers the boost. -/
theorem boost_kept :
    ∃ s, exec (mutexStep 32) (mutexSysInit 32 (fun _ => .prio))
        [.spawn 1 true 20, .take 1 0 (-1#32), .spawn 2 true 10, .take 2 0 (-1#32),
          .take 1 1 (-1#32), .release 1 0, .takeReturn 2, .release 2 0, .release 1 1] = some s ∧
      ¬ PrioRestored s := by
  refine exists_of_run (fun s => (s.k.thread 1).created = true ∧ s.call 1 = none ∧
    s.cur 1 = 10 ∧ (s.k.thread 1).initPriority = 20 ∧ (s.mutex 0).owner = none ∧
    (s.mutex 1).owner = none) (by decide +kernel) ?_
  rintro s hs ⟨hcreated, hcall, hcur, hinit, howner0, howner1⟩ hp
  have h := hp 1 hcreated (fun n hc => ?_) hcall
  · exact absurd h (by omega)
  · have hnone : (s.mutex n).owner = none := by
      match n with
      | 0 => exact howner0
      | 1 => exact howner1
      | n + 2 =>
        rw [mutex_untouched 32 2 (base_init 32 (fun _ => .prio)) (by decide) hs (n + 2) (by omega)]
        rfl
    rw [hnone] at hc
    exact nomatch hc

section Inversion

variable {prioMax : Nat} {s s' : MutexSys} {n : Nat}

theorem waiter_ne_owner (hb : MutexBase s) {w : Tid} (hw : w ∈ s.k.lists (list n))
    (ho : (s.mutex n).owner = some o) : w ≠ o := by
  rcases call_of_mem hb hw with ⟨hsus, c, hcall, rfl⟩
  have hp := hb.pending w c hcall
  have hnot := hp.notOwner (hp.waiting hsus).1
  rintro rfl
  exact hnot ho

theorem waiter_ne_ready (hb : MutexBase s) {w : Tid} (hw : w ∈ s.k.lists (list n))
    (ht : s.k.state t = .ready) : w ≠ t := by
  rintro rfl
  rw [(call_of_mem hb hw).1] at ht
  exact nomatch ht

/-- Steps that change no priority of anybody concerned, take nobody's mutex
    away and make nobody wait. -/
theorem noInversion_frame (hs : NoInversion s)
    (hlists : ∀ n w, w ∈ s'.k.lists (list n) → w ∈ s.k.lists (list n))
    (howner : ∀ n o, (s.mutex n).owner = some o → (s'.mutex n).owner = some o)
    (hprio : ∀ u, (s.k.thread u).created = true → s'.cur u = s.cur u) (hb : MutexBase s) :
    NoInversion s' := by
  intro n w hw
  rcases hs n w (hlists n w hw) with ⟨o, ho, hle⟩
  have hcw : (s.k.thread w).created = true := by
    cases hc : (s.k.thread w).created with
    | true => rfl
    | false =>
      have hinit := (hb.wait.fresh w hc).1
      rw [(call_of_mem hb (hlists n w hw)).1] at hinit
      exact nomatch hinit
  refine ⟨o, howner n o ho, ?_⟩
  rw [hprio o (hb.owned n o ho).2, hprio w hcw]
  exact hle

theorem inversion_wait_iff {time : BitVec 32} {k1 : Kernel Queues}
    (hready : s.k.state t = .ready) (howner : (s.mutex n).owner = some o) (hne : t ≠ o)
    (htime : time ≠ 0#32) (hboost : PrioSet (setError s.k t .eok) k1 o (min (s.cur t) (s.cur o)))
    (hbl : Blocks k1 k' t (list n) (s.mutex n).flag) (hb : MutexBase s) (hs : NoInversion s) :
    NoInversion { s with
        k := k'
        call := update s.call t (some ⟨n, time, false⟩) } ↔
      InheritCond s (.take t n time) := by
  have hw1 := waitInv_prioSet (waitInv_setError s.k t .eok hb.wait) hboost
  -- The lists and priorities afterwards, in terms of those before.
  have hlist : ∀ m, m ≠ n → k'.lists (list m) = s.k.lists (list m) := by
    intro m hm
    have hne' : list m ≠ list n := by
      intro hc
      cases hc
      exact hm rfl
    rw [blocks_off hw1 hbl mutex_list_isWait hne', hboost.lists _ mutex_list_isWait]
    rfl
  have hmem : ∀ w, w ∈ k'.lists (list n) ↔ w = t ∨ w ∈ s.k.lists (list n) := by
    intro w
    rw [blocks_on hw1 hbl mutex_list_isWait, mem_place, hboost.lists _ mutex_list_isWait]
    rfl
  have hcur : ∀ u, u ≠ o → (k'.thread u).currentPriority = s.cur u := by
    intro u hu
    rw [(hbl.prio u).1, hboost.of_ne u hu, setError_prio.1]
    rfl
  have hcuro : (k'.thread o).currentPriority = min (s.cur t) (s.cur o) := by
    rw [(hbl.prio o).1, hboost.prio]
  constructor
  · intro hinv o1 ho1 _ _ hlt m hom o' ho'
    rw [howner, some.injEq] at ho1
    rw [← ho1] at hlt hom
    have hmn : m ≠ n := by
      rintro rfl
      exact waiter_ne_owner hb hom howner rfl
    have ho'o : o' ≠ o := fun hc => waiter_ne_owner hb hom ho' hc.symm
    rcases hinv m o (by simp only [hlist m hmn]; exact hom) with ⟨v, hv, hle⟩
    simp only at hv
    rw [ho', some.injEq] at hv
    simp only [cur] at hle
    rw [← hv, hcur o' ho'o, hcuro, min_eq_left (le_of_lt hlt)] at hle
    exact hle
  intro hcond m w hw
  simp only [cur]
  by_cases hmn : m = n
  · rw [hmn] at hw ⊢
    refine ⟨o, howner, ?_⟩
    rw [hcuro]
    rcases (hmem w).mp hw with rfl | hwold
    · rw [hcur w hne]
      exact min_le_left _ _
    rcases hs n w hwold with ⟨v, hv, hle⟩
    rw [howner, some.injEq] at hv
    rw [hcur w (waiter_ne_owner hb hwold howner)]
    rw [← hv] at hle
    exact le_trans (min_le_right _ _) hle
  simp only [hlist m hmn] at hw
  rcases hs m w hw with ⟨v, hv, hle⟩
  refine ⟨v, hv, ?_⟩
  -- The owner of the other mutex is no less urgent than before.
  have hv' : (k'.thread v).currentPriority ≤ s.cur v := by
    by_cases hvo : v = o
    · rw [hvo, hcuro]
      exact min_le_right _ _
    · rw [hcur v hvo]
  by_cases hwo : w = o
  · have hvo : v ≠ o := fun hc => waiter_ne_owner hb hw hv (hwo.trans hc.symm)
    rw [hwo] at hw hle ⊢
    rw [hcuro]
    by_cases hlt : s.cur t < s.cur o
    · rw [min_eq_left (le_of_lt hlt), hcur v hvo]
      exact hcond o howner hne htime hlt m hw v hv
    · rw [min_eq_right (Nat.le_of_not_lt hlt)]
      exact le_trans hv' hle
  · rw [hcur w hwo]
    exact le_trans hv' hle

/-- A final release, exactly, whether the mutex becomes free or is handed over:
    `next` is its new owner. -/
theorem inversion_release_iff (hready : s.k.state t = .ready)
    (howner : (s.mutex n).owner = some t) (hhold : (s.mutex n).hold = 1#8)
    (hmutex : s'.mutex = update s.mutex n m) (hm : m.owner = (s.k.lists (list n)).head?)
    (hlist : ∀ i w, w ∈ s'.k.lists (list i) ↔
      w ∈ s.k.lists (list i) ∧ some w ≠ (s.k.lists (list n)).head?)
    (hself : s'.cur t = (s.mutex n).originalPriority) (hother : ∀ u, u ≠ t → s'.cur u = s.cur u)
    (hb : MutexBase s) (hs : NoInversion s) : NoInversion s' ↔ InheritCond s (.release t n) := by
  constructor
  · intro hinv _ _
    refine ⟨fun i hi hot w hw => ?_, fun w hw u hu => ?_⟩
    · have hwt := waiter_ne_ready hb hw hready
      -- Who waits for another mutex is not the one that is handed this one.
      have hnot : some w ≠ (s.k.lists (list n)).head? := by
        intro hc
        have hwn : w ∈ s.k.lists (list n) := mem_of_head? hc.symm
        rcases call_of_mem hb hwn with ⟨_, c, hcall, rfl⟩
        rcases call_of_mem hb hw with ⟨_, d, hdall, hdi⟩
        rw [hcall, some.injEq] at hdall
        rw [← hdall] at hdi
        exact hi hdi.symm
      rcases hinv i w ((hlist i w).mpr ⟨hw, hnot⟩) with ⟨v, hv, hle⟩
      rw [hmutex, update_of_ne hi, hot, some.injEq] at hv
      rw [← hv, hself, hother w hwt] at hle
      exact hle
    · by_cases huw : u = w
      · rw [huw]
      have hut := waiter_ne_ready hb hu hready
      have hwt := waiter_ne_ready hb (mem_of_head? hw) hready
      have hnot : some u ≠ (s.k.lists (list n)).head? := by
        rw [hw]
        exact fun hc => huw (some.inj hc)
      rcases hinv n u ((hlist n u).mpr ⟨hu, hnot⟩) with ⟨v, hv, hle⟩
      rw [hmutex, update_self, hm, hw, some.injEq] at hv
      rw [← hv, hother w hwt, hother u hut] at hle
      exact hle
  · intro hcond i w hw
    rcases (hlist i w).mp hw with ⟨hold, hnot⟩
    have hwt := waiter_ne_ready hb hold hready
    rcases hcond howner hhold with ⟨hrest, hhead⟩
    by_cases hi : i = n
    · rw [hi] at hold
      rcases hfirst : (s.k.lists (list n)).head? with _ | v
      · rw [head?_eq_none_iff] at hfirst
        cases hfirst ▸ hold
      have hvt := waiter_ne_ready hb (mem_of_head? hfirst) hready
      refine ⟨v, ?_, ?_⟩
      · rw [hmutex, hi, update_self, hm, hfirst]
      · rw [hother v hvt, hother w hwt]
        exact hhead v hfirst w hold
    · rcases hs i w hold with ⟨v, hv, hle⟩
      refine ⟨v, by rw [hmutex, update_of_ne hi]; exact hv, ?_⟩
      rw [hother w hwt]
      by_cases hvt : v = t
      · rw [hvt, hself]
        exact hrest i hi (by rw [hv, hvt]) w hold
      · rw [hother v hvt]
        exact hle

theorem noInversion_update_owner {s : MutexSys} (n : Nat) (m : Mutex)
    (hm : m.owner = (s.mutex n).owner) {i : Nat} (ho : (s.mutex i).owner = some o) :
    (update s.mutex n m i).owner = some o :=
  (field_update Mutex.owner rfl hm i).trans ho

theorem mutexStep_inversion_iff (hb : MutexBase s) (hs : NoInversion s)
    (h : MutexStep prioMax s a s') : NoInversion s' ↔ InheritCond s a := by
  cases h with
  | spawn t isStatic priority k' hsp =>
    refine ⟨fun _ => trivial, fun _ => noInversion_frame hs (fun n w hw => ?_)
      (fun _ _ ho => ho) (fun u hu => ?_) hb⟩
    · simp only [spawns_lists hb.wait hsp _ mutex_list_isWait] at hw
      exact hw
    have hut : u ≠ t := by
      rintro rfl
      rw [hsp.fresh] at hu
      exact nomatch hu
    simp only [cur, hsp.of_ne u hut]
  | nested t n time hready hcall howner =>
    refine ⟨fun _ o ho hne => ?_, fun _ => noInversion_frame hs (fun _ _ hw => hw)
      (fun i o ho => noInversion_update_owner n
        { s.mutex n with hold := (s.mutex n).hold + 1#8 } rfl ho)
      (fun u _ => setError_prio.1) hb⟩
    rw [howner, some.injEq] at ho
    exact absurd ho hne
  | free t n time hready hcall howner =>
    refine ⟨fun _ o ho => ?_, fun _ => noInversion_frame hs (fun _ _ hw => hw)
      (fun i o ho => ?_) (fun u _ => setError_prio.1) hb⟩
    · rw [howner] at ho
      exact nomatch ho
    have hi : i ≠ n := by
      rintro rfl
      rw [howner] at ho
      exact nomatch ho
    simp only [update_of_ne hi]
    exact ho
  | giveUp t n hready hcall o howner hne =>
    exact ⟨fun _ _ _ _ htime => absurd rfl htime,
      fun _ => noInversion_frame hs (fun _ _ hw => hw) (fun _ _ ho => ho)
        (fun u _ => setError_prio.1) hb⟩
  | wait t n time o k1 k' hready hcall howner hne htime hboost hbl =>
    exact inversion_wait_iff hready howner hne htime hboost hbl hb hs
  | takeReturn t c hready hcall =>
    exact ⟨fun _ => trivial, fun _ => noInversion_frame hs (fun _ _ hw => hw)
      (fun _ _ ho => ho) (fun _ _ => rfl) hb⟩
  | releaseFail t n hready hcall howner =>
    exact ⟨fun _ hc => absurd hc howner, fun _ => noInversion_frame hs (fun _ _ hw => hw)
      (fun _ _ ho => ho) (fun u _ => setError_prio.1) hb⟩
  | releaseNested t n hready hcall howner hhold =>
    exact ⟨fun _ _ hc => absurd hc hhold, fun _ => noInversion_frame hs
      (fun _ _ hw => hw) (fun i o ho => noInversion_update_owner n
        { s.mutex n with hold := (s.mutex n).hold - 1#8 } rfl ho)
      (fun _ _ => rfl) hb⟩
  | releaseFree t n k' hready hcall howner hhold hset hnil =>
    refine inversion_release_iff hready howner hhold rfl ?_ (fun i w => ?_)
      hset.prio (fun u hu => by simp only [cur, hset.of_ne u hu]) hb hs
    · rw [hnil]
      rfl
    · simp only [hset.lists _ mutex_list_isWait, hnil, head?_nil, ne_eq, reduceCtorEq,
        not_false_eq_true, and_true]
  | handOver t n w c k1 k' hready hcall howner hhold hset hfirst hne hcw hcn hwk =>
    refine inversion_release_iff hready howner hhold rfl hfirst.symm (fun i u => ?_)
      (by simp only [cur]; rw [(hwk.prio t).1, hset.prio])
      (fun u hu => by simp only [cur]; rw [(hwk.prio u).1, hset.of_ne u hu]) hb hs
    simp only [hwk.lists _ mutex_list_isWait, hset.lists _ mutex_list_isWait,
      mem_filter, decide_eq_true_eq, hfirst, ne_eq, some.injEq]
  | timeout t k' hwk =>
    refine ⟨fun _ => trivial, fun _ => noInversion_frame hs (fun n w hw => ?_)
      (fun _ _ ho => ho) (fun u _ => (hwk.prio u).1) hb⟩
    simp only [hwk.lists _ mutex_list_isWait, mem_filter] at hw
    exact hw.1

end Inversion

/-- The owner of every mutex is at least as urgent as everybody who waits for it, in every state of
    a run, exactly when no step of the run takes urgency from an owner that still needs it. -/
theorem no_inversion (prioMax : Nat) (flag : Nat → IpcFlag) (as : List MutexAction) :
    Always (mutexStep prioMax) NoInversion (mutexSysInit prioMax flag) as ↔
      Along (mutexStep prioMax) InheritCond (mutexSysInit prioMax flag) as := by
  refine always_iff_along MutexBase (fun {s a s'} hb hP h => ?_) (base_init prioMax flag)
    (fun n w hw => absurd hw not_mem_nil)
  have hcase := mutexStep_cases hb h
  exact ⟨mutexStep_base hb hcase, mutexStep_inversion_iff hb hP hcase⟩

/-- A thread that holds two mutexes and is boosted through the first gives up the second: it is back
    at its old priority, and the first still has somebody more urgent waiting. -/
theorem boost_dropped :
    ∃ s, exec (mutexStep 32) (mutexSysInit 32 (fun _ => .prio))
        [.spawn 1 true 20, .take 1 0 (-1#32), .take 1 1 (-1#32), .spawn 2 true 10,
          .take 2 0 (-1#32), .release 1 1] = some s ∧ ¬ NoInversion s := by
  refine exists_of_run (fun s => s.k.lists (list 0) = [2] ∧ (s.mutex 0).owner = some 1 ∧
    s.cur 1 = 20 ∧ s.cur 2 = 10) (by decide +kernel) ?_
  rintro s - ⟨hlist, howner, hcur1, hcur2⟩ hinv
  rcases hinv 0 2 (by rw [hlist]; exact mem_singleton_self 2) with ⟨o, ho, hle⟩
  rw [howner, some.injEq] at ho
  rw [← ho, hcur1, hcur2] at hle
  omega

end Honeycomb
