import Honeycomb.Theory.Mutex

/-!
# Who Owns a Mutex

The books and the mutex agree about who holds it and how often, as long as the
nesting counter does not overflow. The counter has eight bits, and the take
that would make it 256 makes it zero instead: from then on the books and the
mutex disagree, and one take later a single release gives the mutex away.

The condition is exact. A run keeps the books straight in every state it passes
through precisely when no take in it finds the calling thread the owner with the
counter at 255.

## Theorems

* `mutex_ownership`: Books and mutexes agree throughout a run exactly when
  every step is within the condition.
* `mutex_lost_by_nesting`: A thread that takes a mutex 257 times loses it by
  releasing it once.
-/

namespace Honeycomb

open Function MutexSys Option Run ThreadLists

/-- At most one thread has taken a mutex more often than it has released it, that thread is the
    owner, and the nesting counter is the difference. A mutex is free exactly when the books of all
    threads balance. The takes that the books count are those that return successfully. -/
def MutexOk (s : MutexSys) : Prop :=
  (∀ n,
    (∀ t u, s.released n t < s.taken n t → s.released n u < s.taken n u → t = u) ∧
    (∀ t, s.released n t < s.taken n t →
      (s.mutex n).owner = some t ∧ s.taken n t = s.released n t + (s.mutex n).hold.toNat) ∧
    ((s.mutex n).value = 1#16 ∧ (s.mutex n).owner = none ∧ (s.mutex n).hold = 0#8 ↔
      ∀ t, s.taken n t = s.released n t)) ∧
  (∀ r ∈ s.returns, r.status = .eok ↔ r.granted = true)

/-- No take finds its own thread the owner and the counter at its maximum. -/
def MutexCond (s : MutexSys) : MutexAction → Prop
  | .take t n _ => (s.mutex n).owner = some t → (s.mutex n).hold ≠ 255#8
  | _ => True

/-- The books of one mutex. -/
structure MutexCount (s : MutexSys) : Prop where
  free : ∀ n, (s.mutex n).owner = none → (s.mutex n).hold = 0#8 ∧ ∀ t, s.taken n t = s.released n t
  owned : ∀ n o, (s.mutex n).owner = some o → (s.mutex n).hold ≠ 0#8 ∧
    s.taken n o = s.released n o + (s.mutex n).hold.toNat ∧
    ∀ t, t ≠ o → s.taken n t = s.released n t

theorem bump_self (count : Nat → Tid → Nat) (n : Nat) (t : Tid) :
    bump count n t n t = count n t + 1 := by
  rw [bump, update_self, update_self]

variable {t u : Tid} {count : Nat → Tid → Nat} {m : Mutex} {a : MutexAction} {s : MutexSys}

theorem bump_of_ne {n : Nat} (hu : u ≠ t) : bump count n t n u = count n u := by
  rw [bump, update_self, update_of_ne hu]

theorem bump_other {n m : Nat} (hm : m ≠ n) : bump count n t m u = count m u := by
  rw [bump, update_of_ne hm]

section Count

variable (prioMax : Nat) {s : MutexSys} (s' : MutexSys)

variable (hs : MutexCount s)
include hs

/-- The books of a mutex that a step does not touch. -/
theorem count_of_one (n : Nat)
    (hother : ∀ m, m ≠ n → s'.mutex m = s.mutex m ∧
      ∀ t, s'.taken m t = s.taken m t ∧ s'.released m t = s.released m t)
    (hfree : (s'.mutex n).owner = none →
      (s'.mutex n).hold = 0#8 ∧ ∀ t, s'.taken n t = s'.released n t)
    (howned : ∀ o, (s'.mutex n).owner = some o → (s'.mutex n).hold ≠ 0#8 ∧
      s'.taken n o = s'.released n o + (s'.mutex n).hold.toNat ∧
      ∀ t, t ≠ o → s'.taken n t = s'.released n t) : MutexCount s' := by
  refine ⟨fun m hm => ?_, fun m o hm => ?_⟩
  · by_cases hmn : m = n
    · rw [hmn] at hm ⊢
      exact hfree hm
    rcases hother m hmn with ⟨hmut, hbooks⟩
    rw [hmut] at hm ⊢
    refine ⟨(hs.free m hm).1, fun t => ?_⟩
    rw [(hbooks t).1, (hbooks t).2]
    exact (hs.free m hm).2 t
  by_cases hmn : m = n
  · rw [hmn] at hm ⊢
    exact howned o hm
  rcases hother m hmn with ⟨hmut, hbooks⟩
  rw [hmut] at hm ⊢
  refine ⟨(hs.owned m o hm).1, ?_, fun t ht => ?_⟩
  · rw [(hbooks o).1, (hbooks o).2]
    exact (hs.owned m o hm).2.1
  · rw [(hbooks t).1, (hbooks t).2]
    exact (hs.owned m o hm).2.2 t ht

omit hs in
theorem count_take (t : Tid) (n : Nat) (m : Mutex) (hm : m.owner = some t)
    (hhold : m.hold = (s.mutex n).hold + 1#8) (hroom : (s.mutex n).hold ≠ 255#8)
    (hold : (s.mutex n).owner = some t ∨ (s.mutex n).owner = none) (hs : MutexCount s)
    (hmutex : s'.mutex = update s.mutex n m) (htaken : s'.taken = bump s.taken n t)
    (hreleased : s'.released = s.released) : MutexCount s' := by
  -- Before the take the books of the thread differ by the counter.
  have hdiff : s.taken n t = s.released n t + (s.mutex n).hold.toNat ∧
      ∀ u, u ≠ t → s.taken n u = s.released n u := by
    rcases hold with ho | ho
    · exact (hs.owned n t ho).2
    rcases hs.free n ho with ⟨hz, hb⟩
    refine ⟨?_, fun u _ => hb u⟩
    rw [hz, hb t]
    rfl
  have hadd : ((s.mutex n).hold + 1#8).toNat = (s.mutex n).hold.toNat + 1 := by bv_omega
  refine count_of_one s' hs n (fun i hi => ⟨?_, fun u => ?_⟩) (fun hnone => ?_) (fun o ho => ?_)
  · rw [hmutex, update_of_ne hi]
  · rw [htaken, hreleased, bump_other hi]
    exact ⟨rfl, rfl⟩
  · rw [hmutex, update_self, hm] at hnone
    exact nomatch hnone
  rw [hmutex, update_self, hm, some.injEq] at ho
  rw [hmutex, update_self, htaken, hreleased, ← ho, bump_self, hhold]
  refine ⟨fun hz => ?_, ?_, fun u hu => ?_⟩
  · rw [hz] at hadd
    exact absurd hadd (by
      rw [show (0#8).toNat = 0 from rfl]
      omega)
  · omega
  · rw [bump_of_ne hu]
    exact hdiff.2 u hu

theorem count_congr (hm : s'.mutex = s.mutex) (ht : s'.taken = s.taken)
    (hr : s'.released = s.released) : MutexCount s' := by
  refine ⟨fun n hn => ?_, fun n o ho => ?_⟩
  · rw [hm] at hn ⊢
    rw [ht, hr]
    exact hs.free n hn
  · rw [hm] at ho ⊢
    rw [ht, hr]
    exact hs.owned n o ho

theorem count_releaseNested {n : Nat} (howner : (s.mutex n).owner = some t)
    (hhold : (s.mutex n).hold ≠ 1#8) :
    MutexCount { s with
      mutex := update s.mutex n { s.mutex n with hold := (s.mutex n).hold - 1#8 }
      released := bump s.released n t } := by
  rcases hs.owned n t howner with ⟨hnz, hdiff, hrest⟩
  have hsub : ((s.mutex n).hold - 1#8).toNat = (s.mutex n).hold.toNat - 1 := by bv_omega
  refine count_of_one _ hs n (fun i hi => ⟨?_, fun u => ⟨rfl, ?_⟩⟩) (fun hnone => ?_)
    (fun o ho => ?_)
  · simp only [update_of_ne hi]
  · exact bump_other hi
  · simp only [update_self, howner, reduceCtorEq] at hnone
  simp only [update_self, howner, some.injEq] at ho ⊢
  rw [← ho, bump_self, hsub]
  refine ⟨fun hz => ?_, ?_, fun u hu => ?_⟩
  · exact hhold (by bv_omega)
  · have hpos : 0 < (s.mutex n).hold.toNat := by bv_omega
    omega
  · rw [bump_of_ne hu]
    exact hrest u hu

/-- The last release of the owner makes its books even. -/
theorem released_even {n : Nat} (howner : (s.mutex n).owner = some t)
    (hhold : (s.mutex n).hold = 1#8) (u : Tid) : s.taken n u = bump s.released n t n u := by
  rcases hs.owned n t howner with ⟨_, hdiff, hrest⟩
  rw [hhold] at hdiff
  by_cases hu : u = t
  · rw [hu, bump_self]
    exact hdiff
  · rw [bump_of_ne hu]
    exact hrest u hu

theorem count_releaseFree {n : Nat} {k' : Kernel Queues} (howner : (s.mutex n).owner = some t)
    (hhold : (s.mutex n).hold = 1#8) (hm : m.owner = none) (hz : m.hold = 0#8) :
    MutexCount { s with
      k := k'
      mutex := update s.mutex n m
      released := bump s.released n t } := by
  refine count_of_one _ hs n (fun i hi => ⟨?_, fun u => ⟨rfl, ?_⟩⟩) (fun _ => ?_) (fun o ho => ?_)
  · simp only [update_of_ne hi]
  · exact bump_other hi
  · simp only [update_self]
    exact ⟨hz, released_even hs howner hhold⟩
  · simp only [update_self, hm, reduceCtorEq] at ho

theorem count_handOver {n : Nat} {w : Tid} {k' : Kernel Queues} {call : Tid → Option MutexCall}
    (howner : (s.mutex n).owner = some t) (hhold : (s.mutex n).hold = 1#8)
    (hm : m.owner = some w) (hone : m.hold = 1#8) :
    MutexCount { s with
      k := k'
      mutex := update s.mutex n m
      released := bump s.released n t
      taken := bump s.taken n w
      call := call } := by
  refine count_of_one _ hs n (fun i hi => ⟨?_, fun u => ⟨?_, ?_⟩⟩) (fun hnone => ?_)
    (fun o ho => ?_)
  · simp only [update_of_ne hi]
  · exact bump_other hi
  · exact bump_other hi
  · simp only [update_self, hm, reduceCtorEq] at hnone
  simp only [update_self, hm, some.injEq] at ho ⊢
  rw [← ho, bump_self, hone, released_even hs howner hhold w]
  refine ⟨by simp only [ne_eq, BitVec.reduceEq, not_false_eq_true], rfl, fun u hu => ?_⟩
  rw [bump_of_ne hu]
  exact released_even hs howner hhold u

theorem mutexStep_count (hcond : MutexCond s a) (h : MutexStep prioMax s a s') : MutexCount s' := by
  cases h with
  | spawn | giveUp | wait | takeReturn | releaseFail | timeout =>
    exact count_congr (s := s) _ hs rfl rfl rfl
  | nested t n time hready hcall howner =>
    exact count_take _ t n { s.mutex n with hold := (s.mutex n).hold + 1#8 } howner rfl
      (hcond howner) (.inl howner) hs rfl rfl rfl
  | free t n time hready hcall howner =>
    refine count_take _ t n _ rfl rfl ?_ (.inr howner) hs rfl rfl rfl
    rw [(hs.free n howner).1]
    simp only [ne_eq, BitVec.reduceEq, not_false_eq_true]
  | releaseNested t n hready hcall howner hhold =>
    exact count_releaseNested hs howner hhold
  | releaseFree t n k' hready hcall howner hhold hset hnil =>
    exact count_releaseFree hs howner hhold rfl rfl
  | handOver t n w c k1 k' hready hcall howner hhold hset hfirst hne hcw hcn hb =>
    exact count_handOver hs howner hhold rfl rfl

theorem ok_of_count (hb : MutexBase s) : MutexOk s := by
  have howner : ∀ n t, s.released n t < s.taken n t → (s.mutex n).owner = some t := by
    intro n t ht
    rcases ho : (s.mutex n).owner with _ | o
    · have := (hs.free n ho).2 t
      omega
    by_cases hto : t = o
    · rw [hto]
    · have := (hs.owned n o ho).2.2 t hto
      omega
  refine ⟨fun n => ⟨fun t u ht hu => ?_, fun t ht => ?_, ⟨fun hfree => ?_, fun hbal => ?_⟩⟩,
    hb.returns⟩
  · have h := howner n t ht
    rw [howner n u hu, some.injEq] at h
    exact h.symm
  · exact ⟨howner n t ht, (hs.owned n t (howner n t ht)).2.1⟩
  · exact (hs.free n hfree.2.1).2
  rcases ho : (s.mutex n).owner with _ | o
  · exact ⟨(hb.free n ho).1, rfl, (hs.free n ho).1⟩
  -- An owner's books do not balance.
  rcases hs.owned n o ho with ⟨hnz, hdiff, _⟩
  have hpos : 0 < (s.mutex n).hold.toNat := by bv_omega
  have := hbal o
  omega

omit hs

/-- Nobody has released a mutex more often than taken it. -/
def Solvent (s : MutexSys) : Prop :=
  ∀ n t, s.released n t ≤ s.taken n t

/-- Conversely, books that agree are those of the invariant. -/
theorem count_of_ok (hsolvent : Solvent s) (hs : MutexOk s) : MutexCount s := by
  refine ⟨fun n hn => ?_, fun n o ho => ?_⟩
  · rcases hs.1 n with ⟨_, howner, hfree⟩
    have hbal : ∀ t, s.taken n t = s.released n t := by
      intro t
      by_contra hc
      have hle := hsolvent n t
      have hown := (howner t (by omega)).1
      rw [hn] at hown
      exact nomatch hown
    exact ⟨(hfree.mpr hbal).2.2, hbal⟩
  rcases hs.1 n with ⟨hone, howner, hfree⟩
  have hnb : ¬ ∀ t, s.taken n t = s.released n t := by
    intro hbal
    have hnone := (hfree.mpr hbal).2.1
    rw [ho] at hnone
    exact nomatch hnone
  rcases not_forall.mp hnb with ⟨t, ht⟩
  have hlt : s.released n t < s.taken n t := by
    have hle := hsolvent n t
    omega
  rcases howner t hlt with ⟨hot, hdiff⟩
  rw [ho, some.injEq] at hot
  rw [← hot] at hlt hdiff
  refine ⟨fun hz => ?_, hdiff, fun u hu => ?_⟩
  · rw [hz, show (0#8).toNat = 0 from rfl] at hdiff
    omega
  · by_contra hc
    have hle := hsolvent n u
    exact hu (hone u o (by omega) hlt)

theorem solvent_of_count (hs : MutexCount s) : Solvent s := by
  intro n t
  rcases ho : (s.mutex n).owner with _ | o
  · exact le_of_eq ((hs.free n ho).2 t).symm
  by_cases hto : t = o
  · have := (hs.owned n o ho).2.1
    rw [hto]
    omega
  · exact le_of_eq ((hs.owned n o ho).2.2 t hto).symm

/-- One step, exactly: the books agree afterwards if and only if the step was
    within the condition. -/
theorem mutexStep_ok_iff (hb : MutexBase s) (hs : MutexCount s) (h : MutexStep prioMax s a s') :
    Solvent s' ∧ (MutexOk s' ↔ MutexCond s a) := by
  have hb' := mutexStep_base hb h
  by_cases hcond : MutexCond s a
  · have hs' := mutexStep_count prioMax s' hs hcond h
    exact ⟨solvent_of_count hs', fun _ => hcond, fun _ => ok_of_count hs' hb'⟩
  -- Only a nested take at the maximum is outside the condition.
  cases h with
  | nested t n time hready hcall howner =>
    have hmax : (s.mutex n).hold = 255#8 := by
      by_contra hc
      exact hcond (fun _ => hc)
    rcases hs.owned n t howner with ⟨_, hdiff, hrest⟩
    refine ⟨fun i u => ?_, fun hok => ?_, fun hc => absurd hc hcond⟩
    · have hle := solvent_of_count hs i u
      change s.released i u ≤ bump s.taken n t i u
      by_cases hin : i = n
      · by_cases hut : u = t
        · rw [hin, hut, bump_self]
          omega
        · rw [hin, bump_of_ne hut, ← hin]
          exact hle
      · rw [bump_other hin]
        exact hle
    -- The books say 256, the counter says zero.
    have hold := ((hok.1 n).2.1 t (by
      change s.released n t < bump s.taken n t n t
      rw [bump_self]
      omega)).2
    change bump s.taken n t n t = s.released n t +
      ((update s.mutex n { s.mutex n with hold := (s.mutex n).hold + 1#8 } n).hold).toNat
      at hold
    rw [bump_self, update_self, hmax] at hold
    simp only [BitVec.reduceAdd, BitVec.reduceToNat] at hold
    omega
  | spawn | takeReturn | releaseFail | releaseNested | releaseFree | handOver | timeout =>
    exact absurd trivial hcond
  | free t n time hready hcall howner =>
    refine absurd (fun hown => ?_) hcond
    rw [howner] at hown
    exact nomatch hown
  | giveUp t n _ _ o howner hne | wait t n _ o _ _ _ _ howner hne =>
    refine absurd (fun hown => ?_) hcond
    rw [howner, some.injEq] at hown
    exact absurd hown.symm hne

theorem count_init (flag : Nat → IpcFlag) : MutexCount (mutexSysInit prioMax flag) := by
  refine ⟨fun n _ => ⟨rfl, fun _ => rfl⟩, fun n o ho => ?_⟩
  exact nomatch ho

end Count

/-- Books and mutexes agree in every state of a run exactly when no take of the
    run finds its own thread the owner with the nesting counter at 255. -/
theorem mutex_ownership (prioMax : Nat) (flag : Nat → IpcFlag) (as : List MutexAction) :
    Always (mutexStep prioMax) MutexOk (mutexSysInit prioMax flag) as ↔
      Along (mutexStep prioMax) MutexCond (mutexSysInit prioMax flag) as := by
  have hcount := count_init prioMax flag
  refine always_iff_along (fun s => MutexBase s ∧ Solvent s) (fun {s a s'} hI hP h => ?_)
    ⟨base_init prioMax flag, solvent_of_count hcount⟩
    (ok_of_count hcount (base_init prioMax flag))
  have hcase := mutexStep_cases hI.1 h
  rcases mutexStep_ok_iff prioMax s' hI.1 (count_of_ok hI.2 hP) hcase with ⟨hsol, hiff⟩
  exact ⟨⟨mutexStep_base hI.1 hcase, hsol⟩, hiff⟩

section Nesting

variable (prioMax : Nat) (t : Tid) (n : Nat)

/-- A thread that is about to nest: it owns the mutex and has nothing else going on. -/
structure Nesting (s : MutexSys) : Prop where
  ready : s.k.state t = .ready
  call : s.call t = none
  error : (s.k.thread t).error = .eok
  owner : (s.mutex n).owner = some t

theorem setError_same {k : Kernel Queues} {e : RtErr} (h : (k.thread t).error = e) :
    setError k t e = k := by
  have hth : ({ k.thread t with error := e } : Thread) = k.thread t := by rw [← h]
  unfold setError Kernel.setThread
  rw [hth, update_eq_self]

theorem nested_takes (j : Nat) (hs : Nesting t n s) :
    ∃ s', exec (mutexStep prioMax) s (List.replicate j (.take t n 0#32)) = some s' ∧
      Nesting t n s' ∧ s'.k = s.k ∧ s'.released = s.released ∧
      s'.taken n t = s.taken n t + j ∧
      s'.mutex n = { s.mutex n with hold := (s.mutex n).hold + BitVec.ofNat 8 j } := by
  induction j generalizing s with
  | zero =>
    refine ⟨s, rfl, hs, rfl, rfl, rfl, ?_⟩
    rw [show BitVec.ofNat 8 0 = 0#8 from rfl, BitVec.add_zero]
  | succ j ih =>
    have hstep : mutexStep prioMax s (.take t n 0#32) = some (s.finishTake t n 0#32
        (s.k, { s.mutex n with hold := (s.mutex n).hold + 1#8 }, .done .eok)) := by
      have hk := setError_same t hs.error
      unfold setError at hk
      simp only [mutexStep, rtAssert, hs.ready, hs.call, and_self, if_true, some_bind,
        rtMutexTake, hs.owner, hk, pure_def]
    have hnest : Nesting t n (s.finishTake t n 0#32
        (s.k, { s.mutex n with hold := (s.mutex n).hold + 1#8 }, .done .eok)) := by
      refine { hs with owner := ?_ }
      simp only [finishTake, update_self]
      exact hs.owner
    rcases ih hnest with ⟨s', hrun, hs', hk, hrel, htaken, hmutex⟩
    refine ⟨s', ?_, hs', hk, hrel, ?_, ?_⟩
    · simp only [List.replicate_succ, exec, hstep, bind_some]
      exact hrun
    · rw [htaken]
      simp only [finishTake, if_true, bump_self]
      omega
    rw [hmutex]
    simp only [finishTake, update_self]
    have hadd : (s.mutex n).hold + 1#8 + BitVec.ofNat 8 j
        = (s.mutex n).hold + BitVec.ofNat 8 (j + 1) := by
      rw [BitVec.add_assoc]
      congr 1
      rw [add_comm, BitVec.ofNat_add]
    rw [hadd]

theorem release_frees (hs : Nesting t n s) (hhold : (s.mutex n).hold = 1#8)
    (hprio : (s.mutex n).originalPriority = (s.k.thread t).currentPriority)
    (hnil : s.k.lists (list n) = []) :
    ∃ s', mutexStep prioMax s (.release t n) = some s' ∧ s'.taken = s.taken ∧
      s'.released = bump s.released n t ∧ (s'.mutex n).value = (s.mutex n).value + 1#16 ∧
      (s'.mutex n).owner = none ∧ (s'.mutex n).hold = 0#8 := by
  have hempty : isempty s.k.lists (list n) = true := by
    change (s.k.lists (list n)).isEmpty = true
    rw [hnil]
    rfl
  refine ⟨s.finishRelease t n (s.k, { s.mutex n with
      hold := 0#8, value := (s.mutex n).value + 1#16, owner := none, originalPriority := 0xff },
      .eok), ?_, ?_, ?_, ?_, ?_, ?_⟩
  · simp only [mutexStep, rtAssert, hs.ready, hs.call, and_self, if_true, some_bind, rtMutexRelease,
      hs.owner, ne_eq, not_true_eq_false, if_false, hhold, BitVec.sub_self, restorePriority, hprio,
      hempty, Bool.true_eq_false, pure_def]
  all_goals
    simp only [finishRelease, if_true, hs.owner, reduceCtorEq, if_false, update_self]

end Nesting

/-- A thread takes a mutex 257 times and releases it once, and the mutex is free. -/
theorem mutex_lost_by_nesting :
    ∃ s, exec (mutexStep 32) (mutexSysInit 32 (fun _ => .fifo))
        (.spawn 1 true 10 :: .take 1 0 0#32 ::
          (List.replicate 256 (.take 1 0 0#32) ++ [.release 1 0])) = some s ∧
      s.taken 0 1 = 257 ∧ s.released 0 1 = 1 ∧ (s.mutex 0).owner = none ∧ ¬ MutexOk s := by
  -- The state after the first take, as far as it matters.
  have hfirst : (exec (mutexStep 32) (mutexSysInit 32 (fun _ => .fifo))
      [.spawn 1 true 10, .take 1 0 0#32]).map (fun s =>
        (s.k.state 1, s.call 1, (s.k.thread 1).error, s.mutex 0, (s.k.thread 1).currentPriority,
          s.k.lists (list 0), s.taken 0 1, s.released 0 1))
      = some (.ready, none, .eok, ⟨0#16, 10, 1#8, some 1, .fifo⟩, 10, [], 1, 0) := by
    rfl
  rcases map_eq_some_iff.mp hfirst with ⟨s1, hs1, hview⟩
  simp only [Prod.mk.injEq] at hview
  rcases hview with ⟨hready, hcall, herr, hmutex, hprio, hlist, htaken, hreleased⟩
  have hnest1 : Nesting 1 0 s1 := ⟨hready, hcall, herr, by rw [hmutex]⟩
  rcases nested_takes 32 1 0 256 hnest1 with ⟨s2, hrun2, hnest2, hk2, hrel2, htaken2, hmutex2⟩
  rw [hmutex] at hmutex2
  have hhold2 : (s2.mutex 0).hold = 1#8 := by
    rw [hmutex2]
    rfl
  have hlast := release_frees 32 1 0 hnest2 hhold2
    (by rw [hmutex2, hk2, hprio]) (by rw [hk2, hlist])
  rcases hlast with ⟨s3, hs3, htaken3, hrel3, hvalue3, howner3, hhold3⟩
  have ht : s3.taken 0 1 = 257 := by rw [htaken3, htaken2, htaken]
  have hr : s3.released 0 1 = 1 := by rw [hrel3, bump_self, hrel2, hreleased]
  refine ⟨s3, ?_, ht, hr, howner3, fun hok => ?_⟩
  · have happ := exec_append (List.replicate 256 (.take 1 0 0#32) ++ [.release 1 0]) hs1
    rw [List.cons_append, List.cons_append, List.nil_append] at happ
    rw [happ, exec_append _ hrun2]
    simp only [exec, hs3, bind_some]
  have hvalue : (s3.mutex 0).value = 1#16 := by
    rw [hvalue3, hmutex2]
    rfl
  have hbal := (hok.1 0).2.2.mp ⟨hvalue, howner3, hhold3⟩ 1
  omega

end Honeycomb
