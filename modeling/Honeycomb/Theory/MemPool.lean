import Honeycomb.Core.MemPool
import Honeycomb.Lib.Run
import Honeycomb.Theory.Wait

/-!
# The Waiting Threads of a Memory Pool

A pool counts the threads that wait for its blocks, and a release looks at the count
to see whether there is one. The count is kept by the allocation and by the release.
A thread whose time runs out is taken off the list by the callback of its timer, and
the count stays as it was.

So the count is right exactly as long as no wait for a block runs out of time. After
that it is one too high, and the next release takes the head of the empty list for a
thread.

## Theorems

* `mempool_counts`: The same for whole runs.
* `mempool_count_stale`: A release that finds the count too high.
-/

namespace Honeycomb

open Function List MpSys Run ThreadLists

/-- The count of every pool is the number of threads on its list, so if it is not zero
    there is a first thread, and this one waits for a block of the pool. -/
def MpOk (s : MpSys) : Prop :=
  ∀ n, (s.pool n).suspendThreadCount = (s.k.lists (list n)).length ∧
    (0 < (s.pool n).suspendThreadCount → ∃ w c, first s.k.lists (list n) = some w ∧
      s.k.state w = .suspend ∧ s.call w = some c ∧ c.pool = n)

/-- The thread whose time runs out is not on the list of a pool. -/
def MpCond (s : MpSys) : MpAction → Prop
  | .timeout t =>
    match s.call t with
    | some c => t ∉ s.k.lists (list c.pool)
    | none => True
  | _ => True

instance decidableMpCond (s : MpSys) (a : MpAction) : Decidable (MpCond s a) :=
  match a with
  | .spawn _ _ _ => isTrue trivial
  | .alloc _ _ _ => isTrue trivial
  | .allocReturn _ => isTrue trivial
  | .free _ _ => isTrue trivial
  | .timeout t =>
    match h : s.call t with
    | some c => decidable_of_iff (t ∉ s.k.lists (list c.pool)) (by rw [MpCond, h])
    | none => isTrue (by rw [MpCond, h]; trivial)
  | .tick => isTrue trivial

/-- Where each thread waits: in the list of the pool it allocates from. -/
def MpSys.loc (s : MpSys) : Tid → Option Head :=
  locOf (fun c => list c.pool) s.call

theorem pool_list_isWait {n : Nat} : (list n).IsWait := trivial

variable {beforeSleep time : BitVec 32} {block n : Nat} {t : Tid} {k' : Kernel Queues}

section Calls

variable {prioMax : Nat} {k k' : Kernel Queues} {loc : Tid → Option Head} {mp mp' : MemPool}
  {n : Nat} {t : Tid}

/-- What an allocation does up to where it waits or is over. If it is over, nobody has moved and the
    count is what it was. If it waits, its thread is the first on the list and has been counted. -/
theorem mpAllocLoop_cases {tick : BitVec 32} {o : MpOutcome} (hk : WaitInv k loc)
    (hs : k.state t = .ready)
    (h : mpAllocLoop prioMax k mp n (list n) t time beforeSleep tick = some (k', mp', o)) :
    ((∃ block, o = .done block) ∧ WaitInv k' loc ∧ k'.state t = .ready ∧ k'.lists = k.lists ∧
      mp'.suspendThreadCount = mp.suspendThreadCount) ∨
    ((∃ time beforeSleep, o = .blocked time beforeSleep) ∧
      WaitInv k' (update loc t (some (list n))) ∧
      k'.lists (list n) = t :: k.lists (list n) ∧
      (∀ m, m ≠ n → k'.lists (list m) = k.lists (list m)) ∧
      mp'.suspendThreadCount = mp.suspendThreadCount + 1) := by
  unfold mpAllocLoop at h
  by_cases hfree : mp.blockFreeCount = 0
  · rw [if_pos hfree] at h
    by_cases htime : time = 0#32
    · rw [if_pos htime] at h
      cases h
      exact .inl ⟨⟨none, rfl⟩, waitInv_setThread hk t _ rfl rfl,
        (setError_state k t .etimeout t).trans hs, rfl, rfl⟩
    rw [if_neg htime] at h
    simp only [bind_iff] at h
    rcases h with ⟨⟨k1, e⟩, h1, k2, h2, k3, h3, h⟩
    cases h
    have hk0 := waitInv_setThread hk t { k.thread t with error := .eok } rfl rfl
    have hs0 : (k.setThread t { k.thread t with error := .eok }).state t = .ready :=
      (setError_state k t .eok t).trans hs
    have hne0 : (k.setThread t { k.thread t with error := .eok }).state t ≠ .suspend := by
      rw [hs0]
      exact nofun
    rcases suspend_frame hs0 h1 with ⟨hc, timer1, hthread, hlists⟩
    rcases startThreadTimer_cases h2 with ⟨timer2, rfl⟩
    rcases rtSchedule_frame h3 with ⟨hsame, _⟩
    -- A ready thread is on no wait list, so the suspension leaves these as they are.
    have hkeep : ∀ h, h.IsWait → k1.lists h = k.lists h := by
      intro h hw
      rw [hlists h, filter_wait hk0 hne0 hw]
      rfl
    have hfinal : k'.lists = insertAfter k1.lists (list n) t := by rw [hsame.lists]; rfl
    have hon : k'.lists (list n) = t :: k.lists (list n) := by
      rw [hfinal, ← hkeep (list n) pool_list_isWait]
      exact update_self _ _ _
    have hoff : ∀ h, h.IsWait → h ≠ list n → k'.lists h = k.lists h := by
      intro h hw hne
      rw [hfinal, ← hkeep h hw]
      exact update_of_ne hne _ _
    refine .inr ⟨⟨_, _, rfl⟩, ?_, hon, fun m hm => ?_, rfl⟩
    · have hnot := not_mem_wait hk0 t hne0 (list n) pool_list_isWait
      refine waitInv_suspends hk0 pool_list_isWait hs0 hc ⟨timer2, ?_⟩
        (fun u => ?_) ?_ (fun h hw hne => hoff h hw hne)
      · rw [hsame.thread, Kernel.setThread_thread]
        simp only [hthread, update_self, update_idem]
      · rw [hon, mem_cons]
        exact Iff.rfl
      · rw [hon]
        exact nodup_cons.mpr ⟨hnot, hk.nodup (list n) pool_list_isWait⟩
    · exact hoff (list m) pool_list_isWait (fun hc => hm (Head.pool.inj hc))
  · rw [if_neg hfree] at h
    simp only [bind_iff, pure_iff] at h
    rcases h with ⟨⟨mp1, block⟩, htake, h⟩
    cases h
    simp only [MemPool.take, bind_iff] at htake
    rcases htake with ⟨b, hb, htake⟩
    cases hword : mp.word b with rw [hword] at htake
    | next next =>
      cases htake
      exact .inl ⟨⟨_, rfl⟩, hk, hs, rfl, rfl⟩
    | pool m =>
      exact nomatch htake

/-- A release with a right count wakes the first thread that waits and takes it off the
    count, or finds nobody. -/
theorem rtMpFree_cases (hw : ∀ w ∈ k.lists (list n), k.state w = .suspend)
    (h : rtMpFree prioMax k mp n (list n) block = some (k', mp')) :
    (mp.suspendThreadCount = 0 ∧ k' = k ∧ mp'.suspendThreadCount = 0) ∨
    (0 < mp.suspendThreadCount ∧ mp'.suspendThreadCount = mp.suspendThreadCount - 1 ∧
      ∃ w, first k.lists (list n) = some w ∧ Wakes (setError k w .eok) k' w .eok) := by
  simp only [rtMpFree, bind_iff, assert_iff] at h
  rcases h with ⟨_, h⟩
  split_ifs at h with hcount
  · simp only [bind_iff] at h
    rcases h with ⟨w, hfirst, ⟨k1, e⟩, h1, k2, h2, h⟩
    cases h
    refine .inr ⟨hcount, rfl, w, hfirst, ?_⟩
    rcases rtSchedule_frame h2 with ⟨hsame, _⟩
    have hsus : (setError k w .eok).state w = .suspend := by
      rw [setError_state]
      exact hw w (mem_of_head? hfirst)
    rcases wakes_of_resume hsus h1 with ⟨hs, hc, ⟨timer, hth⟩, hl⟩
    refine ⟨hs, hc, ⟨timer, ?_⟩, fun h' hw' => ?_⟩
    · rw [hsame.thread, hth, setError_self]
    · rw [hsame.lists, hl h' hw']
  · cases h
    exact .inl ⟨by omega, rfl, by change mp.suspendThreadCount = 0; omega⟩

end Calls

section Steps

variable {prioMax : Nat} (s : MpSys) {s' : MpSys}

/-- The count of every pool is the number of threads on its list. -/
def MpSys.Counts : Prop :=
  ∀ n, (s.pool n).suspendThreadCount = (s.k.lists (list n)).length

/-- A right count is all there is to show: the first thread of a list waits there. -/
theorem mpOk_iff (hI : WaitInv s.k s.loc) : MpOk s ↔ s.Counts := by
  refine ⟨fun h n => (h n).1, fun h n => ⟨h n, fun hpos => ?_⟩⟩
  cases hlist : s.k.lists (list n) with
  | nil =>
    rw [h n, hlist, length_nil] at hpos
    omega
  | cons w ws =>
    have hfirst : first s.k.lists (list n) = some w := by rw [first_eq_head, hlist]; rfl
    rcases waiting_of_first hI pool_list_isWait hfirst with ⟨hsus, hloc⟩
    rcases call_of_loc hloc with ⟨c, hcall, hc⟩
    exact ⟨w, c, hfirst, hsus, hcall, Head.pool.inj hc⟩

theorem counts_alloc {r : Kernel Queues × MemPool × MpOutcome} (hI : WaitInv s.k s.loc)
    (hC : s.Counts) (hready : s.k.state t = .ready)
    (h : mpAllocLoop prioMax s.k (s.pool n) n (list n) t time beforeSleep s.tick = some r) :
    WaitInv (s.finishAlloc t n r).k (s.finishAlloc t n r).loc ∧ (s.finishAlloc t n r).Counts := by
  rcases r with ⟨k', mp', o⟩
  rcases mpAllocLoop_cases hI hready h with
    ⟨⟨block, rfl⟩, hw, hs, hl, hcount⟩ | ⟨⟨time', before', rfl⟩, hw, hon, hoff, hcount⟩
  · refine ⟨?_, fun m => ?_⟩
    · simp only [finishAlloc, MpSys.loc, locOf_leave]
      exact waitInv_leave hw (by
        rw [hs]
        nofun)
    simp only [finishAlloc, hl]
    by_cases hmn : m = n
    · rw [hmn, update_self, hcount]
      exact hC n
    · rw [update_of_ne hmn]
      exact hC m
  · refine ⟨?_, fun m => ?_⟩
    · simp only [finishAlloc, MpSys.loc, locOf_enter]
      exact hw
    simp only [finishAlloc]
    by_cases hmn : m = n
    · rw [hmn, update_self, hcount, hon, length_cons, hC n]
    · rw [update_of_ne hmn, hoff m hmn]
      exact hC m

theorem length_wakes {k : Kernel Queues} {loc : Tid → Option Head} {w : Tid} {e : RtErr} {n m : Nat}
    (hk : WaitInv k loc) (hb : Wakes k k' w e) (hw : w ∈ k.lists (list n)) :
    (k'.lists (list m)).length =
      if m = n then (k.lists (list m)).length - 1 else (k.lists (list m)).length := by
  rw [hb.lists (list m) pool_list_isWait]
  split_ifs with hmn
  · rw [hmn]
    have herase := (hk.nodup (list n) pool_list_isWait).erase_eq_filter w
    have hlen := length_erase_of_mem hw
    rw [herase] at hlen
    rw [← hlen]
    congr 1
    refine filter_congr (fun u _ => ?_)
    rw [bne, Bool.beq_eq_decide_eq, decide_not]
  · rw [Ring.filter_ne_of_not_mem]
    exact not_mem_other hk pool_list_isWait pool_list_isWait (fun hc => hmn (Head.pool.inj hc)) hw

/-- A release takes the thread it wakes off the list and off the count. -/
theorem counts_free {mp' : MemPool} (hI : WaitInv s.k s.loc) (hC : s.Counts)
    (h : rtMpFree prioMax s.k (s.pool n) n (list n) block = some (k', mp')) :
    WaitInv k' s.loc ∧ MpSys.Counts { s with k := k', pool := update s.pool n mp' } := by
  have hwaiting : ∀ w ∈ s.k.lists (list n), s.k.state w = .suspend :=
    fun w hw => ((hI.mem w (list n) pool_list_isWait).mp hw).1
  rcases rtMpFree_cases hwaiting h with
    ⟨hzero, hk', hcount⟩ | ⟨_, hcount, w, hfirst, hb⟩
  · refine ⟨hk' ▸ hI, fun m => ?_⟩
    simp only [hk']
    by_cases hmn : m = n
    · rw [hmn, update_self, hcount, ← hzero]
      exact hC n
    · rw [update_of_ne hmn]
      exact hC m
  have hI' := waitInv_setError s.k w .eok hI
  have hw : w ∈ (setError s.k w .eok).lists (list n) := mem_of_head? hfirst
  refine ⟨waitInv_wakes hI' hb, fun m => ?_⟩
  simp only
  rw [length_wakes hI' hb hw]
  split_ifs with hmn
  · rw [hmn, update_self, hcount, hC n]
    rfl
  · rw [update_of_ne hmn]
    exact hC m

/-- A thread whose time has run out was on the list of a pool, and the count of this pool
    is too high now. -/
theorem counts_timeout (hI : WaitInv s.k s.loc) (hC : s.Counts) (hb : Wakes s.k k' t .etimeout) :
    WaitInv k' s.loc ∧ ¬ MpSys.Counts { s with k := k' } ∧ ¬ MpCond s (.timeout t) := by
  have hloc := hI.waiting t hb.suspend
  rw [MpSys.loc, locOf, ne_eq, Option.map_eq_none_iff] at hloc
  rcases Option.ne_none_iff_exists'.mp hloc with ⟨c, hcall⟩
  have hmem : t ∈ s.k.lists (list c.pool) :=
    (hI.mem t (list c.pool) pool_list_isWait).mpr ⟨hb.suspend, locOf_of_call hcall⟩
  refine ⟨waitInv_wakes hI hb, fun hC' => ?_, fun hc => ?_⟩
  · have hbefore := hC c.pool
    have hafter := hC' c.pool
    simp only at hafter
    rw [length_wakes hI hb hmem, if_pos rfl] at hafter
    have hpos := length_pos_of_mem hmem
    omega
  · rw [MpCond, hcall] at hc
    exact hc hmem

/-- The count is right after a step exactly if the step is no timeout of a thread that
    waits for a block. -/
theorem mpStep_count {a : MpAction} (hI : WaitInv s.k s.loc) (hP : MpOk s)
    (h : mpStep prioMax s a = some s') : WaitInv s'.k s'.loc ∧ (MpOk s' ↔ MpCond s a) := by
  have hC := (mpOk_iff s hI).mp hP
  cases a with simp only [mpStep, bind_iff, pure_iff, assert_iff] at h
  | spawn t isStatic priority =>
    rcases h with ⟨k', hk', h⟩
    have hb := spawns_of_spawn hk'
    have hI' := waitInv_spawns hI hb
    rw [← h]
    refine ⟨hI', (mpOk_iff _ hI').trans ⟨fun _ => trivial, fun _ n => ?_⟩⟩
    simp only
    rw [spawns_lists hI hb _ pool_list_isWait]
    exact hC n
  | alloc t n time =>
    rcases h with ⟨⟨hready, _⟩, r, hr, h⟩
    rcases counts_alloc s hI hC hready hr with ⟨hI', hC'⟩
    rw [← h]
    exact ⟨hI', (mpOk_iff _ hI').trans ⟨fun _ => trivial, fun _ => hC'⟩⟩
  | allocReturn t =>
    rcases h with ⟨hready, c, _, r, hr, h⟩
    rw [← h]
    unfold rtMpAllocReturn at hr
    by_cases herr : (s.k.thread t).error ≠ .eok
    · -- The call is over, and nothing but that is entered.
      rw [if_pos herr, Option.some.injEq] at hr
      have hI' : WaitInv (s.finishAlloc t c.pool r).k (s.finishAlloc t c.pool r).loc := by
        rw [← hr]
        simp only [finishAlloc, MpSys.loc, locOf_leave]
        exact waitInv_leave hI (by
          rw [hready]
          rintro ⟨⟩)
      refine ⟨hI', (mpOk_iff _ hI').trans ⟨fun _ => trivial, fun _ m => ?_⟩⟩
      rw [← hr]
      simp only [finishAlloc, update_eq_self]
      exact hC m
    · rw [if_neg herr] at hr
      rcases counts_alloc s hI hC hready hr with ⟨hI', hC'⟩
      exact ⟨hI', (mpOk_iff _ hI').trans ⟨fun _ => trivial, fun _ => hC'⟩⟩
  | free n block =>
    rcases h with ⟨⟨k', mp'⟩, hr, h⟩
    rcases counts_free s hI hC hr with ⟨hI', hC'⟩
    rw [← h]
    exact ⟨hI', (mpOk_iff _ hI').trans ⟨fun _ => trivial, fun _ => hC'⟩⟩
  | timeout t =>
    rcases h with ⟨k', hk', h⟩
    rcases counts_timeout s hI hC (wakes_of_expire hk') with
      ⟨hI', hnot, hcond⟩
    rw [← h]
    exact ⟨hI', (mpOk_iff _ hI').trans ⟨fun hc => absurd hc hnot, fun hc => absurd hc hcond⟩⟩
  | tick =>
    cases h
    exact ⟨hI, ⟨fun _ => trivial, fun _ => hP⟩⟩

end Steps

/-- The count of every pool is the number of threads on its list in all states of a run
    exactly if no thread runs out of time on such a list. -/
theorem mempool_counts (prioMax : Nat) (size blockSize : Nat → BitVec 32) (pool : Nat → MemPool)
    (tick : BitVec 32) (as : List MpAction)
    (hpool : ∀ n, rtMpInit (size n) (blockSize n) = some (pool n)) :
    Always (mpStep prioMax) MpOk (mpSysInit prioMax pool tick) as ↔
      Along (mpStep prioMax) MpCond (mpSysInit prioMax pool tick) as := by
  have hI : WaitInv (mpSysInit prioMax pool tick).k (mpSysInit prioMax pool tick).loc :=
    waitInv_init
  refine always_iff_along (fun s => WaitInv s.k s.loc) (mpStep_count _) hI ?_
  rw [mpOk_iff _ hI]
  intro n
  have hn := hpool n
  simp only [rtMpInit, bind_iff, assert_iff, pure_iff] at hn
  simp only [mpSysInit, ← hn.2]
  rfl

/-- A thread waits for a block, and gets the one that is released. -/
theorem mempool_counts_handover :
    ∃ pool, rtMpInit 24#32 8#32 = some pool ∧
      Always (mpStep 32) MpOk (mpSysInit 32 (fun _ => pool) 0#32)
        [.spawn 1 true 10, .spawn 2 true 20, .alloc 1 0 0#32, .alloc 1 0 0#32, .alloc 2 0 5#32,
          .tick, .free 0 1, .allocReturn 2] ∧
      (exec (mpStep 32) (mpSysInit 32 (fun _ => pool) 0#32)
        [.spawn 1 true 10, .spawn 2 true 20, .alloc 1 0 0#32, .alloc 1 0 0#32, .alloc 2 0 5#32,
          .tick, .free 0 1, .allocReturn 2]).map (fun s =>
        ((s.pool 0).suspendThreadCount, (s.pool 0).word 1)) = some (0, .pool 0) :=
  exists_checked (fun pool hpool hC => (mempool_counts 32 (fun _ => 24#32) (fun _ => 8#32)
    (fun _ => pool) 0#32 _ (fun _ => hpool)).mpr hC) (by decide +kernel)

/-- A thread waits for a block until its time runs out. The count says that it still waits, nobody
    is on the list, and the release of a block takes the head of the list for a thread. -/
theorem mempool_count_stale :
    ∃ pool s, rtMpInit 24#32 8#32 = some pool ∧
      exec (mpStep 32) (mpSysInit 32 (fun _ => pool) 0#32)
        [.spawn 1 true 10, .spawn 2 true 20, .alloc 1 0 0#32, .alloc 1 0 0#32, .alloc 2 0 5#32,
          .timeout 2] = some s ∧
      (s.pool 0).suspendThreadCount = 1 ∧ s.k.lists (list 0) = [] ∧
      (s.pool 0).word 1 = .pool 0 ∧ (mpStep 32 s (.free 0 1)).isNone = true :=
  exists_of_runs _ (by decide +kernel) fun _ _ _ _ h => h

end Honeycomb
