import Honeycomb.Core.Semaphore
import Honeycomb.Lib.Run
import Honeycomb.Theory.Wait

/-!
# Semaphores Conserve Their Count

What is put into a semaphore is in its counter or has been given to somebody.
The counter has sixteen bits, so the law has two side conditions: the initial
value fits into the counter, and no release finds the counter at its maximum.
Without them it fails, and the failure is that of the initial value already.

A waiting thread can be granted its count and run out of time, but not both:
the first of the two takes it off the wait list, and its timer with it. So a
call that returns a timeout was never granted.

## Theorems

* `semaphore_conserves`: Every run within the side conditions conserves.
* `semaphore_truncates`: An initial value that does not fit is lost.
-/

namespace Honeycomb

open Function List Run SemSys ThreadLists

/-- What went into a semaphore is in its counter or has been granted, a counter that is not zero has
    nobody waiting for it, and a call that returned a timeout was not granted. -/
def SemOk (value : Nat → BitVec 32) (s : SemSys) : Prop :=
  (∀ n, (value n).toNat + s.released n = (s.sem n).value.toNat + s.granted n) ∧
  (∀ n, 0#16 < (s.sem n).value → s.k.lists (list n) = []) ∧
  (∀ r ∈ s.returns, r.status = .etimeout → r.granted = false)

/-- No release finds the counter at its maximum with nobody waiting. -/
def SemCond (s : SemSys) : SemAction → Prop
  | .release n => s.k.lists (list n) = [] → (s.sem n).value ≠ 0xffff#16
  | _ => True

instance (s : SemSys) (a : SemAction) : Decidable (SemCond s a) :=
  match a with
  | .release n =>
    inferInstanceAs (Decidable (s.k.lists (list n) = [] → (s.sem n).value ≠ 0xffff#16))
  | .spawn _ _ _ => isTrue trivial
  | .take _ _ _ => isTrue trivial
  | .trytake _ _ => isTrue trivial
  | .takeReturn _ => isTrue trivial
  | .timeout _ => isTrue trivial

/-- Where each thread waits: in the list of the semaphore it takes. -/
def SemSys.loc (s : SemSys) : Tid → Option Head :=
  locOf (fun c => list c.sem) s.call

/-- A take that waits has been granted nothing and has no error. One that was
    granted has no error either. -/
structure SemPending (k : Kernel Queues) (t : Tid) (c : SemCall) : Prop where
  waiting : k.state t = .suspend → c.granted = false ∧ (k.thread t).error = .eok
  woken : c.granted = true → (k.thread t).error = .eok

/-- The invariant of the system of semaphores. -/
structure SemInv (value : Nat → BitVec 32) (s : SemSys) : Prop where
  wait : WaitInv s.k s.loc
  conserve : ∀ n, (value n).toNat + s.released n = (s.sem n).value.toNat + s.granted n
  empty : ∀ n, 0#16 < (s.sem n).value → s.k.lists (list n) = []
  pending : ∀ t c, s.call t = some c → SemPending s.k t c
  returns : ∀ r ∈ s.returns, r.status = .etimeout → r.granted = false

variable {time : BitVec 32} {k' : Kernel Queues} {t : Tid} {c : SemCall}

section Calls

variable {prioMax : Nat} {k k' : Kernel Queues} {sem sem' : Semaphore} {list : Head} {t : Tid}

theorem rtSemTake_cases {o : Outcome} (hs : k.state t = .ready)
    (h : rtSemTake prioMax k sem list t time = some (k', sem', o)) :
    (0#16 < sem.value ∧ k' = k ∧ sem' = { sem with value := sem.value - 1#16 } ∧ o = .done .eok) ∨
    (¬ 0#16 < sem.value ∧ k' = k ∧ sem' = sem ∧ o = .done .etimeout) ∨
    (¬ 0#16 < sem.value ∧ sem' = sem ∧ o = .blocked ∧
      Blocks (k.setThread t { k.thread t with error := .eok }) k' t list sem.flag) := by
  unfold rtSemTake at h
  by_cases hv : 0#16 < sem.value
  · rw [if_pos hv] at h
    cases h
    exact .inl ⟨hv, rfl, rfl, rfl⟩
  split_ifs at h with ht
  · cases h
    exact .inr (.inl ⟨hv, rfl, rfl, rfl⟩)
  simp only [bind_iff] at h
  rcases h with ⟨k1, h1, k2, h2, k3, h3, h⟩
  cases h
  have hs' : (k.setThread t { k.thread t with error := .eok }).state t = .ready := by
    rw [state_update_self rfl]
    exact hs
  exact .inr (.inr ⟨hv, rfl, rfl, blocks_of_wait hs' h1 h2 h3⟩)

theorem rtSemRelease_cases (hw : ∀ w ∈ k.lists list, k.state w = .suspend)
    (h : rtSemRelease prioMax k sem list = some (k', sem')) :
    (k.lists list = [] ∧ k' = k ∧ sem' = { sem with value := sem.value + 1#16 }) ∨
    (sem' = sem ∧ ∃ w, first k.lists list = some w ∧ Wakes k k' w (k.thread w).error) := by
  unfold rtSemRelease at h
  split_ifs at h with he
  · simp only [bind_iff] at h
    rcases h with ⟨k1, h1, k2, h2, h⟩
    cases h
    exact .inr ⟨rfl, wakes_of_resume_first hw h1 h2⟩
  · cases h
    rw [Bool.not_eq_false] at he
    exact .inl ⟨List.isEmpty_iff.mp he, rfl, rfl⟩

end Calls

section Steps

variable {prioMax : Nat} {value : Nat → BitVec 32} {s s' : SemSys}

theorem list_isWait {n : Nat} : (list n).IsWait := trivial

theorem pending_of_thread {k : Kernel Queues} (h : k'.thread t = k.thread t)
    (hp : SemPending k t c) : SemPending k' t c := by
  refine ⟨fun hsus => ?_, fun hg => ?_⟩
  · rw [h]
    exact hp.waiting (by rw [← state_of_thread h]; exact hsus)
  · rw [h]
    exact hp.woken hg

/-- A change of the kernel in which nobody starts to wait. A thread that runs out of time was
    waiting, so it was not granted. -/
theorem semInv_calm (hs : SemInv value s) (hq : Calm (fun _ => True) s.k k' s.loc) :
    SemInv value { s with k := k' } := by
  refine ⟨hq.wait, hs.conserve, fun n hn => hq.nil list_isWait (hs.empty n hn),
    fun u c hc => ?_, hs.returns⟩
  have hp := hs.pending u c hc
  rcases hq.thread u (by rw [SemSys.loc, locOf_of_call hc]; nofun) with hsame | hwoken
  · exact pending_of_thread hsame hp
  · refine ⟨fun h => (nomatch hwoken.2.1.symm.trans h), fun hg => ?_⟩
    exact nomatch (hp.waiting hwoken.1).1.symm.trans hg

theorem semInv_take {n : Nat} {r : Kernel Queues × Semaphore × Outcome} (hs : SemInv value s)
    (hready : s.k.state t = .ready) (h : rtSemTake prioMax s.k (s.sem n) (list n) t time = some r) :
    SemInv value (s.finishTake t n r) := by
  rcases r with ⟨k', sem', o⟩
  have hself : update s.sem n (s.sem n) = s.sem := update_eq_self n s.sem
  rcases rtSemTake_cases hready h with
    ⟨hv, rfl, rfl, rfl⟩ | ⟨_, rfl, rfl, rfl⟩ | ⟨hv, rfl, rfl, hb⟩
  · -- Granted at once: one less in the counter, one more granted.
    simp only [finishTake, if_true, decide_true]
    refine ⟨hs.wait, fun m => ?_, fun m hm => ?_, hs.pending, fun r hr => ?_⟩
    · have hm := hs.conserve m
      by_cases hmn : m = n
      · rw [hmn] at hm ⊢
        simp only [update_self]
        have hsub : ((s.sem n).value - 1#16).toNat = (s.sem n).value.toNat - 1 := by bv_omega
        have hpos : 0 < (s.sem n).value.toNat := by bv_omega
        omega
      · simp only [update_of_ne hmn]
        exact hm
    · by_cases hmn : m = n
      · rw [hmn]
        exact hs.empty n hv
      · simp only [update_of_ne hmn] at hm
        exact hs.empty m hm
    · rcases mem_cons.mp hr with rfl | hr
      · exact fun hc => nomatch hc
      · exact hs.returns r hr
  · -- Given up at once: only the return is entered.
    simp only [finishTake, hself, reduceCtorEq, if_false, decide_false, add_zero, update_eq_self]
    refine { hs with returns := fun r hr => ?_ }
    rcases mem_cons.mp hr with rfl | hr
    · exact fun _ => rfl
    · exact hs.returns r hr
  · simp only [finishTake, hself]
    have hw0 := waitInv_setThread hs.wait t { s.k.thread t with error := .eok } rfl rfl
    have hw := waitInv_blocks hw0 list_isWait hb
    have hne : ∀ u, u ≠ t → k'.thread u = s.k.thread u := by
      intro u hu
      rw [hb.of_ne u hu, Kernel.setThread_thread, update_of_ne hu]
    refine ⟨?_, hs.conserve, fun m hm => ?_,
      forall_update_some (fun c hc => ?_) (fun u hu c hc => ?_), hs.returns⟩
    · rw [SemSys.loc, locOf_enter]
      exact hw
    · -- Only the list of an empty counter has grown.
      have hmn : list m ≠ list n := by
        intro hc
        cases hc
        exact hv hm
      rw [blocks_off hw0 hb list_isWait hmn]
      exact hs.empty m hm
    · cases hc
      have herr : (k'.thread t).error = .eok := by
        rw [hb.error, setThread_self]
      exact ⟨fun _ => ⟨rfl, herr⟩, fun _ => herr⟩
    · exact pending_of_thread (hne u hu) (hs.pending u c hc)

theorem semInv_takeReturn (hs : SemInv value s) (hready : s.k.state t = .ready)
    (hc : s.call t = some c) :
    SemInv value { s with
      call := update s.call t none
      returns := ⟨t, c.sem, rtSemTakeReturn s.k t, c.granted⟩ :: s.returns } := by
  refine ⟨?_, hs.conserve, hs.empty, forall_update_some nofun (fun u _ => hs.pending u),
    fun r hr => ?_⟩
  · rw [SemSys.loc, locOf_leave]
    exact waitInv_leave hs.wait (by
      rw [hready]
      nofun)
  rcases mem_cons.mp hr with rfl | hr
  · intro hst
    -- A granted call has no error, and this one has.
    by_contra hg
    have herr := (hs.pending t c hc).woken (by simpa only [Bool.not_eq_false] using hg)
    simp only [rtSemTakeReturn, herr, ne_eq, not_true_eq_false, if_false, reduceCtorEq] at hst
  · exact hs.returns r hr

theorem semInv_release {n : Nat} {sem' : Semaphore} (hs : SemInv value s)
    (hcond : SemCond s (.release n))
    (h : rtSemRelease prioMax s.k (s.sem n) (list n) = some (k', sem')) :
    SemInv value { s.grantFirst n with
      k := k'
      sem := update (s.grantFirst n).sem n sem'
      released := update (s.grantFirst n).released n
        ((s.grantFirst n).released n + 1) } := by
  have hwaiting : ∀ w ∈ s.k.lists (list n), s.k.state w = .suspend :=
    fun w hw => ((hs.wait.mem w (list n) list_isWait).mp hw).1
  rcases rtSemRelease_cases hwaiting h with
    ⟨hnil, rfl, rfl⟩ | ⟨rfl, w, hfirst, hb⟩
  · -- Nobody waits: the counter goes up, and it has room.
    have hgrant : s.grantFirst n = s := by
      unfold grantFirst
      rw [show first s.k.lists (list n) = none from by rw [first_eq_head, hnil]; rfl]
    rw [hgrant]
    have hroom := hcond hnil
    refine ⟨hs.wait, fun m => ?_, fun m hm => ?_, hs.pending, hs.returns⟩
    · have hm := hs.conserve m
      by_cases hmn : m = n
      · rw [hmn] at hm ⊢
        simp only [update_self]
        have hadd : ((s.sem n).value + 1#16).toNat = (s.sem n).value.toNat + 1 := by bv_omega
        omega
      · simp only [update_of_ne hmn]
        exact hm
    · by_cases hmn : m = n
      · rw [hmn]
        exact hnil
      · simp only [update_of_ne hmn] at hm
        exact hs.empty m hm
  -- The count goes to the first waiting thread.
  rcases waiting_of_first hs.wait list_isWait hfirst with ⟨hsus, hloc⟩
  rcases call_of_loc hloc with ⟨c, hcall, hcn⟩
  have hpend := (hs.pending w c hcall).waiting hsus
  unfold grantFirst
  simp only [hfirst, update_eq_self]
  refine ⟨?_, fun m => ?_, fun m hm => ?_,
    forall_update_some (fun d hd => ?_) (fun u hu d hd => ?_), hs.returns⟩
  · rw [SemSys.loc, locOf_change _ s.call w c ⟨n, true⟩ hcall hcn.symm]
    exact waitInv_wakes hs.wait hb
  · have hm := hs.conserve m
    by_cases hmn : m = n
    · rw [hmn] at hm ⊢
      simp only [update_self]
      omega
    · simp only [update_of_ne hmn]
      exact hm
  · rw [hb.lists _ list_isWait, hs.empty m hm, filter_nil]
  · cases hd
    refine ⟨fun hc => ?_, fun _ => ?_⟩
    · rw [hb.state] at hc
      exact nomatch hc
    · rw [hb.error]
      exact hpend.2
  · exact pending_of_thread (hb.of_ne u hu) (hs.pending u d hd)

theorem semStep_inv {a : SemAction} (hs : SemInv value s) (hcond : SemCond s a)
    (h : semStep prioMax s a = some s') : SemInv value s' := by
  cases a with simp only [semStep, bind_iff, pure_iff, assert_iff] at h
  | spawn t isStatic priority =>
    rcases h with ⟨k', hk', rfl⟩
    exact semInv_calm hs (calm_spawns hs.wait (spawns_of_spawn hk'))
  | take t n time =>
    rcases h with ⟨⟨hready, _⟩, r, hr, rfl⟩
    exact semInv_take hs hready hr
  | trytake t n =>
    rcases h with ⟨⟨hready, _⟩, r, hr, rfl⟩
    exact semInv_take hs hready hr
  | takeReturn t =>
    rcases h with ⟨hready, c, hc, rfl⟩
    exact semInv_takeReturn hs hready hc
  | release n =>
    rcases h with ⟨⟨k', sem'⟩, hr, rfl⟩
    exact semInv_release hs hcond hr
  | timeout t =>
    rcases h with ⟨k', hk', rfl⟩
    exact semInv_calm hs (calm_wakes hs.wait (wakes_of_expire hk') trivial)

theorem semInv_init {prioMax : Nat} {value : Nat → BitVec 32} {flag : Nat → IpcFlag}
    (hv : ∀ n, (value n).toNat < 2 ^ 16) :
    SemInv value (semSysInit prioMax value flag) := by
  refine ⟨waitInv_init, fun n => ?_, fun n _ => rfl, fun t c hc => ?_, fun r hr => ?_⟩
  · simp only [semSysInit, rtSemInit, BitVec.toNat_setWidth, add_zero]
    rw [Nat.mod_eq_of_lt (hv n)]
  · exact nomatch hc
  · exact absurd hr not_mem_nil

end Steps

/-- Every run in which no release overflows a counter conserves the count of
    every semaphore whose initial value fits into its counter. -/
theorem semaphore_conserves (prioMax : Nat) (value : Nat → BitVec 32) (flag : Nat → IpcFlag)
    (hv : ∀ n, (value n).toNat < 2 ^ 16) (as : List SemAction)
    (hC : Along (semStep prioMax) SemCond (semSysInit prioMax value flag) as) :
    Always (semStep prioMax) (SemOk value) (semSysInit prioMax value flag) as :=
  always_of_inv (SemInv value) (fun hs => ⟨hs.conserve, hs.empty, hs.returns⟩) semStep_inv
    (semInv_init hv) hC

/-- A second thread waits for the one count and is handed it by the release. -/
theorem semaphore_conserves_handover :
    Along (semStep 32) SemCond (semSysInit 32 (fun _ => 1#32) (fun _ => .fifo))
        [.spawn 1 true 10, .spawn 2 true 20, .take 1 0 0#32, .take 2 0 5#32, .release 0,
          .takeReturn 2, .release 0] ∧
      Always (semStep 32) (SemOk (fun _ => 1#32))
        (semSysInit 32 (fun _ => 1#32) (fun _ => .fifo))
        [.spawn 1 true 10, .spawn 2 true 20, .take 1 0 0#32, .take 2 0 5#32, .release 0,
          .takeReturn 2, .release 0] := by
  have hC : Along (semStep 32) SemCond (semSysInit 32 (fun _ => 1#32) (fun _ => .fifo))
      [.spawn 1 true 10, .spawn 2 true 20, .take 1 0 0#32, .take 2 0 5#32, .release 0,
        .takeReturn 2, .release 0] := by
    decide
  exact ⟨hC, semaphore_conserves 32 (fun _ => 1#32) (fun _ => .fifo) (fun _ => by decide) _ hC⟩

/-- An initial value that does not fit into the counter is gone before anybody takes or releases. -/
theorem semaphore_truncates :
    Reachable (semStep 32) (semSysInit 32 (fun _ => 0x10000#32) (fun _ => .fifo))
        (semSysInit 32 (fun _ => 0x10000#32) (fun _ => .fifo)) ∧
      ¬ SemOk (fun _ => 0x10000#32) (semSysInit 32 (fun _ => 0x10000#32) (fun _ => .fifo)) := by
  refine ⟨⟨[], rfl⟩, fun h => ?_⟩
  have hcount := h.1 0
  exact absurd hcount (by decide)

end Honeycomb
