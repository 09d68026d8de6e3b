import Honeycomb.Core.Event
import Honeycomb.Lib.Run
import Honeycomb.Theory.Wait

/-!
# Waiting for Events Agrees With Polling

Nobody waits for a condition that holds, and a thread that a send wakes gets
what it would have got by polling when its turn came.

The scan of a send and the polling account are taken through the same list of
waiting threads in step. The invariant of that induction, `ScanInv`, is the one
of the system with the threads still to be scanned left out: only for those may
the condition hold. A thread that clears events takes bits out of the set, and
no condition becomes true by that, which is why a thread that was passed over
stays passed over.

## Theorems

* `event_polls`: Both statements hold in every reachable state.
-/

namespace Honeycomb

open EventSys Function Kernel List Option Run

/-- No waiting thread's condition is satisfied by the event set; the set is the one polling would
    have left; the threads woken by a send are those for which polling would have received; and a
    receive that succeeds gets what polling would have got. -/
structure EventOk (s : EventSys) : Prop where
  unsatisfied : ∀ n w, w ∈ s.k.lists (list n) → eventSatisfied (s.event n).set
    (s.k.thread w).eventSet (s.k.thread w).eventInfo = false
  left : ∀ n, (s.event n).set = s.reference n
  woken : ∀ t c, s.call t = some c →
    (c.polled ≠ none ↔ s.k.state t = .ready ∧ (s.k.thread t).error = .eok)
  received : ∀ r ∈ s.returns, r.status = .eok → r.recved = r.polled

variable {option : BitVec 8} {e set timeout : BitVec 32} {k k' : Kernel Queues} {t : Tid}
  {c : EventCall} {n : Nat} {ev' : Event}

section Conditions

/-- A condition that holds of part of a set holds of the set. -/
theorem satisfied_mono {e m set : BitVec 32} (h : eventSatisfied (e &&& m) set option = true) :
    eventSatisfied e set option = true := by
  unfold eventSatisfied at h ⊢
  have hswap : e &&& m &&& set = e &&& set &&& m := by
    rw [BitVec.and_assoc, BitVec.and_comm m set, ← BitVec.and_assoc]
  by_cases hand : option &&& eventFlagAnd ≠ 0#8
  · rw [if_pos hand, decide_eq_true_eq] at h ⊢
    -- All of the events are in the smaller set, so they are in the larger.
    calc e &&& set = e &&& (e &&& m &&& set) := by rw [h]
      _ = e &&& m &&& set := by
          rw [BitVec.and_assoc, ← BitVec.and_assoc e e, BitVec.and_self]
      _ = set := h
  rw [if_neg hand] at h ⊢
  by_cases hor : option &&& eventFlagOr ≠ 0#8
  · rw [if_pos hor, decide_eq_true_eq] at h ⊢
    intro hz
    apply h
    rw [hswap, hz, BitVec.zero_and]
  · rw [if_neg hor] at h
    exact nomatch h

/-- Clearing what came is clearing what was asked for. -/
theorem clear_received (e set : BitVec 32) : e &&& ~~~(set &&& e) = e &&& ~~~set := by
  refine BitVec.eq_of_getLsbD_eq (fun i hi => ?_)
  simp only [BitVec.getLsbD_and, BitVec.getLsbD_not, hi, decide_true, Bool.true_and]
  cases e.getLsbD i <;> cases set.getLsbD i <;> rfl

def ValidOption (option : BitVec 8) : Prop :=
  option &&& eventFlagAnd ≠ 0#8 ∨ option &&& eventFlagOr ≠ 0#8

def eventCleared (e set : BitVec 32) (option : BitVec 8) : BitVec 32 :=
  if option &&& eventFlagClear ≠ 0#8 then e &&& ~~~set else e

theorem pollTurn_eq {prioMax : Nat} {k : Kernel Queues} {flag : IpcFlag} {t : Tid} {c : EventCall}
    (hset : c.set ≠ 0#32) (hopt : ValidOption c.option) :
    pollTurn prioMax k e flag t c =
      if eventSatisfied e c.set c.option = true then
        (some (e &&& c.set), eventCleared e c.set c.option)
      else (none, e) := by
  unfold pollTurn rtEventRecv
  have hassert : rtAssert (c.option &&& eventFlagAnd ≠ 0#8 ∨ c.option &&& eventFlagOr ≠ 0#8)
      = some () := (rtAssert_eq_some _ ()).mpr hopt
  rw [if_neg hset]
  simp only [some_bind, hassert]
  by_cases hsat : eventSatisfied e c.set c.option = true
  · rw [if_pos hsat, if_pos hsat]
    unfold eventCleared
    by_cases hclear : c.option &&& eventFlagClear ≠ 0#8
    · simp only [if_pos hclear, Option.pure_def]
    · simp only [if_neg hclear, Option.pure_def]
  · rw [if_neg hsat, if_neg hsat]
    simp only [if_true, Option.pure_def]

end Conditions

/-- Where each thread waits: in the list of the event object it receives from. -/
def EventSys.loc (s : EventSys) : Tid → Option Head :=
  locOf (fun c => list c.event) s.call

/-- A receive that waits has its arguments in its control block. One that has
    been woken without an error has in its control block what polling received,
    and polling received nothing for the others. -/
structure EventPending (k : Kernel Queues) (t : Tid) (c : EventCall) : Prop where
  valid : c.set ≠ 0#32 ∧ ValidOption c.option
  waiting : k.state t = .suspend →
    (k.thread t).eventSet = c.set ∧ (k.thread t).eventInfo = c.option ∧ (k.thread t).error = .eok
  woken : k.state t = .ready → (k.thread t).error = .eok → c.polled = some (k.thread t).eventSet
  polled : c.polled ≠ none → k.state t = .ready ∧ (k.thread t).error = .eok

/-- The invariant, with the threads of `todo` still to be scanned by a send to event object `n`. -/
structure ScanInv (n : Nat) (todo : List Tid) (s : EventSys) : Prop where
  wait : WaitInv s.k s.loc
  pending : ∀ t c, s.call t = some c → EventPending s.k t c
  unsat : ∀ m w, w ∈ s.k.lists (list m) → (m = n → w ∉ todo) →
    eventSatisfied (s.event m).set (s.k.thread w).eventSet (s.k.thread w).eventInfo = false
  reference : ∀ m, (s.event m).set = s.reference m
  returns : ∀ r ∈ s.returns, r.status = .eok → r.recved = r.polled
  todo : todo.Nodup ∧ ∀ w ∈ todo, w ∈ s.k.lists (list n)

section Steps

variable (prioMax : Nat) (s s' : EventSys)

theorem event_list_isWait {n : Nat} : (list n).IsWait := trivial

theorem event_pending_frame (h : k'.thread t = k.thread t) (hp : EventPending k t c) :
    EventPending k' t c := by
  refine ⟨hp.valid, fun hsus => ?_, fun hr he => ?_, fun hpolled => ?_⟩
  · rw [h]
    exact hp.waiting (by rw [← state_of_thread h]; exact hsus)
  · rw [h] at he ⊢
    exact hp.woken (by rw [← state_of_thread h]; exact hr) he
  · rw [h, state_of_thread h]
    exact hp.polled hpolled

theorem event_call_of_mem (hw : WaitInv s.k s.loc) {n : Nat} {w : Tid}
    (hm : w ∈ s.k.lists (list n)) : s.k.state w = .suspend ∧ ∃ c, s.call w = some c ∧
      c.event = n := by
  rcases (hw.mem w (list n) event_list_isWait).mp hm with ⟨hsus, hloc⟩
  rcases call_of_loc hloc with ⟨c, hcall, hcn⟩
  cases hcn
  exact ⟨hsus, c, hcall, rfl⟩

/-- Taking bits out of the set makes no condition true. -/
theorem unsat_cleared {mask : BitVec 32} {option' : BitVec 8}
    (h : eventSatisfied e set option = false) :
    eventSatisfied (eventCleared e mask option') set option = false := by
  unfold eventCleared
  split_ifs with hclear
  · by_contra hc
    rw [Bool.not_eq_false] at hc
    rw [satisfied_mono hc] at h
    exact nomatch h
  · exact h

/-- One thread of the scan is woken: its condition holds, it is told what came,
    and polling would have told it the same. -/
theorem scan_wake {w : Tid} {todo : List Tid} (hcall : s.call w = some c)
    (hb : Wakes (s.k.setThread w { s.k.thread w with eventSet := (s.event n).set &&& c.set }) k' w
      (s.k.thread w).error)
    (hs : ScanInv n (w :: todo) s) :
    ScanInv n todo { s with
      k := k'
      event := update s.event n
        { s.event n with set := eventCleared (s.event n).set c.set c.option }
      call := update s.call w (some { c with polled := some ((s.event n).set &&& c.set) })
      reference := update s.reference n
        (eventCleared (s.reference n) c.set c.option) } := by
  have hw0 := waitInv_setThread hs.wait w
    { s.k.thread w with eventSet := (s.event n).set &&& c.set } rfl rfl
  have hother : ∀ u, u ≠ w → k'.thread u = s.k.thread u := by
    intro u hu
    rw [hb.of_ne u hu, setThread_thread, update_of_ne hu]
  have hlists : ∀ h, h.IsWait → k'.lists h = (s.k.lists h).filter (· ≠ w) := hb.lists
  rcases hs.todo with ⟨hnd, hsub⟩
  rcases nodup_cons.mp hnd with ⟨hwt, hnd'⟩
  refine ⟨?_, forall_update_some (fun d hd => ?_) (fun u huw d hd => ?_),
    fun m u hu htodo => ?_, fun m => ?_, hs.returns, ⟨hnd', fun u hu => ?_⟩⟩
  · have hloc : locOf (fun c => list c.event) (update s.call w
        (some { c with polled := some ((s.event n).set &&& c.set) })) = s.loc :=
      locOf_change _ s.call w c _ hcall rfl
    exact Eq.mpr (congrArg (WaitInv k') hloc) (waitInv_wakes hw0 hb)
  · cases hd
    have hsus := (event_call_of_mem s hs.wait (hsub w mem_cons_self)).1
    refine ⟨(hs.pending w c hcall).valid, fun hsus => ?_, fun _ _ => ?_, fun _ => ?_⟩
    · exact nomatch (hb.state.symm.trans hsus)
    · rcases hb.thread with ⟨timer, hth⟩
      simp only [hth, update_self, setThread_thread, Thread.setState]
    · exact ⟨hb.state, hb.error.trans ((hs.pending w c hcall).waiting hsus).2.2⟩
  · exact event_pending_frame (hother u huw) (hs.pending u d hd)
  · simp only [hlists _ event_list_isWait, mem_filter, decide_eq_true_eq] at hu
    simp only [hother u hu.2]
    by_cases hmn : m = n
    · rw [hmn, update_self]
      refine unsat_cleared (hs.unsat n u (hmn ▸ hu.1) (fun _ hc => ?_))
      rcases mem_cons.mp hc with rfl | hc
      · exact hu.2 rfl
      · exact htodo hmn hc
    · rw [update_of_ne hmn]
      exact hs.unsat m u hu.1 (fun hc => absurd hc hmn)
  · by_cases hmn : m = n
    · simp only [hmn, update_self]
      rw [hs.reference n]
    · simp only [update_of_ne hmn]
      exact hs.reference m
  · simp only [hlists _ event_list_isWait, mem_filter, decide_eq_true_eq]
    refine ⟨hsub u (mem_cons_of_mem w hu), ?_⟩
    rintro rfl
    exact hwt hu

/-- One thread of the scan is passed over: its condition does not hold. -/
theorem scan_pass {w : Tid} {todo : List Tid}
    (hunsat : eventSatisfied (s.event n).set (s.k.thread w).eventSet (s.k.thread w).eventInfo
      = false)
    (hs : ScanInv n (w :: todo) s) : ScanInv n todo s := by
  rcases hs.todo with ⟨hnd, hsub⟩
  refine ⟨hs.wait, hs.pending, fun m u hu htodo => ?_, hs.reference, hs.returns,
    (nodup_cons.mp hnd).2, fun u hu => hsub u (mem_cons_of_mem w hu)⟩
  by_cases huw : m = n ∧ u = w
  · rw [huw.1, huw.2]
    exact hunsat
  refine hs.unsat m u hu (fun hmn hc => ?_)
  rcases mem_cons.mp hc with rfl | hc
  · exact huw ⟨hmn, rfl⟩
  · exact htodo hmn hc

/-- One turn of the scan: the thread is woken if its condition holds. It is told which of its events
    came, which for a thread that waits for all of them are all of them. -/
theorem eventScan_cons {k : Kernel Queues} {ev : Event} {t : Tid} {ts : List Tid} {b : Bool}
    (hopt : ValidOption (k.thread t).eventInfo) :
    eventScan prioMax (t :: ts) k ev b =
      if eventSatisfied ev.set (k.thread t).eventSet (k.thread t).eventInfo = true then
        (rtThreadResume prioMax
          (k.setThread t { k.thread t with eventSet := ev.set &&& (k.thread t).eventSet }) t).bind
          fun r => eventScan prioMax ts r.1
            { ev with set :=
              eventCleared ev.set (k.thread t).eventSet (k.thread t).eventInfo } true
      else eventScan prioMax ts k ev b := by
  generalize hth : k.thread t = th at hopt ⊢
  rw [eventScan]
  unfold eventSatisfied eventResume eventCleared
  simp only [hth, setThread_self, BitVec.and_comm th.eventSet ev.set]
  by_cases hand : th.eventInfo &&& eventFlagAnd ≠ 0#8
  · rw [if_pos hand, if_pos hand]
    by_cases hsat : ev.set &&& th.eventSet = th.eventSet
    · have hsame : k.setThread t { th with eventSet := ev.set &&& th.eventSet } = k := by
        rw [hsat, ← hth]
        unfold setThread
        rw [update_eq_self]
      rw [if_pos hsat, if_pos (decide_eq_true hsat), hsame]
      by_cases hclear : th.eventInfo &&& eventFlagClear ≠ 0#8
      · simp only [if_pos hclear, Option.bind_eq_bind, Option.bind_some, Option.pure_def,
          Option.bind_assoc]
      · simp only [if_neg hclear, Option.bind_eq_bind, Option.bind_some, Option.pure_def,
          Option.bind_assoc]
    · rw [if_neg hsat, if_neg (by rw [decide_eq_true_eq]; exact hsat)]
  · rw [if_neg hand, if_neg hand]
    have hor := hopt.resolve_left hand
    rw [if_pos hor, if_pos hor]
    by_cases hsat : ev.set &&& th.eventSet ≠ 0#32
    · rw [if_pos hsat, if_pos (decide_eq_true hsat)]
      -- Only the events that came are cleared, which are the ones there are.
      by_cases hclear : th.eventInfo &&& eventFlagClear ≠ 0#8
      · simp only [if_pos hclear, Option.bind_eq_bind, Option.bind_some, Option.pure_def,
          Option.bind_assoc, BitVec.and_comm ev.set th.eventSet, clear_received]
      · simp only [if_neg hclear, Option.bind_eq_bind, Option.bind_some, Option.pure_def,
          Option.bind_assoc]
    · rw [if_neg hsat, if_neg (by rw [decide_eq_true_eq]; exact hsat)]

/-- The scan and the polling account stay together. The induction is on the
    threads still to be scanned. -/
theorem scan_inv {ts : List Tid} (k0 k' : Kernel Queues) (flag : IpcFlag) {b b' : Bool}
    (hs : ScanInv n ts s) (h : eventScan prioMax ts s.k (s.event n) b = some (k', ev', b')) :
    ScanInv n [] { s with
      k := k'
      event := update s.event n ev'
      reference := update s.reference n (pollTurns prioMax k0 flag ts (s.reference n) s.call).1
      call := (pollTurns prioMax k0 flag ts (s.reference n) s.call).2 } := by
  induction ts generalizing s b with
  | nil =>
    rcases h with ⟨rfl, rfl, _⟩
    simp only [pollTurns, update_eq_self]
    exact hs
  | cons w ws ih =>
    rcases event_call_of_mem s hs.wait (hs.todo.2 w mem_cons_self) with
      ⟨hsus, c, hcall, _⟩
    have hp := hs.pending w c hcall
    rcases hp.waiting hsus with ⟨hset, hinfo, _⟩
    rw [eventScan_cons prioMax (by rw [hinfo]; exact hp.valid.2), hset, hinfo] at h
    simp only [pollTurns, hcall, pollTurn_eq hp.valid.1 hp.valid.2, ← hs.reference n]
    split_ifs at h with hsat
    · rw [bind_eq_some_iff] at h
      rcases h with ⟨⟨k1, e⟩, hr, hrest⟩
      have hb := wakes_of_resume (by
        rw [state, setThread_self]
        exact hsus) hr
      simp only [if_pos hsat, isSome_some, if_true]
      have hnext := scan_wake s hcall (by
        simpa only [setThread_self] using hb) hs
      have hgoal := ih _ hnext (by simpa only [update_self] using hrest)
      simpa only [update_self, update_idem, hs.reference n] using hgoal
    · simp only [if_neg hsat, isSome_none, Bool.false_eq_true, if_false]
      have hgoal := ih s (scan_pass s (by
        rw [hset, hinfo]
        exact Bool.not_eq_true _ ▸ hsat) hs) h
      simpa only [hs.reference n] using hgoal

end Steps

/-- The invariant between the steps, where nobody is left to be scanned. -/
def EventInv (s : EventSys) : Prop :=
  ScanInv 0 [] s

section Preservation

variable {prioMax : Nat} {s s' : EventSys} {n : Nat}

theorem eventInv_of_scan (hs : ScanInv n [] s) : EventInv s :=
  ⟨hs.wait, hs.pending, fun m w hw _ => hs.unsat m w hw (fun _ => not_mem_nil), hs.reference,
    hs.returns, nodup_nil, nofun⟩

/-- A thread that is woken with an error has received nothing. -/
theorem pending_woken_error {s : EventSys} (hp : EventPending s.k t c)
    (hsus : s.k.state t = .suspend) (hready : k'.state t = .ready)
    (he : (k'.thread t).error ≠ .eok) : EventPending k' t c := by
  refine ⟨hp.valid, fun h => ?_, fun _ h => absurd h he, fun hpolled => ?_⟩
  · rw [hready] at h
    exact nomatch h
  · have h := (hp.polled hpolled).1
    rw [hsus] at h
    exact nomatch h

theorem unsat_zero (hset : set ≠ 0#32) : eventSatisfied 0#32 set option = false := by
  unfold eventSatisfied
  by_cases hand : option &&& eventFlagAnd ≠ 0#8
  · rw [if_pos hand, BitVec.zero_and]
    exact decide_eq_false (fun h => hset h.symm)
  rw [if_neg hand]
  by_cases hor : option &&& eventFlagOr ≠ 0#8
  · rw [if_pos hor, BitVec.zero_and]
    exact decide_eq_false (fun h => h rfl)
  · rw [if_neg hor]

theorem rtEventRecv_cases {ev : Event} {list : Head} {out : Outcome} {recved : Option (BitVec 32)}
    (hs : k.state t = .ready)
    (h : rtEventRecv prioMax k ev list t set option timeout = some (k', ev', out, recved)) :
    (k' = k ∧ ev' = ev ∧ out = .done .error) ∨
    (ev' = { ev with set := eventCleared ev.set set option } ∧ k' = setError k t .eok ∧
      ∃ e, out = .done e) ∨
    (ev' = ev ∧ k' = setError k t .etimeout ∧ ∃ e, out = .done e) ∨
    (ev' = ev ∧ out = .blocked ∧ set ≠ 0#32 ∧ ValidOption option ∧
      eventSatisfied ev.set set option = false ∧
      Blocks (k.setThread t
        { k.thread t with error := .eok, eventSet := set, eventInfo := option }) k' t list
        ev.flag) := by
  unfold rtEventRecv at h
  by_cases hset : set = 0#32
  · rw [if_pos hset] at h
    cases h
    exact .inl ⟨rfl, rfl, rfl⟩
  rw [if_neg hset] at h
  simp only [bind_iff, assert_iff] at h
  rcases h with ⟨hopt, h⟩
  by_cases hsat : eventSatisfied ev.set set option = true
  · rw [if_pos hsat] at h
    refine .inr (.inl ?_)
    unfold eventCleared
    by_cases hclear : option &&& eventFlagClear ≠ 0#8
    · simp only [if_pos hclear, Option.pure_def, Option.some.injEq, Prod.mk.injEq] at h ⊢
      rcases h with ⟨rfl, rfl, rfl, _⟩
      exact ⟨rfl, rfl, _, rfl⟩
    · simp only [if_neg hclear, Option.pure_def, Option.some.injEq, Prod.mk.injEq] at h ⊢
      rcases h with ⟨rfl, rfl, rfl, _⟩
      exact ⟨rfl, rfl, _, rfl⟩
  split_ifs at h with htime
  · cases h
    exact .inr (.inr (.inl ⟨rfl, setError_idem k t .eok .etimeout, _, rfl⟩))
  simp only [bind_iff, pure_iff, Prod.mk.injEq] at h
  rcases h with ⟨k1, h1, k2, h2, k3, h3, rfl, rfl, rfl, _⟩
  refine .inr (.inr (.inr ⟨rfl, rfl, hset, hopt, Bool.not_eq_true _ ▸ hsat, ?_⟩))
  have hk : (k.setThread t { k.thread t with error := .eok }).setThread t
      { (k.setThread t { k.thread t with error := .eok }).thread t with
        eventSet := set, eventInfo := option }
      = k.setThread t { k.thread t with error := .eok, eventSet := set, eventInfo := option } := by
    simp only [setThread, update_self, update_idem]
  rw [hk] at h1
  refine blocks_of_wait ?_ h1 h2 h3
  rw [state, setThread_self]
  exact hs

/-- A receive that is over is entered: what it got is what the poll got. -/
theorem eventInv_returns (s : EventSys) {r : EventReturn} (hs : EventInv s)
    (hr : r.status = .eok → r.recved = r.polled) :
    EventInv { s with returns := r :: s.returns } := by
  refine { hs with returns := fun q hq => ?_ }
  rcases mem_cons.mp hq with rfl | hq
  · exact hr
  · exact hs.returns q hq

variable (hs : EventInv s)
include hs

theorem eventInv_calm (hq : Calm (· ≠ .eok) s.k k' s.loc) : EventInv { s with k := k' } := by
  refine ⟨hq.wait, fun u c hc => ?_, fun m w hm _ => ?_, hs.reference, hs.returns, hs.todo.1, nofun⟩
  · rcases hq.thread u (by rw [EventSys.loc, locOf_of_call hc]; nofun) with
      hsame | ⟨hsus, hready, he⟩
    · exact event_pending_frame hsame (hs.pending u c hc)
    · exact pending_woken_error (hs.pending u c hc) hsus hready he
  · rcases hq.of_mem event_list_isWait hm with ⟨hold, hsame⟩
    simp only [hsame]
    exact hs.unsat m w hold (fun _ => not_mem_nil)

theorem eventInv_schedule (prioMax : Nat) (k' : Kernel Queues) (b : Bool)
    (h : scheduleIf prioMax s.k b = some k') : EventInv { s with k := k' } := by
  unfold scheduleIf at h
  split_ifs at h
  · exact eventInv_calm hs (calm_schedule hs.wait h)
  · cases h
    exact hs

theorem eventInv_clear {ev : Event}
    (hclear : ∀ set option, eventSatisfied (s.event n).set set option = false →
      eventSatisfied ev.set set option = false) :
    EventInv { s with
      event := update s.event n ev
      reference := update s.reference n ev.set } := by
  refine { hs with unsat := fun m w hm _ => ?_, reference := fun m => ?_ }
  · have hold := hs.unsat m w hm (fun _ => not_mem_nil)
    by_cases hmn : m = n
    · rw [hmn] at hold
      simp only [hmn, update_self]
      exact hclear _ _ hold
    · simp only [update_of_ne hmn]
      exact hold
  · by_cases hmn : m = n
    · simp only [hmn, update_self]
    · simp only [update_of_ne hmn]
      exact hs.reference m

theorem eventInv_setError {e : RtErr} (hcall : s.call t = none) :
    EventInv { s with k := setError s.k t e } :=
  eventInv_calm hs (calm_setError hs.wait (by rw [EventSys.loc, locOf, hcall, map_none]))

theorem eventInv_blocks (hset : set ≠ 0#32) (hopt : ValidOption option)
    (hunsat : eventSatisfied (s.event n).set set option = false)
    (hb : Blocks (s.k.setThread t
      { s.k.thread t with error := .eok, eventSet := set, eventInfo := option }) k' t (list n)
      (s.event n).flag) :
    EventInv { s with
      k := k'
      call := update s.call t (some ⟨n, set, option, none⟩) } := by
  have hw0 := waitInv_setThread hs.wait t
    { s.k.thread t with error := .eok, eventSet := set, eventInfo := option } rfl rfl
  rcases hb.thread with ⟨timer, hth⟩
  have hself : (k'.thread t).eventSet = set ∧ (k'.thread t).eventInfo = option ∧
      (k'.thread t).error = .eok := by
    simp only [hth, update_self, setThread_thread, Thread.setState, and_self]
  have hother : ∀ u, u ≠ t → k'.thread u = s.k.thread u := by
    intro u hu
    rw [hb.of_ne u hu, setThread_thread, update_of_ne hu]
  refine ⟨?_, forall_update_some (fun c hc => ?_) (fun u hut c hc => ?_), fun m w hm _ => ?_,
    hs.reference, hs.returns, hs.todo.1, fun _ h => by cases h⟩
  · have hloc : locOf (fun c => list c.event)
        (update s.call t (some ⟨n, set, option, none⟩))
        = update s.loc t (some (list n)) := locOf_enter _ s.call t
    exact Eq.mpr (congrArg (WaitInv k') hloc) (waitInv_blocks hw0 event_list_isWait hb)
  · cases hc
    refine ⟨⟨hset, hopt⟩, fun _ => hself, fun hr => ?_, fun h => absurd rfl h⟩
    cases hb.state.symm.trans hr
  · exact event_pending_frame (hother u hut) (hs.pending u c hc)
  by_cases hwt : w = t
  · -- Only the list of this event object has gained the thread.
    have hmn : m = n := by
      have hready : s.k.state t ≠ .suspend := by
        have hr := hb.ready
        rw [state, setThread_self] at hr
        rw [show s.k.state t = .ready from hr]
        rintro ⟨⟩
      by_contra hne
      have hne' : list m ≠ list n := by
        simpa only [list, ne_eq, Head.suspend.injEq, Obj.event.injEq] using hne
      simp only [blocks_off hw0 hb event_list_isWait hne', hwt] at hm
      exact not_mem_wait hs.wait t hready _ event_list_isWait hm
    simp only [hwt, hself.1, hself.2.1, hmn]
    exact hunsat
  · have hold : w ∈ s.k.lists (list m) := by
      by_cases hmn : list m = list n
      · simp only [hmn, blocks_on hw0 hb event_list_isWait, mem_place] at hm
        rw [hmn]
        exact hm.resolve_left hwt
      · simp only [blocks_off hw0 hb event_list_isWait hmn] at hm
        exact hm
    simp only [hother w hwt]
    exact hs.unsat m w hold (fun _ => not_mem_nil)

theorem eventInv_recv {r : Kernel Queues × Event × Outcome × Option (BitVec 32)}
    (hready : s.k.state t = .ready) (hcall : s.call t = none)
    (h : rtEventRecv prioMax s.k (s.event n) (list n) t set option timeout = some r) :
    EventInv (s.finishRecv t n set option r) := by
  rcases r with ⟨k', ev', out, recved⟩
  rcases rtEventRecv_cases hready h with ⟨rfl, rfl, rfl⟩ | ⟨rfl, rfl, e, rfl⟩ | ⟨rfl, rfl, e, rfl⟩ |
    ⟨rfl, rfl, hset, hopt, hunsat, hb⟩
  · exact eventInv_returns _ (eventInv_clear hs (fun _ _ h => h)) (fun _ => rfl)
  · exact eventInv_returns _ (eventInv_clear (eventInv_setError hs hcall)
      (fun _ _ h => unsat_cleared h)) (fun _ => rfl)
  · exact eventInv_returns _ (eventInv_clear (eventInv_setError hs hcall) (fun _ _ h => h))
      (fun _ => rfl)
  · have hinv := eventInv_blocks hs hset hopt hunsat hb
    unfold finishRecv
    simp only [update_eq_self]
    exact hinv

theorem eventInv_recvReturn (hready : s.k.state t = .ready) (hcall : s.call t = some c) :
    EventInv { s with
      call := update s.call t none
      returns := ⟨t, (rtEventRecvReturn s.k t).1, (rtEventRecvReturn s.k t).2, c.polled⟩
        :: s.returns } := by
  refine eventInv_returns { s with call := update s.call t none }
    { hs with wait := ?_, pending := forall_update_some nofun (fun u _ => hs.pending u) }
    (fun he => ?_)
  · have hloc : locOf (fun c => list c.event) (update s.call t none)
        = update s.loc t none := locOf_leave _ s.call t
    exact Eq.mpr (congrArg (WaitInv s.k) hloc) (waitInv_leave hs.wait (by rw [hready]; nofun))
  -- The status is the error field, so it was a send that woke the thread.
  unfold rtEventRecvReturn at he ⊢
  by_cases herr : (s.k.thread t).error ≠ .eok
  · rw [if_pos herr] at he
    exact absurd he herr
  · rw [if_neg herr]
    exact ((hs.pending t c hcall).woken hready (not_not.mp herr)).symm

theorem eventInv_send {e : RtErr}
    (h : rtEventSend prioMax s.k (s.event n) (list n) set = some (k', ev', e)) :
    EventInv (if e = .eok then
      { s with
        k := k'
        event := update s.event n ev'
        reference := update s.reference n (pollTurns prioMax s.k (s.event n).flag
          (s.k.lists (list n)) (s.reference n ||| set) s.call).1
        call := (pollTurns prioMax s.k (s.event n).flag
          (s.k.lists (list n)) (s.reference n ||| set) s.call).2 }
      else { s with k := k', event := update s.event n ev' }) := by
  unfold rtEventSend at h
  split_ifs at h with hset
  · cases h
    rw [if_neg (by nofun), update_eq_self]
    exact hs
  simp only [bind_iff, pure_iff, Prod.mk.injEq] at h
  rcases h with ⟨⟨k1, ev1, b⟩, hscan, k2, hsched, rfl, rfl, rfl⟩
  -- All threads of this event object are still to be scanned.
  have hbegin : ScanInv n (s.k.lists (list n)) { s with
      event := update s.event n { s.event n with set := (s.event n).set ||| set }
      reference := update s.reference n (s.reference n ||| set) } := by
    refine ⟨hs.wait, hs.pending, fun m w hm htodo => ?_, fun m => ?_, hs.returns,
      hs.wait.nodup _ event_list_isWait, fun _ hm => hm⟩
    · have hmn : m ≠ n := by
        rintro rfl
        exact htodo rfl hm
      simp only [update_of_ne hmn]
      exact hs.unsat m w hm (fun _ => not_mem_nil)
    · by_cases hmn : m = n
      · simp only [hmn, update_self]
        rw [hs.reference n]
      · simp only [update_of_ne hmn]
        exact hs.reference m
  have hend := scan_inv prioMax _ s.k k1 (s.event n).flag hbegin
    (by simpa only [update_self] using hscan)
  simp only [update_self, update_idem] at hend
  exact eventInv_schedule (eventInv_of_scan hend) prioMax k2 b hsched

theorem eventInv_reset (h : rtEventReset prioMax s.k (s.event n) (list n) = some (k', ev')) :
    EventInv { s with
      k := k'
      event := update s.event n ev'
      reference := update s.reference n 0#32 } := by
  simp only [rtEventReset, bind_iff, pure_iff, Prod.mk.injEq] at h
  rcases h with ⟨k1, hall, k2, hsched, rfl, rfl⟩
  rcases resumesAll_of_loop prioMax _ s.k k1 s.loc (list n) event_list_isWait hs.wait rfl hall
    with ⟨hb, hw⟩
  have h1 := eventInv_calm hs (calm_resumesAll hs.wait hw hb event_list_isWait nofun)
  have h2 := eventInv_schedule h1 prioMax k2 true hsched
  refine { h2 with unsat := fun m w hm _ => ?_, reference := fun m => ?_ }
  · by_cases hmn : m = n
    · rcases event_call_of_mem _ h2.wait hm with ⟨hsus, c, hcall, _⟩
      have hp := h2.pending w c hcall
      simp only [hmn, update_self]
      refine unsat_zero ?_
      rw [(hp.waiting hsus).1]
      exact hp.valid.1
    · simp only [update_of_ne hmn]
      exact h2.unsat m w hm (fun _ => not_mem_nil)
  · by_cases hmn : m = n
    · simp only [hmn, update_self]
    · simp only [update_of_ne hmn]
      exact h2.reference m

omit hs

theorem eventStep_inv {a : EventAction} (hs : EventInv s) (h : eventStep prioMax s a = some s') :
    EventInv s' := by
  cases a with simp only [eventStep, bind_iff, pure_iff, assert_iff] at h
  | spawn t isStatic priority =>
    rcases h with ⟨k', hk', rfl⟩
    exact eventInv_calm hs (calm_spawns hs.wait (spawns_of_spawn hk'))
  | send n set =>
    rcases h with ⟨⟨k', ev', e⟩, hsend, h⟩
    have hinv := eventInv_send hs hsend
    by_cases he : e = .eok
    · rw [if_pos he] at h hinv
      cases h
      exact hinv
    · rw [if_neg he] at h hinv
      cases h
      exact hinv
  | recv t n set option timeout =>
    rcases h with ⟨⟨hready, hcall⟩, r, hr, rfl⟩
    exact eventInv_recv hs hready hcall hr
  | recvReturn t =>
    rcases h with ⟨hready, c, hcall, rfl⟩
    exact eventInv_recvReturn hs hready hcall
  | reset n =>
    rcases h with ⟨⟨k', ev'⟩, hr, rfl⟩
    exact eventInv_reset hs hr
  | timeout t =>
    rcases h with ⟨k', hk', rfl⟩
    exact eventInv_calm hs (calm_wakes hs.wait (wakes_of_expire hk') (by rintro ⟨⟩))

theorem eventInv_init {prioMax : Nat} {flag : Nat → IpcFlag} :
    EventInv (eventSysInit prioMax flag) := by
  refine ⟨waitInv_init, fun t c hc => ?_, fun m w hm _ => ?_, fun _ => rfl, fun r hr => ?_,
    nodup_nil, nofun⟩
  · exact nomatch hc
  · exact absurd hm not_mem_nil
  · exact absurd hr not_mem_nil

theorem eventOk_of_inv (hs : EventInv s) : EventOk s := by
  refine ⟨fun n w hm => hs.unsat n w hm (fun _ => not_mem_nil), hs.reference,
    fun t c hc => ⟨(hs.pending t c hc).polled, fun h => ?_⟩, hs.returns⟩
  rw [(hs.pending t c hc).woken h.1 h.2]
  exact some_ne_none _

end Preservation

/-- In every reachable state no waiting thread's condition holds, and waiting
    agrees with polling. -/
theorem event_polls (prioMax : Nat) (flag : Nat → IpcFlag) (s : EventSys)
    (h : Reachable (eventStep prioMax) (eventSysInit prioMax flag) s) : EventOk s :=
  eventOk_of_inv (reachable_inv EventInv eventStep_inv eventInv_init h)

/-- Three threads wait, and an idle thread runs. One send wakes the first, which
    clears what the second waits for, and the third. -/
theorem event_polls_cleared : ∃ s,
    exec (eventStep 32) (eventSysInit 32 (fun _ => .fifo))
        [.spawn 0 true 31, .spawn 1 true 10, .spawn 2 true 10, .spawn 3 true 10,
          .recv 1 0 0x3#32 0x6#8 5#32, .recv 2 0 0x1#32 0x1#8 5#32, .recv 3 0 0x4#32 0x2#8 5#32,
          .send 0 0x5#32, .recvReturn 1, .recvReturn 3] = some s ∧
      s.returns.map (fun r => (r.thread, r.status, r.recved))
        = [(3, .eok, some 0x4#32), (1, .eok, some 0x1#32)] ∧
      EventOk s :=
  exists_viewed (fun s hs => event_polls 32 (fun _ => .fifo) s ⟨_, hs⟩) (by decide +kernel)

end Honeycomb
