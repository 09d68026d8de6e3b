import Honeycomb.Core.SerialTx
import Honeycomb.Theory.DataQueue

/-!
# Sending by DMA: Each Buffer Once, as Long as a Starter Is at the Head

The buffers whose transfer is started are the buffers that were pushed, in order and once, and no
transfer is started while another is going on. This holds in every run in which a thread that finds
no transfer going on has its own buffer at the head of the queue, and in which the data queue is
used where it is a queue.

Without this a thread starts the wrong transfer. If a second thread pushes before the first has
tested, the second may be the one that starts, and it starts with its own buffer, while the
interrupt pops the buffer of the first. And if the interrupt has already sent and popped the buffer
of a thread that has not tested yet, the thread sends it once more.

The proof follows the right to start a transfer. It is with nobody while `activated` is false, with
the thread that has set it, and then with the transfer that is going on, from which the interrupt
hands it on. `Transfer` says where it is and what that means for the buffers sent.

## Theorems

* `serial_dma_sends`: The buffers are sent in order and once.
* `serial_dma_resends`: What happens without the condition.
-/

namespace Honeycomb

open Function List Option Run

variable (s : TxDma)

/-- The data queue is used where it is a queue, and a thread that finds no transfer going on has
    its own buffer at the head. -/
def TxCond : TxAction → Prop
  | .write _ _ => PushCond s.dq.q
  | .run _ => PushCond s.dq.q
  | .test t =>
    match s.phase t with
    | .pushed item => s.activated = true ∨ rtDataQueuePeak s.dq.q = some item
    | _ => True
  | _ => True

instance decidableTxCond (a : TxAction) : Decidable (TxCond s a) :=
  match a with
  | .write _ _ => inferInstanceAs (Decidable (PushCond s.dq.q))
  | .run _ => inferInstanceAs (Decidable (PushCond s.dq.q))
  | .test t =>
    match h : s.phase t with
    | .pushed item =>
      decidable_of_iff (s.activated = true ∨ rtDataQueuePeak s.dq.q = some item)
        (by simp only [TxCond, h])
    | .idle => isTrue (by simp only [TxCond, h])
    | .pushing _ => isTrue (by simp only [TxCond, h])
    | .starting _ => isTrue (by simp only [TxCond, h])
  | .start _ => isTrue trivial
  | .dmaDone => isTrue trivial

/-- A thread has pushed its buffer and has not yet found out whether to start a transfer, or has
    not started it. -/
def Between (t : Nat) : Prop :=
  ∃ item, s.phase t = .pushed item ∨ s.phase t = .starting item

/-- The buffers sent are those pushed first, in order. Not more than one transfer is going on. When
    none is, and no thread is between its push and its start, every buffer has been sent. -/
structure TxOk : Prop where
  order : s.sent <+: s.dq.pushed
  single : s.inProgress ≤ 1
  complete : s.inProgress = 0 → (∀ t, ¬ Between s t) → s.sent = s.dq.pushed

/-- No thread is about to start a transfer. -/
def NoStart : Prop :=
  ∀ t item, s.phase t ≠ .starting item

/-- Where the right to start a transfer is. With nobody: what was sent has been popped, and if
    there are buffers, some thread will test. With a thread: its buffer is at the head. With the
    transfer: the buffer at the head is the last one sent. -/
inductive Transfer : Prop where
  | free (hact : s.activated = false) (hprog : s.inProgress = 0) (hno : NoStart s)
      (hsent : s.sent = s.dq.popped)
      (htest : dqQueued s.dq.q = [] ∨ ∃ t item, s.phase t = .pushed item)
  | held (t : Nat) (item : DataItem) (hact : s.activated = true) (hprog : s.inProgress = 0)
      (hstart : s.phase t = .starting item)
      (honly : ∀ u item', s.phase u = .starting item' → u = t)
      (hsent : s.sent = s.dq.popped) (hhead : (dqQueued s.dq.q).head? = some item)
  | going (item : DataItem) (hact : s.activated = true) (hprog : s.inProgress = 1)
      (hno : NoStart s) (hsent : s.sent = s.dq.popped ++ [item])
      (hhead : (dqQueued s.dq.q).head? = some item)

/-- A thread is in a call of the data queue exactly if it is in its push, and no wait of it has
    run out. -/
def Calling (phase : TxPhase) (call : DqCall) : Prop :=
  match phase with
  | .pushing item =>
    ∃ error, call = .push item waitingForever error ∧ error ≠ some .etimeout
  | _ => ∃ result event, call = .done result event

structure TxInv : Prop where
  dq : DqInv s.dq
  isr : s.phase isrContext = .idle
  calls : ∀ t, Calling (s.phase t) (s.dq.call t)
  transfer : Transfer s

variable {call : DqCall} {item : DataItem} {t : Nat}

theorem calling_resume {phase : TxPhase} (h : Calling phase call) :
    Calling phase (call.resume .eok) := by
  unfold Calling at *
  split
  · next item =>
    rcases h with ⟨error, rfl, -⟩
    refine ⟨some .eok, ?_, by simp only [ne_eq, some.injEq, reduceCtorEq, not_false_eq_true]⟩
    rfl
  next hphase =>
  split at h
  · next item => exact absurd rfl (hphase item)
  · rcases h with ⟨result, event, rfl⟩
    exact ⟨result, event, rfl⟩

section Queue

variable (d d' : DqSys) (t : Nat) {item : DataItem}

theorem queued_push (hcond : PushCond d.q) (hinv : DqInv d)
    (hd' : d' = rtDataQueuePush d t item waitingForever) :
    DqInv d' ∧ d'.popped = d.popped ∧
      ((dqQueued d'.q = dqQueued d.q ++ [item] ∧ Returns d' t .eok) ∨
        (dqQueued d'.q = dqQueued d.q ∧ ¬ Returns d' t .eok)) := by
  have hpopped := popped_push t item waitingForever d
  rw [← hd'] at hpopped
  by_cases hlen : dqLength d.q = d.q.size
  · have hfull := (dqFull_iff hinv.shape hcond).mpr hlen
    rcases turned_away d' t waitingForever (c := .push item waitingForever none)
      hinv (fun _ _ => nofun) ((if_pos hfull).symm.trans hd'.symm) with ⟨hinv', hsame, -, hnot, -⟩
    refine ⟨hinv', hpopped, .inr ⟨?_, hnot⟩⟩
    -- The history of the queue is the same, and so is what is in it.
    rw [hinv'.history, hinv.history, hpopped] at hsame
    exact append_cancel_left hsame
  · have hbound := hinv.shape.bound
    rcases push_room t item waitingForever hinv (by omega) hcond with ⟨hinv', hput, hret, -⟩
    rw [← hd'] at hinv' hput hret
    refine ⟨hinv', hpopped, .inl ⟨?_, hret⟩⟩
    rw [hinv'.history, hinv.history, hpopped, append_assoc] at hput
    exact append_cancel_left hput

/-- The call of another thread is as it was, or it was resumed. -/
def Resumed (t : Nat) : Prop :=
  ∀ u, u ≠ t → d'.call u = d.call u ∨ d'.call u = (d.call u).resume .eok

theorem resumed_update {v : Nat}
    (hcall : d'.call = update (update d.call v ((d.call v).resume .eok)) t call) :
    Resumed d d' t := by
  intro u hu
  rw [hcall, update_of_ne hu]
  by_cases huv : u = v
  · right
    rw [huv, update_self]
  · left
    rw [update_of_ne huv]

variable {d d' t} in
theorem resumed_done (hcall : d'.call = update d.call t call) : Resumed d d' t := by
  intro u hu
  left
  rw [hcall, update_of_ne hu]

theorem push_calls (hd' : d' = rtDataQueuePush d t item waitingForever) :
    ((∃ event, d'.call t = .done .eok event) ∨
      d'.call t = .push item waitingForever none) ∧ Resumed d d' t := by
  have hzero : ¬ waitingForever = 0 := by decide
  unfold rtDataQueuePush at hd'
  simp only [if_neg hzero] at hd'
  split_ifs at hd' with hfull
  · refine ⟨.inr ?_, resumed_done (by rw [hd'])⟩
    rw [hd']
    exact update_self _ _ _
  cases hlist : d.q.suspendedPopList with simp only [hlist] at hd'
  | nil =>
    refine ⟨.inl ⟨some .push, ?_⟩, resumed_done (by rw [hd'])⟩
    rw [hd']
    exact update_self _ _ _
  | cons v vs =>
    refine ⟨.inl ⟨none, ?_⟩, resumed_update d d' t (by rw [hd'])⟩
    rw [hd']
    exact update_self _ _ _

theorem pop_calls (hd' : d' = rtDataQueuePop d t 0) :
    (∃ result event, d'.call t = .done result event) ∧ Resumed d d' t := by
  -- Whatever the result is, it is the last thing written.
  have hlast : ∀ (call : Nat → DqCall) result event,
      d'.call = update call t (.done result event) →
        ∃ result event, d'.call t = .done result event := by
    intro call result event h
    rw [h]
    exact ⟨result, event, update_self _ _ _⟩
  unfold rtDataQueuePop at hd'
  simp only [if_true] at hd'
  split at hd'
  · exact ⟨hlast d.call _ _ (by rw [hd']), resumed_done (by rw [hd'])⟩
  split at hd'
  · split at hd'
    · exact ⟨hlast d.call _ _ (by rw [hd']), resumed_done (by rw [hd'])⟩
    · next v vs _ =>
      exact ⟨hlast _ _ _ (by rw [hd']), resumed_update d d' t (by rw [hd'])⟩
  · exact ⟨hlast d.call _ _ (by rw [hd']), resumed_done (by rw [hd'])⟩

theorem queued_pop (hinv : DqInv d) (hhead : (dqQueued d.q).head? = some item)
    (hd' : d' = rtDataQueuePop d isrContext 0) :
    DqInv d' ∧ d'.popped = d.popped ++ [item] := by
  have hok := dqOk_of_inv hinv
  have hpeak : rtDataQueuePeak d.q = some item := by
    rw [hok.peak, dqPending_eq hinv, hhead]
  rw [hd']
  exact ⟨(pop_spec isrContext 0 hinv).1, hok.next isrContext 0 item hpeak⟩

end Queue

section Steps

variable {s s' : TxDma}

/-- A thread goes through the loop of its push. -/
theorem transfer_push {d : DqSys} (hinv : TxInv s) (hcond : PushCond s.dq.q) (ht : t ≠ isrContext)
    (hphase : s.phase t = .idle ∨ s.phase t = .pushing item)
    (hd : d = rtDataQueuePush s.dq t item waitingForever) : TxInv (txPush s t item d) := by
  rcases queued_push s.dq d t hcond hinv.dq hd with ⟨hdq, hpopped, hcase⟩
  have hnew : ∀ item', (txPush s t item d).phase t ≠ .starting item' := by
    intro item'
    simp only [txPush, update_self]
    split <;> simp only [ne_eq, reduceCtorEq, not_false_eq_true]
  have hother : ∀ u, u ≠ t → (txPush s t item d).phase u = s.phase u :=
    fun u hu => update_of_ne hu _ _
  -- The threads about to start a transfer are the same.
  have hstart : ∀ u item', (txPush s t item d).phase u = .starting item' ↔
      s.phase u = .starting item' := by
    intro u item'
    by_cases hu : u = t
    · rw [hu]
      refine ⟨fun h => absurd h (hnew item'), fun h => ?_⟩
      rw [h] at hphase
      simp only [reduceCtorEq, or_false] at hphase
    · rw [hother u hu]
  -- A buffer behind the others does not change which one is at the head.
  have hhead : ∀ item', (dqQueued s.dq.q).head? = some item' →
      (dqQueued d.q).head? = some item' := by
    intro item' hitem
    rcases hcase with ⟨hq, -⟩ | ⟨hq, -⟩
    · rw [hq, head?_append, hitem, some_or]
    · rw [hq, hitem]
  rcases push_calls s.dq d t hd with ⟨hcall, hresumed⟩
  refine ⟨hdq, (hother isrContext (Ne.symm ht)).trans hinv.isr, fun u => ?_, ?_⟩
  · by_cases hu : u = t
    · rw [hu]
      rcases hcall with ⟨event, hcall⟩ | hcall
      · simp only [txPush, update_self, hcall]
        exact ⟨.eok, event, rfl⟩
      · simp only [txPush, update_self, hcall]
        exact ⟨none, rfl, nofun⟩
    · rw [hother u hu]
      rcases hresumed u hu with h | h
      · exact (show (txPush s t item d).dq.call u = s.dq.call u from h) ▸ hinv.calls u
      · exact (show (txPush s t item d).dq.call u = _ from h) ▸ calling_resume (hinv.calls u)
  cases hinv.transfer with
  | free hact hprog hno hsent htest =>
    refine .free hact hprog (fun u item' h => hno u item' ((hstart u item').mp h))
      (hsent.trans hpopped.symm) ?_
    rcases hcase with ⟨_, hret⟩ | ⟨hq, _⟩
    · -- the thread itself will test
      rcases hret with ⟨event, hret⟩
      refine .inr ⟨t, item, ?_⟩
      simp only [txPush, update_self, hret]
    rcases htest with htest | ⟨u, item', hu⟩
    · exact .inl (hq.trans htest)
    -- whoever was to test is another thread
    have hne : u ≠ t := by
      intro heq
      rw [← heq, hu] at hphase
      simp only [reduceCtorEq, or_false] at hphase
    exact .inr ⟨u, item', (hother u hne).trans hu⟩
  | held u item' hact hprog hu honly hsent hitem =>
    exact .held u item' hact hprog ((hstart u item').mpr hu)
      (fun v item'' h => honly v item'' ((hstart v item'').mp h)) (hsent.trans hpopped.symm)
      (hhead item' hitem)
  | going item' hact hprog hno hsent hitem =>
    refine .going item' hact hprog (fun u item'' h => hno u item'' ((hstart u item'').mp h)) ?_
      (hhead item' hitem)
    exact hsent.trans (congrArg (· ++ [item']) hpopped.symm)

theorem calls_phase (t : Nat) (phase : TxPhase) (hinv : TxInv s) (ht : s.phase t ≠ .idle)
    (hold : ∀ item, s.phase t ≠ .pushing item) (hnew : ∀ item, phase ≠ .pushing item) :
    update s.phase t phase isrContext = .idle ∧
      ∀ u, Calling (update s.phase t phase u) (s.dq.call u) := by
  have hne : isrContext ≠ t := by
    intro heq
    rw [← heq] at ht
    exact ht hinv.isr
  refine ⟨(update_of_ne hne _ _).trans hinv.isr, fun u => ?_⟩
  by_cases hu : u = t
  · rw [hu, update_self]
    have h := hinv.calls t
    unfold Calling at *
    split
    · next item => exact absurd rfl (hnew item)
    · split at h
      · next item hphase => exact absurd hphase (hold item)
      · exact h
  · rw [update_of_ne hu]
    exact hinv.calls u

theorem transfer_test {s' : TxDma} (hinv : TxInv s) (hphase : s.phase t = .pushed item)
    (hcond : s.activated = true ∨ rtDataQueuePeak s.dq.q = some item)
    (hs' : s' = if s.activated then { s with phase := update s.phase t .idle }
      else { s with activated := true
                    phase := update s.phase t (.starting item) }) : TxInv s' := by
  have hnotidle : s.phase t ≠ .idle := by
    rw [hphase]
    nofun
  have hnotpush : ∀ item', s.phase t ≠ .pushing item' := by
    intro item'
    rw [hphase]
    nofun
  -- A thread that goes back to idle was not the one about to start.
  have hback : ∀ u item', update s.phase t .idle u = .starting item' ↔
      s.phase u = .starting item' := by
    intro u item'
    by_cases hu : u = t
    · rw [hu, update_self, hphase]
      simp only [reduceCtorEq]
    · rw [update_of_ne hu]
  cases hinv.transfer with
  | free hact hprog hno hsent htest =>
    rw [hact] at hs' hcond
    simp only [Bool.false_eq_true, if_false, false_or] at hs' hcond
    rcases calls_phase t (.starting item) hinv hnotidle hnotpush
      (fun _ => nofun) with ⟨hisr, hcalls⟩
    rw [hs']
    refine ⟨hinv.dq, hisr, hcalls, .held t item rfl hprog (update_self _ _ _) ?_ hsent ?_⟩
    · intro u item' hu
      by_contra hne
      dsimp only at hu
      rw [update_of_ne hne] at hu
      exact hno u item' hu
    · rw [← dqPending_eq hinv.dq, ← (dqOk_of_inv hinv.dq).peak]
      exact hcond
  | held u item' hact hprog hu honly hsent hhead =>
    rw [if_pos hact] at hs'
    rcases calls_phase t .idle hinv hnotidle hnotpush (fun _ => nofun) with ⟨hisr, hcalls⟩
    rw [hs']
    exact ⟨hinv.dq, hisr, hcalls, .held u item' hact hprog ((hback u item').mpr hu)
      (fun v item'' hv => honly v item'' ((hback v item'').mp hv)) hsent hhead⟩
  | going item' hact hprog hno hsent hhead =>
    rw [if_pos hact] at hs'
    rcases calls_phase t .idle hinv hnotidle hnotpush (fun _ => nofun) with ⟨hisr, hcalls⟩
    rw [hs']
    exact ⟨hinv.dq, hisr, hcalls, .going item' hact hprog
      (fun v item'' hv => hno v item'' ((hback v item'').mp hv)) hsent hhead⟩

theorem transfer_start {s' : TxDma} (hinv : TxInv s) (hphase : s.phase t = .starting item)
    (hs' : s' = { s with inProgress := s.inProgress + 1, sent := s.sent ++ [item]
                         phase := update s.phase t .idle }) : TxInv s' := by
  cases hinv.transfer with
  | free hact hprog hno hsent htest => exact absurd hphase (hno t item)
  | going item' hact hprog hno hsent hhead => exact absurd hphase (hno t item)
  | held u item' hact hprog hu honly hsent hhead =>
    -- It is the one thread that may.
    have htu := honly t item hphase
    rw [← htu, hphase] at hu
    have hitem : item = item' := TxPhase.starting.inj hu
    rcases calls_phase t .idle hinv
      (by rw [hphase]; nofun)
      (fun _ => by rw [hphase]; nofun)
      (fun _ => nofun) with ⟨hisr, hcalls⟩
    rw [hs']
    refine ⟨hinv.dq, hisr, hcalls, .going item hact ?_ ?_ ?_ (hitem ▸ hhead)⟩
    · rw [hprog]
    · intro v item'' hv
      by_cases hvt : v = t
      · rw [hvt] at hv
        simp only [update_self, reduceCtorEq] at hv
      · refine hvt (honly v item'' ?_ |>.trans htu.symm)
        rw [← hv]
        exact (update_of_ne hvt _ _).symm
    · rw [hsent]

theorem transfer_done (hinv : TxInv s) (hprog' : s.inProgress ≠ 0) : TxInv (isrTxDmaDone s) := by
  cases hinv.transfer with
  | free hact hprog hno hsent htest => exact absurd hprog hprog'
  | held u item hact hprog hu honly hsent hhead => exact absurd hprog hprog'
  | going item hact hprog hno hsent hhead =>
    rcases queued_pop s.dq _ hinv.dq hhead rfl with ⟨hdq, hpopped⟩
    rcases pop_calls s.dq _ isrContext rfl with ⟨hdone, hresumed⟩
    have hcalls : ∀ u, Calling (s.phase u) ((rtDataQueuePop s.dq isrContext 0).call u) := by
      intro u
      by_cases hu : u = isrContext
      · rw [hu, hinv.isr]
        exact hdone
      rcases hresumed u hu with h | h
      · rw [h]
        exact hinv.calls u
      · rw [h]
        exact calling_resume (hinv.calls u)
    have hpeak : rtDataQueuePeak (rtDataQueuePop s.dq isrContext 0).q =
        (dqQueued (rtDataQueuePop s.dq isrContext 0).q).head? := by
      rw [(dqOk_of_inv hdq).peak, dqPending_eq hdq]
    unfold isrTxDmaDone
    dsimp only
    cases hnext : rtDataQueuePeak (rtDataQueuePop s.dq isrContext 0).q with
    | none =>
      refine ⟨hdq, hinv.isr, hcalls, .free rfl ?_ hno (hsent.trans hpopped.symm) (.inl ?_)⟩
      · rw [hprog]
      · rw [hnext] at hpeak
        exact head?_eq_none_iff.mp hpeak.symm
    | some item' =>
      refine ⟨hdq, hinv.isr, hcalls, .going item' rfl ?_ hno ?_ (hpeak ▸ hnext)⟩
      · rw [hprog]
      · rw [hsent, hpopped]

theorem txInv_step {a : TxAction} (hinv : TxInv s) (hcond : TxCond s a)
    (hstep : txStep s a = some s') : TxInv s' := by
  cases a with simp only [txStep] at hstep
  | write t item =>
    split at hstep
    · next hphase =>
      split at hstep
      · cases hstep
      next ht =>
      have hcall := hinv.calls t
      rw [hphase] at hcall
      rcases hcall with ⟨result, event, hcall⟩
      simp only [dqStep, hcall, map_some] at hstep
      cases hstep
      exact transfer_push hinv hcond ht (.inl hphase) rfl
    · cases hstep
  | run t =>
    split at hstep
    · next item hphase =>
      have hcall := hinv.calls t
      rw [hphase] at hcall
      rcases hcall with ⟨error, hcall, herror⟩
      have ht : t ≠ isrContext := by
        intro heq
        rw [heq, hinv.isr] at hphase
        cases hphase
      cases error with
      | none =>
        simp only [dqStep, hcall, map_none, reduceCtorEq] at hstep
      | some result =>
        cases result with
        | etimeout => exact absurd rfl herror
        | eok =>
          simp only [dqStep, hcall, map_some] at hstep
          cases hstep
          exact transfer_push hinv hcond ht (.inr hphase) rfl
    · cases hstep
  | test t =>
    split at hstep
    · next item hphase =>
      simp only [TxCond, hphase] at hcond
      refine transfer_test hinv hphase hcond ?_
      rw [← apply_ite some, some.injEq] at hstep
      exact hstep.symm
    · cases hstep
  | start t =>
    split at hstep
    · next item hphase =>
      exact transfer_start hinv hphase (Option.some.inj hstep).symm
    · cases hstep
  | dmaDone =>
    split at hstep
    · cases hstep
    · next hprog =>
      rw [← Option.some.inj hstep]
      exact transfer_done hinv hprog

theorem txOk_of_inv (hinv : TxInv s) : TxOk s := by
  have hhistory := hinv.dq.history
  cases hinv.transfer with
  | free hact hprog hno hsent htest =>
    refine ⟨⟨dqQueued s.dq.q, by rw [hsent, hhistory]⟩, by omega, fun _ hnone => ?_⟩
    rcases htest with hnil | ⟨t, item, ht⟩
    · rw [hsent, hhistory, hnil, append_nil]
    · exact absurd ⟨item, .inl ht⟩ (hnone t)
  | held t item hact hprog ht honly hsent hhead =>
    refine ⟨⟨dqQueued s.dq.q, by rw [hsent, hhistory]⟩, by omega, fun _ hnone => ?_⟩
    exact absurd ⟨item, .inr ht⟩ (hnone t)
  | going item hact hprog hno hsent hhead =>
    rcases head?_eq_some_iff.mp hhead with ⟨rest, hrest⟩
    refine ⟨⟨rest, ?_⟩, by omega, fun hzero => by omega⟩
    rw [hsent, hhistory, hrest, append_assoc, singleton_append]

end Steps

theorem txInv_opened {queue : Nat → DataItem} : TxInv (txOpened queue) := by
  have hdq := dqInv_init 8 4 queue (by decide) (by decide)
  refine ⟨hdq, rfl, fun t => ⟨.eok, none, rfl⟩, .free rfl rfl ?_ rfl (.inl ?_)⟩
  · intro t item h
    exact TxPhase.noConfusion h
  · exact self_eq_append_right.mp hdq.history

/-- Threads write buffers and transfers are done, in any order. If every step meets the condition,
    the buffers sent are the buffers pushed, in order and once, and no transfer is started while
    another is going on. -/
theorem serial_dma_sends (queue : Nat → DataItem) (as : List TxAction)
    (hcond : Along txStep TxCond (txOpened queue) as) :
    Always txStep TxOk (txOpened queue) as :=
  always_of_inv TxInv txOk_of_inv txInv_step txInv_opened hcond

/-- Two threads: the second pushes while the transfer of the first is going on, and tests before
    that is done. -/
theorem serial_dma_sends_two :
    Always txStep TxOk (txOpened fun _ => ⟨0, 0⟩)
      [.write 1 ⟨10, 1⟩, .test 1, .start 1, .write 2 ⟨20, 2⟩, .test 2, .dmaDone, .dmaDone] ∧
    (exec txStep (txOpened fun _ => ⟨0, 0⟩)
      [.write 1 ⟨10, 1⟩, .test 1, .start 1, .write 2 ⟨20, 2⟩, .test 2, .dmaDone, .dmaDone]).map
        (fun s => (s.sent, s.dq.pushed, s.inProgress)) =
      some ([⟨10, 1⟩, ⟨20, 2⟩], [⟨10, 1⟩, ⟨20, 2⟩], 0) := by
  refine ⟨serial_dma_sends _ _ ?_, by decide +kernel⟩
  exact of_decide_eq_true (by decide +kernel)

/-- A thread that pushes before another has tested sends its own buffer twice and the other one
    never. A single thread sends its second buffer twice, if both transfers are done before it
    tests. -/
theorem serial_dma_resends :
    (exec txStep (txOpened fun _ => ⟨0, 0⟩)
      [.write 1 ⟨10, 1⟩, .write 2 ⟨20, 2⟩, .test 2, .start 2, .test 1, .dmaDone, .dmaDone]).map
        (fun s => (s.sent, s.dq.pushed, s.inProgress, s.phase 1, s.phase 2)) =
      some ([⟨20, 2⟩, ⟨20, 2⟩], [⟨10, 1⟩, ⟨20, 2⟩], 0, .idle, .idle) ∧
    (exec txStep (txOpened fun _ => ⟨0, 0⟩)
      [.write 1 ⟨10, 1⟩, .test 1, .start 1, .write 1 ⟨20, 2⟩, .dmaDone, .dmaDone, .test 1,
        .start 1]).map (fun s => (s.sent, s.dq.pushed)) =
      some ([⟨10, 1⟩, ⟨20, 2⟩, ⟨20, 2⟩], [⟨10, 1⟩, ⟨20, 2⟩]) := by
  refine ⟨?_, ?_⟩ <;> decide +kernel

end Honeycomb
