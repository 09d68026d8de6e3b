import Honeycomb.Core.IpcSys
import Honeycomb.Theory.Event
import Honeycomb.Theory.Mailbox
import Honeycomb.Theory.Semaphore
import Honeycomb.Theory.WaitOrder

/-!
# Wait Lists of All Kernel Objects

The wait lists of objects that order them by priority are in order in every run
in which the priority of a waiting thread changes only within the bounds its
neighbours set.

Each of the five systems is looked at once, for what its steps do to the wait
lists: they take threads off, they link one thread in, or, in the case of a
mutex, they lend a priority first. What follows for the order is proved for
these effects and not for the calls.

## Theorems

* `waitLists_ordered`: The lists are in order in every run within bounds.
* `control_disorders`: They are not in every run.
-/

namespace Honeycomb

open Function List Option Run ThreadLists

/-- What a step does to the wait lists: it takes threads off; or a thread that was ready is linked
    in; or the priority of a thread is changed before that; or a priority is changed and nothing
    else. `Sets` says which priorities the step may change, and to what. -/
inductive WaitEffect (prioMax : Nat) (flag : Head → IpcFlag) (Sets : Tid → Nat → Prop)
    (k k' : Kernel Queues) : Prop
  | shrinks (hs : Shrinks k k')
  | blocks (k₁ : Kernel Queues) (t : Tid) (list : Head) (hs : Shrinks k k₁)
      (hr : k.state t = .ready) (hw : list.IsWait) (hb : Blocks k₁ k' t list (flag list))
  | lends (k₁ k₂ : Kernel Queues) (t o : Tid) (priority : Nat) (list : Head)
      (hl : k₁.lists = k.lists)
      (hp : ∀ u, (k₁.thread u).currentPriority = (k.thread u).currentPriority)
      (hst : ∀ u, k₁.state u = k.state u) (hr : k.state t = .ready) (hw : list.IsWait)
      (hsets : Sets o priority) (hset : Reprioritizes prioMax k₁ k₂ o priority)
      (hb : Blocks k₂ k' t list (flag list))
  | sets (t : Tid) (priority : Nat) (hsets : Sets t priority)
      (hset : Reprioritizes prioMax k k' t priority)

/-- A thread that waits for the mutex lends its priority to the owner. -/
def Mutex.Lends (k : Kernel Queues) (m : Mutex) (t : Tid) (time : BitVec 32) (o : Tid)
    (priority : Nat) : Prop :=
  m.value = 0#16 ∧ time ≠ 0#32 ∧ m.owner = some o ∧ priority = (k.thread t).currentPriority ∧
    priority < (k.thread o).currentPriority

/-- The priorities a step of the mutexes gives to threads that do not take the step. -/
def MutexSys.Sets (s : MutexSys) : MutexAction → Tid → Nat → Prop
  | .take t n time, o, priority => (s.mutex n).Lends s.k t time o priority
  | .takeReturn t, o, priority =>
    (s.k.thread t).error = .eintr ∧
      ∃ c, s.call t = some c ∧ (s.mutex c.mutex).Lends s.k t c.time o priority
  | _, _, _ => False

variable {k k' : Kernel Queues} {t : Tid} {list : Head} {ev ev' : Event} {mq : MessageQueue}
  {a : IpcAction}

theorem waitEffect_mono {prioMax : Nat} {flag : Head → IpcFlag} {Sets Sets' : Tid → Nat → Prop}
    (hsub : ∀ o p, Sets o p → Sets' o p) (h : WaitEffect prioMax flag Sets k k') :
    WaitEffect prioMax flag Sets' k k' := by
  cases h with
  | shrinks hs => exact .shrinks hs
  | blocks k1 t list hs hr hw hb => exact .blocks k1 t list hs hr hw hb
  | lends k1 k2 t o p list hl hp hst hr hw hsets hset hb =>
    exact .lends k1 k2 t o p list hl hp hst hr hw (hsub o p hsets) hset hb
  | sets t p hsets hset => exact .sets t p (hsub t p hsets) hset

section Objects

variable {O : Type} {flagOf : O → IpcFlag} {obj : Nat → O} {n : Nat} {o : O} {prioMax : Nat}
  {flag : Head → IpcFlag} {Sets : Tid → Nat → Prop}

/-- One object of a family is changed and keeps its flag. -/
theorem WaitEffect.object (he : WaitEffect prioMax flag Sets k k')
    (hf : flagOf o = flagOf (obj n)) : WaitEffect prioMax flag Sets k k' ∧
      ∀ m, flagOf (update obj n o m) = flagOf (obj m) :=
  ⟨he, field_update flagOf rfl hf⟩

theorem Shrinks.object (hs : Shrinks k k') (hf : flagOf o = flagOf (obj n)) :
    WaitEffect prioMax flag Sets k k' ∧ ∀ m, flagOf (update obj n o m) = flagOf (obj m) :=
  (WaitEffect.shrinks hs).object hf

theorem Shrinks.same (hs : Shrinks k k') :
    WaitEffect prioMax flag Sets k k' ∧ ∀ m, flagOf (obj m) = flagOf (obj m) :=
  ⟨.shrinks hs, fun _ => rfl⟩

end Objects

section Semaphores

variable {prioMax : Nat} (flag : Head → IpcFlag) (Sets : Tid → Nat → Prop) (s : SemSys)
  {s' : SemSys}

theorem semTake_effect {n : Nat} {time : BitVec 32} {r : Kernel Queues × Semaphore × Outcome}
    (hready : s.k.state t = .ready) (hflag : flag (SemSys.list n) = (s.sem n).flag)
    (h : rtSemTake prioMax s.k (s.sem n) (SemSys.list n) t time = some r) :
    WaitEffect prioMax flag Sets s.k r.1 ∧ r.2.1.flag = (s.sem n).flag := by
  rcases r with ⟨k', sem', o⟩
  rcases rtSemTake_cases hready h with
    ⟨_, rfl, rfl, _⟩ | ⟨_, rfl, rfl, _⟩ | ⟨_, rfl, _, hb⟩
  · exact ⟨.shrinks shrinks_refl, rfl⟩
  · exact ⟨.shrinks shrinks_refl, rfl⟩
  · rw [← hflag] at hb
    exact ⟨.blocks _ t (SemSys.list n) shrinks_setError hready trivial hb, rfl⟩

theorem semRelease_effect {sem sem' : Semaphore}
    (h : rtSemRelease prioMax k sem list = some (k', sem')) :
    Shrinks k k' ∧ sem'.flag = sem.flag := by
  unfold rtSemRelease at h
  split_ifs at h
  · simp only [bind_iff] at h
    rcases h with ⟨k1, h1, k2, h2, h⟩
    cases h
    exact ⟨shrinks_trans (shrinks_listResume h1) (shrinks_schedule h2), rfl⟩
  · cases h
    exact ⟨shrinks_refl, rfl⟩

theorem semFinish_frame {t : Tid} {n : Nat} {r : Kernel Queues × Semaphore × Outcome} :
    (s.finishTake t n r).k = r.1 ∧ (s.finishTake t n r).sem = update s.sem n r.2.1 := by
  unfold SemSys.finishTake
  split
  · exact ⟨rfl, rfl⟩
  · exact ⟨rfl, rfl⟩

theorem semGrant_frame (n : Nat) : (s.grantFirst n).sem = s.sem := by
  unfold SemSys.grantFirst
  split
  · rfl
  · rfl

theorem semStep_effect {a : SemAction} (hflag : ∀ n, flag (SemSys.list n) = (s.sem n).flag)
    (h : semStep prioMax s a = some s') :
    WaitEffect prioMax flag Sets s.k s'.k ∧ ∀ n, (s'.sem n).flag = (s.sem n).flag := by
  have htake : ∀ t n time r, s.k.state t = .ready →
      rtSemTake prioMax s.k (s.sem n) (SemSys.list n) t time = some r →
      WaitEffect prioMax flag Sets s.k (s.finishTake t n r).k ∧
        ∀ m, ((s.finishTake t n r).sem m).flag = (s.sem m).flag := by
    intro t n time r hready hr
    rcases semTake_effect flag Sets s hready (hflag n) hr with ⟨heff, hf⟩
    rcases semFinish_frame s with ⟨hk, hsem⟩
    rw [hk, hsem]
    exact heff.object hf
  cases a with simp only [semStep, bind_iff, pure_iff, assert_iff] at h
  | spawn t isStatic priority =>
    rcases h with ⟨k', hk', rfl⟩
    exact (shrinks_spawns (spawns_of_spawn hk')).same
  | take t n time =>
    rcases h with ⟨⟨hready, _⟩, r, hr, rfl⟩
    exact htake t n time r hready hr
  | trytake t n =>
    rcases h with ⟨⟨hready, _⟩, r, hr, rfl⟩
    exact htake t n 0#32 r hready hr
  | takeReturn t =>
    rcases h with ⟨_, c, _, rfl⟩
    exact shrinks_refl.same
  | release n =>
    rcases h with ⟨⟨k', sem'⟩, hr, rfl⟩
    rcases semRelease_effect hr with ⟨hs, hf⟩
    simp only [semGrant_frame]
    exact hs.object hf
  | timeout t =>
    rcases h with ⟨k', hk', rfl⟩
    exact (shrinks_wakes (wakes_of_expire hk')).same

end Semaphores

section Mutexes

variable {prioMax : Nat} (flag : Head → IpcFlag) (s : MutexSys) {s' : MutexSys}

/-- The take from the label on. The kernel `k0` is the one before the error field
    of the thread was reset. -/
theorem mutexAgain_effect (k0 k : Kernel Queues) (m : Mutex) (list : Head) (t : Tid)
    (time : BitVec 32) (r : Kernel Queues × Mutex × Outcome)
    (hsame : k = k0 ∨ k = setError k0 t .eok) (hready : k0.state t = .ready) (hw : list.IsWait)
    (hflag : flag list = m.flag) (h : rtMutexTakeAgain prioMax k m list t time = some r) :
    WaitEffect prioMax flag (m.Lends k0 t time) k0 r.1 ∧ r.2.1.flag = m.flag := by
  have hframe : Shrinks k0 k ∧ k.lists = k0.lists ∧
      (∀ u, (k.thread u).currentPriority = (k0.thread u).currentPriority) ∧
      ∀ u, k.state u = k0.state u := by
    rcases hsame with rfl | rfl
    · exact ⟨shrinks_refl, rfl, fun _ => rfl, fun _ => rfl⟩
    · exact ⟨shrinks_setError, rfl, fun u => setError_prio.1, setError_state k0 t .eok⟩
  rcases hframe with ⟨hshrink, hl, hp, hst⟩
  unfold rtMutexTakeAgain at h
  split_ifs at h with hvalue htime
  · cases h
    exact ⟨.shrinks hshrink, rfl⟩
  · cases h
    exact ⟨.shrinks (shrinks_trans hshrink shrinks_setError), rfl⟩
  simp only [bind_iff] at h
  rcases h with ⟨o, ho, k1, h1, k2, h2, k3, h3, k4, h4, h⟩
  cases h
  unfold lendPriority at h1
  split_ifs at h1 with hlt
  · rw [hp t, hp o] at hlt
    have hlends : m.Lends k0 t time o (k0.thread t).currentPriority :=
      ⟨by bv_omega, htime, ho, rfl, hlt⟩
    have hset := reprioritizes_of_control h1
    rw [hp t] at hset
    have hready1 : k1.state t = .ready := by
      rw [reprioritizes_state hset t, hst t]
      exact hready
    have hb := blocks_of_wait hready1 h2 h3 h4
    rw [← hflag] at hb
    exact ⟨.lends k k1 t o _ list hl hp hst hready hw hlends hset hb, rfl⟩
  · cases h1
    have hb := blocks_of_wait ((hst t).trans hready) h2 h3 h4
    rw [← hflag] at hb
    exact ⟨.blocks k t list hshrink hready hw hb, rfl⟩

theorem mutexRelease_effect {m : Mutex} {r : Kernel Queues × Mutex × RtErr}
    (hready : k.state t = .ready) (h : rtMutexRelease prioMax k m list t = some r) :
    Shrinks k r.1 ∧ r.2.1.flag = m.flag := by
  unfold rtMutexRelease at h
  dsimp only at h
  split_ifs at h
  · cases h
    exact ⟨shrinks_setError, rfl⟩
  · simp only [bind_iff] at h
    rcases h with ⟨k1, h1, h⟩
    have hs1 : Shrinks k k1 := by
      unfold restorePriority at h1
      split_ifs at h1
      · exact shrinks_reprioritizes hready (reprioritizes_of_control h1)
      · cases h1
        exact shrinks_refl
    split_ifs at h
    · simp only [bind_iff] at h
      rcases h with ⟨w, _, k2, h2, k3, h3, h⟩
      cases h
      exact ⟨shrinks_trans hs1 (shrinks_trans (shrinks_listResume h2) (shrinks_schedule h3)), rfl⟩
    · cases h
      exact ⟨hs1, rfl⟩
  · cases h
    exact ⟨shrinks_refl, rfl⟩

theorem mutexFinish_frame {t : Tid} {n : Nat} {time : BitVec 32}
    {r : Kernel Queues × Mutex × Outcome} :
    (s.finishTake t n time r).k = r.1 ∧
      (s.finishTake t n time r).mutex = update s.mutex n r.2.1 := by
  unfold MutexSys.finishTake
  split
  · exact ⟨rfl, rfl⟩
  · exact ⟨rfl, rfl⟩

theorem mutexFinishReturn_frame {t : Tid} {c : MutexCall} {r : Kernel Queues × Mutex × Outcome} :
    (s.finishReturn t c r).k = r.1 ∧
      (s.finishReturn t c r).mutex = update s.mutex c.mutex r.2.1 := by
  unfold MutexSys.finishReturn
  split
  · exact ⟨rfl, rfl⟩
  · exact ⟨rfl, rfl⟩

theorem mutexFinishRelease_frame {t : Tid} {n : Nat} {r : Kernel Queues × Mutex × RtErr} :
    (s.finishRelease t n r).k = r.1 ∧ (s.finishRelease t n r).mutex = update s.mutex n r.2.1 := by
  unfold MutexSys.finishRelease
  dsimp only
  split_ifs
  · exact ⟨rfl, rfl⟩
  · split
    · exact ⟨rfl, rfl⟩
    · exact ⟨rfl, rfl⟩
  · exact ⟨rfl, rfl⟩

theorem mutexStep_effect {a : MutexAction} (hflag : ∀ n, flag (MutexSys.list n) = (s.mutex n).flag)
    (h : mutexStep prioMax s a = some s') :
    WaitEffect prioMax flag (s.Sets a) s.k s'.k ∧ ∀ n, (s'.mutex n).flag = (s.mutex n).flag := by
  cases a with simp only [mutexStep, bind_iff, pure_iff, assert_iff] at h
  | spawn t isStatic priority =>
    rcases h with ⟨k', hk', rfl⟩
    exact (shrinks_spawns (spawns_of_spawn hk')).same
  | take t n time =>
    rcases h with ⟨⟨hready, _⟩, r, hr, rfl⟩
    rcases mutexFinish_frame s with ⟨hk, hm⟩
    rw [hk, hm]
    unfold rtMutexTake at hr
    split_ifs at hr
    · cases hr
      exact shrinks_setError.object rfl
    · rcases mutexAgain_effect flag s.k _ (s.mutex n) (MutexSys.list n) t time r
        (.inr rfl) hready trivial (hflag n) hr with ⟨heff, hf⟩
      exact heff.object hf
  | takeReturn t =>
    rcases h with ⟨hready, c, hc, r, hr, rfl⟩
    rcases mutexFinishReturn_frame s with ⟨hk, hm⟩
    rw [hk, hm]
    unfold rtMutexTakeReturn at hr
    split_ifs at hr with _ hintr
    · rcases mutexAgain_effect flag s.k _ (s.mutex c.mutex) (MutexSys.list c.mutex) t c.time
        r (.inl rfl) hready trivial (hflag c.mutex) hr with ⟨heff, hf⟩
      exact (waitEffect_mono (fun o p hl => ⟨hintr, c, hc, hl⟩) heff).object hf
    · cases hr
      exact shrinks_refl.object rfl
    · cases hr
      exact shrinks_refl.object rfl
  | release t n =>
    rcases h with ⟨⟨hready, _⟩, r, hr, rfl⟩
    rcases mutexFinishRelease_frame s with ⟨hk, hm⟩
    rw [hk, hm]
    rcases mutexRelease_effect hready hr with ⟨hs, hf⟩
    exact hs.object hf
  | timeout t =>
    rcases h with ⟨k', hk', rfl⟩
    exact (shrinks_wakes (wakes_of_expire hk')).same

end Mutexes

section Events

variable {prioMax : Nat} (flag : Head → IpcFlag) (Sets : Tid → Nat → Prop) (s : EventSys)
  {s' : EventSys}

theorem eventResume_effect (h : eventResume prioMax k ev t = some (k', ev')) :
    Shrinks k k' ∧ ev'.flag = ev.flag := by
  simp only [eventResume, bind_iff, pure_iff, Prod.mk.injEq] at h
  rcases h with ⟨⟨k1, e⟩, hr, rfl, rfl⟩
  refine ⟨shrinks_resume hr, ?_⟩
  split_ifs
  · rfl
  · rfl

theorem eventScan_effect {ts : List Tid} {b b' : Bool}
    (h : eventScan prioMax ts k ev b = some (k', ev', b')) : Shrinks k k' ∧ ev'.flag = ev.flag := by
  induction ts generalizing k ev b with
  | nil =>
    cases h
    exact ⟨shrinks_refl, rfl⟩
  | cons t ts ih =>
    have hresume : ∀ k0, Shrinks k k0 →
        ((eventResume prioMax k0 ev t).bind fun r => eventScan prioMax ts r.1 r.2 true)
          = some (k', ev', b') → Shrinks k k' ∧ ev'.flag = ev.flag := by
      intro k0 hk0 hr
      rw [bind_eq_some_iff] at hr
      rcases hr with ⟨⟨k1, ev1⟩, hr, hrest⟩
      rcases eventResume_effect hr with ⟨hs, hf⟩
      rcases ih hrest with ⟨hs', hf'⟩
      exact ⟨shrinks_trans hk0 (shrinks_trans hs hs'), hf'.trans hf⟩
    rw [eventScan] at h
    split_ifs at h
    · exact hresume k shrinks_refl h
    · exact ih h
    · exact hresume _ (shrinks_setThread
        { k.thread t with eventSet := (k.thread t).eventSet &&& ev.set } rfl rfl) h
    · exact ih h
    · exact ih h

theorem eventSend_effect {set : BitVec 32} {e : RtErr}
    (h : rtEventSend prioMax k ev list set = some (k', ev', e)) :
    Shrinks k k' ∧ ev'.flag = ev.flag := by
  unfold rtEventSend at h
  split_ifs at h
  · cases h
    exact ⟨shrinks_refl, rfl⟩
  simp only [bind_iff, pure_iff, Prod.mk.injEq] at h
  rcases h with ⟨⟨k1, ev1, b⟩, hscan, k2, hsched, rfl, rfl, _⟩
  rcases eventScan_effect hscan with ⟨hs, hf⟩
  unfold scheduleIf at hsched
  split_ifs at hsched
  · exact ⟨shrinks_trans hs (shrinks_schedule hsched), hf⟩
  · cases hsched
    exact ⟨hs, hf⟩

theorem eventFinish_frame {t : Tid} {n : Nat} {set : BitVec 32} {option : BitVec 8}
    {r : Kernel Queues × Event × Outcome × Option (BitVec 32)} :
    (s.finishRecv t n set option r).k = r.1 ∧
      (s.finishRecv t n set option r).event = update s.event n r.2.1 := by
  unfold EventSys.finishRecv
  split
  · exact ⟨rfl, rfl⟩
  · exact ⟨rfl, rfl⟩

theorem eventStep_effect {a : EventAction} (hflag : ∀ n, flag (EventSys.list n) = (s.event n).flag)
    (h : eventStep prioMax s a = some s') :
    WaitEffect prioMax flag Sets s.k s'.k ∧ ∀ n, (s'.event n).flag = (s.event n).flag := by
  cases a with simp only [eventStep, bind_iff, pure_iff, assert_iff, rtEventReset] at h
  | spawn t isStatic priority =>
    rcases h with ⟨k', hk', rfl⟩
    exact (shrinks_spawns (spawns_of_spawn hk')).same
  | send n set =>
    rcases h with ⟨⟨k', ev', e⟩, hsend, h⟩
    rcases eventSend_effect hsend with ⟨hs, hf⟩
    split_ifs at h
    · cases h
      exact hs.object hf
    · cases h
      exact hs.object hf
  | recv t n set option timeout =>
    rcases h with ⟨⟨hready, _⟩, r, hr, rfl⟩
    rcases eventFinish_frame s with ⟨hk, hev⟩
    rw [hk, hev]
    rcases r with ⟨k', ev', out, recved⟩
    rcases rtEventRecv_cases
      hready hr with ⟨rfl, rfl, _⟩ | ⟨rfl, rfl, _⟩ | ⟨rfl, rfl, _⟩ | ⟨rfl, _, _, _, _, hb⟩
    · exact shrinks_refl.object rfl
    · exact shrinks_setError.object rfl
    · exact shrinks_setError.object rfl
    rw [← hflag n] at hb
    exact (WaitEffect.blocks _ t (EventSys.list n) (shrinks_setThread
      { s.k.thread t with error := .eok, eventSet := set, eventInfo := option } rfl rfl) hready
      trivial hb).object rfl
  | recvReturn t =>
    rcases h with ⟨_, c, _, rfl⟩
    exact shrinks_refl.same
  | reset n =>
    rcases h with ⟨⟨k', ev'⟩, ⟨k1, h1, k2, h2, heq⟩, rfl⟩
    cases heq
    exact (shrinks_trans (shrinks_resumeAll h1) (shrinks_schedule h2)).object rfl
  | timeout t =>
    rcases h with ⟨k', hk', rfl⟩
    exact (shrinks_wakes (wakes_of_expire hk')).same

end Events

section Mailboxes

variable {prioMax : Nat} (flag : Head → IpcFlag) (Sets : Tid → Nat → Prop) (s : MailboxSys)
  {s' : MailboxSys} {op : MailboxOp}

theorem moved_flag {mb : Mailbox} : (mb.moved op).flag = mb.flag := by
  cases op with
  | send value => rfl
  | recv => rfl

theorem mailboxMove_effect {n : Nat} {mb : Mailbox} {own : Prop}
    {r : MailboxResult} (hown : own → k.state t = .ready)
    (hflag : ∀ op, flag (MailboxSys.waitList n op) = mb.flag)
    (h : MailboxMove prioMax n k mb t op own r) :
    WaitEffect prioMax flag Sets k r.k ∧ r.mb.flag = mb.flag := by
  cases h with
  | refuse e timeout tickDelta he hstuck => exact ⟨.shrinks shrinks_refl, rfl⟩
  | giveUp e e' timeout tickDelta he hstuck ho => exact ⟨.shrinks shrinks_setError, rfl⟩
  | wait k' timeout tickDelta hstuck ho hb =>
    rw [← hflag op] at hb
    exact ⟨.blocks _ t _ shrinks_setError (hown ho) (waitList_isWait n op) hb, rfl⟩
  | move k' timeout tickDelta hfree hr =>
    exact ⟨.shrinks (shrinks_resumeWaiting hr), moved_flag⟩

variable {s} in
theorem mailboxFinish_frame {t : Tid} {n : Nat} {r : MailboxResult} :
    (s.finish t n op r).k = r.k ∧ (s.finish t n op r).mailbox = update s.mailbox n r.mb := by
  unfold MailboxSys.finish MailboxSys.record
  split
  · exact ⟨rfl, rfl⟩
  split_ifs
  · cases op with
    | send value => exact ⟨rfl, rfl⟩
    | recv => exact ⟨rfl, rfl⟩
  · exact ⟨rfl, rfl⟩

theorem mailboxStep_effect {a : MailboxAction}
    (hflag : ∀ n op, flag (MailboxSys.waitList n op) = (s.mailbox n).flag)
    (h : mailboxStep prioMax s a = some s') :
    WaitEffect prioMax flag Sets s.k s'.k ∧ ∀ n, (s'.mailbox n).flag = (s.mailbox n).flag := by
  -- Whoever calls, what the call did is entered in the same way.
  have hmove : ∀ (s0 : MailboxSys) t n op own r, s0.k = s.k → s0.mailbox = s.mailbox →
      (own → s.k.state t = .ready) → MailboxMove prioMax n s.k (s.mailbox n) t op own r →
      WaitEffect prioMax flag Sets s.k (s0.finish t n op r).k ∧
        ∀ m, ((s0.finish t n op r).mailbox m).flag = (s.mailbox m).flag := by
    intro s0 t n op own r _ hm0 hown hr
    rcases mailboxMove_effect flag Sets hown (hflag n) hr with ⟨heff, hf⟩
    rcases mailboxFinish_frame with ⟨hk, hm⟩
    rw [hk, hm, hm0]
    exact heff.object hf
  cases a with simp only [mailboxStep, bind_iff, pure_iff, rtMbSend, assert_iff, rtMbReset] at h
  | spawn t isStatic priority =>
    rcases h with ⟨k', hk', rfl⟩
    exact (shrinks_spawns (spawns_of_spawn hk')).same
  | tick =>
    cases h
    exact shrinks_refl.same
  | send t n value =>
    rcases h with ⟨r, hr, rfl⟩
    exact hmove s t n _ False r rfl rfl False.elim
      (rtMbSendWait_moves n False (.inl rfl) False.elim hr)
  | sendWait t n value timeout =>
    rcases h with ⟨hmay, r, hr, rfl⟩
    exact hmove s t n _ (s.k.state t = .ready ∧ s.call t = none) r rfl rfl (·.1)
      (rtMbSendWait_moves n _ hmay (·.1) hr)
  | recv t n timeout =>
    rcases h with ⟨hmay, r, hr, rfl⟩
    exact hmove s t n _ (s.k.state t = .ready ∧ s.call t = none) r rfl rfl (·.1)
      (rtMbRecv_moves n _ hmay (·.1) hr)
  | callReturn t =>
    rcases h with ⟨hready, ⟨n, op, timeout, tickDelta⟩, _, r, hr, rfl⟩
    rcases resumeCall_cases n hready hr with ⟨_, rfl⟩ | hr
    · rcases mailboxFinish_frame with ⟨hk, hm⟩
      rw [hk, hm]
      exact shrinks_refl.object rfl
    · exact hmove { s with call := update s.call t none } t n op True r rfl rfl (fun _ => hready) hr
  | reset n =>
    rcases h with ⟨⟨k', mb'⟩, ⟨k1, h1, k2, h2, k3, h3, heq⟩, rfl⟩
    cases heq
    exact (shrinks_trans (shrinks_resumeAll h1)
      (shrinks_trans (shrinks_resumeAll h2) (shrinks_schedule h3))).object rfl
  | timeout t =>
    rcases h with ⟨k', hk', rfl⟩
    exact (shrinks_wakes (wakes_of_expire hk')).same

end Mailboxes

section MessageQueues

variable {prioMax : Nat} (flag : Head → IpcFlag) (Sets : Tid → Nat → Prop) {s : MqSys} (s' : MqSys)

theorem mqUnlink_flag (mq mq' : MessageQueue) (b : Nat) (h : mqUnlink mq = some (mq', b)) :
    mq'.flag = mq.flag := by
  unfold mqUnlink at h
  split at h
  · exact nomatch h
  · cases h
    rfl

theorem mqDrain_flag {fuel : Nat} (mq mq' : MessageQueue) (h : mqDrain fuel mq = some mq') :
    mq'.flag = mq.flag := by
  induction fuel generalizing mq with unfold mqDrain at h
  | zero =>
    split at h
    · cases h
      rfl
    · exact nomatch h
  | succ fuel ih =>
    split at h
    · cases h
      rfl
    · simp only [bind_iff] at h
      rcases h with ⟨⟨mq1, b⟩, hunlink, hrest⟩
      exact (ih _ hrest).trans (mqUnlink_flag mq mq1 b hunlink)

theorem mqFill_flag {b : Nat} {buffer : List (BitVec 8)} {urgent : Bool} :
    (mqFill mq b buffer urgent).flag = mq.flag := by
  unfold mqFill
  split_ifs
  · rfl
  · rfl

theorem mqLink_flag {b : Nat} {urgent : Bool} : (mqLink mq b urgent).flag = mq.flag := by
  unfold mqLink mqLinkHead mqLinkTail
  split_ifs
  · rfl
  · cases mq.tail with
    | none => rfl
    | some l => rfl

theorem mqSend_flag {mq' : MessageQueue} {buffer : List (BitVec 8)} {r : MqAlloc}
    (h : rtMqSend mq buffer = some (mq', r)) : mq'.flag = mq.flag := by
  simp only [rtMqSend, bind_iff, assert_iff] at h
  rcases h with ⟨_, h⟩
  split_ifs at h
  · cases h
    rfl
  split at h
  · cases h
    rfl
  · cases h
    rfl

/-- The loop of a receive, on a system that may have been left by its call. -/
theorem mqRecv_effect {s0 : MqSys} {a n size : Nat} {timeout tickDelta tick : BitVec 32}
    {r : MqRecvResult} (hready : timeout = 0#32 ∧ (s.queue n).entry ≠ 0#16 ∨ s.k.state t = .ready)
    (hk : s0.k = s.k) (hq : s0.queue = s.queue) (hflag : flag (MqSys.list n) = (s.queue n).flag)
    (h : mqRecvLoop prioMax s.k (s.queue n) (MqSys.list n) t timeout tickDelta tick = some r) :
    WaitEffect prioMax flag Sets s.k (s0.finishRecv t a n size r).k ∧
      ∀ m, ((s0.finishRecv t a n size r).queue m).flag = (s.queue m).flag := by
  unfold mqRecvLoop at h
  by_cases hempty : (s.queue n).entry = 0#16
  · have hready' : s.k.state t = .ready := hready.resolve_left (fun hc => hc.2 hempty)
    split_ifs at h
    · cases h
      exact ⟨.shrinks (shrinks_trans shrinks_setError
        shrinks_setError), fun m => congrArg (fun q => (q m).flag) hq⟩
    simp only [bind_iff, pure_iff] at h
    rcases h with ⟨k', hk', rfl⟩
    have hb := blocks_of_waitIn ((setError_state s.k t .eok t).trans hready') hk'
    rw [← hflag] at hb
    exact ⟨.blocks _ t (MqSys.list n) shrinks_setError hready' trivial hb,
      fun m => congrArg (fun q => (q m).flag) hq⟩
  · rw [if_neg hempty] at h
    simp only [bind_iff, pure_iff] at h
    rcases h with ⟨⟨mq', b⟩, hunlink, rfl⟩
    simp only [MqSys.finishRecv, hk, hq]
    exact shrinks_refl.object (mqUnlink_flag _ mq' b hunlink)

theorem mqStep_effect {act : MqAction} (hflag : ∀ n, flag (MqSys.list n) = (s.queue n).flag)
    (h : mqStep prioMax s act = some s') :
    WaitEffect prioMax flag Sets s.k s'.k ∧ ∀ n, (s'.queue n).flag = (s.queue n).flag := by
  cases act with simp only [mqStep] at h
  | spawn t isStatic priority =>
    simp only [bind_iff, pure_iff] at h
    rcases h with ⟨k', hk', rfl⟩
    exact (shrinks_spawns (spawns_of_spawn hk')).same
  | tick =>
    cases h
    exact shrinks_refl.same
  | send a n buffer urgent =>
    simp only [bind_iff, assert_iff, Option.pure_def] at h
    rcases h with ⟨_, ⟨mq', r⟩, hr, h⟩
    have hf := mqSend_flag hr
    cases r with
    | failed status =>
      cases h
      exact shrinks_refl.object hf
    | got b =>
      cases h
      exact shrinks_refl.object hf
  | fill a =>
    split at h
    · next n b buffer urgent _ =>
        cases h
        exact shrinks_refl.object mqFill_flag
    · cases h
  | link a =>
    split at h
    · next n b buffer urgent _ =>
        simp only [bind_iff, pure_iff] at h
        rcases h with ⟨k', hk', rfl⟩
        exact (shrinks_resumeWaiting hk').object mqLink_flag
    · cases h
  | recv t a n size timeout =>
    simp only [rtMqRecv, bind_iff, assert_iff, pure_iff] at h
    rcases h with ⟨_, hmay, r, ⟨_, hr⟩, rfl⟩
    split_ifs at hr with hnow
    · rw [pure_iff] at hr
      rw [← hr]
      exact shrinks_refl.same
    · refine mqRecv_effect flag Sets ?_ rfl rfl (hflag n) hr
      exact hmay.imp (fun ht => ⟨ht, fun hc => hnow ⟨hc, ht⟩⟩) (·.1)
  | recvReturn t a =>
    simp only [rtMqRecvReturn, bind_iff, assert_iff, pure_iff] at h
    rcases h with ⟨_, hready, c, _, r, hr, rfl⟩
    split_ifs at hr with herr
    · cases hr
      exact shrinks_refl.same
    · exact mqRecv_effect flag Sets (.inr hready) rfl rfl (hflag c.queue) hr
  | copy a =>
    split at h
    · cases h
      exact shrinks_refl.same
    · cases h
  | free a =>
    split at h
    · next n b size sent recved _ =>
        cases h
        exact shrinks_refl.object rfl
    · cases h
  | reset n =>
    simp only [rtMqReset, bind_iff, pure_iff] at h
    rcases h with ⟨⟨k', mq'⟩, ⟨k1, h1, mq1, hdrain, k2, h2, heq⟩, rfl⟩
    cases heq
    exact (shrinks_trans (shrinks_resumeAll h1)
      (shrinks_schedule h2)).object (mqDrain_flag _ mq1 hdrain)
  | timeout t =>
    simp only [bind_iff, pure_iff] at h
    rcases h with ⟨k', hk', rfl⟩
    exact (shrinks_wakes (wakes_of_expire hk')).same

end MessageQueues

namespace IpcSys

variable (s : IpcSys)

/-- How a list is ordered, read off the object it belongs to. -/
def flagAt : Head → IpcFlag
  | .suspend o => s.flagOf o
  | .sender o => s.flagOf o
  | _ => .fifo

/-- The wait lists ordered by priority are in order, with threads of one priority
    in the order in which they were suspended. So the first of a list, who is
    resumed first, is one of the most urgent. -/
def PrioOrdered : Prop :=
  ∀ h : Head, h.IsWait → s.flagAt h = .prio →
    (s.k.lists h).Pairwise (Before s.cur s.stamp) ∧
      ∀ t, first s.k.lists h = some t → ∀ u ∈ s.k.lists h, s.cur t ≤ s.cur u

/-- The priorities an action gives to threads. -/
def Sets : IpcAction → Tid → Nat → Prop
  | .control t priority, o, p => o = t ∧ p = priority
  | .mutex a, o, p => { s.mutex with k := s.k }.Sets a o p
  | _, _, _ => False

/-- A thread that is not ready gets a new priority only if it fits with it between
    its neighbours in the lists ordered by priority. -/
def OrderCond (a : IpcAction) : Prop :=
  ∀ t priority, s.Sets a t priority → s.k.state t ≠ .ready →
    ∀ h : Head, h.IsWait → s.flagAt h = .prio → Fits s.cur s.stamp t (s.k.lists h) priority

/-- The order, and every stamp of a waiting thread lies in the past. -/
def OrderInv : Prop :=
  Ordered s.flagAt s.k s.stamp s.clock

end IpcSys

open IpcSys

section Order

variable (prioMax : Nat) (s s' : IpcSys)

theorem act_effect (h : s.act prioMax a = some s') :
    WaitEffect prioMax s.flagAt (s.Sets a) s.k s'.k ∧ s'.flagOf = s.flagOf := by
  cases a with simp only [act, bind_iff, pure_iff] at h
  | sem a =>
    rcases h with ⟨r, hr, rfl⟩
    rcases semStep_effect s.flagAt _ { s.sem with k := s.k } (fun _ => rfl) hr with
      ⟨heff, hf⟩
    refine ⟨heff, ?_⟩
    ext o
    cases o with
    | sem n => exact hf n
    | _ => rfl
  | mutex a =>
    rcases h with ⟨r, hr, rfl⟩
    rcases mutexStep_effect s.flagAt { s.mutex with k := s.k } (fun _ => rfl) hr with
      ⟨heff, hf⟩
    refine ⟨heff, ?_⟩
    ext o
    cases o with
    | mutex n => exact hf n
    | _ => rfl
  | event a =>
    rcases h with ⟨r, hr, rfl⟩
    rcases eventStep_effect s.flagAt _ { s.event with k := s.k } (fun _ => rfl) hr with
      ⟨heff, hf⟩
    refine ⟨heff, ?_⟩
    ext o
    cases o with
    | event n => exact hf n
    | _ => rfl
  | mailbox a =>
    have hr : ∃ r, mailboxStep prioMax { s.mailbox with k := s.k } a = some r ∧
        { s with k := r.k, mailbox := r } = s' := by
      cases a with
      | tick => exact nomatch h
      | _ =>
        simpa only [act, bind_eq_bind, bind_eq_some_iff, Option.pure_def, some.injEq] using h
    rcases hr with ⟨r, hr, rfl⟩
    have hlists : ∀ n op, s.flagAt (MailboxSys.waitList n op) = (s.mailbox.mailbox n).flag := by
      intro n op
      cases op with
      | send value => rfl
      | recv => rfl
    rcases mailboxStep_effect s.flagAt _ { s.mailbox with k := s.k } hlists hr with
      ⟨heff, hf⟩
    refine ⟨heff, ?_⟩
    ext o
    cases o with
    | mailbox n => exact hf n
    | _ => rfl
  | mq a =>
    have hr : ∃ r, mqStep prioMax { s.mq with k := s.k } a = some r ∧
        { s with k := r.k, mq := r } = s' := by
      cases a with
      | tick => exact nomatch h
      | _ =>
        simpa only [act, bind_eq_bind, bind_eq_some_iff, Option.pure_def, some.injEq] using h
    rcases hr with ⟨r, hr, rfl⟩
    rcases mqStep_effect (s := { s.mq with k := s.k }) s.flagAt _ r (fun _ => rfl) hr with
      ⟨heff, hf⟩
    refine ⟨heff, ?_⟩
    ext o
    cases o with
    | messageQueue n => exact hf n
    | _ => rfl
  | tick =>
    cases h
    exact ⟨.shrinks shrinks_refl, rfl⟩
  | control t priority =>
    rcases h with ⟨k', hk', rfl⟩
    exact ⟨.sets t priority ⟨rfl, rfl⟩ (reprioritizes_of_control hk'), rfl⟩

theorem stampWith_same (h : ∀ u, s'.k.state u = .suspend → s.k.state u = .suspend) :
    (s.stampWith s').stamp = s.stamp := by
  ext u
  exact if_neg (fun hu => hu.1 (h u hu.2))

theorem stampWith_one (hready : s.k.state t = .ready) (hself : s'.k.state t = .suspend)
    (hother : ∀ u, u ≠ t → s'.k.state u = .suspend → s.k.state u = .suspend) :
    (s.stampWith s').stamp = update s.stamp t s.clock := by
  ext u
  by_cases hu : u = t
  · rw [hu, update_self]
    refine if_pos ⟨?_, hself⟩
    rw [hready]
    exact nofun
  · rw [update_of_ne hu]
    exact if_neg (fun hc => hc.1 (hother u hu hc.2))

theorem flagAt_stampWith (hf : s'.flagOf = s.flagOf) : (s.stampWith s').flagAt = s.flagAt := by
  ext h
  cases h with
  | suspend o => exact congrFun hf o
  | sender o => exact congrFun hf o
  | _ => rfl

theorem orderInv_blocks {k1 : Kernel Queues} (hk1 : Ordered s.flagAt k1 s.stamp s.clock)
    (hready : s.k.state t = .ready) (hst : ∀ u, k1.state u = .suspend → s.k.state u = .suspend)
    (hw : list.IsWait) (hb : Blocks k1 s'.k t list (s.flagAt list)) :
    Ordered s.flagAt s'.k (s.stampWith s').stamp (s.clock + 1) := by
  rcases hb.thread with ⟨timer, hth⟩
  rw [stampWith_one s s' hready (state_update_self hth) (fun u hu hs => hst u (by
    rw [← state_update_of_ne hth hu]
    exact hs))]
  exact ordered_blocks t hw hk1 hb

theorem orderInv_step (hs : OrderInv s) (hc : s.OrderCond a) (h : ipcStep prioMax s a = some s') :
    OrderInv s' := by
  simp only [ipcStep, bind_iff, assert_iff, pure_iff] at h
  rcases h with ⟨_, s1, hact, rfl⟩
  rcases act_effect prioMax s s1 hact with ⟨heff, hf⟩
  unfold OrderInv
  rw [flagAt_stampWith s s1 hf]
  -- Where nobody is suspended, the stamps are the old ones and the clock goes on.
  have hsame : (∀ u, s1.k.state u = .suspend → s.k.state u = .suspend) →
      Ordered s.flagAt s1.k s.stamp s.clock →
      Ordered s.flagAt s1.k (s.stampWith s1).stamp (s.clock + 1) := by
    intro hst hord
    rw [stampWith_same s s1 hst]
    exact ordered_stamp (Nat.le_succ _) (fun _ _ _ _ => rfl) hord
  cases heff with
  | shrinks hsh => exact hsame hsh.state (ordered_shrinks hs hsh)
  | blocks k1 t list hsh hr hw hb =>
    exact orderInv_blocks s s1 (ordered_shrinks hs hsh) hr hsh.state hw hb
  | lends k1 k2 t o p list hl hp hst hr hw hsets hset hb =>
    have hk1 : Ordered s.flagAt k1 s.stamp s.clock :=
      ordered_shrinks hs
        ⟨fun h _ => by rw [hl], fun _ _ u _ => hp u, fun u hu => (hst u).symm.trans hu⟩
    have hcur : (fun u => (k1.thread u).currentPriority) = s.cur := by
      ext u
      exact hp u
    have hk2 : Ordered s.flagAt k2 s.stamp s.clock := by
      refine ordered_reprioritizes s.flagAt k1 k2 s.stamp s.clock o p hk1 hset
        (fun hne h hwait hprio => ?_)
      rw [hcur, hl]
      rw [hst o] at hne
      exact hc o p hsets hne h hwait hprio
    refine orderInv_blocks s s1 hk2 hr (fun u hu => ?_) hw hb
    rw [← hst u, ← reprioritizes_state hset u]
    exact hu
  | sets t p hsets hset =>
    refine hsame (fun u hu => ?_) (ordered_reprioritizes s.flagAt s.k s1.k s.stamp s.clock
      t p hs hset (fun hne h hw hprio => hc t p hsets hne h hw hprio))
    rw [← reprioritizes_state hset u]
    exact hu

theorem prioOrdered_of_inv (hs : OrderInv s) : PrioOrdered s := by
  intro h hw hprio
  have hsorted := hs.sorted h hw hprio
  refine ⟨hsorted, fun t ht u hu => ?_⟩
  rcases head?_eq_some_iff.mp ht with ⟨us, hus⟩
  rw [hus] at hu hsorted
  rcases mem_cons.mp hu with rfl | hu
  · exact le_refl _
  · rcases (pairwise_cons.mp hsorted).1 u hu with hlt | ⟨heq, _⟩
    · exact le_of_lt hlt
    · exact le_of_eq heq

/-- **The order of the wait lists**: from the start, through any interleaving of calls, releases,
    timeouts and changes of priority, the wait lists of the objects that order them by priority are
    in order, as long as every new priority of a waiting thread keeps it between its neighbours. -/
theorem waitLists_ordered (value : Nat → BitVec 32) (msgPool : Nat → Nat → BitVec 32)
    (mbSize : Nat → BitVec 32) (data : Nat → Nat → Nat → BitVec 8)
    (msgSize poolSize : Nat → BitVec 32) (flag : Obj → IpcFlag) (tick : BitVec 32)
    (as : List IpcAction)
    (hC : Along (ipcStep prioMax) OrderCond
      (ipcSysInit prioMax value msgPool mbSize data msgSize poolSize flag tick) as) :
    Always (ipcStep prioMax) PrioOrdered
      (ipcSysInit prioMax value msgPool mbSize data msgSize poolSize flag tick) as := by
  refine always_of_inv OrderInv (prioOrdered_of_inv _) (orderInv_step prioMax _ _) ?_ hC
  exact ⟨fun h _ _ => List.Pairwise.nil, fun h _ u hu => absurd hu not_mem_nil⟩

end Order

/-- The thread whose priority an action may change. -/
def IpcSys.target (s : IpcSys) : IpcAction → Option Tid
  | .control t _ => some t
  | .mutex (.take _ n _) => (s.mutex.mutex n).owner
  | .mutex (.takeReturn t) => (s.mutex.call t).bind fun c => (s.mutex.mutex c.mutex).owner
  | _ => none

theorem target_of_sets {s : IpcSys} {priority : Nat} (h : s.Sets a t priority) :
    s.target a = some t := by
  cases a with
  | control u p => exact congrArg some h.1.symm
  | mutex b =>
    cases b with
    | take u n time => exact h.2.2.1
    | takeReturn u =>
      rcases h with ⟨_, c, hcall, hlends⟩
      change (s.mutex.call u).bind _ = some t
      rw [hcall]
      exact hlends.2.2.1
    | _ => exact h.elim
  | _ => exact h.elim

/-- Ready threads can be given any priority. -/
theorem orderCond_of_ready (s : IpcSys) (a : IpcAction)
    (h : ∀ t ∈ s.target a, s.k.state t = .ready) : s.OrderCond a := by
  intro t priority hsets hne
  exact absurd (h t (target_of_sets hsets)) hne

/-- Three threads wait for a mutex whose owner is ready. The second of them is the
    most urgent and lends the owner its priority, and is first in the list. -/
theorem waitLists_ordered_inherited :
    ∃ s as, exec (ipcStep 32) (ipcSysInit 32 (fun _ => 0#32) (fun _ _ => 0#32)
        (fun _ => 1#32) (fun _ _ _ => 0#8) (fun _ => 4#32) (fun _ => 16#32) (fun _ => .prio) 0#32)
        as = some s ∧
      s.k.lists (MutexSys.list 0) = [3, 2, 4] ∧ s.cur 1 = 10 ∧
      Always (ipcStep 32) PrioOrdered (ipcSysInit 32 (fun _ => 0#32) (fun _ _ => 0#32)
        (fun _ => 1#32) (fun _ _ _ => 0#8) (fun _ => 4#32) (fun _ => 16#32) (fun _ => .prio) 0#32)
        as :=
  exists_comm.mpr ⟨[.sem (.spawn 1 true 20), .mutex (.take 1 0 (-1#32)), .sem (.spawn 2 true 15),
      .mutex (.take 2 0 (-1#32)), .sem (.spawn 3 true 10), .mutex (.take 3 0 (-1#32)),
      .sem (.spawn 4 true 15), .mutex (.take 4 0 (-1#32))],
    exists_of_run (fun s => s.k.lists (MutexSys.list 0) = [3, 2, 4] ∧ s.cur 1 = 10)
      (by decide +kernel) fun s _ h => ⟨h.1, h.2, waitLists_ordered 32 _ _ _ _ _ _ _ _ _
        (along_mono OrderCond orderCond_of_ready (by decide +kernel))⟩⟩

/-- The priority of the first of two waiting threads is lowered below that of the
    second. The list is not put in order, and the less urgent thread stays first. -/
theorem control_disorders :
    ∃ s, exec (ipcStep 32) (ipcSysInit 32 (fun _ => 0#32) (fun _ _ => 0#32)
        (fun _ => 1#32) (fun _ _ _ => 0#8) (fun _ => 4#32) (fun _ => 16#32) (fun _ => .prio) 0#32)
        [.sem (.spawn 0 true 31), .sem (.spawn 1 true 10), .sem (.spawn 2 true 20),
          .sem (.take 1 0 (-1#32)), .sem (.take 2 0 (-1#32)), .control 1 25] = some s ∧
      s.k.lists (SemSys.list 0) = [1, 2] ∧ s.cur 1 = 25 ∧ s.cur 2 = 20 ∧ ¬ PrioOrdered s := by
  refine exists_of_run (fun s => s.k.lists (SemSys.list 0) = [1, 2] ∧ s.cur 1 = 25 ∧
    s.cur 2 = 20 ∧ s.flagAt (SemSys.list 0) = .prio) (by decide +kernel) ?_
  rintro s - ⟨hlist, hcur1, hcur2, hflag⟩
  refine ⟨hlist, hcur1, hcur2, fun hord => ?_⟩
  have hfirst : first s.k.lists (SemSys.list 0) = some 1 := by
    change (s.k.lists (SemSys.list 0)).head? = some 1
    rw [hlist]
    rfl
  have hle := (hord (SemSys.list 0) trivial hflag).2 1 hfirst 2 (by
    rw [hlist]
    exact mem_cons_of_mem 1 (mem_singleton_self 2))
  omega

end Honeycomb
