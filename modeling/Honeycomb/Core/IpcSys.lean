import Honeycomb.Core.Event
import Honeycomb.Core.Mailbox
import Honeycomb.Core.MessageQueue
import Honeycomb.Core.Mutex
import Honeycomb.Core.Semaphore

/-!
# All Kernel Objects Over One Kernel

Semaphores, mutexes, events, mailboxes and message queues together, with
threads whose priorities can be changed at any time.

The five systems run over one kernel. A step of one of them is a step of the
whole: it starts from the shared kernel, and its kernel is the shared one
afterwards. A thread begins a call only when its last call is over, whatever
kind of object that was on.

The ghost field `stamp` is the time at which a thread was last suspended, by a
clock that counts the steps.
-/

namespace Honeycomb

/-- The five systems over one kernel. Their own kernels are those of their last
    steps, and are not used. -/
structure IpcSys where
  k : Kernel Queues
  sem : SemSys
  mutex : MutexSys
  event : EventSys
  mailbox : MailboxSys
  mq : MqSys
  clock : Nat
  stamp : Tid → Nat

/-- What can happen. Beside the steps of the five systems there are the clock
    tick, which they share, and the change of a priority. -/
inductive IpcAction where
  | sem (a : SemAction)
  | mutex (a : MutexAction)
  | event (a : EventAction)
  | mailbox (a : MailboxAction)
  | mq (a : MqAction)
  | tick
  | control (t : Tid) (priority : Nat)
  deriving DecidableEq, Repr

/-- The thread that begins a call, if it is one that has to be idle for it. A
    call that does not wait may come from an interrupt. -/
def IpcAction.caller : IpcAction → Option Tid
  | .sem (.take t _ _) => some t
  | .sem (.trytake t _) => some t
  | .mutex (.take t _ _) => some t
  | .mutex (.release t _) => some t
  | .event (.recv t _ _ _ _) => some t
  | .mailbox (.sendWait t _ _ timeout) => if timeout = 0#32 then none else some t
  | .mailbox (.recv t _ timeout) => if timeout = 0#32 then none else some t
  | .mq (.recv t _ _ _ timeout) => if timeout = 0#32 then none else some t
  | _ => none

namespace IpcSys

variable (s : IpcSys)

/-- The thread is in no call. -/
def Idle (t : Tid) : Prop :=
  s.sem.call t = none ∧ s.mutex.call t = none ∧ s.event.call t = none ∧
    s.mailbox.call t = none ∧ s.mq.call t = none

instance (t : Tid) : Decidable (s.Idle t) :=
  inferInstanceAs (Decidable (_ ∧ _ ∧ _ ∧ _ ∧ _))

/-- The thread that begins a call, if any, is idle. -/
def MayBegin (a : IpcAction) : Prop :=
  match a.caller with
  | none => True
  | some t => s.Idle t

instance (a : IpcAction) : Decidable (s.MayBegin a) :=
  match h : a.caller with
  | none => isTrue (by unfold MayBegin; rw [h]; trivial)
  | some t => decidable_of_iff (s.Idle t) (by unfold MayBegin; rw [h])

/-- How the wait lists of an object are ordered. -/
def flagOf : Obj → IpcFlag
  | .sem n => (s.sem.sem n).flag
  | .mutex n => (s.mutex.mutex n).flag
  | .event n => (s.event.event n).flag
  | .mailbox n => (s.mailbox.mailbox n).flag
  | .messageQueue n => (s.mq.queue n).flag

def cur (t : Tid) : Nat :=
  (s.k.thread t).currentPriority

variable (prioMax : Nat)

/-- What an action does, apart from the stamps. -/
def act (s : IpcSys) : IpcAction → Option IpcSys
  | .sem a => do
    let r ← semStep prioMax { s.sem with k := s.k } a
    return { s with k := r.k, sem := r }
  | .mutex a => do
    let r ← mutexStep prioMax { s.mutex with k := s.k } a
    return { s with k := r.k, mutex := r }
  | .event a => do
    let r ← eventStep prioMax { s.event with k := s.k } a
    return { s with k := r.k, event := r }
  | .mailbox .tick => none
  | .mailbox a => do
    let r ← mailboxStep prioMax { s.mailbox with k := s.k } a
    return { s with k := r.k, mailbox := r }
  | .mq .tick => none
  | .mq a => do
    let r ← mqStep prioMax { s.mq with k := s.k } a
    return { s with k := r.k, mq := r }
  | .tick =>
    some { s with
      mailbox := { s.mailbox with tick := s.mailbox.tick + 1#32 }
      mq := { s.mq with tick := s.mq.tick + 1#32 } }
  | .control t priority => do
    let k ← rtThreadControl prioMax s.k t priority
    return { s with k := k }

/-- Enter the time for a thread that has been suspended. -/
def stampWith (s s' : IpcSys) : IpcSys :=
  { s' with
    clock := s.clock + 1
    stamp := fun u =>
      if s.k.state u ≠ .suspend ∧ s'.k.state u = .suspend then s.clock else s.stamp u }

end IpcSys

def ipcStep (prioMax : Nat) (s : IpcSys) (a : IpcAction) : Option IpcSys := do
  rtAssert (s.MayBegin a)
  let s' ← s.act prioMax a
  return s.stampWith s'

def ipcSysInit (prioMax : Nat) (value : Nat → BitVec 32) (msgPool : Nat → Nat → BitVec 32)
    (mbSize : Nat → BitVec 32) (data : Nat → Nat → Nat → BitVec 8)
    (msgSize poolSize : Nat → BitVec 32) (flag : Obj → IpcFlag) (tick : BitVec 32) : IpcSys :=
  { k := rtSystemSchedulerInit prioMax queuesInit
    sem := semSysInit prioMax value (fun n => flag (.sem n))
    mutex := mutexSysInit prioMax (fun n => flag (.mutex n))
    event := eventSysInit prioMax (fun n => flag (.event n))
    mailbox := mailboxSysInit prioMax msgPool mbSize (fun n => flag (.mailbox n)) tick
    mq := mqSysInit prioMax data msgSize poolSize (fun n => flag (.messageQueue n)) tick
    clock := 0
    stamp := fun _ => 0 }

end Honeycomb
