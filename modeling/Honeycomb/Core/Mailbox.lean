import Honeycomb.Core.Ipc

/-!
# Mailboxes

Bounded queues of words, and the system of threads that send and receive.

Both directions wait in a loop. A thread that has been woken looks again whether
there is something for it, since another thread may have been there first, and
if there is nothing it goes back to sleep with what is left of its time.

A mailbox has two wait lists, one for those who wait to receive and one for
those who wait to send.

The ghost fields record the values that sends have put in and the values that
receives have got, both since the last reset.
-/

namespace Honeycomb

open Function

/-- A mailbox. Its two wait lists are in the kernel. -/
structure Mailbox where
  msgPool : Nat → BitVec 32
  size : BitVec 16
  entry : BitVec 16
  inOffset : BitVec 16
  outOffset : BitVec 16
  flag : IpcFlag

/-- Initialize a mailbox. The field `size` has 16 bits. -/
def rtMbInit (msgPool : Nat → BitVec 32) (size : BitVec 32) (flag : IpcFlag) : Mailbox :=
  { msgPool := msgPool
    size := size.setWidth 16
    entry := 0#16
    inOffset := 0#16
    outOffset := 0#16
    flag := flag }

namespace Mailbox

def next (mb : Mailbox) (offset : BitVec 16) : BitVec 16 :=
  if offset + 1#16 ≥ mb.size then 0#16 else offset + 1#16

def put (mb : Mailbox) (value : BitVec 32) : Mailbox :=
  { mb with
    msgPool := update mb.msgPool mb.inOffset.toNat value
    inOffset := mb.next mb.inOffset
    entry := mb.entry + 1#16 }

def get (mb : Mailbox) : BitVec 32 × Mailbox :=
  (mb.msgPool mb.outOffset.toNat,
    { mb with
      outOffset := mb.next mb.outOffset
      entry := mb.entry - 1#16 })

end Mailbox

structure MailboxLists where
  receivers : Head
  senders : Head

/-- What a call on a mailbox leaves: the kernel, the mailbox, whether the call is over, the mail if
    it received one, and the variables `timeout` and `tick_delta` of a call that waits. -/
structure MailboxResult where
  k : Kernel Queues
  mb : Mailbox
  outcome : Outcome
  value : Option (BitVec 32)
  timeout : BitVec 32
  tickDelta : BitVec 32

variable (prioMax : Nat)

variable (k : Kernel Queues)

variable (mb : Mailbox)

/-- The loop of a send, from the check of its condition on. -/
def mbSendLoop (lists : MailboxLists) (t : Tid)
    (value timeout tickDelta tick : BitVec 32) : Option MailboxResult :=
  if mb.entry = mb.size then
    let k := k.setThread t { k.thread t with error := .eok }
    if timeout = 0#32 then
      some ⟨k, mb, .done .efull, none, timeout, tickDelta⟩
    else do
      let k ← waitIn prioMax k lists.senders t mb.flag timeout
      return ⟨k, mb, .blocked, none, timeout, startTick timeout tickDelta tick⟩
  else do
    let mb := mb.put value
    let k ← resumeWaiting prioMax k lists.receivers
    return ⟨k, mb, .done .eok, none, timeout, tickDelta⟩

def rtMbSendWait (lists : MailboxLists) (t : Tid)
    (value timeout tick : BitVec 32) : Option MailboxResult :=
  if mb.entry = mb.size ∧ timeout = 0#32 then
    some ⟨k, mb, .done .efull, none, timeout, 0#32⟩
  else
    mbSendLoop prioMax k mb lists t value timeout 0#32 tick

/-- The rest of a send that has waited. It may have to wait again. -/
def rtMbSendReturn (lists : MailboxLists) (t : Tid)
    (value timeout tickDelta tick : BitVec 32) : Option MailboxResult :=
  if (k.thread t).error ≠ .eok then
    some ⟨k, mb, .done (k.thread t).error, none, timeout, tickDelta⟩
  else
    mbSendLoop prioMax k mb lists t value (remaining timeout tickDelta tick) tickDelta tick

def rtMbSend (lists : MailboxLists) (t : Tid)
    (value tick : BitVec 32) : Option MailboxResult :=
  rtMbSendWait prioMax k mb lists t value 0#32 tick

/-- The loop of a receive, from the check of its condition on. -/
def mbRecvLoop (lists : MailboxLists) (t : Tid)
    (timeout tickDelta tick : BitVec 32) : Option MailboxResult :=
  if mb.entry = 0#16 then
    let k := k.setThread t { k.thread t with error := .eok }
    if timeout = 0#32 then
      some ⟨k.setThread t { k.thread t with error := .etimeout }, mb, .done .etimeout, none,
        timeout, tickDelta⟩
    else do
      let k ← waitIn prioMax k lists.receivers t mb.flag timeout
      return ⟨k, mb, .blocked, none, timeout, startTick timeout tickDelta tick⟩
  else do
    let (value, mb) := mb.get
    let k ← resumeWaiting prioMax k lists.senders
    return ⟨k, mb, .done .eok, some value, timeout, tickDelta⟩

def rtMbRecv (lists : MailboxLists) (t : Tid)
    (timeout tick : BitVec 32) : Option MailboxResult :=
  if mb.entry = 0#16 ∧ timeout = 0#32 then
    some ⟨k, mb, .done .etimeout, none, timeout, 0#32⟩
  else
    mbRecvLoop prioMax k mb lists t timeout 0#32 tick

/-- The rest of a receive that has waited. It may have to wait again. -/
def rtMbRecvReturn (lists : MailboxLists) (t : Tid)
    (timeout tickDelta tick : BitVec 32) : Option MailboxResult :=
  if (k.thread t).error ≠ .eok then
    some ⟨k, mb, .done (k.thread t).error, none, timeout, tickDelta⟩
  else
    mbRecvLoop prioMax k mb lists t (remaining timeout tickDelta tick) tickDelta tick

/-- Reset a mailbox: wake everybody with an error, and drop the mails. -/
def rtMbReset (lists : MailboxLists) :
    Option (Kernel Queues × Mailbox) := do
  let k ← rtIpcListResumeAll prioMax (k.lists lists.receivers).length k lists.receivers
  let k ← rtIpcListResumeAll prioMax (k.lists lists.senders).length k lists.senders
  let mb := { mb with entry := 0#16, inOffset := 0#16, outOffset := 0#16 }
  let k ← rtSchedule prioMax k
  return (k, mb)

/-- The direction of a call, with the mail to send. -/
inductive MailboxOp where
  | send (value : BitVec 32)
  | recv
  deriving DecidableEq, Repr

/-- A call that waits, or has been woken and not run yet, with its local variables. -/
structure MailboxCall where
  mailbox : Nat
  op : MailboxOp
  timeout : BitVec 32
  tickDelta : BitVec 32
  deriving DecidableEq, Repr

/-- The threads, the mailboxes, the clock, and the mails that have been sent and
    received since the last reset of each mailbox. -/
structure MailboxSys where
  k : Kernel Queues
  mailbox : Nat → Mailbox
  tick : BitVec 32
  call : Tid → Option MailboxCall
  sent : Nat → List (BitVec 32)
  received : Nat → List (BitVec 32)

/-- What can happen. A call that does not wait may come from an interrupt. -/
inductive MailboxAction where
  | spawn (t : Tid) (isStatic : Bool) (priority : Nat)
  | tick
  | send (t : Tid) (n : Nat) (value : BitVec 32)
  | sendWait (t : Tid) (n : Nat) (value timeout : BitVec 32)
  | recv (t : Tid) (n : Nat) (timeout : BitVec 32)
  | callReturn (t : Tid)
  | reset (n : Nat)
  | timeout (t : Tid)
  deriving DecidableEq, Repr

namespace MailboxSys

def lists (n : Nat) : MailboxLists := ⟨.suspend (.mailbox n), .sender (.mailbox n)⟩

/-- The list a call waits in. -/
def waitList (n : Nat) : MailboxOp → Head
  | .send _ => (lists n).senders
  | .recv => (lists n).receivers

variable (s : MailboxSys)

/-- Enter a mail that has been sent or received. -/
def record (n : Nat) (op : MailboxOp) (value : Option (BitVec 32)) :
    MailboxSys :=
  match op with
  | .send value => { s with sent := update s.sent n (s.sent n ++ [value]) }
  | .recv => { s with received := update s.received n (s.received n ++ value.toList) }

/-- Enter what a call did up to its next stop. -/
def finish (t : Tid) (n : Nat) (op : MailboxOp) (r : MailboxResult) :
    MailboxSys :=
  let s := { s with k := r.k, mailbox := update s.mailbox n r.mb }
  match r.outcome with
  | .blocked =>
    { s with call := update s.call t (some ⟨n, op, r.timeout, r.tickDelta⟩) }
  | .done e => if e = .eok then s.record n op r.value else s

/-- A thread makes a new call when it is ready and its last call is over. A call that does not wait
    may also come from an interrupt, whichever thread that has interrupted. -/
def MayCall (t : Tid) (timeout : BitVec 32) : Prop :=
  timeout = 0#32 ∨ s.k.state t = .ready ∧ s.call t = none

instance (t : Tid) (timeout : BitVec 32) : Decidable (s.MayCall t timeout) :=
  inferInstanceAs (Decidable (timeout = 0#32 ∨ s.k.state t = .ready ∧ s.call t = none))

def resumeCall (t : Tid) (c : MailboxCall) : Option MailboxResult :=
  match c.op with
  | .send value =>
    rtMbSendReturn prioMax s.k (s.mailbox c.mailbox) (lists c.mailbox) t value c.timeout
      c.tickDelta s.tick
  | .recv =>
    rtMbRecvReturn prioMax s.k (s.mailbox c.mailbox) (lists c.mailbox) t c.timeout c.tickDelta
      s.tick

end MailboxSys

open MailboxSys

def mailboxStep (s : MailboxSys) : MailboxAction → Option MailboxSys
  | .spawn t isStatic priority => do
    let k ← spawn prioMax s.k t isStatic priority
    return { s with k := k }
  | .tick => some { s with tick := s.tick + 1#32 }
  | .send t n value => do
    let r ← rtMbSend prioMax s.k (s.mailbox n) (lists n) t value s.tick
    return s.finish t n (.send value) r
  | .sendWait t n value timeout => do
    rtAssert (s.MayCall t timeout)
    let r ← rtMbSendWait prioMax s.k (s.mailbox n) (lists n) t value timeout s.tick
    return s.finish t n (.send value) r
  | .recv t n timeout => do
    rtAssert (s.MayCall t timeout)
    let r ← rtMbRecv prioMax s.k (s.mailbox n) (lists n) t timeout s.tick
    return s.finish t n .recv r
  | .callReturn t => do
    rtAssert (s.k.state t = .ready)
    let c ← s.call t
    let r ← s.resumeCall prioMax t c
    return { s with call := update s.call t none }.finish t c.mailbox c.op r
  | .reset n => do
    let (k, mb) ← rtMbReset prioMax s.k (s.mailbox n) (lists n)
    return { s with
      k := k
      mailbox := update s.mailbox n mb
      sent := update s.sent n []
      received := update s.received n [] }
  | .timeout t => do
    let k ← rtTimerExpire prioMax s.k t
    return { s with k := k }

def mailboxSysInit (msgPool : Nat → Nat → BitVec 32) (size : Nat → BitVec 32)
    (flag : Nat → IpcFlag) (tick : BitVec 32) : MailboxSys :=
  { k := rtSystemSchedulerInit prioMax queuesInit
    mailbox := fun n => rtMbInit (msgPool n) (size n) (flag n)
    tick := tick
    call := fun _ => none
    sent := fun _ => []
    received := fun _ => [] }

end Honeycomb
