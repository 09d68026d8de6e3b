import Honeycomb.Core.DataQueue

/-!
# Sending by DMA

A thread that writes to a serial device in DMA mode pushes its buffer to a data queue, tests
whether a transfer is going on, and starts one with its own buffer if not. The interrupt at the end
of a transfer pops a buffer from the queue and starts the transfer of the next one, without popping
it.

Between the push, the test and the start interrupts are enabled, so other threads and the interrupt
may come in between. A step is what runs with interrupts disabled, or the interrupt. A push may
wait, without a limit, and is cut as in the data queue. A transfer that was started gives one
interrupt when it is done. The history has the buffers in the order in which transfers were
started, next to what the data queue keeps of its own.

The interrupt handler is no thread, but its pop is one of the calls of the data queue; it has the
number 0 there, and the threads have the others.
-/

namespace Honeycomb

open Function

/-- Where a thread is: not writing, in the push, between push and test, or between test and
    start. -/
inductive TxPhase where
  | idle
  | pushing (item : DataItem)
  | pushed (item : DataItem)
  | starting (item : DataItem)
  deriving DecidableEq, Repr

/-- The transmit structure with its queue, the threads, the number of transfers that were started
    and are not done, and the buffers whose transfer was started. -/
structure TxDma where
  dq : DqSys
  activated : Bool
  phase : Nat → TxPhase
  inProgress : Nat
  sent : List DataItem

/-- The number of the interrupt handler. -/
def isrContext : Nat := 0

def waitingForever : Int := -1

/-- A thread has gone through the loop of its push, and `dq` is what it left: the push has
    returned, or the thread waits. -/
def txPush (s : TxDma) (t : Nat) (item : DataItem) (dq : DqSys) : TxDma :=
  let phase :=
    match dq.call t with
    | .done .eok _ => .pushed item
    | .done .etimeout _ => .idle
    | _ => .pushing item
  { s with dq := dq, phase := update s.phase t phase }

def isrTxDmaDone (s : TxDma) : TxDma :=
  let dq := rtDataQueuePop s.dq isrContext 0
  match rtDataQueuePeak dq.q with
  | some item =>
    -- transmit next data node
    { s with dq := dq, activated := true, inProgress := s.inProgress - 1 + 1
             sent := s.sent ++ [item] }
  | none => { s with dq := dq, activated := false, inProgress := s.inProgress - 1 }

/-- A thread writes a buffer, goes on with its push when it was resumed, tests whether a transfer
    is going on, or starts one; or a transfer is done. -/
inductive TxAction where
  | write (t : Nat) (item : DataItem)
  | run (t : Nat)
  | test (t : Nat)
  | start (t : Nat)
  | dmaDone
  deriving DecidableEq, Repr

def txStep (s : TxDma) : TxAction → Option TxDma
  | .write t item =>
    match s.phase t with
    | .idle =>
      if t = isrContext then none
      else (dqStep s.dq (.push t item waitingForever)).map (txPush s t item)
    | _ => none
  | .run t =>
    match s.phase t with
    | .pushing item => (dqStep s.dq (.run t)).map (txPush s t item)
    | _ => none
  | .test t =>
    match s.phase t with
    | .pushed item =>
      if s.activated then some { s with phase := update s.phase t .idle }
      else some { s with activated := true
                         phase := update s.phase t (.starting item) }
    | _ => none
  | .start t =>
    match s.phase t with
    | .starting item =>
      some { s with inProgress := s.inProgress + 1, sent := s.sent ++ [item]
                    phase := update s.phase t .idle }
    | _ => none
  | .dmaDone => if s.inProgress = 0 then none else some (isrTxDmaDone s)

/-- An open device: a queue for 8 buffers with low water mark 4, and no thread writing. -/
def txOpened (queue : Nat → DataItem) : TxDma :=
  { dq := dqInit 8 4 queue, activated := false, phase := fun _ => .idle, inProgress := 0,
    sent := [] }

end Honeycomb
