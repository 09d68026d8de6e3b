import Honeycomb.Core.Semaphore

/-!
# The Work Queue

The work queue of `workqueue.c`. A section with interrupts disabled is one step, and so is
`rt_workqueue_cancel_all_work`, which locks the scheduler. The worker tests the list, suspends
itself and takes the first item in three steps, and a submission that finds the worker without an
item resumes it in a second step.

The ring of `work_list` is modelled by the list of its items. Its first node is the head of the
ring when there is no item, and then the worker takes the queue itself for an item. The callers of
`rt_workqueue_cancel_work_sync` wait for a semaphore that `_workqueue_work_completion` releases,
which is modelled apart from the list.
-/

namespace Honeycomb

/-- A pointer to a work item, or to the head of the list as if it was in one. -/
inductive WorkPtr where
  | head
  | item (work : Nat)
  deriving DecidableEq, Repr

structure WorkQueue where
  workList : List Nat
  workCurrent : Option WorkPtr

variable (q : WorkQueue)

/-- Also returned is whether the worker is to be resumed, with interrupts enabled again. -/
def rtWorkqueueDowork (work : Nat) : WorkQueue × RtErr × Bool :=
  if q.workCurrent = some (.item work) then (q, .ebusy, false)
  else ({ q with workList := q.workList.erase work ++ [work] }, .eok, q.workCurrent.isNone)

/-- The source repeats `rt_workqueue_dowork`: an item is not put first. -/
def rtWorkqueueCriticalWork (work : Nat) : WorkQueue × RtErr × Bool :=
  rtWorkqueueDowork q work

def rtWorkqueueCancelWork (work : Nat) : WorkQueue × RtErr :=
  if q.workCurrent = some (.item work) then (q, .ebusy)
  else ({ q with workList := q.workList.erase work }, .eok)

/-- Each node is removed, in the order in which the list has them. -/
def rtWorkqueueCancelAllWork : WorkQueue :=
  { q with workList := q.workList.foldl List.erase q.workList }

/-- What the worker does with the first node of the list. -/
def takeWork : WorkQueue × WorkPtr :=
  match q.workList with
  | [] => ({ q with workCurrent := some .head }, .head)
  | work :: rest => (⟨rest, some (.item work)⟩, .item work)

/-- What the worker does next in `_workqueue_thread_entry`. -/
inductive WorkerPc where
  | test
  | suspend
  | take
  | run
  deriving DecidableEq, Repr

/-- A submission or a cancellation that succeeded, or a run of an item. -/
inductive WorkEvent where
  | submit (work : Nat)
  | cancel (work : Nat)
  | cancelAll
  | run (work : WorkPtr)
  deriving DecidableEq, Repr

structure WqSys where
  q : WorkQueue
  pc : WorkerPc
  /-- Whether the state of the worker is `RT_THREAD_SUSPEND`. -/
  suspended : Bool
  /-- The threads that are about to resume the worker. -/
  resuming : Nat → Bool
  /-- The events, the last one first. -/
  hist : List WorkEvent

def wqInit : WqSys := ⟨⟨[], none⟩, .test, false, fun _ => false, []⟩

inductive WqAction where
  | worker
  | submit (thread : Nat) (critical : Bool) (work : Nat)
  | resume (thread : Nat)
  | cancel (work : Nat)
  | cancelAll

/-- A step of the worker, which is at `take` while it is suspended. -/
def workerStep (s : WqSys) : WqSys :=
  match s.pc with
  | .test => { s with pc := if s.q.workList = [] then .suspend else .take }
  | .suspend => { s with pc := .take, suspended := true }
  | .take => { s with q := (takeWork s.q).1, pc := .run, hist := .run (takeWork s.q).2 :: s.hist }
  | .run => { s with q := { s.q with workCurrent := none }, pc := .test }

def wqStep (s : WqSys) : WqAction → Option WqSys
  | .worker => do
    rtAssert (s.suspended = false)
    pure (workerStep s)
  | .submit t critical work => do
    rtAssert (s.resuming t = false)
    let (q, err, resume) :=
      if critical then rtWorkqueueCriticalWork s.q work else rtWorkqueueDowork s.q work
    pure { s with
      q := q
      resuming := Function.update s.resuming t resume
      hist := if err = .eok then .submit work :: s.hist else s.hist }
  | .resume t => do
    rtAssert (s.resuming t = true)
    pure { s with suspended := false, resuming := Function.update s.resuming t false }
  | .cancel work =>
    let (q, err) := rtWorkqueueCancelWork s.q work
    some { s with q := q, hist := if err = .eok then .cancel work :: s.hist else s.hist }
  | .cancelAll =>
    some { s with q := rtWorkqueueCancelAllWork s.q, hist := .cancelAll :: s.hist }

/-- The loop of `_workqueue_work_completion`, for a number of rounds at most. -/
def completionLoop (prioMax : Nat) (list : Head) (worker : Tid) :
    Nat → Kernel Queues → Semaphore → Option (Kernel Queues × Semaphore × RtErr)
  | 0, _, _ => none
  | rounds + 1, k, sem => do
    let (k, sem, result) ← rtSemTrytake prioMax k sem list worker
    if result = .done .etimeout then do
      let (k, sem) ← rtSemRelease prioMax k sem list
      completionLoop prioMax list worker rounds k sem
    else if result = .done .eok then some (k, sem, .eok)
    else some (k, sem, .error)

/-- `_workqueue_work_completion`, for a number of rounds at most. -/
def workqueueWorkCompletion (prioMax : Nat) (list : Head) (worker : Tid) (rounds : Nat)
    (k : Kernel Queues) (sem : Semaphore) : Option (Kernel Queues × Semaphore × RtErr) := do
  let (k, sem, result) ← completionLoop prioMax list worker rounds (rtEnterCritical k) sem
  let k ← rtExitCritical prioMax k
  some (k, sem, result)

end Honeycomb
