import Honeycomb.Core.Kernel

/-!
# The Resources of a Thread

One thread of `pthread.c`, from `pthread_create` on, with the books of what was allocated for it
and what was freed. It ends by a return or by `pthread_exit`, which releases the semaphore before
it detaches the thread object. It is joined or detached at most once, by another thread. The idle
thread calls the cleanup function of a thread that it finds in the defunct list, and then releases
the stack and the control block of a thread whose object is not static.

The object is static until `rt_object_detach` clears its type, which a return does not do. After
that the assertions of `rt_thread_detach` fail. A run ends where freed memory would be read.
-/

namespace Honeycomb

/-- The pthread data, the semaphore for the join, the stack and the thread control block. -/
inductive PthRes where
  | data
  | sem
  | stack
  | tcb
  deriving DecidableEq, Repr

/-- The thread that joins or detaches: it waits for the semaphore in `pthread_join`, is about to
    call `pthread_detach` there, or has returned. -/
inductive PthCaller where
  | none
  | waiting
  | taken
  | done
  deriving DecidableEq, Repr

structure Pthread where
  /-- `attr.detachstate`. -/
  detached : Bool
  /-- Whether `attr.stack_base` is set. -/
  userStack : Bool
  /-- The value of `joinable_sem`, if it is not null. -/
  sem : Option Nat
  /-- Whether the state is `RT_THREAD_CLOSE`. -/
  closed : Bool
  /-- Whether there is a cleanup function. -/
  cleanup : Bool
  defunct : Bool
  /-- Whether the object has its type, with the static flag. -/
  isStatic : Bool
  /-- The idle thread is about to release the stack and the control block. -/
  reaping : Bool
  /-- An assertion has failed in `pthread_detach`, which does not return. -/
  failed : Bool
  /-- `pthread_exit` has released the semaphore. -/
  exiting : Bool
  caller : PthCaller
  allocated : List PthRes
  freed : List PthRes
  deriving DecidableEq, Repr

def pthResources (userStack sem : Bool) : List PthRes :=
  [.data, .tcb] ++ (if userStack then [] else [.stack]) ++ if sem then [.sem] else []

/-- The argument says which allocations succeed. -/
def pthreadCreate (detached userStack : Bool) (mem : PthRes → Bool) : Pthread :=
  let stack := if userStack then [] else [.stack]
  let failed := Pthread.mk detached userStack none true false false false false false false .done
  if mem .data = false then failed [] []
  else if userStack = false ∧ mem .stack = false then failed [.data] [.data]
  else if mem .tcb = false then failed (.data :: stack) (.data :: stack)
  else if detached = false ∧ mem .sem = false then
    -- The test of the stack is the wrong way round, and the control block is kept.
    failed (.data :: .tcb :: stack) (.data :: if userStack then [.stack] else [])
  else
    ⟨detached, userStack, if detached then none else some 0, false, true, false, true, false, false,
      false, .none, pthResources userStack (!detached), []⟩

variable (s : Pthread)

def Pthread.rtThreadExit : Pthread :=
  if s.isStatic ∧ s.cleanup = false then { s with closed := true, isStatic := false }
  else { s with closed := true, defunct := true }

/-- A thread in the defunct list is taken off it first. -/
def Pthread.rtThreadDetach : Pthread :=
  { s with closed := true, isStatic := false, defunct := s.cleanup }

def pthreadDetach : Pthread :=
  if s.detached then s
  else if s.closed then
    if s.isStatic then
      { s.rtThreadDetach with freed := pthResources s.userStack s.sem.isSome ++ s.freed }
    else
      -- the semaphore is deleted before the call that does not return
      { s with failed := true, freed := (if s.sem.isSome then [.sem] else []) ++ s.freed }
  else { s with detached := true, sem := none, freed := .sem :: s.freed }

def pthreadCleanup : Pthread :=
  if s.detached then pthreadDetach { s with cleanup := false }
  else { s with cleanup := false, sem := s.sem.map (· + 1) }

/-- A thread that is found in the defunct list. -/
def idleExcute : Pthread :=
  let s := { s with defunct := false }
  let s := if s.cleanup then pthreadCleanup s else s
  { s with reaping := !s.isStatic }

/-- The caller of `pthread_detach` goes on if it returns. -/
def callDetach : Pthread :=
  let s' := pthreadDetach s
  if s'.failed then s' else { s' with caller := .done }

inductive PthAction where
  | ret
  | exit
  | exitDetach
  | idle
  | release
  | detach
  | join
  | joinTake
  | joinDetach

def pthStep : PthAction → Option Pthread
  | .ret => do
    rtAssert (s.closed = false ∧ s.exiting = false)
    pure s.rtThreadExit
  | .exit => do
    rtAssert (s.closed = false ∧ s.exiting = false)
    pure { s with exiting := true, sem := if s.detached then s.sem else s.sem.map (· + 1) }
  | .exitDetach => do
    rtAssert (s.exiting = true)
    pure { s.rtThreadDetach with exiting := false }
  | .idle => do
    rtAssert (s.defunct = true ∧ .tcb ∉ s.freed)
    pure (idleExcute s)
  | .release => do
    rtAssert (s.reaping = true ∧ .tcb ∉ s.freed)
    pure { s with reaping := false, freed := .stack :: .tcb :: s.freed }
  | .detach => do
    rtAssert (s.caller = .none ∧ s.detached = false ∧ .tcb ∉ s.freed)
    pure (callDetach s)
  | .join => do
    rtAssert (s.caller = .none ∧ s.detached = false ∧ .tcb ∉ s.freed)
    pure { s with caller := .waiting }
  | .joinTake => do
    rtAssert (s.caller = .waiting ∧ 0 < s.sem.getD 0)
    pure { s with caller := .taken, sem := s.sem.map (· - 1) }
  | .joinDetach => do
    rtAssert (s.caller = .taken ∧ s.failed = false ∧ .tcb ∉ s.freed)
    pure (callDetach s)

end Honeycomb
