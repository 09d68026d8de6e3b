import Honeycomb.Core.Kernel

/-!
# Read-Write Locks

`pthread_rwlock.c` builds a lock for many readers or one writer out of a mutex and two condition
variables. All calls look at `attr` first, without the mutex, and set up a lock that is not
initialised. Then they take the mutex. A call that cannot have the lock waits on a condition
variable, which releases the mutex and takes it again before it returns.

The timed calls do the same as the ones without a time, apart from how long a wait may last, so a
thread asks for the lock, tries to get it, or gives it back. A wait may return at any time, with
or without an error, and it may fail before it has released the mutex. What signals and broadcasts
do is therefore included. A thread reads and writes the fields of the lock in steps of its own.

The system keeps books of the locks that are held, with an entry for each read lock.
-/

namespace Honeycomb

/-- What a lock is held for. -/
inductive RwKind where
  | rd
  | wr
  deriving DecidableEq, Repr

/-- The calls: `rdlock`, `wrlock` and their timed forms, `tryrdlock`, `trywrlock`, and `unlock`. -/
inductive RwOp where
  | lock (kind : RwKind)
  | trylock (kind : RwKind)
  | unlock
  deriving DecidableEq, Repr

/-- What `pthread_rwlock_init` writes next: `attr`, the mutex with the condition variables, or the
    counts. -/
inductive RwPart where
  | attr
  | mutex
  | counts
  deriving DecidableEq, Repr

/-- Where a thread is: outside, in `pthread_rwlock_init`, in front of the mutex, in front of the
    test of a call, behind a test that lets it have the lock, in a wait, which may have released the
    mutex, or at the end of a call. -/
inductive RwPhase where
  | idle
  | init (part : RwPart) (op : RwOp)
  | called (op : RwOp)
  | entered (op : RwOp)
  | granted (kind : RwKind)
  | waiting (kind : RwKind) (released : Bool)
  | leaving
  deriving DecidableEq, Repr

/-- The fields of the lock, the owner of its mutex, the threads and the books. -/
structure RwSys where
  attr : Int
  refcount : Int
  nwaitreaders : Int
  nwaitwriters : Int
  owner : Option Nat
  phase : Nat → RwPhase
  readers : List Nat
  writers : List Nat

namespace RwSys

variable (s : RwSys)

def goto (t : Nat) (p : RwPhase) : RwSys :=
  { s with phase := Function.update s.phase t p }

/-- The test of the loops and of the calls that only try. -/
def blocked : RwKind → Bool
  | .rd => decide (s.refcount < 0 ∨ 0 < s.nwaitwriters)
  | .wr => decide (s.refcount ≠ 0)

/-- Count a thread into a wait, or out of it. -/
def count (d : Int) : RwKind → RwSys
  | .rd => { s with nwaitreaders := s.nwaitreaders + d }
  | .wr => { s with nwaitwriters := s.nwaitwriters + d }

def take (t : Nat) : RwKind → RwSys
  | .rd => { s with refcount := s.refcount + 1, readers := t :: s.readers }
  | .wr => { s with refcount := -1, writers := t :: s.writers }

/-- `pthread_mutex_unlock`, which fails for a thread that does not own the mutex. -/
def unlock (t : Nat) : RwSys :=
  { s with owner := if s.owner = some t then none else s.owner }

/-- `unlock`, with the lock that is given back taken out of the books. -/
def drop (t : Nat) : RwSys :=
  { s with
    refcount := if 0 < s.refcount then s.refcount - 1 else if s.refcount = -1 then 0 else s.refcount
    readers := s.readers.erase t
    writers := s.writers.erase t }

end RwSys

/-- A thread calls, sets up a part of the lock, takes the mutex, looks at the lock, releases the
    mutex in a wait, returns from a wait, takes the lock, or returns. -/
inductive RwAction where
  | call (t : Nat) (op : RwOp)
  | init (t : Nat)
  | enter (t : Nat)
  | test (t : Nat)
  | release (t : Nat)
  | wake (t : Nat) (ok : Bool)
  | act (t : Nat)
  | leave (t : Nat)
  deriving DecidableEq, Repr

def rwStep (s : RwSys) : RwAction → Option RwSys
  | .call t op => do
    rtAssert (s.phase t = .idle)
    some (s.goto t (if s.attr = -1 then .init .attr op else .called op))
  | .init t =>
    match s.phase t with
    | .init .attr op => some ({ s with attr := 0 }.goto t (.init .mutex op))
    | .init .mutex op => some ({ s with owner := none }.goto t (.init .counts op))
    | .init .counts op =>
      some ({ s with refcount := 0, nwaitreaders := 0, nwaitwriters := 0 }.goto t (.called op))
    | _ => none
  | .enter t =>
    match s.phase t with
    | .called op => do
      rtAssert (s.owner = none)
      some ({ s with owner := some t }.goto t (.entered op))
    | _ => none
  | .test t =>
    match s.phase t with
    | .entered (.lock kind) =>
      if s.blocked kind then some ((s.count 1 kind).goto t (.waiting kind false))
      else some (s.goto t (.granted kind))
    | .entered (.trylock kind) =>
      some (s.goto t (if s.blocked kind then .leaving else .granted kind))
    | .entered .unlock => do
      rtAssert (t ∈ s.readers ∨ t ∈ s.writers)
      some ((s.drop t).goto t .leaving)
    | _ => none
  | .release t =>
    match s.phase t with
    | .waiting kind false => do
      rtAssert (s.owner = some t)
      some ((s.unlock t).goto t (.waiting kind true))
    | _ => none
  | .wake t ok =>
    match s.phase t with
    | .waiting kind released => do
      -- the mutex is taken again, and a wait that has not released it has failed
      rtAssert (if released then s.owner = none else ok = false)
      some (({ s with owner := if released then some t else s.owner }.count (-1) kind).goto t
        (if ok then .entered (.lock kind) else .leaving))
    | _ => none
  | .act t =>
    match s.phase t with
    | .granted kind => some ((s.take t kind).goto t .leaving)
    | _ => none
  | .leave t => do
    rtAssert (s.phase t = .leaving)
    some ((s.unlock t).goto t .idle)

/-- A lock as `PTHREAD_RWLOCK_INITIALIZER` leaves it. -/
def rwStatic : RwSys :=
  { attr := -1, refcount := 0, nwaitreaders := 0, nwaitwriters := 0, owner := none
    phase := fun _ => .idle, readers := [], writers := [] }

/-- A lock after `pthread_rwlock_init`. -/
def rwInit : RwSys :=
  { rwStatic with attr := 0 }

end Honeycomb
