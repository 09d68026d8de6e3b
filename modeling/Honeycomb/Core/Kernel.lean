import Honeycomb.Lib.Ring

/-!
# Kernel Data

The control blocks and global variables of the thread scheduler, and the list
operations it is written in terms of.

Every thread has one list node, `tlist`, and everything the scheduler knows
about where a thread is comes from the list that node is on: the ready list of
some priority, the wait list of some kernel object, or the list of dead threads
that the idle thread will reclaim. `Head` names those lists.

The code is the same whether a list is a ring of pointers or a sequence of
threads, so the kernel state is written over an arbitrary type of lists with
the handful of operations the code uses, `ThreadLists`. There are two
instances. `Links (Head ⊕ Tid)` is what the machine has in memory. `Queues`
assigns to each head the threads on its list in order, and is what the wait
lists of the kernel objects are reasoned about with.

A failed assertion stops the system, so it is the absence of a next state.
-/

namespace Honeycomb

open Function

/-- The error codes of `rt_err_t`. The code returns them negated. -/
inductive RtErr where
  | eok | error | etimeout | efull | eempty | enomem | enosys | ebusy | eio | eintr | einval
  deriving DecidableEq, Repr

/-- Round up to a multiple of the alignment, which is four bytes. -/
def rtAlign (size : BitVec 32) : BitVec 32 :=
  (size + 4#32 - 1#32) &&& ~~~(4#32 - 1#32)

def rtAlignDown (size : BitVec 32) : BitVec 32 :=
  size &&& ~~~(4#32 - 1#32)

/-- A runtime assertion. The handler loops forever, so a system in which it
    fails takes no further step. -/
def rtAssert (p : Prop) [Decidable p] : Option Unit :=
  if p then some () else none

@[simp]
theorem rtAssert_eq_some (p : Prop) [Decidable p] (u : Unit) : rtAssert p = some u ↔ p := by
  unfold rtAssert
  split_ifs with hp
  · exact ⟨fun _ => hp, fun _ => rfl⟩
  · exact ⟨fun h => (nomatch h), fun h => absurd h hp⟩

/-- A computation in two parts has a result exactly when both parts do. -/
theorem assert_iff (p : Prop) [Decidable p] {q : Unit → Prop} :
    (∃ u, rtAssert p = some u ∧ q u) ↔ p ∧ q () :=
  ⟨fun ⟨u, h, hq⟩ => ⟨(rtAssert_eq_some p u).mp h, hq⟩,
    fun ⟨hp, hq⟩ => ⟨(), (rtAssert_eq_some p ()).mpr hp, hq⟩⟩

theorem bind_iff {α β : Type} (x : Option α) (f : α → Option β) (b : β) :
    (x >>= f) = some b ↔ ∃ a, x = some a ∧ f a = some b :=
  Option.bind_eq_some_iff

theorem some_bind {α β : Type} (a : α) (f : α → Option β) : (some a >>= f) = f a :=
  rfl

theorem pure_iff {α : Type} (a b : α) : (pure a : Option α) = some b ↔ a = b :=
  Option.some_inj

/-- A thread, named by the address of its control block. A block that is set
    up again after its thread was closed counts as a new thread. -/
abbrev Tid := Nat

/-- The low four bits of `stat`. -/
inductive ThreadState where
  | init | ready | suspend | running | close
  deriving DecidableEq, Repr

/-- The status byte: the state proper, and the signal flags above it. -/
structure Stat where
  state : ThreadState
  signal : BitVec 4
  deriving DecidableEq, Repr

/-- The part of the built-in thread timer that the scheduler sees: whether it is registered as a
    timer object, whether it is in the timer list, its activation flag and the time it is set to. -/
structure ThreadTimer where
  registered : Bool
  linked : Bool
  activated : Bool
  initTick : BitVec 32
  deriving DecidableEq, Repr

/-- A thread control block. `created` says that the block has been set up at
    all, and `isStatic` is the static flag of the object type. -/
structure Thread where
  created : Bool
  isStatic : Bool
  stat : Stat
  currentPriority : Nat
  initPriority : Nat
  number : Nat
  highMask : BitVec 8
  numberMask : BitVec 32
  error : RtErr
  eventSet : BitVec 32
  eventInfo : BitVec 8
  threadTimer : ThreadTimer
  cleanup : Bool
  deriving DecidableEq, Repr

/-- Memory that no thread has been set up in. -/
def Thread.blank : Thread :=
  { created := false, isStatic := false, stat := ⟨.init, 0⟩, currentPriority := 0,
    initPriority := 0, number := 0, highMask := 0, numberMask := 0, error := .eok,
    eventSet := 0, eventInfo := 0, threadTimer := ⟨false, false, false, 0⟩, cleanup := false }

/-- Change the state, keeping the signal flags. -/
def Thread.setState (th : Thread) (st : ThreadState) : Thread :=
  { th with stat := { th.stat with state := st } }

/-- The kernel objects that have wait lists, by kind and address. -/
inductive Obj where
  | sem (n : Nat)
  | mutex (n : Nat)
  | event (n : Nat)
  | mailbox (n : Nat)
  | messageQueue (n : Nat)
  deriving DecidableEq, Repr

/-- The lists a thread's node can be on. A mailbox has a second list, for the
    threads that wait to send. A memory pool is no object of inter-thread
    communication, and its wait list has no order of its own. -/
inductive Head where
  | ready (prio : Nat)
  | defunct
  | suspend (o : Obj)
  | sender (o : Obj)
  | pool (n : Nat)
  deriving DecidableEq, Repr

/-- The list operations the scheduler uses on `tlist` nodes. `alone` compares
    the two links of a node; the head is the list the node is on. -/
class ThreadLists (Q : Type) where
  init : Q → Tid → Q
  insertBefore : Q → Head → Tid → Q
  insertAfter : Q → Head → Tid → Q
  remove : Q → Tid → Q
  isempty : Q → Head → Bool
  first : Q → Head → Option Tid
  alone : Q → Head → Tid → Bool

instance : ThreadLists (Links (Head ⊕ Tid)) where
  init m t := m.init (.inr t)
  insertBefore m h t := m.insertBefore (.inl h) (.inr t)
  insertAfter m h t := m.insertAfter (.inl h) (.inr t)
  remove m t := m.remove (.inr t)
  isempty m h := m.isempty (.inl h)
  first m h := m.first h
  alone m _ t := m.next (.inr t) = m.prev (.inr t)

/-- The threads on each list, in order. -/
abbrev Queues := Head → List Tid

instance : ThreadLists Queues where
  init q _ := q
  insertBefore q h t := update q h (q h ++ [t])
  insertAfter q h t := update q h (t :: q h)
  remove q t := fun h => (q h).filter (· ≠ t)
  isempty q h := (q h).isEmpty
  first q h := (q h).head?
  alone q h t := q h = [t]

/-- The global variables of the scheduler. `readyTable` is only used when
    there are more than 32 priorities. -/
structure Kernel (Q : Type) where
  thread : Tid → Thread
  lists : Q
  readyPriorityGroup : BitVec 32
  readyTable : Nat → BitVec 8
  currentThread : Option Tid
  currentPriority : Nat
  lockNest : BitVec 16

namespace Kernel

variable {Q : Type}

def setThread (k : Kernel Q) (t : Tid) (th : Thread) : Kernel Q :=
  { k with thread := update k.thread t th }

def state (k : Kernel Q) (t : Tid) : ThreadState :=
  (k.thread t).stat.state

variable (k : Kernel Q) (t : Tid) (th : Thread)

@[simp]
theorem setThread_thread : (k.setThread t th).thread = update k.thread t th := rfl

@[simp]
theorem setThread_lists : (k.setThread t th).lists = k.lists := rfl

@[simp]
theorem setThread_readyPriorityGroup :
    (k.setThread t th).readyPriorityGroup = k.readyPriorityGroup := rfl

@[simp]
theorem setThread_readyTable : (k.setThread t th).readyTable = k.readyTable := rfl

end Kernel

theorem setThread_self {Q : Type} (k : Kernel Q) (t : Tid) (th : Thread) :
    (k.setThread t th).thread t = th := by
  rw [Kernel.setThread_thread, update_self]

/-- What a new value at one place keeps is the same at every place. -/
theorem field_update {ι α β : Type} [DecidableEq ι] (f : α → β) {g g' : ι → α} {i : ι} {a : α}
    (h : g' = update g i a) (hf : f a = f (g i)) (j : ι) : f (g' j) = f (g j) := by
  rw [h, Function.apply_update (fun _ => f), hf, update_eq_self]

/-- One entry of a table is replaced. What is true of the new entry and of the others is
    true of all of them. -/
theorem forall_update_some {ι α : Type} [DecidableEq ι] {g : ι → Option α} {i : ι} {x : Option α}
    {P : ι → α → Prop} (hself : ∀ a, x = some a → P i a)
    (hother : ∀ j, j ≠ i → ∀ a, g j = some a → P j a) (j : ι) (a : α)
    (h : update g i x j = some a) : P j a := by
  by_cases hj : j = i
  · rw [hj, update_self] at h
    exact hj ▸ hself a h
  · rw [update_of_ne hj] at h
    exact hother j hj a h

end Honeycomb
