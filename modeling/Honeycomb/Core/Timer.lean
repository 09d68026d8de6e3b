import Honeycomb.Core.Kernel
import Honeycomb.Lib.Run
import Mathlib.Data.Fintype.Card

/-!
# Timers

The timers of `timer.c`. Those that run are on a list in the order of their
deadlines. The list is a skip list of `level` rows, each a ring of its own: a timer
has one link node per row, the last row has every timer that runs, and the rows
above it are there to find a place in it faster. All rows are linked in place, and
the step from a node to the node of the same timer in the row below, which the code
takes with pointer arithmetic, is `below`.

How many rows a timer is on is decided by a counter of all starts, `randomNr`. Ticks
are 32-bit words that wrap around, so all deadlines are compared by differences.

Each call is made as a whole. A check of the timers calls the callbacks of those that
are due, and these call the timer functions again, on any timer. What the callbacks
do is an input of the check: one list of calls for each callback, in the order in
which they are called. A check that does not end has no next state.

Soft timers have a list of their own, with the same functions, and a check of their own,
which a thread makes and which goes through the list. The hooks and the names of the
timers are not modelled. `History` is not a part of the system: it has
what the properties below are about and the code has no variable for.
-/

namespace Honeycomb.Timers

open Function

def rtTickMax : BitVec 32 := 0xffffffff#32

/-- The fields of a `struct rt_timer` that the code reads, with its flag bits apart.
    Memory that is not a timer is not registered. -/
structure Timer where
  registered : Bool
  isStatic : Bool
  activated : Bool
  periodic : Bool
  initTick : BitVec 32
  timeoutTick : BitVec 32
  deriving DecidableEq, Repr

/-- A link node: the head of a row, or the node of a timer in a row. -/
abbrev Node (T : Type) := Nat ⊕ (T × Nat)

/-- What happened so far: how many starts there were, which of them was the last of
    each timer and for what time it was, the tick of the last check, which timers were
    stopped after they were last started, and whether one of those has fired. -/
structure History (T : Type) where
  starts : Nat
  startNo : T → Nat
  startTime : T → BitVec 32
  lastCheck : BitVec 32
  stopped : T → Bool
  late : Bool

/-- The variables of the code, and the history. -/
structure State (T : Type) where
  timer : T → Timer
  links : Links (Node T)
  tick : BitVec 32
  randomNr : BitVec 32
  history : History T

variable {T : Type} [DecidableEq T]

namespace State

def set (s : State T) (t : T) (f : Timer → Timer) : State T :=
  { s with timer := update s.timer t (f (s.timer t)) }

/-- Note that a timer was stopped or started by a call. -/
def note (s : State T) (t : T) (stopped : Bool) : State T :=
  { s with history :=
      { s.history with stopped := update s.history.stopped t stopped } }

end State

/-- The node of the same timer, or the head, in the row below. -/
def below : Node T → Node T
  | .inl lvl => .inl (lvl + 1)
  | .inr (t, lvl) => .inr (t, lvl + 1)

/-- The timer whose node in a row this is. Another node is no timer's there. -/
def entry (lvl : Nat) : Node T → Option T
  | .inl _ => none
  | .inr (t, i) => if i = lvl then some t else none

section Code

variable (level : Nat) (mask : BitVec 32)

def rtTimerRemove (m : Links (Node T)) (t : T) : Links (Node T) :=
  (List.range level).foldl (fun m i => m.remove (.inr (t, i))) m

variable (s : State T)

/-- Make a timer of memory that is none. -/
def rtTimerInit (t : T) (isStatic periodic : Bool) (time : BitVec 32) :
    Option (State T) := do
  rtAssert ((s.timer t).registered = false)
  let s := s.set t fun _ =>
    { registered := true, isStatic, activated := false, periodic, initTick := time,
      timeoutTick := 0#32 }
  return { s with links := (List.range level).foldl (fun m i => m.init (.inr (t, i))) s.links }

/-- Take a timer off the list and out of the object system. The flag stays as it is. -/
def rtTimerRelease (t : T) : State T :=
  { s with links := rtTimerRemove level s.links t }.set t fun b =>
    { b with registered := false, isStatic := false }

def rtTimerDetach (t : T) : Option (State T) := do
  rtAssert ((s.timer t).registered = true)
  rtAssert ((s.timer t).isStatic = true)
  return rtTimerRelease level s t

def rtTimerDelete (t : T) : Option (State T) := do
  rtAssert ((s.timer t).registered = true)
  rtAssert ((s.timer t).isStatic = false)
  return rtTimerRelease level s t

/-- Whether the search for the place of a deadline goes on behind a timer. -/
def passes (timeoutTick : BitVec 32) (t : T) : Bool :=
  let d := (s.timer t).timeoutTick - timeoutTick
  decide (d = 0#32) || !decide (d < rtTickMax / 2#32)

/-- Search a row from one of its nodes on for the node behind which a deadline is to
    be. The search is cut off after more nodes than there are timers. -/
def walkRow (s : State T) (timeoutTick : BitVec 32) (lvl : Nat) : Nat → Node T → Option (Node T)
  | 0, _ => none
  | fuel + 1, rowHead =>
    if rowHead = s.links.prev (.inl lvl) then some rowHead
    else do
      let t ← entry lvl (s.links.next rowHead)
      if passes s timeoutTick t then walkRow s timeoutTick lvl fuel (s.links.next rowHead)
      else some rowHead

/-- Search the given number of rows, each from the place found in the row above. -/
def rowHeads [Fintype T] (s : State T) (timeoutTick : BitVec 32) :
    Nat → Nat → Node T → Option (List (Node T))
  | 0, _, _ => some []
  | rows + 1, lvl, rowHead => do
    let rowHead ← walkRow s timeoutTick lvl (Fintype.card T + 1) rowHead
    let lower ← rowHeads s timeoutTick rows (lvl + 1) (below rowHead)
    return rowHead :: lower

/-- Put a timer on the rows above the last, from below, as long as the bits of the
    counter say so. -/
def insertUpper (rowHead : List (Node T)) (t : T) : Nat → BitVec 32 → Links (Node T) →
    Links (Node T)
  | 0, _, m => m
  | lvl + 1, tstNr, m =>
    if tstNr &&& mask = 0#32 then
      insertUpper rowHead t lvl (tstNr >>> ((mask + 1#32) >>> 1))
        (m.insertAfter (rowHead.getD lvl (.inl lvl)) (.inr (t, lvl)))
    else m

/-- Put a timer on the rows behind the nodes found for it. -/
def insertRows (rowHead : List (Node T)) (t : T) (tstNr : BitVec 32) (m : Links (Node T)) :
    Links (Node T) :=
  insertUpper mask rowHead t (level - 1) tstNr
    (m.insertAfter (rowHead.getD (level - 1) (.inl (level - 1))) (.inr (t, level - 1)))

variable [Fintype T]

def rtTimerStart (t : T) : Option (State T) := do
  rtAssert ((s.timer t).registered = true)
  let s := { s with links := rtTimerRemove level s.links t }.set t fun b =>
    { b with activated := false }
  rtAssert ((s.timer t).initTick < rtTickMax / 2#32)
  let s := s.set t fun b => { b with timeoutTick := s.tick + b.initTick }
  let rowHead ← rowHeads s (s.timer t).timeoutTick level 0 (.inl 0)
  let randomNr := s.randomNr + 1#32
  let s := { s with
    randomNr
    links := insertRows level mask rowHead t randomNr s.links
    history := { s.history with
      starts := s.history.starts + 1
      startNo := update s.history.startNo t s.history.starts
      startTime := update s.history.startTime t (s.timer t).initTick } }
  return s.set t fun b => { b with activated := true }

omit [Fintype T] in
def rtTimerStop (t : T) : Option (State T × RtErr) := do
  rtAssert ((s.timer t).registered = true)
  if (s.timer t).activated = false then
    return (s, .error)
  let s := { s with links := rtTimerRemove level s.links t }
  return (s.set t fun b => { b with activated := false }, .eok)

/-- The commands of `rt_timer_control`. That which reads the time changes nothing. -/
inductive Cmd where
  | getTime
  | setTime (time : BitVec 32)
  | setOneshot
  | setPeriodic
  deriving DecidableEq, Repr

omit [Fintype T] in
def rtTimerControl (t : T) (cmd : Cmd) : Option (State T) := do
  rtAssert ((s.timer t).registered = true)
  return match cmd with
    | .getTime => s
    | .setTime time => s.set t fun b => { b with initTick := time }
    | .setOneshot => s.set t fun b => { b with periodic := false }
    | .setPeriodic => s.set t fun b => { b with periodic := true }

inductive Call (T : Type) where
  | init (t : T) (isStatic periodic : Bool) (time : BitVec 32)
  | start (t : T)
  | stop (t : T)
  | control (t : T) (cmd : Cmd)
  | detach (t : T)
  | delete (t : T)

/-- Make a call, and note a start or a stop. A stop is noted whatever it returns. -/
def call : Call T → Option (State T)
  | .init t isStatic periodic time => rtTimerInit level s t isStatic periodic time
  | .start t => (rtTimerStart level mask s t).map fun s => s.note t false
  | .stop t => (rtTimerStop level s t).map fun r => r.1.note t true
  | .control t cmd => rtTimerControl s t cmd
  | .detach t => rtTimerDetach level s t
  | .delete t => rtTimerDelete level s t

def callAll : List (Call T) → State T → Option (State T)
  | [], s => some s
  | c :: cs, s => (call level mask s c).bind (callAll cs)

omit [Fintype T] in
/-- The first timer of the list if it is due. -/
def firstDue : Option (Option T) :=
  if s.links.isempty (.inl (level - 1)) then some none
  else do
    let t ← entry (level - 1) (s.links.next (.inl (level - 1)))
    return if s.tick - (s.timer t).timeoutTick < rtTickMax / 2#32 then some t else none

omit [Fintype T] in
/-- Take a timer that is due off the list. -/
def expire (t : T) : State T :=
  { s with
    links := rtTimerRemove level s.links t
    history := { s.history with late := s.history.late || s.history.stopped t } }

/-- What follows the callback of a timer: one that is periodic and was not stopped is
    started again. -/
def afterCallback (t : T) : Option (State T) :=
  if (s.timer t).periodic && (s.timer t).activated then
    rtTimerStart level mask (s.set t fun b => { b with activated := false }) t
  else some (s.set t fun b => { b with activated := false })

/-- Call the callbacks of the timers that are due, each with the calls it makes. -/
def rtTimerCheck : List (List (Call T)) → State T → Option (State T)
  | [], s => do
    match ← firstDue level s with
    | none => return s
    | some _ => none
  | callback :: callbacks, s => do
    match ← firstDue level s with
    | none => return s
    | some t =>
      let s ← callAll level mask callback (expire level s t)
      let s ← afterCallback level mask s t
      rtTimerCheck callbacks s

omit [Fintype T] in
/-- The first deadline, or the largest tick if no timer runs. -/
def rtTimerNextTimeoutTick : Option (BitVec 32) :=
  if s.links.isempty (.inl (level - 1)) then some rtTickMax
  else do
    let t ← entry (level - 1) (s.links.next (.inl (level - 1)))
    return (s.timer t).timeoutTick

end Code

/-- The system when it starts: there are no timers yet. The tick and the counter are arbitrary. -/
def timerInit (tick randomNr : BitVec 32) : State T where
  timer := fun _ =>
    { registered := false, isStatic := false, activated := false, periodic := false,
      initTick := 0#32, timeoutTick := 0#32 }
  links := { next := id, prev := id }
  tick
  randomNr
  history :=
    { starts := 0, startNo := fun _ => 0, startTime := fun _ => 0#32, lastCheck := tick,
      stopped := fun _ => false, late := false }

/-- What can happen next: a call from a thread, a tick of the clock, or a check. -/
inductive Action (T : Type) where
  | call (c : Call T)
  | tick
  | check (callbacks : List (List (Call T)))

def timerStep [Fintype T] (level : Nat) (mask : BitVec 32) (s : State T) :
    Action T → Option (State T)
  | .call c => call level mask s c
  | .tick => some { s with tick := s.tick + 1#32 }
  | .check callbacks => (rtTimerCheck level mask callbacks s).map fun s =>
    { s with history := { s.history with lastCheck := s.tick } }

/-- A check of the soft timers: the node it has come to, and the timers it has fired. -/
structure Pass (T : Type) where
  state : State T
  n : Node T
  fired : List T

section Soft

variable (level : Nat) (mask : BitVec 32)

omit [DecidableEq T] in
def softStart (s : State T) : Pass T :=
  ⟨s, s.links.next (.inl (level - 1)), []⟩

variable [Fintype T]

/-- What happens while a callback runs and the scheduler is not locked: a call or a tick. -/
def softCall (s : State T) : Option (Call T) → Option (State T)
  | some c => call level mask s c
  | none => some { s with tick := s.tick + 1#32 }

/-- A timer that is due fires. The node behind its own is kept while its callback runs, and
    the clock is read again after that. The check ends where there is no such timer. -/
def softTurn (p : Pass T) (callback : List (Option (Call T))) : Option (Pass T) := do
  let t ← entry (level - 1) p.n
  rtAssert (p.state.tick - (p.state.timer t).timeoutTick < rtTickMax / 2#32)
  let s ← Run.exec (softCall level mask) (expire level p.state t) callback
  let s ← afterCallback level mask s t
  return ⟨s, p.state.links.next p.n, t :: p.fired⟩

end Soft

end Honeycomb.Timers
