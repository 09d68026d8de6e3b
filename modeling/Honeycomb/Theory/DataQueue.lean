import Honeycomb.Core.DataQueue
import Honeycomb.Lib.Run

/-!
# Data Queues Until a Counter Comes Round

The items in a queue are those from the one counter up to the other. While neither counter has
come round past the other, their difference is the number of items and the slots of the items
are different. When only the counter of pushes has come round, the difference is negative and no
queue is found full; and where the size does not divide `2 ^ 16`, the slots jump at that place.

`PushCond` asks of every push what can go wrong there: that a full queue does not have its
counters on different sides, and that the slot of the next item is not in use. Then the queue is
a bounded queue. Pops need nothing. The condition holds as long as no counter has come round, so
at least up to the 65535th push. A queue with room for one item shows what happens after that.

## Theorems

* `data_queue_fifo`: Where the condition is met, the queue is a bounded queue.
* `data_queue_overrun`: A push to a full queue that is accepted.
-/

namespace Honeycomb

open Function List Run
open Option (bind_some some)

section Items

variable {q : DataQueue} (item : DataItem)

def dqLength (q : DataQueue) : Nat :=
  dqIndex (q.putIndex + 2 ^ 16 - q.getIndex)

def dqQueued (q : DataQueue) : List DataItem :=
  (List.range (dqLength q)).map fun i => q.queue (dqIndex (q.getIndex + i) % q.size)

/-- A full queue has its counters on the same side, and in a queue that is not full the slot of
    the next item is not in use. -/
def PushCond (q : DataQueue) : Prop :=
  (dqLength q = q.size → q.getIndex ≤ q.putIndex) ∧
    (dqLength q < q.size →
      ∀ i < dqLength q, dqIndex (q.getIndex + i) % q.size ≠ q.putIndex % q.size)

instance decidablePushCond (q : DataQueue) : Decidable (PushCond q) :=
  inferInstanceAs (Decidable (_ ∧ _))

/-- The counters have 16 bits, and there are no more items than slots. -/
structure DqShape (q : DataQueue) : Prop where
  pos : 0 < q.size
  small : q.size < 2 ^ 16
  get : q.getIndex < 2 ^ 16
  put : q.putIndex < 2 ^ 16
  bound : dqLength q ≤ q.size

theorem length_dqQueued (q : DataQueue) : (dqQueued q).length = dqLength q := by
  unfold dqQueued
  rw [length_map, length_range]

/-- The number of items is the difference of the counters, or it is too small by a round. -/
theorem dqLength_cases (hshape : DqShape q) :
    (q.getIndex ≤ q.putIndex ∧ dqLength q = q.putIndex - q.getIndex) ∨
      (q.putIndex < q.getIndex ∧ dqLength q = q.putIndex + 2 ^ 16 - q.getIndex) := by
  have hput := hshape.put
  unfold dqLength dqIndex
  omega

theorem dqFull_iff (hshape : DqShape q) (hcond : PushCond q) : dqFull q ↔ dqLength q = q.size := by
  unfold dqFull
  rcases dqLength_cases hshape with ⟨hle, hlen⟩ | ⟨hlt, _⟩
  · omega
  -- The difference is negative, and the condition excludes that the queue is full.
  refine ⟨fun hfull => by omega, fun hfull => ?_⟩
  have := hcond.1 hfull
  omega

theorem dqEmpty_iff (hshape : DqShape q) : dqEmpty q ↔ dqLength q = 0 := by
  have hget := hshape.get
  unfold dqEmpty
  rcases dqLength_cases hshape with ⟨hle, hlen⟩ | ⟨hlt, hlen⟩
  · omega
  · omega

def dqPut (q : DataQueue) (item : DataItem) : DataQueue :=
  { q with queue := update q.queue (q.putIndex % q.size) item
           putIndex := dqIndex (q.putIndex + 1) }

def dqGet (q : DataQueue) : DataQueue :=
  { q with getIndex := dqIndex (q.getIndex + 1) }

theorem dqLength_get (hdata : dqLength q ≠ 0) : dqLength (dqGet q) + 1 = dqLength q := by
  unfold dqLength dqGet dqIndex at *
  dsimp only
  omega

variable (hshape : DqShape q)
include hshape

theorem dqLength_put (hroom : dqLength q < q.size) : dqLength (dqPut q item) = dqLength q + 1 := by
  have hsmall := hshape.small
  have hget := hshape.get
  unfold dqLength dqPut dqIndex at *
  dsimp only
  omega

theorem dqShape_put (hroom : dqLength q < q.size) : DqShape (dqPut q item) := by
  refine { hshape with put := Nat.mod_lt _ (by decide), bound := ?_ }
  rw [dqLength_put item hshape hroom]
  exact hroom

theorem dqShape_get (hdata : dqLength q ≠ 0) : DqShape (dqGet q) := by
  refine { hshape with get := Nat.mod_lt _ (by decide), bound := ?_ }
  have hlen := dqLength_get hdata
  have hbound : dqLength q ≤ (dqGet q).size := hshape.bound
  omega

theorem dqQueued_push (hcond : PushCond q) (hroom : dqLength q < q.size) :
    dqQueued (dqPut q item) = dqQueued q ++ [item] := by
  have hget := hshape.get
  have hput := hshape.put
  have hlast : dqIndex (q.getIndex + dqLength q) = q.putIndex := by
    unfold dqLength dqIndex
    omega
  unfold dqQueued
  rw [dqLength_put item hshape hroom, range_succ, map_append, map_singleton]
  have hitem : (dqPut q item).queue (dqIndex (q.getIndex + dqLength q) % q.size) = item := by
    rw [hlast]
    exact update_self _ item q.queue
  refine congrArg₂ _ (map_congr_left fun i hi => ?_) (congrArg (fun x => [x]) hitem)
  exact update_of_ne (hcond.2 hroom i (mem_range.mp hi)) item q.queue

theorem dqQueued_pop (hdata : dqLength q ≠ 0) :
    dqQueued q = q.queue (q.getIndex % q.size) :: dqQueued (dqGet q) := by
  have hget := hshape.get
  have hfirst : dqIndex (q.getIndex + 0) = q.getIndex := Nat.mod_eq_of_lt (by omega)
  unfold dqQueued
  rw [← dqLength_get hdata, range_succ_eq_map, map_cons, map_map, hfirst]
  refine congrArg _ (map_congr_left fun i _ => ?_)
  have hnext : dqIndex (q.getIndex + (i + 1)) = dqIndex (dqIndex (q.getIndex + 1) + i) := by
    unfold dqIndex
    omega
  exact congrArg (fun j => q.queue (j % q.size)) hnext

end Items

section System

variable {s : DqSys} (s' : DqSys) (t : Nat) (item : DataItem) (timeout : Int) {call : Nat → DqCall}

def dqPending (s : DqSys) : List DataItem :=
  s.pushed.drop s.popped.length

/-- The last call of the thread has returned the result. -/
def Returns (s : DqSys) (t : Nat) (result : DqResult) : Prop :=
  ∃ event, s.call t = .done result event

/-- A push is only made where the condition holds. -/
def DqCond (s : DqSys) : DqAction → Prop
  | .push _ _ _ => PushCond s.q
  | .run t =>
    match s.call t with
    | .push _ _ (some .eok) => PushCond s.q
    | _ => True
  | _ => True

instance decidableDqCond (s : DqSys) (a : DqAction) : Decidable (DqCond s a) :=
  match a with
  | .push _ _ _ => inferInstanceAs (Decidable (PushCond s.q))
  | .run t =>
    match h : s.call t with
    | .push _ _ (some .eok) => decidable_of_iff (PushCond s.q) (by simp only [DqCond, h])
    | .push _ _ (some .etimeout) => isTrue (by simp only [DqCond, h])
    | .push _ _ none => isTrue (by simp only [DqCond, h])
    | .done _ _ => isTrue (by simp only [DqCond, h])
    | .pop _ _ => isTrue (by simp only [DqCond, h])
  | .pop _ _ => isTrue trivial
  | .expire _ => isTrue trivial

/-- What was popped is what was pushed first. There are no more items than slots, and the item
    that is shown is the one that a pop takes. -/
structure DqOk (s : DqSys) : Prop where
  fifo : s.popped <+: s.pushed
  bound : (dqPending s).length ≤ s.q.size
  peak : rtDataQueuePeak s.q = (dqPending s).head?
  next : ∀ t timeout item, rtDataQueuePeak s.q = some item →
    (rtDataQueuePop s t timeout).popped = s.popped ++ [item]

/-- A call that does not wait fails if the queue is full or empty and only then. A push that
    returns `RT_EOK` has pushed its item, and no other push has. -/
def DqStepOk (s : DqSys) (a : DqAction) : Prop :=
  ∀ s', dqStep s a = some s' →
    match a with
    | .push t item timeout =>
      (timeout = 0 → (Returns s' t .etimeout ↔ (dqPending s).length = s.q.size)) ∧
        (Returns s' t .eok ↔ s'.pushed = s.pushed ++ [item])
    | .pop t timeout =>
      (timeout = 0 → (Returns s' t .etimeout ↔ dqPending s = [])) ∧
        (Returns s' t .eok ↔ ∃ item, s'.popped = s.popped ++ [item])
    | .run t =>
      (∀ item timeout error, s.call t = .push item timeout error →
        (Returns s' t .eok ↔ s'.pushed = s.pushed ++ [item])) ∧
      ∀ timeout error, s.call t = .pop timeout error →
        (Returns s' t .eok ↔ ∃ item, s'.popped = s.popped ++ [item])
    | .expire _ => s'.pushed = s.pushed ∧ s'.popped = s.popped

/-- The invariant: the history is what was popped and what is in the queue. -/
structure DqInv (s : DqSys) : Prop where
  shape : DqShape s.q
  history : s.pushed = s.popped ++ dqQueued s.q

theorem returns_done {result result' : DqResult} {event : Option DqEvent}
    (h : s.call = update call t (.done result event)) :
    Returns s t result' ↔ result = result' := by
  unfold Returns
  rw [h, update_self]
  refine ⟨fun hret => ?_, fun heq => ⟨event, by rw [heq]⟩⟩
  rcases hret with ⟨event', hret⟩
  exact (DqCall.done.inj hret).1

theorem returns_ok {event : Option DqEvent} (h : s.call = update call t (.done .eok event)) :
    Returns s t .eok ∧ ¬ Returns s t .etimeout := by
  rw [returns_done t h, returns_done t h]
  exact ⟨rfl, DqResult.noConfusion⟩

theorem popped_push (s : DqSys) : (rtDataQueuePush s t item timeout).popped = s.popped := by
  unfold rtDataQueuePush
  dsimp only
  split
  · split <;> rfl
  · split <;> rfl

variable (hinv : DqInv s)
include hinv

theorem dqPending_eq : dqPending s = dqQueued s.q := by
  unfold dqPending
  rw [hinv.history, drop_left]

theorem dqInv_lists {push pop : List Nat} :
    DqInv { s with q := { s.q with suspendedPushList := push, suspendedPopList := pop }
                   call := call } :=
  ⟨⟨hinv.shape.pos, hinv.shape.small, hinv.shape.get, hinv.shape.put, hinv.shape.bound⟩,
    hinv.history⟩

/-- A call that finds the queue full or empty fails, or it waits. -/
theorem turned_away {push pop : List Nat} {c : DqCall}
    (hwait : ∀ result event, c ≠ .done result event) (hs' : (if timeout = 0 then
      { s with call := update s.call t (.done .etimeout none) } else
      { s with q := { s.q with suspendedPushList := push, suspendedPopList := pop }
               call := update s.call t c }) = s') :
    DqInv s' ∧ s'.pushed = s.pushed ∧ s'.popped = s.popped ∧ ¬ Returns s' t .eok ∧
      (timeout = 0 → Returns s' t .etimeout) := by
  rw [← hs']
  split_ifs with hzero
  · refine ⟨dqInv_lists hinv, rfl, rfl, ?_, fun _ => ?_⟩
    · rw [returns_done t rfl]
      exact DqResult.noConfusion
    · rw [returns_done t rfl]
  · refine ⟨dqInv_lists hinv, rfl, rfl, ?_, fun h => absurd h hzero⟩
    rintro ⟨event, hret⟩
    exact hwait _ _ ((update_self _ _ _).symm.trans hret)

theorem push_room (hroom : dqLength s.q < s.q.size) (hcond : PushCond s.q) :
    DqInv (rtDataQueuePush s t item timeout) ∧
      (rtDataQueuePush s t item timeout).pushed = s.pushed ++ [item] ∧
      Returns (rtDataQueuePush s t item timeout) t .eok ∧
      ¬ Returns (rtDataQueuePush s t item timeout) t .etimeout := by
  have hfull : ¬ dqFull s.q := by
    rw [dqFull_iff hinv.shape hcond]
    omega
  -- The queue with the item, whichever thread is resumed.
  have hput : DqInv { s with q := dqPut s.q item, pushed := s.pushed ++ [item] } := by
    refine ⟨dqShape_put item hinv.shape hroom, ?_⟩
    dsimp only
    rw [dqQueued_push item hinv.shape hcond hroom, hinv.history, append_assoc]
  unfold rtDataQueuePush
  dsimp only
  rw [if_neg hfull]
  cases hlist : s.q.suspendedPopList with
  | nil => exact ⟨dqInv_lists hput, rfl, returns_ok t rfl⟩
  | cons u us => exact ⟨dqInv_lists hput, rfl, returns_ok t rfl⟩

theorem pop_data (hempty : ¬ dqEmpty s.q) :
    DqInv (rtDataQueuePop s t timeout) ∧
      (rtDataQueuePop s t timeout).popped = s.popped ++ [s.q.queue (s.q.getIndex % s.q.size)] ∧
      Returns (rtDataQueuePop s t timeout) t .eok ∧
      ¬ Returns (rtDataQueuePop s t timeout) t .etimeout := by
  have hdata : dqLength s.q ≠ 0 := fun hzero => hempty ((dqEmpty_iff hinv.shape).mpr hzero)
  have hget : DqInv { s with
      q := dqGet s.q
      popped := s.popped ++ [s.q.queue (s.q.getIndex % s.q.size)] } := by
    refine ⟨dqShape_get hinv.shape hdata, ?_⟩
    dsimp only
    rw [hinv.history, dqQueued_pop hinv.shape hdata, append_assoc, singleton_append]
  unfold rtDataQueuePop
  dsimp only
  rw [if_neg hempty]
  split
  · cases hlist : s.q.suspendedPushList with
    | nil => exact ⟨dqInv_lists hget, rfl, returns_ok t rfl⟩
    | cons u us => exact ⟨dqInv_lists hget, rfl, returns_ok t rfl⟩
  · exact ⟨dqInv_lists hget, rfl, returns_ok t rfl⟩

theorem push_spec (hcond : PushCond s.q) :
    DqInv (rtDataQueuePush s t item timeout) ∧
      (timeout = 0 → (Returns (rtDataQueuePush s t item timeout) t .etimeout ↔
        (dqPending s).length = s.q.size)) ∧
      (Returns (rtDataQueuePush s t item timeout) t .eok ↔
        (rtDataQueuePush s t item timeout).pushed = s.pushed ++ [item]) := by
  rw [dqPending_eq hinv, length_dqQueued]
  by_cases hlen : dqLength s.q = s.q.size
  · have hfull := (dqFull_iff hinv.shape hcond).mpr hlen
    rcases turned_away (rtDataQueuePush s t item timeout) t timeout
      (c := .push item timeout none) hinv (fun _ _ => nofun) (if_pos hfull).symm with
      ⟨hinv', hsame, -, hnot, hfail⟩
    refine ⟨hinv', fun hzero => ⟨fun _ => hlen, fun _ => hfail hzero⟩, fun h => absurd h hnot,
      fun h => ?_⟩
    rw [hsame, self_eq_append_right] at h
    exact absurd h (cons_ne_nil item [])
  · have hbound := hinv.shape.bound
    rcases push_room t item timeout hinv (by omega) hcond with ⟨hinv', hput, hret, hnot⟩
    exact ⟨hinv', fun _ => ⟨fun h => absurd h hnot, fun h => absurd h hlen⟩, fun _ => hput,
      fun _ => hret⟩

theorem pop_spec :
    DqInv (rtDataQueuePop s t timeout) ∧
      (timeout = 0 → (Returns (rtDataQueuePop s t timeout) t .etimeout ↔ dqPending s = [])) ∧
      (Returns (rtDataQueuePop s t timeout) t .eok ↔
        ∃ item, (rtDataQueuePop s t timeout).popped = s.popped ++ [item]) := by
  have hnil : dqPending s = [] ↔ dqEmpty s.q := by
    rw [dqPending_eq hinv, dqEmpty_iff hinv.shape, ← length_dqQueued, length_eq_zero_iff]
  rw [hnil]
  by_cases hempty : dqEmpty s.q
  · rcases turned_away (rtDataQueuePop s t timeout) t timeout (c := .pop timeout none)
      hinv (fun _ _ => nofun) (if_pos hempty).symm with ⟨hinv', -, hsame, hnot, hfail⟩
    refine ⟨hinv', fun hzero => ⟨fun _ => hempty, fun _ => hfail hzero⟩, fun h => absurd h hnot,
      fun h => ?_⟩
    rcases h with ⟨item, h⟩
    rw [hsame, self_eq_append_right] at h
    exact absurd h (cons_ne_nil item [])
  · rcases pop_data t timeout hinv hempty with ⟨hinv', hget, hret, hnot⟩
    exact ⟨hinv', fun _ => ⟨fun h => absurd h hnot, fun h => absurd h hempty⟩,
      fun _ => ⟨_, hget⟩, fun _ => hret⟩

omit hinv

/-- What a step can be: a thread goes through the loop of a push or a pop, at the start of a call
    or when it was resumed, a call ends because its time has run out, or a wait ends. -/
theorem dqStep_cases {a : DqAction} (hstep : dqStep s a = some s') :
    (∃ t item timeout, (a = .push t item timeout ∨
        (a = .run t ∧ s.call t = .push item timeout (some .eok))) ∧
      s' = rtDataQueuePush s t item timeout) ∨
    (∃ t timeout, (a = .pop t timeout ∨ (a = .run t ∧ s.call t = .pop timeout (some .eok))) ∧
      s' = rtDataQueuePop s t timeout) ∨
    (∃ t, a = .run t ∧ s' = { s with call := update s.call t (.done .etimeout none) }) ∨
    (∃ t push pop call, a = .expire t ∧
      s' = { s with q := { s.q with suspendedPushList := push, suspendedPopList := pop }
                    call := call }) := by
  cases a with simp only [dqStep] at hstep
  | push t item timeout =>
    split at hstep
    · exact .inl ⟨t, item, timeout, .inl rfl, (some.inj hstep).symm⟩
    · exact nomatch hstep
  | pop t timeout =>
    split at hstep
    · exact .inr (.inl ⟨t, timeout, .inl rfl, (some.inj hstep).symm⟩)
    · exact nomatch hstep
  | run t =>
    split at hstep
    · next item timeout hcall =>
        exact .inl ⟨t, item, timeout, .inr ⟨rfl, hcall⟩, (some.inj hstep).symm⟩
    · next timeout hcall =>
        exact .inr (.inl ⟨t, timeout, .inr ⟨rfl, hcall⟩, (some.inj hstep).symm⟩)
    · exact .inr (.inr (.inl ⟨t, rfl, (some.inj hstep).symm⟩))
    · exact .inr (.inr (.inl ⟨t, rfl, (some.inj hstep).symm⟩))
    · exact nomatch hstep
  | expire t =>
    split at hstep
    all_goals first
      | exact absurd hstep (by simp only [reduceCtorEq, not_false_eq_true])
      | skip
    all_goals
      split at hstep
      · exact .inr (.inr (.inr ⟨t, _, _, _, rfl, (some.inj hstep).symm⟩))
      · exact nomatch hstep

theorem dqInv_step {a : DqAction} (hinv : DqInv s) (hcond : DqCond s a)
    (hstep : dqStep s a = some s') : DqStepOk s a ∧ DqInv s' := by
  unfold DqStepOk
  rw [hstep]
  rcases dqStep_cases s' hstep with ⟨t, item, timeout, ha, hs'⟩ | ⟨t, timeout, ha, hs'⟩ |
    ⟨t, ha, hs'⟩ | ⟨t, push, pop, call, ha, hs'⟩
  · have hpush : PushCond s.q := by
      rcases ha with ha | ⟨ha, hcall⟩
      · rw [ha] at hcond
        exact hcond
      · rw [ha] at hcond
        simp only [DqCond, hcall] at hcond
        exact hcond
    rcases push_spec t item timeout hinv hpush with ⟨hinv', hfail, hok⟩
    rw [← hs'] at hinv' hfail hok
    refine ⟨fun u hu => ?_, hinv'⟩
    rw [← some.inj hu]
    rcases ha with ha | ⟨ha, hcall⟩
    · rw [ha]
      exact ⟨hfail, hok⟩
    rw [ha]
    refine ⟨fun item' timeout' error hcall' => ?_, fun timeout' error hcall' => ?_⟩
    · rw [hcall] at hcall'
      rw [← (DqCall.push.inj hcall').1]
      exact hok
    · rw [hcall] at hcall'
      exact DqCall.noConfusion hcall'
  · rcases pop_spec t timeout hinv with ⟨hinv', hfail, hok⟩
    rw [← hs'] at hinv' hfail hok
    refine ⟨fun u hu => ?_, hinv'⟩
    rw [← some.inj hu]
    rcases ha with ha | ⟨ha, hcall⟩
    · rw [ha]
      exact ⟨hfail, hok⟩
    rw [ha]
    refine ⟨fun item' timeout' error hcall' => ?_, fun _ _ _ => hok⟩
    rw [hcall] at hcall'
    exact DqCall.noConfusion hcall'
  · -- The call returns an error, and nothing was pushed or popped.
    have hnot : ¬ Returns s' t .eok := by
      rw [hs', returns_done t rfl]
      exact DqResult.noConfusion
    have hsame : s'.pushed = s.pushed ∧ s'.popped = s.popped := by
      rw [hs']
      exact ⟨rfl, rfl⟩
    refine ⟨fun u hu => ?_, ?_⟩
    · rw [← some.inj hu, ha]
      refine ⟨fun item timeout error _ => ⟨fun h => absurd h hnot, fun h => ?_⟩,
        fun timeout error _ => ⟨fun h => absurd h hnot, fun h => ?_⟩⟩
      · rw [hsame.1, self_eq_append_right] at h
        exact absurd h (cons_ne_nil item [])
      · rcases h with ⟨item, h⟩
        rw [hsame.2, self_eq_append_right] at h
        exact absurd h (cons_ne_nil item [])
    · rw [hs']
      exact dqInv_lists hinv
  · refine ⟨fun u hu => ?_, ?_⟩
    · rw [← some.inj hu, ha, hs']
      exact ⟨rfl, rfl⟩
    · rw [hs']
      exact dqInv_lists hinv

theorem dqOk_of_inv (hinv : DqInv s) : DqOk s := by
  have hpeak : ∀ item, rtDataQueuePeak s.q = some item →
      ¬ dqEmpty s.q ∧ s.q.queue (s.q.getIndex % s.q.size) = item := by
    intro item hitem
    unfold rtDataQueuePeak at hitem
    by_cases hempty : dqEmpty s.q
    · rw [if_pos hempty] at hitem
      exact nomatch hitem
    · rw [if_neg hempty, some.injEq] at hitem
      exact ⟨hempty, hitem⟩
  refine ⟨⟨dqQueued s.q, hinv.history.symm⟩, ?_, ?_, fun t timeout item hitem => ?_⟩
  · rw [dqPending_eq hinv, length_dqQueued]
    exact hinv.shape.bound
  · rw [dqPending_eq hinv]
    unfold rtDataQueuePeak
    by_cases hempty : dqEmpty s.q
    · have hnil : dqQueued s.q = [] := by
        rw [← length_eq_zero_iff, length_dqQueued]
        exact (dqEmpty_iff hinv.shape).mp hempty
      rw [if_pos hempty, hnil, head?_nil]
    · have hdata : dqLength s.q ≠ 0 :=
        fun hzero => hempty ((dqEmpty_iff hinv.shape).mpr hzero)
      rw [if_neg hempty, dqQueued_pop hinv.shape hdata, head?_cons]
  · rcases hpeak item hitem with ⟨hempty, rfl⟩
    exact (pop_data t timeout hinv hempty).2.1

theorem dqInv_init (size lwm : Nat) (queue : Nat → DataItem) (hpos : 0 < size)
    (hsmall : size < 2 ^ 16) : DqInv (dqInit size lwm queue) := by
  have hlen : dqLength (dqInit size lwm queue).q = 0 := by
    simp only [dqLength, dqInit, rtDataQueueInit, dqIndex, Nat.zero_add, Nat.sub_zero, Nat.mod_self]
  refine ⟨⟨hpos, hsmall, Nat.two_pow_pos 16, Nat.two_pow_pos 16, ?_⟩, ?_⟩
  · rw [hlen]
    exact Nat.zero_le _
  · unfold dqQueued
    rw [hlen]
    rfl

/-- For every size, every low water mark and whatever is in the array: in a run whose pushes meet
    the condition, what is popped is what was pushed, in order and once, and every call that does
    not wait fails exactly when the queue is full or empty. -/
theorem data_queue_fifo (size lwm : Nat) (queue : Nat → DataItem) (hpos : 0 < size)
    (hsmall : size < 2 ^ 16) (as : List DqAction)
    (hcond : Along dqStep DqCond (dqInit size lwm queue) as) :
    Always dqStep DqOk (dqInit size lwm queue) as ∧
      Along dqStep DqStepOk (dqInit size lwm queue) as := by
  have hinit := dqInv_init size lwm queue hpos hsmall
  refine ⟨always_of_inv DqInv dqOk_of_inv ?_ hinit hcond,
    along_of_inv DqInv (dqInv_step _) hinit hcond⟩
  intro s a s' hinv hc hstep
  exact (dqInv_step s' hinv hc hstep).2

/-- A queue for two items: the third push waits, the fourth fails, and after a pop the one that
    waits goes on. -/
theorem data_queue_fifo_two :
    (Always dqStep DqOk (dqInit 2 1 fun _ => ⟨0, 0⟩)
        [.push 0 ⟨10, 1⟩ 0, .push 0 ⟨20, 2⟩ 0, .push 1 ⟨30, 3⟩ (-1), .push 0 ⟨40, 4⟩ 0, .pop 2 0,
          .run 1, .pop 2 5] ∧
      Along dqStep DqStepOk (dqInit 2 1 fun _ => ⟨0, 0⟩)
        [.push 0 ⟨10, 1⟩ 0, .push 0 ⟨20, 2⟩ 0, .push 1 ⟨30, 3⟩ (-1), .push 0 ⟨40, 4⟩ 0, .pop 2 0,
          .run 1, .pop 2 5]) ∧
    (exec dqStep (dqInit 2 1 fun _ => ⟨0, 0⟩)
        [.push 0 ⟨10, 1⟩ 0, .push 0 ⟨20, 2⟩ 0, .push 1 ⟨30, 3⟩ (-1), .push 0 ⟨40, 4⟩ 0, .pop 2 0,
          .run 1, .pop 2 5]).map (fun s => (s.pushed, s.popped, s.call 0, s.call 1)) =
      some ([⟨10, 1⟩, ⟨20, 2⟩, ⟨30, 3⟩], [⟨10, 1⟩, ⟨20, 2⟩], .done .etimeout none,
        .done .eok (some .push)) := by
  refine ⟨data_queue_fifo 2 1 _ (by decide) (by decide) _ ?_, by decide +kernel⟩
  exact of_decide_eq_true (by decide +kernel)

end System

section Overrun

variable (a b : DataItem)

/-- Push an item and pop it, over and over. -/
def dqRounds (a : DataItem) : Nat → List DqAction
  | 0 => []
  | n + 1 => dqRounds a n ++ [.push 0 a 0, .pop 0 0]

/-- A queue for one item, with the counters, and threads that are in no call. -/
def dqOne (get put : Nat) (queue : Nat → DataItem) (event : Option DqEvent)
    (pushed popped : List DataItem) : DqSys :=
  { q := { size := 1, lwm := 0, getIndex := get, putIndex := put, queue := queue,
           suspendedPushList := [], suspendedPopList := [] }
    call := update (fun _ => .done .eok none) 0 (.done .eok event)
    pushed := pushed, popped := popped }

variable (get put : Nat) {queue : Nat → DataItem} (event : Option DqEvent)
  {pushed popped : List DataItem}

variable {b get put event} in
theorem dqOne_push (hfull : (put : Int) - (get : Int) ≠ 1) :
    dqStep (dqOne get put queue event pushed popped) (.push 0 b 0) =
      some (dqOne get (dqIndex (put + 1)) (update queue 0 b) (some .push)
        (pushed ++ [b]) popped) := by
  have hroom : ¬ dqFull (dqOne get put queue event pushed popped).q := hfull
  have hcall : (dqOne get put queue event pushed popped).call 0 = .done .eok event := by
    simp only [dqOne, update_self]
  simp only [dqStep, hcall, rtDataQueuePush, if_neg hroom]
  simp only [dqOne, Nat.mod_one, update_idem]

theorem dqOne_pop (hempty : get ≠ put) :
    dqStep (dqOne get put queue event pushed popped) (.pop 0 0) =
      some (dqOne (dqIndex (get + 1)) put queue
        (some (if (put : Int) - (dqIndex (get + 1) : Int) ≤ 0 then .lwm else .pop)) pushed
        (popped ++ [queue 0])) := by
  have hdata : ¬ dqEmpty (dqOne get put queue event pushed popped).q := hempty
  have hcall : (dqOne get put queue event pushed popped).call 0 = .done .eok event := by
    simp only [dqOne, update_self]
  simp only [dqStep, hcall, rtDataQueuePop, if_neg hdata]
  simp only [dqOne, Nat.mod_one, update_idem]
  by_cases hlwm : (put : Int) - (dqIndex (get + 1) : Int) ≤ 0
  · rw [if_pos hlwm]
    exact congrArg some (if_pos hlwm)
  · rw [if_neg hlwm]
    exact congrArg some (if_neg hlwm)

/-- As long as the counters do not come round, nothing is lost. -/
theorem dqRounds_exec (n : Nat) (hn : n < 2 ^ 16) :
    ∃ event, exec dqStep (dqOne 0 0 (fun _ => a) none [] []) (dqRounds a n) =
      some (dqOne n n (fun _ => a) event (List.replicate n a) (List.replicate n a)) := by
  induction n with
  | zero => exact ⟨none, rfl⟩
  | succ n ih =>
    rcases ih (by omega) with ⟨event, hrun⟩
    have hnext : dqIndex (n + 1) = n + 1 := Nat.mod_eq_of_lt hn
    have hsame : update (fun _ => a) 0 a = fun _ : Nat => a :=
      update_eq_self 0 _
    refine ⟨some (if (((n + 1 : Nat) : Int) - ((n + 1 : Nat) : Int)) ≤ 0 then .lwm else .pop), ?_⟩
    rw [dqRounds, exec_append _ hrun]
    simp only [exec]
    rw [dqOne_push (by omega), bind_some, hnext, hsame,
      dqOne_pop n (n + 1) _ (by omega), bind_some, hnext,
      ← replicate_succ']

theorem dqOne_init : dqInit 1 0 (fun _ => a) = dqOne 0 0 (fun _ => a) none [] [] := by
  have hcall : update (fun _ => DqCall.done .eok none) 0 (.done .eok none) =
      fun _ : Nat => DqCall.done .eok none := update_eq_self 0 _
  unfold dqInit dqOne
  rw [hcall]
  rfl

/-- After 65535 items have gone through a queue for one item, the next push brings its counter
    round. The push after that is accepted although an item is in the queue, and takes its slot.
    The pop returns the second item, and the first one is lost. -/
theorem data_queue_overrun :
    (exec dqStep (dqInit 1 0 fun _ => ⟨1, 1⟩)
      (dqRounds ⟨1, 1⟩ 65535 ++ [.push 0 ⟨1, 1⟩ 0, .push 0 ⟨2, 2⟩ 0, .pop 0 0])).map
        (fun s => (s.pushed.drop 65535, s.popped.drop 65535, s.call 0)) =
      some ([⟨1, 1⟩, ⟨2, 2⟩], [⟨2, 2⟩], .done .eok (some .pop)) := by
  rcases dqRounds_exec ⟨1, 1⟩ 65535 (by decide) with ⟨event, hrun⟩
  have hround : dqIndex (65535 + 1) = 0 := by decide
  rw [dqOne_init, exec_append _ hrun]
  simp only [exec]
  rw [dqOne_push (by decide), bind_some, hround, dqOne_push (by decide), bind_some,
    dqOne_pop 65535 (dqIndex (0 + 1)) _ (by decide), bind_some,
    Option.map_some]
  have hlen : (List.replicate 65535 (⟨1, 1⟩ : DataItem)).length = 65535 := length_replicate
  have hevent : ¬ ((dqIndex (0 + 1) : Int) - (dqIndex (65535 + 1) : Int) ≤ 0) := by decide
  simp only [dqOne, update_self, append_assoc, drop_left' hlen, singleton_append, if_neg hevent]

end Overrun

end Honeycomb
