import Honeycomb.Core.PrioQueue
import Honeycomb.Lib.Chain
import Honeycomb.Lib.Custody
import Honeycomb.Lib.Levels
import Honeycomb.Lib.Roster
import Honeycomb.Lib.Run
import Honeycomb.Theory.Bitmap

/-!
# The Order of a Priority Queue

A pop gets the item that has been in the queue for the longest time among those of the first
priority. Items are numbered as they are linked, so this is the least number among the items of the
least priority that are there.

The items in the queue are kept as one list in the order in which they were linked. The lists of
the priorities are its levels, each of them a chain of links from the head of its priority. A block
is free, in the queue, or in the hands of one thread, and a thread writes only to the block that it
has. So the bytes that a pop copies are those that the push has written, although both copy outside
of the critical sections and the blocks are used over and over.

A thread that waits for an item is resumed for every push, but the item may be taken by another
thread before it runs. What is kept is a count: while a thread waits, the items in the queue are not
more than the threads that were resumed and have not run.

## Theorems

* `prio_queue_stable`: The queue keeps its order in every run.
-/

namespace Honeycomb

open Function List Run

def itemAt (pushed : List PqItem) (k : Nat) : PqItem :=
  pushed.getD k ⟨0, []⟩

/-- The item with the number was linked and has not been taken off. -/
def Queued (s : PqSys) (k : Nat) : Prop :=
  k < s.pushed.length ∧ k ∉ s.dequeued

/-- The item with the number is in the queue, no item there has a lesser priority number, and none
    of the same priority is older. -/
def FirstItem (s : PqSys) (k : Nat) : Prop :=
  Queued s k ∧ ∀ j, Queued s j →
    (itemAt s.pushed k).prio < (itemAt s.pushed j).prio ∨
      ((itemAt s.pushed k).prio = (itemAt s.pushed j).prio ∧ k ≤ j)

/-- No item is taken off twice, nor copied out twice; the bytes copied out are those pushed; the
    bits are those of the priorities that have an item; and while a thread waits for an item, the
    items in the queue are not more than the threads that were resumed and have not run. -/
structure PqOk (s : PqSys) : Prop where
  once : s.dequeued.Nodup ∧ ∀ k ∈ s.dequeued, k < s.pushed.length
  poppedOnce : (s.popped.map Prod.fst).Nodup
  bytes : ∀ r ∈ s.popped, r.1 ∈ s.dequeued ∧ r.2 = (itemAt s.pushed r.1).data.take s.que.itemSz
  bits : ∀ p < prioQueueMax, s.que.bitmap.getLsbD p = true ↔ s.que.head p ≠ none
  resumed : s.resumed.Nodup ∧ ∀ t, t ∈ s.resumed ↔ ∃ timeout, s.phase t = .popReady timeout
  waits : (∃ t timeout, s.phase t = .popWait timeout) →
    s.pushed.length ≤ s.dequeued.length + s.resumed.length

/-- The step is one in which a thread looks for an item. -/
def Pops (s : PqSys) : PqAction → Prop
  | .pop _ _ => True
  | .run t => ∃ timeout, s.phase t = .popReady timeout
  | _ => False

/-- A thread that looks for an item gets the first one, or there is none. No other step takes an
    item off. -/
def PqStepOk (s s' : PqSys) (a : PqAction) : Prop :=
  (Pops s a → (∃ k, FirstItem s k ∧ s'.dequeued = s.dequeued ++ [k]) ∨
    ((∀ k, ¬Queued s k) ∧ s'.dequeued = s.dequeued)) ∧
  (¬Pops s a → s'.dequeued = s.dequeued)

variable {b prio : Nat} {p : PqPhase} {s s' : PqSys} {data : List (BitVec 8)} {timeout : Int}

section Levels

/-- The lists of the priorities: each is the chain of its level, its tail leads to the last item if
    there is one, and its bit is set if there is one. -/
structure LevelInv (bitmap : BitVec 32) (head tail next : Nat → Option Nat) (key : Nat → Nat)
    (queue : List Nat) : Prop where
  keys : ∀ b ∈ queue, key b < prioQueueMax
  chains : ∀ p < prioQueueMax, Chain next (head p) (level key queue p)
  tails : ∀ p < prioQueueMax, level key queue p ≠ [] → tail p = (level key queue p).getLast?
  bits : ∀ p < prioQueueMax, bitmap.getLsbD p = true ↔ head p ≠ none

variable (que : PrioQueue) {key : Nat → Nat} {queue : List Nat}

variable (h : LevelInv que.bitmap que.head que.tail que.next key queue)
include h

theorem head_eq_none_iff {p : Nat} (hp : p < prioQueueMax) :
    que.head p = none ↔ level key queue p = [] := by
  rw [chain_head (h.chains p hp), head?_eq_none_iff]

/-- An item is linked. Only the lists change, and of the links only those of items in the queue. -/
theorem doPush_spec (hnd : queue.Nodup) (hb : b ∉ queue) (hnext : que.next b = none)
    (hkey : key b < prioQueueMax) :
    ∃ head bitmap tail next,
      doPush que (key b) b =
        some { que with head := head, bitmap := bitmap, tail := tail, next := next } ∧
      (∀ c, c ∉ queue → next c = que.next c) ∧
      LevelInv bitmap head tail next key (queue ++ [b]) := by
  have hkeys : ∀ c ∈ queue ++ [b], key c < prioQueueMax :=
    forall_mem_append.mpr ⟨h.keys, forall_mem_singleton.mpr hkey⟩
  have hlevel : ∀ p, b ∉ level key queue p :=
    fun p hmem => hb (mem_level.mp hmem).1
  cases hhead : que.head (key b) with
  | none =>
    have hempty := (head_eq_none_iff que h hkey).mp hhead
    refine ⟨_, _, _, _, by simp only [doPush, hhead]; rfl, fun c _ => rfl, hkeys, ?_, ?_, ?_⟩
    · intro p hp
      by_cases hpb : p = key b
      · -- the item is alone on its level
        subst hpb
        rw [level_snoc_self, hempty, update_self]
        exact ⟨rfl, hnext⟩
      · rw [level_snoc_ne hpb, update_of_ne hpb]
        exact h.chains p hp
    · intro p hp hne
      by_cases hpb : p = key b
      · subst hpb
        rw [level_snoc_self, hempty, update_self]
        rfl
      · rw [level_snoc_ne hpb] at hne ⊢
        rw [update_of_ne hpb]
        exact h.tails p hp hne
    · intro p hp
      rw [getLsbD_set que.bitmap hkey, h.bits p hp]
      by_cases hpb : p = key b
      · simp only [hpb, or_true, update_self, ne_eq, reduceCtorEq, not_false_eq_true]
      · simp only [hpb, or_false, update_of_ne hpb]
  | some first =>
    have hne : level key queue (key b) ≠ [] := by
      intro hempty
      rw [(head_eq_none_iff que h hkey).mpr hempty] at hhead
      exact nomatch hhead
    rcases Option.ne_none_iff_exists'.mp
      (fun hn => hne (getLast?_eq_none_iff.mp hn)) with ⟨last, hlast⟩
    have htail := (h.tails _ hkey hne).trans hlast
    have hlastMem := mem_level.mp (mem_of_getLast? hlast)
    refine ⟨_, _, _, _, by simp only [doPush, hhead, htail]; rfl, ?_, hkeys, ?_, ?_, ?_⟩
    · exact fun c hc => update_of_ne (ne_of_mem_of_not_mem hlastMem.1 hc).symm _ _
    · intro p hp
      by_cases hpb : p = key b
      · subst hpb
        rw [level_snoc_self]
        exact chain_snoc b (hnd.filter _) (hlevel _) hlast hnext (h.chains _ hp)
      -- the last item of another level is not written
      rw [level_snoc_ne hpb]
      refine chain_update last (fun hmem => hpb ?_) (h.chains p hp)
      rw [← (mem_level.mp hmem).2, hlastMem.2]
    · intro p hp hne'
      by_cases hpb : p = key b
      · subst hpb
        rw [level_snoc_self, update_self, getLast?_concat]
      · rw [level_snoc_ne hpb] at hne' ⊢
        rw [update_of_ne hpb]
        exact h.tails p hp hne'
    · exact h.bits

theorem bit_of_mem {c : Nat} (hc : c ∈ queue) : que.bitmap.getLsbD (key c) = true := by
  rw [h.bits _ (h.keys c hc), ne_eq, head_eq_none_iff que h (h.keys c hc)]
  exact ne_nil_of_mem (mem_level.mpr ⟨hc, rfl⟩)

omit h in
theorem queue_ne_nil {p : Nat} (hp : p < prioQueueMax)
    (h : LevelInv que.bitmap que.head que.tail que.next key queue)
    (hbit : que.bitmap.getLsbD p = true) : ∃ b rest, level key queue p = b :: rest := by
  have hne := (h.bits p hp).mp hbit
  rw [ne_eq, head_eq_none_iff que h hp] at hne
  exact exists_cons_of_ne_nil hne

theorem doPop_spec (hnd : queue.Nodup) :
    (queue = [] ∧ doPop que = some (que, none)) ∨
    ∃ b rest head bitmap,
      doPop que = some ({ que with head := head, bitmap := bitmap }, some b) ∧ b ∈ queue ∧
      level key queue (key b) = b :: rest ∧ (∀ c ∈ queue, key b ≤ key c) ∧
      LevelInv bitmap head que.tail que.next key (queue.erase b) := by
  by_cases hzero : que.bitmap = 0#32
  · -- no bit is set, so no level has an item
    left
    refine ⟨eq_nil_iff_forall_not_mem.mpr (fun b hb => ?_), ?_⟩
    · have hbit := bit_of_mem que h hb
      rw [hzero, BitVec.getLsbD_zero] at hbit
      exact absurd hbit (by decide)
    · simp only [doPop, hzero]
      rfl
  right
  rcases rtFfs_spec que.bitmap hzero with ⟨p, hp, hffs, hset, hlow⟩
  rcases queue_ne_nil que hp h hset with ⟨b, rest, hlevel⟩
  rcases mem_level.mp (by rw [hlevel]; exact mem_cons_self) with ⟨hb, hkey⟩
  have hchain := h.chains p hp
  rw [hlevel] at hchain
  have hhead : que.head p = some b := hchain.1
  have hpop : doPop que = some ({ que with
      head := update que.head p (que.next b)
      bitmap := if que.next b = none then que.bitmap &&& ~~~(1#32 <<< p) else que.bitmap },
      some b) := by
    simp only [doPop, hffs, Nat.add_one_ne_zero, if_false, Nat.add_sub_cancel, hhead, some_bind]
  subst hkey
  refine ⟨b, rest, _, _, hpop, hb, hlevel, ?_, ?_, ?_, ?_, ?_⟩
  · -- the bit of a lesser priority would be set too
    intro c hc
    by_contra hlt
    have hbit := bit_of_mem que h hc
    rw [hlow (key c) (by omega)] at hbit
    exact absurd hbit (by decide)
  · intro c hc
    exact h.keys c (mem_of_mem_erase hc)
  · intro q hq
    by_cases hqb : q = key b
    · subst hqb
      rw [level_erase_self key queue hnd hlevel, update_self]
      exact hchain.2
    · rw [level_erase_ne key queue hnd hqb, update_of_ne hqb]
      exact h.chains q hq
  · intro q hq hne
    by_cases hqb : q = key b
    · subst hqb
      rw [level_erase_self key queue hnd hlevel] at hne ⊢
      have htail := h.tails _ hq (by rw [hlevel]; exact cons_ne_nil b rest)
      rw [hlevel] at htail
      rw [htail, getLast?_cons, getLast?_eq_some_getLast hne]
      rfl
    · rw [level_erase_ne key queue hnd hqb] at hne ⊢
      exact h.tails q hq hne
  · intro q hq
    by_cases hqb : q = key b
    · subst hqb
      rw [update_self]
      split
      · rename_i hnone
        simp only [getLsbD_clear hp hp, hnone, ne_eq, not_true_eq_false, and_false]
      · rename_i hsome
        exact ⟨fun _ => hsome, fun _ => hset⟩
    · rw [update_of_ne hqb, ← h.bits q hq]
      split
      · rw [getLsbD_clear hp hq]
        exact and_iff_left hqb
      · rfl

omit h

/-- The keys of blocks that are not in the queue do not matter. -/
theorem levelInv_congr {key' : Nat → Nat} (hkey : ∀ b ∈ queue, key' b = key b)
    (h : LevelInv que.bitmap que.head que.tail que.next key queue) :
    LevelInv que.bitmap que.head que.tail que.next key' queue := by
  have hlevel := level_congr key queue hkey
  refine ⟨fun b hb => ?_, fun p hp => ?_, fun p hp => ?_, h.bits⟩
  · rw [hkey b hb]
    exact h.keys b hb
  · rw [hlevel p]
    exact h.chains p hp
  · rw [hlevel p]
    exact h.tails p hp

end Levels

section Threads

def pqHeld : PqPhase → Option Nat
  | .filling _ _ b | .pushing _ _ b | .taken b _ | .copied b => some b
  | .idle _ | .memWait _ _ | .memReady _ _ | .popWait _ | .popReady _ | .popExpired => none

def memWaits : PqPhase → Bool
  | .memWait _ _ => true
  | _ => false

def popWaits : PqPhase → Bool
  | .popWait _ => true
  | _ => false

def popResumed : PqPhase → Bool
  | .popReady _ => true
  | _ => false

theorem popWaits_iff : popWaits p = true ↔ ∃ timeout, p = .popWait timeout := by
  cases p <;> simp [popWaits]

theorem popResumed_iff : popResumed p = true ↔ ∃ timeout, p = .popReady timeout := by
  cases p <;> simp [popResumed]

/-- The thread is on none of the lists. -/
def Unlisted (p : PqPhase) : Prop :=
  memWaits p = false ∧ popWaits p = false ∧ popResumed p = false

variable (phase : Nat → PqPhase) (t : Nat) (p : PqPhase)

theorem held_update :
    (fun u => pqHeld (update phase t p u)) = update (fun u => pqHeld (phase u)) t (pqHeld p) :=
  funext (apply_update (fun _ => pqHeld) phase t p)

end Threads

section Parts

/-- The next free block, as the word of a block has it. -/
def blockNext (word : Nat → BlockWord) (b : Nat) : Option Nat :=
  match word b with
  | .next q => q
  | .pool _ => none

/-- The pool: a block is free, in the queue or in the hands of a thread; the free blocks are linked;
    the others lead to the pool; and the threads that wait are counted. -/
structure PoolInv (n : Nat) (pool : MemPool) (suspendThread : List Nat) (phase : Nat → PqPhase)
    (free queue : List Nat) : Prop where
  custody : Custody n (free ++ queue) (fun t => pqHeld (phase t))
  chain : Chain (blockNext pool.word) pool.blockList free
  count : pool.blockFreeCount = free.length
  freeWord : ∀ b ∈ free, ∃ q, pool.word b = .next q
  usedWord : ∀ b < n, b ∉ free → pool.word b = .pool 0
  waiting : pool.suspendThreadCount = suspendThread.length
  waiters : Lists suspendThread phase memWaits

/-- The threads that wait for an item and those that were resumed. -/
structure PopInv (suspended resumed : List Nat) (phase : Nat → PqPhase) (queue : List Nat) :
    Prop where
  waiters : Lists suspended phase popWaits
  woken : Lists resumed phase popResumed
  enough : suspended ≠ [] → queue.length ≤ resumed.length

/-- What holds of a thread in a phase. What it has written is there until it is linked, and what it
    has taken off is there until it was copied. -/
def PqPhaseOk (data : Nat → List (BitVec 8)) (next : Nat → Option Nat) (itemSz : Nat)
    (pushed : List PqItem) (dequeued : List Nat) (popped : List (Nat × List (BitVec 8))) :
    PqPhase → Prop
  | .memWait prio _ | .memReady prio _ | .filling prio _ _ => prio < prioQueueMax
  | .pushing prio bytes b => prio < prioQueueMax ∧ data b = bytes.take itemSz ∧ next b = none
  | .taken b k => k ∈ dequeued ∧ k ∉ popped.map Prod.fst ∧
      data b = (itemAt pushed k).data.take itemSz
  | .idle _ | .popWait _ | .popReady _ | .popExpired | .copied _ => True

/-- The items in the queue are in the order of their numbers and have the bytes that were pushed;
    every number is that of an item in the queue or of one that was taken off. -/
structure HistInv (data : Nat → List (BitVec 8)) (next : Nat → Option Nat) (itemSz : Nat)
    (phase : Nat → PqPhase) (number : Nat → Nat) (pushed : List PqItem) (dequeued : List Nat)
    (popped : List (Nat × List (BitVec 8))) (queue : List Nat) : Prop where
  numbers : ∀ b ∈ queue, number b < pushed.length ∧
    data b = (itemAt pushed (number b)).data.take itemSz
  sorted : queue.Pairwise (fun b c => number b < number c)
  account : (queue.map number ++ dequeued).Perm (range pushed.length)
  phases : ∀ t, PqPhaseOk data next itemSz pushed dequeued popped (phase t)
  takenOnce : ∀ t u b c k, phase t = .taken b k → phase u = .taken c k → t = u
  bytes : ∀ r ∈ popped, r.1 ∈ dequeued ∧ r.2 = (itemAt pushed r.1).data.take itemSz
  poppedOnce : (popped.map Prod.fst).Nodup

def keyOf (pushed : List PqItem) (number : Nat → Nat) (b : Nat) : Nat :=
  (itemAt pushed (number b)).prio

structure PqInv (n : Nat) (s : PqSys) (free queue : List Nat) : Prop where
  level : LevelInv s.que.bitmap s.que.head s.que.tail s.que.next (keyOf s.pushed s.number) queue
  pool : PoolInv n s.que.pool s.que.suspendThread s.phase free queue
  hist : HistInv s.que.data s.que.next s.que.itemSz s.phase s.number s.pushed s.dequeued s.popped
    queue
  pop : PopInv s.que.suspendedPopList s.resumed s.phase queue

/-- The thread has no item that it has not copied. -/
def NotTaken (p : PqPhase) : Prop :=
  ∀ b k, p ≠ .taken b k

theorem notTaken_idle (result : RtErr) : NotTaken (.idle result) :=
  fun _ _ => nofun

variable {data : Nat → List (BitVec 8)} {next : Nat → Option Nat} {itemSz : Nat}
  {phase : Nat → PqPhase} {number : Nat → Nat} (pushed : List PqItem) {dequeued : List Nat}
  {popped : List (Nat × List (BitVec 8))} {queue : List Nat} (t : Nat) (p : PqPhase) {q : PqPhase}

/-- A thread stays as it is while others go on: the block that it has is not written, and the
    history grows without copying out its item. -/
theorem pqPhaseOk_mono {data' : Nat → List (BitVec 8)} {next' : Nat → Option Nat}
    {pushed' : List PqItem} {dequeued' : List Nat} {popped' : List (Nat × List (BitVec 8))}
    (h : PqPhaseOk data next itemSz pushed dequeued popped p)
    (hheld : ∀ b, pqHeld p = some b → data' b = data b ∧ next' b = next b)
    (htaken : ∀ b k, p = .taken b k → k ∈ dequeued → k ∈ dequeued' ∧
      (k ∉ popped.map Prod.fst → k ∉ popped'.map Prod.fst) ∧ itemAt pushed' k = itemAt pushed k) :
    PqPhaseOk data' next' itemSz pushed' dequeued' popped' p := by
  cases p with
  | pushing prio bytes b =>
    rcases hheld b rfl with ⟨hdata, hnext⟩
    exact ⟨h.1, hdata.trans h.2.1, hnext.trans h.2.2⟩
  | taken b k =>
    rcases htaken b k rfl h.1 with ⟨hmem, hpop, hitem⟩
    refine ⟨hmem, hpop h.2.1, ?_⟩
    rw [(hheld b rfl).1, hitem]
    exact h.2.2
  | idle result => trivial
  | memWait prio bytes => exact h
  | memReady prio bytes => exact h
  | filling prio bytes b => exact h
  | popWait timeout => trivial
  | popReady timeout => trivial
  | popExpired => trivial
  | copied b => trivial

/-- A thread that is on none of the lists goes on without getting on one. -/
theorem popInv_keep {suspended resumed : List Nat} (hq : phase t = q)
    (h : PopInv suspended resumed phase queue) (hold : popWaits q = false ∧ popResumed q = false)
    (hnew : popWaits p = false ∧ popResumed p = false) :
    PopInv suspended resumed (update phase t p) queue where
  waiters := lists_keep h.waiters (by rw [hq, hold.1]) hnew.1
  woken := lists_keep h.woken (by rw [hq, hold.2]) hnew.2
  enough := h.enough

theorem itemAt_append {item : PqItem} {k : Nat} (hk : k < pushed.length) :
    itemAt (pushed ++ [item]) k = itemAt pushed k := by
  simp only [itemAt, getD_eq_getElem?_getD, getElem?_append_left hk]

theorem itemAt_last (item : PqItem) : itemAt (pushed ++ [item]) pushed.length = item := by
  simp only [itemAt, getD_eq_getElem?_getD, getElem?_concat_length, Option.getD_some]

section

variable {pushed} (h : HistInv data next itemSz phase number pushed dequeued popped queue)
include h

theorem histInv_phase (hp : PqPhaseOk data next itemSz pushed dequeued popped p)
    (hnot : NotTaken p) :
    HistInv data next itemSz (update phase t p) number pushed dequeued popped queue :=
  { h with
    phases := (forall_update_iff phase _).mpr ⟨hp, fun u _ => h.phases u⟩
    takenOnce := by
      intro u v b c k hu hv
      have hother : ∀ w d, update phase t p w = .taken d k → phase w = .taken d k := by
        intro w d hw
        by_cases hwt : w = t
        · rw [hwt, update_self] at hw
          exact absurd hw (hnot d k)
        · rwa [update_of_ne hwt] at hw
      exact h.takenOnce u v b c k (hother u b hu) (hother v c hv) }

/-- Blocks are written that are neither in the queue nor in the hands of a thread, and links of
    items in the queue. -/
theorem histInv_frame (data' : Nat → List (BitVec 8)) (next' : Nat → Option Nat)
    (hqueue : ∀ b ∈ queue, data' b = data b)
    (hheld : ∀ u b, pqHeld (phase u) = some b → data' b = data b ∧ next' b = next b) :
    HistInv data' next' itemSz phase number pushed dequeued popped queue :=
  { h with
    numbers := by
      intro b hb
      rw [hqueue b hb]
      exact h.numbers b hb
    phases := fun u => pqPhaseOk_mono _ _ (h.phases u) (hheld u)
      (fun _ _ _ hmem => ⟨hmem, id, rfl⟩) }

/-- A thread is done, and what it has written is the block that it had, and links of items in the
    queue. -/
theorem histInv_done (data' : Nat → List (BitVec 8)) (next' : Nat → Option Nat)
    (hqueue : ∀ b ∈ queue, data' b = data b)
    (hheld : ∀ u b, u ≠ t → pqHeld (phase u) = some b → data' b = data b ∧ next' b = next b) :
    HistInv data' next' itemSz (update phase t (.idle .eok)) number pushed dequeued popped
      queue := by
  refine histInv_frame (histInv_phase t (.idle .eok) h trivial (notTaken_idle .eok)) data' next'
    hqueue ?_
  exact (forall_update_iff phase fun _ p => ∀ b, pqHeld p = some b →
    data' b = data b ∧ next' b = next b).mpr ⟨nofun, fun u hu b => hheld u b hu⟩

theorem dequeued_lt {k : Nat} (hk : k ∈ dequeued) : k < pushed.length :=
  mem_range.mp (h.account.mem_iff.mp (mem_append_right _ hk))

theorem number_notMem {b : Nat} (hb : b ∈ queue) : number b ∉ dequeued := by
  have hnd := h.account.nodup_iff.mpr nodup_range
  exact fun hmem => (disjoint_of_nodup_append hnd) (mem_map_of_mem hb) hmem

theorem histInv_link {b prio : Nat} {bytes : List (BitVec 8)} (hb : b ∉ queue)
    (hdata : data b = bytes.take itemSz) :
    HistInv data next itemSz phase (update number b pushed.length)
      (pushed ++ [⟨prio, bytes⟩]) dequeued popped (queue ++ [b]) := by
  have hnum : ∀ c ∈ queue, update number b pushed.length c = number c :=
    fun c hc => update_of_ne (ne_of_mem_of_not_mem hc hb) _ _
  have hmap : queue.map (update number b pushed.length) = queue.map number :=
    map_congr_left hnum
  constructor
  case numbers =>
    intro c hc
    rw [length_append]
    rcases mem_append.mp hc with hc | hc
    · have hlt := (h.numbers c hc).1
      rw [hnum c hc, itemAt_append pushed hlt]
      exact ⟨by omega, (h.numbers c hc).2⟩
    · rw [mem_singleton.mp hc, update_self, itemAt_last]
      exact ⟨Nat.lt_succ_self _, hdata⟩
  case sorted =>
    refine pairwise_append.mpr ⟨?_, pairwise_singleton _ _, fun c hc d hd => ?_⟩
    · refine h.sorted.imp_of_mem (fun {c d} hc hd hlt => ?_)
      rw [hnum c hc, hnum d hd]
      exact hlt
    · rw [mem_singleton.mp hd, hnum c hc, update_self]
      exact (h.numbers c hc).1
  case account =>
    rw [map_append, hmap, map_singleton, update_self, length_append,
      length_singleton, range_succ, append_assoc]
    refine (Perm.append_left _ perm_append_comm).trans ?_
    rw [← append_assoc]
    exact h.account.append_right _
  case phases =>
    intro u
    refine pqPhaseOk_mono _ _ (h.phases u) (fun _ _ => ⟨rfl, rfl⟩)
      (fun _ k _ hmem => ⟨hmem, id, ?_⟩)
    exact itemAt_append pushed (dequeued_lt h hmem)
  case takenOnce => exact h.takenOnce
  case bytes =>
    intro r hr
    rw [itemAt_append pushed (dequeued_lt h (h.bytes r hr).1)]
    exact h.bytes r hr
  case poppedOnce => exact h.poppedOnce

theorem histInv_pop {b : Nat} (hb : b ∈ queue) :
    HistInv data next itemSz (update phase t (.taken b (number b))) number pushed
      (dequeued ++ [number b]) popped (queue.erase b) := by
  have hnot := number_notMem h hb
  constructor
  case numbers => exact fun c hc => h.numbers c (mem_of_mem_erase hc)
  case sorted => exact h.sorted.sublist erase_sublist
  case account =>
    refine Perm.trans ?_ h.account
    have hperm : (queue.map number).Perm (number b :: (queue.erase b).map number) :=
      (perm_cons_erase hb).map number
    refine Perm.trans ?_ (hperm.symm.append_right dequeued)
    rw [← append_assoc]
    exact perm_append_singleton _ _
  case phases =>
    refine (forall_update_iff phase _).mpr ⟨⟨mem_append_right _ (mem_singleton_self _),
      fun hmem => ?_, (h.numbers b hb).2⟩, fun u _ => pqPhaseOk_mono _ _ (h.phases u)
      (fun _ _ => ⟨rfl, rfl⟩) (fun _ _ _ hmem => ⟨mem_append_left _ hmem, id, rfl⟩)⟩
    -- what was copied out was taken off before
    rcases mem_map.mp hmem with ⟨r, hr, hrk⟩
    exact hnot (by rw [← hrk]; exact (h.bytes r hr).1)
  case takenOnce =>
    -- another thread has an item that was taken off before
    have hother : ∀ u c, phase u = .taken c (number b) → False := by
      intro u c hu
      have hok := h.phases u
      rw [hu] at hok
      exact hnot hok.1
    intro u v c d k hu hv
    by_cases hut : u = t
    · by_cases hvt : v = t
      · rw [hut, hvt]
      · rw [hut, update_self, PqPhase.taken.injEq] at hu
        rw [update_of_ne hvt, ← hu.2] at hv
        exact (hother v d hv).elim
    rw [update_of_ne hut] at hu
    by_cases hvt : v = t
    · rw [hvt, update_self, PqPhase.taken.injEq] at hv
      rw [← hv.2] at hu
      exact (hother u c hu).elim
    · rw [update_of_ne hvt] at hv
      exact h.takenOnce u v c d k hu hv
  case bytes => exact fun r hr => ⟨mem_append_left _ (h.bytes r hr).1, (h.bytes r hr).2⟩
  case poppedOnce => exact h.poppedOnce

theorem histInv_copy {k : Nat} (hphase : phase t = .taken b k) :
    HistInv data next itemSz (update phase t (.copied b)) number pushed dequeued
      (popped ++ [(k, (data b).take itemSz)]) queue := by
  have hok := h.phases t
  rw [hphase] at hok
  have hcopied : NotTaken (.copied b) :=
    fun _ _ => nofun
  have hdone := histInv_phase t (.copied b) h trivial hcopied
  refine { hdone with phases := ?phases, bytes := ?bytes, poppedOnce := ?poppedOnce }
  case phases =>
    refine (forall_update_iff phase _).mpr ⟨trivial, fun u hu => ?_⟩
    refine pqPhaseOk_mono _ _ (h.phases u) (fun _ _ => ⟨rfl, rfl⟩)
      (fun c k' hpu hmem => ⟨hmem, fun hnot => ?_, rfl⟩)
    rw [map_append, mem_append, not_or]
    refine ⟨hnot, fun hlast => hu ?_⟩
    -- the number would be the same, and so would the thread
    rw [map_singleton, mem_singleton] at hlast
    rw [hlast] at hpu
    exact h.takenOnce u t c b k hpu hphase
  case bytes =>
    intro r hr
    rcases mem_append.mp hr with hr | hr
    · exact h.bytes r hr
    · rw [mem_singleton.mp hr, hok.2.2, take_take, Nat.min_self]
      exact ⟨hok.1, rfl⟩
  case poppedOnce =>
    rw [map_append]
    refine nodup_append.mpr ⟨h.poppedOnce, nodup_singleton _, fun j hj j' hj' heq => ?_⟩
    have hjk : j = k := heq.trans (mem_singleton.mp hj')
    exact hok.2.1 (by rw [← hjk]; exact hj)

end

variable {n : Nat} {pool : MemPool} {suspendThread free : List Nat}

variable (hq : phase t = q) (h : PoolInv n pool suspendThread phase free queue)
include hq h

theorem poolInv_wait {count : Nat} {suspendThread' : List Nat} (hold : pqHeld q = none)
    (hnew : pqHeld p = none) (hcount : count = suspendThread'.length)
    (hwait : Lists suspendThread' (update phase t p) memWaits) :
    PoolInv n { pool with suspendThreadCount := count } suspendThread' (update phase t p)
      free queue :=
  { h with
    custody := by
      rw [held_update, hnew, ← hold, ← hq, update_eq_self]
      exact h.custody
    waiting := hcount
    waiters := hwait }

variable (hold : memWaits q = false)
include hold

theorem poolInv_take (hcount : pool.blockFreeCount ≠ 0) (hheld : pqHeld q = none) :
    ∃ b free' pool', pool.take 0 = some (pool', b) ∧
      ∀ p, pqHeld p = some b → memWaits p = false →
        PoolInv n pool' suspendThread (update phase t p) free' queue := by
  subst hq
  cases free with
  | nil => exact absurd h.count hcount
  | cons b free' =>
    rcases h.freeWord b mem_cons_self with ⟨q, hq⟩
    have hhead : pool.blockList = some b := h.chain.1
    have hchain : Chain (blockNext pool.word) q free' := by
      have htail := h.chain.2
      rwa [blockNext, hq] at htail
    have hnd := nodup_cons.mp h.custody.nodup
    have hb : b ∉ free' := fun hmem => hnd.1 (mem_append_left queue hmem)
    have htake : pool.take 0 = some ({ pool with
        blockFreeCount := pool.blockFreeCount - 1
        blockList := q
        word := update pool.word b (.pool 0) }, b) := by
      simp only [MemPool.take, hhead, hq, some_bind, Option.pure_def]
    refine ⟨b, free', _, htake, fun p hp hnew => ?_⟩
    constructor
    case custody =>
      rw [held_update, hp]
      exact custody_take (Perm.refl _) hheld h.custody
    case chain =>
      refine chain_congr (fun c hc => ?_) hchain
      have hcb := ne_of_mem_of_not_mem hc hb
      simp only [blockNext, update_of_ne hcb]
    case count => exact (congrArg (· - 1) h.count).trans (Nat.add_sub_cancel _ _)
    case freeWord =>
      intro c hc
      have hcb := ne_of_mem_of_not_mem hc hb
      rcases h.freeWord c (mem_cons_of_mem b hc) with ⟨q', hq'⟩
      exact ⟨q', (update_of_ne hcb _ _).trans hq'⟩
    case usedWord =>
      intro c hc hnot
      by_cases hcb : c = b
      · rw [hcb]
        exact update_self _ _ _
      · refine (update_of_ne hcb _ _).trans (h.usedWord c hc ?_)
        exact fun hmem => (mem_cons.mp hmem).elim hcb hnot
    case waiting => exact h.waiting
    case waiters => exact lists_keep h.waiters hold hnew

variable (hnew : memWaits p = false)
include hnew

theorem poolInv_phase (hheld : pqHeld p = pqHeld q) :
    PoolInv n pool suspendThread (update phase t p) free queue :=
  { h with
    custody := by
      rw [held_update, hheld, ← hq, update_eq_self]
      exact h.custody
    waiters := lists_keep h.waiters (by rw [hq, hold]) hnew }

theorem poolInv_put (hheld : pqHeld q = some b) (hp : pqHeld p = none) :
    PoolInv n { pool with
        blockFreeCount := pool.blockFreeCount + 1
        word := update pool.word b (.next pool.blockList)
        blockList := some b }
      suspendThread (update phase t p) (b :: free) queue := by
  subst hq
  have hnot := h.custody.apart t b hheld
  have hb : b ∉ free := fun hmem => hnot (mem_append_left queue hmem)
  constructor
  case custody =>
    rw [held_update, hp]
    exact custody_give (Perm.refl _) hheld h.custody
  case chain =>
    refine ⟨rfl, ?_⟩
    simp only [blockNext, update_self]
    refine chain_congr (fun c hc => ?_) h.chain
    have hcb := ne_of_mem_of_not_mem hc hb
    simp only [blockNext, update_of_ne hcb]
  case count => exact congrArg (· + 1) h.count
  case freeWord =>
    intro c hc
    by_cases hcb : c = b
    · rw [hcb]
      exact ⟨pool.blockList, update_self _ _ _⟩
    · rcases h.freeWord c ((mem_cons.mp hc).resolve_left hcb) with ⟨q, hq⟩
      exact ⟨q, (update_of_ne hcb _ _).trans hq⟩
  case usedWord =>
    intro c hc hnotc
    rw [mem_cons, not_or] at hnotc
    exact (update_of_ne hnotc.1 _ _).trans (h.usedWord c hc hnotc.2)
  case waiting => exact h.waiting
  case waiters => exact lists_keep h.waiters hold hnew

theorem poolInv_link (hheld : pqHeld q = some b) (hp : pqHeld p = none) :
    PoolInv n pool suspendThread (update phase t p) free (queue ++ [b]) :=
  { h with
    custody := by
      rw [held_update, hp]
      refine custody_give ?_ (by rw [hq, hheld]) h.custody
      rw [← append_assoc]
      exact perm_append_singleton b (free ++ queue)
    waiters := lists_keep h.waiters (by rw [hq, hold]) hnew }

theorem poolInv_unlink (hb : b ∈ queue) (hheld : pqHeld q = none) (hp : pqHeld p = some b) :
    PoolInv n pool suspendThread (update phase t p) free (queue.erase b) :=
  { h with
    custody := by
      rw [held_update, hp]
      refine custody_take ?_ (by rw [hq, hheld]) h.custody
      exact ((perm_cons_erase hb).append_left free).trans perm_middle
    waiters := lists_keep h.waiters (by rw [hq, hold]) hnew }

omit hnew hold h hq

theorem queue_nodup (h : PoolInv n pool suspendThread phase free queue) : queue.Nodup :=
  h.custody.nodup.of_append_right

end Parts

section Steps

variable {n : Nat} {s : PqSys} {free queue : List Nat} (t : Nat) {q : PqPhase}

/-- A thread goes on with the block that it has, or without one, and changes nothing else. -/
theorem pqInv_phase (hq : s.phase t = q) (h : PqInv n s free queue) (hheld : pqHeld p = pqHeld q)
    (hold : Unlisted q) (hnew : Unlisted p)
    (hp : PqPhaseOk s.que.data s.que.next s.que.itemSz s.pushed s.dequeued s.popped p)
    (hnot : NotTaken p) : PqInv n (setPhase s t p) free queue where
  level := h.level
  pool := poolInv_phase t p hq h.pool hold.1 hnew.1 hheld
  hist := histInv_phase t p h.hist hp hnot
  pop := popInv_keep t p hq h.pop hold.2 hnew.2

theorem pqInv_alloc {forever : Bool} (hq : s.phase t = q) (h : PqInv n s free queue)
    (hheld : pqHeld q = none) (hun : Unlisted q) (hprio : prio < prioQueueMax)
    (hs' : pqAlloc s t prio data forever = some s') :
    (∃ free', PqInv n s' free' queue) ∧ s'.dequeued = s.dequeued := by
  simp only [pqAlloc] at hs'
  split at hs'
  · cases forever with
    | false =>
      cases hs'
      exact ⟨⟨free, pqInv_phase t hq h hheld.symm hun
        ⟨rfl, rfl, rfl⟩ trivial (notTaken_idle .enomem)⟩, rfl⟩
    | true =>
      cases hs'
      refine ⟨⟨free, h.level, ?_, ?_, ?_⟩, rfl⟩
      · refine poolInv_wait t _ hq h.pool hheld rfl (congrArg (· + 1) h.pool.waiting) ?_
        exact lists_enter _ t _ h.pool.waiters (Perm.refl _) (by rw [hq, hun.1]) rfl
      · exact histInv_phase t _ h.hist hprio (fun _ _ => nofun)
      · exact popInv_keep t _ hq h.pop hun.2 ⟨rfl, rfl⟩
  · rename_i hcount
    rcases poolInv_take t hq h.pool hun.1 hcount hheld with ⟨b, free', pool', htake, hpool⟩
    simp only [htake] at hs'
    cases hs'
    refine ⟨⟨free', h.level, hpool _ rfl rfl, ?_, ?_⟩, rfl⟩
    · exact histInv_phase t _ h.hist hprio (fun _ _ => nofun)
    · exact popInv_keep t _ hq h.pop hun.2 ⟨rfl, rfl⟩

variable (h : PqInv n s free queue)
include h

theorem pqInv_fill (hphase : s.phase t = .filling prio data b) :
    PqInv n (pqFill s t prio data b) free queue := by
  have hheld : pqHeld (s.phase t) = some b := by rw [hphase, pqHeld]
  have hnot := h.pool.custody.apart t b hheld
  have hqueue : ∀ c ∈ queue, c ≠ b :=
    fun c hc => ne_of_mem_of_not_mem (mem_append_right free hc) hnot
  -- no other thread has the block
  have hother : ∀ u c, u ≠ t → pqHeld (s.phase u) = some c → c ≠ b := by
    intro u c hu hc heq
    rw [heq] at hc
    exact hu (h.pool.custody.once u t b hc hheld)
  have hprio : prio < prioQueueMax := by
    have hok := h.hist.phases t
    rw [hphase] at hok
    exact hok
  constructor
  case level =>
    refine ⟨h.level.keys, fun p hp => ?_, h.level.tails, h.level.bits⟩
    refine chain_update b (fun hmem => ?_) (h.level.chains p hp)
    exact hqueue b (mem_level.mp hmem).1 rfl
  case pool =>
    exact poolInv_phase t _ hphase h.pool rfl rfl rfl
  case hist =>
    -- with the thread out of the way, nobody has the block that is written
    have hwrite := histInv_done t h.hist
      (update s.que.data b (data.take s.que.itemSz)) (update s.que.next b none)
      (fun c hc => update_of_ne (hqueue c hc) _ _) (fun u c hu hc =>
        ⟨update_of_ne (hother u c hu hc) _ _, update_of_ne (hother u c hu hc) _ _⟩)
    have hdone := histInv_phase t (.pushing prio data b) hwrite
      ⟨hprio, update_self _ _ _, update_self _ _ _⟩ (fun _ _ => nofun)
    rwa [update_idem] at hdone
  case pop =>
    exact popInv_keep t _ hphase h.pop ⟨rfl, rfl⟩ ⟨rfl, rfl⟩

theorem pqInv_link (hphase : s.phase t = .pushing prio data b)
    (hs' : pqLink s t prio data b = some s') :
    PqInv n s' free (queue ++ [b]) ∧ s'.dequeued = s.dequeued := by
  have hnot := h.pool.custody.apart t b (by rw [hphase, pqHeld])
  have hb : b ∉ queue := fun hmem => hnot (mem_append_right free hmem)
  have hok := h.hist.phases t
  rw [hphase] at hok
  rcases hok with ⟨hprio, hdata, hnext⟩
  -- the item has its priority as soon as it has its number
  generalize hnumber : update s.number b s.pushed.length = number'
  generalize hpushed : s.pushed ++ [(⟨prio, data⟩ : PqItem)] = pushed'
  have hkeyb : keyOf pushed' number' b = prio := by
    rw [← hnumber, ← hpushed, keyOf, update_self, itemAt_last]
  have hkey : ∀ c ∈ queue, keyOf pushed' number' c = keyOf s.pushed s.number c := by
    intro c hc
    have hcb := ne_of_mem_of_not_mem hc hb
    rw [← hnumber, ← hpushed, keyOf, keyOf, update_of_ne hcb,
      itemAt_append s.pushed (h.hist.numbers c hc).1]
  rcases doPush_spec s.que (levelInv_congr s.que hkey h.level) (queue_nodup h.pool) hb hnext
    (by rw [hkeyb]; exact hprio) with ⟨head, bitmap, tail, next, hpush, hframe, hlevel⟩
  rw [hkeyb] at hpush
  have hhist : HistInv s.que.data next s.que.itemSz (update s.phase t (.idle .eok))
      number' pushed' s.dequeued s.popped (queue ++ [b]) := by
    -- what a thread has is not in the queue
    have hlinks := histInv_done t h.hist s.que.data next (fun _ _ => rfl) (fun u c _ hc =>
      ⟨rfl, hframe c fun hmem => h.pool.custody.apart u c hc (mem_append_right free hmem)⟩)
    rw [← hnumber, ← hpushed]
    exact histInv_link hlinks hb hdata
  have hpool := poolInv_link t (.idle .eok) hphase h.pool rfl rfl rfl rfl
  have hpop := popInv_keep t (.idle .eok) hphase h.pop ⟨rfl, rfl⟩ ⟨rfl, rfl⟩
  simp only [pqLink, hpush, some_bind, hnumber, hpushed, setPhase] at hs'
  cases hwait : s.que.suspendedPopList with simp only [hwait] at hs'
  | nil =>
    cases hs'
    rw [hwait] at hpop
    exact ⟨⟨hlevel, hpool, hhist, hpop.waiters, hpop.woken, fun hne => absurd rfl hne⟩, rfl⟩
  | cons u suspended =>
    rw [hwait] at hpop
    have hu := (hpop.waiters.2 u).mp mem_cons_self
    rcases popWaits_iff.mp hu with ⟨timeout, hpu⟩
    simp only [hpu] at hs'
    cases hs'
    refine ⟨⟨hlevel, ?_, ?_, ?_, ?_, fun _ => ?_⟩, rfl⟩
    · exact poolInv_phase u _ hpu hpool rfl rfl rfl
    · exact histInv_phase u _ hhist trivial (fun _ _ => nofun)
    · exact lists_leave hpop.waiters (Perm.refl _) rfl
    · refine lists_enter _ u _ hpop.woken ?_ ?_ rfl
      · exact perm_append_singleton u s.resumed
      · rw [hpu]
        rfl
    · -- one more item, and one more thread that was resumed
      rw [length_append, length_append]
      have henough := hpop.enough (cons_ne_nil u suspended)
      simp only [length_singleton]
      omega

/-- The item that is taken off is the one that a pop should get. -/
theorem firstItem_of_level {rest : List Nat} (hb : b ∈ queue)
    (hlevel : level (keyOf s.pushed s.number) queue (keyOf s.pushed s.number b) = b :: rest)
    (hmin : ∀ c ∈ queue, keyOf s.pushed s.number b ≤ keyOf s.pushed s.number c) :
    FirstItem s (s.number b) := by
  refine ⟨⟨(h.hist.numbers b hb).1, number_notMem h.hist hb⟩, fun j hj => ?_⟩
  -- an item that was not taken off is in the queue
  have hmem := h.hist.account.mem_iff.mpr (mem_range.mpr hj.1)
  rcases mem_append.mp hmem with hmem | hmem
  · rcases mem_map.mp hmem with ⟨c, hc, rfl⟩
    rcases Nat.lt_or_eq_of_le (hmin c hc) with hlt | heq
    · exact .inl hlt
    refine .inr ⟨heq, ?_⟩
    rcases level_first (keyOf s.pushed s.number) queue h.hist.sorted hlevel hc
      heq.symm with hcb | hlt
    · rw [hcb]
    · exact le_of_lt hlt
  · exact absurd hmem hj.2

omit h in
/-- A pop takes the first item off, waits or fails. The thread is on no list but that of the threads
    that were resumed, which it has left. -/
theorem pqInv_pop {resumed' : List Nat} (hq : s.phase t = q) (h : PqInv n s free queue)
    (hheld : pqHeld q = none) (hmem : memWaits q = false) (hwait : popWaits q = false)
    (hwoken : ∀ p, popResumed p = false → Lists resumed' (update s.phase t p) popResumed)
    (hlen : s.resumed.length ≤ resumed'.length + 1)
    (hs' : pqPop { s with resumed := resumed' } t timeout = some s') :
    (∃ queue', PqInv n s' free queue') ∧
    ((∃ k, FirstItem s k ∧ s'.dequeued = s.dequeued ++ [k]) ∨
      ((∀ k, ¬Queued s k) ∧ s'.dequeued = s.dequeued)) := by
  rcases doPop_spec s.que h.level (queue_nodup h.pool) with
    ⟨hnil, hpop⟩ | ⟨b, rest, head, bitmap, hpop, hb, hlevel, hmin, hinv⟩
  · have hnone : ∀ k, ¬Queued s k := by
      intro k hk
      have hmem := h.hist.account.mem_iff.mpr (mem_range.mpr hk.1)
      rw [hnil] at hmem
      exact hk.2 hmem
    have hzero : queue.length = 0 := by rw [hnil, length_nil]
    simp only [pqPop, hpop] at hs'
    split at hs'
    · cases hs'
      refine ⟨⟨queue, h.level, ?_, ?_, ?_, hwoken _ rfl, fun _ => ?_⟩, .inr ⟨hnone, rfl⟩⟩
      · exact poolInv_phase t _ hq h.pool hmem rfl hheld.symm
      · exact histInv_phase t _ h.hist trivial (notTaken_idle _)
      · exact lists_keep h.pop.waiters (by rw [hq, hwait]) rfl
      · rw [hzero]
        exact Nat.zero_le _
    cases hs'
    refine ⟨⟨queue, h.level, ?_, ?_, ?_, hwoken _ rfl, fun _ => ?_⟩, .inr ⟨hnone, rfl⟩⟩
    · exact poolInv_phase t _ hq h.pool hmem rfl hheld.symm
    · exact histInv_phase t _ h.hist trivial (fun _ _ => nofun)
    · exact lists_enter _ t _ h.pop.waiters (perm_append_singleton t _) (by rw [hq, hwait]) rfl
    · rw [hzero]
      exact Nat.zero_le _
  · simp only [pqPop, hpop] at hs'
    cases hs'
    refine ⟨⟨queue.erase b, hinv, ?_, ?_, ?_, hwoken _ rfl, fun hne => ?_⟩,
      .inl ⟨s.number b, firstItem_of_level h hb hlevel hmin, rfl⟩⟩
    · exact poolInv_unlink t _ hq h.pool hmem rfl hb hheld rfl
    · exact histInv_pop t h.hist hb
    · exact lists_keep h.pop.waiters (by rw [hq, hwait]) rfl
    -- one item less, for at most one thread less
    have henough := h.pop.enough hne
    have herase := length_erase_of_mem hb
    change (queue.erase b).length ≤ resumed'.length
    omega

theorem pqInv_free (hphase : s.phase t = .copied b)
    (hs' : pqFree s t b = some s') : PqInv n s' (b :: free) queue ∧ s'.dequeued = s.dequeued := by
  have hpool := poolInv_put t (.idle .eok) hphase h.pool rfl rfl rfl rfl
  have hhist := histInv_phase t (.idle .eok) h.hist trivial (notTaken_idle .eok)
  have hpop := popInv_keep t (.idle .eok) hphase h.pop ⟨rfl, rfl⟩ ⟨rfl, rfl⟩
  simp only [pqFree, bind_iff] at hs'
  rcases hs' with ⟨-, -, hs'⟩
  split at hs'
  · simp only [setPhase] at hs'
    split at hs'
    · exact nomatch hs'
    rename_i u suspended hlist
    rw [hlist] at hpool
    split at hs'
    · rename_i prio data hpu
      cases hs'
      refine ⟨⟨h.level, ?_, ?_, ?_⟩, rfl⟩
      · exact poolInv_wait u _ hpu hpool rfl rfl
          ((congrArg (· - 1) hpool.waiting).trans (Nat.add_sub_cancel _ _))
          (lists_leave hpool.waiters (Perm.refl _) rfl)
      · have hok := hhist.phases u
        rw [hpu] at hok
        exact histInv_phase u _ hhist hok (fun _ _ => nofun)
      · exact popInv_keep u _ hpu hpop ⟨rfl, rfl⟩ ⟨rfl, rfl⟩
    · exact nomatch hs'
  · cases hs'
    exact ⟨⟨h.level, hpool, hhist, hpop⟩, rfl⟩

theorem pqInv_expire (hphase : s.phase t = .popWait timeout) :
    PqInv n (setPhase { s with que := { s.que with
      suspendedPopList := s.que.suspendedPopList.erase t } } t .popExpired) free queue := by
  have hmem : t ∈ s.que.suspendedPopList := (h.pop.waiters.2 t).mpr (by rw [hphase]; rfl)
  constructor
  case level => exact h.level
  case pool => exact poolInv_phase t _ hphase h.pool rfl rfl rfl
  case hist => exact histInv_phase t _ h.hist trivial (fun _ _ => nofun)
  case pop =>
    refine ⟨?_, ?_, fun _ => h.pop.enough (ne_nil_of_mem hmem)⟩
    · exact lists_leave h.pop.waiters (perm_cons_erase hmem) rfl
    · refine lists_keep h.pop.woken ?_ rfl
      rw [hphase]
      rfl

theorem pqInv_run (hs' : pqRun s t = some s') :
    (∃ free' queue', PqInv n s' free' queue') ∧ PqStepOk s s' (.run t) := by
  -- a thread that was not resumed by a push takes nothing off
  have hother : ∀ {q}, (∃ free' queue', PqInv n s' free' queue') → s'.dequeued = s.dequeued →
      s.phase t = q → popResumed q = false →
      (∃ free' queue', PqInv n s' free' queue') ∧ PqStepOk s s' (.run t) := by
    intro q hinv hdeq hq hnot
    refine ⟨hinv, fun hpops => ?_, fun _ => hdeq⟩
    have hres := popResumed_iff.mpr hpops
    rw [hq, hnot] at hres
    exact absurd hres (by decide)
  have hok := h.hist.phases t
  unfold pqRun at hs'
  generalize hphase : s.phase t = p at hs' hok
  cases p with
  | memReady prio data =>
    rcases pqInv_alloc t hphase h rfl ⟨rfl, rfl, rfl⟩ hok hs' with ⟨⟨free', hinv⟩, hdeq⟩
    exact hother ⟨free', queue, hinv⟩ hdeq hphase rfl
  | filling prio data b =>
    cases hs'
    exact hother ⟨free, queue, pqInv_fill t h hphase⟩ rfl hphase rfl
  | pushing prio data b =>
    rcases pqInv_link t h hphase hs' with ⟨hinv, hdeq⟩
    exact hother ⟨free, queue ++ [b], hinv⟩ hdeq hphase rfl
  | popReady timeout =>
    have hmem : t ∈ s.resumed := (h.pop.woken.2 t).mpr (by rw [hphase]; rfl)
    have hlen := length_erase_of_mem hmem
    rcases pqInv_pop t hphase h rfl rfl rfl (fun p hp => lists_leave
      h.pop.woken (perm_cons_erase hmem) hp) (by omega) hs' with ⟨⟨queue', hinv⟩, hpop⟩
    exact ⟨⟨free, queue', hinv⟩, fun _ => hpop, fun hnot => absurd ⟨timeout, hphase⟩ hnot⟩
  | popExpired =>
    cases hs'
    refine hother ⟨free, queue, ?_⟩ rfl hphase rfl
    exact pqInv_phase t hphase h rfl ⟨rfl, rfl, rfl⟩ ⟨rfl, rfl, rfl⟩ trivial (notTaken_idle _)
  | taken b k =>
    cases hs'
    refine hother ⟨free, queue, h.level, ?_, ?_, ?_⟩ rfl hphase rfl
    · exact poolInv_phase t _ hphase h.pool rfl rfl rfl
    · exact histInv_copy t h.hist hphase
    · exact popInv_keep t _ hphase h.pop ⟨rfl, rfl⟩ ⟨rfl, rfl⟩
  | copied b =>
    rcases pqInv_free t h hphase hs' with ⟨hinv, hdeq⟩
    exact hother ⟨b :: free, queue, hinv⟩ hdeq hphase rfl
  | idle | memWait | popWait => exact nomatch hs'

end Steps

theorem pqInv_step (n : Nat) {a : PqAction} (hinv : ∃ free queue, PqInv n s free queue)
    (hs' : pqStep s a = some s') : (∃ free queue, PqInv n s' free queue) ∧ PqStepOk s s' a := by
  rcases hinv with ⟨free, queue, h⟩
  cases a with simp only [pqStep] at hs'
  | push t prio data forever =>
    split at hs'
    · rename_i result hphase
      split at hs'
      · cases hs'
        exact ⟨⟨free, queue, pqInv_phase t hphase h rfl ⟨rfl, rfl, rfl⟩ ⟨rfl, rfl, rfl⟩
          trivial (notTaken_idle _)⟩, fun hpops => absurd hpops id, fun _ => rfl⟩
      rename_i hprio
      rcases pqInv_alloc t hphase h rfl ⟨rfl, rfl, rfl⟩ (Nat.lt_of_not_le hprio) hs' with
        ⟨⟨free', hinv⟩, hdeq⟩
      exact ⟨⟨free', queue, hinv⟩, fun hpops => absurd hpops id, fun _ => hdeq⟩
    · exact nomatch hs'
  | pop t timeout =>
    split at hs'
    · rename_i result hphase
      rcases pqInv_pop t hphase h rfl rfl rfl
        (fun p hp => lists_keep h.pop.woken (by rw [hphase]; rfl) hp)
        (Nat.le_succ _) hs' with ⟨⟨queue', hinv⟩, hpop⟩
      exact ⟨⟨free, queue', hinv⟩, fun _ => hpop, fun hnot => absurd trivial hnot⟩
    · exact nomatch hs'
  | expire t =>
    split at hs'
    · rename_i timeout hphase
      simp only [bind_iff, Option.some.injEq] at hs'
      rcases hs' with ⟨-, -, rfl⟩
      exact ⟨⟨free, queue, pqInv_expire t h hphase⟩, fun hpops => absurd hpops id, fun _ => rfl⟩
    · exact nomatch hs'
  | run t => exact pqInv_run t h hs'

theorem pqOk_of_inv {n : Nat} {free queue : List Nat} (h : PqInv n s free queue) : PqOk s := by
  have hnd := h.hist.account.nodup_iff.mpr nodup_range
  constructor
  case once =>
    exact ⟨hnd.of_append_right, fun k hk => dequeued_lt h.hist hk⟩
  case poppedOnce => exact h.hist.poppedOnce
  case bytes => exact h.hist.bytes
  case bits => exact h.level.bits
  case resumed =>
    refine ⟨h.pop.woken.1, fun t => ?_⟩
    rw [h.pop.woken.2 t, popResumed_iff]
  case waits =>
    rintro ⟨t, timeout, hphase⟩
    have hmem : t ∈ s.que.suspendedPopList := (h.pop.waiters.2 t).mpr (by rw [hphase]; rfl)
    have henough := h.pop.enough (ne_nil_of_mem hmem)
    -- the items that were not taken off are those in the queue
    have hlen := h.hist.account.length_eq
    rw [length_append, length_map, length_range] at hlen
    omega

theorem pqInv_init {bufsz itemsz : BitVec 32} {next : Nat → Option Nat}
    {data : Nat → List (BitVec 8)} {que : PrioQueue}
    (hinit : rtPrioQueueInit bufsz itemsz next data = some que) :
    ∃ n, PqInv n (pqInit que) (range n) [] := by
  simp only [rtPrioQueueInit, rtMpInit, bind_iff, rtAssert_eq_some, pure_iff,
    Option.some.injEq] at hinit
  rcases hinit with ⟨pool, ⟨-, hpos, rfl⟩, rfl⟩
  generalize (rtAlignDown bufsz / (rtAlign (4#32 + itemsz) + 4#32)).toNat = n at hpos
  refine ⟨n, ?_, ?_, ?_, ?_⟩
  · refine ⟨fun _ h => absurd h not_mem_nil, fun p _ => rfl, fun p _ hne => ?_, fun p _ => ?_⟩
    · exact absurd rfl hne
    · simp only [pqInit, BitVec.getLsbD_zero, Bool.false_eq_true, ne_eq, not_true_eq_false]
  · constructor
    case custody =>
      rw [append_nil]
      exact custody_all
    case chain => exact chain_range hpos fun _ => rfl
    case count => exact length_range.symm
    case freeWord => exact fun b _ => ⟨_, rfl⟩
    case usedWord => exact fun b hb hnot => absurd (mem_range.mpr hb) hnot
    case waiting => rfl
    case waiters => exact lists_nil (fun _ => rfl)
  · constructor
    case numbers => exact fun _ h => absurd h not_mem_nil
    case sorted => exact Pairwise.nil
    case account => exact Perm.refl _
    case phases => exact fun _ => trivial
    case takenOnce =>
      exact fun t _ b _ k ht => by cases ht
    case bytes => exact fun _ h => absurd h not_mem_nil
    case poppedOnce => exact nodup_nil
  · exact ⟨lists_nil (fun _ => rfl), lists_nil (fun _ => rfl), fun hne => absurd rfl hne⟩

/-- Threads push and pop in any order, and wait with any limit for an item. In every state that is
    reached, no item is popped twice and every item is popped with its own bytes, the bits are
    those of the priorities that have an item, and while a thread waits there are not more items
    than threads that were resumed and have not run. Every pop takes off the item that is the oldest
    among those of the first priority, or there is none. -/
theorem prio_queue_stable (bufsz itemsz : BitVec 32) (next : Nat → Option Nat)
    (data : Nat → List (BitVec 8)) (que : PrioQueue)
    (hinit : rtPrioQueueInit bufsz itemsz next data = some que) (s : PqSys)
    (hs : Reachable pqStep (pqInit que) s) :
    PqOk s ∧ ∀ a s', pqStep s a = some s' → PqStepOk s s' a := by
  rcases pqInv_init hinit with ⟨n, hn⟩
  have hinv : ∃ free queue, PqInv n s free queue :=
    reachable_inv (fun s => ∃ free queue, PqInv n s free queue)
      (fun h hs' => (pqInv_step n h hs').1) ⟨_, _, hn⟩ hs
  refine ⟨?_, fun a s' hs' => (pqInv_step n hinv hs').2⟩
  rcases hinv with ⟨free, queue, h⟩
  exact pqOk_of_inv h

/-- A thread waits for an item and is resumed for one of priority 5. Before it runs, one of priority
    1 is pushed, and this is the one that it gets. -/
theorem prio_queue_stable_overtaken :
    ∃ que s, rtPrioQueueInit 24 1 (fun _ => none) (fun _ => []) = some que ∧
      exec pqStep (pqInit que) [.pop 1 (-1), .push 2 5 [10] false, .run 2, .run 2,
        .push 3 1 [20] true, .run 3, .run 3, .run 1, .run 1] = some s ∧
      (s.popped, s.dequeued, s.que.bitmap) = ([(1, [20])], [1], 32) ∧
      PqOk s ∧ ∀ a s', pqStep s a = some s' → PqStepOk s s' a :=
  exists_of_runs (fun _ s => (s.popped, s.dequeued, s.que.bitmap) = ([(1, [20])], [1], 32))
    (by decide +kernel)
    fun que s hque hs hout => ⟨hout, prio_queue_stable 24 1 _ _ que hque s ⟨_, hs⟩⟩

end Honeycomb
