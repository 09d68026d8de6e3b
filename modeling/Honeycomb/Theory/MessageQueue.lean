import Honeycomb.Core.MessageQueue
import Honeycomb.Lib.Chain
import Honeycomb.Lib.Custody
import Honeycomb.Lib.Run

/-!
# Message Queues Keep Their Blocks and Their Order

Every block of a message queue is in one place: on the free list, in the queue,
or with one send or receive that is in progress. The messages leave in the order
of the abstract queue, and what a receive copies out is what was sent.

Steps that other calls take in between only touch blocks that they hold
themselves, or the links of blocks in the two lists. So what a call has written
to its block stays there until the block is linked, and what is in a block that a
receive has taken stays until the receive frees it.

## Theorems

* `mq_conserves`: The properties hold in every reachable state.
-/

namespace Honeycomb

open Function List MqSys Run

/-- A send or a receive in progress holds a block of a queue. -/
def Holds (held : Nat → Option MqHeld) (n b a : Nat) : Prop :=
  ∃ phase, held a = some ⟨n, b, phase⟩

/-- The blocks of a queue are those in the lists, each once, and those that are
    held, each by one call. -/
structure Split (count : Nat) (blocks : List Nat) (held : Nat → Option MqHeld) (n : Nat) :
    Prop where
  nodup : blocks.Nodup
  all : ∀ b, b < count ↔ b ∈ blocks ∨ ∃ a, Holds held n b a
  apart : ∀ a b, Holds held n b a → b ∉ blocks
  single : ∀ a a' b, Holds held n b a → Holds held n b a' → a = a'

variable (mq : MessageQueue)

/-- The free list and the queue, with its tail. -/
structure MqChains (free queue : List Nat) : Prop where
  freeChain : Chain mq.next mq.free free
  queueChain : Chain mq.next mq.head queue
  tail : mq.tail = queue.getLast?

/-- The free list and the queue, with its tail and the counter. -/
structure MqLists (free queue : List Nat) : Prop
    extends MqChains mq free queue where
  entry : mq.entry.toNat = queue.length

/-- A block starts with the bytes of a message. -/
def Stored (b : Nat) (message : List (BitVec 8)) : Prop :=
  (range message.length).map (mq.data b) = message

/-- The blocks are partitioned, the messages are in the abstract queue in the order in which they
    are linked, the abstract queue is in order, and receives with enough room get what was sent. -/
structure MqOk (s : MqSys) : Prop where
  blocks : ∀ n, ∃ free queue, MqLists (s.queue n) free queue ∧
    Split (s.queue n).maxMsgs.toNat (free ++ queue) s.held n ∧
    Forall₂ (fun b m => Stored (s.queue n) b m.value) queue (s.deque n).queued
  order : ∀ n, (s.deque n).Ordered
  bytes : ∀ r ∈ s.returns, r.sent.length ≤ r.size → r.sent <+: r.recved

section Blocks

variable {count : Nat} {blocks blocks' : List Nat} (held : Nat → Option MqHeld) (n b a : Nat)
  (phase : MqPhase)

/-- The block of a queue that a call holds. -/
def heldBlock (a : Nat) : Option Nat :=
  (held a).bind fun h => if h.queue = n then some h.block else none

variable {held n b a} in
theorem holds_iff : Holds held n b a ↔ heldBlock held n a = some b := by
  unfold Holds heldBlock
  rw [Option.bind_eq_some_iff]
  constructor
  · rintro ⟨phase, h⟩
    exact ⟨_, h, if_pos rfl⟩
  · rintro ⟨⟨m, c, phase⟩, h, hif⟩
    split_ifs at hif with hm
    cases hif
    exact ⟨phase, by rw [h, ← hm]⟩

/-- The blocks are in custody of the lists and of the calls. -/
theorem split_iff : Split count blocks held n ↔ Custody count blocks (heldBlock held n) := by
  have hex : ∀ b, (∃ a, Holds held n b a) ↔ ∃ a, heldBlock held n a = some b :=
    fun b => exists_congr fun a => holds_iff
  constructor
  · intro h
    refine ⟨h.nodup, fun b hb => (h.all b).mpr (.inl hb), fun a b hb => ?_, fun b hb => ?_,
      fun a b hb => ?_, fun a a' b hb hb' => ?_⟩
    · exact (h.all b).mpr (.inr ⟨a, holds_iff.mpr hb⟩)
    · exact ((h.all b).mp hb).imp_right (hex b).mp
    · exact h.apart a b (holds_iff.mpr hb)
    · exact h.single a a' b (holds_iff.mpr hb) (holds_iff.mpr hb')
  intro h
  refine ⟨h.nodup, fun b => ⟨fun hb => (h.cover b hb).imp_right (hex b).mpr, ?_⟩, fun a b hb => ?_,
    fun a a' b hb hb' => ?_⟩
  · rintro (hb | ⟨a, ha⟩)
    · exact h.bound b hb
    · exact h.heldBound a b (holds_iff.mp ha)
  · exact h.apart a b (holds_iff.mp hb)
  · exact h.once a a' b (holds_iff.mp hb) (holds_iff.mp hb')

theorem heldBlock_update (x : Option MqHeld) (hx : ∀ h, x = some h → h.queue = n) :
    heldBlock (update held a x) n = update (heldBlock held n) a (x.map MqHeld.block) := by
  funext a'
  unfold heldBlock
  by_cases ha : a' = a
  · rw [ha, update_self, update_self]
    cases x with
    | none => rfl
    | some h => exact if_pos (hx h rfl)
  · rw [update_of_ne ha, update_of_ne ha]

theorem split_acquire (hfree : held a = none) (hperm : blocks.Perm (b :: blocks'))
    (h : Split count blocks held n) :
    Split count blocks' (update held a (some ⟨n, b, phase⟩)) n := by
  rw [split_iff] at h ⊢
  rw [heldBlock_update held n a _ fun _ hx => by cases hx; rfl]
  exact custody_take hperm (by rw [heldBlock, hfree]; rfl) h

theorem split_release (hheld : held a = some ⟨n, b, phase⟩) (hperm : blocks'.Perm (b :: blocks))
    (h : Split count blocks held n) : Split count blocks' (update held a none) n := by
  rw [split_iff] at h ⊢
  rw [heldBlock_update held n a none nofun]
  exact custody_give hperm (holds_iff.mp ⟨phase, hheld⟩) h

/-- Who holds what is all that matters of the calls. -/
theorem split_congr {held' : Nat → Option MqHeld} (heq : heldBlock held' n = heldBlock held n)
    (h : Split count blocks held n) : Split count blocks held' n := by
  rw [split_iff] at h ⊢
  rw [heq]
  exact h

theorem heldBlock_phase {phase' : MqPhase} (hheld : held a = some ⟨n, b, phase⟩) :
    heldBlock (update held a (some ⟨n, b, phase'⟩)) n = heldBlock held n := by
  rw [heldBlock_update held n a _ fun _ hx => by cases hx; rfl]
  exact update_eq_self_iff.mpr (holds_iff.mp ⟨phase, hheld⟩).symm

end Blocks

section Bytes

variable {mq : MessageQueue} {b : Nat} (message : List (BitVec 8))

theorem copyIn_stored {data : Nat → BitVec 8} :
    (range message.length).map (copyIn data message) = message := by
  refine ext_getElem ?_ (fun i h1 h2 => ?_)
  · rw [length_map, length_range]
  · rw [getElem_map, getElem_range]
    unfold copyIn
    rw [getElem?_eq_getElem h2, Option.getD_some]

/-- A receive with enough room copies all of the message. -/
theorem mqCopy_prefix {size : Nat} (hst : Stored mq b message)
    (hlen : message.length ≤ mq.msgSize.toNat) (hroom : message.length ≤ size) :
    message <+: mqCopy mq b size := by
  unfold mqCopy
  generalize hcount : (if size > mq.msgSize.toNat then mq.msgSize.toNat else size) = count
  have hle : message.length ≤ count := by
    rw [← hcount]
    split_ifs
    · exact hlen
    · exact hroom
  have htake : ((range count).map (mq.data b)).take message.length = message := by
    rw [← map_take, take_range, min_eq_left hle]
    exact hst
  exact ⟨_, by rw [← htake]; exact take_append_drop _ _⟩

end Bytes

/-- What a call that holds a block has done to it. -/
def PhaseOk (b : Nat) : MqPhase → Prop
  | .filling buffer _ => buffer.length ≤ mq.msgSize.toNat
  | .filled buffer urgent => buffer.length ≤ mq.msgSize.toNat ∧ Stored mq b buffer ∧
      (urgent = false → mq.next b = none)
  | .taken _ sent => sent.length ≤ mq.msgSize.toNat ∧ Stored mq b sent
  | .copied size sent recved => sent.length ≤ size → sent <+: recved

structure MqState (held : Nat → Option MqHeld) (n : Nat)
    (d : Deque (List (BitVec 8))) (free queue : List Nat) : Prop where
  lists : MqLists mq free queue
  split : Split mq.maxMsgs.toNat (free ++ queue) held n
  contents : Forall₂
    (fun b m => Stored mq b m.value ∧ m.value.length ≤ mq.msgSize.toNat) queue d.queued
  phases : ∀ a b phase, held a = some ⟨n, b, phase⟩ → PhaseOk mq b phase
  ordered : d.Ordered

variable {mq' : MessageQueue} {phase : MqPhase} {x : Option MqHeld}

section State

variable (mq : MessageQueue) (held : Nat → Option MqHeld) {n : Nat}
  {d : Deque (List (BitVec 8))} {free : List Nat} (queue : List Nat) (a b : Nat)

theorem phase_frame (hsize : mq'.msgSize = mq.msgSize) (hdata : mq'.data b = mq.data b)
    (hnext : mq'.next b = mq.next b) (h : PhaseOk mq b phase) : PhaseOk mq' b phase := by
  unfold PhaseOk Stored at *
  rw [hsize, hdata, hnext]
  exact h

theorem contents_frame {items : List (Item (List (BitVec 8)))} (hsize : mq'.msgSize = mq.msgSize)
    (hdata : ∀ c ∈ queue, mq'.data c = mq.data c)
    (h : Forall₂ (fun b m => Stored mq b m.value ∧ m.value.length ≤ mq.msgSize.toNat) queue items) :
    Forall₂ (fun b m => Stored mq' b m.value ∧ m.value.length ≤ mq'.msgSize.toNat) queue items := by
  induction h with
  | nil => exact Forall₂.nil
  | cons hhead _ ih =>
    refine Forall₂.cons ?_ (ih (fun c hc => hdata c (mem_cons_of_mem _ hc)))
    unfold Stored
    rw [hdata _ mem_cons_self, hsize]
    exact hhead

/-- The phases after one call has moved on: its own new phase, and the others,
    whose blocks the move has left alone. -/
theorem phases_update (hsize : mq'.msgSize = mq.msgSize)
    (hframe : ∀ a' c, a' ≠ a → Holds held n c a' → mq'.data c = mq.data c ∧ mq'.next c = mq.next c)
    (hnew : ∀ c phase, x = some ⟨n, c, phase⟩ → PhaseOk mq' c phase)
    (h : ∀ a b phase, held a = some ⟨n, b, phase⟩ → PhaseOk mq b phase) :
    ∀ a' c phase, update held a x a' = some ⟨n, c, phase⟩ → PhaseOk mq' c phase := by
  intro a' c phase hc
  by_cases ha : a' = a
  · rw [ha, update_self] at hc
    exact hnew c phase hc
  · rw [update_of_ne ha] at hc
    rcases hframe a' c ha ⟨phase, hc⟩ with ⟨hdata, hnext⟩
    exact phase_frame mq c hsize hdata hnext (h a' c phase hc)

theorem mqFill_eq (buffer : List (BitVec 8)) (urgent : Bool) : mqFill mq b buffer urgent =
    { mq with
      data := update mq.data b (copyIn (mq.data b) buffer)
      next := if urgent = true then mq.next else update mq.next b none } := by
  unfold mqFill
  split_ifs <;> rfl

theorem split_length {count : Nat} {blocks : List Nat} (hhold : Holds held n b a)
    (h : Split count blocks held n) : blocks.length + 1 ≤ count  :=
  custody_room a (holds_iff.mp hhold) ((split_iff held n).mp h)

theorem entry_succ {free queue : List Nat} (hentry : mq.entry.toNat = queue.length)
    (hroom : (free ++ queue).length + 1 ≤ mq.maxMsgs.toNat) :
    (mq.entry + 1#16).toNat = queue.length + 1 := by
  rw [length_append] at hroom
  bv_omega

theorem chains_linkTail (hnd : (free ++ queue).Nodup) (hb : b ∉ free ++ queue)
    (hnext : mq.next b = none) (h : MqChains mq free queue) :
    MqChains (mqLinkTail mq b) free (queue ++ [b]) := by
  rw [mem_append, not_or] at hb
  unfold mqLinkTail
  rw [h.tail]
  have hhead := chain_head h.queueChain
  cases hlast : queue.getLast? with
  | none =>
    rw [getLast?_eq_none_iff] at hlast
    rw [hlast] at hhead ⊢
    refine ⟨h.freeChain, ⟨?_, hnext⟩, rfl⟩
    simp only [hhead, head?_nil]
  | some l =>
    have hl : l ∈ queue := mem_of_getLast? hlast
    have hlf : l ∉ free := fun hc => (nodup_append.mp hnd).2.2 l hc l hl rfl
    have hsnoc := chain_snoc b (nodup_append.mp hnd).2.1 hb.2 hlast hnext h.queueChain
    refine ⟨chain_update l hlf h.freeChain, ?_, getLast?_concat.symm⟩
    cases hm : mq.head with
    | none =>
      -- A queue with a last block has a first one.
      rw [hm] at hhead
      rw [head?_eq_none_iff.mp hhead.symm] at hl
      exact absurd hl not_mem_nil
    | some c =>
      rw [hm] at hsnoc
      exact hsnoc

theorem chains_linkHead (hb : b ∉ free ++ queue) (h : MqChains mq free queue) :
    MqChains (mqLinkHead mq b) free (b :: queue) := by
  rw [mem_append, not_or] at hb
  refine ⟨chain_update b hb.1 h.freeChain, chain_push b hb.2 h.queueChain, ?_⟩
  dsimp only [mqLinkHead]
  rw [h.tail]
  cases queue with
  | nil => rfl
  | cons c cs =>
    rw [getLast?_cons_cons]
    cases hlast : (c :: cs).getLast? with
    | none =>
      cases hlast
    | some l => rfl

theorem chains_unlink (hnd : (b :: queue).Nodup) (h : MqChains mq free (b :: queue)) :
    ∃ mq', mqUnlink mq = some (mq', b) ∧ MqChains mq' free queue ∧ mq'.next = mq.next ∧
      mq'.data = mq.data ∧ mq'.msgSize = mq.msgSize ∧ mq'.maxMsgs = mq.maxMsgs ∧
      mq'.entry = mq.entry := by
  rw [nodup_cons] at hnd
  unfold mqUnlink
  rw [h.queueChain.1]
  refine ⟨_, rfl, ⟨h.freeChain, h.queueChain.2, ?_⟩, rfl, rfl, rfl, rfl, rfl⟩
  rw [h.tail]
  cases queue with
  | nil =>
    exact if_pos rfl
  | cons c cs =>
    refine if_neg (fun hc => hnd.1 ?_)
    exact mem_of_getLast? hc

theorem chains_putFree {free queue : List Nat} (b : Nat) (hb : b ∉ free ++ queue)
    (h : MqChains mq free queue) :
    MqChains (mqPutFree mq b) (b :: free) queue := by
  rw [mem_append, not_or] at hb
  exact ⟨chain_push b hb.1 h.freeChain, chain_update b hb.2 h.queueChain, h.tail⟩

/-- The loop of a reset ends, and has moved all blocks of the queue to the free
    list. The induction is on the queue, with a round for each block. -/
theorem chains_drain {free queue : List Nat} (fuel : Nat) (hfuel : queue.length ≤ fuel)
    (hnd : (free ++ queue).Nodup) (h : MqChains mq free queue) :
    ∃ mq', mqDrain fuel mq = some mq' ∧ MqChains mq' (queue.reverse ++ free) [] ∧
      (∀ c, c ∉ queue → mq'.next c = mq.next c) ∧ mq'.data = mq.data ∧
      mq'.msgSize = mq.msgSize ∧ mq'.maxMsgs = mq.maxMsgs := by
  induction queue generalizing mq free fuel with
  | nil =>
    refine ⟨mq, ?_, h, fun _ _ => rfl, rfl, rfl, rfl⟩
    unfold mqDrain
    rw [show mq.head = none from h.queueChain]
  | cons b queue ih =>
    rw [length_cons] at hfuel
    rcases Nat.exists_eq_succ_of_ne_zero (show fuel ≠ 0 by omega) with ⟨fuel', rfl⟩
    have hndq := (nodup_append.mp hnd).2.1
    have hperm : (free ++ b :: queue).Perm ((b :: free) ++ queue) := perm_middle
    have hnd' := hperm.nodup_iff.mp hnd
    have hb : b ∉ free ++ queue := (nodup_cons.mp hnd').1
    rcases chains_unlink mq queue b hndq h with
      ⟨mq1, hunlink, hchains, hnext, hdata, hsize, hmax, _⟩
    rcases ih (mqPutFree mq1 b) fuel' (by omega) hnd'
      (chains_putFree mq1 b hb hchains) with
      ⟨mq', hdrain, hchains', hnext', hdata', hsize', hmax'⟩
    refine ⟨mq', ?_, ?_, fun c hc => ?_, hdata'.trans hdata, hsize'.trans hsize, hmax'.trans hmax⟩
    · unfold mqDrain
      rw [show mq.head = some b from h.queueChain.1]
      simp only [hunlink, some_bind]
      exact hdrain
    · rw [reverse_cons, append_assoc, singleton_append]
      exact hchains'
    · rw [mem_cons, not_or] at hc
      rw [hnext' c hc.2, ← hnext]
      exact update_of_ne hc.1 _ _

variable (h : MqState mq held n d free queue)
include h

theorem mqState_other {x : Option MqHeld} (hold : ∀ h, held a = some h → h.queue ≠ n)
    (hnew : ∀ h, x = some h → h.queue ≠ n) :
    MqState mq (update held a x) n d free queue := by
  have hnone : ∀ y : Option MqHeld, (∀ h, y = some h → h.queue ≠ n) →
      (y.bind fun h => if h.queue = n then some h.block else none) = none := by
    intro y hy
    cases y with
    | none => rfl
    | some h => exact if_neg (hy h rfl)
  have heq : heldBlock (update held a x) n = heldBlock held n := by
    funext a'
    unfold heldBlock
    by_cases ha : a' = a
    · rw [ha, update_self, hnone x hnew, hnone _ hold]
    · rw [update_of_ne ha]
  refine ⟨h.lists, split_congr held n heq h.split, h.contents, fun a' c phase hc => ?_, h.ordered⟩
  by_cases ha : a' = a
  · rw [ha, update_self] at hc
    exact absurd rfl (hnew _ hc)
  · rw [update_of_ne ha] at hc
    exact h.phases a' c phase hc

variable (buffer : List (BitVec 8))

theorem mqState_alloc (urgent : Bool) (hnone : held a = none)
    (hfree : mq.free = some b) (hlen : buffer.length ≤ mq.msgSize.toNat) :
    ∃ free', MqState { mq with free := mq.next b }
      (update held a (some ⟨n, b, .filling buffer urgent⟩)) n d free' queue := by
  have hchain := h.lists.freeChain
  rw [hfree] at hchain
  rcases chain_tail b hchain with ⟨free', rfl, htail⟩
  refine ⟨free', ⟨⟨htail, h.lists.queueChain, h.lists.tail⟩, h.lists.entry⟩,
    split_acquire held n b a _ hnone (Perm.refl _) h.split, h.contents,
    phases_update mq held a rfl (fun _ _ _ _ => ⟨rfl, rfl⟩) (fun c phase hc => ?_) h.phases,
    h.ordered⟩
  cases hc
  exact hlen

theorem mqState_fill {urgent : Bool} (hheld : held a = some ⟨n, b, .filling buffer urgent⟩) :
    MqState (mqFill mq b buffer urgent)
      (update held a (some ⟨n, b, .filled buffer urgent⟩)) n d free queue := by
  have hout := h.split.apart a b ⟨_, hheld⟩
  rw [mem_append, not_or] at hout
  rw [mqFill_eq]
  have hnext : ∀ c, c ≠ b →
      (if urgent = true then mq.next else update mq.next b none) c = mq.next c := by
    intro c hc
    split_ifs
    · rfl
    · exact update_of_ne hc _ _
  have hne : ∀ bs : List Nat, b ∉ bs → ∀ c ∈ bs, c ≠ b := by
    rintro bs hb c hc rfl
    exact hb hc
  refine ⟨⟨⟨?_, ?_, h.lists.tail⟩, h.lists.entry⟩,
    split_congr held n (heldBlock_phase held n b a _ hheld) h.split, ?_, ?_, h.ordered⟩
  · exact chain_congr (fun c hc => hnext c (hne free hout.1 c hc)) h.lists.freeChain
  · exact chain_congr (fun c hc => hnext c (hne queue hout.2 c hc)) h.lists.queueChain
  · exact contents_frame mq queue rfl
      (fun c hc => update_of_ne (hne queue hout.2 c hc) _ _) h.contents
  refine phases_update mq held a rfl (fun a' c ha hc => ?_) (fun c phase hc => ?_) h.phases
  · have hcb : c ≠ b := by
      rintro rfl
      exact ha (h.split.single a' a c hc ⟨_, hheld⟩)
    exact ⟨update_of_ne hcb _ _, hnext c hcb⟩
  · cases hc
    refine ⟨h.phases a b _ hheld, ?_, fun hu => ?_⟩
    · simp only [Stored, update_self]
      exact copyIn_stored buffer
    · simp only [hu, Bool.false_eq_true, if_false, update_self]

theorem mqState_link {urgent : Bool} (hheld : held a = some ⟨n, b, .filled buffer urgent⟩) :
    MqState (mqLink mq b urgent) (update held a none) n (d.join buffer urgent) free
      (if urgent = true then b :: queue else queue ++ [b]) := by
  have hout := h.split.apart a b ⟨_, hheld⟩
  have hroom := split_length held a b ⟨_, hheld⟩ h.split
  have hentry := entry_succ mq h.lists.entry hroom
  rcases h.phases a b _ hheld with ⟨hlen, hstored, hnone⟩
  by_cases hu : urgent = true
  · simp only [mqLink, if_pos hu]
    refine ⟨⟨chains_linkHead mq queue b hout h.lists.toMqChains, hentry⟩,
      split_release held n b a _ hheld perm_middle h.split, ?_, ?_,
      ordered_join h.ordered⟩
    · unfold Deque.join
      rw [if_pos hu]
      exact Forall₂.cons ⟨hstored, hlen⟩ h.contents
    refine phases_update mq held a rfl (fun a' c ha hc => ⟨rfl, ?_⟩)
      (fun c phase hc => nomatch hc) h.phases
    refine update_of_ne ?_ _ _
    rintro rfl
    exact ha (h.split.single a' a c hc ⟨_, hheld⟩)
  have hnext := hnone (by simpa only [Bool.not_eq_true] using hu)
  simp only [mqLink, if_neg hu]
  have hdata : (mqLinkTail mq b).data = mq.data ∧ (mqLinkTail mq b).msgSize = mq.msgSize ∧
      (mqLinkTail mq b).maxMsgs = mq.maxMsgs ∧
      (mqLinkTail mq b).entry = mq.entry + 1#16 := by
    unfold mqLinkTail
    cases mq.tail with
    | none => exact ⟨rfl, rfl, rfl, rfl⟩
    | some l => exact ⟨rfl, rfl, rfl, rfl⟩
  rcases hdata with ⟨hdata, hsize, hmax, hent⟩
  refine ⟨⟨chains_linkTail mq queue b h.split.nodup hout hnext h.lists.toMqChains, ?_⟩, ?_,
    ?_, ?_, ordered_join h.ordered⟩
  · rw [hent, hentry, length_append, length_singleton]
  · rw [hmax]
    refine split_release held n b a _ hheld ?_ h.split
    rw [← append_assoc]
    exact perm_append_singleton b (free ++ queue)
  · unfold Deque.join
    rw [if_neg hu]
    refine rel_append (contents_frame mq queue hsize
      (fun c _ => by rw [hdata]) h.contents) (Forall₂.cons ?_ Forall₂.nil)
    unfold Stored
    rw [hdata, hsize]
    exact ⟨hstored, hlen⟩
  · refine phases_update mq held a hsize (fun a' c _ hc => ⟨by rw [hdata], ?_⟩)
      (fun c phase hc => nomatch hc) h.phases
    -- The link that is written is that of the last block of the queue.
    unfold mqLinkTail
    rw [h.lists.tail]
    cases hlast : queue.getLast? with
    | none => rfl
    | some l =>
      refine update_of_ne ?_ _ _
      rintro rfl
      exact h.split.apart a' c hc (mem_append_right free (mem_of_getLast? hlast))

theorem mqState_take (size : Nat) (hnone : held a = none) (hentry : mq.entry ≠ 0#16)
    (hb : mqUnlink mq = some (mq', b)) :
    ∃ queue' m ms, d.queued = m :: ms ∧
      MqState { mq' with entry := mq'.entry - 1#16 }
        (update held a (some ⟨n, b, .taken size m.value⟩)) n d.leave free queue' := by
  -- The counter says that there is a block, and the abstract queue has a message for it.
  cases queue with
  | nil =>
    exact absurd (BitVec.eq_of_toNat_eq (show mq.entry.toNat = (0#16).toNat from h.lists.entry))
      hentry
  | cons c queue' =>
    have hnd := (nodup_append.mp h.split.nodup).2.1
    rcases chains_unlink mq queue' c hnd h.lists.toMqChains with
      ⟨mq1, hunlink, hchains, hnext, hdata, hsize, hmax, hent⟩
    rw [hunlink] at hb
    cases hb
    have hcontents := h.contents
    have hordered := ordered_leave h.ordered
    cases hq : d.queued with
    | nil =>
      rw [hq] at hcontents
      cases hcontents
    | cons m ms =>
      rw [hq, forall₂_cons] at hcontents
      refine ⟨queue', m, ms, rfl, ⟨⟨hchains.freeChain, hchains.queueChain, hchains.tail⟩, ?_⟩,
        ?_, ?_, ?_, hordered⟩
      · have hlen := h.lists.entry
        rw [length_cons] at hlen
        bv_omega
      · rw [hmax]
        exact split_acquire held n _ a _ hnone perm_middle h.split
      · have hleave : d.leave.queued = ms := by
          unfold Deque.leave
          rw [hq]
        rw [hleave]
        exact contents_frame mq queue' hsize (fun c _ => congrFun hdata c) hcontents.2
      · refine phases_update mq held a hsize
          (fun a' c _ _ => ⟨congrFun hdata c, congrFun hnext c⟩) (fun c phase hc => ?_) h.phases
        cases hc
        rw [hdata, hsize]
        exact ⟨hcontents.1.2, hcontents.1.1⟩

theorem mqState_copy {size : Nat} {sent : List (BitVec 8)}
    (hheld : held a = some ⟨n, b, .taken size sent⟩) :
    MqState mq (update held a (some ⟨n, b, .copied size sent (mqCopy mq b size)⟩)) n d
      free queue := by
  refine ⟨h.lists, split_congr held n (heldBlock_phase held n b a _ hheld) h.split, h.contents,
    phases_update mq held a rfl (fun _ _ _ _ => ⟨rfl, rfl⟩) (fun c phase hc => ?_) h.phases,
    h.ordered⟩
  cases hc
  rcases h.phases a b _ hheld with ⟨hlen, hstored⟩
  exact fun hroom => mqCopy_prefix sent hstored hlen hroom

theorem mqState_free (hheld : held a = some ⟨n, b, phase⟩) :
    MqState (mqPutFree mq b) (update held a none) n d (b :: free) queue := by
  have hout := h.split.apart a b ⟨_, hheld⟩
  refine ⟨⟨chains_putFree mq b hout h.lists.toMqChains, h.lists.entry⟩,
    split_release held n b a _ hheld (Perm.refl _) h.split,
    contents_frame mq queue rfl (fun _ _ => rfl) h.contents,
    phases_update mq held a rfl (fun a' c ha hc => ⟨rfl, ?_⟩)
      (fun c phase hc => nomatch hc) h.phases,
    h.ordered⟩
  refine update_of_ne ?_ _ _
  rintro rfl
  exact ha (h.split.single a' a c hc ⟨_, hheld⟩)

theorem mqState_drain :
    ∃ mq', mqDrain mq.maxMsgs.toNat mq = some mq' ∧
      MqState { mq' with entry := 0#16 } held n d.drop (queue.reverse ++ free) [] := by
  have hlen := custody_length ((split_iff held n).mp h.split)
  rw [length_append] at hlen
  rcases chains_drain mq mq.maxMsgs.toNat (by omega) h.split.nodup h.lists.toMqChains with
    ⟨mq', hdrain, hchains, hnext, hdata, hsize, hmax⟩
  refine ⟨mq', hdrain, ⟨⟨hchains.freeChain, hchains.queueChain, hchains.tail⟩, rfl⟩, ?_,
    Forall₂.nil, fun a b phase hab => ?_, ordered_drop h.ordered⟩
  · rw [hmax]
    refine (split_iff held n).mpr (custody_perm _ ?_ ((split_iff held n).mp h.split))
    rw [append_nil]
    exact perm_append_comm.trans (Perm.append_right free (reverse_perm queue).symm)
  · have hb := h.split.apart a b ⟨phase, hab⟩
    rw [mem_append, not_or] at hb
    exact phase_frame mq b hsize (congrFun hdata b) (hnext b hb.2) (h.phases a b phase hab)

omit h

theorem chains_init {blocks : List Nat} (hnd : (blocks.reverse ++ free).Nodup)
    (h : MqChains mq free []) :
    MqChains (blocks.foldl mqPutFree mq) (blocks.reverse ++ free) [] ∧
      (blocks.foldl mqPutFree mq).maxMsgs = mq.maxMsgs ∧
      (blocks.foldl mqPutFree mq).entry = mq.entry := by
  induction blocks generalizing mq free with
  | nil => exact ⟨h, rfl, rfl⟩
  | cons b blocks ih =>
    rw [reverse_cons, append_assoc, singleton_append] at hnd ⊢
    have hb : b ∉ free := (nodup_cons.mp (nodup_append.mp hnd).2.1).1
    exact ih (mqPutFree mq b) hnd (chains_putFree mq b (by rw [append_nil]; exact hb) h)

theorem mqState_init (data : Nat → Nat → BitVec 8) (msgSize poolSize : BitVec 32)
    (flag : IpcFlag) (n : Nat) :
    ∃ free, MqState (rtMqInit data msgSize poolSize flag) (fun _ => none) n Deque.empty free
      [] := by
  unfold rtMqInit
  simp only []
  generalize (poolSize / (((rtAlign msgSize).setWidth 16).setWidth 32 + mqHeaderSize)).setWidth 16
    = count
  generalize hmq : MessageQueue.mk (fun _ => none) data ((rtAlign msgSize).setWidth 16) count 0#16
    none none none flag = mq
  have hchains : MqChains mq [] [] := by
    rw [← hmq]
    exact ⟨rfl, rfl, rfl⟩
  have hmax : mq.maxMsgs = count := by rw [← hmq]
  have hent : mq.entry = 0#16 := by rw [← hmq]
  have hnd : ((range count.toNat).reverse ++ []).Nodup := by
    rw [append_nil]
    exact nodup_reverse.mpr nodup_range
  rcases chains_init mq hnd hchains with ⟨hch, hm, he⟩
  refine ⟨_, ⟨⟨hch, by rw [he, hent]; rfl⟩, ?_, Forall₂.nil, fun a b phase hab => ?_,
    ordered_empty⟩⟩
  · rw [hm, hmax, append_nil]
    rw [append_nil, split_iff]
    exact custody_perm _ (reverse_perm _).symm custody_all
  · exact nomatch hab

end State

structure MqInv (s : MqSys) : Prop where
  queues : ∀ n, ∃ free queue, MqState (s.queue n) s.held n (s.deque n) free queue
  returns : ∀ r ∈ s.returns, r.sent.length ≤ r.size → r.sent <+: r.recved

section Runs

variable {prioMax : Nat} {s s' : MqSys}

/-- One queue and the holding of one call change. -/
theorem mqInv_update {n a : Nat} {mq : MessageQueue} {d : Deque (List (BitVec 8))} (hs : MqInv s)
    (hold : ∀ h, s.held a = some h → h.queue = n) (hx : ∀ h, x = some h → h.queue = n)
    (hnew : ∃ free queue, MqState mq (update s.held a x) n d free queue) :
    MqInv { s with
      queue := update s.queue n mq
      held := update s.held a x
      deque := update s.deque n d } := by
  refine ⟨fun m => ?_, hs.returns⟩
  by_cases hm : m = n
  · simp only [hm, update_self]
    exact hnew
  simp only [update_of_ne hm]
  rcases hs.queues m with ⟨free, queue, hstate⟩
  refine ⟨free, queue, mqState_other _ _ queue a hstate (fun h hh => ?_) (fun h hh => ?_)⟩
  · rw [hold h hh]
    exact Ne.symm hm
  · rw [hx h hh]
    exact Ne.symm hm

theorem mqInv_finishRecv {t : Tid} {a n size : Nat} {timeout tickDelta tick : BitVec 32}
    {r : MqRecvResult} (hnone : s.held a = none) (hs : MqInv s)
    (h : mqRecvLoop prioMax s.k (s.queue n) (list n) t timeout tickDelta tick = some r) :
    MqInv (s.finishRecv t a n size r) := by
  unfold mqRecvLoop at h
  by_cases hempty : (s.queue n).entry = 0#16
  · rw [if_pos hempty] at h
    by_cases htime : timeout = 0#32
    · rw [if_pos htime] at h
      cases h
      exact ⟨hs.queues, hs.returns⟩
    rw [if_neg htime] at h
    simp only [bind_iff, pure_iff] at h
    rcases h with ⟨k', _, rfl⟩
    exact ⟨hs.queues, hs.returns⟩
  rw [if_neg hempty] at h
  simp only [bind_iff, pure_iff] at h
  rcases h with ⟨⟨mq', b⟩, hunlink, rfl⟩
  rcases hs.queues n with ⟨free, queue, hstate⟩
  rcases mqState_take _ _ queue a b hstate size hnone hempty hunlink with
    ⟨queue', m, ms, hq, hstate'⟩
  have hfirst : s.firstSent n = m.value := by
    unfold firstSent
    rw [hq]
  unfold finishRecv
  rw [hfirst]
  refine mqInv_update hs (fun h hh => ?_) (fun h hh => ?_) ⟨free, queue', hstate'⟩
  · exact nomatch (hnone.symm.trans hh)
  · cases hh
    rfl

theorem mqInv_send {a n : Nat} {buffer : List (BitVec 8)} (urgent : Bool) {r : MqAlloc}
    (hnone : s.held a = none) (hs : MqInv s) (h : rtMqSend (s.queue n) buffer = some (mq', r)) :
    (r = .failed .error ∨ r = .failed .efull) ∧ mq' = s.queue n ∨
      ∃ b, r = .got b ∧ MqInv { s with
        queue := update s.queue n mq'
        held := update s.held a (some ⟨n, b, .filling buffer urgent⟩) } := by
  simp only [rtMqSend, bind_iff, assert_iff] at h
  rcases h with ⟨_, h⟩
  split_ifs at h with hlen
  · cases h
    exact .inl ⟨.inl rfl, rfl⟩
  cases hfree : (s.queue n).free with rw [hfree] at h
  | none =>
    cases h
    exact .inl ⟨.inr rfl, rfl⟩
  | some b =>
    cases h
    rcases hs.queues n with ⟨free, queue, hstate⟩
    rcases mqState_alloc _ _ queue a b hstate buffer urgent hnone hfree (by omega) with
      ⟨free', hstate'⟩
    have hinv := mqInv_update hs (fun h hh => nomatch (hnone.symm.trans hh))
      (fun h hh => by cases hh; rfl) ⟨free', queue, hstate'⟩
    rw [update_eq_self] at hinv
    exact .inr ⟨b, rfl, hinv⟩

theorem mqInv_fill {a n b : Nat} {buffer : List (BitVec 8)} {urgent : Bool} (hs : MqInv s)
    (hheld : s.held a = some ⟨n, b, .filling buffer urgent⟩) :
    MqInv { s with
      queue := update s.queue n (mqFill (s.queue n) b buffer urgent)
      held := update s.held a (some ⟨n, b, .filled buffer urgent⟩) } := by
  rcases hs.queues n with ⟨free, queue, hstate⟩
  have hinv := mqInv_update hs
    (fun h hh => by rw [hheld] at hh; cases hh; rfl) (fun h hh => by cases hh; rfl)
    ⟨free, queue, mqState_fill _ _ queue a b hstate buffer hheld⟩
  rw [update_eq_self] at hinv
  exact hinv

theorem mqInv_link {a n b : Nat} {buffer : List (BitVec 8)} {urgent : Bool} {k : Kernel Queues}
    (hs : MqInv s) (hheld : s.held a = some ⟨n, b, .filled buffer urgent⟩) :
    MqInv { s with
      k := k
      queue := update s.queue n (mqLink (s.queue n) b urgent)
      held := update s.held a none
      deque := update s.deque n ((s.deque n).join buffer urgent) } := by
  rcases hs.queues n with ⟨free, queue, hstate⟩
  have hinv := mqInv_update hs (fun h hh => by rw [hheld] at hh; cases hh; rfl)
    (fun h hh => by cases hh)
    ⟨free, _, mqState_link _ _ queue a b hstate buffer hheld⟩
  exact ⟨hinv.queues, hinv.returns⟩

theorem mqInv_copy {a n b size : Nat} {sent : List (BitVec 8)} (hs : MqInv s)
    (hheld : s.held a = some ⟨n, b, .taken size sent⟩) :
    MqInv { s with
      held := update s.held a
        (some ⟨n, b, .copied size sent (mqCopy (s.queue n) b size)⟩) } := by
  rcases hs.queues n with ⟨free, queue, hstate⟩
  have hinv := mqInv_update hs
    (fun h hh => by rw [hheld] at hh; cases hh; rfl) (fun h hh => by cases hh; rfl)
    ⟨free, queue, mqState_copy _ _ queue a b hstate hheld⟩
  rw [update_eq_self, update_eq_self] at hinv
  exact hinv

theorem mqInv_free {a n b size : Nat} {sent recved : List (BitVec 8)} (hs : MqInv s)
    (hheld : s.held a = some ⟨n, b, .copied size sent recved⟩) :
    MqInv { s with
      queue := update s.queue n (mqPutFree (s.queue n) b)
      held := update s.held a none
      returns := ⟨size, sent, recved⟩ :: s.returns } := by
  rcases hs.queues n with ⟨free, queue, hstate⟩
  have hinv := mqInv_update hs (fun h hh => by rw [hheld] at hh; cases hh; rfl)
    (fun h hh => by cases hh)
    ⟨b :: free, queue, mqState_free _ _ queue a b hstate hheld⟩
  rw [update_eq_self] at hinv
  refine ⟨hinv.queues, fun r hr => ?_⟩
  rcases mem_cons.mp hr with rfl | hr
  · exact hstate.phases a b _ hheld
  · exact hs.returns r hr

theorem mqInv_reset {n : Nat} {k' : Kernel Queues} (hs : MqInv s)
    (h : rtMqReset prioMax s.k (s.queue n) (list n) = some (k', mq')) :
    MqInv { s with
      k := k'
      queue := update s.queue n mq'
      deque := update s.deque n (s.deque n).drop } := by
  simp only [rtMqReset, bind_iff, pure_iff, Prod.mk.injEq] at h
  rcases h with ⟨k1, _, mq1, hdrain, k2, _, rfl, rfl⟩
  rcases hs.queues n with ⟨free, queue, hstate⟩
  rcases mqState_drain _ _ queue hstate with ⟨mq2, hdrain', hstate'⟩
  rw [hdrain, Option.some.injEq] at hdrain'
  rw [← hdrain'] at hstate'
  refine ⟨fun m => ?_, hs.returns⟩
  by_cases hm : m = n
  · simp only [hm, update_self]
    exact ⟨_, _, hstate'⟩
  · simp only [update_of_ne hm]
    exact hs.queues m

theorem mqStep_inv {act : MqAction} (hs : MqInv s) (h : mqStep prioMax s act = some s') :
    MqInv s' := by
  cases act with simp only [mqStep, bind_iff, pure_iff, assert_iff, rtMqRecv, rtMqRecvReturn] at h
  | spawn t isStatic priority =>
    rcases h with ⟨k', _, rfl⟩
    exact ⟨hs.queues, hs.returns⟩
  | tick =>
    cases h
    exact ⟨hs.queues, hs.returns⟩
  | send a n buffer urgent =>
    rcases h with ⟨hnone, ⟨mq', r⟩, hr, h⟩
    rcases mqInv_send urgent hnone hs hr with ⟨hfail, rfl⟩ | ⟨b, rfl, hinv⟩
    · rw [update_eq_self] at h
      rcases hfail with rfl | rfl
      · cases h
        exact hs
      · cases h
        exact hs
    · cases h
      exact hinv
  | fill a =>
    split at h
    · next n b buffer urgent hheld =>
        cases h
        exact mqInv_fill hs hheld
    · exact nomatch h
  | link a =>
    split at h
    · next n b buffer urgent hheld =>
        simp only [bind_iff, pure_iff] at h
        rcases h with ⟨k', _, rfl⟩
        exact mqInv_link hs hheld
    · exact nomatch h
  | recv t a n size timeout =>
    rcases h with ⟨hnone, _, r, ⟨_, hr⟩, rfl⟩
    split_ifs at hr with hnow
    · rw [pure_iff] at hr
      rw [← hr]
      exact ⟨hs.queues, hs.returns⟩
    · exact mqInv_finishRecv hnone hs hr
  | recvReturn t a =>
    rcases h with ⟨hnone, _, c, _, r, hr, rfl⟩
    split_ifs at hr with herr
    · cases hr
      exact ⟨hs.queues, hs.returns⟩
    · exact mqInv_finishRecv hnone ⟨hs.queues, hs.returns⟩ hr
  | copy a =>
    split at h
    · next n b size sent hheld =>
        cases h
        exact mqInv_copy hs hheld
    · exact nomatch h
  | free a =>
    split at h
    · next n b size sent recved hheld =>
        cases h
        exact mqInv_free hs hheld
    · exact nomatch h
  | reset n =>
    rcases h with ⟨⟨k', mq'⟩, hr, rfl⟩
    exact mqInv_reset hs hr
  | timeout t =>
    rcases h with ⟨k', _, rfl⟩
    exact ⟨hs.queues, hs.returns⟩

theorem mqInv_init {prioMax : Nat} {data : Nat → Nat → Nat → BitVec 8}
    {msgSize poolSize : Nat → BitVec 32} {flag : Nat → IpcFlag} {tick : BitVec 32} :
    MqInv (mqSysInit prioMax data msgSize poolSize flag tick) := by
  refine ⟨fun n => ?_, nofun⟩
  rcases mqState_init (data n) (msgSize n) (poolSize n) (flag n) n with ⟨free, hstate⟩
  exact ⟨free, [], hstate⟩

theorem mqOk_of_inv (hs : MqInv s) : MqOk s := by
  refine ⟨fun n => ?_, fun n => ?_, hs.returns⟩
  · rcases hs.queues n with ⟨free, queue, hstate⟩
    exact ⟨free, queue, hstate.lists, hstate.split, hstate.contents.imp (fun _ _ h => h.1)⟩
  · rcases hs.queues n with ⟨free, queue, hstate⟩
    exact hstate.ordered

end Runs

/-- In every reachable state, for queues of any sizes, every block is in one place, the messages are
    in order, and receives with enough room have got what was sent. -/
theorem mq_conserves (prioMax : Nat) (data : Nat → Nat → Nat → BitVec 8)
    (msgSize poolSize : Nat → BitVec 32) (flag : Nat → IpcFlag) (tick : BitVec 32) (s : MqSys)
    (h : Reachable (mqStep prioMax) (mqSysInit prioMax data msgSize poolSize flag tick) s) :
    MqOk s :=
  mqOk_of_inv (reachable_inv MqInv mqStep_inv mqInv_init h)

/-- Two sends are in progress at once, an urgent one overtakes a linked message,
    and a reset finds one block with a receive. -/
theorem mq_conserves_overlap : ∃ s,
    exec (mqStep 32) (mqSysInit 32 (fun _ _ _ => 0#8) (fun _ => 2#32) (fun _ => 32#32)
        (fun _ => .fifo) 0#32)
      [.spawn 0 true 31, .send 1 0 [1#8] false, .send 2 0 [2#8, 3#8] true, .fill 1, .fill 2,
        .link 1, .link 2, .recv 0 3 0 4 0#32, .reset 0, .copy 3, .free 3] = some s ∧
      (s.returns, (s.queue 0).entry, (s.queue 0).tail)
        = ([⟨4, [2#8, 3#8], [2#8, 3#8, 0#8, 0#8]⟩], 0#16, none) ∧ MqOk s :=
  exists_viewed (fun s hs => mq_conserves 32 (fun _ _ _ => 0#8) (fun _ => 2#32)
    (fun _ => 32#32) (fun _ => .fifo) 0#32 s ⟨_, hs⟩) (by decide +kernel)

end Honeycomb
