import Mathlib.Data.Set.Card
import Honeycomb.Core.Mailbox
import Honeycomb.Lib.RingBuffer
import Honeycomb.Lib.Run
import Honeycomb.Theory.Wait

/-!
# Mailboxes Are Queues Without Lost Wake-Ups

A mailbox hands out the mails in the order in which they were put in, and nobody
sleeps next to something he could have.

Sending and receiving are mirror images: a sender uses up a free cell and makes
a mail available, a receiver uses up a mail and makes a free cell available.
`available` counts what there is for those who wait in a list, and the invariant
is about all lists at once: where somebody waits, what is available is promised
to threads that have been resumed and have yet to run.

A resumed thread that runs is no longer one of them, before it takes what was
promised to it. In between, one item of its list is promised to nobody. That list
is the parameter of `MailboxInv`.

## Theorems

* `mailbox_fifo`: The properties hold in every reachable state.
-/

namespace Honeycomb

open Function List MailboxSys Option Run

/-- Where each thread waits: in one of the two lists of its mailbox. -/
def MailboxSys.loc (s : MailboxSys) : Tid → Option Head :=
  locOf (fun c => waitList c.mailbox c.op) s.call

/-- The thread has been resumed from the list, other than by running out of time
    or by a reset, and has not run yet. -/
def MailboxSys.Resumed (s : MailboxSys) (h : Head) (t : Tid) : Prop :=
  s.loc t = some h ∧ s.k.state t = .ready ∧ (s.k.thread t).error = .eok

/-- The mails that have been received since the last reset are the first of those
    that have been sent; the counter and the offsets agree; and where somebody
    waits, what he waits for is promised to threads that have been resumed. -/
structure MailboxOk (s : MailboxSys) : Prop where
  fifo : ∀ n, s.received n <+: s.sent n
  bound : ∀ n, (s.mailbox n).entry.toNat ≤ (s.mailbox n).size.toNat
  offset : ∀ n, (s.mailbox n).inOffset.toNat =
    ((s.mailbox n).outOffset.toNat + (s.mailbox n).entry.toNat) % (s.mailbox n).size.toNat
  receivers : ∀ n, s.k.lists (lists n).receivers ≠ [] →
    ((s.mailbox n).entry.toNat : ℕ∞) ≤ {t | s.Resumed (lists n).receivers t}.encard
  senders : ∀ n, s.k.lists (lists n).senders ≠ [] →
    (((s.mailbox n).size.toNat - (s.mailbox n).entry.toNat : ℕ) : ℕ∞) ≤
      {t | s.Resumed (lists n).senders t}.encard

section Cells

variable (mb : Mailbox)

def Mailbox.mails : List (BitVec 32) :=
  RingBuffer.contents mb.msgPool mb.size.toNat mb.outOffset.toNat mb.entry.toNat

/-- The counter and the offsets agree. -/
structure MailboxCells : Prop where
  bound : mb.entry.toNat ≤ mb.size.toNat
  out : 0 < mb.size.toNat → mb.outOffset.toNat < mb.size.toNat
  offset : mb.inOffset.toNat = (mb.outOffset.toNat + mb.entry.toNat) % mb.size.toNat

/-- The next offset does not overflow, since the old one is below the size. -/
theorem next_toNat {offset : BitVec 16} (h : offset.toNat < mb.size.toNat) :
    (mb.next offset).toNat = (offset.toNat + 1) % mb.size.toNat := by
  rw [← RingBuffer.advance_eq_mod _ h]
  unfold Mailbox.next RingBuffer.advance
  have hadd : (offset + 1#16).toNat = offset.toNat + 1 := by bv_omega
  by_cases hwrap : mb.size.toNat ≤ offset.toNat + 1
  · rw [if_pos hwrap,
      if_pos (show mb.size ≤ offset + 1#16 by rw [BitVec.le_def, hadd]; exact hwrap)]
    rfl
  · rw [if_neg hwrap, if_neg (show ¬ mb.size ≤ offset + 1#16 by
      rw [BitVec.le_def, hadd]; exact hwrap), hadd]

theorem put_entry (hfree : mb.entry.toNat < mb.size.toNat) (value : BitVec 32) :
    (mb.put value).entry.toNat = mb.entry.toNat + 1 := by
  change (mb.entry + 1#16).toNat = _
  bv_omega

theorem get_entry (hmail : mb.entry ≠ 0#16) : mb.get.2.entry.toNat + 1 = mb.entry.toNat := by
  change (mb.entry - 1#16).toNat + 1 = _
  bv_omega

theorem cells_put {value : BitVec 32} (hc : MailboxCells mb)
    (hfree : mb.entry.toNat < mb.size.toNat) :
    MailboxCells (mb.put value) ∧ (mb.put value).mails = mb.mails ++ [value] := by
  have hentry := put_entry mb hfree value
  have hin : mb.inOffset.toNat < mb.size.toNat := by
    rw [hc.offset]
    exact Nat.mod_lt _ (by omega)
  refine ⟨⟨?_, hc.out, ?_⟩, ?_⟩
  · rw [hentry]
    exact hfree
  · rw [hentry]
    change (mb.next mb.inOffset).toNat = (mb.outOffset.toNat + (mb.entry.toNat + 1)) % mb.size.toNat
    rw [next_toNat mb hin, hc.offset, Nat.mod_add_mod]
    rfl
  · unfold Mailbox.mails
    rw [hentry]
    change RingBuffer.contents (update mb.msgPool mb.inOffset.toNat value) _ _ _ = _
    rw [hc.offset]
    exact RingBuffer.contents_push _ _ _ _ value hfree

theorem cells_get (hc : MailboxCells mb) (hmail : mb.entry ≠ 0#16) :
    MailboxCells mb.get.2 ∧ mb.mails = mb.get.1 :: mb.get.2.mails := by
  have hentry := get_entry mb hmail
  have hbound := hc.bound
  have hout := hc.out (by omega)
  have hnext : mb.get.2.outOffset.toNat = (mb.outOffset.toNat + 1) % mb.size.toNat :=
    next_toNat mb hout
  refine ⟨⟨?_, fun hpos => ?_, ?_⟩, ?_⟩
  · change mb.get.2.entry.toNat ≤ mb.size.toNat
    omega
  · rw [hnext]
    exact Nat.mod_lt _ hpos
  · change mb.inOffset.toNat = (mb.get.2.outOffset.toNat + mb.get.2.entry.toNat) % mb.size.toNat
    rw [hnext, Nat.mod_add_mod, hc.offset, ← hentry]
    congr 1
    omega
  · unfold Mailbox.mails
    rw [hnext, ← hentry]
    exact RingBuffer.contents_pop _ _ hout

end Cells

/-- The operation cannot go on: the mailbox is full, or empty. -/
def Mailbox.Stuck (mb : Mailbox) : MailboxOp → Prop
  | .send _ => mb.entry = mb.size
  | .recv => mb.entry = 0#16

/-- The mailbox after the operation. -/
def Mailbox.moved (mb : Mailbox) : MailboxOp → Mailbox
  | .send value => mb.put value
  | .recv => mb.get.2

/-- The mail the operation gets. -/
def Mailbox.got (mb : Mailbox) : MailboxOp → Option (BitVec 32)
  | .send _ => none
  | .recv => some mb.get.1

/-- The list of those who wait for the operation. -/
def MailboxSys.otherList (n : Nat) : MailboxOp → Head
  | .send _ => (lists n).receivers
  | .recv => (lists n).senders

/-- What a call does up to its next stop. A call that is `own` is made by the
    thread itself, and only such a call touches its control block. -/
inductive MailboxMove (prioMax n : Nat) (k : Kernel Queues) (mb : Mailbox) (t : Tid)
    (op : MailboxOp) (own : Prop) : MailboxResult → Prop
  | refuse (e : RtErr) (timeout tickDelta : BitVec 32) (he : e ≠ .eok) (hstuck : mb.Stuck op) :
      MailboxMove prioMax n k mb t op own ⟨k, mb, .done e, none, timeout, tickDelta⟩
  | giveUp (e e' : RtErr) (timeout tickDelta : BitVec 32) (he : e ≠ .eok) (hstuck : mb.Stuck op)
      (hown : own) :
      MailboxMove prioMax n k mb t op own ⟨setError k t e', mb, .done e, none, timeout, tickDelta⟩
  | wait (k' : Kernel Queues) (timeout tickDelta : BitVec 32) (hstuck : mb.Stuck op) (hown : own)
      (hb : Blocks (setError k t .eok) k' t (waitList n op) mb.flag) :
      MailboxMove prioMax n k mb t op own ⟨k', mb, .blocked, none, timeout, tickDelta⟩
  | move (k' : Kernel Queues) (timeout tickDelta : BitVec 32) (hfree : ¬ mb.Stuck op)
      (hr : resumeWaiting prioMax k (otherList n op) = some k') :
      MailboxMove prioMax n k mb t op own
        ⟨k', mb.moved op, .done .eok, mb.got op, timeout, tickDelta⟩

variable {tick tickDelta timeout value : BitVec 32} {k' : Kernel Queues} {t : Tid} {h : Head}
  {c : MailboxCall} {r : MailboxResult}

section Calls

variable {prioMax : Nat} (n : Nat) {k : Kernel Queues} {mb : Mailbox} {t : Tid} (own : Prop)
  {r : MailboxResult}

theorem mbSendLoop_moves (hown : own) (hs : k.state t = .ready)
    (h : mbSendLoop prioMax k mb (lists n) t value timeout tickDelta tick = some r) :
    MailboxMove prioMax n k mb t (.send value) own r := by
  unfold mbSendLoop at h
  by_cases hfull : mb.entry = mb.size
  · rw [if_pos hfull] at h
    by_cases htime : timeout = 0#32
    · rw [if_pos htime] at h
      cases h
      exact .giveUp .efull .eok timeout tickDelta nofun hfull hown
    rw [if_neg htime] at h
    simp only [bind_iff] at h
    rcases h with ⟨k', hk', h⟩
    cases h
    refine .wait k' timeout _ hfull hown (blocks_of_waitIn ?_ hk')
    exact (setError_state k t .eok t).trans hs
  · rw [if_neg hfull] at h
    simp only [bind_iff] at h
    rcases h with ⟨k', hk', h⟩
    cases h
    exact .move k' timeout tickDelta hfull hk'

theorem mbRecvLoop_moves (hown : own) (hs : k.state t = .ready)
    (h : mbRecvLoop prioMax k mb (lists n) t timeout tickDelta tick = some r) :
    MailboxMove prioMax n k mb t .recv own r := by
  unfold mbRecvLoop at h
  by_cases hempty : mb.entry = 0#16
  · rw [if_pos hempty] at h
    by_cases htime : timeout = 0#32
    · rw [if_pos htime] at h
      cases h
      have hk := setError_idem k t .eok .etimeout
      unfold setError at hk
      rw [hk]
      exact .giveUp .etimeout .etimeout timeout tickDelta nofun hempty hown
    · rw [if_neg htime] at h
      simp only [bind_iff] at h
      rcases h with ⟨k', hk', h⟩
      cases h
      refine .wait k' timeout _ hempty hown (blocks_of_waitIn ?_ hk')
      exact (setError_state k t .eok t).trans hs
  · rw [if_neg hempty] at h
    simp only [bind_iff] at h
    rcases h with ⟨k', hk', h⟩
    cases h
    exact .move k' timeout tickDelta hempty hk'

theorem rtMbSendWait_moves (ht : timeout = 0#32 ∨ own) (hs : own → k.state t = .ready)
    (h : rtMbSendWait prioMax k mb (lists n) t value timeout tick = some r) :
    MailboxMove prioMax n k mb t (.send value) own r := by
  unfold rtMbSendWait at h
  split_ifs at h with hnow
  · cases h
    exact .refuse .efull timeout 0#32 nofun hnow.1
  rcases ht with htime | hown
  · -- Without waiting there is room, and the loop is not entered.
    have hfull : mb.entry ≠ mb.size := fun hc => hnow ⟨hc, htime⟩
    unfold mbSendLoop at h
    rw [if_neg hfull] at h
    simp only [bind_iff] at h
    rcases h with ⟨k', hk', h⟩
    cases h
    exact .move k' timeout 0#32 hfull hk'
  · exact mbSendLoop_moves n own hown (hs hown) h

theorem rtMbRecv_moves (ht : timeout = 0#32 ∨ own) (hs : own → k.state t = .ready)
    (h : rtMbRecv prioMax k mb (lists n) t timeout tick = some r) :
    MailboxMove prioMax n k mb t .recv own r := by
  unfold rtMbRecv at h
  split_ifs at h with hnow
  · cases h
    exact .refuse .etimeout timeout 0#32 nofun hnow.1
  rcases ht with htime | hown
  · have hempty : mb.entry ≠ 0#16 := fun hc => hnow ⟨hc, htime⟩
    unfold mbRecvLoop at h
    rw [if_neg hempty] at h
    simp only [bind_iff] at h
    rcases h with ⟨k', hk', h⟩
    cases h
    exact .move k' timeout 0#32 hempty hk'
  · exact mbRecvLoop_moves n own hown (hs hown) h

end Calls

/-- What there is for those who wait in a list: mails for the receivers, free
    cells for the senders. -/
def available (mailbox : Nat → Mailbox) : Head → Nat
  | .suspend (.mailbox n) => (mailbox n).entry.toNat
  | .sender (.mailbox n) => (mailbox n).size.toNat - (mailbox n).entry.toNat
  | _ => 0

/-- The invariant. One item of the list `spare` may be promised to nobody. -/
structure MailboxInv (spare : Option Head) (s : MailboxSys) : Prop where
  wait : WaitInv s.k s.loc
  pending : ∀ t c, s.call t = some c → s.k.state t = .suspend → (s.k.thread t).error = .eok
  cells : ∀ n, MailboxCells (s.mailbox n)
  fifo : ∀ n, s.sent n = s.received n ++ (s.mailbox n).mails
  promised : ∀ h, h.IsWait → s.k.lists h ≠ [] →
    ((available s.mailbox h - if spare = some h then 1 else 0 : ℕ) : ℕ∞) ≤
      {t | s.Resumed h t}.encard

section Lists

variable (n : Nat) (op : MailboxOp)

theorem waitList_isWait : (waitList n op).IsWait := by
  cases op with
  | send value => trivial
  | recv => trivial

theorem otherList_isWait : (otherList n op).IsWait := by
  cases op with
  | send value => trivial
  | recv => trivial

variable (mailbox : Nat → Mailbox)

variable {n op mailbox} in
theorem available_stuck (hstuck : (mailbox n).Stuck op) :
    available mailbox (waitList n op) = 0 := by
  cases op with
  | send value =>
    change (mailbox n).size.toNat - (mailbox n).entry.toNat = 0
    rw [show (mailbox n).entry = (mailbox n).size from hstuck, Nat.sub_self]
  | recv =>
    change (mailbox n).entry.toNat = 0
    rw [show (mailbox n).entry = 0#16 from hstuck]
    rfl

theorem available_other {mb : Mailbox} {h : Head}
    (hr : h ≠ (lists n).receivers) (hs : h ≠ (lists n).senders) :
    available (update mailbox n mb) h = available mailbox h := by
  unfold available
  split
  · next m =>
      rw [update_of_ne (fun hc => hr (by rw [hc]; rfl))]
  · next m =>
      rw [update_of_ne (fun hc => hs (by rw [hc]; rfl))]
  · rfl

theorem available_moved (h : Head) (hc : MailboxCells (mailbox n))
    (hfree : ¬ (mailbox n).Stuck op) :
    available (update mailbox n ((mailbox n).moved op)) h =
      if h = waitList n op then available mailbox h - 1
      else if h = otherList n op then available mailbox h + 1
      else available mailbox h := by
  have hbound := hc.bound
  cases op with
  | send value =>
    have hlt : (mailbox n).entry.toNat < (mailbox n).size.toNat := by
      refine lt_of_le_of_ne hbound (fun he => hfree ?_)
      exact BitVec.eq_of_toNat_eq he
    have hentry := put_entry (mailbox n) hlt value
    by_cases hw : h = waitList n (.send value)
    · rw [if_pos hw, hw]
      change (update mailbox n ((mailbox n).put value) n).size.toNat -
        (update mailbox n ((mailbox n).put value) n).entry.toNat
        = (mailbox n).size.toNat - (mailbox n).entry.toNat - 1
      rw [update_self, hentry]
      rfl
    rw [if_neg hw]
    by_cases ho : h = otherList n (.send value)
    · rw [if_pos ho, ho]
      change (update mailbox n ((mailbox n).put value) n).entry.toNat = (mailbox n).entry.toNat + 1
      rw [update_self, hentry]
    · rw [if_neg ho]
      exact available_other n mailbox ho hw
  | recv =>
    have hentry := get_entry (mailbox n) hfree
    by_cases hw : h = waitList n .recv
    · rw [if_pos hw, hw]
      change (update mailbox n (mailbox n).get.2 n).entry.toNat = (mailbox n).entry.toNat - 1
      rw [update_self]
      omega
    rw [if_neg hw]
    by_cases ho : h = otherList n .recv
    · rw [if_pos ho, ho]
      change (update mailbox n (mailbox n).get.2 n).size.toNat -
        (update mailbox n (mailbox n).get.2 n).entry.toNat
        = (mailbox n).size.toNat - (mailbox n).entry.toNat + 1
      rw [update_self]
      change (mailbox n).size.toNat - (mailbox n).get.2.entry.toNat = _
      omega
    · rw [if_neg ho]
      exact available_other n mailbox hw ho

end Lists

section Frame

variable {prioMax : Nat} {spare : Option Head} (s : MailboxSys)

theorem mailbox_frame_thread (spare : Option Head) {s : MailboxSys} {k' : Kernel Queues} {t : Tid}
    (h : k'.thread t = s.k.thread t) :
    (∀ hd, s.Resumed hd t → k'.state t = .ready ∧ (k'.thread t).error = .eok) ∧
      (∀ c, s.call t = some c → MailboxInv spare s → k'.state t = .suspend →
        (k'.thread t).error = .eok) := by
  refine ⟨fun hd ht => ?_, fun c hc hs hsus => ?_⟩
  · rw [state_of_thread h, h]
    exact ht.2
  · rw [h]
    exact hs.pending t c hc (by rw [← state_of_thread h]; exact hsus)

/-- A change of the kernel in which nobody starts to wait. A thread that is woken was not one
    of the resumed ones. -/
theorem mailboxInv_calm (hs : MailboxInv spare s) (hq : Calm (fun _ => True) s.k k' s.loc) :
    MailboxInv spare { s with k := k' } := by
  refine ⟨hq.wait, fun u c hc hsus => ?_, hs.cells, hs.fifo, fun h hw hne => ?_⟩
  · rcases hq.thread u (by rw [MailboxSys.loc, locOf_of_call hc]; nofun) with hsame | hwoken
    · exact (mailbox_frame_thread spare hsame).2 c hc hs hsus
    · exact nomatch hwoken.2.1.symm.trans hsus
  refine le_trans (hs.promised h hw fun hnil => hne (hq.nil hw hnil))
    (Set.encard_le_encard fun u hu => ⟨hu.1, ?_⟩)
  rcases hq.thread u (by rw [hu.1]; nofun) with hsame | hwoken
  · exact (mailbox_frame_thread spare hsame).1 h hu
  · exact nomatch hwoken.1.symm.trans hu.2.1

end Frame

section Moves

variable {prioMax : Nat} (n : Nat) {s : MailboxSys} {t : Tid} (op : MailboxOp)

theorem mailboxInv_close (hzero : available s.mailbox h = 0) (hs : MailboxInv (some h) s) :
    MailboxInv none s := by
  refine { hs with promised := fun h' hw hne => ?_ }
  have hold := hs.promised h' hw hne
  by_cases hh : h' = h
  · rw [hh, hzero]
    simp only [Nat.zero_sub, Nat.cast_zero, zero_le]
  · rw [if_neg (fun hc => hh (some.inj hc).symm)] at hold
    exact hold

theorem resumed_leave (s : MailboxSys) (t : Tid) (h : Head) :
    {u | MailboxSys.Resumed { s with call := update s.call t none } h u}
      = {u | s.Resumed h u} \ {t} := by
  ext u
  have hloc : MailboxSys.loc { s with call := update s.call t none }
      = update s.loc t none := locOf_leave _ s.call t
  simp only [MailboxSys.Resumed, hloc, Set.mem_ofPred_eq, Set.mem_sdiff, Set.mem_singleton_iff]
  by_cases hu : u = t
  · simp only [hu, update_self, reduceCtorEq, false_and, not_true_eq_false, and_false]
  · simp only [update_of_ne hu, hu, not_false_eq_true, and_true]

theorem fifo_moved (k' : Kernel Queues) (hs : MailboxInv (some (waitList n op)) s)
    (hfree : ¬ (s.mailbox n).Stuck op) :
    MailboxCells ((s.mailbox n).moved op) ∧
      ∀ m, (record { s with
          k := k'
          mailbox := update s.mailbox n ((s.mailbox n).moved op) } n op
          ((s.mailbox n).got op)).sent m
        = (record { s with
          k := k'
          mailbox := update s.mailbox n ((s.mailbox n).moved op) } n op
          ((s.mailbox n).got op)).received m ++
            (update s.mailbox n ((s.mailbox n).moved op) m).mails := by
  have hc := hs.cells n
  have hbound := hc.bound
  cases op with
  | send value =>
    have hlt : (s.mailbox n).entry.toNat < (s.mailbox n).size.toNat := by
      refine lt_of_le_of_ne hbound (fun he => hfree ?_)
      exact BitVec.eq_of_toNat_eq he
    rcases cells_put (s.mailbox n) hc hlt with ⟨hcells, hmails⟩
    refine ⟨hcells, fun m => ?_⟩
    by_cases hm : m = n
    · simp only [record, hm, update_self, Mailbox.moved, hmails, hs.fifo n, append_assoc]
    · simp only [record, update_of_ne hm]
      exact hs.fifo m
  | recv =>
    rcases cells_get (s.mailbox n) hc hfree with ⟨hcells, hmails⟩
    refine ⟨hcells, fun m => ?_⟩
    by_cases hm : m = n
    · simp only [record, hm, update_self, Mailbox.moved, Mailbox.got, hs.fifo n, hmails,
        toList_some, append_assoc, singleton_append]
    · simp only [record, update_of_ne hm]
      exact hs.fifo m

theorem mailboxInv_record {value : Option (BitVec 32)} {spare : Option Head}
    (hfifo : ∀ m, (s.record n op value).sent m
      = (s.record n op value).received m ++ (s.mailbox m).mails)
    (hw : WaitInv s.k s.loc)
    (hp : ∀ t c, s.call t = some c → s.k.state t = .suspend → (s.k.thread t).error = .eok)
    (hc : ∀ n, MailboxCells (s.mailbox n))
    (hpr : ∀ h, h.IsWait → s.k.lists h ≠ [] →
      ((available s.mailbox h - if spare = some h then 1 else 0 : ℕ) : ℕ∞)
        ≤ {t | s.Resumed h t}.encard) : MailboxInv spare (s.record n op value) := by
  cases op with
  | send v => exact ⟨hw, hp, hc, hfifo, hpr⟩
  | recv => exact ⟨hw, hp, hc, hfifo, hpr⟩

/-- The operation goes through: what was promised is used up, and what it
    provides is promised to the thread it wakes, if there is one. -/
theorem mailboxInv_moved (hs : MailboxInv (some (waitList n op)) s)
    (hfree : ¬ (s.mailbox n).Stuck op) (hr : resumeWaiting prioMax s.k (otherList n op) = some k') :
    MailboxInv none (record { s with
      k := k'
      mailbox := update s.mailbox n ((s.mailbox n).moved op) } n op
      ((s.mailbox n).got op)) := by
  rcases fifo_moved n op k' hs hfree with ⟨hcells, hfifo⟩
  have hcells' : ∀ m, MailboxCells (update s.mailbox n ((s.mailbox n).moved op) m) := by
    intro m
    by_cases hm : m = n
    · rw [hm, update_self]
      exact hcells
    · rw [update_of_ne hm]
      exact hs.cells m
  have hwaiting : ∀ w ∈ s.k.lists (otherList n op), s.k.state w = .suspend :=
    fun w hw => ((hs.wait.mem w _ (otherList_isWait n op)).mp hw).1
  have havail := fun h => available_moved n op s.mailbox h (hs.cells n) hfree
  rcases resumeWaiting_cases hwaiting hr with ⟨hnil, rfl⟩ | ⟨w, hfirst, hb⟩
  · refine mailboxInv_record n op hfifo hs.wait hs.pending hcells' (fun h hw hne => ?_)
    have hold := hs.promised h hw hne
    simp only [havail h, reduceCtorEq, if_false, Nat.sub_zero]
    by_cases hh : h = waitList n op
    · rw [if_pos hh]
      rw [if_pos (by rw [hh])] at hold
      exact hold
    have ho : h ≠ otherList n op := by
      rintro rfl
      exact hne hnil
    rw [if_neg hh, if_neg ho]
    rw [if_neg (fun hc => hh (some.inj hc).symm), Nat.sub_zero] at hold
    exact hold
  have hinv := mailboxInv_calm s hs (calm_wakes hs.wait hb trivial)
  refine mailboxInv_record n op hfifo hinv.wait hinv.pending hcells' (fun h hw hne => ?_)
  have hold := hinv.promised h hw hne
  simp only [havail h, reduceCtorEq, if_false, Nat.sub_zero]
  by_cases hh : h = waitList n op
  · rw [if_pos hh]
    rw [if_pos (by rw [hh])] at hold
    exact hold
  rw [if_neg hh]
  rw [if_neg (fun hc => hh (some.inj hc).symm), Nat.sub_zero] at hold
  by_cases ho : h = otherList n op
  · -- The woken thread is one more that is promised something.
    rcases waiting_of_first hs.wait (otherList_isWait n op) hfirst with
      ⟨hsus, hloc⟩
    rcases call_of_loc hloc with ⟨c, hcall, _⟩
    have hpeok := hs.pending w c hcall hsus
    rw [if_pos ho]
    have hold0 := hs.promised h hw (by
      rw [ho]
      intro hnil
      rw [first_eq_head, hnil] at hfirst
      exact nomatch hfirst)
    rw [if_neg (fun hc => hh (some.inj hc).symm), Nat.sub_zero] at hold0
    have hnew : w ∉ {u | s.Resumed h u} := by
      intro hr
      exact nomatch (hsus.symm.trans hr.2.1)
    calc ((available s.mailbox h + 1 : ℕ) : ℕ∞)
        = (available s.mailbox h : ℕ∞) + 1 := by rw [Nat.cast_add, Nat.cast_one]
      _ ≤ {u | s.Resumed h u}.encard + 1 := by gcongr
      _ = (insert w {u | s.Resumed h u}).encard := (Set.encard_insert_of_notMem hnew).symm
      _ ≤ _ := Set.encard_le_encard (fun u hu => ?_)
    rcases Set.mem_insert_iff.mp hu with rfl | hu
    · exact ⟨ho ▸ hloc, hb.state, hb.error.trans hpeok⟩
    · have hut : u ≠ w := fun hc => hnew (hc ▸ hu)
      exact ⟨hu.1, (mailbox_frame_thread none (hb.of_ne u hut)).1 h hu⟩
  · rw [if_neg ho]
    exact hold

theorem resumeCall_cases {op : MailboxOp} {timeout tickDelta : BitVec 32}
    (hready : s.k.state t = .ready)
    (h : s.resumeCall prioMax t ⟨n, op, timeout, tickDelta⟩ = some r) :
    ((s.k.thread t).error ≠ .eok ∧
      r = ⟨s.k, s.mailbox n, .done (s.k.thread t).error, none, timeout, tickDelta⟩) ∨
    MailboxMove prioMax n s.k (s.mailbox n) t op True r := by
  by_cases herr : (s.k.thread t).error ≠ .eok
  · refine .inl ⟨herr, ?_⟩
    cases op with
    | send value =>
      simp only [resumeCall, rtMbSendReturn, if_pos herr, some.injEq] at h
      exact h.symm
    | recv =>
      simp only [resumeCall, rtMbRecvReturn, if_pos herr, some.injEq] at h
      exact h.symm
  refine .inr ?_
  cases op with simp only [resumeCall, rtMbSendReturn, if_neg herr, rtMbRecvReturn] at h
  | send value =>
    exact mbSendLoop_moves n True trivial hready h
  | recv =>
    exact mbRecvLoop_moves n True trivial hready h

variable (hs : MailboxInv none s)
include hs

theorem mailboxInv_spare : MailboxInv (some h) s := by
  refine { hs with promised := fun h' hw hne => ?_ }
  refine le_trans ?_ (hs.promised h' hw hne)
  exact_mod_cast Nat.sub_le _ _

theorem mailboxInv_leave (hready : s.k.state t = .ready) (hcall : s.call t = some c) :
    MailboxInv (some (waitList c.mailbox c.op)) { s with call := update s.call t none } := by
  have hloc : MailboxSys.loc { s with call := update s.call t none }
      = update s.loc t none := locOf_leave _ s.call t
  refine ⟨?_, forall_update_some nofun (fun u _ => hs.pending u), hs.cells, hs.fifo,
    fun h hw hne => ?_⟩
  · rw [hloc]
    exact waitInv_leave hs.wait (by rw [hready]; nofun)
  have hold := hs.promised h hw hne
  rw [resumed_leave]
  by_cases hh : h = waitList c.mailbox c.op
  · rw [if_pos (by rw [hh]), ENat.natCast_sub, Nat.cast_one]
    exact le_trans (tsub_le_tsub_right hold 1) (Set.encard_tsub_one_le_encard_sdiff_singleton _ t)
  rw [if_neg (fun hc => hh (some.inj hc).symm), Nat.sub_zero, Set.sdiff_singleton_eq_self]
  · exact hold
  · -- The thread waited in another list.
    intro hr
    have h1 := hr.1
    rw [MailboxSys.loc, locOf_of_call hcall] at h1
    exact hh (some.inj h1).symm

/-- A thread that comes back with an error was not one of the resumed ones. -/
theorem mailboxInv_leave_error (hready : s.k.state t = .ready) (hcall : s.call t = some c)
    (herr : (s.k.thread t).error ≠ .eok) :
    MailboxInv none { s with call := update s.call t none } := by
  have hleave := mailboxInv_leave hs hready hcall
  refine ⟨hleave.wait, hleave.pending, hs.cells, hs.fifo, fun h hw hne => ?_⟩
  rw [resumed_leave, Set.sdiff_singleton_eq_self (fun hr => herr hr.2.2)]
  exact hs.promised h hw hne

theorem mailboxInv_wait {timeout tickDelta : BitVec 32} {flag : IpcFlag}
    (hstuck : (s.mailbox n).Stuck op) (hcall : s.call t = none)
    (hb : Blocks (setError s.k t .eok) k' t (waitList n op) flag) :
    MailboxInv none { s with
      k := k'
      call := update s.call t (some ⟨n, op, timeout, tickDelta⟩) } := by
  have hw0 := waitInv_setError s.k t .eok hs.wait
  have hloc : MailboxSys.loc { s with
        k := k'
        call := update s.call t (some ⟨n, op, timeout, tickDelta⟩) }
      = update s.loc t (some (waitList n op)) := locOf_enter _ s.call t
  have hother : ∀ u, u ≠ t → k'.thread u = s.k.thread u := by
    intro u hu
    rw [hb.of_ne u hu, setError_of_ne hu]
  refine ⟨?_, forall_update_some (fun _ _ _ => ?_) (fun u hu c hc hsus => ?_), hs.cells, hs.fifo,
    fun h hw hne => ?_⟩
  · rw [hloc]
    exact waitInv_blocks hw0 (waitList_isWait n op) hb
  · rw [hb.error, setError_self]
  · exact (mailbox_frame_thread none (hother u hu)).2 c hc hs hsus
  by_cases hh : h = waitList n op
  · -- There is nothing in the list that has grown.
    rw [hh, available_stuck hstuck]
    simp only [Nat.zero_sub, Nat.cast_zero, zero_le]
  have hold := hs.promised h hw (by
    rw [← show k'.lists h = s.k.lists h from blocks_off hw0 hb hw hh]
    exact hne)
  refine le_trans hold (Set.encard_le_encard (fun u hu => ?_))
  have hut : u ≠ t := by
    rintro rfl
    have h1 := hu.1
    rw [MailboxSys.loc, locOf, hcall, map_none] at h1
    cases h1
  refine ⟨?_, (mailbox_frame_thread none (hother u hut)).1 h hu⟩
  rw [hloc, update_of_ne hut]
  exact hu.1

omit hs in
/-- Whichever way a call goes, the invariant is back at its next stop. -/
theorem mailboxInv_move {own : Prop} (hown : own → s.call t = none)
    (hs : MailboxInv (some (waitList n op)) s)
    (h : MailboxMove prioMax n s.k (s.mailbox n) t op own r) :
    MailboxInv none (s.finish t n op r) := by
  cases h with
  | refuse e timeout tickDelta he hstuck =>
    have hinv := mailboxInv_close (available_stuck hstuck) hs
    simp only [finish, if_neg he, update_eq_self]
    exact hinv
  | giveUp e e' timeout tickDelta he hstuck ho =>
    have hinv := mailboxInv_close (available_stuck hstuck) hs
    simp only [finish, if_neg he, update_eq_self]
    refine mailboxInv_calm s hinv (calm_setError hs.wait ?_)
    rw [MailboxSys.loc, locOf, hown ho, map_none]
  | wait k' timeout tickDelta hstuck ho hb =>
    have hinv := mailboxInv_close (available_stuck hstuck) hs
    simp only [finish, update_eq_self]
    exact mailboxInv_wait n op hinv hstuck (hown ho) hb
  | move k' timeout tickDelta hfree hr =>
    exact mailboxInv_moved n op hs hfree hr

theorem mailboxInv_callReturn (hready : s.k.state t = .ready) (hcall : s.call t = some c)
    (h : s.resumeCall prioMax t c = some r) :
    MailboxInv none ({ s with call := update s.call t none }.finish t c.mailbox c.op r) := by
  have hleave := mailboxInv_leave hs hready hcall
  rcases c with ⟨n, op, timeout, tickDelta⟩
  rcases resumeCall_cases n hready h with ⟨herr, rfl⟩ | hmove
  · have hinv := mailboxInv_leave_error hs hready hcall herr
    simp only [finish, if_neg herr, update_eq_self]
    exact hinv
  · exact mailboxInv_move n op (fun _ => update_self t none s.call) hleave hmove

theorem mailboxInv_reset {mb' : Mailbox}
    (h : rtMbReset prioMax s.k (s.mailbox n) (lists n) = some (k', mb')) :
    MailboxInv none { s with
      k := k'
      mailbox := update s.mailbox n mb'
      sent := update s.sent n []
      received := update s.received n [] } := by
  simp only [rtMbReset, bind_iff, pure_iff, Prod.mk.injEq] at h
  rcases h with ⟨k1, h1, k2, h2, k3, h3, rfl, rfl⟩
  rcases resumesAll_of_loop prioMax _ s.k k1 s.loc (lists n).receivers trivial hs.wait rfl h1 with
    ⟨hall1, hw1⟩
  have hinv1 := mailboxInv_calm s hs (calm_resumesAll hs.wait hw1 hall1 trivial trivial)
  rcases resumesAll_of_loop prioMax _ k1 k2 s.loc (lists n).senders trivial hw1 rfl h2 with
    ⟨hall2, hw2⟩
  have hinv2 := mailboxInv_calm _ hinv1 (calm_resumesAll hw1 hw2 hall2 trivial trivial)
  have hinv3 := mailboxInv_calm _ hinv2 (calm_schedule hw2 h3)
  -- Both lists of the mailbox are empty, so nobody is promised anything there.
  rcases rtSchedule_frame h3 with ⟨hsame, _⟩
  have hrecv : k3.lists (lists n).receivers = [] := by
    rw [hsame.lists, hall2.other (lists n).receivers trivial nofun, hall1.empty]
  have hsend : k3.lists (lists n).senders = [] := by
    rw [hsame.lists, hall2.empty]
  refine ⟨hinv3.wait, hinv3.pending, fun m => ?_, fun m => ?_, fun h hw hne => ?_⟩
  · by_cases hm : m = n
    · simp only [hm, update_self]
      exact ⟨Nat.zero_le _, fun hpos => hpos, (Nat.zero_mod _).symm⟩
    · simp only [update_of_ne hm]
      exact hs.cells m
  · by_cases hm : m = n
    · simp only [hm, update_self, nil_append]
      rfl
    · simp only [update_of_ne hm]
      exact hs.fifo m
  · have hr : h ≠ (lists n).receivers := by
      rintro rfl
      exact hne hrecv
    have hse : h ≠ (lists n).senders := by
      rintro rfl
      exact hne hsend
    rw [available_other n s.mailbox hr hse]
    exact hinv3.promised h hw hne

end Moves

section Runs

variable (prioMax : Nat) {s s' : MailboxSys}

theorem mailboxStep_inv {a : MailboxAction} (hs : MailboxInv none s)
    (h : mailboxStep prioMax s a = some s') : MailboxInv none s' := by
  cases a with simp only [mailboxStep, bind_iff, pure_iff, rtMbSend, assert_iff] at h
  | spawn t isStatic priority =>
    rcases h with ⟨k', hk', rfl⟩
    exact mailboxInv_calm s hs (calm_spawns hs.wait (spawns_of_spawn hk'))
  | tick =>
    cases h
    exact ⟨hs.wait, hs.pending, hs.cells, hs.fifo, hs.promised⟩
  | send t n value =>
    rcases h with ⟨r, hr, rfl⟩
    exact mailboxInv_move n _ False.elim (mailboxInv_spare hs)
      (rtMbSendWait_moves n False (.inl rfl) False.elim hr)
  | sendWait t n value timeout =>
    rcases h with ⟨hmay, r, hr, rfl⟩
    exact mailboxInv_move n _ (·.2) (mailboxInv_spare hs) (rtMbSendWait_moves n _ hmay (·.1) hr)
  | recv t n timeout =>
    rcases h with ⟨hmay, r, hr, rfl⟩
    exact mailboxInv_move n _ (·.2) (mailboxInv_spare hs) (rtMbRecv_moves n _ hmay (·.1) hr)
  | callReturn t =>
    rcases h with ⟨hready, c, hcall, r, hr, rfl⟩
    exact mailboxInv_callReturn hs hready hcall hr
  | reset n =>
    rcases h with ⟨⟨k', mb'⟩, hr, rfl⟩
    exact mailboxInv_reset n hs hr
  | timeout t =>
    rcases h with ⟨k', hk', rfl⟩
    exact mailboxInv_calm s hs (calm_wakes hs.wait (wakes_of_expire hk') trivial)

theorem mailboxInv_init {msgPool : Nat → Nat → BitVec 32} {size : Nat → BitVec 32}
    {flag : Nat → IpcFlag} {tick : BitVec 32} :
    MailboxInv none (mailboxSysInit prioMax msgPool size flag tick) := by
  refine ⟨waitInv_init, fun t c hc => ?_, fun n => ?_, fun n => rfl, fun h _ hne => ?_⟩
  · exact nomatch hc
  · exact ⟨Nat.zero_le _, fun hpos => hpos, (Nat.zero_mod _).symm⟩
  · exact absurd rfl hne

theorem mailboxOk_of_inv (hs : MailboxInv none s) : MailboxOk s := by
  refine ⟨fun n => ⟨_, (hs.fifo n).symm⟩, fun n => (hs.cells n).bound, fun n => (hs.cells n).offset,
    fun n hne => ?_, fun n hne => ?_⟩
  · have h := hs.promised (lists n).receivers trivial hne
    exact h
  · have h := hs.promised (lists n).senders trivial hne
    exact h

end Runs

/-- In every reachable state, for mailboxes of any size, the mails come out in
    the order they went in, the offsets agree with the counter, and nobody waits
    for something that is not promised to a thread that has been resumed. -/
theorem mailbox_fifo (prioMax : Nat) (msgPool : Nat → Nat → BitVec 32) (size : Nat → BitVec 32)
    (flag : Nat → IpcFlag) (tick : BitVec 32) (s : MailboxSys)
    (h : Reachable (mailboxStep prioMax) (mailboxSysInit prioMax msgPool size flag tick) s) :
    MailboxOk s :=
  mailboxOk_of_inv (reachable_inv (MailboxInv none) (mailboxStep_inv prioMax)
    (mailboxInv_init prioMax) h)

/-- A receiver is resumed for a mail that another thread takes first, and goes
    back to sleep with what is left of its time. -/
theorem mailbox_fifo_overtaken : ∃ s,
    exec (mailboxStep 32) (mailboxSysInit 32 (fun _ _ => 0#32) (fun _ => 2#32)
        (fun _ => .fifo) 0#32)
      [.spawn 0 true 31, .spawn 1 true 10, .spawn 2 true 10, .recv 1 0 5#32, .send 0 0 7#32,
        .recv 2 0 0#32, .tick, .callReturn 1, .send 0 0 8#32, .send 0 0 9#32] = some s ∧
      (s.sent 0, s.received 0, s.k.lists (lists 0).receivers, (s.call 1).map (·.timeout))
        = ([7#32, 8#32, 9#32], [7#32], [], some 4#32) ∧ MailboxOk s :=
  exists_viewed (fun s hs => mailbox_fifo 32 (fun _ _ => 0#32) (fun _ => 2#32) (fun _ => .fifo)
    0#32 s ⟨_, hs⟩) (by decide +kernel)

end Honeycomb
