import Honeycomb.Core.CanRx
import Honeycomb.Lib.Custody
import Honeycomb.Lib.Run

/-!
# The Receive Boxes of a CAN Device Are Conserved

Every box is on the free list, on the list of boxes in use, or held by one reader or one interrupt.
The counter of free boxes is the length of the free list, so the assertions on it hold. The messages
that were taken off the list of boxes in use, followed by those that are on it, are the messages
that were put on it, in order. What a reader copies is what it has taken. A message is lost only if
no box is free, and then it is the oldest one on the list, or the new one if there is none.

If no interrupt comes while another one is being handled, the order on the list is also the order
in which the messages were received. In general an interrupt that comes in between is the first
to put its message on the list.

A box that somebody holds is not on a list and is held by nobody else, so nobody else writes to it
or reads it. This is what the frame lemmas of the copies use, and it is a fact about things that
circulate, from the library.

## Theorems

* `can_boxes_conserved`: All of it, in every reachable state.
-/

namespace Honeycomb

open Function List Prod Run

/-- Who can hold a box. -/
inductive CanOwner where
  | reader (t : Nat)
  | isr (i : Nat)
  deriving DecidableEq, Repr

def CanReader.box : CanReader → Option Nat
  | .holding _ _ box => some box
  | .copied _ _ box => some box
  | _ => none

def CanIsr.box : CanIsr → Option Nat
  | .holding _ box => some box
  | .filled _ box => some box
  | .idle => none

def CanIsr.msg : CanIsr → Option CanMsg
  | .holding msg _ => some msg
  | .filled msg _ => some msg
  | .idle => none

/-- The box that a reader or an interrupt holds. -/
def canHolds (s : CanSys) : CanOwner → Option Nat
  | .reader t => (s.reader t).box
  | .isr i => (s.isr i).box

/-- What a reader has taken and not yet copied. -/
def CanReader.waiting (buffer : Nat → CanMsg) : CanReader → List CanMsg
  | .holding _ _ box => [buffer box]
  | _ => []

/-- The messages that a reader has taken off the list. -/
def takenBy (s : CanSys) (t : Nat) : List CanMsg :=
  (s.removed.filter fun e => e.2 = some t).map fst

/-- The messages whose box was taken for another one. -/
def canDropped (s : CanSys) : List CanMsg :=
  (s.removed.filter fun e => e.2 = none).map fst

/-- The messages of the interrupts that are being handled. -/
def inHand (s : CanSys) : List CanMsg :=
  s.handling.filterMap fun i => (s.isr i).msg

/-- The boxes are partitioned, the counter is right, the messages are in order and each is taken
    once, every reader gets what it has taken, and every message that got a box is on the list,
    was on it, or is on its way. The assertions hold. -/
structure CanOk (n : Nat) (s : CanSys) : Prop where
  boxes : Custody n (s.fifo.freelist ++ s.fifo.uselist) (canHolds s)
  count : s.fifo.freenumbers = s.fifo.freelist.length
  fifo : s.removed.map fst ++ s.fifo.uselist.map s.fifo.buffer = s.queued
  own : ∀ t, s.copied t ++ (s.reader t).waiting s.fifo.buffer = takenBy s t
  account : s.accepted.Perm (s.queued ++ inHand s)
  order : s.nested = false → s.accepted = s.queued ++ inHand s
  interrupt : ∀ i overflow msg, s.isr i = .idle →
    (canStep n s (.interrupt i overflow msg)).isSome = true
  release : ∀ t size msgs box, s.reader t = .copied size msgs box →
    (canStep n s (.release t)).isSome = true

/-- A message is lost only when an interrupt finds no box free. Then it is the oldest one on the
    list, or the new one if there is none on the list. -/
def LossOk (n : Nat) (s : CanSys) (a : CanAction) : Prop :=
  ∀ s', canStep n s a = some s' →
    (canDropped s' = canDropped s ∧ s'.refused = s.refused) ∨
    (s.fifo.freelist = [] ∧ ∃ i overflow msg, a = .interrupt i overflow (some msg) ∧
      ((∃ box uselist, s.fifo.uselist = box :: uselist ∧
          canDropped s' = canDropped s ++ [s.fifo.buffer box] ∧ s'.refused = s.refused) ∨
        (s.fifo.uselist = [] ∧ canDropped s' = canDropped s ∧
          s'.refused = s.refused ++ [msg])))

structure CanInv (n : Nat) (s : CanSys) : Prop where
  boxes : Custody n (s.fifo.freelist ++ s.fifo.uselist) (canHolds s)
  count : s.fifo.freenumbers = s.fifo.freelist.length
  fifo : s.removed.map fst ++ s.fifo.uselist.map s.fifo.buffer = s.queued
  own : ∀ t, s.copied t ++ (s.reader t).waiting s.fifo.buffer = takenBy s t
  account : s.accepted.Perm (s.queued ++ inHand s)
  order : s.nested = false → s.accepted = s.queued ++ inHand s
  filled : ∀ i msg box, s.isr i = .filled msg box → s.fifo.buffer box = msg
  handling : ∀ i, i ∈ s.handling ↔ s.isr i ≠ .idle
  once : s.handling.Nodup
  single : s.nested = false → s.handling.length ≤ 1

section Holders

variable (s : CanSys) {s' : CanSys} {n : Nat} {l : List Nat}

theorem custody_reader {t : Nat} {r : CanReader} (hisr : s'.isr = s.isr)
    (hreader : s'.reader = update s.reader t r)
    (h : Custody n l (update (canHolds s) (.reader t) r.box)) : Custody n l (canHolds s') := by
  refine Eq.mp (congrArg _ (funext fun o => ?_)) h
  cases o with
  | reader u =>
    by_cases hu : u = t
    · rw [hu, update_self, canHolds, hreader, update_self]
    · rw [update_of_ne (fun h => hu (CanOwner.reader.inj h)), canHolds, canHolds, hreader,
        update_of_ne hu]
  | isr i => rw [update_of_ne (by nofun), canHolds, canHolds, hisr]

theorem custody_isr {i : Nat} {p : CanIsr} (hreader : s'.reader = s.reader)
    (hisr : s'.isr = update s.isr i p)
    (h : Custody n l (update (canHolds s) (.isr i) p.box)) : Custody n l (canHolds s') := by
  refine Eq.mp (congrArg _ (funext fun o => ?_)) h
  cases o with
  | reader t => rw [update_of_ne (by nofun), canHolds, canHolds, hreader]
  | isr j =>
    by_cases hj : j = i
    · rw [hj, update_self, canHolds, hisr, update_self]
    · rw [update_of_ne (fun h => hj (CanOwner.isr.inj h)), canHolds, canHolds, hisr,
        update_of_ne hj]

/-- The messages on their way do not change when an interrupt that is not being handled changes. -/
theorem filterMap_msg_update (isr : Nat → CanIsr) {i : Nat} (p : CanIsr) {l : List Nat}
    (hi : i ∉ l) :
    l.filterMap (fun j => (update isr i p j).msg) = l.filterMap fun j => (isr j).msg := by
  refine filterMap_congr (fun j hj => ?_)
  have hne : j ≠ i := by
    intro heq
    rw [heq] at hj
    exact hi hj
  rw [update_of_ne hne]

end Holders

section Interrupts

variable {n : Nat} {s : CanSys} {i : Nat} (msg : CanMsg) {box : Nat}

variable (hinv : CanInv n s)
include hinv

/-- An interrupt has got a box. `removed` also has what it has taken from the list of boxes in
    use. -/
theorem canInv_got {freelist uselist : List Nat} {freenumbers : Nat}
    {removed : List (CanMsg × Option Nat)} {rcvpkg dropedrcvpkg : BitVec 32}
    (hidle : s.isr i = .idle)
    (hperm : (s.fifo.freelist ++ s.fifo.uselist).Perm (box :: (freelist ++ uselist)))
    (hcount : freenumbers = freelist.length)
    (hfifo : removed.map fst ++ uselist.map s.fifo.buffer = s.queued)
    (hremoved : ∀ t, (removed.filter fun e => e.2 = some t).map fst = takenBy s t) :
    CanInv n (isrTake
      { s with fifo := { s.fifo with freelist := freelist, uselist := uselist
                                     freenumbers := freenumbers }
               rcvpkg := rcvpkg, dropedrcvpkg := dropedrcvpkg, removed := removed } i msg box) := by
  have hnot : i ∉ s.handling := fun hmem => (hinv.handling i).mp hmem hidle
  have hhand : (s.handling ++ [i]).filterMap (fun j => (update s.isr i (.holding msg box) j).msg) =
      inHand s ++ [msg] := by
    rw [filterMap_append, filterMap_msg_update s.isr _ hnot]
    simp only [filterMap_cons, filterMap_nil, update_self, CanIsr.msg]
    rfl
  have hholds : canHolds s (.isr i) = none := by
    rw [canHolds, hidle]
    rfl
  -- no reader has taken anything
  refine ⟨?_, hcount, hfifo, fun t => (hinv.own t).trans (hremoved t).symm, ?_, fun hn => ?_,
    fun j m b hj => ?_, fun j => ?_, nodup_append_comm.mp (nodup_cons.mpr ⟨hnot, hinv.once⟩),
    fun hn => ?_⟩
  · have htake := custody_take hperm hholds hinv.boxes
    exact custody_isr s rfl rfl htake
  · refine List.Perm.trans ?_ (.of_eq (congrArg (s.queued ++ ·) hhand.symm))
    rw [← append_assoc]
    exact hinv.account.append_right _
  · -- nothing was being handled, so this message comes after all others
    refine Eq.trans ?_ (congrArg (s.queued ++ ·) hhand.symm)
    show s.accepted ++ [msg] = _
    rw [hinv.order (Bool.or_eq_false_iff.mp hn).1, append_assoc]
  · simp only [isrTake] at hj
    by_cases hji : j = i
    · rw [hji, update_self] at hj
      exact nomatch hj
    · rw [update_of_ne hji] at hj
      exact hinv.filled j m b hj
  · simp only [isrTake, mem_append, mem_singleton]
    by_cases hji : j = i
    · rw [hji, update_self]
      simp only [or_true, ne_eq, reduceCtorEq, not_false_eq_true]
    · rw [update_of_ne hji, hinv.handling j]
      simp only [hji, or_false]
  · have hnil := (Bool.or_eq_false_iff.mp hn).2
    rw [Bool.not_eq_false', List.isEmpty_iff] at hnil
    rw [hnil]
    exact Nat.le_refl 1

theorem fifo_removed {uselist : List Nat}
    (huse : s.fifo.uselist = box :: uselist) {who : Option Nat} :
    (s.removed ++ [(s.fifo.buffer box, who)]).map fst ++ uselist.map s.fifo.buffer = s.queued := by
  have hfifo := hinv.fifo
  rw [huse, map_cons] at hfifo
  rw [map_append, map_singleton, append_assoc, singleton_append]
  exact hfifo

theorem canInv_counters {rcvpkg dropedrcvpkg : BitVec 32} {refused : List CanMsg} :
    CanInv n { s with rcvpkg := rcvpkg, dropedrcvpkg := dropedrcvpkg, refused := refused } :=
  ⟨hinv.boxes, hinv.count, hinv.fifo, hinv.own, hinv.account, hinv.order, hinv.filled,
    hinv.handling, hinv.once, hinv.single⟩

theorem canInv_interrupt (hidle : s.isr i = .idle) :
    ∃ s', isrRxInd1 s i msg = some s' ∧ CanInv n s' ∧
      ((s.fifo.freelist ≠ [] ∧ canDropped s' = canDropped s ∧ s'.refused = s.refused) ∨
        (s.fifo.freelist = [] ∧ ∃ box uselist, s.fifo.uselist = box :: uselist ∧
          canDropped s' = canDropped s ++ [s.fifo.buffer box] ∧ s'.refused = s.refused) ∨
        (s.fifo.freelist = [] ∧ s.fifo.uselist = [] ∧ canDropped s' = canDropped s ∧
          s'.refused = s.refused ++ [msg])) := by
  cases hfree : s.fifo.freelist with
  | cons box freelist =>
    have hcount : s.fifo.freenumbers = freelist.length + 1 := by
      rw [hinv.count, hfree, length_cons]
    have hpos : 0 < s.fifo.freenumbers := by omega
    have hstep : isrRxInd1 s i msg = some (isrTake
        { s with fifo := { s.fifo with freelist := freelist
                                       freenumbers := s.fifo.freenumbers - 1 }
                 rcvpkg := s.rcvpkg + 1 } i msg box) := by
      simp only [isrRxInd1, hfree, some_bind, (rtAssert_eq_some _ ()).mpr hpos]
    refine ⟨_, hstep, canInv_got msg hinv hidle ?_ (by omega) hinv.fifo fun t => rfl,
      .inl ⟨cons_ne_nil _ _, rfl, rfl⟩⟩
    rw [hfree, cons_append]
  | nil =>
    cases huse : s.fifo.uselist with
    | cons box uselist =>
      have hstep : isrRxInd1 s i msg = some (isrTake
          { s with fifo := { s.fifo with uselist := uselist }
                   rcvpkg := s.rcvpkg + 1
                   dropedrcvpkg := s.dropedrcvpkg + 1
                   removed := s.removed ++ [(s.fifo.buffer box, none)] } i msg box) := by
        simp only [isrRxInd1, hfree, huse]
      refine ⟨_, hstep, ?_, .inr (.inl ⟨rfl, box, uselist, rfl, ?_, rfl⟩)⟩
      · refine canInv_got msg hinv hidle ?_ hinv.count (fifo_removed hinv huse) fun t => ?_
        · rw [hfree, huse, nil_append, nil_append]
        · rw [filter_append]
          simp only [filter_cons, filter_nil, reduceCtorEq, decide_false, Bool.false_eq_true,
            if_false, append_nil]
          rfl
      · simp only [isrTake, canDropped, filter_append, map_append, filter_cons,
          filter_nil, decide_true, if_true, map_cons, map_nil]
    | nil =>
      have hstep : isrRxInd1 s i msg = some
          { s with rcvpkg := s.rcvpkg + 1, refused := s.refused ++ [msg] } := by
        simp only [isrRxInd1, hfree, huse]
      exact ⟨_, hstep, canInv_counters hinv, .inr (.inr ⟨rfl, rfl, rfl, rfl⟩)⟩

theorem canInv_fill (hisr : s.isr i = .holding msg box) :
    CanInv n { s with fifo := { s.fifo with buffer := update s.fifo.buffer box msg }
                      isr := update s.isr i (.filled msg box) } := by
  have hhold : canHolds s (.isr i) = some box := by
    rw [canHolds, hisr]
    rfl
  have hapart := hinv.boxes.apart _ _ hhold
  -- Nobody else has to do with this box.
  have hsame : ∀ b, b ≠ box → update s.fifo.buffer box msg b = s.fifo.buffer b :=
    fun b hb => update_of_ne hb _ _
  have hhand : s.handling.filterMap
      (fun j => (update s.isr i (.filled msg box) j).msg) = inHand s := by
    refine filterMap_congr (fun j _ => field_update CanIsr.msg rfl ?_ j)
    rw [hisr]
    rfl
  refine ⟨?_, hinv.count, ?_, fun t => ?_, ?_, fun hn => ?_, fun j m b hj => ?_, fun j => ?_,
    hinv.once, hinv.single⟩
  · exact custody_isr s rfl rfl (custody_keep hhold hinv.boxes)
  · refine Eq.trans (congrArg _ (map_congr_left (fun b hb => hsame b (fun heq => ?_)))) hinv.fifo
    rw [heq] at hb
    exact hapart (mem_append_right _ hb)
  · refine Eq.trans (congrArg _ ?_) (hinv.own t)
    cases hreader : s.reader t with
    | holding size msgs b =>
      -- The box of a reader is another one.
      have hne : b ≠ box := by
        intro heq
        have hreadhold : canHolds s (.reader t) = some box := by
          rw [canHolds, hreader, ← heq]
          rfl
        exact absurd (hinv.boxes.once _ _ box hreadhold hhold) (by nofun)
      simp only [CanReader.waiting, hsame b hne]
    | done result => rfl
    | loop size msgs => rfl
    | copied size msgs b => rfl
  · show s.accepted.Perm (s.queued ++ s.handling.filterMap _)
    rw [hhand]
    exact hinv.account
  · show s.accepted = s.queued ++ s.handling.filterMap _
    rw [hhand]
    exact hinv.order hn
  · by_cases hji : j = i
    · rw [hji] at hj
      simp only [update_self, CanIsr.filled.injEq] at hj
      rw [← hj.2, ← hj.1]
      exact update_self _ _ _
    simp only [update_of_ne hji] at hj
    have hne : b ≠ box := by
      intro heq
      have hother : canHolds s (.isr j) = some box := by
        rw [canHolds, hj, ← heq]
        rfl
      exact hji (CanOwner.isr.inj (hinv.boxes.once _ _ box hother hhold))
    exact (hsame b hne).trans (hinv.filled j m b hj)
  · by_cases hji : j = i
    · rw [hji, hinv.handling i, hisr]
      simp only [update_self, ne_eq, reduceCtorEq, not_false_eq_true]
    · rw [hinv.handling j]
      simp only [update_of_ne hji]

theorem canInv_link (hisr : s.isr i = .filled msg box) :
    CanInv n { s with fifo := { s.fifo with uselist := s.fifo.uselist ++ [box] }
                      isr := update s.isr i .idle
                      queued := s.queued ++ [msg]
                      handling := s.handling.erase i } := by
  have hhold : canHolds s (.isr i) = some box := by
    rw [canHolds, hisr]
    rfl
  have hmem : i ∈ s.handling := (hinv.handling i).mpr (by
    rw [hisr]
    nofun)
  have hnot : i ∉ s.handling.erase i := hinv.once.not_mem_erase
  have hmsg : (s.isr i).msg = some msg := by
    rw [hisr]
    rfl
  have hhand : (s.handling.erase i).filterMap (fun j => (update s.isr i .idle j).msg) =
      (s.handling.erase i).filterMap fun j => (s.isr j).msg :=
    filterMap_msg_update s.isr .idle hnot
  refine ⟨?_, hinv.count, ?_, hinv.own, ?_, fun hn => ?_, fun j m b hj => ?_, fun j => ?_,
    hinv.once.erase i, fun hn => ?_⟩
  · refine custody_isr s rfl rfl (custody_give ?_ hhold hinv.boxes)
    rw [← append_assoc]
    exact perm_append_singleton _ _
  · rw [map_append, map_singleton, hinv.filled i msg box hisr, ← append_assoc, hinv.fifo]
  · -- the message goes from those on their way to the list
    show s.accepted.Perm (s.queued ++ [msg] ++ (s.handling.erase i).filterMap _)
    rw [hhand]
    have hsplit :
        (inHand s).Perm (msg :: (s.handling.erase i).filterMap fun j => (s.isr j).msg) := by
      have hperm := (perm_cons_erase hmem).filterMap fun j => (s.isr j).msg
      simp only [filterMap_cons, hmsg] at hperm
      exact hperm
    rw [append_assoc, singleton_append]
    exact hinv.account.trans (hsplit.append_left _)
  · -- it was the only one
    show s.accepted = s.queued ++ [msg] ++ (s.handling.erase i).filterMap _
    have hone : s.handling = [i] := by
      have hlen := hinv.single hn
      cases hl : s.handling with
      | nil =>
        cases hl ▸ hmem
      | cons j js =>
        rw [hl, length_cons] at hlen
        have hnil : js = [] := length_eq_zero_iff.mp (by omega)
        rw [hl, hnil, mem_singleton] at hmem
        rw [hnil, hmem]
    have horder := hinv.order hn
    unfold inHand at horder
    simp only [hone, filterMap_cons, hmsg, filterMap_nil] at horder
    rw [horder, hone, erase_cons_head, filterMap_nil, append_nil]
  · by_cases hji : j = i
    · rw [hji] at hj
      simp only [update_self, reduceCtorEq] at hj
    · simp only [update_of_ne hji] at hj
      exact hinv.filled j m b hj
  · by_cases hji : j = i
    · rw [hji]
      simp only [update_self, ne_eq, not_true_eq_false, iff_false]
      exact hnot
    · show j ∈ s.handling.erase i ↔ update s.isr i .idle j ≠ .idle
      rw [update_of_ne hji, mem_erase_of_ne hji, hinv.handling j]
  · have hlen := hinv.single hn
    have hle := length_erase_le (a := i) (l := s.handling)
    exact le_trans hle hlen

end Interrupts

section Readers

variable {n : Nat} {s : CanSys} (t : Nat) {size msgs : Int} {box : Nat}

variable (hinv : CanInv n s)
include hinv

/-- A reader goes on to `r`. What the other readers have taken and copied is as before. -/
theorem canInv_reads {r : CanReader} {freelist uselist : List Nat} {freenumbers : Nat}
    {removed : List (CanMsg × Option Nat)} {copied : Nat → List CanMsg}
    (hboxes : Custody n (freelist ++ uselist) (update (canHolds s) (.reader t) r.box))
    (hcount : freenumbers = freelist.length)
    (hfifo : removed.map fst ++ uselist.map s.fifo.buffer = s.queued)
    (hothers : ∀ u, u ≠ t → copied u = s.copied u ∧
      (removed.filter fun e => e.2 = some u).map fst = takenBy s u)
    (hmine : copied t ++ r.waiting s.fifo.buffer = (removed.filter fun e => e.2 = some t).map fst) :
    CanInv n { s with fifo := { s.fifo with freelist := freelist, uselist := uselist
                                            freenumbers := freenumbers }
                      reader := update s.reader t r, removed := removed, copied := copied } := by
  refine { hinv with boxes := ?_, count := hcount, fifo := hfifo, own := fun u => ?_ }
  · exact custody_reader s rfl rfl hboxes
  by_cases hu : u = t
  · rw [hu]
    simp only [update_self]
    exact hmine
  · simp only [update_of_ne hu, (hothers u hu).1]
    exact (hinv.own u).trans (hothers u hu).2.symm

/-- A reader that has nothing to copy has copied all it has taken. -/
theorem own_copied (hwait : (s.reader t).waiting s.fifo.buffer = []) :
    s.copied t = takenBy s t := by
  rw [← hinv.own t, hwait, append_nil]

theorem canInv_reader {r : CanReader} (hold : (s.reader t).box = none)
    (hnew : r.box = none) : CanInv n { s with reader := update s.reader t r } := by
  have hwait : ∀ q : CanReader, q.box = none → q.waiting s.fifo.buffer = [] := by
    intro q hq
    cases q with
    | holding size' msgs' b => exact nomatch hq
    | done result => rfl
    | loop size' msgs' => rfl
    | copied size' msgs' b => rfl
  refine canInv_reads t hinv (custody_keep (hold.trans hnew.symm) hinv.boxes) hinv.count
    hinv.fifo (fun u _ => ⟨rfl, rfl⟩) ?_
  rw [hwait r hnew, append_nil]
  exact own_copied t hinv (hwait _ hold)

theorem canInv_take {uselist : List Nat}
    (hreader : s.reader t = .loop size msgs) (huse : s.fifo.uselist = box :: uselist) :
    CanInv n { s with fifo := { s.fifo with uselist := uselist }
                      reader := update s.reader t (.holding size msgs box)
                      removed := s.removed ++ [(s.fifo.buffer box, some t)] } := by
  have hnone : canHolds s (.reader t) = none := by
    rw [canHolds, hreader]
    rfl
  refine canInv_reads t hinv (custody_take ?_ hnone hinv.boxes) hinv.count
    (fifo_removed hinv huse) (fun u hu => ⟨rfl, ?_⟩) ?_
  · rw [huse]
    exact perm_middle
  · have hne : ¬ (some t : Option Nat) = some u := fun h => hu (Option.some.inj h).symm
    simp only [filter_append, filter_cons, filter_nil, hne, decide_false, Bool.false_eq_true,
      if_false, append_nil]
    rfl
  · -- what it has taken now is what waits to be copied
    rw [own_copied t hinv (by rw [hreader]; rfl), filter_append, map_append]
    simp only [filter_cons, filter_nil, decide_true, if_true, map_cons, map_nil]
    rfl

theorem canInv_copy (hreader : s.reader t = .holding size msgs box) :
    CanInv n { s with reader := update s.reader t (.copied size msgs box)
                      copied := update s.copied t (s.copied t ++ [s.fifo.buffer box]) } := by
  have hsome : canHolds s (.reader t) = some box := by
    rw [canHolds, hreader]
    rfl
  refine canInv_reads t hinv (custody_keep hsome hinv.boxes) hinv.count hinv.fifo
    (fun u hu => ⟨update_of_ne hu _ _, rfl⟩) ?_
  have hown := hinv.own t
  rw [hreader] at hown
  rw [update_self]
  exact (append_nil _).trans hown

theorem canInv_release (hreader : s.reader t = .copied size msgs box) :
    CanInv n { s with fifo := { s.fifo with freelist := s.fifo.freelist ++ [box]
                                            freenumbers := s.fifo.freenumbers + 1 }
                      reader := update s.reader t (.loop size (msgs - canMsgSz)) } := by
  have hsome : canHolds s (.reader t) = some box := by
    rw [canHolds, hreader]
    rfl
  refine canInv_reads t hinv (custody_give ?_ hsome hinv.boxes) ?_ hinv.fifo
    (fun u _ => ⟨rfl, rfl⟩) ?_
  · rw [append_assoc, singleton_append]
    exact perm_middle
  · rw [length_append, length_singleton, hinv.count]
  · exact (append_nil _).trans (own_copied t hinv (by rw [hreader]; rfl))

theorem release_room
    (hreader : s.reader t = .copied size msgs box) : s.fifo.freenumbers + 1 ≤ n := by
  have hsome : canHolds s (.reader t) = some box := by
    rw [canHolds, hreader]
    rfl
  have hlt := custody_room (.reader t) hsome hinv.boxes
  rw [length_append] at hlt
  rw [hinv.count]
  omega

end Readers

section Steps

variable {n : Nat} {s s' : CanSys}

theorem interrupt_spec {i : Nat} (overflow : Bool) (msg : Option CanMsg) (hinv : CanInv n s)
    (hidle : s.isr i = .idle) :
    ∃ s', canStep n s (.interrupt i overflow msg) = some s' ∧ CanInv n s' ∧
      LossOk n s (.interrupt i overflow msg) := by
  -- The counter of overflows has no part in what follows.
  let s0 : CanSys := if overflow then { s with dropedrcvpkg := s.dropedrcvpkg + 1 } else s
  have hs0 : CanInv n s0 ∧ s0.isr = s.isr ∧ s0.fifo = s.fifo ∧ s0.refused = s.refused ∧
      canDropped s0 = canDropped s := by
    cases overflow with
    | true => exact ⟨canInv_counters hinv, rfl, rfl, rfl, rfl⟩
    | false => exact ⟨hinv, rfl, rfl, rfl, rfl⟩
  rcases hs0 with ⟨hinv0, hisr0, hfifo0, hrefused0, hdropped0⟩
  cases msg with
  | none =>
    have hstep : canStep n s (.interrupt i overflow none) = some s0 := by
      simp only [canStep, hidle]
      rfl
    refine ⟨s0, hstep, hinv0, fun s1 hs1 => .inl ?_⟩
    rw [hstep] at hs1
    cases hs1
    exact ⟨hdropped0, hrefused0⟩
  | some msg =>
    rcases canInv_interrupt msg hinv0 (by rw [hisr0]; exact hidle) with
      ⟨s1, hs1, hinv1, hloss⟩
    have hstep : canStep n s (.interrupt i overflow (some msg)) = some s1 := by
      simp only [canStep, hidle]
      exact hs1
    refine ⟨s1, hstep, hinv1, fun s2 hs2 => ?_⟩
    rw [hstep] at hs2
    cases hs2
    rw [hfifo0, hrefused0, hdropped0] at hloss
    rcases hloss with ⟨-, hdrop, href⟩ | ⟨hfree, hcase⟩ | ⟨hfree, huse, hdrop, href⟩
    · exact .inl ⟨hdrop, href⟩
    · exact .inr ⟨hfree, i, overflow, msg, rfl, .inl hcase⟩
    · exact .inr ⟨hfree, i, overflow, msg, rfl, .inr ⟨huse, hdrop, href⟩⟩

theorem canInv_step {a : CanAction} (hinv : CanInv n s) (hstep : canStep n s a = some s') :
    CanInv n s' ∧ LossOk n s a := by
  -- Most steps lose nothing.
  have hkeep : canDropped s' = canDropped s → s'.refused = s.refused → LossOk n s a := by
    intro hdrop href s1 hs1
    rw [hstep] at hs1
    cases hs1
    exact .inl ⟨hdrop, href⟩
  cases a with
  | interrupt i overflow msg =>
    cases hisr : s.isr i with
    | idle =>
      rcases interrupt_spec overflow msg hinv hisr with ⟨s1, hs1, hinv1, hloss⟩
      rw [hstep, Option.some.injEq] at hs1
      rw [hs1]
      exact ⟨hinv1, hloss⟩
    | holding m b => simp only [canStep, hisr, reduceCtorEq] at hstep
    | filled m b => simp only [canStep, hisr, reduceCtorEq] at hstep
  | fill i =>
    simp only [canStep] at hstep
    split at hstep
    · next msg box hisr =>
      cases hstep
      exact ⟨canInv_fill msg hinv hisr, hkeep rfl rfl⟩
    · exact nomatch hstep
  | link i =>
    simp only [canStep] at hstep
    split at hstep
    · next msg box hisr =>
      cases hstep
      exact ⟨canInv_link msg hinv hisr, hkeep rfl rfl⟩
    · exact nomatch hstep
  | call t msgs =>
    simp only [canStep] at hstep
    split at hstep
    · next result hreader =>
      cases hstep
      refine ⟨canInv_reader t hinv ?_ rfl, hkeep rfl rfl⟩
      rw [hreader]
      rfl
    · exact nomatch hstep
  | take t =>
    simp only [canStep] at hstep
    split at hstep
    · next size msgs hreader =>
      have hbox : (s.reader t).box = none := by
        rw [hreader]
        rfl
      unfold canIntRx1 at hstep
      split_ifs at hstep with hzero
      · cases hstep
        exact ⟨canInv_reader t hinv hbox rfl, hkeep rfl rfl⟩
      cases huse : s.fifo.uselist with simp only [huse] at hstep
      | nil =>
        cases hstep
        exact ⟨canInv_reader t hinv hbox rfl, hkeep rfl rfl⟩
      | cons box uselist =>
        cases hstep
        refine ⟨canInv_take t hinv hreader huse, hkeep ?_ rfl⟩
        simp only [canDropped, filter_append, filter_cons, filter_nil,
          reduceCtorEq, decide_false, Bool.false_eq_true, if_false, append_nil]
    · exact nomatch hstep
  | copy t =>
    simp only [canStep] at hstep
    split at hstep
    · next size msgs box hreader =>
      cases hstep
      exact ⟨canInv_copy t hinv hreader, hkeep rfl rfl⟩
    · exact nomatch hstep
  | release t =>
    simp only [canStep] at hstep
    split at hstep
    · next size msgs box hreader =>
      have hroom := release_room t hinv hreader
      simp only [some_bind, (rtAssert_eq_some _ ()).mpr hroom] at hstep
      cases hstep
      exact ⟨canInv_release t hinv hreader, hkeep rfl rfl⟩
    · exact nomatch hstep

theorem canOk_of_inv (hinv : CanInv n s) : CanOk n s := by
  refine { hinv with
    interrupt := fun i overflow msg hidle => ?_
    release := fun t size msgs box hreader => ?_ }
  · rcases interrupt_spec overflow msg hinv hidle with ⟨s1, hs1, -⟩
    rw [hs1, Option.isSome_some]
  · have hroom := release_room t hinv hreader
    simp only [canStep, hreader, some_bind, (rtAssert_eq_some _ ()).mpr hroom, Option.isSome_some]

end Steps

/-- The loop of `rt_can_open` puts the boxes on the free list in order. -/
theorem open_freelist (l : List Nat) (m : List Nat) :
    m.foldl (fun freelist i => freelist ++ [i]) l = l ++ m := by
  induction m generalizing l with
  | nil => rw [foldl_nil, append_nil]
  | cons i m ih => rw [foldl_cons, ih, append_assoc, singleton_append]

theorem canInv_opened {n : Nat} {buffer : Nat → CanMsg} : CanInv n (canOpened n buffer) := by
  have hfree : (canOpened n buffer).fifo.freelist = List.range n := by
    simp only [canOpened, rtCanOpenRx, open_freelist, nil_append]
  have hholds : canHolds (canOpened n buffer) = fun _ => none := by
    funext o
    cases o with
    | reader t => rfl
    | isr i => rfl
  refine ⟨?_, ?_, rfl, fun t => rfl, List.Perm.refl _, fun _ => rfl, fun i msg box h => ?_,
    fun i => ?_, nodup_nil, fun _ => Nat.zero_le 1⟩
  · rw [hfree, hholds]
    show Custody n (List.range n ++ []) _
    rw [append_nil]
    exact custody_all
  · rw [hfree, length_range]
    rfl
  · exact CanIsr.noConfusion h
  · exact ⟨fun h => absurd h not_mem_nil, fun h => absurd rfl h⟩

/-- After an open with any number of boxes, whatever interrupts and readers do: the boxes are
    partitioned, the counter is right and the assertions on it hold, the messages leave the list in
    order, once and with their content, and a message is lost only when no box is free, the oldest
    one on the list or the new one. -/
theorem can_boxes_conserved (n : Nat) (buffer : Nat → CanMsg) (s : CanSys)
    (h : Reachable (canStep n) (canOpened n buffer) s) :
    CanOk n s ∧ ∀ a, LossOk n s a := by
  have hinv := reachable_inv (CanInv n) (fun hinv hstep => (canInv_step hinv hstep).1)
    canInv_opened h
  refine ⟨canOk_of_inv hinv, fun a s' hs' => ?_⟩
  exact (canInv_step hinv hs').2 s' hs'

/-- A message with a number in it. -/
def canMsgOf (k : Nat) : CanMsg :=
  { id := BitVec.ofNat 29 k, ide := 0, rtr := 0, rsv := 0, len := 8, priv := 0, hdr := 0
    reserved := 0, data := BitVec.ofNat 64 k }

/-- Two boxes. A reader holds the first one while two interrupts come; the second of them finds no
    box free and takes that of the oldest message. -/
def canRunTwo : List CanAction :=
  [.interrupt 0 false (some (canMsgOf 1)), .fill 0, .link 0, .call 0 32, .take 0,
    .interrupt 0 false (some (canMsgOf 2)), .fill 0, .link 0,
    .interrupt 0 false (some (canMsgOf 3)), .copy 0, .fill 0, .link 0, .release 0, .take 0,
    .copy 0, .release 0, .take 0]

/-- Of three messages for two boxes the second one is dropped. -/
theorem can_boxes_conserved_two :
    ∃ s, exec (canStep 2) (canOpened 2 fun _ => canMsgOf 0) canRunTwo = some s ∧
      (s.copied 0, canDropped s, s.reader 0, s.fifo.freenumbers) =
        ([canMsgOf 1, canMsgOf 3], [canMsgOf 2], .done 32, 2) ∧
      CanOk 2 s ∧ ∀ a, LossOk 2 s a :=
  exists_viewed (fun s hs => can_boxes_conserved 2 _ s ⟨_, hs⟩) (by decide +kernel)

end Honeycomb
