import Honeycomb.Core.VbusRing
import Honeycomb.Lib.RingBuffer
import Honeycomb.Lib.Run

/-!
# The Ring of the Virtual Bus Is a Channel

What the reader takes off the ring is what the writer has put on it, packet by packet, whatever the
lengths and wherever the ring ends. The indices stay in the ring, and the writer never writes to a
block that has not been read.

The bytes of the ring are a ring buffer in the sense of the library. A packet is in the ring at a
block if its header and its data are at the cyclic offsets from there, and the packets in the ring
are one behind the other. The copy in two pieces, the index arithmetic in blocks and the test for
space are each related once to the cyclic offsets; after that nothing in the argument depends on
where the ring ends.

The writer is described by what the memory will be when all its pending writes are done. The reader
is described by what it has read and what is at the addresses where it still has to read. Steps of
the one do not touch what is said about the other, because the blocks of the packets in the ring and
those of the packet that is being written are different.

## Theorems

* `vbus_ring_transport`: The ring is a channel.
-/

namespace Honeycomb

open Function List Nat RingBuffer Run
open Option (some)

variable (nr : Nat)

def ringSz : Nat :=
  nr * vbusBlkSz

/-- The address of a byte, counted from the beginning of a block. -/
def blkAddr (nr b j : Nat) : Nat :=
  (b * vbusBlkSz + j) % ringSz nr

/-- The packet is in the ring at the block. -/
structure FrameAt (blks : Nat → BitVec 8) (b : Nat) (pkt : VbusPkt) : Prop where
  id : blks (blkAddr nr b 0) = pkt.id
  len : blks (blkAddr nr b 2) = BitVec.ofNat 8 pkt.data.length
  data : (range pkt.data.length).map (fun i => blks (blkAddr nr b (vbusBlkHeadSz + i))) = pkt.data

/-- The packets are in the ring one behind the other, from the block on. -/
def Packed (nr : Nat) (blks : Nat → BitVec 8) : Nat → List VbusPkt → Prop
  | _, [] => True
  | b, pkt :: pkts => FrameAt nr blks b pkt ∧ Packed nr blks (nextIdx nr b pkt.bnr) pkts

def blocks (pkts : List VbusPkt) : Nat :=
  (pkts.map VbusPkt.bnr).sum

/-- The address is among those of so many blocks from one block on. -/
def Within (nr b bnr a : Nat) : Prop :=
  ∃ j < bnr * vbusBlkSz, a = blkAddr nr b j

def unreadNr (ring : VbusRing) : Nat :=
  (ring.putIdx + nr - ring.getIdx) % nr

def pendingWrites : VbusWriter → List (Nat × BitVec 8)
  | .idle => []
  | .writing _ pending => pending

/-- The indices are in the ring. No write goes to a block that has not been read. The packets taken
    off are those put on first, and all of them when the ring is empty. -/
structure VbusOk (s : VbusSys) : Prop where
  put : s.ring.putIdx < nr
  get : s.ring.getIdx < nr
  safe : ∀ w ∈ pendingWrites s.writer, ∀ k < unreadNr nr s.ring,
    w.1 / vbusBlkSz ≠ (s.ring.getIdx + k) % nr
  order : s.taken <+: s.sent
  complete : s.ring.getIdx = s.ring.putIdx → s.taken = s.sent

section Arithmetic

variable (nr : Nat)

theorem len2bnr_pos {len : Nat} : 0 < len2bnr len := by
  unfold len2bnr vbusBlkHeadSz vbusBlkSz
  omega

theorem len2bnr_fits (len : Nat) : vbusBlkHeadSz + len ≤ len2bnr len * vbusBlkSz := by
  unfold len2bnr vbusBlkHeadSz vbusBlkSz
  omega

theorem bnr_le (pkt : VbusPkt) : pkt.bnr ≤ 5 := by
  have h := pkt.bound
  unfold VbusPkt.bnr len2bnr vbusBlkHeadSz vbusBlkSz
  omega

theorem nextIdx_eq {idx bnr : Nat} (hidx : idx < nr) (hbnr : bnr ≤ nr) :
    nextIdx nr idx bnr = (idx + bnr) % nr := by
  unfold nextIdx
  dsimp only
  split_ifs with hwrap
  · rw [mod_eq_sub_mod hwrap, mod_eq_of_lt (by omega)]
  · rw [mod_eq_of_lt (by omega)]

theorem blkAddr_add (b k j : Nat) :
    blkAddr nr ((b + k) % nr) j = blkAddr nr b (k * vbusBlkSz + j) := by
  unfold blkAddr ringSz
  rw [← mul_mod_mul_right, mod_add_mod, Nat.add_mul, Nat.add_assoc]

theorem blkAddr_ne {b i j : Nat} (hij : i < j) (hj : j < ringSz nr) :
    blkAddr nr b i ≠ blkAddr nr b j :=
  offset_ne (ringSz nr) (b * vbusBlkSz) i j hij hj

theorem blkAddr_div (b j : Nat) : blkAddr nr b j / vbusBlkSz = (b + j / vbusBlkSz) % nr := by
  have hsplit : b * vbusBlkSz + j = j % vbusBlkSz + vbusBlkSz * (b + j / vbusBlkSz) := by
    have hj := mod_add_div j vbusBlkSz
    rw [Nat.mul_add, Nat.mul_comm vbusBlkSz b]
    omega
  unfold blkAddr ringSz
  rw [Nat.mul_comm nr, mod_mul_right_div_self, hsplit,
    add_mul_div_left _ _ (by decide : 0 < vbusBlkSz),
    div_eq_of_lt (mod_lt _ (by decide)), Nat.zero_add]

theorem space_iff {ring : VbusRing} {used bnr : Nat} (hget : ring.getIdx < nr)
    (hused : used < nr) (hput : ring.putIdx = (ring.getIdx + used) % nr) :
    ¬ busRingSpaceNr nr ring < (bnr : Int) ↔ used + bnr < nr := by
  have hcases : (ring.getIdx + used < nr ∧ ring.putIdx = ring.getIdx + used) ∨
      (nr ≤ ring.getIdx + used ∧ ring.putIdx + nr = ring.getIdx + used) := by
    by_cases hwrap : nr ≤ ring.getIdx + used
    · rw [mod_eq_sub_mod hwrap, mod_eq_of_lt (by omega)] at hput
      omega
    · rw [mod_eq_of_lt (by omega)] at hput
      omega
  unfold busRingSpaceNr
  dsimp only
  split
  · omega
  · omega

theorem unreadNr_eq {ring : VbusRing} {used : Nat} (hget : ring.getIdx < nr)
    (hused : used < nr) (hput : ring.putIdx = (ring.getIdx + used) % nr) :
    unreadNr nr ring = used := by
  unfold unreadNr
  by_cases hwrap : nr ≤ ring.getIdx + used
  · rw [mod_eq_sub_mod hwrap, mod_eq_of_lt (by omega)] at hput
    rw [mod_eq_of_lt (by omega)]
    omega
  · rw [mod_eq_of_lt (by omega)] at hput
    rw [mod_eq_sub_mod (by omega), mod_eq_of_lt (by omega)]
    omega

end Arithmetic

section Addresses

variable (nr b : Nat) {len : Nat}

theorem dataAddrs_eq (len : Nat) :
    (range len).map (fun i => blkAddr nr b (vbusBlkHeadSz + i)) =
      contents id (ringSz nr) (b * vbusBlkSz + vbusBlkHeadSz) len := by
  unfold contents blkAddr
  refine map_congr_left (fun i _ => ?_)
  rw [id_eq, Nat.add_assoc]

/-- Data that reach the end of the ring are in two pieces. -/
theorem tail_pieces (hb : b < nr) (hlen : len2bnr len ≤ nr) :
    range' (b * vbusBlkSz + vbusBlkHeadSz) (tailSz nr b len) ++
        range' 0 (len - tailSz nr b len) =
      contents id (ringSz nr) (b * vbusBlkSz + vbusBlkHeadSz) len := by
  have hfits := len2bnr_fits len
  have hsz : (nr - b) * vbusBlkSz - vbusBlkHeadSz =
      ringSz nr - (b * vbusBlkSz + vbusBlkHeadSz) := by
    unfold ringSz
    rw [Nat.sub_mul, Nat.sub_sub]
  have hroom : b * vbusBlkSz + vbusBlkHeadSz < ringSz nr := by
    unfold ringSz vbusBlkSz vbusBlkHeadSz
    omega
  have hbound : len ≤ ringSz nr := by
    unfold ringSz vbusBlkSz vbusBlkHeadSz at *
    omega
  unfold tailSz
  by_cases hshort : len < (nr - b) * vbusBlkSz - vbusBlkHeadSz
  · -- the remaining block is sufficient for the data
    rw [if_pos hshort, Nat.sub_self, range'_zero, append_nil,
      contents_straight (by omega), copyFrom_id]
  rw [if_neg hshort, contents_copyFrom id _ _ _ hroom (by omega) hbound, copyFrom_id, copyFrom_id,
    hsz]
  congr 2
  omega

/-- Data that do not reach the end of the ring are in one piece. -/
theorem tail_straight (hnowrap : ¬ nr ≤ b + len2bnr len) :
    range' (b * vbusBlkSz + vbusBlkHeadSz) len =
      contents id (ringSz nr) (b * vbusBlkSz + vbusBlkHeadSz) len := by
  have hfits := len2bnr_fits len
  have hle : b * vbusBlkSz + vbusBlkHeadSz + len ≤ ringSz nr := by
    have hblk : (b + len2bnr len) * vbusBlkSz ≤ nr * vbusBlkSz :=
      Nat.mul_le_mul_right _ (by omega)
    rw [Nat.add_mul] at hblk
    unfold ringSz
    omega
  rw [contents_straight hle, copyFrom_id]

theorem busInReads_eq (hb : b < nr) (hlen : len2bnr len ≤ nr) :
    busInReads nr b len = (range len).map (fun i => blkAddr nr b (vbusBlkHeadSz + i)) := by
  rw [dataAddrs_eq]
  unfold busInReads
  split_ifs with hwrap
  · rw [tail_pieces nr b hb hlen]
  · rw [tail_straight nr b hwrap]

/-- A packet for channel 0 is in one block, where it can be read in place. -/
theorem chn0Reads_eq (hb : b < nr) (hlen : len ≤ 60) :
    chn0Reads b len = (range len).map (fun i => blkAddr nr b (vbusBlkHeadSz + i)) := by
  have hle : b * vbusBlkSz + vbusBlkHeadSz + len ≤ ringSz nr := by
    unfold ringSz vbusBlkSz vbusBlkHeadSz
    omega
  rw [dataAddrs_eq, contents_straight hle, copyFrom_id, chn0Reads]

theorem busOutWrites_eq {pkt : VbusPkt} (hb : b < nr) (hlen : pkt.bnr ≤ nr) :
    busOutWrites nr b pkt =
      [(blkAddr nr b 0, pkt.id), (blkAddr nr b 1, pkt.prio),
        (blkAddr nr b 2, BitVec.ofNat 8 pkt.data.length)] ++
        ((range pkt.data.length).map (fun i => blkAddr nr b (vbusBlkHeadSz + i))).zip pkt.data := by
  have hhead : ∀ j < 3, blkAddr nr b j = b * vbusBlkSz + j := by
    intro j hj
    refine mod_eq_of_lt ?_
    unfold ringSz vbusBlkSz
    omega
  rw [hhead 0 (by omega), hhead 1 (by omega), hhead 2 (by omega), Nat.add_zero, dataAddrs_eq]
  unfold busOutWrites
  dsimp only
  congr 1
  split_ifs with hwrap
  · have hle : tailSz nr b pkt.data.length ≤ pkt.data.length := by
      unfold tailSz
      dsimp only
      split <;> omega
    rw [← tail_pieces nr b hb hlen]
    unfold memcpyWrites
    rw [length_take, length_drop, min_eq_left hle,
      ← zip_append (by rw [length_range', length_take, min_eq_left hle]),
      take_append_drop]
  · rw [← tail_straight nr b hwrap]
    rfl

end Addresses

section Frames

variable (nr b : Nat) {blks : Nat → BitVec 8} (blks' : Nat → BitVec 8) (pkt : VbusPkt)
  (pkts : List VbusPkt)

theorem frameAt_congr
    (h : ∀ j < pkt.bnr * vbusBlkSz, blks' (blkAddr nr b j) = blks (blkAddr nr b j))
    (hframe : FrameAt nr blks b pkt) : FrameAt nr blks' b pkt := by
  have hfits := len2bnr_fits pkt.data.length
  have hpos : vbusBlkSz ≤ pkt.bnr * vbusBlkSz :=
    Nat.le_mul_of_pos_left _ len2bnr_pos
  have hsz : vbusBlkSz = 64 := rfl
  refine ⟨?_, ?_, ?_⟩
  · rw [h 0 (by omega), hframe.id]
  · rw [h 2 (by omega), hframe.len]
  rw [← hframe.data, length_map, length_range]
  refine map_congr_left (fun i hi => ?_)
  rw [mem_range] at hi
  refine h (vbusBlkHeadSz + i) ?_
  unfold VbusPkt.bnr
  omega

theorem blocks_cons : blocks (pkt :: pkts) = pkt.bnr + blocks pkts := by
  unfold blocks
  rw [map_cons, sum_cons]

theorem blocks_append : blocks (pkts ++ [pkt]) = blocks pkts + pkt.bnr := by
  unfold blocks
  rw [map_append, List.sum_append, map_singleton, sum_singleton]

theorem packed_congr (hb : b < nr) (hle : blocks pkts ≤ nr)
    (h : ∀ j < blocks pkts * vbusBlkSz, blks' (blkAddr nr b j) = blks (blkAddr nr b j))
    (hpacked : Packed nr blks b pkts) : Packed nr blks' b pkts := by
  induction pkts generalizing b with
  | nil => trivial
  | cons pkt pkts ih =>
    rw [blocks_cons] at hle h
    rw [Nat.add_mul] at h
    rcases hpacked with ⟨hframe, hrest⟩
    rw [nextIdx_eq nr hb (by omega)] at hrest
    refine ⟨frameAt_congr nr b blks' pkt (fun j hj => h j (by omega)) hframe, ?_⟩
    rw [nextIdx_eq nr hb (by omega)]
    refine ih _ (mod_lt _ (by omega)) (by omega) (fun j hj => ?_) hrest
    rw [blkAddr_add]
    exact h _ (by omega)

theorem packed_append (hb : b < nr) (hle : blocks pkts ≤ nr)
    (hframe : FrameAt nr blks ((b + blocks pkts) % nr) pkt) (hpacked : Packed nr blks b pkts) :
    Packed nr blks b (pkts ++ [pkt]) := by
  induction pkts generalizing b with
  | nil =>
    have hzero : (b + blocks []) % nr = b := mod_eq_of_lt hb
    rw [hzero] at hframe
    exact ⟨hframe, trivial⟩
  | cons p pkts ih =>
    rw [blocks_cons] at hle hframe
    rcases hpacked with ⟨hfirst, hrest⟩
    refine ⟨hfirst, ?_⟩
    rw [nextIdx_eq nr hb (by omega)] at hrest ⊢
    refine ih _ (mod_lt _ (by omega)) (by omega) ?_ hrest
    rw [mod_add_mod, Nat.add_assoc]
    exact hframe

/-- The addresses of the writes, and that they are different. -/
theorem writes_addrs (hb : b < nr) (hle : pkt.bnr ≤ nr) :
    ((busOutWrites nr b pkt).map Prod.fst).Nodup ∧
      ∀ w ∈ busOutWrites nr b pkt, Within nr b pkt.bnr w.1 := by
  have hfits := len2bnr_fits pkt.data.length
  have hring : pkt.bnr * vbusBlkSz ≤ ringSz nr := Nat.mul_le_mul_right _ hle
  have hbnr : len2bnr pkt.data.length = pkt.bnr := rfl
  rw [hbnr] at hfits
  have hhead : vbusBlkHeadSz = 4 := rfl
  -- The offsets from the beginning of the block.
  have haddrs : (busOutWrites nr b pkt).map Prod.fst =
      (0 :: 1 :: 2 :: range' vbusBlkHeadSz pkt.data.length).map (blkAddr nr b) := by
    rw [busOutWrites_eq nr b hb hle, map_append,
      map_fst_zip (by rw [length_map, length_range]), range'_eq_map_range]
    simp only [map_cons, map_nil, map_map, cons_append, nil_append, Function.comp_def]
  have hoffs : ∀ j ∈ 0 :: 1 :: 2 :: range' vbusBlkHeadSz pkt.data.length,
      j < pkt.bnr * vbusBlkSz := by
    intro j hj
    simp only [mem_cons, mem_range'_1] at hj
    omega
  refine ⟨?_, fun w hw => ?_⟩
  · rw [haddrs]
    refine Nodup.map_on (fun i hi j hj heq => ?_) ?_
    · have hi' := hoffs i hi
      have hj' := hoffs j hj
      rcases Nat.lt_trichotomy i j with hlt | heq' | hlt
      · exact absurd heq (blkAddr_ne nr hlt (by omega))
      · exact heq'
      · exact absurd heq.symm (blkAddr_ne nr hlt (by omega))
    · have hrange : (range' vbusBlkHeadSz pkt.data.length).Nodup := nodup_range'
      simp only [nodup_cons, mem_cons, mem_range'_1, hrange, and_true]
      omega
  · have hmem : w.1 ∈ (busOutWrites nr b pkt).map Prod.fst := mem_map_of_mem hw
    rw [haddrs, mem_map] at hmem
    rcases hmem with ⟨j, hj, heq⟩
    exact ⟨j, hoffs j hj, heq.symm⟩

theorem frameAt_writes (hb : b < nr) (hle : pkt.bnr ≤ nr) :
    FrameAt nr (applyWrites blks (busOutWrites nr b pkt)) b pkt := by
  have hmem := applyWrites_of_mem blks (writes_addrs nr b pkt hb hle).1
  have heq := busOutWrites_eq nr b hb hle
  refine ⟨hmem _ _ ?_, hmem _ _ ?_, ?_⟩
  · rw [heq]
    exact mem_cons_self
  · rw [heq]
    exact mem_cons_of_mem _ (mem_cons_of_mem _ mem_cons_self)
  have hmap : (range pkt.data.length).map
      (fun i => applyWrites blks (busOutWrites nr b pkt) (blkAddr nr b (vbusBlkHeadSz + i))) =
      ((range pkt.data.length).map (fun i => blkAddr nr b (vbusBlkHeadSz + i))).map
        (applyWrites blks (busOutWrites nr b pkt)) := by
    rw [map_map]
    rfl
  rw [hmap]
  refine map_eq_of_zip (by rw [length_map, length_range]) (fun a v hav => ?_)
  refine hmem a v ?_
  rw [heq]
  exact mem_append_right _ hav

end Frames

section Invariant

def writerBnr : VbusWriter → Nat
  | .idle => 0
  | .writing pkt _ => pkt.bnr

/-- When the pending writes are done, the packet is in the ring at the put index. They go to its
    blocks only. -/
def WriterOk (nr : Nat) (ring : VbusRing) : VbusWriter → Prop
  | .idle => True
  | .writing pkt pending =>
    FrameAt nr (applyWrites ring.blks pending) ring.putIdx pkt ∧
      ∀ w ∈ pending, Within nr ring.putIdx pkt.bnr w.1

/-- The reader is at the first of the packets. What it has read, with what is at the addresses where
    it still has to read, is the data of that packet. -/
def ReaderOk (nr : Nat) (ring : VbusRing) (pkts : List VbusPkt) : VbusReader → Prop
  | .idle => True
  | .looked => pkts ≠ []
  | .header id size => ∃ pkt rest, pkts = pkt :: rest ∧ id = pkt.id ∧ size = pkt.data.length
  | .reading id size pending got =>
    ∃ pkt rest, pkts = pkt :: rest ∧ id = pkt.id ∧ size = pkt.data.length ∧
      got ++ pending.map ring.blks = pkt.data ∧
      ∀ a ∈ pending, Within nr ring.getIdx pkt.bnr a

structure VbusInv (nr : Nat) (s : VbusSys) (pkts : List VbusPkt) : Prop where
  get : s.ring.getIdx < nr
  put : s.ring.putIdx = (s.ring.getIdx + blocks pkts) % nr
  room : blocks pkts + writerBnr s.writer < nr
  packed : Packed nr s.ring.blks s.ring.getIdx pkts
  history : s.sent = s.taken ++ pkts.map VbusPkt.record
  writer : WriterOk nr s.ring s.writer
  reader : ReaderOk nr s.ring pkts s.reader

variable {nr : Nat} {s s' : VbusSys} (pkt : VbusPkt) {pkts : List VbusPkt}

theorem blocks_eq_zero (h : blocks pkts = 0) : pkts = [] := by
  cases pkts with
  | nil => rfl
  | cons pkt pkts =>
    have hpos : 0 < pkt.bnr := len2bnr_pos
    rw [blocks_cons] at h
    omega

section Reader

variable (hinv : VbusInv nr s (pkt :: pkts))
include hinv

theorem vbusInv_take : VbusInv nr (s.take nr pkt.record) pkts := by
  have hroom := hinv.room
  rw [blocks_cons] at hroom
  have hnext : nextIdx nr s.ring.getIdx (len2bnr pkt.data.length) =
      (s.ring.getIdx + pkt.bnr) % nr := nextIdx_eq nr hinv.get (by
    unfold VbusPkt.bnr at hroom
    omega)
  refine ⟨?_, ?_, ?_, ?_, ?_, hinv.writer, trivial⟩
  · show nextIdx nr s.ring.getIdx (len2bnr pkt.data.length) < nr
    rw [hnext]
    exact mod_lt _ (by omega)
  · show s.ring.putIdx = (nextIdx nr s.ring.getIdx (len2bnr pkt.data.length) + blocks pkts) % nr
    rw [hnext, hinv.put, blocks_cons, mod_add_mod, Nat.add_assoc]
  · show blocks pkts + writerBnr s.writer < nr
    omega
  · exact hinv.packed.2
  · show s.sent = s.taken ++ [pkt.record] ++ _
    rw [hinv.history, map_cons, append_assoc, singleton_append]

theorem reads_data :
    ((range pkt.data.length).map
        (fun i => blkAddr nr s.ring.getIdx (vbusBlkHeadSz + i))).map s.ring.blks = pkt.data ∧
      ∀ a ∈ (range pkt.data.length).map
          (fun i => blkAddr nr s.ring.getIdx (vbusBlkHeadSz + i)),
        Within nr s.ring.getIdx pkt.bnr a := by
  refine ⟨?_, fun a ha => ?_⟩
  · rw [map_map]
    exact hinv.packed.1.data
  rw [mem_map] at ha
  rcases ha with ⟨i, hi, heq⟩
  rw [mem_range] at hi
  have hfits := len2bnr_fits pkt.data.length
  refine ⟨vbusBlkHeadSz + i, ?_, heq.symm⟩
  unfold VbusPkt.bnr
  omega

theorem header_eq :
    s.ring.blks (s.ring.getIdx * vbusBlkSz) = pkt.id ∧
      (s.ring.blks (s.ring.getIdx * vbusBlkSz + 2)).toNat = pkt.data.length := by
  have hget := hinv.get
  have haddr : ∀ j < 3, blkAddr nr s.ring.getIdx j = s.ring.getIdx * vbusBlkSz + j := by
    intro j hj
    refine mod_eq_of_lt ?_
    unfold ringSz vbusBlkSz
    omega
  have hframe := hinv.packed.1
  have hid := hframe.id
  have hlen := hframe.len
  rw [haddr 0 (by omega), Nat.add_zero] at hid
  rw [haddr 2 (by omega)] at hlen
  refine ⟨hid, ?_⟩
  rw [hlen, BitVec.toNat_ofNat]
  exact mod_eq_of_lt pkt.bound

theorem vbusInv_reading {reads : List Nat} (hreads : reads = (range pkt.data.length).map
      (fun i => blkAddr nr s.ring.getIdx (vbusBlkHeadSz + i))) :
    VbusInv nr { s with reader := .reading pkt.id pkt.data.length reads [] } (pkt :: pkts) := by
  rcases reads_data pkt hinv with ⟨hdata, hwithin⟩
  rw [← hreads] at hdata hwithin
  exact { hinv with reader := ⟨pkt, pkts, rfl, rfl, rfl, hdata, hwithin⟩ }

end Reader

variable (hinv : VbusInv nr s pkts)
include hinv

theorem put_lt : s.ring.putIdx < nr := by
  have hget := hinv.get
  rw [hinv.put]
  exact mod_lt _ (by omega)

theorem within_put {bnr a : Nat} (hwithin : Within nr s.ring.putIdx bnr a) :
    ∃ j < bnr * vbusBlkSz, a = blkAddr nr s.ring.getIdx (blocks pkts * vbusBlkSz + j) := by
  rcases hwithin with ⟨j, hj, ha⟩
  rw [hinv.put, blkAddr_add] at ha
  exact ⟨j, hj, ha⟩

/-- A write of the writer changes no byte of the packets in the ring. -/
theorem write_outside {bnr a : Nat} (j : Nat) (v : BitVec 8)
    (hroom : blocks pkts + bnr < nr) (hwithin : Within nr s.ring.putIdx bnr a)
    (hj : j < blocks pkts * vbusBlkSz) :
    update s.ring.blks a v (blkAddr nr s.ring.getIdx j) =
      s.ring.blks (blkAddr nr s.ring.getIdx j) := by
  rcases within_put hinv hwithin with ⟨i, hi, rfl⟩
  have hring : (blocks pkts + bnr) * vbusBlkSz ≤ ringSz nr :=
    Nat.mul_le_mul_right _ (le_of_lt hroom)
  rw [Nat.add_mul] at hring
  exact update_of_ne (blkAddr_ne nr (by omega) (by omega)) _ _

theorem vbusInv_begin (hspace : ¬ busRingSpaceNr nr s.ring < (pkt.bnr : Int)) :
    VbusInv nr { s with writer := .writing pkt (busOutWrites nr s.ring.putIdx pkt) } pkts := by
  have hused : blocks pkts < nr := by
    have h := hinv.room
    omega
  have hroom := (space_iff nr hinv.get hused hinv.put).mp hspace
  have hput := put_lt hinv
  exact { hinv with
    room := hroom
    writer :=
      ⟨frameAt_writes nr _ pkt hput (by omega), (writes_addrs nr _ pkt hput (by omega)).2⟩ }

theorem vbusInv_write {a : Nat} {v : BitVec 8} {pending : List (Nat × BitVec 8)}
    (hwriter : s.writer = .writing pkt ((a, v) :: pending)) :
    VbusInv nr { s with ring := { s.ring with blks := update s.ring.blks a v }
                        writer := .writing pkt pending } pkts := by
  have hroom := hinv.room
  have hwok := hinv.writer
  rw [hwriter] at hroom hwok
  rcases hwok with ⟨hframe, hwithin⟩
  have hroom' : blocks pkts + pkt.bnr < nr := hroom
  have hout := fun j => write_outside hinv j v hroom' (hwithin (a, v) mem_cons_self)
  refine ⟨hinv.get, hinv.put, hroom', ?_, hinv.history,
    ⟨hframe, fun w hw => hwithin w (mem_cons_of_mem _ hw)⟩, ?_⟩
  · exact packed_congr nr _ _ pkts hinv.get (by omega) (fun j hj => hout j hj) hinv.packed
  -- The bytes the reader still has to read are those of the first packet.
  have hrok := hinv.reader
  show ReaderOk nr { s.ring with blks := update s.ring.blks a v } pkts s.reader
  cases hreader : s.reader with rw [hreader] at hrok
  | idle => trivial
  | looked =>
    exact hrok
  | header id size =>
    exact hrok
  | reading id size reads got =>
    rcases hrok with ⟨p, rest, hpkts, hid, hsize, hdata, hreads⟩
    refine ⟨p, rest, hpkts, hid, hsize, ?_, hreads⟩
    rw [← hdata]
    refine congrArg _ (map_congr_left (fun b hb => ?_))
    rcases hreads b hb with ⟨j, hj, rfl⟩
    refine hout j ?_
    rw [hpkts, blocks_cons, Nat.add_mul]
    omega

theorem vbusInv_publish (hwriter : s.writer = .writing pkt []) :
    VbusInv nr { s with ring := { s.ring with putIdx := nextIdx nr s.ring.putIdx pkt.bnr }
                        writer := .idle
                        sent := s.sent ++ [pkt.record] } (pkts ++ [pkt]) := by
  have hput := put_lt hinv
  have hroom := hinv.room
  have hwok := hinv.writer
  rw [hwriter] at hroom hwok
  have hroom' : blocks pkts + pkt.bnr < nr := hroom
  rcases hwok with ⟨hframe, -⟩
  refine ⟨hinv.get, ?_, ?_, ?_, ?_, trivial, ?_⟩
  · show nextIdx nr s.ring.putIdx pkt.bnr = _
    rw [nextIdx_eq nr hput (by omega), hinv.put, blocks_append, mod_add_mod, Nat.add_assoc]
  · rw [blocks_append]
    exact hroom'
  · refine packed_append nr _ pkt pkts hinv.get (by omega) ?_ hinv.packed
    rw [← hinv.put]
    exact hframe
  · show s.sent ++ [pkt.record] = _
    rw [hinv.history, map_append, map_singleton, append_assoc]
  -- The first packet is the same.
  have hrok := hinv.reader
  show ReaderOk nr _ (pkts ++ [pkt]) s.reader
  cases hreader : s.reader with rw [hreader] at hrok
  | idle => trivial
  | looked => exact append_ne_nil_of_right_ne_nil _ (cons_ne_nil _ _)
  | header id size =>
    rcases hrok with ⟨p, rest, rfl, hid, hsize⟩
    exact ⟨p, rest ++ [pkt], by rw [cons_append], hid, hsize⟩
  | reading id size reads got =>
    rcases hrok with ⟨p, rest, rfl, hid, hsize, hdata, hreads⟩
    exact ⟨p, rest ++ [pkt], by rw [cons_append], hid, hsize, hdata, hreads⟩

/-- The ring looks empty exactly if there are no packets in it. -/
theorem empty_iff (hempty : s.ring.getIdx = s.ring.putIdx) : pkts = [] := by
  refine blocks_eq_zero ?_
  have hused : blocks pkts < nr := by
    have h := hinv.room
    omega
  have hzero := unreadNr_eq nr hinv.get hused hinv.put
  unfold unreadNr at hzero
  rw [← hempty, Nat.add_sub_cancel_left, mod_self] at hzero
  exact hzero.symm

theorem vbusInv_writer {a : VbusAction}
    (ha : (∃ pkt, a = .begin pkt) ∨ a = .writeByte ∨ a = .publish)
    (hstep : vbusStep nr s a = some s') : ∃ pkts', VbusInv nr s' pkts' := by
  rcases ha with ⟨pkt, rfl⟩ | rfl | rfl
  · simp only [vbusStep] at hstep
    split at hstep
    · next _ =>
      split at hstep
      · exact nomatch hstep
      · next hspace =>
        rw [← some.inj hstep]
        exact ⟨pkts, vbusInv_begin pkt hinv hspace⟩
    · exact nomatch hstep
  · simp only [vbusStep] at hstep
    split at hstep
    · next pkt b v pending hwriter =>
      rw [← some.inj hstep]
      exact ⟨pkts, vbusInv_write pkt hinv hwriter⟩
    · exact nomatch hstep
  · simp only [vbusStep] at hstep
    split at hstep
    · next pkt hwriter =>
      rw [← some.inj hstep]
      exact ⟨pkts ++ [pkt], vbusInv_publish pkt hinv hwriter⟩
    · exact nomatch hstep

theorem vbusInv_reader {a : VbusAction} (hnr : 5 < nr)
    (ha : ¬ ((∃ pkt, a = .begin pkt) ∨ a = .writeByte ∨ a = .publish))
    (hstep : vbusStep nr s a = some s') : ∃ pkts', VbusInv nr s' pkts' := by
  have hrok := hinv.reader
  cases a with simp only [vbusStep] at hstep
  | begin pkt => exact absurd (.inl ⟨pkt, rfl⟩) ha
  | writeByte => exact absurd (.inr (.inl rfl)) ha
  | publish => exact absurd (.inr (.inr rfl)) ha
  | look =>
    split at hstep
    · split at hstep
      · exact nomatch hstep
      next hne =>
      rw [← some.inj hstep]
      refine ⟨pkts, { hinv with reader := ?_ }⟩
      intro hnil
      refine hne ?_
      rw [hinv.put, hnil]
      exact (mod_eq_of_lt hinv.get).symm
    · exact nomatch hstep
  | readHeader =>
    split at hstep
    · next hreader =>
      rw [hreader] at hrok
      cases pkts with
      | nil => exact absurd rfl hrok
      | cons pkt rest =>
        rcases header_eq pkt hinv with ⟨hid, hlen⟩
        rw [hid, hlen] at hstep
        rw [← some.inj hstep]
        exact ⟨pkt :: rest, { hinv with reader := ⟨pkt, rest, rfl, rfl, rfl⟩ }⟩
    · exact nomatch hstep
  | drop =>
    split at hstep
    · next id size hreader =>
      rw [hreader] at hrok
      rcases hrok with ⟨pkt, rest, hpkts, hid, hsize⟩
      rw [hpkts] at hinv
      have hle : len2bnr pkt.data.length ≤ nr := (bnr_le pkt).trans hnr.le
      -- The bytes that are dropped are the data.
      rw [hsize, hid, busInReads_eq nr _ hinv.get hle, (reads_data pkt hinv).1] at hstep
      rw [← some.inj hstep]
      exact ⟨rest, vbusInv_take pkt hinv⟩
    · exact nomatch hstep
  | chn0 =>
    split at hstep
    · next id size hreader =>
      rw [hreader] at hrok
      rcases hrok with ⟨pkt, rest, hpkts, hid, hsize⟩
      rw [hpkts] at hinv
      split at hstep
      · next hsmall =>
        rw [hid, hsize] at hstep
        rw [hsize] at hsmall
        rw [← some.inj hstep]
        exact ⟨pkt :: rest, vbusInv_reading pkt hinv (chn0Reads_eq nr _ hinv.get hsmall.2)⟩
      · exact nomatch hstep
    · exact nomatch hstep
  | copy =>
    split at hstep
    · next id size hreader =>
      rw [hreader] at hrok
      rcases hrok with ⟨pkt, rest, hpkts, hid, hsize⟩
      rw [hpkts] at hinv
      have hle : len2bnr pkt.data.length ≤ nr := (bnr_le pkt).trans hnr.le
      split at hstep
      · exact nomatch hstep
      · rw [hid, hsize] at hstep
        rw [← some.inj hstep]
        exact ⟨pkt :: rest, vbusInv_reading pkt hinv (busInReads_eq nr _ hinv.get hle)⟩
    · exact nomatch hstep
  | readByte =>
    split at hstep
    · next id size b pending got hreader =>
      rw [hreader] at hrok
      rcases hrok with ⟨pkt, rest, hpkts, hid, hsize, hdata, hreads⟩
      rw [← some.inj hstep]
      refine ⟨pkts, { hinv with reader := ⟨pkt, rest, hpkts, hid, hsize, ?_,
        fun a ha' => hreads a (mem_cons_of_mem _ ha')⟩ }⟩
      rw [← hdata, map_cons, append_assoc, singleton_append]
    · exact nomatch hstep
  | finish =>
    split at hstep
    · next id size got hreader =>
      rw [hreader] at hrok
      rcases hrok with ⟨pkt, rest, hpkts, hid, hsize, hdata, -⟩
      rw [hpkts] at hinv
      rw [map_nil, append_nil] at hdata
      rw [hid, hsize, hdata] at hstep
      rw [← some.inj hstep]
      exact ⟨rest, vbusInv_take pkt hinv⟩
    · exact nomatch hstep

theorem vbusOk_of_inv : VbusOk nr s := by
  have hroom := hinv.room
  have hunread := unreadNr_eq nr hinv.get (by omega) hinv.put
  refine ⟨put_lt hinv, hinv.get, fun w hw k hk => ?_,
    ⟨pkts.map VbusPkt.record, hinv.history.symm⟩, fun hempty => ?_⟩
  · rw [hunread] at hk
    have hwok := hinv.writer
    cases hwriter : s.writer with
    | idle =>
      cases hwriter ▸ hw
    | writing pkt pending =>
      rw [hwriter] at hw hwok hroom
      have hroom' : blocks pkts + pkt.bnr < nr := hroom
      rcases within_put hinv (hwok.2 w hw) with ⟨j, hj, heq⟩
      have hjblk : j / vbusBlkSz < pkt.bnr := Nat.div_lt_of_lt_mul (by
        rw [Nat.mul_comm]
        exact hj)
      -- The block is behind those of the packets in the ring.
      have hblk : (blocks pkts * vbusBlkSz + j) / vbusBlkSz = blocks pkts + j / vbusBlkSz := by
        rw [Nat.add_comm, add_mul_div_right _ _ (by decide : 0 < vbusBlkSz), Nat.add_comm]
      rw [heq, blkAddr_div, hblk]
      exact Ne.symm (offset_ne nr s.ring.getIdx k _ (Nat.lt_add_right _ hk) (by omega))
  · rw [hinv.history, empty_iff hinv hempty, map_nil, append_nil]

omit hinv

theorem vbusInv_step {a : VbusAction} (hnr : 5 < nr) (hinv : ∃ pkts, VbusInv nr s pkts)
    (hstep : vbusStep nr s a = some s') : ∃ pkts, VbusInv nr s' pkts := by
  rcases hinv with ⟨pkts, hinv⟩
  by_cases ha : (∃ pkt, a = .begin pkt) ∨ a = .writeByte ∨ a = .publish
  · exact vbusInv_writer hinv ha hstep
  · exact vbusInv_reader hinv hnr ha hstep

end Invariant

theorem vbusInv_empty {blks : Nat → BitVec 8} (hnr : 0 < nr) : VbusInv nr (vbusEmpty blks) [] :=
  ⟨hnr, (mod_eq_of_lt hnr).symm, hnr, trivial, rfl, trivial, trivial⟩

/-- On a ring with more blocks than the longest packet takes, whatever writer and reader do: the
    indices stay in the ring, no block is overwritten that has not been read, and the packets that
    are taken off are those that were put on, in order and unchanged. -/
theorem vbus_ring_transport (nr : Nat) (blks : Nat → BitVec 8) (hnr : len2bnr 255 < nr)
    (s : VbusSys) (h : Reachable (vbusStep nr) (vbusEmpty blks) s) : VbusOk nr s := by
  have hnr' : 5 < nr := hnr
  rcases reachable_inv (fun s => ∃ pkts, VbusInv nr s pkts) (vbusInv_step hnr')
    ⟨[], vbusInv_empty nr (by omega)⟩ h with ⟨pkts, hinv⟩
  exact vbusOk_of_inv hinv

/-- A packet without data goes over the ring and is dropped. -/
def vbusShortRun : List VbusAction :=
  [.begin ⟨1#8, 0#8, [], by decide⟩, .writeByte, .writeByte, .writeByte, .publish, .look,
    .readHeader, .drop]

/-- A packet with 61 bytes goes over the ring. It takes two blocks. -/
def vbusLongRun : List VbusAction :=
  .begin ⟨2#8, 0#8, replicate 60 7#8 ++ [9#8], by decide⟩ :: replicate 64 .writeByte ++
    [.publish, .look, .readHeader, .copy] ++ replicate 61 .readByte ++ [.finish]

/-- On a ring of six blocks, five short packets bring the indices to the last block, and the next
    packet goes round the end. -/
theorem vbus_ring_transport_six :
    ∃ s, exec (vbusStep 6) (vbusEmpty fun _ => 0#8)
        ((replicate 5 vbusShortRun).flatten ++ vbusLongRun) = some s ∧
      (s.ring.getIdx, s.taken.drop 5) = (1, [⟨2#8, 61, replicate 60 7#8 ++ [9#8]⟩]) ∧
      VbusOk 6 s :=
  exists_viewed (fun s hs => vbus_ring_transport 6 _ (by decide) s ⟨_, hs⟩) (by decide +kernel)

end Honeycomb
