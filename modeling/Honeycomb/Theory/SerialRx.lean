import Honeycomb.Core.SerialRx

/-!
# The Receive FIFO Keeps the Newest Bytes

A window on a stream says what the FIFO is for: everything that was received, and how many of the
last bytes have not been read. Receiving makes the stream longer and the window too, up to a
bound. Reading makes the window shorter at its front. In DMA mode the bound is the size of the
buffer, in interrupt mode it is one less.

The two modes differ in what the flag means, so each has its own invariant. What they share is
`RxHolds`: the bytes from the one index on are those of the window, and the other index is behind
the last of them.

## Theorems

* `serial_rx_window`: The FIFO is a window, in both modes.
-/

namespace Honeycomb

open List Nat RingBuffer

/-- A stream of bytes, and how many of the last ones have not been read. -/
structure Window where
  received : List (BitVec 8)
  unread : Nat

namespace Window

variable (w : Window) (cap n : Nat) (bs : List (BitVec 8))

/-- The bytes that have not been read, oldest first. -/
def data : List (BitVec 8) :=
  w.received.rtake w.unread

def recv : Window :=
  { received := w.received ++ bs, unread := min cap (w.unread + bs.length) }

def read : Window :=
  { w with unread := w.unread - n }

variable (h : w.unread ≤ w.received.length)
include h

theorem length_data : w.data.length = w.unread := by
  unfold data List.rtake
  rw [length_drop]
  omega

theorem unread_recv_le : (w.recv cap bs).unread ≤ (w.recv cap bs).received.length := by
  unfold recv
  dsimp only
  rw [length_append]
  omega

/-- The newest of the unread bytes and of those that are received. -/
theorem data_recv : (w.recv cap bs).data = (w.data ++ bs).rtake cap := by
  have hlen := length_data w h
  unfold recv data List.rtake at *
  dsimp only
  rw [length_append, length_append, hlen]
  -- Both are what is left of the stream after the same number of bytes.
  have hdrop : w.received.drop (w.received.length - w.unread) ++ bs =
      (w.received ++ bs).drop (w.received.length - w.unread) := by
    rw [drop_append_of_le_length (by omega)]
  rw [hdrop, drop_drop]
  congr 1
  omega

theorem data_read : (w.read n).data = w.data.drop n := by
  unfold read data List.rtake
  rw [drop_drop]
  by_cases hn : n ≤ w.unread
  · congr 1
    dsimp only
    omega
  · -- Nothing is left on either side.
    rw [drop_eq_nil_of_le (by dsimp only; omega), drop_eq_nil_of_le (by omega)]

end Window

section Fifo

variable (bufsz : Nat) (f : SerialRxFifo) (w : Window)

/-- The buffer has the unread bytes from the one index on, and the other index is behind them. -/
structure RxHolds (bufsz : Nat) (f : SerialRxFifo) (w : Window) : Prop where
  get : f.getIndex < bufsz
  put : f.putIndex = (f.getIndex + w.unread) % bufsz
  bound : w.unread ≤ bufsz
  stream : w.unread ≤ w.received.length
  contents : contents f.buffer bufsz f.getIndex w.unread = w.data

theorem serialNext_eq (i : Nat) (hsize : bufsz ≤ 32768) (hi : i < bufsz) :
    serialNext bufsz i = (i + 1) % bufsz := by
  have hindex : serialIndex (i + 1) = i + 1 := mod_eq_of_lt (by omega)
  unfold serialNext
  rw [hindex]
  dsimp only
  by_cases hend : bufsz ≤ i + 1
  · have hround : i + 1 = bufsz := by omega
    rw [if_pos hend, hround, mod_self]
  · rw [if_neg hend, mod_eq_of_lt (by omega)]

variable {bufsz f w} in
/-- The other index is not past the end of the buffer, and it is ahead or has gone round. -/
theorem rxHolds_put (h : RxHolds bufsz f w) :
    f.putIndex < bufsz ∧
      ((f.getIndex + w.unread < bufsz ∧ f.putIndex = f.getIndex + w.unread) ∨
        (bufsz ≤ f.getIndex + w.unread ∧ f.putIndex + bufsz = f.getIndex + w.unread)) := by
  have hget := h.get
  have hput := h.put
  have hbound := h.bound
  by_cases hround : f.getIndex + w.unread < bufsz
  · rw [mod_eq_of_lt hround] at hput
    omega
  · rw [mod_eq_sub_mod (by omega), mod_eq_of_lt (by omega)] at hput
    omega

theorem rxHolds_read (n : Nat) (f' : SerialRxFifo) (hn : n ≤ w.unread) (h : RxHolds bufsz f w)
    (hbuffer : f'.buffer = f.buffer) (hput : f'.putIndex = f.putIndex)
    (hget : f'.getIndex = (f.getIndex + n) % bufsz) :
    RxHolds bufsz f' (w.read n) ∧ contents f.buffer bufsz f.getIndex n = w.data.take n := by
  have hpos : 0 < bufsz := Nat.lt_of_le_of_lt (Nat.zero_le _) h.get
  have hbound := h.bound
  have hstream := h.stream
  have hsplit := contents_split f.buffer bufsz f.getIndex w.unread n h.get hn
  rw [h.contents] at hsplit
  have hlen := length_contents f.buffer bufsz f.getIndex n
  have htake : contents f.buffer bufsz f.getIndex n = w.data.take n := by
    rw [hsplit, take_left' hlen]
  have hdrop : contents f.buffer bufsz ((f.getIndex + n) % bufsz) (w.unread - n) =
      w.data.drop n := by
    rw [hsplit, drop_left' hlen]
  refine ⟨⟨?_, ?_, ?_, ?_, ?_⟩, htake⟩
  · rw [hget]
    exact mod_lt _ hpos
  · rw [hput, hget, h.put, mod_add_mod]
    congr 1
    dsimp only [Window.read]
    omega
  · dsimp only [Window.read]
    omega
  · dsimp only [Window.read]
    omega
  · rw [hbuffer, hget, Window.data_read w n hstream]
    exact hdrop

theorem rxHolds_recv {bs : List (BitVec 8)} {f' : SerialRxFifo} (h : RxHolds bufsz f w)
    (hbuffer : f'.buffer = writeRound f.buffer bufsz f.putIndex bs)
    (hget : f'.getIndex =
      (f.getIndex + (w.unread + bs.length - min bufsz (w.unread + bs.length))) % bufsz)
    (hput : f'.putIndex = (f.putIndex + bs.length) % bufsz) :
    RxHolds bufsz f' (w.recv bufsz bs) := by
  have hpos : 0 < bufsz := Nat.lt_of_le_of_lt (Nat.zero_le _) h.get
  have hwrite := contents_writeRound f.buffer bufsz f.getIndex w.unread bs h.get h.bound
  rw [h.contents, ← Window.data_recv w bufsz bs h.stream] at hwrite
  refine ⟨?_, ?_, Nat.min_le_left _ _, Window.unread_recv_le w bufsz bs h.stream, ?_⟩
  · rw [hget]
    exact mod_lt _ hpos
  · rw [hput, hget, h.put, mod_add_mod, mod_add_mod]
    congr 1
    dsimp only [Window.recv]
    omega
  · rw [hbuffer, hget, h.put]
    exact hwrite

end Fifo

section Interrupt

variable {bufsz : Nat} {f : SerialRxFifo} {w : Window}

/-- In interrupt mode there is always a free byte in the buffer, and a FIFO with the flag set has
    unread bytes. -/
structure IntInv (bufsz : Nat) (f : SerialRxFifo) (w : Window) : Prop where
  holds : RxHolds bufsz f w
  room : w.unread < bufsz
  full : f.isFull = true → 0 < w.unread

theorem rxLength_eq (h : IntInv bufsz f w) : rxLength bufsz f = w.unread := by
  have hroom := h.room
  unfold rxLength
  rcases (rxHolds_put h.holds).2 with ⟨_, hput⟩ | ⟨hround, hput⟩
  · rw [if_pos (by omega)]
    omega
  · rw [if_neg (by omega)]
    omega

variable (hsize : bufsz ≤ 32768) (h : IntInv bufsz f w)
include hsize h

theorem intInv_recv {ch : BitVec 8} (hlow : 2 ≤ bufsz) :
    IntInv bufsz (isrRxInd bufsz f ch) (w.recv (bufsz - 1) [ch]) := by
  have hget := h.holds.get
  have hroom := h.room
  have hput := rxHolds_put h.holds
  have hnext := serialNext_eq bufsz f.putIndex hsize hput.1
  have hmin : min bufsz (w.unread + 1) = w.unread + 1 := min_eq_right hroom
  -- First the byte is put where there is room for it, which takes up the free byte.
  have hwritten : RxHolds bufsz
      { f with buffer := Function.update f.buffer f.putIndex ch
               putIndex := serialNext bufsz f.putIndex } (w.recv bufsz [ch]) := by
    refine rxHolds_recv bufsz f w h.holds rfl ?_ hnext
    dsimp only
    rw [length_singleton, hmin, Nat.sub_self, Nat.add_zero, mod_eq_of_lt hget]
  unfold isrRxInd
  dsimp only
  by_cases hfull : w.unread + 1 = bufsz
  · -- Then the oldest byte makes way.
    have heq : serialNext bufsz f.putIndex = f.getIndex := by
      rw [hnext, h.holds.put, mod_add_mod, Nat.add_assoc, hfull, add_mod_right, mod_eq_of_lt hget]
    have hone : 1 ≤ (w.recv bufsz [ch]).unread := by
      dsimp only [Window.recv]
      rw [length_singleton]
      omega
    have hread : (w.recv bufsz [ch]).read 1 = w.recv (bufsz - 1) [ch] := by
      unfold Window.recv Window.read
      rw [length_singleton]
      dsimp only
      congr 1
      omega
    rw [if_pos heq]
    refine ⟨?_, ?_, fun _ => ?_⟩
    · rw [← hread]
      exact (rxHolds_read bufsz _ _ 1
        { f with buffer := Function.update f.buffer f.putIndex ch
                 putIndex := serialNext bufsz f.putIndex
                 getIndex := serialNext bufsz f.getIndex
                 isFull := true }
        hone hwritten rfl rfl (serialNext_eq bufsz f.getIndex hsize hget)).1
    · dsimp only [Window.recv]
      omega
    · dsimp only [Window.recv]
      rw [length_singleton]
      omega
  · have hne : serialNext bufsz f.putIndex ≠ f.getIndex := by
      rw [serialNext_eq bufsz f.putIndex hsize hput.1, h.holds.put, mod_add_mod]
      intro heq
      have hzero := offset_ne bufsz f.getIndex 0 (w.unread + 1) (by omega) (by omega)
      rw [Nat.add_zero, mod_eq_of_lt hget, ← Nat.add_assoc] at hzero
      exact hzero heq.symm
    have hrecv : w.recv bufsz [ch] = w.recv (bufsz - 1) [ch] := by
      unfold Window.recv
      rw [length_singleton]
      congr 1
      omega
    rw [if_neg hne, ← hrecv]
    refine ⟨hwritten, ?_, fun _ => ?_⟩
    all_goals
      dsimp only [Window.recv]
      rw [length_singleton]
      omega

theorem intInv_read :
    (w.unread = 0 ∧ serialIntRxOne bufsz f = none) ∨
      (0 < w.unread ∧ ∃ f' ch, serialIntRxOne bufsz f = some (f', ch) ∧
        IntInv bufsz f' (w.read 1) ∧ w.data.take 1 = [ch]) := by
  have hget := h.holds.get
  have hroom := h.room
  have hput := rxHolds_put h.holds
  unfold serialIntRxOne
  by_cases hzero : w.unread = 0
  · refine .inl ⟨hzero, if_pos ⟨by omega, ?_⟩⟩
    -- The flag is only set where there are unread bytes.
    cases hflag : f.isFull with
    | false => rfl
    | true =>
      have := h.full hflag
      omega
  refine .inr ⟨by omega, ?_⟩
  have hne : ¬ (f.getIndex = f.putIndex ∧ f.isFull = false) := by
    rintro ⟨heq, _⟩
    omega
  rcases rxHolds_read bufsz f w 1
      { f with getIndex := serialNext bufsz f.getIndex, isFull := false } (by omega) h.holds
      rfl rfl (serialNext_eq bufsz f.getIndex hsize hget) with ⟨hrest, htake⟩
  rw [if_neg hne]
  refine ⟨_, _, rfl, ⟨hrest, ?_, fun hflag => ?_⟩, ?_⟩
  · dsimp only [Window.read]
    omega
  · exact nomatch hflag
  · rw [← htake, contents_pop f.buffer 0 hget]
    rfl

/-- A read without interruption takes the oldest bytes, as many as there are and as are asked
    for. -/
theorem intInv_rx {n : Nat} :
    (serialIntRx bufsz f n).2 = w.data.take n ∧
      IntInv bufsz (serialIntRx bufsz f n).1 (w.read n) := by
  induction n generalizing f w with
  | zero =>
    rw [serialIntRx, take_zero]
    exact ⟨rfl, h⟩
  | succ n ih =>
    have hstream := h.holds.stream
    have hlen := Window.length_data w hstream
    rw [serialIntRx]
    rcases intInv_read hsize h with ⟨hzero, hnone⟩ | ⟨_, f', ch, hone, h', hch⟩
    · have hnil : w.data = [] := by
        rw [← length_eq_zero_iff, hlen]
        exact hzero
      have hread : w.read (n + 1) = w := by
        unfold Window.read
        rw [hzero, Nat.zero_sub, ← hzero]
      rw [hnone, hnil, hread, take_nil]
      exact ⟨rfl, h⟩
    rcases ih h' with ⟨hbytes, hinv⟩
    have hread : (w.read 1).read n = w.read (n + 1) := by
      unfold Window.read
      rw [Nat.sub_sub, Nat.add_comm 1 n]
    rw [hread] at hinv
    rw [hone]
    refine ⟨?_, hinv⟩
    dsimp only
    rw [hbytes, Window.data_read w 1 hstream, Nat.add_comm n 1, take_add, hch]
    rfl

end Interrupt

section Dma

variable (bufsz : Nat) {f : SerialRxFifo} {w : Window}

/-- In DMA mode the flag is set when the buffer is full. -/
structure DmaInv (bufsz : Nat) (f : SerialRxFifo) (w : Window) : Prop where
  holds : RxHolds bufsz f w
  full : f.isFull = true ↔ w.unread = bufsz

theorem calcRecvedLen_eq (h : DmaInv bufsz f w) : serialFifoCalcRecvedLen bufsz f = w.unread := by
  have hbound := h.holds.bound
  have hput := rxHolds_put h.holds
  unfold serialFifoCalcRecvedLen
  by_cases heq : f.putIndex = f.getIndex
  · rw [if_pos heq]
    cases hflag : f.isFull with
    | false =>
      have hnot : w.unread ≠ bufsz := by
        intro hfull
        rw [h.full.mpr hfull] at hflag
        exact nomatch hflag
      rw [if_pos rfl]
      omega
    | true =>
      have := h.full.mp hflag
      rw [if_neg (by simp only [Bool.true_eq_false, not_false_eq_true])]
      omega
  · rw [if_neg heq]
    by_cases hlt : f.getIndex < f.putIndex
    · rw [if_pos hlt]
      omega
    · rw [if_neg hlt]
      omega

/-- Going on from the one index by no more than a round. -/
theorem index_cases {i len : Nat} (hi : i < bufsz) (hlen : len ≤ bufsz) :
    (i + len < bufsz ∧ (i + len) % bufsz = i + len) ∨
      (bufsz ≤ i + len ∧ (i + len) % bufsz = i + len - bufsz) := by
  by_cases hlt : i + len < bufsz
  · exact .inl ⟨hlt, mod_eq_of_lt hlt⟩
  · refine .inr ⟨by omega, ?_⟩
    rw [mod_eq_sub_mod (by omega), mod_eq_of_lt (by omega)]

/-- The end of `rt_dma_recv_update_put_index`: a full FIFO has equal indices. -/
theorem overrun_eq (g : SerialRxFifo) (hget : g.getIndex < bufsz) (hput : g.putIndex < bufsz) :
    (if bufsz ≤ (if g.isFull = true then { g with getIndex := g.putIndex } else g).getIndex then
        { (if g.isFull = true then { g with getIndex := g.putIndex } else g) with getIndex := 0 }
      else (if g.isFull = true then { g with getIndex := g.putIndex } else g)) =
      { g with getIndex := if g.isFull = true then g.putIndex else g.getIndex } := by
  by_cases hfull : g.isFull = true
  · rw [if_pos hfull, if_neg (not_le.mpr hput), if_pos hfull]
  · rw [if_neg hfull, if_neg (not_le.mpr hget), if_neg hfull]

variable {bufsz} (hsize : bufsz ≤ 32768) (h : DmaInv bufsz f w)
include hsize h

/-- What the interrupt does to the indices and the flag: the one index moves on, and if there is
    no room for all bytes, the other one moves with it. -/
theorem updatePutIndex_eq {len : Nat} (hlen : len ≤ bufsz) :
    rtDmaRecvUpdatePutIndex bufsz f len =
      { f with putIndex := (f.putIndex + len) % bufsz
               getIndex := if w.unread + len < bufsz then f.getIndex else (f.putIndex + len) % bufsz
               isFull := decide (bufsz ≤ w.unread + len) } := by
  have hget := h.holds.get
  have hbound := h.holds.bound
  have hput := rxHolds_put h.holds
  have hm := index_cases bufsz hput.1 hlen
  have hidx : serialIndex (f.putIndex + len) = f.putIndex + len :=
    mod_eq_of_lt (by omega)
  have hflag : f.isFull = decide (w.unread = bufsz) := by
    rw [Bool.eq_iff_iff, decide_eq_true_iff]
    exact h.full
  have hmlt : (f.putIndex + len) % bufsz < bufsz := mod_lt _ (by omega)
  generalize hmdef : (f.putIndex + len) % bufsz = m at *
  -- The flag is set where the bytes pass the reader, and stays set where it was.
  have hset : bufsz ≤ w.unread + len →
      { f with putIndex := m, isFull := true } =
        { f with putIndex := m, isFull := decide (bufsz ≤ w.unread + len) } := by
    intro hover
    rw [decide_eq_true hover]
  have hstay : (w.unread = bufsz ↔ bufsz ≤ w.unread + len) →
      { f with putIndex := m } =
        { f with putIndex := m, isFull := decide (bufsz ≤ w.unread + len) } := by
    intro hiff
    rw [← decide_eq_decide.mpr hiff, ← hflag]
  have hfirst : (if f.getIndex ≤ f.putIndex then
        if bufsz ≤ f.putIndex + len then
          if f.getIndex ≤ (f.putIndex + len) % bufsz then
            { f with putIndex := (f.putIndex + len) % bufsz, isFull := true }
          else { f with putIndex := (f.putIndex + len) % bufsz }
        else { f with putIndex := f.putIndex + len }
      else
        if f.getIndex ≤ f.putIndex + len then
          { f with putIndex := if bufsz ≤ f.putIndex + len then (f.putIndex + len) % bufsz
                     else f.putIndex + len
                   isFull := true }
        else { f with putIndex := f.putIndex + len }) =
      { f with putIndex := m, isFull := decide (bufsz ≤ w.unread + len) } := by
    rw [hmdef]
    by_cases hle : f.getIndex ≤ f.putIndex
    · rw [if_pos hle]
      by_cases hend : bufsz ≤ f.putIndex + len
      · rw [if_pos hend]
        by_cases hpass : f.getIndex ≤ m
        · rw [if_pos hpass]
          exact hset (by omega)
        · rw [if_neg hpass]
          exact hstay (by omega)
      · have hmput : f.putIndex + len = m := by omega
        rw [if_neg hend, hmput]
        exact hstay (by omega)
    rw [if_neg hle]
    by_cases hpass : f.getIndex ≤ f.putIndex + len
    · have hmput : (if bufsz ≤ f.putIndex + len then m else f.putIndex + len) = m := by
        by_cases hend : bufsz ≤ f.putIndex + len
        · rw [if_pos hend]
        · rw [if_neg hend]
          omega
      rw [if_pos hpass, hmput]
      exact hset (by omega)
    · have hmput : f.putIndex + len = m := by omega
      rw [if_neg hpass, hmput]
      exact hstay (by omega)
  have hover : (if decide (bufsz ≤ w.unread + len) = true then m else f.getIndex) =
      if w.unread + len < bufsz then f.getIndex else m := by
    by_cases hlt : w.unread + len < bufsz
    · rw [if_pos hlt, if_neg (by rw [decide_eq_true_iff]; omega)]
    · rw [if_neg hlt, if_pos (by rw [decide_eq_true_iff]; omega)]
  unfold rtDmaRecvUpdatePutIndex
  rw [hidx]
  dsimp only
  rw [hfirst, overrun_eq bufsz
    { f with putIndex := m, isFull := decide (bufsz ≤ w.unread + len) } hget hmlt]
  dsimp only
  rw [hover]

theorem dmaInv_recv {bs : List (BitVec 8)} (hhigh : bs.length ≤ bufsz) :
    DmaInv bufsz (isrRxDmaDone bufsz f bs).1 (w.recv bufsz bs) ∧
      (isrRxDmaDone bufsz f bs).2 = (w.recv bufsz bs).unread := by
  have hget := h.holds.get
  -- What the device writes does not matter to the indices.
  have hwrite : rtDmaRecvUpdatePutIndex bufsz
      { f with buffer := writeRound f.buffer bufsz f.putIndex bs } bs.length =
        { rtDmaRecvUpdatePutIndex bufsz f bs.length with
          buffer := writeRound f.buffer bufsz f.putIndex bs } := by
    unfold rtDmaRecvUpdatePutIndex
    dsimp only
    split_ifs
    all_goals rfl
  have hinv : DmaInv bufsz (isrRxDmaDone bufsz f bs).1 (w.recv bufsz bs) := by
    unfold isrRxDmaDone
    dsimp only
    rw [hwrite, updatePutIndex_eq hsize h hhigh]
    refine ⟨rxHolds_recv bufsz f w h.holds rfl ?_ rfl, ?_⟩
    · dsimp only
      by_cases hlt : w.unread + bs.length < bufsz
      · rw [if_pos hlt, Nat.min_eq_right (by omega), Nat.sub_self, Nat.add_zero, mod_eq_of_lt hget]
      rw [if_neg hlt, min_eq_left (by omega), h.holds.put, mod_add_mod]
      have hsum : f.getIndex + w.unread + bs.length =
          f.getIndex + (w.unread + bs.length - bufsz) + bufsz := by omega
      rw [hsum, add_mod_right]
    · dsimp only [Window.recv]
      rw [decide_eq_true_iff]
      omega
  exact ⟨hinv, calcRecvedLen_eq bufsz hinv⟩

theorem dmaInv_read (n : Nat) :
    ∃ f', serialDmaRx bufsz f n = some (f', w.data.take n) ∧ DmaInv bufsz f' (w.read n) := by
  have hget := h.holds.get
  have hbound := h.holds.bound
  have hstream := h.holds.stream
  have hlen := calcRecvedLen_eq bufsz h
  have hdata := Window.length_data w hstream
  -- What is read is as much as is asked for and as there is.
  have hmin : (if n < w.unread then n else w.unread) = min n w.unread := by
    split_ifs with hlt
    · rw [min_eq_left (by omega)]
    · rw [min_eq_right (by omega)]
  have hread : w.read n = w.read (min n w.unread) := by
    unfold Window.read
    congr 1
    omega
  have htake : w.data.take n = w.data.take (min n w.unread) := by
    rw [← hdata]
    exact take_eq_take_min
  generalize hk : min n w.unread = k at *
  have hle : k ≤ w.unread := by omega
  have hidx : serialIndex (f.getIndex + k) = f.getIndex + k := mod_eq_of_lt (by omega)
  have hnext : (if bufsz ≤ f.getIndex + k then (f.getIndex + k) % bufsz else f.getIndex + k) =
      (f.getIndex + k) % bufsz := by
    by_cases hend : bufsz ≤ f.getIndex + k
    · rw [if_pos hend]
    · rw [if_neg hend, mod_eq_of_lt (by omega)]
  have hcopy : (if f.getIndex + k < bufsz then copyFrom f.buffer f.getIndex k
      else copyFrom f.buffer f.getIndex (bufsz - f.getIndex) ++
        copyFrom f.buffer 0 (k + f.getIndex - bufsz)) =
      contents f.buffer bufsz f.getIndex k := by
    by_cases hend : f.getIndex + k < bufsz
    · rw [if_pos hend, contents_straight (by omega)]
    · rw [if_neg hend, contents_copyFrom _ _ _ _ hget (by omega) (by omega),
        Nat.add_comm k f.getIndex]
  rcases rxHolds_read bufsz f w k
      { f with getIndex := (f.getIndex + k) % bufsz
               isFull := if f.isFull = true ∧ k ≠ 0 then false else f.isFull }
      hle h.holds rfl rfl rfl with ⟨hrest, hbytes⟩
  refine ⟨{ f with getIndex := (f.getIndex + k) % bufsz
                   isFull := if f.isFull = true ∧ k ≠ 0 then false else f.isFull }, ?_, ?_⟩
  · unfold serialDmaRx rtDmaRecvUpdateGetIndex
    dsimp only
    rw [hlen, hmin, (rtAssert_eq_some (k ≤ w.unread) ()).mpr hle, hidx, hnext, hcopy, htake, hbytes]
    rfl
  rw [hread]
  refine ⟨hrest, ?_⟩
  dsimp only [Window.read]
  by_cases hfull : f.isFull = true
  · by_cases hzero : k = 0
    · rw [if_neg (fun hc => hc.2 hzero), hzero, Nat.sub_zero]
      exact h.full
    rw [if_pos ⟨hfull, hzero⟩]
    refine ⟨fun hc => (nomatch hc), fun hc => ?_⟩
    omega
  · rw [if_neg (fun hc => hfull hc.1)]
    refine ⟨fun hc => absurd hc hfull, fun hc => ?_⟩
    exact h.full.mpr (by omega)

end Dma

section Stream

variable (bufsz : Nat) (f : SerialRxFifo) (w : Window)

/-- The window of a device that has just been opened. -/
def Window.empty : Window :=
  { received := [], unread := 0 }

/-- What a step in interrupt mode does to the window, and what it returns. -/
def intWindow (bufsz : Nat) (w : Window) : IntOp → Window × RxReply
  | .recv ch => (w.recv (bufsz - 1) [ch], .bytes [])
  | .indicate => (w, .length w.unread)
  | .read => (w.read 1, .bytes (w.data.take 1))

/-- What a step in DMA mode does to the window, and what it returns. -/
def dmaWindow (bufsz : Nat) (w : Window) : DmaOp → Window × RxReply
  | .recv data => (w.recv bufsz data, .length (w.recv bufsz data).unread)
  | .read length => (w.read length, .bytes (w.data.take length))

/-- The window after a sequence of steps, and what they return. -/
def windowRun {Op : Type} (step : Window → Op → Window × RxReply) (w : Window) :
    List Op → Window × List RxReply
  | [] => (w, [])
  | op :: ops =>
    let r := step w op
    let rest := windowRun step r.1 ops
    (rest.1, r.2 :: rest.2)

/-- The indices are in the buffer, the length is the number of unread bytes, the bytes in the
    buffer are the last ones that were received, and a read that is not interrupted takes the
    oldest of them. -/
structure IntOk (bufsz : Nat) (f : SerialRxFifo) (w : Window) : Prop where
  put : f.putIndex < bufsz
  get : f.getIndex < bufsz
  length : rxLength bufsz f = w.unread
  contents : contents f.buffer bufsz f.getIndex w.unread = w.received.rtake w.unread
  read : ∀ n, (serialIntRx bufsz f n).2 = w.data.take n ∧
    rxLength bufsz (serialIntRx bufsz f n).1 = w.unread - n ∧
    RingBuffer.contents (serialIntRx bufsz f n).1.buffer bufsz
      (serialIntRx bufsz f n).1.getIndex (w.unread - n) = w.data.drop n

/-- The indices are in the buffer, the length is the number of unread bytes, and the bytes in the
    buffer are the last ones that were received. -/
structure DmaOk (bufsz : Nat) (f : SerialRxFifo) (w : Window) : Prop where
  put : f.putIndex < bufsz
  get : f.getIndex < bufsz
  length : serialFifoCalcRecvedLen bufsz f = w.unread
  contents : contents f.buffer bufsz f.getIndex w.unread = w.received.rtake w.unread

theorem rxHolds_init (buffer : Nat → BitVec 8) (hlow : 2 ≤ bufsz) :
    RxHolds bufsz (serialRxInit buffer) Window.empty :=
  ⟨by dsimp only [serialRxInit]; omega, (zero_mod bufsz).symm, Nat.zero_le _, le_rfl, rfl⟩

theorem intInv_step {op : IntOp} (hlow : 2 ≤ bufsz) (hsize : bufsz ≤ 32768) (h : IntInv bufsz f w) :
    IntInv bufsz (intStep bufsz f op).1 (intWindow bufsz w op).1 ∧
      (intStep bufsz f op).2 = (intWindow bufsz w op).2 := by
  cases op with
  | recv ch => exact ⟨intInv_recv hsize h hlow, rfl⟩
  | indicate => exact ⟨h, congrArg RxReply.length (rxLength_eq h)⟩
  | read =>
    have hstream := h.holds.stream
    rw [intStep, intWindow]
    rcases intInv_read hsize h with ⟨hzero, hnone⟩ | ⟨_, f', ch, hone, h', hch⟩
    · have hnil : w.data = [] := by
        rw [← length_eq_zero_iff, Window.length_data w hstream]
        exact hzero
      have hread : w.read 1 = w := by
        unfold Window.read
        rw [hzero, Nat.zero_sub, ← hzero]
      rw [hnone, hread, hnil]
      exact ⟨h, rfl⟩
    · rw [hone, hch]
      exact ⟨h', rfl⟩

theorem intInv_run {ops : List IntOp} (hlow : 2 ≤ bufsz) (hsize : bufsz ≤ 32768)
    (h : IntInv bufsz f w) :
    IntInv bufsz (intRun bufsz f ops).1 (windowRun (intWindow bufsz) w ops).1 ∧
      (intRun bufsz f ops).2 = (windowRun (intWindow bufsz) w ops).2 := by
  induction ops generalizing f w with
  | nil => exact ⟨h, rfl⟩
  | cons op ops ih =>
    rcases intInv_step bufsz f w hlow hsize h with ⟨h', hret⟩
    rcases ih _ _ h' with ⟨hall, hrest⟩
    exact ⟨hall, congr (congrArg List.cons hret) hrest⟩

theorem dmaInv_run (ops : List DmaOp) (hsize : bufsz ≤ 32768)
    (hops : ∀ data, .recv data ∈ ops → 0 < data.length ∧ data.length ≤ bufsz)
    (h : DmaInv bufsz f w) :
    ∃ f', dmaRun bufsz f ops = some (f', (windowRun (dmaWindow bufsz) w ops).2) ∧
      DmaInv bufsz f' (windowRun (dmaWindow bufsz) w ops).1 := by
  induction ops generalizing f w with
  | nil => exact ⟨f, rfl, h⟩
  | cons op ops ih =>
    have hops' : ∀ data, .recv data ∈ ops → 0 < data.length ∧ data.length ≤ bufsz :=
      fun data hdata => hops data (mem_cons_of_mem op hdata)
    cases op with
    | recv data =>
      rcases dmaInv_recv hsize h (hops data mem_cons_self).2 with ⟨h', hret⟩
      rcases ih _ _ hops' h' with ⟨f', hrun, hall⟩
      refine ⟨f', ?_, hall⟩
      simp only [dmaRun, dmaStep, some_bind, hrun, hret]
      rfl
    | read n =>
      rcases dmaInv_read hsize h n with ⟨f1, hread, h'⟩
      rcases ih _ _ hops' h' with ⟨f', hrun, hall⟩
      refine ⟨f', ?_, hall⟩
      simp only [dmaRun, dmaStep, hread, Option.map_some, some_bind, hrun]
      rfl

/-- For every size of the buffer and whatever is in it, any steps return what they return for a
    window on what was received, and after them the FIFO has the bytes of the window. In interrupt
    mode a window of one byte less than the buffer, in DMA mode of the whole buffer. -/
theorem serial_rx_window (buffer : Nat → BitVec 8) (hlow : 2 ≤ bufsz) (hsize : bufsz ≤ 32768) :
    (∀ ops : List IntOp,
      (intRun bufsz (serialRxInit buffer) ops).2 =
          (windowRun (intWindow bufsz) Window.empty ops).2 ∧
        IntOk bufsz (intRun bufsz (serialRxInit buffer) ops).1
          (windowRun (intWindow bufsz) Window.empty ops).1) ∧
    ∀ ops : List DmaOp,
      (∀ data, .recv data ∈ ops → 0 < data.length ∧ data.length ≤ bufsz) →
        ∃ f, dmaRun bufsz (serialRxInit buffer) ops =
            some (f, (windowRun (dmaWindow bufsz) Window.empty ops).2) ∧
          DmaOk bufsz f (windowRun (dmaWindow bufsz) Window.empty ops).1 := by
  have hinit := rxHolds_init bufsz buffer hlow
  refine ⟨fun ops => ?_, fun ops hops => ?_⟩
  · have hint : IntInv bufsz (serialRxInit buffer) Window.empty :=
      ⟨hinit, by dsimp only [Window.empty]; omega, fun hc => nomatch hc⟩
    rcases intInv_run bufsz _ _ hlow hsize hint with ⟨h, hret⟩
    refine ⟨hret, (rxHolds_put h.holds).1, h.holds.get, rxLength_eq h,
      h.holds.contents, fun n => ?_⟩
    rcases intInv_rx hsize h with ⟨hbytes, h'⟩
    refine ⟨hbytes, rxLength_eq h', ?_⟩
    rw [← Window.data_read _ n h.holds.stream]
    exact h'.holds.contents
  · have hdma : DmaInv bufsz (serialRxInit buffer) Window.empty := by
      refine ⟨hinit, fun hc => ?_, fun hc => ?_⟩
      · exact nomatch hc
      · dsimp only [Window.empty] at hc
        omega
    rcases dmaInv_run bufsz _ _ ops hsize hops hdma with ⟨f, hrun, h⟩
    exact ⟨f, hrun, (rxHolds_put h.holds).1, h.holds.get, calcRecvedLen_eq bufsz h,
      h.holds.contents⟩

/-- A buffer of three bytes: in interrupt mode the first of three bytes makes way, in DMA mode
    three bytes take the place of the one that was left. -/
theorem serial_rx_window_three :
    (intRun 3 (serialRxInit fun _ => 0#8)
        [.recv 1#8, .recv 2#8, .recv 3#8, .indicate, .read]).2 =
      [.bytes [], .bytes [], .bytes [], .length 2, .bytes [2#8]] ∧
    ∃ f, dmaRun 3 (serialRxInit fun _ => 0#8)
        [.recv [1#8, 2#8], .read 1, .recv [3#8, 4#8, 5#8], .read 9] =
      some (f, [.length 2, .bytes [1#8], .length 3, .bytes [3#8, 4#8, 5#8]]) := by
  have hall := serial_rx_window 3 (fun _ => 0#8) (by decide) (by decide)
  have hops : ∀ data, DmaOp.recv data ∈
      [DmaOp.recv [1#8, 2#8], .read 1, .recv [3#8, 4#8, 5#8], .read 9] →
        0 < data.length ∧ data.length ≤ 3 := by
    intro data hdata
    simp only [mem_cons, DmaOp.recv.injEq, reduceCtorEq, not_mem_nil, or_false, false_or] at hdata
    rcases hdata with hdata | hdata
    · rw [hdata]
      decide
    · rw [hdata]
      decide
  rcases hall.2 _ hops with ⟨f, hrun, _⟩
  exact ⟨(hall.1 _).1.trans (by decide), f, hrun⟩

end Stream

end Honeycomb
