import Honeycomb.Core.Ringbuffer

/-!
# The Ring Buffer is a Bounded Queue

The mirrors and the indices say how many bytes there are: with equal mirrors the bytes are from
the read index up to the write index, with different ones they go round the end of the pool.
`dataLen_cases` is this, and the calls for single bytes follow from it case by case.

A block is put in one or two copies, and the effect is that of putting its bytes one after the
other. So the calls for blocks are reduced to the calls for bytes, and only those are compared
with the queue.

## Theorems

* `putForce_newest`: When a block that is forced in takes the place of the oldest bytes.
* `ringbuffer_fifo`: The calls are those of a bounded queue.
-/

namespace Honeycomb

open List Nat RingBuffer

/-- The indices are in the pool, and the mirrors say which one is ahead. -/
structure RbInv (rb : Ringbuffer) : Prop where
  pos : 0 < rb.bufferSize
  small : rb.bufferSize < 2 ^ 15
  read : rb.readIndex < rb.bufferSize
  write : rb.writeIndex < rb.bufferSize
  ahead : rb.readIndex < rb.writeIndex → rb.readMirror = rb.writeMirror
  behind : rb.writeIndex < rb.readIndex → rb.readMirror ≠ rb.writeMirror

/-- The bytes in the buffer, oldest first. -/
def rbContents (rb : Ringbuffer) : List (BitVec 8) :=
  contents rb.bufferPtr rb.bufferSize rb.readIndex (rtRingbufferDataLen rb)

section Bytes

variable {rb : Ringbuffer} (ch : BitVec 8)

theorem ringIndex_eq {n : Nat} (hn : n < 2 ^ 15 := by omega) : ringIndex n = n :=
  mod_eq_of_lt hn

/-- The bytes are between the indices, or they go round the end of the pool. -/
theorem dataLen_cases (hinv : RbInv rb) :
    (rb.readMirror = rb.writeMirror ∧ rb.readIndex ≤ rb.writeIndex ∧
      rtRingbufferDataLen rb = rb.writeIndex - rb.readIndex) ∨
    (rb.readMirror ≠ rb.writeMirror ∧ rb.writeIndex ≤ rb.readIndex ∧
      rtRingbufferDataLen rb = rb.bufferSize - (rb.readIndex - rb.writeIndex)) := by
  unfold rtRingbufferDataLen rtRingbufferStatus
  by_cases heq : rb.readIndex = rb.writeIndex
  · rw [if_pos heq]
    by_cases hmir : rb.readMirror = rb.writeMirror
    · rw [if_pos hmir]
      exact .inl ⟨hmir, by omega, by dsimp only; omega⟩
    · rw [if_neg hmir]
      exact .inr ⟨hmir, by omega, by dsimp only; omega⟩
  rw [if_neg heq]
  by_cases hlt : rb.readIndex < rb.writeIndex
  · rw [if_pos hlt]
    exact .inl ⟨hinv.ahead hlt, by omega, rfl⟩
  · rw [if_neg hlt]
    exact .inr ⟨hinv.behind (by omega), by omega, rfl⟩

theorem dataLen_le (hinv : RbInv rb) : rtRingbufferDataLen rb ≤ rb.bufferSize := by
  have := hinv.write
  rcases dataLen_cases hinv with ⟨_, _, hlen⟩ | ⟨_, _, hlen⟩
  · omega
  · omega

theorem writeIndex_eq (hinv : RbInv rb) :
    rb.writeIndex = (rb.readIndex + rtRingbufferDataLen rb) % rb.bufferSize := by
  have hr := hinv.read
  have hw := hinv.write
  rcases dataLen_cases hinv with ⟨_, hle, hlen⟩ | ⟨_, hle, hlen⟩
  · have hsum : rb.readIndex + rtRingbufferDataLen rb = rb.writeIndex := by omega
    rw [hsum, mod_eq_of_lt hw]
  · have hsum : rb.readIndex + rtRingbufferDataLen rb = rb.writeIndex + rb.bufferSize := by omega
    rw [hsum, add_mod_right, mod_eq_of_lt hw]

/-- The invariant and the number of bytes from a case split on the mirrors, the converse of
    `dataLen_cases`. -/
theorem rbInv_of_cases (n : Nat) (hpos : 0 < rb.bufferSize) (hsmall : rb.bufferSize < 2 ^ 15)
    (hr : rb.readIndex < rb.bufferSize) (hw : rb.writeIndex < rb.bufferSize)
    (h : (rb.readMirror = rb.writeMirror ∧ rb.writeIndex = rb.readIndex + n) ∨
      (rb.readMirror ≠ rb.writeMirror ∧ rb.writeIndex + rb.bufferSize = rb.readIndex + n ∧
        n ≤ rb.bufferSize)) :
    RbInv rb ∧ rtRingbufferDataLen rb = n := by
  have hinv : RbInv rb := by
    refine ⟨hpos, hsmall, hr, hw, fun hlt => ?_, fun hlt => ?_⟩
    · exact h.elim And.left (fun hc => by omega)
    · exact h.elim (fun hc => by omega) And.left
  refine ⟨hinv, ?_⟩
  rcases dataLen_cases hinv with ⟨hmir, hle, hlen⟩ | ⟨hmir, hle, hlen⟩
  · rcases h with ⟨_, hn⟩ | ⟨hne, _⟩
    · omega
    · exact absurd hmir hne
  · rcases h with ⟨heq, _⟩ | ⟨_, hn⟩
    · exact absurd heq hmir
    · omega

/-- The next index, with the mirror it is in. -/
def rbNext (size : Nat) (mirror : Bool) (index : Nat) : Bool × Nat :=
  if index = size - 1 then (!mirror, 0) else (mirror, index + 1)

theorem rbNext_index {size index : Nat} {mirror : Bool} (h : index < size) :
    (rbNext size mirror index).2 = (index + 1) % size := by
  unfold rbNext
  split_ifs with hend
  · rw [show index + 1 = size by omega, mod_self]
  · exact (mod_eq_of_lt (by omega)).symm

theorem rbNext_lt {size index : Nat} {mirror : Bool} (h : index < size) :
    (rbNext size mirror index).2 < size := by
  rw [rbNext_index h]
  exact mod_lt _ (by omega)

theorem putchar_full (hfull : rtRingbufferDataLen rb = rb.bufferSize) :
    rtRingbufferPutchar rb ch = (rb, 0) := by
  have hspace : rtRingbufferSpaceLen rb = 0 := by
    unfold rtRingbufferSpaceLen
    omega
  unfold rtRingbufferPutchar
  rw [if_pos hspace]

variable (hinv : RbInv rb) (hroom : rtRingbufferDataLen rb < rb.bufferSize)
include hinv hroom

theorem putchar_room :
    rtRingbufferPutchar rb ch =
      ({ rb with bufferPtr := Function.update rb.bufferPtr rb.writeIndex ch,
                 writeMirror := (rbNext rb.bufferSize rb.writeMirror rb.writeIndex).1,
                 writeIndex := (rbNext rb.bufferSize rb.writeMirror rb.writeIndex).2 }, 1) := by
  have hw := hinv.write
  have hsmall := hinv.small
  have hspace : rtRingbufferSpaceLen rb ≠ 0 := by
    unfold rtRingbufferSpaceLen
    omega
  unfold rtRingbufferPutchar rbNext
  rw [if_neg hspace]
  dsimp only
  split_ifs with hend
  · rfl
  · rw [ringIndex_eq]

theorem putchar_len :
    RbInv (rtRingbufferPutchar rb ch).1 ∧
      rtRingbufferDataLen (rtRingbufferPutchar rb ch).1 = rtRingbufferDataLen rb + 1 := by
  have hr := hinv.read
  have hw := hinv.write
  rw [putchar_room ch hinv hroom]
  refine rbInv_of_cases _ hinv.pos hinv.small hr (rbNext_lt hw) ?_
  unfold rbNext
  dsimp only
  split_ifs with hend
  · rcases dataLen_cases hinv with ⟨hmir, hle, hlen⟩ | ⟨_, hle, hlen⟩
    · -- At the end of the pool the mirrors were equal, and they differ now.
      refine .inr ⟨?_, by omega, by omega⟩
      rw [hmir]
      exact Bool.not_eq_not.mpr rfl
    · omega
  · rcases dataLen_cases hinv with ⟨hmir, hle, hlen⟩ | ⟨hmir, hle, hlen⟩
    · exact .inl ⟨hmir, by omega⟩
    · exact .inr ⟨hmir, by omega, by omega⟩

theorem putchar_contents : rbContents (rtRingbufferPutchar rb ch).1 = rbContents rb ++ [ch] := by
  have hpush := contents_push rb.bufferPtr rb.bufferSize rb.readIndex
    (rtRingbufferDataLen rb) ch hroom
  rw [← writeIndex_eq hinv] at hpush
  unfold rbContents
  rw [(putchar_len ch hinv hroom).2, ← hpush, putchar_room ch hinv hroom]

omit hroom

omit hinv in
theorem getchar_empty (hempty : rtRingbufferDataLen rb = 0) :
    rtRingbufferGetchar rb = (rb, []) := by
  unfold rtRingbufferGetchar
  rw [if_pos hempty]

variable (hdata : rtRingbufferDataLen rb ≠ 0)
include hdata

theorem getchar_data :
    rtRingbufferGetchar rb =
      ({ rb with readMirror := (rbNext rb.bufferSize rb.readMirror rb.readIndex).1,
                 readIndex := (rbNext rb.bufferSize rb.readMirror rb.readIndex).2 },
        [rb.bufferPtr rb.readIndex]) := by
  have hr := hinv.read
  have hsmall := hinv.small
  unfold rtRingbufferGetchar rbNext
  rw [if_neg hdata]
  dsimp only
  split_ifs with hend
  · rfl
  · rw [ringIndex_eq]

theorem getchar_len :
    RbInv (rtRingbufferGetchar rb).1 ∧
      rtRingbufferDataLen (rtRingbufferGetchar rb).1 = rtRingbufferDataLen rb - 1 := by
  have hr := hinv.read
  have hw := hinv.write
  rw [getchar_data hinv hdata]
  refine rbInv_of_cases _ hinv.pos hinv.small (rbNext_lt hr) hw ?_
  unfold rbNext
  dsimp only
  split_ifs with hend
  · rcases dataLen_cases hinv with ⟨_, hle, hlen⟩ | ⟨hmir, hle, hlen⟩
    · omega
    · -- At the end of the pool the mirrors differed, and they are equal now.
      exact .inl ⟨Bool.not_eq.mpr hmir, by omega⟩
  · rcases dataLen_cases hinv with ⟨hmir, hle, hlen⟩ | ⟨hmir, hle, hlen⟩
    · exact .inl ⟨hmir, by omega⟩
    · exact .inr ⟨hmir, by omega, by omega⟩

theorem getchar_contents :
    rbContents rb = rb.bufferPtr rb.readIndex :: rbContents (rtRingbufferGetchar rb).1 ∧
      (rtRingbufferGetchar rb).2 = [rb.bufferPtr rb.readIndex] := by
  have hpop := contents_pop rb.bufferPtr (rtRingbufferDataLen (rtRingbufferGetchar rb).1) hinv.read
  have hlen : rtRingbufferDataLen rb = rtRingbufferDataLen (rtRingbufferGetchar rb).1 + 1 := by
    rw [(getchar_len hinv hdata).2]
    omega
  unfold rbContents
  rw [hlen, hpop, ← rbNext_index hinv.read, getchar_data hinv hdata]
  exact ⟨rfl, rfl⟩

omit hdata

theorem putcharForce_room (hroom : rtRingbufferDataLen rb < rb.bufferSize) :
    rtRingbufferPutcharForce rb ch = rtRingbufferPutchar rb ch := by
  have hstate : rtRingbufferStatus rb ≠ .full := by
    intro hfull
    unfold rtRingbufferDataLen at hroom
    rw [hfull] at hroom
    exact absurd hroom (lt_irrefl _)
  have hsmall := hinv.small
  have hw := hinv.write
  rw [putchar_room ch hinv hroom]
  unfold rtRingbufferPutcharForce rbNext
  dsimp only
  rw [if_neg hstate, if_neg hstate]
  split_ifs with hend
  · rfl
  · rw [ringIndex_eq]

/-- In a full buffer, a byte is forced in by getting one and putting the new one. -/
theorem putcharForce_full (hfull : rtRingbufferDataLen rb = rb.bufferSize) :
    rtRingbufferPutcharForce rb ch = rtRingbufferPutchar (rtRingbufferGetchar rb).1 ch := by
  have hsmall := hinv.small
  have hw := hinv.write
  have hdata : rtRingbufferDataLen rb ≠ 0 := by omega
  rcases getchar_len hinv hdata with ⟨hinv', hlen'⟩
  have hroom' : rtRingbufferDataLen (rtRingbufferGetchar rb).1 < rb.bufferSize := by omega
  -- A full buffer has equal indices and different mirrors.
  have heq : rb.readIndex = rb.writeIndex ∧ rb.readMirror ≠ rb.writeMirror := by
    rcases dataLen_cases hinv with ⟨_, hle, hlen⟩ | ⟨hmir, hle, hlen⟩
    · omega
    · exact ⟨by omega, hmir⟩
  have hstate : rtRingbufferStatus rb = .full := by
    unfold rtRingbufferStatus
    rw [if_pos heq.1, if_neg heq.2]
  rw [getchar_data hinv hdata] at hroom' hinv' ⊢
  rw [putchar_room ch hinv' hroom']
  unfold rtRingbufferPutcharForce rbNext
  dsimp only
  rw [if_pos hstate, if_pos hstate, heq.1]
  split_ifs with hend
  · rfl
  · rw [ringIndex_eq]

end Bytes

section Blocks

variable (rb : Ringbuffer) (ch : BitVec 8) (bs : List (BitVec 8))

/-- Putting bytes one after the other, and how many of them were put. -/
def rbPutchars (rb : Ringbuffer) : List (BitVec 8) → Ringbuffer × Nat
  | [] => (rb, 0)
  | ch :: bs =>
    let r := rtRingbufferPutchar rb ch
    let rest := rbPutchars r.1 bs
    (rest.1, r.2 + rest.2)

/-- Getting a byte several times. -/
def rbGetchars (rb : Ringbuffer) : Nat → Ringbuffer × List (BitVec 8)
  | 0 => (rb, [])
  | n + 1 =>
    let r := rtRingbufferGetchar rb
    let rest := rbGetchars r.1 n
    (rest.1, r.2 ++ rest.2)

/-- What is done with the bytes that there is room for. -/
def putBlock (rb : Ringbuffer) (bs : List (BitVec 8)) : Ringbuffer :=
  let room := rb.bufferSize - rb.writeIndex
  if bs.length < room then
    { rb with bufferPtr := copyTo rb.bufferPtr rb.writeIndex bs
              writeIndex := ringIndex (rb.writeIndex + bs.length) }
  else
    { rb with bufferPtr := copyTo (copyTo rb.bufferPtr rb.writeIndex (bs.take room)) 0
                (bs.drop room)
              writeMirror := !rb.writeMirror
              writeIndex := ringIndex (bs.length - room) }

theorem putBlock_nil (hinv : RbInv rb) : putBlock rb [] = rb := by
  have hw := hinv.write
  have hsmall := hinv.small
  unfold putBlock
  dsimp only
  rw [length_nil, if_pos (by omega), Nat.add_zero, ringIndex_eq]
  rfl

theorem putBlock_cons (hinv : RbInv rb)
    (hroom : rtRingbufferDataLen rb + (bs.length + 1) ≤ rb.bufferSize) :
    putBlock rb (ch :: bs) = putBlock (rtRingbufferPutchar rb ch).1 bs := by
  have hw := hinv.write
  rw [putchar_room ch hinv (by omega)]
  unfold putBlock rbNext
  by_cases hend : rb.writeIndex = rb.bufferSize - 1
  · -- The first copy is of this byte alone, and the second one of the others.
    rw [if_pos hend]
    dsimp only
    have hone : rb.bufferSize - rb.writeIndex = 1 := by omega
    rw [length_cons, hone, if_neg (by omega), if_pos (by omega), Nat.zero_add, Nat.add_sub_cancel]
    rfl
  rw [if_neg hend]
  have hone : rb.bufferSize - rb.writeIndex = rb.bufferSize - (rb.writeIndex + 1) + 1 := by omega
  rw [length_cons]
  by_cases hfit : bs.length < rb.bufferSize - (rb.writeIndex + 1)
  · have hsum : rb.writeIndex + (bs.length + 1) = rb.writeIndex + 1 + bs.length := by omega
    rw [if_pos (by omega), if_pos hfit, hsum]
    rfl
  · rw [if_neg (by omega), if_neg hfit, hone, take_succ_cons, drop_succ_cons, Nat.add_sub_add_right]
    rfl

theorem put_eq_block (hinv : RbInv rb) :
    rtRingbufferPut rb bs =
      (putBlock rb (bs.take (rtRingbufferSpaceLen rb)),
        min bs.length (rtRingbufferSpaceLen rb)) := by
  by_cases hfull : rtRingbufferSpaceLen rb = 0
  · unfold rtRingbufferPut
    rw [if_pos hfull, hfull, take_zero, putBlock_nil rb hinv, Nat.min_zero]
  have hlen : (if rtRingbufferSpaceLen rb < bs.length then rtRingbufferSpaceLen rb
      else bs.length) = min bs.length (rtRingbufferSpaceLen rb) := by
    rw [← min_def_lt, min_comm]
  have htake : bs.take (min bs.length (rtRingbufferSpaceLen rb)) =
      bs.take (rtRingbufferSpaceLen rb) := by
    rw [min_comm]
    exact take_eq_take_min.symm
  unfold rtRingbufferPut putBlock
  dsimp only
  rw [if_neg hfull, hlen, htake, length_take, min_comm _ bs.length]
  by_cases hfit : min bs.length (rtRingbufferSpaceLen rb) < rb.bufferSize - rb.writeIndex
  · rw [if_pos hfit, if_pos hfit]
  · rw [if_neg hfit, if_neg hfit]

theorem put_eq_putchars (hinv : RbInv rb) : rtRingbufferPut rb bs = rbPutchars rb bs := by
  rw [put_eq_block rb bs hinv]
  induction bs generalizing rb with
  | nil =>
    rw [take_nil, putBlock_nil rb hinv, length_nil, Nat.zero_min]
    rfl
  | cons ch bs ih =>
    have hle := dataLen_le hinv
    rw [rbPutchars]
    by_cases hfull : rtRingbufferDataLen rb = rb.bufferSize
    · -- Without room neither of the two does anything.
      have hspace : rtRingbufferSpaceLen rb = 0 := by
        unfold rtRingbufferSpaceLen
        omega
      rw [putchar_full ch hfull, ← ih rb hinv, hspace, take_zero, take_zero,
        Nat.min_zero, Nat.min_zero, Nat.add_zero]
    rcases putchar_len ch hinv (by omega) with ⟨hinv', hlen'⟩
    have hsize : (rtRingbufferPutchar rb ch).1.bufferSize = rb.bufferSize ∧
        (rtRingbufferPutchar rb ch).2 = 1 := by
      rw [putchar_room ch hinv (by omega)]
      exact ⟨rfl, rfl⟩
    have hspace : rtRingbufferSpaceLen rb =
        rtRingbufferSpaceLen (rtRingbufferPutchar rb ch).1 + 1 := by
      unfold rtRingbufferSpaceLen
      omega
    rw [← ih _ hinv', hspace, take_succ_cons, length_cons, Nat.add_min_add_right,
      hsize.2, Nat.add_comm 1, putBlock_cons rb ch _ hinv ?_]
    rw [length_take]
    unfold rtRingbufferSpaceLen at hspace ⊢
    omega

/-- What is done to get bytes that are there. -/
def getBlock (rb : Ringbuffer) (n : Nat) : Ringbuffer × List (BitVec 8) :=
  let room := rb.bufferSize - rb.readIndex
  if n < room then
    ({ rb with readIndex := ringIndex (rb.readIndex + n) }, copyFrom rb.bufferPtr rb.readIndex n)
  else
    ({ rb with readMirror := !rb.readMirror, readIndex := ringIndex (n - room) },
      copyFrom rb.bufferPtr rb.readIndex room ++ copyFrom rb.bufferPtr 0 (n - room))

theorem getBlock_zero (hinv : RbInv rb) : getBlock rb 0 = (rb, []) := by
  have hr := hinv.read
  have hsmall := hinv.small
  unfold getBlock
  dsimp only
  rw [if_pos (by omega), Nat.add_zero, ringIndex_eq]
  rfl

theorem getBlock_succ {n : Nat} (hinv : RbInv rb) (hdata : n + 1 ≤ rtRingbufferDataLen rb) :
    getBlock rb (n + 1) =
      ((getBlock (rtRingbufferGetchar rb).1 n).1,
        (rtRingbufferGetchar rb).2 ++ (getBlock (rtRingbufferGetchar rb).1 n).2) := by
  have hr := hinv.read
  have hle := dataLen_le hinv
  rw [getchar_data hinv (by omega)]
  unfold getBlock rbNext
  by_cases hend : rb.readIndex = rb.bufferSize - 1
  · rw [if_pos hend]
    dsimp only
    have hone : rb.bufferSize - rb.readIndex = 1 := by omega
    rw [hone, if_neg (by omega), if_pos (by omega), Nat.zero_add, Nat.add_sub_cancel]
    rfl
  rw [if_neg hend]
  have hone : rb.bufferSize - rb.readIndex = rb.bufferSize - (rb.readIndex + 1) + 1 := by omega
  by_cases hfit : n < rb.bufferSize - (rb.readIndex + 1)
  · have hsum : rb.readIndex + (n + 1) = rb.readIndex + 1 + n := by omega
    rw [if_pos (by omega), if_pos hfit, hsum]
    rfl
  · rw [if_neg (by omega), if_neg hfit, hone, Nat.add_sub_add_right]
    rfl

theorem get_eq_block {n : Nat} (hinv : RbInv rb) :
    rtRingbufferGet rb n = getBlock rb (min n (rtRingbufferDataLen rb)) := by
  by_cases hempty : rtRingbufferDataLen rb = 0
  · unfold rtRingbufferGet
    rw [if_pos hempty, hempty, Nat.min_zero, getBlock_zero rb hinv]
  have hlen : (if rtRingbufferDataLen rb < n then rtRingbufferDataLen rb else n) =
      min n (rtRingbufferDataLen rb) := by
    rw [← min_def_lt, min_comm]
  unfold rtRingbufferGet getBlock
  rw [if_neg hempty, hlen]

theorem get_eq_getchars {n : Nat} (hinv : RbInv rb) : rtRingbufferGet rb n = rbGetchars rb n := by
  rw [get_eq_block rb hinv]
  induction n generalizing rb with
  | zero =>
    rw [Nat.zero_min, getBlock_zero rb hinv]
    rfl
  | succ n ih =>
    rw [rbGetchars]
    by_cases hempty : rtRingbufferDataLen rb = 0
    · rw [getchar_empty hempty, ← ih rb hinv, hempty, Nat.min_zero, Nat.min_zero,
        getBlock_zero rb hinv, nil_append]
    rcases getchar_len hinv hempty with ⟨hinv', hlen'⟩
    have hlen : rtRingbufferDataLen rb
        = rtRingbufferDataLen (rtRingbufferGetchar rb).1 + 1 := by omega
    rw [← ih _ hinv', hlen, Nat.add_min_add_right]
    exact getBlock_succ rb hinv (by omega)

/-- What is done with a block that there is too little room for. -/
def forceBlock (rb : Ringbuffer) (bs : List (BitVec 8)) : Ringbuffer :=
  { putBlock rb bs with
    readMirror := if bs.length < rb.bufferSize - rb.writeIndex then rb.readMirror
      else !rb.readMirror
    readIndex := (putBlock rb bs).writeIndex }

theorem putForce_eq_block {d : List (BitVec 8)} (hd : d.rtake rb.bufferSize = bs) :
    rtRingbufferPutForce rb d =
      (if rtRingbufferSpaceLen rb < bs.length then forceBlock rb bs else putBlock rb bs,
        bs.length) := by
  have hptr : (if rb.bufferSize < d.length then d.drop (d.length - rb.bufferSize) else d) = bs := by
    rw [← hd]
    unfold List.rtake
    split_ifs with hlong
    · rfl
    · rw [Nat.sub_eq_zero_of_le (by omega), drop_zero]
  unfold rtRingbufferPutForce forceBlock putBlock
  dsimp only
  rw [hptr]
  split_ifs
  all_goals rfl

variable (hinv : RbInv rb) (hbs : bs.length ≤ rb.bufferSize)
include hinv hbs

/-- The cells of a block are consecutive, going round the end of the pool. -/
theorem putBlock_round :
    (putBlock rb bs).bufferPtr = writeRound rb.bufferPtr rb.bufferSize rb.writeIndex bs ∧
      (putBlock rb bs).writeIndex = (rb.writeIndex + bs.length) % rb.bufferSize ∧
      (putBlock rb bs).bufferSize = rb.bufferSize := by
  have hw := hinv.write
  have hsmall := hinv.small
  have hround := fun cs ds => writeRound_append rb.bufferPtr rb.bufferSize rb.writeIndex cs ds
  rw [mod_eq_of_lt hw] at hround
  unfold putBlock
  dsimp only
  split_ifs with hfit
  · have h := hround bs [] (by omega)
    rw [append_nil] at h
    exact ⟨h.symm, (ringIndex_eq).trans (mod_eq_of_lt (by omega)).symm, rfl⟩
  -- The second copy is from the start of the pool.
  generalize hroom : rb.bufferSize - rb.writeIndex = room at hfit
  have hlen : (bs.take room).length = room := by
    rw [length_take]
    omega
  have h := hround (bs.take room) (bs.drop room) (by omega)
  have h0 := writeRound_append (copyTo rb.bufferPtr rb.writeIndex (bs.take room)) rb.bufferSize 0
    (bs.drop room) [] (by rw [length_drop]; omega)
  have hsum : rb.writeIndex + bs.length = bs.length - room + rb.bufferSize := by omega
  have hend : rb.writeIndex + room = rb.bufferSize := by omega
  rw [take_append_drop, hlen, hend, mod_self] at h
  rw [append_nil, zero_mod] at h0
  have hlt : bs.length - room < rb.bufferSize := by omega
  rw [h, h0, hsum, add_mod_right, mod_eq_of_lt hlt]
  exact ⟨rfl, ringIndex_eq (hlt.trans hsmall), rfl⟩

variable (hover : rtRingbufferSpaceLen rb < bs.length)
include hover

/-- Both mirrors flip where the block goes round the end of the pool. If they were equal, the
    buffer counts as empty, and otherwise it is full. -/
theorem forceBlock_len :
    RbInv (forceBlock rb bs) ∧ rtRingbufferDataLen (forceBlock rb bs) =
      if rb.readMirror = rb.writeMirror then 0 else rb.bufferSize := by
  have hsmall := hinv.small
  have hw := hinv.write
  unfold rtRingbufferSpaceLen at hover
  unfold forceBlock putBlock
  dsimp only
  split_ifs with hfit hmir hmir
  · rcases dataLen_cases hinv with ⟨_, hord, hlen⟩ | ⟨hne, _⟩
    · omega
    · exact absurd hmir hne
  all_goals
    rw [ringIndex_eq]
    refine rbInv_of_cases _ hinv.pos hsmall (by dsimp only; omega) (by dsimp only; omega) ?_
  · exact .inr ⟨hmir, rfl, le_rfl⟩
  · exact .inl ⟨congrArg Bool.not hmir, rfl⟩
  · exact .inr ⟨fun h => hmir (Bool.not_inj h), rfl, le_rfl⟩

/-- With different mirrors the newest bytes are kept. -/
theorem forceBlock_contents (hmir : rb.readMirror ≠ rb.writeMirror) :
    rbContents (forceBlock rb bs) = (rbContents rb ++ bs).rtake rb.bufferSize := by
  have hle := dataLen_le hinv
  have hlen := (forceBlock_len rb bs hinv hbs hover).2
  rw [if_neg hmir] at hlen
  rcases putBlock_round rb bs hinv hbs with ⟨hptr, hwrite, hsize⟩
  unfold rtRingbufferSpaceLen at hover
  have hnew := contents_writeRound rb.bufferPtr rb.bufferSize rb.readIndex
    (rtRingbufferDataLen rb) bs hinv.read hle
  -- The oldest byte that is left is behind the last one.
  have hsum : rb.readIndex + rtRingbufferDataLen rb + bs.length =
      rb.readIndex + (rtRingbufferDataLen rb + bs.length - rb.bufferSize) + rb.bufferSize := by
    omega
  have hlast := hwrite
  rw [writeIndex_eq hinv, mod_add_mod, hsum, add_mod_right] at hlast
  rw [min_eq_left (by omega), ← hlast, ← writeIndex_eq hinv, ← hptr] at hnew
  unfold rbContents
  rw [hlen, ← hnew]
  nth_rewrite 2 [← hsize]
  rfl

end Blocks

section Queue

variable {size : Nat} {rb : Ringbuffer} {q : List (BitVec 8)} {ch : BitVec 8}

/-- A queue of at most `size` bytes. -/
def fifoStep (size : Nat) (q : List (BitVec 8)) : RbOp → List (BitVec 8) × RbReply
  | .put ptr => (q ++ ptr.take (size - q.length), .count (min ptr.length (size - q.length)))
  | .get length => (q.drop length, .bytes (q.take length))
  | .putchar ch => if q.length < size then (q ++ [ch], .count 1) else (q, .count 0)
  | .getchar => (q.drop 1, .bytes (q.take 1))
  | .putcharForce ch =>
    if q.length < size then (q ++ [ch], .count 1) else (q.drop 1 ++ [ch], .count 1)

/-- A sequence of calls to the queue, with what each of them returns. -/
def fifoRun (size : Nat) (q : List (BitVec 8)) : List RbOp → List (BitVec 8) × List RbReply
  | [] => (q, [])
  | op :: ops =>
    let r := fifoStep size q op
    let rest := fifoRun size r.1 ops
    (rest.1, r.2 :: rest.2)

/-- The buffer of the size holds the bytes of the queue. -/
structure RbHolds (size : Nat) (rb : Ringbuffer) (q : List (BitVec 8)) : Prop where
  inv : RbInv rb
  size : rb.bufferSize = size
  contents : rbContents rb = q

variable (h : RbHolds size rb q)
include h

theorem rbHolds_length : rtRingbufferDataLen rb = q.length ∧ q.length ≤ size := by
  have hlen : (rbContents rb).length = rtRingbufferDataLen rb := by
    unfold rbContents contents
    rw [length_map, length_range]
  rw [h.contents] at hlen
  have hle := dataLen_le h.inv
  rw [h.size] at hle
  omega

theorem rbHolds_putchar {ch : BitVec 8} (hroom : q.length < size) :
    RbHolds size (rtRingbufferPutchar rb ch).1 (q ++ [ch]) ∧ (rtRingbufferPutchar rb ch).2 = 1 := by
  have hdata : rtRingbufferDataLen rb < rb.bufferSize := by
    rw [(rbHolds_length h).1, h.size]
    exact hroom
  have hcon := putchar_contents ch h.inv hdata
  rw [h.contents] at hcon
  refine ⟨⟨(putchar_len ch h.inv hdata).1, ?_, hcon⟩, ?_⟩
  · rw [putchar_room ch h.inv hdata]
    exact h.size
  · rw [putchar_room ch h.inv hdata]

theorem rbHolds_getchar :
    RbHolds size (rtRingbufferGetchar rb).1 (q.drop 1) ∧ (rtRingbufferGetchar rb).2 = q.take 1 := by
  cases q with
  | nil =>
    rw [getchar_empty (rbHolds_length h).1]
    exact ⟨h, rfl⟩
  | cons b q =>
    have hdata : rtRingbufferDataLen rb ≠ 0 := by
      rw [(rbHolds_length h).1, length_cons]
      omega
    rcases getchar_contents h.inv hdata with ⟨hcon, hret⟩
    rw [h.contents, List.cons.injEq] at hcon
    refine ⟨⟨(getchar_len h.inv hdata).1, ?_, hcon.2.symm⟩, ?_⟩
    · rw [getchar_data h.inv hdata]
      exact h.size
    · rw [hret, ← hcon.1]
      rfl

theorem rbHolds_putchars (bs : List (BitVec 8)) :
    RbHolds size (rbPutchars rb bs).1 (q ++ bs.take (size - q.length)) ∧
      (rbPutchars rb bs).2 = min bs.length (size - q.length) := by
  induction bs generalizing rb q with
  | nil =>
    rw [take_nil, append_nil, length_nil, Nat.zero_min]
    exact ⟨h, rfl⟩
  | cons b bs ih =>
    rw [rbPutchars]
    by_cases hroom : q.length < size
    · rcases rbHolds_putchar h hroom with ⟨h', hret⟩
      rcases ih h' with ⟨hall, hcount⟩
      have hone : size - q.length = size - (q ++ [b]).length + 1 := by
        rw [length_append, length_singleton]
        omega
      rw [hone, take_succ_cons, append_cons, length_cons,
        Nat.add_min_add_right, hret, hcount, Nat.add_comm 1]
      exact ⟨hall, rfl⟩
    rcases rbHolds_length h with ⟨hlen, hle⟩
    rw [putchar_full b (by rw [hlen, h.size]; omega)]
    rcases ih h with ⟨hall, hcount⟩
    have hzero : size - q.length = 0 := by omega
    rw [hzero, take_zero] at hall ⊢
    rw [hzero, Nat.min_zero] at hcount
    rw [hcount, Nat.min_zero]
    exact ⟨hall, rfl⟩

theorem rbHolds_getchars {n : Nat} :
    RbHolds size (rbGetchars rb n).1 (q.drop n) ∧ (rbGetchars rb n).2 = q.take n := by
  induction n generalizing rb q with
  | zero =>
    exact ⟨h, rfl⟩
  | succ n ih =>
    rw [rbGetchars]
    rcases rbHolds_getchar h with ⟨h', hret⟩
    rcases ih h' with ⟨hall, hbytes⟩
    rw [drop_drop, Nat.add_comm 1] at hall
    rw [hret, hbytes, ← take_add, Nat.add_comm 1]
    exact ⟨hall, rfl⟩

/-- A call to the buffer is the call to the queue. -/
theorem rbHolds_step (op : RbOp) :
    RbHolds size (rbStep rb op).1 (fifoStep size q op).1 ∧
      (rbStep rb op).2 = (fifoStep size q op).2 := by
  rcases rbHolds_length h with ⟨hlen, hle⟩
  cases op with
  | put ptr =>
    rw [rbStep, fifoStep, put_eq_putchars rb ptr h.inv]
    rcases rbHolds_putchars h ptr with ⟨hall, hcount⟩
    exact ⟨hall, congrArg RbReply.count hcount⟩
  | get length =>
    rw [rbStep, fifoStep, get_eq_getchars rb h.inv]
    rcases rbHolds_getchars h with ⟨hall, hbytes⟩
    exact ⟨hall, congrArg RbReply.bytes hbytes⟩
  | putchar ch =>
    rw [rbStep, fifoStep]
    by_cases hroom : q.length < size
    · rcases rbHolds_putchar h hroom with ⟨hone, hret⟩
      rw [if_pos hroom]
      exact ⟨hone, congrArg RbReply.count hret⟩
    · rw [if_neg hroom, putchar_full ch (by rw [hlen, h.size]; omega)]
      exact ⟨h, rfl⟩
  | getchar =>
    rcases rbHolds_getchar h with ⟨hone, hret⟩
    exact ⟨hone, congrArg RbReply.bytes hret⟩
  | putcharForce ch =>
    rw [rbStep, fifoStep]
    by_cases hroom : q.length < size
    · rcases rbHolds_putchar h hroom with ⟨hone, hret⟩
      rw [if_pos hroom, putcharForce_room ch h.inv (by rw [hlen, h.size]; exact hroom)]
      exact ⟨hone, congrArg RbReply.count hret⟩
    -- The oldest byte is got first, which makes room.
    rw [if_neg hroom, putcharForce_full ch h.inv (by rw [hlen, h.size]; omega)]
    have hpos := h.inv.pos
    rw [h.size] at hpos
    rcases rbHolds_getchar h with ⟨h', _⟩
    have hroom' : (q.drop 1).length < size := by
      rw [length_drop]
      omega
    rcases rbHolds_putchar h' hroom' with ⟨hone, hret⟩
    exact ⟨hone, congrArg RbReply.count hret⟩

/-- Forcing a block in keeps the newest bytes just when the buffer is empty, there is room for all
    of it, or the mirrors are different. -/
theorem putForce_newest (d : List (BitVec 8)) :
    (RbHolds size (rtRingbufferPutForce rb d).1 ((q ++ d).rtake size) ∧
      (rtRingbufferPutForce rb d).2 = min size d.length) ↔
    q = [] ∨ q.length + d.length ≤ size ∨ rb.readMirror ≠ rb.writeMirror := by
  rcases rbHolds_length h with ⟨hlen, hle⟩
  have hbs : (d.rtake size).length = min size d.length := by
    unfold List.rtake
    rw [length_drop]
    omega
  have hspace : rtRingbufferSpaceLen rb = size - q.length := by
    unfold rtRingbufferSpaceLen
    rw [h.size, hlen]
  rw [putForce_eq_block rb (d.rtake size) (by rw [h.size]), ← rtake_append_rtake, hbs, ← hbs]
  generalize d.rtake size = bs at hbs ⊢
  split_ifs with hover
  · -- There is not room for all of it, so it depends on the mirrors.
    have hroom : bs.length ≤ rb.bufferSize := by
      rw [h.size]
      omega
    rcases forceBlock_len rb bs h.inv hroom hover with ⟨hinv, hnew⟩
    have hq : q ≠ [] := fun hnil => by
      rw [hnil, length_nil] at hspace
      omega
    refine ⟨fun hkept => .inr (.inr fun hmir => ?_), fun hkeep => ⟨?_, rfl⟩⟩
    · have hall : rtRingbufferDataLen (forceBlock rb bs) = _ := (rbHolds_length hkept.1).1
      have hpos := h.inv.pos
      rw [if_pos hmir] at hnew
      unfold List.rtake at hall
      rw [length_drop, length_append] at hall
      rw [h.size] at hpos
      omega
    · have hmir := (hkeep.resolve_left hq).resolve_left (by omega)
      have hcon := forceBlock_contents rb bs h.inv hroom hover hmir
      rw [h.contents, h.size] at hcon
      exact ⟨hinv, (putBlock_round rb bs h.inv hroom).2.2.trans h.size, hcon⟩
  · refine ⟨fun _ => ?_, fun _ => ⟨?_, rfl⟩⟩
    · by_cases hq : q = []
      · exact .inl hq
      · have hpos := length_pos_iff.mpr hq
        exact .inr (.inl (by omega))
    have hput := (rbHolds_putchars h bs).1
    rw [← put_eq_putchars rb bs h.inv, put_eq_block rb bs h.inv, hspace,
      take_of_length_le (by omega)] at hput
    unfold List.rtake
    rw [length_append, Nat.sub_eq_zero_of_le (by omega), drop_zero]
    exact hput

omit h in
/-- Only the last bytes of a long block are kept. -/
theorem putForce_newest_four :
    RbHolds 4 (rtRingbufferPutForce ⟨BitVec.ofNat 8, false, 2, true, 1, 4⟩ [6, 7, 8, 9, 5]).1
        [7, 8, 9, 5] ∧
      (rtRingbufferPutForce ⟨BitVec.ofNat 8, false, 2, true, 1, 4⟩ [6, 7, 8, 9, 5]).2 = 4 := by
  have hinv : RbInv ⟨BitVec.ofNat 8, false, 2, true, 1, 4⟩ :=
    (rbInv_of_cases 3 (by decide) (by decide) (by decide) (by decide) (.inr (by decide))).1
  exact (putForce_newest ⟨hinv, rfl, rfl⟩ [6, 7, 8, 9, 5]).mpr (.inr (.inr (by decide)))

omit h in
/-- There are two bytes in a new buffer and room for two more. Three are forced in, and the
    buffer is empty. -/
theorem putForce_empties :
    ∃ rb, rtRingbufferInit (BitVec.ofNat 8) 4 = some rb ∧
      rbContents (rbStep rb (.put [1, 2])).1 = [1, 2] ∧
      rbContents (rtRingbufferPutForce (rbStep rb (.put [1, 2])).1 [3, 4, 5]).1 = [] :=
  ⟨_, rfl, rfl, rfl⟩

theorem rbHolds_run {ops : List RbOp} :
    RbHolds size (rbRun rb ops).1 (fifoRun size q ops).1 ∧
      (rbRun rb ops).2 = (fifoRun size q ops).2 := by
  induction ops generalizing rb q with
  | nil => exact ⟨h, rfl⟩
  | cons op ops ih =>
    rcases rbHolds_step h op with ⟨h', hret⟩
    rcases ih h' with ⟨hall, hrest⟩
    exact ⟨hall, congr (congrArg List.cons hret) hrest⟩

omit h

theorem rbHolds_init (pool : Nat → BitVec 8) {n : Nat} (hlow : 4 ≤ n) (hhigh : n < 2 ^ 15) :
    ∃ rb, rtRingbufferInit pool n = some rb ∧ RbHolds (n / 4 * 4) rb [] := by
  refine ⟨⟨pool, false, 0, false, 0, n / 4 * 4⟩, ?_, ?_, rfl, rfl⟩
  · unfold rtRingbufferInit
    rw [(rtAssert_eq_some (0 < n) ()).mpr (by omega)]
    rfl
  · refine (rbInv_of_cases 0 ?_ ?_ ?_ ?_ (.inl ⟨rfl, rfl⟩)).1
    all_goals
      dsimp only
      omega

/-- The buffer holds the bytes of the queue, and its lengths, its indices and the calls for
    blocks are as they should be. -/
structure RbOk (size : Nat) (rb : Ringbuffer) (q : List (BitVec 8)) : Prop where
  contents : rbContents rb = q
  data : rtRingbufferDataLen rb = q.length
  space : rtRingbufferDataLen rb + rtRingbufferSpaceLen rb = size
  read : rb.readIndex < size
  write : rb.writeIndex < size
  put : ∀ bs, rtRingbufferPut rb bs = rbPutchars rb bs
  get : ∀ n, rtRingbufferGet rb n = rbGetchars rb n

theorem rbOk_of_rbHolds (h : RbHolds size rb q) : RbOk size rb q := by
  rcases rbHolds_length h with ⟨hlen, hle⟩
  refine ⟨h.contents, hlen, ?_, ?_, ?_, fun bs => put_eq_putchars rb bs h.inv,
    fun n => get_eq_getchars rb h.inv⟩
  · unfold rtRingbufferSpaceLen
    rw [h.size]
    omega
  · rw [← h.size]
    exact h.inv.read
  · rw [← h.size]
    exact h.inv.write

/-- For every pool and every size that leaves room for a byte, any calls return what they return
    for a bounded queue, and after them the buffer holds what the queue holds. -/
theorem ringbuffer_fifo (pool : Nat → BitVec 8) (n : Nat) (hlow : 4 ≤ n) (hhigh : n < 2 ^ 15)
    (ops : List RbOp) :
    ∃ rb, rtRingbufferInit pool n = some rb ∧
      (rbRun rb ops).2 = (fifoRun (n / 4 * 4) [] ops).2 ∧
      RbOk (n / 4 * 4) (rbRun rb ops).1 (fifoRun (n / 4 * 4) [] ops).1 := by
  rcases rbHolds_init pool hlow hhigh with ⟨rb, hinit, hempty⟩
  rcases rbHolds_run hempty with ⟨hall, hret⟩
  exact ⟨rb, hinit, hret, rbOk_of_rbHolds hall⟩

/-- Six bytes are put into a buffer for four, one is forced in, and five are asked for. -/
theorem ringbuffer_fifo_four :
    (∃ rb, rtRingbufferInit (fun _ => 0#8) 4 = some rb ∧
      (rbRun rb [.put [1#8, 2#8, 3#8, 4#8, 5#8, 6#8], .putcharForce 7#8, .get 5]).2 =
        (fifoRun 4 [] [.put [1#8, 2#8, 3#8, 4#8, 5#8, 6#8], .putcharForce 7#8, .get 5]).2 ∧
      RbOk 4 (rbRun rb [.put [1#8, 2#8, 3#8, 4#8, 5#8, 6#8], .putcharForce 7#8, .get 5]).1
        (fifoRun 4 [] [.put [1#8, 2#8, 3#8, 4#8, 5#8, 6#8], .putcharForce 7#8, .get 5]).1) ∧
    (fifoRun 4 [] [.put [1#8, 2#8, 3#8, 4#8, 5#8, 6#8], .putcharForce 7#8, .get 5]).2 =
      [.count 4, .count 1, .bytes [2#8, 3#8, 4#8, 7#8]] :=
  ⟨ringbuffer_fifo _ 4 (by decide) (by decide) _, by decide⟩

end Queue

end Honeycomb
