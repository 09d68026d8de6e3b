import Mathlib.Algebra.GroupWithZero.Nat
import Mathlib.Data.List.DropRight
import Mathlib.Data.List.Range

/-!
# Ring Buffers

A bounded queue in a pool of cells that wraps around. The elements start at an
output offset and go on cyclically, so the queue is a function of the pool, its
size, the output offset and the number of elements.

Elements are written one by one, or in blocks. A block that is copied out of the
pool goes from one offset upwards, so one that reaches the end of the pool is
copied in two pieces. A block that is written cyclically may be longer than there
is room, and then takes the place of the oldest elements.

A writer that is interrupted between any two cells is given by the list of its
writes. What the pool will be when all of them are done is what counts for what
the writer is about, and single writes do not change it.

## Main definitions

* `contents`: The elements, oldest first.
* `advance`: The next offset, with the wrap the code does by a comparison.
* `copyTo`, `copyFrom`: Blocks at consecutive offsets.
* `writeRound`: A block at cyclic offsets.
* `applyWrites`: A list of writes.

## Theorems

* `advance_eq_mod`: The comparison computes the remainder.
* `contents_push`: Writing behind the last element appends it.
* `contents_pop`: The element at the output offset is the oldest.
* `contents_split`, `contents_copyFrom`: The first elements, and how they are copied.
* `contents_writeRound`: Writing a block keeps the newest elements.
* `applyWrites_of_mem`: Writes to different cells are all there in the end.
-/

namespace Honeycomb.RingBuffer

open Function List Nat

variable {α : Type} (pool : Nat → α) (size out entry : Nat)

/-- The elements of the buffer, oldest first. -/
def contents : List α :=
  (List.range entry).map fun i => pool ((out + i) % size)

/-- Copy a block to consecutive offsets. -/
def copyTo (pool : Nat → α) : Nat → List α → Nat → α
  | _, [] => pool
  | pos, b :: bs => copyTo (update pool pos b) (pos + 1) bs

/-- Copy a block from consecutive offsets. -/
def copyFrom (pool : Nat → α) : Nat → Nat → List α
  | _, 0 => []
  | pos, n + 1 => pool pos :: copyFrom pool (pos + 1) n

/-- Write a block to cyclic offsets. -/
def writeRound (pool : Nat → α) (size : Nat) : Nat → List α → Nat → α
  | _, [] => pool
  | pos, b :: bs => writeRound (update pool pos b) size ((pos + 1) % size) bs

/-- The pool after a list of writes. -/
def applyWrites (pool : Nat → α) : List (Nat × α) → Nat → α
  | [] => pool
  | (a, v) :: ws => applyWrites (update pool a v) ws

/-- The next offset. -/
def advance (i : Nat) : Nat :=
  if size ≤ i + 1 then 0 else i + 1

theorem advance_eq_mod {i : Nat} (hi : i < size) : advance size i = (i + 1) % size := by
  unfold advance
  by_cases hwrap : size ≤ i + 1
  · have hsize : i + 1 = size := by omega
    rw [if_pos hwrap, hsize, mod_self]
  · rw [if_neg hwrap, mod_eq_of_lt (by omega)]

/-- Two positions that are less than a round apart are different cells. -/
theorem offset_ne (i j : Nat) (hij : i < j) (hj : j < size) :
    (out + i) % size ≠ (out + j) % size := by
  intro heq
  have hdvd := dvd_of_mod_eq_zero (sub_mod_eq_zero_of_mod_eq heq.symm)
  have hzero := eq_zero_of_dvd_of_lt hdvd (by omega)
  omega

/-- Writing behind the last element appends it. -/
theorem contents_push (v : α) (hentry : entry < size) :
    contents (update pool ((out + entry) % size) v) size out (entry + 1)
      = contents pool size out entry ++ [v] := by
  unfold contents
  rw [range_succ, map_append, map_singleton, update_self]
  congr 1
  refine map_congr_left (fun i hi => ?_)
  rw [mem_range] at hi
  exact update_of_ne (offset_ne size out i entry hi hentry) _ _

variable {size out} in
/-- The element at the output offset is the oldest. -/
theorem contents_pop (hout : out < size) :
    contents pool size out (entry + 1) =
      pool out :: contents pool size ((out + 1) % size) entry := by
  unfold contents
  rw [range_succ_eq_map, map_cons, map_map, Nat.add_zero, mod_eq_of_lt hout]
  congr 1
  refine map_congr_left (fun i _ => ?_)
  simp only [Function.comp_apply, mod_add_mod]
  congr 2
  omega

theorem length_contents : (contents pool size out entry).length = entry := by
  unfold contents
  rw [length_map, length_range]

/-- The first elements, and the others. -/
theorem contents_split (k : Nat) (hout : out < size) (hk : k ≤ entry) :
    contents pool size out entry =
      contents pool size out k ++ contents pool size ((out + k) % size) (entry - k) := by
  induction k generalizing out entry with
  | zero =>
    rw [Nat.add_zero, mod_eq_of_lt hout, Nat.sub_zero]
    rfl
  | succ k ih =>
    have hpos : 0 < size := by omega
    have hentry : entry = (entry - 1) + 1 := by omega
    have hnext : ((out + 1) % size + k) % size = (out + (k + 1)) % size := by
      rw [mod_add_mod, Nat.add_assoc, Nat.add_comm 1 k]
    rw [hentry, contents_pop pool _ hout, contents_pop pool _ hout,
      ih ((out + 1) % size) (entry - 1) (mod_lt _ hpos) (by omega), hnext,
      cons_append, Nat.add_sub_add_right]

variable {pool size out entry} in
/-- Elements that do not go round the end of the pool are at consecutive offsets. -/
theorem contents_straight (hsize : out + entry ≤ size) :
    contents pool size out entry = copyFrom pool out entry := by
  induction entry generalizing out with
  | zero => rfl
  | succ n ih =>
    rw [contents_pop pool n (by omega), copyFrom]
    refine congrArg _ ?_
    cases n with
    | zero => rfl
    | succ n =>
      rw [mod_eq_of_lt (show out + 1 < size by omega)]
      exact ih (by omega)

/-- Elements that go round the end of the pool are copied in two pieces. -/
theorem contents_copyFrom (hout : out < size) (hsize : size ≤ out + entry) (hentry : entry ≤ size) :
    contents pool size out entry =
      copyFrom pool out (size - out) ++ copyFrom pool 0 (out + entry - size) := by
  have hzero : (out + (size - out)) % size = 0 := by
    rw [Nat.add_sub_cancel' (le_of_lt hout), mod_self]
  have hrest : entry - (size - out) = out + entry - size := by omega
  rw [contents_split pool size out entry (size - out) hout (by omega), hzero, hrest,
    contents_straight (by omega), contents_straight (by omega)]

/-- Writing behind the last element of a full pool takes the place of the oldest one. -/
theorem contents_force (v : α) (hout : out < size) :
    contents (update pool out v) size ((out + 1) % size) size
      = (contents pool size out size).drop 1 ++ [v] := by
  have hsize : size = (size - 1) + 1 := by omega
  have hlast : ((out + 1) % size + (size - 1)) % size = out := by
    rw [mod_add_mod, Nat.add_assoc, Nat.add_sub_cancel' (by omega), add_mod_right,
      mod_eq_of_lt hout]
  have hpush := contents_push pool size ((out + 1) % size) (size - 1) v (by omega)
  have hpop := contents_pop pool (size - 1) hout
  rw [hlast, ← hsize] at hpush
  rw [← hsize] at hpop
  rw [hpush, hpop, drop_one, tail_cons]

/-- Dropping an element that is not among the last ones changes nothing about them. -/
theorem rtake_drop_one {l : List α} (n : Nat) (h : n < l.length) :
    (l.drop 1).rtake n = l.rtake n := by
  unfold List.rtake
  rw [drop_drop, length_drop]
  congr 1
  omega

/-- The last elements are those of the last ones of the second list. -/
theorem rtake_append_rtake (l m : List α) (n : Nat) :
    (l ++ m.rtake n).rtake n = (l ++ m).rtake n := by
  have hlen : n - min n m.length = n - m.length := by omega
  rw [rtake_eq_reverse_take_reverse, rtake_eq_reverse_take_reverse, rtake_eq_reverse_take_reverse,
    reverse_append, reverse_append, reverse_reverse, take_append, take_append, take_take,
    length_take, length_reverse, min_self, hlen]

/-- Writing a block behind the last element keeps the newest elements. -/
theorem contents_writeRound (bs : List α) (hout : out < size) (hentry : entry ≤ size) :
    contents (writeRound pool size ((out + entry) % size) bs) size
        ((out + (entry + bs.length - min size (entry + bs.length))) % size)
        (min size (entry + bs.length))
      = (contents pool size out entry ++ bs).rtake size := by
  have hpos : 0 < size := by omega
  induction bs generalizing pool out entry with
  | nil =>
    have hlen := length_contents pool size out entry
    rw [length_nil, Nat.add_zero, Nat.min_eq_right hentry, Nat.sub_self, Nat.add_zero,
      mod_eq_of_lt hout, append_nil, writeRound]
    unfold List.rtake
    rw [hlen, Nat.sub_eq_zero_of_le hentry, drop_zero]
  | cons b bs ih =>
    have hround : ((out + entry) % size + 1) % size = (out + (entry + 1)) % size := by
      rw [mod_add_mod, Nat.add_assoc]
    rw [writeRound, length_cons, hround, append_cons]
    by_cases hfull : entry = size
    · -- The oldest element makes place, so the rest is written from one offset further on.
      have hwhere : (out + entry) % size = out := by
        rw [hfull, add_mod_right, mod_eq_of_lt hout]
      have hnext : (out + (entry + 1)) % size = ((out + 1) % size + size) % size := by
        rw [hfull, add_mod_right, mod_mod, ← Nat.add_assoc, Nat.add_right_comm, add_mod_right]
      have hrest := ih (update pool out b) ((out + 1) % size) size (mod_lt _ hpos) le_rfl
      rw [contents_force pool size out b hout] at hrest
      have hmin : min size (size + (bs.length + 1)) = size := min_eq_left (by omega)
      have hmin' : min size (size + bs.length) = size := min_eq_left (by omega)
      have hoff : ((out + 1) % size + (size + bs.length - size)) % size =
          (out + (size + (bs.length + 1) - size)) % size := by
        rw [mod_add_mod, Nat.add_sub_cancel_left, Nat.add_sub_cancel_left, Nat.add_assoc,
          Nat.add_comm 1]
      rw [hmin', hoff] at hrest
      have hlen : size < (contents pool size out size ++ [b] ++ bs).length := by
        rw [length_append, length_append, length_contents, length_singleton]
        omega
      have hdrop : (contents pool size out size ++ [b] ++ bs).drop 1 =
          (contents pool size out size).drop 1 ++ [b] ++ bs := by
        rw [append_assoc, append_assoc,
          drop_append_of_le_length (by rw [length_contents]; exact hpos)]
      rw [hwhere, hnext, hfull, hmin, hrest, ← rtake_drop_one size hlen, hdrop]
    · have hrest := ih (update pool ((out + entry) % size) b) out (entry + 1) hout (by omega)
      rw [contents_push pool size out entry b (by omega)] at hrest
      have hsum : entry + (bs.length + 1) = entry + 1 + bs.length := by omega
      rw [hsum, hrest]

/-- Up to the end of the pool the cells are consecutive. -/
theorem writeRound_append (pos : Nat) (bs cs : List α) (h : pos + bs.length ≤ size) :
    writeRound pool size (pos % size) (bs ++ cs) =
      writeRound (copyTo pool pos bs) size ((pos + bs.length) % size) cs := by
  induction bs generalizing pool pos with
  | nil => rfl
  | cons b bs ih =>
    rw [length_cons, ← Nat.add_assoc, Nat.add_right_comm] at h ⊢
    rw [cons_append, writeRound, copyTo, mod_eq_of_lt (by omega), ih _ _ h]

theorem copyFrom_id (pos n : Nat) : copyFrom id pos n = List.range' pos n := by
  induction n generalizing pos with
  | zero => rfl
  | succ n ih =>
    rw [copyFrom, range'_succ, ih]
    rfl

theorem applyWrites_of_notMem {ws : List (Nat × α)} {a : Nat} (ha : a ∉ ws.map Prod.fst) :
    applyWrites pool ws a = pool a := by
  induction ws generalizing pool with
  | nil => rfl
  | cons w ws ih =>
    rw [map_cons, mem_cons, not_or] at ha
    rw [applyWrites, ih _ ha.2]
    exact update_of_ne ha.1 _ _

/-- Writes to different cells are all there in the end. -/
theorem applyWrites_of_mem {ws : List (Nat × α)} (hnodup : (ws.map Prod.fst).Nodup) (a : Nat)
    (v : α) (hmem : (a, v) ∈ ws) : applyWrites pool ws a = v := by
  induction ws generalizing pool with
  | nil => exact absurd hmem not_mem_nil
  | cons w ws ih =>
    rw [map_cons, nodup_cons] at hnodup
    rw [applyWrites]
    rcases mem_cons.mp hmem with rfl | hmem
    · -- no later write goes to this cell
      rw [applyWrites_of_notMem _ hnodup.1]
      exact update_self _ _ _
    · exact ih _ hnodup.2 hmem

/-- A function that takes the offsets to the values makes the one list the other. -/
theorem map_eq_of_zip {f : Nat → α} {as : List Nat} {vs : List α} (hlen : as.length = vs.length)
    (h : ∀ a v, (a, v) ∈ as.zip vs → f a = v) : as.map f = vs := by
  induction as generalizing vs with
  | nil => exact (length_eq_zero_iff.mp hlen.symm).symm
  | cons a as ih =>
    cases vs with
    | nil => exact absurd hlen (by simp only [length_cons, length_nil]; omega)
    | cons v vs =>
      rw [map_cons, h a v (by exact mem_cons_self)]
      refine congrArg _ (ih (succ.inj hlen) (fun b w hbw => h b w ?_))
      exact mem_cons_of_mem _ hbw

end Honeycomb.RingBuffer
