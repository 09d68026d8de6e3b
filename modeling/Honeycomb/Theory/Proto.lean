import Honeycomb.Core.Proto
import Honeycomb.Lib.Run
import Mathlib.Data.List.Infix

/-!
# What the Box Executes

The thread is to execute every frame the parser finds, once, in order, and on the bytes of
that frame. But the parser has one buffer and one variable for the command, and the semaphore
only counts. A frame that follows while an earlier one has not been executed takes its place,
and is executed twice.

The frames are executed as they should be if the bytes of the next one, from the command on,
keep away until the thread is done with the one before; if no frame is longer than the
buffer; and if each frame has the data bytes its command reads. Then there is at most one
frame at a time between parser and thread, and the buffer holds it from its last byte to the
end of its execution.

## Theorems

* `frames_executed_once`: The property of all runs.
* `frame_executed_twice`: A frame that takes the place of another.
-/

namespace Honeycomb.Proto

open Option
open Bool (false_eq_true)

/-- What a frame tells the thread to do: its command, and the data bytes that are read for it,
    all of them its own. No command reads more than five. -/
def reading : List Byte → Option (Byte × List Byte)
  | [] => none
  | cmd :: data => (readsFrom cmd data 5 []).map fun vals => (cmd, vals)

namespace Action

def IsThread : Action → Prop
  | .thread _ => True
  | .rx _ => False

end Action

/-- The thread has executed frames that were found, in order, each once and on its own bytes,
    and left alone it will have executed all of them. No byte went past the buffer. -/
structure ProtoOk (s : Sys) : Prop where
  bounds : s.parser.overrun = false
  order : s.acted.map some <+: s.found.map reading
  finishes : ∃ s', Run.ReachableBy protoStep Action.IsThread s s' ∧
    s'.found = s.found ∧ s'.acted.map some = s.found.map reading

namespace Sys

/-- The thread is done with everything the semaphore has counted. -/
def Idle (s : Sys) : Prop :=
  s.value = 0 ∧ (s.pc = .take ∨ s.pc = .waiting)

instance (s : Sys) : Decidable s.Idle :=
  inferInstanceAs (Decidable (_ ∧ _))

/-- A byte that goes to the buffer finds room there and finds the thread idle, and the frame
    that a byte completes has the data bytes its command reads. -/
def ByteOk (s : Sys) (data : Byte) : Prop :=
  (s.parser.state = .body → s.Idle ∧ s.parser.byteRecvbufIndex.toNat < recvbufSize) ∧
    (s.parser.state = .tail → data = protoTail → (reading s.body).isSome = true)

instance (s : Sys) (data : Byte) : Decidable (s.ByteOk data) :=
  inferInstanceAs (Decidable (_ ∧ _))

/-- The same for all bytes the callback reads. -/
def RxOk : Sys → List Byte → Prop
  | _, [] => True
  | s, data :: rest => s.ByteOk data ∧ RxOk (rxByte s data) rest

instance decidableRxOk : (s : Sys) → (bytes : List Byte) → Decidable (s.RxOk bytes)
  | _, [] => isTrue trivial
  | s, data :: rest =>
    have := decidableRxOk (rxByte s data) rest
    inferInstanceAs (Decidable (_ ∧ _))

end Sys

/-- The condition on what happens next. -/
def ProtoCond (s : Sys) : Action → Prop
  | .rx chunk => Sys.RxOk { s with rx := (s.rx ++ chunk).drop protoBufferSize }
      ((s.rx ++ chunk).take protoBufferSize)
  | .thread _ => True

instance decidableProtoCond (s : Sys) (a : Action) : Decidable (ProtoCond s a) :=
  match a with
  | .rx _ => Sys.decidableRxOk _ _
  | .thread _ => isTrue trivial

section Inv

variable {s : Sys} {s' : Sys} {cmd : Byte} (data : Byte) (rest : List Byte) {result : List Byte}

/-- The buffer holds the frame from its start. -/
def Parser.Holds (p : Parser) (frame : List Byte) : Prop :=
  ∀ i b, frame[i]? = some b → p.byteRecvbuf i = b

/-- What has been received of a frame is in the buffer. -/
def Sys.Received (s : Sys) : Prop :=
  match s.parser.state with
  | .head => True
  | .length | .type => s.parser.byteRecvbufIndex = 0 ∧ s.body = []
  | .body => s.parser.byteRecvbufIndex.toNat = s.body.length ∧ s.parser.Holds s.body
  | .check | .tail => s.body ≠ [] ∧ s.parser.Holds s.body

/-- Nothing of the next frame has gone to the buffer. -/
def Sys.Fresh (s : Sys) : Prop :=
  match s.parser.state with
  | .head | .length | .type => True
  | .body => s.body = []
  | .check | .tail => False

/-- Every frame that was found has been executed. -/
def Sys.Settled (s : Sys) : Prop :=
  s.Idle ∧ s.acted.map some = s.found.map reading

/-- The last frame that was found has not been executed yet, and is in the buffer. The thread
    is somewhere on its way through it. -/
structure Outstanding (s : Sys) (cmd : Byte) (data result : List Byte) : Prop where
  found : ∃ before, s.found = before ++ [cmd :: data] ∧ s.acted.map some = before.map reading
  reads : readsFrom cmd data 5 [] = some result
  holds : s.parser.Holds (cmd :: data)
  realcmd : s.parser.realcmd = cmd
  pointer : s.parser.pRealdata = some 1
  place : (s.value = 1 ∧ s.pc = .take) ∨ (s.value = 0 ∧ (s.pc = .loadCmd ∨
    s.pc = .loadData cmd ∨ ∃ vals, s.pc = .handle cmd (some 1) vals ∧
      readsFrom cmd data (5 - vals.length) vals = some result))

/-- The invariant: between parser and thread there is one frame at most. -/
structure ProtoInv (s : Sys) : Prop where
  bounds : s.parser.overrun = false
  received : s.Received
  ledger : s.Settled ∨ (s.Fresh ∧ ∃ cmd data result, Outstanding s cmd data result)

/-- While a frame is outstanding the thread is not idle. -/
theorem not_idle {data : List Byte} (h : Outstanding s cmd data result) : ¬ s.Idle := by
  intro hidle
  rcases h.place with ⟨hv, _⟩ | ⟨_, hpc | hpc | ⟨vals, hpc, _⟩⟩
  · exact absurd (hv.symm.trans hidle.1) (by decide)
  all_goals
    rcases hidle.2 with hc | hc
    · rw [hpc] at hc
      exact nomatch hc
    · rw [hpc] at hc
      exact nomatch hc

theorem settled_of_idle (h : ProtoInv s) (hidle : s.Idle) : s.Settled := by
  rcases h.ledger with hset | ⟨_, cmd, data, result, hout⟩
  · exact hset
  · exact absurd hidle (not_idle hout)

/-- The parser takes a byte that neither goes to the buffer nor completes a frame. -/
theorem protoInv_shift {state : ParseState} {len index : Byte} {body : List Byte} (hI : ProtoInv s)
    (heq : s' = { s with
      parser := { s.parser with state := state, byteLength := len, byteRecvbufIndex := index }
      body := body })
    (hreceived : s'.Received) (hfresh : s.Fresh → s'.Fresh) : ProtoInv s' := by
  refine ⟨by rw [heq]; exact hI.bounds, hreceived, ?_⟩
  rcases hI.ledger with hset | ⟨hf, cmd, data, result, hout⟩
  · rw [heq]
    exact .inl hset
  · refine .inr ⟨hfresh hf, cmd, data, result, ?_⟩
    rw [heq]
    exact ⟨hout.found, hout.reads, hout.holds, hout.realcmd, hout.pointer, hout.place⟩

theorem protoInv_body (hI : ProtoInv s) (hstate : s.parser.state = .body)
    (hidle : s.Idle) (hroom : s.parser.byteRecvbufIndex.toNat < recvbufSize) :
    ProtoInv (rxByte s data) := by
  have hreceived := hI.received
  simp only [Sys.Received, hstate] at hreceived
  rcases hreceived with ⟨hindex, hholds⟩
  have hset := settled_of_idle hI hidle
  -- The buffer now holds one byte more.
  have hstored : (s.parser.store data).Holds (s.body ++ [data]) := by
    intro i b hb
    simp only [Parser.store, if_pos hroom]
    rw [List.getElem?_append] at hb
    split_ifs at hb with hi
    · rw [Function.update_of_ne (by omega)]
      exact hholds i b hb
    rw [List.getElem?_singleton] at hb
    by_cases hi' : i = s.body.length
    · rw [hi', Nat.sub_self, if_pos rfl, some.injEq] at hb
      rw [hi', ← hindex, Function.update_self]
      exact hb
    · rw [if_neg (by omega)] at hb
      exact nomatch hb
  have hover : (s.parser.store data).overrun = false := by
    simp only [Parser.store, if_pos hroom]
    exact hI.bounds
  have hnext : (s.parser.store data).byteRecvbufIndex.toNat = (s.body ++ [data]).length := by
    simp only [Parser.store, if_pos hroom, List.length_append, List.length_singleton]
    rw [BitVec.toNat_add, ← hindex]
    unfold recvbufSize at hroom
    simp only [BitVec.ofNat_eq_ofNat, BitVec.toNat_ofNat]
    omega
  have hne : s.body ++ [data] ≠ [] := by simp only [ne_eq, List.append_eq_nil_iff,
    List.cons_ne_self, and_false, not_false_eq_true]
  have hst : (s.parser.store data).state = .body := by
    simp only [Parser.store, if_pos hroom]
    exact hstate
  by_cases hlast : ((s.parser.store data).byteLength.toNat : Int) - 5 ≤
      (s.parser.store data).byteRecvbufIndex.toNat
  · have heq : rxByte s data = { s with
        parser := { s.parser.store data with state := .check }, body := s.body ++ [data] } := by
      simp only [rxByte, protoDataAnalyzeByte, Sys.noteByte, hstate, if_pos hlast,
        false_eq_true, if_false]
    rw [heq]
    exact ⟨hover, ⟨hne, hstored⟩, .inl hset⟩
  have heq : rxByte s data = { s with
      parser := s.parser.store data, body := s.body ++ [data] } := by
    simp only [rxByte, protoDataAnalyzeByte, Sys.noteByte, hstate, if_neg hlast,
      false_eq_true, if_false]
  rw [heq]
  refine ⟨hover, ?_, .inl hset⟩
  simp only [Sys.Received, hst]
  exact ⟨hnext, hstored⟩

/-- The last byte of a frame. The thread has been idle since the command, and it finds the frame
    in the buffer. -/
theorem protoInv_find (hI : ProtoInv s) (hstate : s.parser.state = .tail)
    (hown : (reading s.body).isSome = true) : ProtoInv (rxByte s protoTail) := by
  have hreceived := hI.received
  simp only [Sys.Received, hstate] at hreceived
  rcases hreceived with ⟨hne, hholds⟩
  have hset : s.Settled := by
    rcases hI.ledger with hset | ⟨hfresh, _⟩
    · exact hset
    · simp only [Sys.Fresh, hstate] at hfresh
  rcases List.exists_cons_of_ne_nil hne with ⟨cmd, data, hbody⟩
  rw [hbody] at hown hholds
  simp only [reading, isSome_map] at hown
  rcases isSome_iff_exists.mp hown with ⟨result, hresult⟩
  have hcmd : s.parser.byteRecvbuf 0 = cmd := hholds 0 cmd rfl
  -- The frame goes to the books, and the semaphore to the thread or to its counter.
  have heq : rxByte s protoTail = rtSemRelease { s with
      parser := { s.parser with
        realcmd := cmd, pRealdata := some 1, realdatalength := s.parser.byteLength - 6,
        state := .head }
      found := s.found ++ [cmd :: data] } := by
    simp only [rxByte, protoDataAnalyzeByte, Sys.noteByte, hstate, if_true, hcmd]
    rw [← hbody]
  rw [heq]
  rcases hset.1 with ⟨hvalue, hpc | hpc⟩
  · simp only [rtSemRelease, hpc, reduceCtorEq, if_false, hvalue]
    exact ⟨hI.bounds, trivial, .inr ⟨trivial, cmd, data, result, ⟨s.found, rfl, hset.2⟩, hresult,
      hholds, rfl, rfl, .inl ⟨rfl, rfl⟩⟩⟩
  · simp only [rtSemRelease, hpc, if_true]
    exact ⟨hI.bounds, trivial, .inr ⟨trivial, cmd, data, result, ⟨s.found, rfl, hset.2⟩, hresult,
      hholds, rfl, rfl, .inr ⟨hvalue, .inl rfl⟩⟩⟩

theorem protoInv_rxByte (hI : ProtoInv s) (hok : s.ByteOk data) : ProtoInv (rxByte s data) := by
  have hreceived := hI.received
  -- A byte that the parser does not wait for takes it back to its first state.
  have hreject : ∀ {body : List Byte},
      ProtoInv { s with parser := { s.parser with state := .head }, body := body } :=
    protoInv_shift hI rfl trivial fun _ => trivial
  cases hstate : s.parser.state with simp only [Sys.Received, hstate] at hreceived
  | head =>
    by_cases hb : data = protoHead
    all_goals simp only [rxByte, protoDataAnalyzeByte, Sys.noteByte, hstate, hb, if_true, if_false,
      false_eq_true]
    · exact protoInv_shift hI rfl ⟨rfl, rfl⟩ fun _ => trivial
    · exact hreject
  | length =>
    simp only [rxByte, protoDataAnalyzeByte, Sys.noteByte, hstate, false_eq_true, if_false]
    exact protoInv_shift hI rfl hreceived fun _ => trivial
  | type =>
    by_cases hb : data = 0x01
    all_goals simp only [rxByte, protoDataAnalyzeByte, Sys.noteByte, hstate, hb, if_true, if_false,
      false_eq_true]
    · refine protoInv_shift hI rfl ⟨?_, fun i b hib => ?_⟩ fun _ => hreceived.2
      · rw [hreceived.1, hreceived.2]
        rfl
      · rw [hreceived.2] at hib
        exact nomatch hib
    · exact hreject
  | body =>
    rcases hok.1 hstate with ⟨hidle, hroom⟩
    exact protoInv_body data hI hstate hidle hroom
  | check =>
    by_cases hb : data = 0xff
    all_goals simp only [rxByte, protoDataAnalyzeByte, Sys.noteByte, hstate, hb, if_true, if_false,
      false_eq_true]
    · refine protoInv_shift hI rfl hreceived fun hfresh => ?_
      simp only [Sys.Fresh, hstate] at hfresh
    · exact hreject
  | tail =>
    by_cases hb : data = protoTail
    · rw [hb]
      exact protoInv_find hI hstate (hok.2 hstate hb)
    · simp only [rxByte, protoDataAnalyzeByte, Sys.noteByte, hstate, if_neg hb, false_eq_true,
        if_false]
      exact hreject

theorem protoInv_rx {bytes : List Byte} (hI : ProtoInv s) (hok : s.RxOk bytes) :
    ProtoInv (bytes.foldl rxByte s) := by
  induction bytes generalizing s with
  | nil => exact hI
  | cons data bytes ih => exact ih (protoInv_rxByte data hI hok.1) hok.2

theorem nextRead_lt {cmd : Byte} {vals : List Byte} {i : Nat} (h : nextRead cmd vals = some i) :
    vals.length < 5 := by
  unfold nextRead at h
  split at h
  any_goals
    split_ifs at h with hlen
    omega
  · -- The frequency of the buzzer is read three times at most.
    split at h
    any_goals simp only [List.length_nil, List.length_cons, Nat.reduceAdd, Nat.reduceLT]
    exact nomatch h
  · exact nomatch h

/-- How far the thread is from the end of a frame. -/
def Pc.stepsLeft : Pc → Nat
  | .take => 8
  | .waiting => 0
  | .loadCmd => 7
  | .loadData _ => 6
  | .handle _ _ vals => 5 - vals.length

theorem thread_settled {readings : List Byte} (hset : s.Settled)
    (h : uartThread s readings = some s') : s' = { s with pc := .waiting } := by
  rcases hset.1 with ⟨hvalue, hpc | hpc⟩
  · simp only [uartThread, hpc] at h
    rw [if_neg (by rw [hvalue]; decide), some.injEq] at h
    exact h.symm
  · simp only [uartThread, hpc, reduceCtorEq] at h

/-- With a frame outstanding, the thread can take a step, and gets closer to the end of the
    frame or is done with it. -/
theorem thread_outstanding (data readings : List Byte) (hout : Outstanding s cmd data result) :
    ∃ s', uartThread s readings = some s' ∧ s'.parser = s.parser ∧ s'.body = s.body ∧
      s'.found = s.found ∧ (s'.Settled ∨
        (Outstanding s' cmd data result ∧ s'.pc.stepsLeft < s.pc.stepsLeft)) := by
  rcases hout.place with ⟨hv, hpc⟩ | ⟨hv, hpc | hpc | ⟨vals, hpc, hvals⟩⟩
  · refine ⟨{ s with value := 0, pc := .loadCmd }, ?_, rfl, rfl, rfl, .inr ⟨?_, ?_⟩⟩
    · simp only [uartThread, hpc, hv]
      rfl
    · exact { hout with place := .inr ⟨rfl, .inl rfl⟩ }
    · simp only [hpc, Pc.stepsLeft, Nat.reduceLT]
  · refine ⟨{ s with pc := .loadData cmd }, ?_, rfl, rfl, rfl, .inr ⟨?_, ?_⟩⟩
    · simp only [uartThread, hpc, hout.realcmd]
    · exact { hout with place := .inr ⟨hv, .inr (.inl rfl)⟩ }
    · simp only [hpc, Pc.stepsLeft, Nat.reduceLT]
  · refine ⟨{ s with pc := .handle cmd (some 1) [] }, ?_, rfl, rfl, rfl, .inr ⟨?_, ?_⟩⟩
    · simp only [uartThread, hpc, hout.pointer]
    · exact { hout with place := .inr ⟨hv, .inr (.inr ⟨[], rfl, hout.reads⟩)⟩ }
    · simp only [hpc, Pc.stepsLeft, List.length_nil, Nat.sub_zero, Nat.reduceLT]
  cases hnext : nextRead cmd vals with
  | some i =>
    have hlt := nextRead_lt hnext
    rw [show 5 - vals.length = (4 - vals.length) + 1 from by omega] at hvals
    simp only [readsFrom, hnext, bind_eq_some_iff] at hvals
    rcases hvals with ⟨v, hv', hvals⟩
    -- The byte that is read is the one of the frame.
    have hbyte : s.parser.byteRecvbuf (1 + i) = v := by
      refine hout.holds (1 + i) v ?_
      rw [Nat.add_comm, List.getElem?_cons_succ]
      exact hv'
    refine ⟨{ s with pc := .handle cmd (some 1) (vals ++ [v]) }, ?_, rfl, rfl, rfl, .inr ⟨?_, ?_⟩⟩
    · simp only [uartThread, hpc, hnext, bind_eq_bind, bind_some, hbyte, pure_def]
    · refine { hout with place := .inr ⟨hv, .inr (.inr ⟨vals ++ [v], rfl, ?_⟩)⟩ }
      rw [List.length_append, List.length_singleton,
        show 5 - (vals.length + 1) = 4 - vals.length from by omega]
      exact hvals
    · simp only [hpc, Pc.stepsLeft, List.length_append, List.length_singleton]
      omega
  | none =>
    have hresult : vals = result := by
      cases hn : 5 - vals.length with rw [hn] at hvals
      | zero =>
        exact some.inj hvals
      | succ n =>
        simp only [readsFrom, hnext, some.injEq] at hvals
        exact hvals
    refine ⟨{ s with
      pc := .take
      sent := s.sent ++ [sendFrame cmd (reply cmd vals readings)]
      acted := s.acted ++ [(cmd, vals)] }, ?_, rfl, rfl, rfl, .inl ⟨⟨hv, .inl rfl⟩, ?_⟩⟩
    · simp only [uartThread, hpc, hnext, pure_def]
    rcases hout.found with ⟨before, hfound, hacted⟩
    simp only [hfound, List.map_append, hacted, List.map_cons, List.map_nil, reading,
      hout.reads, map_some, hresult]

theorem protoInv_thread {readings : List Byte} (hI : ProtoInv s)
    (h : uartThread s readings = some s') : ProtoInv s' := by
  rcases hI.ledger with hset | ⟨hfresh, cmd, data, result, hout⟩
  · rw [thread_settled hset h]
    exact ⟨hI.bounds, hI.received, .inl ⟨⟨hset.1.1, .inr rfl⟩, hset.2⟩⟩
  rcases thread_outstanding data readings hout with
    ⟨s1, hs1, hparser, hbody, _, hnext⟩
  rw [h, some.injEq] at hs1
  rw [hs1]
  refine ⟨by rw [hparser]; exact hI.bounds, ?_, ?_⟩
  · simp only [Sys.Received, hparser, hbody]
    exact hI.received
  rcases hnext with hset | ⟨hout', _⟩
  · exact .inl hset
  · refine .inr ⟨?_, cmd, data, result, hout'⟩
    simp only [Sys.Fresh, hparser, hbody]
    exact hfresh

theorem protoInv_step {a : Action} (hI : ProtoInv s) (hc : ProtoCond s a)
    (h : protoStep s a = some s') : ProtoInv s' := by
  cases a with
  | rx chunk =>
    cases h
    refine protoInv_rx ⟨hI.bounds, hI.received, ?_⟩ hc
    rcases hI.ledger with hset | ⟨hfresh, cmd, data, result, hout⟩
    · exact .inl hset
    · exact .inr ⟨hfresh, cmd, data, result, hout.found, hout.reads, hout.holds, hout.realcmd,
        hout.pointer, hout.place⟩
  | thread readings => exact protoInv_thread hI h

/-- Left alone, the thread gets done with the frame that is outstanding. -/
theorem thread_settles {n : Nat} {data : List Byte} (hn : s.pc.stepsLeft < n)
    (hout : Outstanding s cmd data result) :
    ∃ s', Run.ReachableBy protoStep Action.IsThread s s' ∧ s'.found = s.found ∧ s'.Settled := by
  induction n generalizing s with
  | zero => exact absurd hn (Nat.not_lt_zero _)
  | succ n ih =>
    rcases thread_outstanding data [] hout with ⟨s1, hs1, _, _, hfound, hnext⟩
    have hstep : Run.ReachableBy protoStep Action.IsThread s s1 :=
      Run.reachableBy_step (a := .thread []) trivial hs1
    rcases hnext with hset | ⟨hout1, hless⟩
    · exact ⟨s1, hstep, hfound, hset⟩
    · rcases ih (by omega) hout1 with ⟨s2, hrun, hfound2, hset⟩
      exact ⟨s2, Run.reachableBy_trans hstep hrun, hfound2.trans hfound, hset⟩

theorem protoOk_of_inv (hI : ProtoInv s) : ProtoOk s := by
  rcases hI.ledger with hset | ⟨_, cmd, data, result, hout⟩
  · refine ⟨hI.bounds, ?_, s, Run.reachableBy_refl, rfl, hset.2⟩
    rw [hset.2]
  rcases thread_settles (Nat.lt_succ_self _) hout with
    ⟨s', hrun, hfound, hset⟩
  refine ⟨hI.bounds, ?_, s', hrun, hfound, ?_⟩
  · rcases hout.found with ⟨before, hbefore, hacted⟩
    rw [hacted, hbefore, List.map_append]
    exact List.prefix_append _ _
  · rw [← hfound]
    exact hset.2

theorem protoInv_init : ProtoInv sysInit :=
  ⟨rfl, trivial, .inl ⟨⟨rfl, .inl rfl⟩, rfl⟩⟩

end Inv

/-- The frames that are found are executed once each, in order and on their own bytes, if no byte
    of a frame from its command on arrives before the frame found last has been executed, and if
    every frame fits into the buffer and has the data bytes its command reads. -/
theorem frames_executed_once (as : List Action) (hc : Run.Along protoStep ProtoCond sysInit as) :
    Run.Always protoStep ProtoOk sysInit as :=
  Run.always_of_inv ProtoInv protoOk_of_inv protoInv_step protoInv_init hc

/-- The light is set to a colour and the motor to a speed. The first bytes of the second frame
    come while the first one is executed. -/
theorem frames_executed_once_two :
    Run.Always protoStep ProtoOk sysInit
      [.thread [], .rx [0x5a, 0x09, 0x01], .rx [0x01, 1, 0, 1, 0xff, 0xa5, 0x5a], .thread [],
        .thread [], .thread [], .rx [0x07, 0x01], .thread [], .thread [], .thread [],
        .rx [0x05, 100, 0xff, 0xa5], .thread [], .thread [], .thread [], .thread [], .thread [],
        .thread []] ∧
    (Run.exec protoStep sysInit
      [.thread [], .rx [0x5a, 0x09, 0x01], .rx [0x01, 1, 0, 1, 0xff, 0xa5, 0x5a], .thread [],
        .thread [], .thread [], .rx [0x07, 0x01], .thread [], .thread [], .thread [],
        .rx [0x05, 100, 0xff, 0xa5], .thread [], .thread [], .thread [], .thread [], .thread [],
        .thread []]).map (fun s => (s.found, s.acted)) =
      some ([[0x01, 1, 0, 1], [0x05, 100]], [(0x01, [1, 0, 1]), (0x05, [100, 100])]) := by
  refine ⟨frames_executed_once _ ?_, by decide +kernel⟩
  exact of_decide_eq_true (by decide +kernel)

/-- Two frames come in one chunk. The thread executes the second one twice. -/
theorem frame_executed_twice :
    (Run.exec protoStep sysInit
      [.rx [0x5a, 0x07, 0x01, 0x05, 100, 0xff, 0xa5, 0x5a, 0x07, 0x01, 0x04, 7, 0xff, 0xa5],
        .thread [], .thread [], .thread [], .thread [], .thread [], .thread [], .thread [],
        .thread [], .thread [], .thread []]).map (fun s => (s.found, s.acted, s.pc)) =
      some ([[0x05, 100], [0x04, 7]], [(0x04, [7]), (0x04, [7])], .take) := by decide +kernel

end Honeycomb.Proto
