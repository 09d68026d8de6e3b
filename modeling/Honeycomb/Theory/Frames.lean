import Honeycomb.Core.Proto
import Honeycomb.Lib.Run

/-!
# The Frames of a Stream

A stream is made of frames and of other bytes between them, none of which is a head. The
parser reports a frame at its last byte and nothing at any other byte, whatever the payloads
are. It counts the bytes of a frame, so it does not look for a head or a tail inside.

The parser of a whole buffer looks at the head, and at the tail where the length byte puts it. It
agrees with the other one just when these places are in the buffer, and what is found so first is
the first frame of the stream, behind bytes that are passed over.

On any bytes at all the first parser finds nothing but frames, and stays inside its buffer, as long
as a length byte is that of a frame that fits. One below 6 is not noticed, and one above 69 is
written past the end of the buffer.

A command has the same effect after all histories just when the payload has the bytes it reads.
What is behind the payload is left from another frame.

## Theorems

* `frames_found`: The reports of a stream.
* `parsers_agree`: When the two parsers agree on a buffer.
* `deal_own_frame`: When a command takes its data from its own frame.
* `parser_sound`: The parser on any bytes.
-/

namespace Honeycomb.Proto

open Function List Option
open BitVec (ofNat)

/-- What the box sees of a frame that is found: the command, the length, the bytes at the pointer,
    and the state in which the parser is then. -/
structure Report where
  realcmd : Byte
  realdatalength : Byte
  realdata : Option (List Byte)
  state : ParseState
  deriving DecidableEq, Repr

def Parser.report (p : Parser) : Report where
  realcmd := p.realcmd
  realdatalength := p.realdatalength
  realdata := p.pRealdata.map fun a =>
    (range p.realdatalength.toNat).map fun i => p.byteRecvbuf (a + i)
  state := p.state

def Parser.run (p : Parser) (bytes : List Byte) : Parser :=
  bytes.foldl (fun p data => (protoDataAnalyzeByte p data).1) p

def reports (p : Parser) : List Byte → List (Option Report)
  | [] => []
  | data :: bytes =>
    let (p, find) := protoDataAnalyzeByte p data
    (if find then some p.report else none) :: reports p bytes

/-- The first report of a parser that gets one byte after the other. -/
def firstReport (p : Parser) (bytes : List Byte) : Option Report :=
  (reports p bytes).findSome? id

/-- A part of a stream. -/
inductive Segment where
  | filler (data : Byte)
  | frame (cmd : Byte) (payload : List Byte)
  deriving DecidableEq, Repr

def Segment.WellFormed : Segment → Prop
  | .filler data => data ≠ protoHead
  | .frame _ payload => payload.length ≤ 63

def Segment.bytes : Segment → List Byte
  | .filler data => [data]
  | .frame cmd payload =>
    [protoHead, ofNat 8 (payload.length + 6), 0x01] ++ (cmd :: payload) ++ [0xff, protoTail]

/-- What is to be reported at the bytes of a part. -/
def Segment.reports : Segment → List (Option Report)
  | .filler _ => [none]
  | .frame cmd payload =>
    replicate (payload.length + 5) none ++ [some ⟨cmd, ofNat 8 payload.length, some payload, .head⟩]

instance : DecidablePred Segment.WellFormed
  | .filler _ => inferInstanceAs (Decidable (_ ≠ _))
  | .frame _ _ => inferInstanceAs (Decidable (_ ≤ _))

section Stream

variable {p : Parser} {bytes bytes' : List Byte}

theorem reports_append :
    reports p (bytes ++ bytes') = reports p bytes ++ reports (p.run bytes) bytes' := by
  induction bytes generalizing p with
  | nil => rfl
  | cons data bytes ih => exact congrArg (_ :: ·) ih

theorem run_append : p.run (bytes ++ bytes') = (p.run bytes).run bytes' :=
  foldl_append

theorem store_eq (data : Byte) (hroom : p.byteRecvbufIndex.toNat < 64) :
    p.store data = { p with
      byteRecvbuf := update p.byteRecvbuf p.byteRecvbufIndex.toNat data
      byteRecvbufIndex := p.byteRecvbufIndex + 1 } ∧
      (p.byteRecvbufIndex + 1).toNat = p.byteRecvbufIndex.toNat + 1 := by
  refine ⟨if_pos hroom, ?_⟩
  rw [BitVec.toNat_add_of_lt (by change _ + 1 < 256; omega)]
  rfl

theorem body_step (data : Byte) (hstate : p.state = .body) (hroom : p.byteRecvbufIndex.toNat < 64) :
    protoDataAnalyzeByte p data =
      (if p.byteLength.toNat ≤ p.byteRecvbufIndex.toNat + 6 then
        { p.store data with state := .check } else p.store data, false) := by
  rcases store_eq data hroom with ⟨hstore, hnext⟩
  simp only [protoDataAnalyzeByte, hstate, hstore, hnext]
  by_cases hlast : p.byteLength.toNat ≤ p.byteRecvbufIndex.toNat + 6
  · rw [if_pos hlast]
    exact if_pos (by omega)
  · rw [if_neg hlast]
    exact if_neg (by omega)

/-- The bytes from the command on go to the buffer, and nothing is reported. The induction is on
    the bytes that are left, with the index as far as it has come. -/
theorem run_body (hstate : p.state = .body) (hne : bytes ≠ [])
    (hlen : p.byteLength.toNat = p.byteRecvbufIndex.toNat + bytes.length + 5 ∨
      (bytes.length = 1 ∧ p.byteLength.toNat < p.byteRecvbufIndex.toNat + 6))
    (hroom : p.byteRecvbufIndex.toNat + bytes.length ≤ 64) :
    ∃ buf index, p.run bytes =
        { p with state := .check, byteRecvbuf := buf, byteRecvbufIndex := index } ∧
      reports p bytes = replicate bytes.length none ∧
      (∀ i, i < p.byteRecvbufIndex.toNat ∨ p.byteRecvbufIndex.toNat + bytes.length ≤ i →
        buf i = p.byteRecvbuf i) ∧
      ∀ i b, bytes[i]? = some b → buf (p.byteRecvbufIndex.toNat + i) = b := by
  induction bytes generalizing p with
  | nil => exact absurd rfl hne
  | cons data bytes ih =>
    rw [length_cons] at hlen hroom
    have hstep := body_step data hstate (by omega)
    rcases store_eq data (show p.byteRecvbufIndex.toNat < 64 by omega) with ⟨hstore, hnext⟩
    cases bytes with
    | nil =>
      rw [length_nil] at hlen
      rw [if_pos (by omega)] at hstep
      refine ⟨update p.byteRecvbuf p.byteRecvbufIndex.toNat data, p.byteRecvbufIndex + 1,
        ?_, ?_, fun i hi => update_of_ne ?_ _ _, fun i b hb => ?_⟩
      · rw [Parser.run, foldl_cons, hstep, hstore]
        rfl
      · rw [reports, hstep]
        rfl
      · rw [length_singleton] at hi
        omega
      · cases i with
        | zero => exact (update_self _ _ _).trans (some.inj hb)
        | succ i => exact nomatch hb
    | cons data' bytes =>
      rw [length_cons] at hlen hroom
      rw [if_neg (by omega)] at hstep
      rcases ih (p := p.store data) (by rw [hstore]; exact hstate) (cons_ne_nil _ _)
        (.inl (by simp only [hstore, hnext, length_cons]; omega))
        (by rw [hstore, hnext, length_cons]; omega) with ⟨buf, index, hrun, hrep, hold, hnew⟩
      rw [hstore, hnext] at hold hnew
      refine ⟨buf, index, ?_, ?_, fun i hi => ?_, fun i b hb => ?_⟩
      · rw [Parser.run, foldl_cons, hstep]
        rw [hstore] at hrun ⊢
        exact hrun
      · rw [reports, hstep]
        exact congrArg (none :: ·) hrep
      · simp only [length_cons] at hi hold
        exact (hold i (by omega)).trans (update_of_ne (by omega) _ _)
      cases i with
      | zero =>
        refine (hold _ (.inl (Nat.lt_succ_self _))).trans ?_
        exact (update_self _ _ _).trans (some.inj hb)
      | succ i =>
        rw [show p.byteRecvbufIndex.toNat + (i + 1) = p.byteRecvbufIndex.toNat + 1 + i by omega]
        exact hnew i b hb

theorem length_byte {n : Nat} (hn : n ≤ 63) : (ofNat 8 (n + 6)).toNat = n + 6 ∧
    ofNat 8 (n + 6) - 6 = ofNat 8 n ∧ (ofNat 8 n).toNat = n := by
  refine ⟨Nat.mod_eq_of_lt (by omega), ?_, Nat.mod_eq_of_lt (by omega)⟩
  rw [BitVec.ofNat_add]
  exact BitVec.add_sub_cancel _ _

/-- The parser after the first three bytes of a frame. -/
def Parser.opened (p : Parser) (len : Byte) : Parser :=
  { p with state := .body, byteLength := len, byteRecvbufIndex := 0 }

theorem run_open {len : Byte} (hstate : p.state = .head) :
    p.run [protoHead, len, 0x01] = p.opened len ∧
      reports p [protoHead, len, 0x01] = replicate 3 none := by
  simp only [Parser.run, foldl_cons, foldl_nil, reports, protoDataAnalyzeByte, hstate, if_true,
    Bool.false_eq_true, if_false]
  exact ⟨rfl, rfl⟩

/-- The bytes of a frame with any length byte. -/
def frameBytes (len cmd : Byte) (payload : List Byte) : List Byte :=
  [protoHead, len, 0x01] ++ (cmd :: payload) ++ [0xff, protoTail]

/-- The length byte counts the frame. One below 6 is taken for that of a frame without payload. -/
def Counts (len : Byte) (payload : List Byte) : Prop :=
  len.toNat = payload.length + 6 ∨ (payload = [] ∧ len.toNat < 6)

/-- The bytes from the head to the end of the payload. The frame is then at the start of the buffer
    from the command on, and the rest of the buffer is as before. -/
theorem run_counted {len : Byte} (cmd : Byte) {payload : List Byte} (hstate : p.state = .head)
    (hlen : Counts len payload) (hle : payload.length ≤ 63) :
    ∃ buf index, (∀ i b, (cmd :: payload)[i]? = some b → buf i = b) ∧
      (∀ i, payload.length + 1 ≤ i → buf i = p.byteRecvbuf i) ∧
      p.run ([protoHead, len, 0x01] ++ (cmd :: payload)) = { p with
        state := .check, byteLength := len, byteRecvbuf := buf, byteRecvbufIndex := index } ∧
      reports p ([protoHead, len, 0x01] ++ (cmd :: payload)) =
        replicate (payload.length + 4) none := by
  rcases @run_open p len hstate with ⟨hopen, hquiet⟩
  have hzero : (p.opened len).byteRecvbufIndex.toNat = 0 := rfl
  have hbody : len.toNat = 0 + (cmd :: payload).length + 5 ∨
      ((cmd :: payload).length = 1 ∧ len.toNat < 0 + 6) := by
    rcases hlen with hlen | ⟨rfl, hlen⟩
    · exact .inl (by rw [length_cons, hlen]; omega)
    · exact .inr ⟨rfl, by omega⟩
  rcases @run_body (p.opened len) (cmd :: payload) rfl (cons_ne_nil _ _) hbody
    (by rw [hzero, length_cons]; omega) with ⟨buf, index, hrun, hrep, hold, hnew⟩
  simp only [hzero, Nat.zero_add] at hnew hold
  refine ⟨buf, index, hnew, fun i hi => hold i (.inr hi), ?_, ?_⟩
  · rw [run_append, hopen, hrun]
    rfl
  · rw [reports_append, hquiet, hopen, hrep, replicate_append_replicate, length_cons,
      Nat.add_comm 3]

/-- The parser after a frame, which is reported at its last byte. -/
theorem frame_run {len : Byte} (cmd : Byte) {payload : List Byte} (hstate : p.state = .head)
    (hlen : Counts len payload) (hle : payload.length ≤ 63) :
    ∃ buf index, (∀ i b, (cmd :: payload)[i]? = some b → buf i = b) ∧
      (∀ i, payload.length + 1 ≤ i → buf i = p.byteRecvbuf i) ∧
      p.run (frameBytes len cmd payload) = { p with
        byteLength := len, byteRecvbuf := buf, byteRecvbufIndex := index,
        realcmd := cmd, pRealdata := some 1, realdatalength := len - 6 } ∧
      reports p (frameBytes len cmd payload) = replicate (payload.length + 5) none ++
        [some (p.run (frameBytes len cmd payload)).report] := by
  rcases run_counted cmd hstate hlen hle with ⟨buf, index, hnew, hold, hrun, hrep⟩
  have hcmd : buf 0 = cmd := hnew 0 cmd rfl
  refine ⟨buf, index, hnew, hold, ?_, ?_⟩
  · rw [frameBytes, run_append, hrun]
    simp only [Parser.run, foldl_cons, foldl_nil, protoDataAnalyzeByte, if_true, hcmd, hstate]
  · rw [frameBytes, run_append, reports_append, hrep, hrun]
    change replicate (payload.length + 4) none ++ (replicate 1 none ++ [_]) = _
    rw [← append_assoc, replicate_append_replicate]
    rfl

theorem frame_reported {seg : Segment} (hstate : p.state = .head) (hseg : seg.WellFormed) :
    reports p seg.bytes = seg.reports ∧ (p.run seg.bytes).state = .head := by
  cases seg with
  | filler data =>
    have hstep : protoDataAnalyzeByte p data = ({ p with state := .head }, false) := by
      simp only [protoDataAnalyzeByte, hstate]
      exact if_neg hseg
    simp only [Segment.bytes, reports, Parser.run, foldl_cons, hstep]
    exact ⟨rfl, rfl⟩
  | frame cmd payload =>
    have hle : payload.length ≤ 63 := hseg
    rcases length_byte hle with ⟨hlong, hshort, hlen⟩
    rcases frame_run cmd hstate (.inl hlong) hle with ⟨buf, index, hnew, -, hrun, hrep⟩
    rw [hshort] at hrun
    change reports p (frameBytes _ cmd payload) = _ ∧ (p.run (frameBytes _ cmd payload)).state = _
    have hdata : (range payload.length).map (fun i => buf (1 + i)) = payload := by
      refine ext_getElem (by rw [length_map, length_range]) fun i _ hi => ?_
      rw [getElem_map, getElem_range, Nat.add_comm]
      exact hnew (i + 1) payload[i] (getElem?_eq_getElem hi)
    rw [hrep, hrun]
    simp only [Parser.report, hstate, hlen, map_some, hdata, Segment.reports, and_self]

/-- From its first state on, the parser reports every frame of a stream at its last byte, and
    nothing else. -/
theorem frames_found (p : Parser) (segs : List Segment) (hstate : p.state = .head)
    (hsegs : ∀ seg ∈ segs, seg.WellFormed) :
    reports p (segs.flatMap Segment.bytes) = segs.flatMap Segment.reports ∧
      (p.run (segs.flatMap Segment.bytes)).state = .head := by
  induction segs generalizing p with
  | nil => exact ⟨rfl, hstate⟩
  | cons seg segs ih =>
    rcases frame_reported hstate (hsegs seg mem_cons_self) with ⟨hrep, hhead⟩
    rcases ih _ hhead fun seg' hmem => hsegs seg' (mem_cons_of_mem _ hmem) with ⟨hreps, hend⟩
    rw [flatMap_cons, flatMap_cons, reports_append, hrep, hreps]
    refine ⟨rfl, ?_⟩
    rw [run_append]
    exact hend

/-- A frame without data, and one that has a head and a tail in it. -/
theorem frames_found_two : reports parserInit
    [0x00, 0x5a, 0x06, 0x01, 0x10, 0xff, 0xa5, 0xff, 0x5a, 0x09, 0x01, 0x06, 0x5a, 0xff, 0xa5,
      0xff, 0xa5] =
    replicate 6 none ++ [some ⟨0x10, 0, some [], .head⟩] ++ replicate 9 none ++
      [some ⟨0x06, 3, some [0x5a, 0xff, 0xa5], .head⟩] := by
  exact (frames_found parserInit [.filler 0x00, .frame 0x10 [], .filler 0xff,
    .frame 0x06 [0x5a, 0xff, 0xa5]] rfl (by decide)).1

/-- Bytes that are passed over: one that is no head, or those of a head up to a type, a check or a
    tail that is none. The parser looks for the next head only behind them. -/
inductive Skip : List Byte → Prop
  | filler {b : Byte} (hb : b ≠ protoHead) : Skip [b]
  | type {len b : Byte} (hb : b ≠ 0x01) : Skip [protoHead, len, b]
  | ending {len cmd b : Byte} {payload marks : List Byte} (hlen : Counts len payload)
      (hle : payload.length ≤ 63)
      (hb : marks = [b] ∧ b ≠ 0xff ∨ marks = [0xff, b] ∧ b ≠ protoTail) :
      Skip ([protoHead, len, 0x01] ++ (cmd :: payload) ++ marks)

/-- The first frame of a stream, and what is to be reported for it. -/
inductive FirstFrame : List Byte → Report → Prop
  | here (cmd : Byte) {payload : List Byte} (more : List Byte) (hle : payload.length ≤ 63) :
      FirstFrame ((Segment.frame cmd payload).bytes ++ more)
        ⟨cmd, ofNat 8 payload.length, some payload, .head⟩
  | later {seg rest : List Byte} {r : Report} (hseg : Skip seg) (h : FirstFrame rest r) :
      FirstFrame (seg ++ rest) r

variable {seg : List Byte} {r : Report}

theorem firstReport_append :
    firstReport p (bytes ++ bytes') =
      (firstReport p bytes).or (firstReport (p.run bytes) bytes') := by
  rw [firstReport, reports_append, findSome?_append]
  rfl

theorem skip_quiet (hseg : Skip seg) (hstate : p.state = .head) :
    firstReport p seg = none ∧ (p.run seg).state = .head := by
  cases hseg with
  | @filler b hb =>
    rcases @frame_reported p (.filler b) hstate hb with ⟨hrep, hhead⟩
    exact ⟨congrArg (findSome? id) hrep, hhead⟩
  | type hb =>
    simp only [firstReport, Parser.run, foldl_cons, foldl_nil, reports, protoDataAnalyzeByte,
      hstate, if_true, if_neg hb, Bool.false_eq_true, if_false, and_true]
    rfl
  | @ending len cmd b payload marks hlen hle hb =>
    rcases run_counted cmd hstate hlen hle with ⟨buf, index, -, -, hrun, hrep⟩
    rw [run_append, firstReport_append, hrun, firstReport, hrep]
    rcases hb with ⟨rfl, hb⟩ | ⟨rfl, hb⟩
    all_goals
      simp only [firstReport, reports, Parser.run, foldl_cons, foldl_nil, protoDataAnalyzeByte,
        if_true, if_neg hb]
      simp

theorem firstFrame_found (h : FirstFrame bytes r) (hstate : p.state = .head) :
    firstReport p bytes = some r := by
  induction h generalizing p with
  | @here cmd payload more hle =>
    rw [firstReport_append, firstReport, (@frame_reported p (.frame cmd payload) hstate hle).1]
    simp [Segment.reports]
  | later hseg _ ih =>
    rcases skip_quiet hseg hstate with ⟨hnone, hhead⟩
    rw [firstReport_append, hnone, none_or, ih hhead]

theorem room_of_step {data : Byte} (h : (protoDataAnalyzeByte p data).1.overrun = false) :
    p.overrun = false ∧ (p.state = .body → p.byteRecvbufIndex.toNat < 64) := by
  unfold protoDataAnalyzeByte Parser.store recvbufSize at h
  split at h
  all_goals grind

theorem room_of_run (h : (p.run bytes).overrun = false) : p.overrun = false := by
  induction bytes generalizing p with
  | nil => exact h
  | cons data bytes ih => exact (room_of_step (ih h)).1

/-- Something is reported only behind a body that is there as a whole, and fits if nothing is
    written past the end of the buffer. -/
theorem body_whole (hstate : p.state = .body) (hover : (p.run bytes).overrun = false)
    (hr : firstReport p bytes = some r) :
    ∃ cmd payload b rest, bytes = cmd :: payload ++ b :: rest ∧
      (p.byteLength.toNat = p.byteRecvbufIndex.toNat + payload.length + 6 ∨
        (payload = [] ∧ p.byteLength.toNat < p.byteRecvbufIndex.toNat + 6)) ∧
      p.byteRecvbufIndex.toNat + payload.length ≤ 63 := by
  induction bytes generalizing p with
  | nil => exact nomatch hr
  | cons data bytes ih =>
    have hroom := (room_of_step (room_of_run hover)).2 hstate
    have hstep := body_step data hstate hroom
    rcases store_eq data hroom with ⟨hstore, hnext⟩
    rw [Parser.run, foldl_cons] at hover
    rw [firstReport, reports] at hr
    by_cases hlast : p.byteLength.toNat ≤ p.byteRecvbufIndex.toNat + 6
    · rw [hstep, if_pos hlast] at hr
      cases bytes with
      | nil => exact nomatch hr
      | cons b rest => exact ⟨data, [], b, rest, rfl, by simp; omega, by simp; omega⟩
    · rw [hstep, if_neg hlast] at hr hover
      rcases ih (p := p.store data) (by rw [hstore]; exact hstate) hover hr with
        ⟨cmd, payload, b, rest, rfl, hlen, hle⟩
      simp only [hstore, hnext] at hlen hle
      exact ⟨data, cmd :: payload, b, rest, rfl, .inl (by simp; omega), by simp; omega⟩

/-- Where something is reported, there are bytes to be passed over or a frame at the start. -/
theorem skip_or_frame (hstate : p.state = .head) (hover : (p.run bytes).overrun = false)
    (hr : firstReport p bytes = some r) :
    (∃ seg rest, bytes = seg ++ rest ∧ seg ≠ [] ∧ Skip seg) ∨
      ∃ len cmd payload more, bytes = frameBytes len cmd payload ++ more ∧ Counts len payload ∧
        payload.length ≤ 63 := by
  rcases bytes with _ | ⟨a, bytes⟩
  · exact nomatch hr
  by_cases ha : a = protoHead
  case neg => exact .inl ⟨[a], bytes, rfl, cons_ne_nil _ _, .filler ha⟩
  subst ha
  rcases bytes with _ | ⟨len, _ | ⟨ty, bytes⟩⟩
  · simp [firstReport, reports, protoDataAnalyzeByte, hstate] at hr
  · simp [firstReport, reports, protoDataAnalyzeByte, hstate] at hr
  by_cases hty : ty = 0x01
  case neg => exact .inl ⟨[protoHead, len, ty], bytes, rfl, cons_ne_nil _ _, .type hty⟩
  subst hty
  change (p.run ([protoHead, len, 0x01] ++ bytes)).overrun = false at hover
  change firstReport p ([protoHead, len, 0x01] ++ bytes) = some r at hr
  have hbody := hr
  rcases @run_open p len hstate with ⟨hopen, hquiet⟩
  rw [run_append, hopen] at hover
  rw [firstReport_append, firstReport, hquiet, hopen] at hbody
  rcases body_whole rfl hover hbody with ⟨cmd, payload, b, rest, rfl, hlen, hle⟩
  have hcounts : Counts len payload := by simpa [Parser.opened, Counts] using hlen
  have hle : payload.length ≤ 63 := by simpa [Parser.opened] using hle
  by_cases hb : b = 0xff
  case neg =>
    exact .inl ⟨_, rest, by simp, by simp, @Skip.ending len cmd b _ _ hcounts hle (.inl ⟨rfl, hb⟩)⟩
  subst hb
  rcases rest with _ | ⟨b, rest⟩
  · rcases run_counted cmd hstate hcounts hle with ⟨buf, index, -, -, hrun, hrep⟩
    rw [← append_assoc, firstReport_append, firstReport, hrep, hrun] at hr
    simp [firstReport, reports, protoDataAnalyzeByte] at hr
  by_cases hb : b = protoTail
  case neg =>
    exact .inl ⟨_, rest, by simp, by simp, @Skip.ending len cmd b _ _ hcounts hle (.inr ⟨rfl, hb⟩)⟩
  subst hb
  exact .inr ⟨len, cmd, payload, rest, by simp [frameBytes], hcounts, hle⟩

/-- What is reported first is the first frame, as long as the parser stays inside its buffer. The
    induction is on the number of bytes that are left behind those that are passed over. -/
theorem firstFrame_of_report (hstate : p.state = .head) (hover : (p.run bytes).overrun = false)
    (hr : firstReport p bytes = some r) (hlen : r.realdatalength.toNat < 64) :
    FirstFrame bytes r := by
  induction hn : bytes.length using Nat.strongRecOn generalizing p bytes with
  | ind n ih =>
    rcases skip_or_frame hstate hover hr with
      ⟨seg, rest, rfl, hne, hseg⟩ | ⟨len, cmd, payload, more, rfl, hcounts, hle⟩
    · rcases skip_quiet hseg hstate with ⟨hnone, hhead⟩
      rw [firstReport_append, hnone, none_or] at hr
      rw [run_append] at hover
      rw [length_append] at hn
      have hpos := length_pos_iff.mpr hne
      exact .later hseg (ih rest.length (by omega) hhead hover hr rfl)
    rcases frame_run cmd hstate hcounts hle with ⟨buf, index, -, -, hrun, hrep⟩
    have hreport : (p.run (frameBytes len cmd payload)).report = r := by
      rw [firstReport_append, firstReport, hrep] at hr
      simpa using hr
    rw [← hreport, hrun] at hlen
    have hsix : len.toNat = payload.length + 6 := by
      change (len - 6).toNat < 64 at hlen
      rcases hcounts with h | ⟨-, h⟩ <;> bv_omega
    obtain rfl : len = ofNat 8 (payload.length + 6) := by
      rw [← hsix, BitVec.ofNat_toNat, BitVec.setWidth_eq]
    have hhere := FirstFrame.here cmd more hle
    rwa [some.inj (hr.symm.trans (firstFrame_found hhere hstate))]

end Stream

section Buffer

def Found.report (data : Int → Byte) (f : Found) : Report where
  realcmd := f.realcmd
  realdatalength := f.realdatalength
  realdata := some ((range f.realdatalength.toNat).map fun i => data (f.pRealdata + (i : Nat)))
  state := .head

/-- A head whose length byte leads to a tail. -/
def Hit (data : Int → Byte) (i : Nat) : Prop :=
  data i = protoHead ∧ data (i + (data (i + 1)).toNat - 1) = protoTail

instance (data : Int → Byte) (i : Nat) : Decidable (Hit data i) :=
  inferInstanceAs (Decidable (_ ∧ _))

/-- What is left for such a head. -/
def foundAt (data : Int → Byte) (i : Nat) : Found :=
  ⟨data (i + 3), i + 4, data (i + 1) - 6⟩

/-- What is looked at for a head is in the buffer: the length byte, the byte it leads to, and the
    command if this is a tail. -/
def LooksInside (data : Int → Byte) (size i : Nat) : Prop :=
  data i = protoHead → i + 1 < size ∧ 0 < i + (data (i + 1)).toNat ∧
    i + (data (i + 1)).toNat ≤ size ∧ (Hit data i → i + 3 < size)

/-- So it is for every head up to the first that leads to a tail. -/
def Inside (data : Int → Byte) (size : Nat) : Prop :=
  ∀ i, i < size → (∀ k, k < i → ¬ Hit data k) → LooksInside data size i

/-- What is left for the first head that leads to a tail. -/
def BufferFrame (data : Int → Byte) (size : Nat) (r : Report) : Prop :=
  ∃ k < size, Hit data k ∧ (∀ m < k, ¬ Hit data m) ∧ (foundAt data k).report data = r

variable {data : Int → Byte} {bytes : List Byte} {r : Report}

/-- The first head that leads to a tail is found. -/
theorem analyze_found (size i : Nat) : (protoDataAnalyze data size i).1 =
    ((range' i size).find? fun k => Hit data k).map (foundAt data) := by
  induction size generalizing i with
  | zero => rfl
  | succ size ih =>
    have hnext := ih (i + 1)
    rw [Int.natCast_succ] at hnext
    rw [range'_succ, find?_cons]
    by_cases hhit : Hit data i
    · simp only [protoDataAnalyze, if_pos hhit.1, if_pos hhit.2, decide_eq_true hhit, map_some,
        foundAt]
    simp only [decide_eq_false hhit, ← hnext, protoDataAnalyze]
    by_cases hhead : data i = protoHead
    · rw [if_pos hhead, if_neg fun htail => hhit ⟨hhead, htail⟩]
    · rw [if_neg hhead]

theorem analyze_reads {size : Nat} (n i : Nat) (hsize : i + n = size) :
    (∀ j ∈ (protoDataAnalyze data n i).2, 0 ≤ j ∧ j < (size : Int)) ↔
      ∀ k, i ≤ k → k < size → (∀ m, i ≤ m → m < k → ¬ Hit data m) → LooksInside data size k := by
  induction n generalizing i with
  | zero => exact ⟨fun _ k hik hk => by omega, fun _ j hj => absurd hj not_mem_nil⟩
  | succ n ih =>
    have hnext := ih (i + 1) (by omega)
    rw [Int.natCast_succ] at hnext
    have hhere : (0 : Int) ≤ i ∧ (i : Int) < size := by omega
    have hsplit : (∀ k, i ≤ k → k < size → (∀ m, i ≤ m → m < k → ¬ Hit data m) →
        LooksInside data size k) ↔ LooksInside data size i ∧ (¬ Hit data i →
          ∀ k, i + 1 ≤ k → k < size → (∀ m, i + 1 ≤ m → m < k → ¬ Hit data m) →
            LooksInside data size k) := by
      refine ⟨fun h => ⟨h i (Nat.le_refl i) (by omega) fun m _ _ => by omega, fun hno k hk hks hm =>
        h k (by omega) hks fun m hm1 hm2 => ?_⟩, fun ⟨hi, h⟩ k hk hks hm => ?_⟩
      · rcases Nat.lt_or_eq_of_le hm1 with hlt | rfl
        · exact hm m hlt hm2
        · exact hno
      · rcases Nat.lt_or_eq_of_le hk with hlt | rfl
        · exact h (hm i (Nat.le_refl i) hlt) k hlt hks fun m hm1 => hm m (by omega)
        · exact hi
    rw [hsplit, ← hnext, protoDataAnalyze]
    by_cases hhead : data i = protoHead
    · rw [if_pos hhead]
      by_cases htail : data (i + (data (i + 1)).toNat - 1) = protoTail
      · have hhit : Hit data i := ⟨hhead, htail⟩
        rw [if_pos htail]
        refine ⟨fun h => ⟨fun _ => ?_, fun hno => absurd hhit hno⟩, fun h j hj => ?_⟩
        · simp only [forall_mem_cons] at h
          omega
        · rcases h.1 hhead with ⟨hlen, hlow, hhigh, hcmd⟩
          have hcmd := hcmd hhit
          simp only [mem_cons, not_mem_nil, or_false] at hj
          omega
      · have hhit : ¬ Hit data i := fun h => htail h.2
        simp only [if_neg htail, forall_mem_cons]
        refine ⟨fun h => ⟨fun _ => ⟨by omega, by omega, by omega, fun h' => absurd h' hhit⟩,
          fun _ => h.2.2.2⟩, fun h => ?_⟩
        rcases h.1 hhead with ⟨hlen, hlow, hhigh, -⟩
        exact ⟨hhere, by omega, by omega, h.2 hhit⟩
    · simp only [if_neg hhead, forall_mem_cons]
      exact ⟨fun h => ⟨fun hh => absurd hh hhead, fun _ => h.2⟩,
        fun h => ⟨hhere, h.2 fun hhit => hhead hhit.1⟩⟩

/-- The parser of a stream writes to its receive buffer and leaves a payload that is in it. -/
def StaysInside (bytes : List Byte) : Prop :=
  (parserInit.run bytes).overrun = false ∧
    ∀ r, firstReport parserInit bytes = some r → r.realdatalength.toNat < recvbufSize

/-- Both parsers stay inside their buffers, and they report the same first frame, or nothing. -/
structure Agree (data : Int → Byte) (bytes : List Byte) : Prop where
  stays : StaysInside bytes
  same : (protoDataAnalyze data bytes.length 0).1.map (Found.report data) =
    firstReport parserInit bytes
  reads : ∀ j ∈ (protoDataAnalyze data bytes.length 0).2, 0 ≤ j ∧ j < bytes.length

theorem firstReport_iff (hstays : StaysInside bytes) :
    firstReport parserInit bytes = some r ↔ FirstFrame bytes r :=
  ⟨fun h => firstFrame_of_report rfl hstays.1 h (hstays.2 r h), fun h => firstFrame_found h rfl⟩

theorem analyze_report {size : Nat} :
    (protoDataAnalyze data size 0).1.map (Found.report data) = some r ↔
      BufferFrame data size r := by
  have hfound : (protoDataAnalyze data size 0).1 = _ := analyze_found size 0
  rw [hfound, ← range_eq_range', Option.map_map]
  simp only [map_eq_some_iff, find?_range_eq_some, decide_eq_true_eq, mem_range, BufferFrame]
  grind

/-- The bytes in a buffer, with anything around it. -/
def memory (around : Int → Byte) (bytes : List Byte) (i : Int) : Byte :=
  if 0 ≤ i then bytes.getD i.toNat (around i) else around i

example : Agree (memory (fun _ => 0) [0x00, 0x5a, 0x07, 0x01, 0x06, 0x5a, 0xff, 0xa5])
    [0x00, 0x5a, 0x07, 0x01, 0x06, 0x5a, 0xff, 0xa5] :=
  ⟨⟨by decide, by rintro r ⟨⟩; decide⟩, by decide, by decide⟩

end Buffer

section Deal

variable {cmd : Byte} {data data' own : List Byte} {n : Nat} {vals result : List Byte}

/-- No command reads more than five data bytes. -/
theorem nextRead_index_lt {i : Nat} (h : nextRead cmd vals = some i) : i < 5 := by
  unfold nextRead at h
  split at h
  case h_5 => split at h <;> grind
  all_goals grind

theorem readsFrom_mono (hsub : ∀ (i : Nat) b, data[i]? = some b → data'[i]? = some b)
    (h : readsFrom cmd data n vals = some result) : readsFrom cmd data' n vals = some result := by
  induction n generalizing vals with
  | zero => exact h
  | succ n ih =>
    rw [readsFrom] at h ⊢
    cases hnext : nextRead cmd vals with
    | none => simpa only [hnext] using h
    | some i =>
      simp only [hnext, bind_eq_some_iff] at h
      rcases h with ⟨v, hv, h⟩
      simp only [hsub i v hv, bind_some]
      exact ih h

theorem readsFrom_total (hall : ∀ i, i < 5 → ∃ b, data[i]? = some b) :
    ∃ result, readsFrom cmd data n vals = some result ∧ vals <+: result := by
  induction n generalizing vals with
  | zero => exact ⟨vals, rfl, prefix_refl vals⟩
  | succ n ih =>
    rw [readsFrom]
    cases hnext : nextRead cmd vals with
    | none => exact ⟨vals, rfl, prefix_refl vals⟩
    | some i =>
      rcases hall i (nextRead_index_lt hnext) with ⟨v, hv⟩
      rcases @ih (vals ++ [v]) with ⟨result, hread, hpre⟩
      simp only [hv, bind_some]
      exact ⟨result, hread, (prefix_append vals [v]).trans hpre⟩

/-- Two buffers in which something else is behind the payload. A command that reads it does not
    read the same. -/
theorem readsFrom_differ (hsub : ∀ (i : Nat) b, own[i]? = some b → data[i]? = some b)
    (hsub' : ∀ (i : Nat) b, own[i]? = some b → data'[i]? = some b)
    (hne : ∀ i, i < 5 → own[i]? = none → ∃ a b, data[i]? = some a ∧ data'[i]? = some b ∧ a ≠ b)
    (h : readsFrom cmd own n vals = none) :
    readsFrom cmd data n vals ≠ readsFrom cmd data' n vals := by
  induction n generalizing vals with
  | zero => exact nomatch h
  | succ n ih =>
    rw [readsFrom] at h ⊢
    rw [readsFrom]
    cases hnext : nextRead cmd vals with
    | none =>
      rw [hnext] at h
      exact nomatch h
    | some i =>
      cases hown : own[i]? with
      | some v =>
        simp only [hnext, hown, bind_some] at h
        simp only [hsub i v hown, hsub' i v hown, bind_some]
        exact ih h
      | none =>
        -- this byte is the first that is missing, and the results have it at the same place
        rcases hne i (nextRead_index_lt hnext) hown with ⟨a, b, ha, hb, hab⟩
        have htotal : ∀ k, k < 5 → (∃ c, data[k]? = some c) ∧ ∃ c, data'[k]? = some c := by
          intro k hk
          cases hk' : own[k]? with
          | some c => exact ⟨⟨c, hsub k c hk'⟩, c, hsub' k c hk'⟩
          | none =>
            rcases hne k hk hk' with ⟨c, d, hc, hd, -⟩
            exact ⟨⟨c, hc⟩, d, hd⟩
        simp only [ha, hb, bind_some]
        intro heq
        rcases @readsFrom_total cmd _ n (vals ++ [a])
          fun k hk => (htotal k hk).1 with ⟨r, hr, hpre⟩
        rcases @readsFrom_total cmd _ n (vals ++ [b])
          fun k hk => (htotal k hk).2 with ⟨r', hr', hpre'⟩
        rw [hr, hr', some.injEq] at heq
        subst heq
        have hsame := prefix_of_prefix_length_le hpre hpre' (by simp)
        have hlast := hsame.eq_of_length (by simp)
        exact hab (by simpa using hlast)

/-- After a frame its command is executed on the bytes of the payload, and then on what the buffer
    had before. -/
theorem deal_frame {p : Parser} {len : Byte} {payload : List Byte} (readings : List Byte)
    (hp : p.state = .head ∧ p.overrun = false) (hlen : Counts len payload)
    (hle : payload.length ≤ 63) :
    ∃ data : List Byte, (∀ (i : Nat) b, payload[i]? = some b → data[i]? = some b) ∧
      (∀ i : Nat, payload.length ≤ i → i < 63 → data[i]? = some (p.byteRecvbuf (i + 1))) ∧
      protoSensorCmdDeal (p.run (frameBytes len cmd payload)) readings =
        (readsFrom cmd data 5 []).map fun vals =>
          (cmd, vals, sendFrame cmd (reply cmd vals readings)) := by
  rcases frame_run cmd hp.1 hlen hle with ⟨buf, index, hnew, hold, hrun, -⟩
  have hget : ∀ i : Nat, i < 63 →
      ((range 63).map fun i => buf (1 + i))[i]? = some (buf (i + 1)) := by
    intro i hi
    rw [getElem?_map, getElem?_range hi, map_some, Nat.add_comm]
  refine ⟨(range 63).map fun i => buf (1 + i), fun i b hb => ?_, fun i hi hi' => ?_, ?_⟩
  · have hi := (List.getElem?_eq_some_iff.mp hb).1
    rw [hget i (by omega)]
    exact congrArg some (hnew (i + 1) b hb)
  · rw [hget i hi', hold (i + 1) (by omega)]
  · simp only [protoSensorCmdDeal, hrun, hp.2, recvbufSize, Bool.false_eq_true, if_false,
      bind_eq_bind, bind_some, Option.pure_def]
    exact (Option.map_eq_bind ..).symm

/-- Bytes after which the parser waits for a frame, with nothing written past its buffer. -/
def Ready (bytes : List Byte) : Prop :=
  (parserInit.run bytes).state = .head ∧ (parserInit.run bytes).overrun = false

/-- A frame has the same effect after all histories just when its payload has the bytes that its
    command reads, and then it is executed on these bytes alone. -/
theorem deal_own_frame (readings : List Byte) (len cmd : Byte) (payload : List Byte)
    (hlen : Counts len payload) (hle : payload.length ≤ 63) :
    ((∀ before before', Ready before → Ready before' →
        protoSensorCmdDeal (parserInit.run (before ++ frameBytes len cmd payload)) readings =
          protoSensorCmdDeal (parserInit.run (before' ++ frameBytes len cmd payload)) readings) ↔
      (readsFrom cmd payload 5 []).isSome) ∧
    ∀ vals, readsFrom cmd payload 5 [] = some vals → ∀ before, Ready before →
      protoSensorCmdDeal (parserInit.run (before ++ frameBytes len cmd payload)) readings =
        some (cmd, vals, sendFrame cmd (reply cmd vals readings)) := by
  have hown : ∀ vals, readsFrom cmd payload 5 [] = some vals → ∀ before, Ready before →
      protoSensorCmdDeal (parserInit.run (before ++ frameBytes len cmd payload)) readings =
        some (cmd, vals, sendFrame cmd (reply cmd vals readings)) := by
    intro vals hvals before hready
    rcases @deal_frame cmd _ _ _ readings hready hlen hle with ⟨data, hsub, -, hdeal⟩
    rw [run_append, hdeal, readsFrom_mono hsub hvals, map_some]
  refine ⟨⟨fun hsame => ?_, fun hsome before before' hb hb' => ?_⟩, hown⟩
  · by_contra hnone
    rw [not_isSome_iff_eq_none] at hnone
    -- nothing has been received before, or a frame that fills the buffer with ones
    rcases @frame_run parserInit 69 0x10 (replicate 63 0x01) rfl
      (.inl rfl) (by decide) with ⟨buf, index, hnew, -, hrun, -⟩
    generalize frameBytes 69 0x10 (replicate 63 0x01) = fill at hrun
    have hready : Ready fill := by
      rw [Ready, hrun]
      exact ⟨rfl, rfl⟩
    rcases @deal_frame cmd parserInit _ _ readings ⟨rfl, rfl⟩ hlen hle with
      ⟨data, hsub, hrest, hdeal⟩
    rcases @deal_frame cmd _ _ _ readings hready hlen hle with ⟨data', hsub', hrest', hdeal'⟩
    have hdiffer := readsFrom_differ hsub hsub' (fun i hi hout => ?_) hnone
    · have heq := hsame [] fill ⟨rfl, rfl⟩ hready
      rw [nil_append, run_append, hdeal, hdeal'] at heq
      exact hdiffer (Option.map_injective (fun _ _ h => (Prod.mk.inj (Prod.mk.inj h).2).1) heq)
    · have hone : buf (i + 1) = 0x01 := hnew (i + 1) 0x01 (by
        rw [getElem?_cons_succ, getElem?_replicate, if_pos (by omega)])
      rw [getElem?_eq_none_iff] at hout
      refine ⟨0, 0x01, hrest i hout (by omega), ?_, by decide⟩
      rw [hrest' i hout (by omega), hrun]
      exact congrArg some hone
  · rcases isSome_iff_exists.mp hsome with ⟨vals, hvals⟩
    rw [hown vals hvals before hb, hown vals hvals before' hb']

/-- A motor command first, and after the colours of a lamp. -/
theorem deal_own_frame_motor :
    protoSensorCmdDeal (parserInit.run (frameBytes 7 0x05 [0x03])) [] =
      protoSensorCmdDeal (parserInit.run (frameBytes 9 0x01 [1, 1, 1] ++ frameBytes 7 0x05 [0x03]))
        [] :=
  (deal_own_frame [] 7 0x05 [0x03] (.inl rfl) (by decide)).1.mpr (by decide) [] _
    ⟨rfl, rfl⟩ ⟨by decide, by decide⟩

/-- A lamp command without colours takes those of the command before. -/
theorem deal_old_colours :
    protoSensorCmdDeal (parserInit.run (Segment.frame 0x01 []).bytes) [] =
        some (0x01, [0, 0, 0], sendFrame 0x01 [1]) ∧
      protoSensorCmdDeal (parserInit.run ((Segment.frame 0x01 [1, 0, 1]).bytes ++
          (Segment.frame 0x01 []).bytes)) [] =
        some (0x01, [1, 0, 1], sendFrame 0x01 [1]) := by
  decide

end Deal

section Sound

/-- A parser, the bytes since the last head it has accepted, and what it has returned last. -/
structure Feed where
  parser : Parser
  since : List Byte
  find : Bool

/-- The parser gets a byte. In its first state this byte is the head, or it is passed over. -/
def Feed.next (s : Feed) (data : Byte) : Option Feed :=
  some {
    parser := (protoDataAnalyzeByte s.parser data).1
    since := if s.parser.state = .head then [data] else s.since ++ [data]
    find := (protoDataAnalyzeByte s.parser data).2 }

/-- Nothing has been written past the end of the buffer, and what is found is a frame, whose
    length byte counts its bytes and whose payload is as long as the parser says. -/
def Feed.Sound (s : Feed) : Prop :=
  s.parser.overrun = false ∧ (s.find = true → ∃ len cmd payload,
    s.since = [protoHead, len, 0x01] ++ (cmd :: payload) ++ [0xff, protoTail] ∧
      len.toNat = s.since.length ∧ s.parser.realdatalength.toNat = payload.length)

/-- A length byte that goes with the right type counts the bytes of a frame that fits. -/
def Feed.LengthFits (s : Feed) (data : Byte) : Prop :=
  s.parser.state = .type → data = 0x01 →
    5 < s.parser.byteLength.toNat ∧ s.parser.byteLength.toNat ≤ 69

instance (s : Feed) (data : Byte) : Decidable (s.LengthFits data) :=
  inferInstanceAs (Decidable (_ → _ → _))

/-- What the state of the parser says about the bytes since the head. -/
def Parser.Saw (p : Parser) (since : List Byte) : Prop :=
  match p.state with
  | .head => True
  | .length => since = [protoHead] ∧ p.byteRecvbufIndex = 0
  | .type => since = [protoHead, p.byteLength] ∧ p.byteRecvbufIndex = 0
  | .body => ∃ body, since = [protoHead, p.byteLength, 0x01] ++ body ∧
      p.byteRecvbufIndex.toNat = body.length ∧ body.length + 5 < p.byteLength.toNat ∧
      p.byteLength.toNat ≤ 69
  | .check => ∃ cmd payload, since = [protoHead, p.byteLength, 0x01] ++ (cmd :: payload) ∧
      payload.length + 6 = p.byteLength.toNat
  | .tail => ∃ cmd payload, since = [protoHead, p.byteLength, 0x01] ++ (cmd :: payload) ++ [0xff] ∧
      payload.length + 6 = p.byteLength.toNat

theorem body_next {p : Parser} {since : List Byte} (data : Byte) (hstate : p.state = .body)
    (hover : p.overrun = false) (hsaw : p.Saw since) :
    (protoDataAnalyzeByte p data).1.overrun = false ∧ (protoDataAnalyzeByte p data).2 = false ∧
      (protoDataAnalyzeByte p data).1.Saw (since ++ [data]) := by
  simp only [Parser.Saw, hstate] at hsaw
  rcases hsaw with ⟨body, rfl, hindex, hshort, hfits⟩
  rcases store_eq data (show p.byteRecvbufIndex.toNat < 64 by omega) with ⟨hstore, hnext⟩
  simp only [protoDataAnalyzeByte, hstate, hstore, hnext, hindex]
  split
  · -- This was the last byte, and the body is a command and a payload.
    rcases body with _ | ⟨cmd, payload⟩
    · exact ⟨hover, rfl, data, [], rfl, by simp_all; omega⟩
    · exact ⟨hover, rfl, cmd, payload ++ [data], by simp, by simp_all; omega⟩
  · refine ⟨hover, rfl, ?_⟩
    exact ⟨body ++ [data], append_assoc _ _ _, by simp_all, by simp; omega, hfits⟩

theorem feed_inv {s s' : Feed} {data : Byte} (hinv : s.Sound ∧ s.parser.Saw s.since)
    (hlen : s.LengthFits data) (h : s.next data = some s') :
    s'.Sound ∧ s'.parser.Saw s'.since := by
  rcases s with ⟨p, since, find⟩
  rcases hinv with ⟨⟨hover, -⟩, hsaw⟩
  rw [← some.inj h]
  simp only [Feed.Sound]
  cases hstate : p.state with
  | body =>
    rcases body_next data hstate hover hsaw with ⟨hover', hfind, hsaw'⟩
    simp only [hfind, reduceCtorEq, if_false]
    exact ⟨⟨hover', nofun⟩, hsaw'⟩
  | check =>
    simp only [Parser.Saw, hstate] at hsaw
    rcases hsaw with ⟨cmd, payload, rfl, hcount⟩
    simp only [protoDataAnalyzeByte, hstate]
    split
    · rename_i hdata
      exact ⟨⟨hover, nofun⟩, cmd, payload, by rw [hdata]; rfl, hcount⟩
    · exact ⟨⟨hover, nofun⟩, trivial⟩
  | tail =>
    simp only [Parser.Saw, hstate] at hsaw
    rcases hsaw with ⟨cmd, payload, rfl, hcount⟩
    have hsub : (p.byteLength - 6).toNat = payload.length := by
      rw [BitVec.toNat_sub_of_le (by change 6 ≤ p.byteLength.toNat; omega)]
      exact Nat.sub_eq_of_eq_add hcount.symm
    simp only [protoDataAnalyzeByte, hstate]
    split
    · rename_i hdata
      refine ⟨⟨hover, fun _ => ⟨p.byteLength, cmd, payload, ?_, ?_, hsub⟩⟩, trivial⟩
      · simp [hdata]
      · simp [← hcount]
    · exact ⟨⟨hover, nofun⟩, trivial⟩
  | _ =>
    simp only [protoDataAnalyzeByte, hstate]
    split <;> simp_all [Parser.Saw, Feed.LengthFits]

/-- On any bytes whose lengths fit, the parser stays inside its buffer, and it finds nothing but
    frames. -/
theorem parser_sound (bytes : List Byte)
    (hlen : Run.Along Feed.next Feed.LengthFits ⟨parserInit, [], false⟩ bytes) :
    Run.Always Feed.next Feed.Sound ⟨parserInit, [], false⟩ bytes :=
  Run.always_of_inv _ And.left feed_inv ⟨⟨rfl, nofun⟩, trivial⟩ hlen

/-- A false head, a frame that is broken off, and a frame. -/
theorem parser_sound_mixed : Run.Always Feed.next Feed.Sound ⟨parserInit, [], false⟩
    [0x5a, 0x00, 0x02, 0x5a, 0x07, 0x01, 0x04, 0x09, 0xa5, 0x5a, 0x07, 0x01, 0x04, 0x09, 0xff,
      0xa5] :=
  parser_sound _ (by decide)

/-- A length byte of 0 is taken for a frame of six bytes with 250 bytes of payload. -/
theorem short_length_found : ∃ s,
    Run.exec Feed.next ⟨parserInit, [], false⟩ [0x5a, 0x00, 0x01, 0x07, 0xff, 0xa5] = some s ∧
      s.find = true ∧ s.parser.realdatalength = 250 ∧ ¬ s.Sound := by
  refine ⟨_, rfl, rfl, rfl, fun h => ?_⟩
  rcases h.2 rfl with ⟨len, cmd, payload, hsince, hlen, -⟩
  injection hsince with _ htail
  injection htail with hzero
  rw [← hzero] at hlen
  exact absurd hlen (by decide)

end Sound

end Honeycomb.Proto
