import Mathlib.Algebra.GroupWithZero.Nat
import Mathlib.Logic.Function.Basic

/-!
# The Box Protocol

The box takes commands from a serial line. The receive callback runs in the interrupt and
hands the bytes to a parser one by one. A frame is

  `0x5a  length  0x01  command  data ...  0xff  0xa5`

and the parser keeps the bytes from the command on in a buffer of 64 bytes. When a frame is
complete it leaves the command and a pointer into this buffer in two static variables, and
the callback releases a semaphore. A thread takes the semaphore, reads the two variables,
and executes the command, reading the data through the pointer.

The interrupt may come between any two reads of the thread, so the thread goes from one read
to the next. Which data bytes a command reads and in which order, `nextRead` says. What the
devices do with these bytes is not modelled, and what the sensors return is an input.

A write past the end of the receive buffer has no defined effect. It is noted in a flag, and
nothing is said about what happens afterwards.
-/

namespace Honeycomb.Proto

abbrev Byte := BitVec 8

def protoHead : Byte := 0x5a
def protoTail : Byte := 0xa5

def recvbufSize : Nat := 64

/-- `PROTO_BUFFER_SIZE`, the most bytes the callback reads at once. -/
def protoBufferSize : Nat := 120

/-- The states 0 to 5 of the parser, by what they wait for. -/
inductive ParseState where
  | head | length | type | body | check | tail
  deriving DecidableEq, Repr

/-- The static variables of the parser. The pointer is an index into the receive buffer. -/
structure Parser where
  state : ParseState
  byteLength : Byte
  byteRecvbuf : Nat → Byte
  byteRecvbufIndex : Byte
  realcmd : Byte
  pRealdata : Option Nat
  realdatalength : Byte
  overrun : Bool

/-- All static variables are zero. -/
def parserInit : Parser :=
  { state := .head, byteLength := 0, byteRecvbuf := fun _ => 0, byteRecvbufIndex := 0,
    realcmd := 0, pRealdata := none, realdatalength := 0, overrun := false }

/-- Store a byte in the receive buffer. The code does not look at its size. -/
def Parser.store (p : Parser) (data : Byte) : Parser :=
  if p.byteRecvbufIndex.toNat < recvbufSize then
    { p with
      byteRecvbuf := Function.update p.byteRecvbuf p.byteRecvbufIndex.toNat data
      byteRecvbufIndex := p.byteRecvbufIndex + 1 }
  else
    { p with overrun := true, byteRecvbufIndex := p.byteRecvbufIndex + 1 }

/-- The parser gets the next byte, and says whether it completes a frame. The subtraction in
    state 3 is one of integers, which may be negative. -/
def protoDataAnalyzeByte (p : Parser) (data : Byte) : Parser × Bool :=
  match p.state with
  | .head =>
    if data = protoHead then
      ({ p with byteLength := 0, byteRecvbufIndex := 0, state := .length }, false)
    else
      ({ p with state := .head }, false)
  | .length => ({ p with byteLength := data, state := .type }, false)
  | .type =>
    if data = 0x01 then
      ({ p with state := .body }, false)
    else
      ({ p with state := .head }, false)
  | .body =>
    let p := p.store data
    if (p.byteLength.toNat : Int) - 5 ≤ p.byteRecvbufIndex.toNat then
      ({ p with state := .check }, false)
    else
      (p, false)
  | .check =>
    if data = 0xff then
      ({ p with state := .tail }, false)
    else
      ({ p with state := .head }, false)
  | .tail =>
    if data = protoTail then
      ({ p with
        realcmd := p.byteRecvbuf 0
        pRealdata := some 1
        realdatalength := p.byteLength - 6
        state := .head }, true)
    else
      ({ p with state := .head }, false)

/-- What the parser of a whole buffer leaves, with the index its pointer leads to. -/
structure Found where
  realcmd : Byte
  pRealdata : Int
  realdatalength : Byte

/-- The parser of a whole buffer, from an index on and with the number of bytes that are left,
    and the indices it reads. The buffer is part of the memory, and so is what is around it. -/
def protoDataAnalyze (data : Int → Byte) : Nat → Int → Option Found × List Int
  | 0, _ => (none, [])
  | size + 1, i =>
    if data i = protoHead then
      let length := data (i + 1)
      let last := i + length.toNat - 1
      if data last = protoTail then
        (some ⟨data (i + 3), i + 4, length - 6⟩, [i, i + 1, last, i + 3])
      else
        let (found, reads) := protoDataAnalyze data size (i + 1)
        (found, i :: (i + 1) :: last :: reads)
    else
      let (found, reads) := protoDataAnalyze data size (i + 1)
      (found, i :: reads)

/-- The commands, numbered from 1. -/
inductive Cmd where
  | rgbLed | passiveBuzzer | qxkg | smg | motor | dzp | yg | tftlcd | soundSensor | pir
  | dht11 | ds18b20 | light | jjcgq | rotaryEncoders | gdkg | dzp1 | key5 | dial
  | trafficLight | guiClear
  deriving DecidableEq, Repr

def cmdOf (cmd : Byte) : Option Cmd :=
  [none, some .rgbLed, some .passiveBuzzer, some .qxkg, some .smg, some .motor, some .dzp,
    some .yg, some .tftlcd, some .soundSensor, some .pir, some .dht11, some .ds18b20,
    some .light, some .jjcgq, some .rotaryEncoders, some .gdkg, some .dzp1, some .key5,
    some .dial, some .trafficLight, some .guiClear].getD cmd.toNat none

/-- The next data byte that is read for a command, after some have been read. Colours and dot
    matrices are read in order, a single value is read again wherever the code names it. -/
def nextRead (cmd : Byte) (vals : List Byte) : Option Nat :=
  match cmdOf cmd with
  | some .rgbLed | some .trafficLight => if vals.length < 3 then some vals.length else none
  | some .dzp | some .dzp1 => if vals.length < 5 then some vals.length else none
  | some .smg => if vals.length < 1 then some 0 else none
  | some .motor | some .dial => if vals.length < 2 then some 0 else none
  | some .passiveBuzzer =>
    match vals with
    | [] | [_] => some 0
    | [_, frequency] => if frequency ≠ 0 then some 0 else none
    | _ => none
  | _ => none

/-- The bytes of the answer, from the data bytes that were read and from the sensors. -/
def reply (cmd : Byte) (vals readings : List Byte) : List Byte :=
  match cmdOf cmd with
  | some .rgbLed => [1]
  | some .passiveBuzzer | some .motor | some .dial => vals.take 1
  | some .smg | some .dzp | some .dzp1 | some .tftlcd | some .trafficLight
  | some .guiClear => [0]
  | some .qxkg | some .pir | some .light | some .jjcgq | some .rotaryEncoders
  | some .gdkg => [readings.getD 0 0]
  | some .soundSensor | some .dht11 | some .ds18b20 => [readings.getD 0 0, readings.getD 1 0]
  | some .yg => [readings.getD 0 0, readings.getD 1 0, readings.getD 2 0]
  | some .key5 => (List.range 5).map (readings.getD · 0)
  | none => []

/-- The frame that `_send` puts on the line. -/
def sendFrame (cmd : Byte) (data : List Byte) : List Byte :=
  [protoHead, BitVec.ofNat 8 (data.length + 6), 0x81, cmd] ++ data ++ [0xff, protoTail]

/-- The data bytes that are read for a command, up to `n` more of them after `vals`. Nothing is
    read if one of them is not there. -/
def readsFrom (cmd : Byte) (data : List Byte) : Nat → List Byte → Option (List Byte)
  | 0, vals => some vals
  | n + 1, vals =>
    match nextRead cmd vals with
    | none => some vals
    | some i => (data[i]?).bind fun v => readsFrom cmd data n (vals ++ [v])

/-- Execute the command that was found last, if nothing was written past the buffer. The data
    bytes are taken from the buffer, wherever the frame ends. What is returned is the command,
    the bytes that are handed to the devices, and the frame that is sent. -/
def protoSensorCmdDeal (p : Parser) (readings : List Byte) :
    Option (Byte × List Byte × List Byte) :=
  if p.overrun then none
  else do
    let a ← p.pRealdata
    let data := (List.range (recvbufSize - a)).map fun i => p.byteRecvbuf (a + i)
    let vals ← readsFrom p.realcmd data 5 []
    return (p.realcmd, vals, sendFrame p.realcmd (reply p.realcmd vals readings))

/-- Where the thread is: before it takes the semaphore, waiting for it, before it reads the
    command, before it reads the pointer, and between two reads of data bytes. -/
inductive Pc where
  | take
  | waiting
  | loadCmd
  | loadData (cmd : Byte)
  | handle (cmd : Byte) (data : Option Nat) (vals : List Byte)
  deriving DecidableEq, Repr

/-- The system. `rx` are the bytes that have been received and not been read yet, `value` is
    that of the semaphore, and `sent` is what went out on the line. The books keep the bytes of
    the frame that is being received from the command on, the frames that were found, and what
    the thread has executed. -/
structure Sys where
  parser : Parser
  rx : List Byte
  value : BitVec 16
  pc : Pc
  sent : List (List Byte)
  body : List Byte
  found : List (List Byte)
  acted : List (Byte × List Byte)

def sysInit : Sys :=
  { parser := parserInit, rx := [], value := 0, pc := .take, sent := [], body := [], found := [],
    acted := [] }

variable (s : Sys)

/-- Release the semaphore. A thread that waits gets it at once. -/
def rtSemRelease : Sys :=
  if s.pc = .waiting then { s with pc := .loadCmd } else { s with value := s.value + 1 }

/-- Keep the bytes of the frame that is being received. -/
def Sys.noteByte (data : Byte) : List Byte :=
  match s.parser.state with
  | .head => []
  | .body => s.body ++ [data]
  | _ => s.body

def rxByte (data : Byte) : Sys :=
  let (parser, find) := protoDataAnalyzeByte s.parser data
  let s := { s with parser := parser, body := s.noteByte data }
  if find then
    rtSemRelease { s with found := s.found ++ [s.body] }
  else s

/-- The receive callback. What it does not read stays for the next call. -/
def protoRxInd (chunk : List Byte) : Sys :=
  let rx := s.rx ++ chunk
  (rx.take protoBufferSize).foldl rxByte { s with rx := rx.drop protoBufferSize }

/-- The next step of the thread, with what the sensors return if it asks them. A thread that
    waits takes none. -/
def uartThread (readings : List Byte) : Option Sys :=
  match s.pc with
  | .take =>
    if 0 < s.value then
      some { s with value := s.value - 1, pc := .loadCmd }
    else
      some { s with pc := .waiting }
  | .waiting => none
  | .loadCmd => some { s with pc := .loadData s.parser.realcmd }
  | .loadData cmd => some { s with pc := .handle cmd s.parser.pRealdata [] }
  | .handle cmd data vals =>
    match nextRead cmd vals with
    | some i => do
      let p ← data
      return { s with pc := .handle cmd data (vals ++ [s.parser.byteRecvbuf (p + i)]) }
    | none =>
      return { s with
        pc := .take
        sent := s.sent ++ [sendFrame cmd (reply cmd vals readings)]
        acted := s.acted ++ [(cmd, vals)] }

inductive Action where
  | rx (chunk : List Byte)
  | thread (readings : List Byte)
  deriving DecidableEq, Repr

def protoStep : Action → Option Sys
  | .rx chunk => some (protoRxInd s chunk)
  | .thread readings => uartThread s readings

end Honeycomb.Proto
