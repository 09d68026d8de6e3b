import Honeycomb.Core.Kernel

/-!
# Opening and Closing a Serial Device

A device can be opened by several users, each with flags of its own. The first open that asks for
a way of receiving gets a structure for it allocated, and so does the first that asks for a way of
sending; later opens use what is there. The last close frees what the flags of the device say is
there.

Every open writes the flags anew. They record the modes the last open has asked for, while the
structures are those of the first. Whether the two agree depends on all opens since the device was
last closed.

The heap is given by what each pointer has been allocated for, so that memory which nobody points
to any more can be seen. The structure of a receive mode keeps for which mode it was allocated; the
source does not keep this. The calls to the low-level driver are left out, apart from the result of
its configuration. An allocation whose failure runs into an assertion succeeds.
-/

namespace Honeycomb

def flagStandalone : BitVec 16 := 0x008#16

def flagActivated : BitVec 16 := 0x010#16

def flagStream : BitVec 16 := 0x040#16

def flagIntRx : BitVec 16 := 0x100#16

def flagDmaRx : BitVec 16 := 0x200#16

def flagIntTx : BitVec 16 := 0x400#16

def flagDmaTx : BitVec 16 := 0x800#16

/-- The open flag of an open device, and of a closed one. -/
def oflagOpen : BitVec 16 := 0x008#16

def oflagClose : BitVec 16 := 0x000#16

/-- Flags are tested with a mask. -/
def testFlag (x flag : BitVec 16) : Bool :=
  x &&& flag != 0#16

/-- The two ways of receiving for which something is allocated. -/
inductive RxMode where
  | int | dma
  deriving DecidableEq, Repr

/-- What a device allocates. The structure for sending by DMA has a data queue, and the array of
    that queue is allocated on its own, unless there is no memory for it. -/
inductive SerialObj where
  | rxFifo (mode : RxMode)
  | rxDma
  | txFifo
  | txDma (queue : Option Nat)
  | queue
  deriving DecidableEq, Repr

/-- The mode a structure for receiving was allocated for. -/
def SerialObj.rxMode : SerialObj → Option RxMode
  | .rxFifo mode => some mode
  | .rxDma => some .dma
  | _ => none

/-- `struct rt_serial_device`, as far as opening and closing use it. -/
structure SerialDevice where
  flag : BitVec 16
  openFlag : BitVec 16
  refCount : Nat
  bufsz : Nat
  serialRx : Option Nat
  serialTx : Option Nat
  deriving DecidableEq, Repr

/-- The device, the heap, the next pointer the heap gives, and the flags of the opens since the
    device was last closed. -/
structure SerialSys where
  dev : SerialDevice
  heap : Nat → Option SerialObj
  fresh : Nat
  opens : List (BitVec 16)

variable (s : SerialSys)

/-- Allocate. The pointer is `fresh`. -/
def SerialSys.rtMalloc (obj : SerialObj) : SerialSys :=
  { s with heap := Function.update s.heap s.fresh (some obj), fresh := s.fresh + 1 }

def SerialSys.rtFree (p : Nat) : SerialSys :=
  { s with heap := Function.update s.heap p none }

def rtSerialInit : SerialSys :=
  { s with dev := { s.dev with serialRx := none, serialTx := none } }

/-- The part of `rt_serial_open` that is about receiving. -/
def serialOpenRx (oflag : BitVec 16) : SerialSys :=
  let dev := s.dev
  match dev.serialRx with
  | none =>
    if testFlag oflag flagDmaRx then
      let p := s.fresh
      { s.rtMalloc (if dev.bufsz = 0 then .rxDma else .rxFifo .dma) with
        dev := { dev with serialRx := some p, openFlag := dev.openFlag ||| flagDmaRx } }
    else if testFlag oflag flagIntRx then
      let p := s.fresh
      { s.rtMalloc (.rxFifo .int) with
        dev := { dev with serialRx := some p, openFlag := dev.openFlag ||| flagIntRx } }
    else s
  | some _ =>
    if testFlag oflag flagDmaRx then
      { s with dev := { dev with openFlag := dev.openFlag ||| flagDmaRx } }
    else if testFlag oflag flagIntRx then
      { s with dev := { dev with openFlag := dev.openFlag ||| flagIntRx } }
    else s

/-- The part of `rt_serial_open` that is about sending. `queueMem` says whether there is memory
    for the array of the data queue; its absence is not noticed. -/
def serialOpenTx (oflag : BitVec 16) (queueMem : Bool) : SerialSys :=
  let dev := s.dev
  match dev.serialTx with
  | none =>
    if testFlag oflag flagDmaTx then
      let p := s.fresh
      let s :=
        if queueMem then (s.rtMalloc (.txDma (some (p + 1)))).rtMalloc .queue
        else s.rtMalloc (.txDma none)
      { s with dev := { dev with serialTx := some p, openFlag := dev.openFlag ||| flagDmaTx } }
    else if testFlag oflag flagIntTx then
      let p := s.fresh
      { s.rtMalloc .txFifo with
        dev := { dev with serialTx := some p, openFlag := dev.openFlag ||| flagIntTx } }
    else s
  | some _ =>
    if testFlag oflag flagDmaTx then
      { s with dev := { dev with openFlag := dev.openFlag ||| flagDmaTx } }
    else if testFlag oflag flagIntTx then
      { s with dev := { dev with openFlag := dev.openFlag ||| flagIntTx } }
    else s

/-- A mode is asked for that the device does not have. -/
def missesFlag (oflag flag : BitVec 16) : Bool :=
  testFlag oflag flag && !testFlag s.dev.flag flag

def rtSerialOpen (oflag : BitVec 16) (queueMem : Bool) : SerialSys × RtErr :=
  if missesFlag s oflag flagDmaRx then (s, .eio)
  else if missesFlag s oflag flagDmaTx then (s, .eio)
  else if missesFlag s oflag flagIntRx then (s, .eio)
  else if missesFlag s oflag flagIntTx then (s, .eio)
  else
    -- the stream flag is kept, everything else is written anew
    let streamFlag :=
      if testFlag oflag flagStream || testFlag s.dev.openFlag flagStream then flagStream else 0#16
    let s := { s with dev := { s.dev with openFlag := oflag &&& 0xff#16 } }
    let s := serialOpenTx (serialOpenRx s oflag) oflag queueMem
    ({ s with dev := { s.dev with openFlag := s.dev.openFlag ||| streamFlag } }, .eok)

/-- The part of `rt_serial_close` that is about receiving. -/
def serialCloseRx : Option SerialSys :=
  let dev := s.dev
  if testFlag dev.openFlag flagIntRx then
    dev.serialRx.map fun p =>
      { s.rtFree p with dev := { dev with serialRx := none
                                          openFlag := dev.openFlag &&& ~~~flagIntRx } }
  else if testFlag dev.openFlag flagDmaRx then
    -- with a buffer or without, what is freed is the structure
    dev.serialRx.map fun p =>
      { s.rtFree p with dev := { dev with serialRx := none
                                          openFlag := dev.openFlag &&& ~~~flagDmaRx } }
  else some s

/-- The part of `rt_serial_close` that is about sending. -/
def serialCloseTx : Option SerialSys :=
  let dev := s.dev
  if testFlag dev.openFlag flagIntTx then
    dev.serialTx.map fun p =>
      { s.rtFree p with dev := { dev with serialTx := none
                                          openFlag := dev.openFlag &&& ~~~flagIntTx } }
  else if testFlag dev.openFlag flagDmaTx then
    dev.serialTx.map fun p =>
      { s.rtFree p with dev := { dev with serialTx := none
                                          openFlag := dev.openFlag &&& ~~~flagDmaTx } }
  else some s

/-- `rt_serial_close`. The assertions are on the pointers. -/
def rtSerialClose : Option SerialSys :=
  if 1 < s.dev.refCount then some s else (serialCloseRx s).bind serialCloseTx

/-- `rt_device_open` once the device is initialised. -/
def deviceOpenActivated (oflag : BitVec 16) (queueMem : Bool) :
    Option (SerialSys × RtErr) :=
  if testFlag s.dev.flag flagStandalone && testFlag s.dev.openFlag oflagOpen then
    some (s, .ebusy)
  else
    match rtSerialOpen s oflag queueMem with
    | (s, .eok) => do
      let refCount := (s.dev.refCount + 1) % 2 ^ 8
      rtAssert (refCount ≠ 0)
      let dev := { s.dev with openFlag := s.dev.openFlag ||| oflagOpen, refCount := refCount }
      some ({ s with dev := dev, opens := s.opens ++ [oflag] }, .eok)
    | (s, result) => some (s, result)

/-- `rt_device_open`. `configured` is the result of the driver's configuration, which only the
    first open runs. -/
def rtDeviceOpen (oflag : BitVec 16) (configured queueMem : Bool) :
    Option (SerialSys × RtErr) :=
  if testFlag s.dev.flag flagActivated then deviceOpenActivated s oflag queueMem
  else
    let s := rtSerialInit s
    if configured then
      deviceOpenActivated { s with dev := { s.dev with flag := s.dev.flag ||| flagActivated } }
        oflag queueMem
    else some (s, .error)

def rtDeviceClose : Option (SerialSys × RtErr) :=
  if s.dev.refCount = 0 then some (s, .error)
  else
    let s := { s with dev := { s.dev with refCount := s.dev.refCount - 1 } }
    if s.dev.refCount ≠ 0 then some (s, .eok)
    else do
      let s ← rtSerialClose s
      some ({ s with dev := { s.dev with openFlag := oflagClose }, opens := [] }, .eok)

inductive SerialAction where
  | openDev (oflag : BitVec 16) (configured queueMem : Bool)
  | closeDev
  deriving DecidableEq, Repr

def serialStep : SerialAction → Option SerialSys
  | .openDev oflag configured queueMem => (rtDeviceOpen s oflag configured queueMem).map Prod.fst
  | .closeDev => (rtDeviceClose s).map Prod.fst

def serialRegistered (flag : BitVec 16) (bufsz : Nat) : SerialSys :=
  { dev := { flag := flag, openFlag := oflagClose, refCount := 0, bufsz := bufsz,
             serialRx := none, serialTx := none }
    heap := fun _ => none
    fresh := 0
    opens := [] }

end Honeycomb
