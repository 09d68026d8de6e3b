import Honeycomb.Core.Kernel
import Mathlib.Data.List.FinRange

/-!
# The Channel Table of the Bus

The bus has a number of channels with a status each. Channel 0 is there from the start and carries
the commands with which the two sides open and close the others. A thread that wants a channel
takes a session and waits for it to be completed: a server listens for an `ENABLE` with its name,
picks a channel and offers it with `SET`; a client sends the `ENABLE` and waits for the `SET`. The
thread of the bus handles the packets of the remote side, whatever they are.

The callers have priorities below that of the thread of the bus. What this does up to a post on
channel 0, in which it waits, is one step, and what it does after it is the next. A caller may be
interrupted anywhere: every access it makes outside a critical section is a step of its own. Whether
memory can be allocated and whether a post succeeds is left open. An index that is used on the table
of the channels may be any number, so the table is one over all numbers, with whatever the memory
around the array has.

The history has the indices that were used on the table. A request has a tag, which its session
keeps; a session has a channel of its own from the time when it is given one for its request until
it gives it up; and a channel has the tag of the connection that was established on it, until the
local side closes the channel.
-/

namespace Honeycomb

open Function

def vbusChannelNr : Nat := 32

/-- The number of a session. There are half as many as there are channels. -/
abbrev SessId := Fin 16

inductive ChnStatus where
  | available
  | closed
  | establishing
  | established
  | suspend
  | closing
  deriving DecidableEq, Repr

/-- `_chn_connected`, of the status that was read. -/
def chnConnected (st : ChnStatus) : Bool :=
  st == .established || st == .suspend

inductive SessionSt where
  | available
  | listening
  | establishing
  deriving DecidableEq, Repr

inductive Chn0Cmd where
  | enable
  | disable
  | set
  | ack
  | nak
  | suspend
  | resume
  deriving DecidableEq, Repr

/-- The command that a byte stands for. -/
def chn0Cmd (b : BitVec 8) : Option Chn0Cmd :=
  match b.toNat with
  | 0 => some .enable
  | 1 => some .disable
  | 2 => some .set
  | 3 => some .ack
  | 4 => some .nak
  | 5 => some .suspend
  | 6 => some .resume
  | _ => none

/-- `struct rt_vbus_request`, without the water marks. -/
structure VbusRequest where
  name : List (BitVec 8)
  isServer : Bool
  deriving DecidableEq, Repr

structure Completion where
  flag : Bool
  suspended : List Nat
  deriving DecidableEq, Repr

/-- `struct rt_vbus_conn_session`, with whether it has a channel of its own and with the tag of its
    request. -/
structure ConnSession where
  chnr : Int
  st : SessionSt
  cmp : Completion
  req : Option VbusRequest
  own : Bool
  tag : Nat
  deriving DecidableEq, Repr

/-- Where the thread of the bus is: waiting for a packet, or in a post on channel 0, after which
    there is nothing to do, or a session to be put on the channel offered, or one to be completed
    with the channel acknowledged. -/
inductive BusIn where
  | idle
  | replying
  | enabling (i : SessId) (chnr : Nat)
  | setting (i : SessId) (chnr : Nat) (tag : Nat)
  deriving DecidableEq, Repr

/-- Where a caller is. In a request: in the post of the `ENABLE`, about to wait, suspended, resumed
    by the completion or by its timer, after the wait, about to read the channel that it is to
    reset, about to reset the one it has read, about to give its session up, and about to clear the
    request of the session. In a close: about to make the channel available, about to shut it, and
    in the post of the `DISABLE`. -/
inductive VbusCaller where
  | idle
  | posting (i : SessId) (timeout : Int)
  | waiting (i : SessId) (timeout : Int)
  | suspended (i : SessId) (timeout : Int)
  | resumed (i : SessId) (ok : Bool)
  | waited (i : SessId) (ok : Bool)
  | resetting (i : SessId)
  | storing (i : SessId) (chnr : Int)
  | leaving (i : SessId)
  | unlinking (i : SessId)
  | freeing (chnr : Nat)
  | shutting (chnr : Nat)
  | disabling (chnr : Nat)
  deriving DecidableEq, Repr

/-- The table, the sessions, the threads and the history. -/
structure VbusChn where
  chnStatus : Int → ChnStatus
  sess : SessId → ConnSession
  busIn : BusIn
  caller : Nat → VbusCaller
  requests : Nat
  conn : Int → Option Nat
  indices : List Int

variable (s : VbusChn)

/-- The table is read at the index. -/
def useChn (c : Int) : VbusChn :=
  { s with indices := s.indices ++ [c] }

/-- The table is written at the index. -/
def setChn (c : Int) (st : ChnStatus) : VbusChn :=
  { s with chnStatus := update s.chnStatus c st, indices := s.indices ++ [c] }

def setSess (i : SessId) (ss : ConnSession) : VbusChn :=
  { s with sess := update s.sess i ss }

def setCaller (t : Nat) (c : VbusCaller) : VbusChn :=
  { s with caller := update s.caller t c }

/-- `rt_completion_done` on the completion of a session. -/
def completionDone (i : SessId) : VbusChn :=
  let ss := s.sess i
  if ss.cmp.flag then s
  else
    match ss.cmp.suspended with
    | [] => setSess s i { ss with cmp := ⟨true, []⟩ }
    | t :: suspended =>
      setCaller (setSess s i { ss with cmp := ⟨true, suspended⟩ }) t (.resumed i true)

/-- `_sess_find`, over the sessions that are left. The result is `none` if a session is reached
    that has no request. -/
def sessFindIn (sess : SessId → ConnSession) (name : List (BitVec 8)) (st : SessionSt) :
    List SessId → Option (Option SessId)
  | [] => some none
  | i :: rest =>
    if (sess i).st = st then
      match (sess i).req with
      | some req => if req.name = name then some (some i) else sessFindIn sess name st rest
      | none => none
    else sessFindIn sess name st rest

def sessFind (name : List (BitVec 8)) (st : SessionSt) : Option (Option SessId) :=
  sessFindIn s.sess name st (List.finRange 16)

/-- The string that starts at the offset. -/
def cstr (dp : List (BitVec 8)) (k : Nat) : List (BitVec 8) :=
  (dp.drop k).takeWhile (· != 0)

def byteAt (dp : List (BitVec 8)) (k : Nat) : BitVec 8 :=
  dp.getD k 0

/-- A post on channel 0 is begun, after which the thread of the bus is at `next`. -/
def chn0Post (next : BusIn) : VbusChn :=
  { useChn s 0 with busIn := next }

/-- `_chn0_echo_with`. Without memory there is no post. -/
def chn0Echo (mem : Bool) : VbusChn :=
  if mem then chn0Post s .replying else s

/-- The first channel that is available. -/
def chnFind (chnStatus : Int → ChnStatus) : Option Nat :=
  (List.range vbusChannelNr).find? fun c => chnStatus c == .available

/-- The table is read from its start, `n` channels of it. -/
def useChns (n : Nat) : VbusChn :=
  { s with indices := s.indices ++ (List.range n).map Int.ofNat }

/-- The command `ENABLE`, up to the post. -/
def chn0Enable (dp : List (BitVec 8)) (dsize : Nat) (mem : Bool) :
    Option VbusChn := do
  match ← sessFind s (cstr dp 1) .listening with
  | none => some (chn0Echo s mem)
  | some i =>
    match chnFind s.chnStatus with
    | none => some (chn0Echo (useChns s vbusChannelNr) mem)
    | some chnr =>
      let s := useChns s (chnr + 1)
      if mem then
        -- the response has all but the first byte of the packet, of which there must be one
        rtAssert (0 < dsize)
        some (chn0Post s (.enabling i chnr))
      else some s

/-- The command `ENABLE`, after the post. -/
def chn0Enabled (i : SessId) (chnr : Nat) : VbusChn :=
  let ss := { s.sess i with st := .establishing, chnr := chnr, own := true }
  setChn (setSess s i ss) chnr .establishing

/-- The command `SET`, up to the post. -/
def chn0Set (dp : List (BitVec 8)) (mem : Bool) : Option VbusChn := do
  match ← sessFind s (cstr dp 1) .establishing with
  | none => some s
  | some i =>
    let chnr := (byteAt dp (1 + (cstr dp 1).length + 1)).toNat
    if chnr = 0 ∨ vbusChannelNr ≤ chnr then some s
    else
      let s := useChn s chnr
      if s.chnStatus chnr ≠ .available then some (chn0Echo s mem)
      else if mem then some (chn0Post s (.setting i chnr (s.sess i).tag))
      else some s

/-- A session has its channel established. -/
def chnEstablished (i : SessId) (chnr : Nat) : VbusChn :=
  let s := setSess s i { s.sess i with chnr := chnr, own := true }
  let s := setChn s chnr .established
  completionDone { s with conn := update s.conn chnr (some (s.sess i).tag) } i

/-- The answer to a `SET`. -/
def chn0AckSet (dp : List (BitVec 8)) : Option VbusChn := do
  match ← sessFind s (cstr dp 2) .establishing with
  | none => some s
  | some i => some (chnEstablished s i (byteAt dp (1 + (cstr dp 2).length + 2)).toNat)

/-- The answer to a `DISABLE`. -/
def chn0AckDisable (dp : List (BitVec 8)) : VbusChn :=
  let chnr := (byteAt dp 2).toNat
  if chnr = 0 ∨ vbusChannelNr ≤ chnr then s
  else setChn s chnr .available

/-- The command `DISABLE`. -/
def chn0Disable (dp : List (BitVec 8)) (mem : Bool) : VbusChn :=
  let chnr := (byteAt dp 1).toNat
  if chnr = 0 ∨ vbusChannelNr ≤ chnr then s
  else chn0Echo (setChn s chnr .closing) mem

/-- The commands `SUSPEND` and `RESUME`: a channel in the one status is put in the other. -/
def chn0Flow (dp : List (BitVec 8)) (st st' : ChnStatus) : VbusChn :=
  let chnr := (byteAt dp 1).toNat
  if chnr = 0 ∨ vbusChannelNr ≤ chnr then s
  else if s.chnStatus chnr ≠ st then useChn s chnr
  else setChn s chnr st'

def rtEio : Int := 8

/-- The refusal of an `ENABLE`. -/
def chn0NakEnable (dp : List (BitVec 8)) : Option VbusChn := do
  match ← sessFind s (cstr dp 2) .establishing with
  | none => some s
  | some i =>
    some (completionDone (setSess s i { s.sess i with chnr := -rtEio, own := false }) i)

/-- `_chn0_actor`. The bytes are those of the ring from the packet on. With `flow` the code is
    configured with flow control. -/
def chn0Actor (flow : Bool) (s : VbusChn) (dp : List (BitVec 8)) (dsize : Nat) (mem : Bool) :
    Option VbusChn :=
  match chn0Cmd (byteAt dp 0) with
  | some .enable => chn0Enable s dp dsize mem
  | some .set => chn0Set s dp mem
  | some .ack =>
    match chn0Cmd (byteAt dp 1) with
    | some .set => chn0AckSet s dp
    | some .disable => some (chn0AckDisable s dp)
    | _ => some s
  | some .disable => some (chn0Disable s dp mem)
  | some .suspend => some (if flow then chn0Flow s dp .established .suspend else s)
  | some .resume => some (if flow then chn0Flow s dp .suspend .established else s)
  | some .nak =>
    match chn0Cmd (byteAt dp 1) with
    | some .enable => chn0NakEnable s dp
    | _ => some s
  | none => some s

/-- `_bus_in_entry`, on one packet. -/
def busInPacket (flow : Bool) (s : VbusChn) (id : BitVec 8) (size : Nat) (dp : List (BitVec 8))
    (mem : Bool) : Option VbusChn :=
  if vbusChannelNr < id.toNat then some s
  else
    let connected := chnConnected (s.chnStatus id.toNat)
    let s := useChn s id.toNat
    if !connected then some s
    else if id.toNat = 0 then
      if 60 < size then some s else chn0Actor flow s dp size mem
    else if mem then do
      -- the packet is put on the list of its channel
      rtAssert (0 < id.toNat ∧ id.toNat < vbusChannelNr)
      some s
    else some s

/-- The post of the thread of the bus is over. -/
def busInPosted (ok : Bool) : Option VbusChn :=
  match s.busIn with
  | .idle => none
  | .replying => some { s with busIn := .idle }
  | .enabling i chnr =>
    let s := { s with busIn := .idle }
    some (if ok then chn0Enabled s i chnr else s)
  | .setting i chnr _ =>
    let s := { s with busIn := .idle }
    some (if ok then chnEstablished s i chnr else s)

/-- The first critical section of `rt_vbus_request_chn`, with what follows up to the post or up to
    the wait. -/
def requestChn (t : Nat) (req : VbusRequest) (timeout : Int) (mem : Bool) :
    VbusChn :=
  match (List.finRange 16).find? fun i => (s.sess i).st == .available with
  | none => s
  | some i =>
    let ss := { s.sess i with cmp := ⟨false, []⟩, req := some req, own := false
                              tag := s.requests }
    let s := { s with requests := s.requests + 1 }
    if req.isServer then
      setCaller (setSess s i { ss with st := .listening }) t (.waiting i timeout)
    else if mem then
      useChn (setCaller (setSess s i { ss with st := .establishing }) t (.posting i timeout)) 0
    else setSess s i ss

/-- The first access of `rt_vbus_close_chn`. From here on the local side has no connection on the
    channel. -/
def closeChn (t : Nat) (chnr : Nat) : Option VbusChn := do
  rtAssert (0 < chnr ∧ chnr < vbusChannelNr)
  let st := s.chnStatus chnr
  let s := { useChn s chnr with conn := update s.conn chnr none }
  if st = .closed ∨ st = .closing then some (setCaller s t (.freeing chnr))
  else if !chnConnected st then some s
  else some (setCaller s t (.shutting chnr))

/-- `rt_completion_wait` on the completion of a session, up to the suspension. -/
def completionWait (t : Nat) (i : SessId) (timeout : Int) : Option VbusChn := do
  let ss := s.sess i
  if ss.cmp.flag then
    some (setCaller (setSess s i { ss with cmp := { ss.cmp with flag := false } }) t
      (.waited i true))
  else
    rtAssert (ss.cmp.suspended = [])
    if timeout = 0 then some (setCaller s t (.waited i false))
    else some (setCaller (setSess s i { ss with cmp := { ss.cmp with suspended := [t] } }) t
      (.suspended i timeout))

/-- The request has failed with its session in `ESTABLISHING`: the channel that the session had
    when its number was read is made available. -/
def resetChn (t : Nat) (i : SessId) (chnr : Int) : VbusChn :=
  let ss := { s.sess i with own := (s.sess i).own && decide ((s.sess i).chnr ≠ chnr) }
  let conn := if s.conn chnr = some ss.tag then update s.conn chnr none else s.conn
  setCaller { setChn (setSess s i ss) chnr .available with conn := conn } t (.leaving i)

/-- A caller that is neither suspended nor in a post makes its next access. -/
def callerRun (t : Nat) : Option VbusChn :=
  match s.caller t with
  | .waiting i timeout => completionWait s t i timeout
  | .resumed i ok =>
    let ss := s.sess i
    some (setCaller (setSess s i { ss with cmp := { ss.cmp with flag := false } }) t (.waited i ok))
  | .waited i true => do
    rtAssert ((s.sess i).chnr ≠ 0)
    some (setCaller s t (.leaving i))
  | .waited i false =>
    some (setCaller s t (if (s.sess i).st = .establishing then .resetting i else .leaving i))
  | .resetting i => some (setCaller s t (.storing i (s.sess i).chnr))
  | .storing i chnr => some (resetChn s t i chnr)
  | .leaving i =>
    some (setCaller (setSess s i { s.sess i with st := .available, own := false }) t (.unlinking i))
  | .unlinking i => some (setCaller (setSess s i { s.sess i with req := none }) t .idle)
  | .freeing chnr => some (setCaller (setChn s chnr .available) t .idle)
  | .shutting chnr => some (useChn (setCaller (setChn s chnr .closing) t (.disabling chnr)) 0)
  | _ => none

/-- The post of a caller is over. After a close the caller listens for the answer and looks at the
    channel again for that. -/
def callerPosted (t : Nat) (ok : Bool) : Option VbusChn :=
  match s.caller t with
  | .posting i timeout => some (setCaller s t (if ok then .waiting i timeout else .waited i false))
  | .disabling chnr => some (setCaller (if ok then useChn s chnr else s) t .idle)
  | _ => none

/-- The timer of a suspended caller. -/
def callerExpire (t : Nat) : Option VbusChn :=
  match s.caller t with
  | .suspended i timeout => do
    rtAssert (0 < timeout)
    let ss := s.sess i
    let cmp := { ss.cmp with suspended := ss.cmp.suspended.erase t }
    some (setCaller (setSess s i { ss with cmp := cmp }) t (.resumed i false))
  | _ => none

/-- What can happen. The remote side sends a packet; the post of the thread of the bus is over; a
    thread requests or closes a channel, its post is over, its timer expires or it goes on. -/
inductive ChnAction where
  | packet (id : BitVec 8) (size : Nat) (dp : List (BitVec 8)) (mem : Bool)
  | posted (ok : Bool)
  | request (t : Nat) (req : VbusRequest) (timeout : Int) (mem : Bool)
  | close (t : Nat) (chnr : BitVec 8)
  | callerPosted (t : Nat) (ok : Bool)
  | expire (t : Nat)
  | run (t : Nat)
  deriving DecidableEq, Repr

def vbusChnStep (flow : Bool) (s : VbusChn) : ChnAction → Option VbusChn
  | .packet id size dp mem =>
    match s.busIn with
    | .idle => busInPacket flow s id size dp mem
    | _ => none
  | .posted ok => busInPosted s ok
  | .request t req timeout mem =>
    match s.caller t with
    | .idle => some (requestChn s t req timeout mem)
    | _ => none
  | .close t chnr =>
    match s.caller t with
    | .idle => closeChn s t chnr.toNat
    | _ => none
  | .callerPosted t ok => callerPosted s t ok
  | .expire t => callerExpire s t
  | .run t => callerRun s t

/-- `rt_vbus_init`. The memory around the table has anything. -/
def vbusChnInit (memory : Int → ChnStatus) : VbusChn :=
  { chnStatus := fun c =>
      if c = 0 then .established
      else if 0 < c ∧ c < vbusChannelNr then .available else memory c
    sess := fun _ => ⟨0, .available, ⟨false, []⟩, none, false, 0⟩
    busIn := .idle, caller := fun _ => .idle, requests := 1, conn := fun _ => none, indices := [] }

end Honeycomb
