import Honeycomb.Lib.Numeral

/-!
# The Bootloader

The bootloader looks into two files. `system.cfg` has the version of the firmware and the
address it is started at, `update.cfg` describes an update. If the update is newer, the
binary with its version for a name is copied to the flash, chunk by chunk, and the new version
goes to `system.cfg`. In all cases a program is started in the end.

Which files there are and what the calls of the file system and of the flash return is the
environment. A read comes back with an error, or with some number of the bytes that are left
in the file. A word of the flash is programmed or not. What the flash holds after an attempt
to erase it is left open, as is what a buffer on the stack holds before it is written.
Going back to the start of a file does not fail.

The library functions the code calls are modelled as far as it needs them. A number that does
not fit into 32 bits is read as the largest or the smallest one. Text is searched and read in
a buffer of 200 bytes, and a number in it ends at the end of the buffer at the latest.
-/

namespace Honeycomb.Boot

open BitVec (ofNat ofInt)
open Numeral

abbrev Byte := BitVec 8

/-- The bytes of a text of ASCII characters. -/
def bytes (text : String) : List Byte :=
  text.toList.map fun c => ofNat 8 c.toNat

def configFileMaxSize : Nat := 200

def userAppAddress : BitVec 32 := 0x08020000

/-- The size of the buffer the binary is copied through. -/
def buffSize : Nat := 128

section Text

/-- White space, as `isspace` has it. -/
def isSpace (b : Byte) : Bool :=
  b = 0x20 ∨ (0x09 ≤ b ∧ b ≤ 0x0d)

/-- The value of a digit in a base up to 36. -/
def digitOf (base : Nat) (b : Byte) : Option Nat :=
  let n := b.toNat
  let d :=
    if 48 ≤ n ∧ n ≤ 57 then some (n - 48)
    else if 97 ≤ n ∧ n ≤ 122 then some (n - 87)
    else if 65 ≤ n ∧ n ≤ 90 then some (n - 55)
    else none
  d.filter (· < base)

/-- The symbol of a digit, with small letters. -/
def digitChar (d : Nat) : Byte :=
  if d < 10 then ofNat 8 (48 + d) else ofNat 8 (87 + d)

/-- The text after a sign, and whether the sign was a minus. -/
def readSign : List Byte → Bool × List Byte
  | [] => (false, [])
  | b :: rest =>
    if b = 0x2d then (true, rest)
    else if b = 0x2b then (false, rest)
    else (false, b :: rest)

/-- The text after `0x`. -/
def skipHex : List Byte → List Byte
  | b :: x :: rest => if b = 0x30 ∧ (x = 0x78 ∨ x = 0x58) then rest else b :: x :: rest
  | text => text

/-- The number a text starts with, as a `long` of 32 bits. -/
def strtol (base : Nat) (text : List Byte) : Int :=
  let (neg, text) := readSign (text.dropWhile isSpace)
  let text := if base = 16 then skipHex text else text
  let n := readNat (digitOf base) base 0 text
  if neg then max (-(n : Int)) (-2 ^ 31) else min (n : Int) (2 ^ 31 - 1)

def atol (text : List Byte) : Int :=
  strtol 10 text

/-- `%d` -/
def printInt (v : Int) : List Byte :=
  if v < 0 then 0x2d :: printNat digitChar 10 v.natAbs else printNat digitChar 10 v.natAbs

/-- `%x` -/
def printHex (v : BitVec 32) : List Byte :=
  printNat digitChar 16 v.toNat

/-- The loop of `LocateString` from an offset on, with the length that is left. -/
def locateFrom (src str : List Byte) : Nat → Nat → Nat
  | 0, _ => 0
  | srcLen + 1, off =>
    if str.length ≤ srcLen + 1 then
      if (src.drop off).take str.length = str then off + str.length
      else locateFrom src str srcLen (off + 1)
    else 0

/-- Where the text after a key starts, or 0 if the key is not found. -/
def locateString (src str : List Byte) (srcLen : Nat) : Nat :=
  locateFrom src str srcLen 0

/-- `memcmp` of the bytes at an offset with a text: whether they are the same, if all of them can be
    read. -/
def memcmp (read : Nat → Option Byte) (off : Nat) : List Byte → Option Bool
  | [] => some true
  | b :: str => do
    let c ← read off
    let same ← memcmp read (off + 1) str
    some (c == b && same)

/-- The loop of `LocateString` with its counters of 16 bits, for a number of rounds at most. -/
def locateLoop (read : Nat → Option Byte) (str : List Byte) (i : BitVec 16) :
    Nat → BitVec 16 → BitVec 16 → Option (BitVec 16)
  | 0, _, _ => none
  | rounds + 1, off, srcLen =>
    if i ≤ srcLen then do
      if ← memcmp read off.toNat (str.take i.toNat) then some (off + i)
      else locateLoop read str i rounds (off + 1#16) (srcLen - 1#16)
    else some 0

end Text

section Config

/-- The buffer after a file has been read into it. It is zero before. -/
def fileReadBuf (data : List Byte) : List Byte :=
  data ++ List.replicate (configFileMaxSize - data.length) 0

/-- The text after a key that has to be there. -/
def after (p : List Byte) (key : String) (srcLen : Nat) : Option (List Byte) :=
  let offset := locateString p (bytes key) srcLen
  if offset = 0 then none else some (p.drop offset)

/-- The addresses a program may be started at. -/
def inRange (addr : BitVec 32) : Bool :=
  ¬ (0x08060000 < addr ∨ addr < 0x08000000)

/-- The version and the address in `system.cfg`. -/
def parseSystem (buf : List Byte) : Option (Int × BitVec 32) := do
  let p ← after buf "version:" 16
  let systemVersion := atol p
  let p ← after p "boot_addr:" 50
  let bootAddr := ofInt 32 (strtol 16 p)
  guard (inRange bootAddr)
  return (systemVersion, bootAddr)

structure Update where
  version : Int
  binSize : BitVec 32
  checkSum : BitVec 16
  bootAddr : BitVec 32
  deriving DecidableEq, Repr

/-- The update, if there is a newer one. The code checks the size twice. -/
def parseUpdate (buf : List Byte) (systemVersion : Int) : Option Update := do
  let p ← after buf "version:" 16
  let version := atol p
  guard (¬ version ≤ systemVersion)
  let p ← after p "bin_size:" 50
  let binSize := ofInt 32 (atol p)
  guard (binSize ≠ 0)
  let p ← after p "check_sum:" 50
  let checkSum := ofInt 16 (strtol 10 p)
  guard (binSize ≠ 0)
  let p ← after p "boot_addr:" 50
  let bootAddr := ofInt 32 (strtol 16 p)
  guard (inRange bootAddr)
  return { version, binSize, checkSum, bootAddr }

def binFileName (version : Int) : List Byte :=
  printInt version ++ bytes ".bin"

/-- What is written to `system.cfg` after an update. -/
def recordText (version : Int) (bootAddr : BitVec 32) : List Byte :=
  bytes "version:" ++ printInt version ++ bytes "\r\nboot_addr:0x" ++ printHex bootAddr

/-- A file after text has been written at its start. It does not get shorter. -/
def overwrite (old text : List Byte) : List Byte :=
  text ++ old.drop text.length

end Config

/-- The files, and what the calls return. The outcome of a read is an error or the number of
    bytes it comes back with at most; those of the binary and the words of the flash are told
    apart by their place. An attempt to erase the flash succeeds or not, and leaves something. -/
structure Env where
  checkKey : Bool
  systemCfg : Option (List Byte)
  readSystem : Option Nat
  updateCfg : Option (List Byte)
  readUpdate : Option Nat
  bin : List Byte → Option (List Byte)
  seekBin : Bool
  readBin : Nat → Option Nat
  flash : Nat → Byte
  eraseUserApp : Bool × (Nat → Byte)
  program : Nat → Bool
  stack : Nat → Byte
  writeSystem : Option Nat

/-- How it ends: what is in `system.cfg` and in the flash, what the writes to the flash
    returned, and the address of the program that is started. -/
structure Outcome where
  systemCfg : Option (List Byte)
  flash : Nat → Byte
  results : List Bool
  boot : Option (BitVec 32)

/-- Some bytes of a file from a place on. -/
def readAt (file : List Byte) (pos size : Nat) (outcome : Option Nat) : Option (List Byte) :=
  outcome.map fun count => ((file.drop pos).take size).take count

section Flash

/-- Program the words of a buffer, with the offset of the next one. The words before one that
    fails have been programmed. -/
def efPortWrite (program : Nat → Bool) (addr : Nat) (buf : Nat → Byte) :
    Nat → Nat → (Nat → Byte) → (Nat → Byte) × Bool
  | 0, _, flash => (flash, true)
  | words + 1, i, flash =>
    if program (addr + i) then
      efPortWrite program addr buf words (i + 4)
        (fun a => if addr + i ≤ a ∧ a < addr + i + 4 then buf (a - addr) else flash a)
    else (flash, false)

/-- The base addresses of the sectors 0 to 12 of the flash. -/
def addrFlashSector (n : Nat) : Nat :=
  [0x08000000, 0x08004000, 0x08008000, 0x0800C000, 0x08010000, 0x08020000, 0x08040000, 0x08060000,
    0x08080000, 0x080A0000, 0x080C0000, 0x080E0000, 0x08100000].getD n 0

/-- The sector an address is in, or 0 if it is in none of the sectors 0 to 11. -/
def stm32GetSector (address : BitVec 32) : BitVec 32 :=
  ofNat 32 (((List.range 12).find? fun n =>
    address.toNat < addrFlashSector (n + 1) ∧ addrFlashSector n ≤ address.toNat).getD 0)

/-- The first sector and the number of sectors that the driver is told to erase. -/
def efPortErase (addr size : BitVec 32) : BitVec 32 × BitVec 32 :=
  (stm32GetSector addr, stm32GetSector (addr + size) - stm32GetSector addr + 1)

/-- The copy loop: the flash, the buffer, the place in the binary and the results so far. -/
structure Copy where
  flash : Nat → Byte
  buff : Nat → Byte
  pos : Nat
  results : List Bool

/-- The buffer and the place in the binary after a read. Nobody looks at what it returns, so the
    buffer may keep old bytes. -/
def readChunk (env : Env) (bin : List Byte) (curSize : Nat) (buff : Nat → Byte) (pos : Nat) :
    (Nat → Byte) × Nat :=
  match readAt bin pos buffSize (env.readBin curSize) with
  | some data => (fun i => (data[i]?).getD (buff i), pos + data.length)
  | none => (buff, pos)

def copyChunk (env : Env) (bin : List Byte) (addr curSize : Nat) (c : Copy) : Copy × Bool :=
  let (buff, pos) := readChunk env bin curSize c.buff c.pos
  let (flash, ok) := efPortWrite env.program (addr + curSize) buff (buffSize / 4) 0 c.flash
  (⟨flash, buff, pos, c.results ++ [ok]⟩, ok)

/-- The loop over the chunks. It is left when a write fails. -/
def copyLoop (env : Env) (bin : List Byte) (addr : Nat) : Nat → Nat → Copy → Copy
  | 0, _, c => c
  | chunks + 1, curSize, c =>
    let (c, ok) := copyChunk env bin addr curSize c
    if ok then copyLoop env bin addr chunks (curSize + buffSize) c else c

end Flash

variable (env : Env)

/-- The version and the address of the present firmware. -/
def systemStage : Option (Int × BitVec 32) := do
  let file ← env.systemCfg
  let data ← readAt file 0 configFileMaxSize env.readSystem
  parseSystem (fileReadBuf data)

/-- The update that is to be made. -/
def updateStage (systemVersion : Int) : Option Update := do
  let file ← env.updateCfg
  let data ← readAt file 0 configFileMaxSize env.readUpdate
  parseUpdate (fileReadBuf data) systemVersion

/-- The binary of the update, if it has the size that is given. -/
def binStage (u : Update) : Option (List Byte) := do
  let bin ← env.bin (binFileName u.version)
  guard env.seekBin
  guard (u.binSize = ofNat 32 bin.length)
  return bin

/-- The copy of a binary of a given size to the flash. -/
def install (bin : List Byte) (binFileSize addr : BitVec 32) : Copy :=
  copyLoop env bin addr.toNat ((binFileSize.toNat + (buffSize - 1)) / buffSize) 0
    { flash := env.eraseUserApp.2, buff := env.stack, pos := 0, results := [] }

/-- The bootloader. The address from `update.cfg` is the one that is started, and the binary
    goes to the address of the user application. -/
def bootloader : Outcome :=
  let leave (bootAddr : BitVec 32) : Outcome :=
    { systemCfg := env.systemCfg, flash := env.flash, results := [], boot := some bootAddr }
  if env.checkKey then
    { leave 0 with boot := none }
  else
    match systemStage env with
    | none => leave userAppAddress
    | some (systemVersion, bootAddr) =>
      match updateStage env systemVersion with
      | none => leave bootAddr
      | some u =>
        let bootAddr := u.bootAddr
        match binStage env u with
        | none => leave bootAddr
        | some bin =>
          let newBootAddr := userAppAddress
          if env.eraseUserApp.1 then
            let c := install env bin (ofNat 32 bin.length) newBootAddr
            let text := recordText u.version newBootAddr
            let written := match env.writeSystem with
              | some count => env.systemCfg.map (overwrite · (text.take count))
              | none => env.systemCfg
            { systemCfg := written, flash := c.flash, results := c.results,
              boot := some bootAddr }
          else
            { leave bootAddr with flash := env.eraseUserApp.2 }

inductive File where
  | system
  | update
  | bin

/-- The update, if the code comes to its binary. -/
def pending : Option Update := do
  let (systemVersion, _) ← systemStage env
  updateStage env systemVersion

/-- Whether the code comes to open a file. -/
def reached : File → Bool
  | .system => true
  | .update => (systemStage env).isSome
  | .bin => (pending env).isSome

def opened : File → Bool
  | .system => env.systemCfg.isSome
  | .update => (systemStage env).isSome && env.updateCfg.isSome
  | .bin => ((pending env).bind fun u => env.bin (binFileName u.version)).isSome

/-- The variable of a file in the end. It is not set before the file is to be opened. -/
def descriptor (fd : File → Nat) (stack : File → Int) (f : File) : Int :=
  if opened env f then fd f else if reached env f then -1 else stack f

/-- The descriptors that are closed. -/
def closed (fd : File → Nat) (stack : File → Int) : List Int :=
  if env.checkKey then []
  else ([.system, .update, .bin].map (descriptor env fd stack)).filter (· ≠ -1)

/-- The jump to a program. The first word of it has to be an address in the RAM. -/
def iapLoadApp (flash : Nat → Byte) (appxaddr : BitVec 32) : Bool :=
  let a := appxaddr.toNat
  (flash (a + 3) ++ flash (a + 2) ++ flash (a + 1) ++ flash a) &&& 0x2FFE0000#32 = 0x20000000#32

/-- The program that is jumped to. -/
def jump : Option (BitVec 32) :=
  (bootloader env).boot.filter (iapLoadApp (bootloader env).flash)

end Honeycomb.Boot
