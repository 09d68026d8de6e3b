import Honeycomb.Core.SerialDevice
import Honeycomb.Lib.ByteMem

/-!
# Aligned Allocation and the Console

Blocks with a larger alignment than the heap has are cut from larger blocks. The word before
such a block holds the address of the larger one. Any heap may be used: `rtMalloc` is what it
returns for a size.

The console is printed to through a buffer. How a format and its arguments become text is not
modelled: `text` is the full output, whatever they are. All of the code that makes it puts one
character at a time, as `putChar` does. The sign of a number has a part in the padding behind it,
but only if it is stored.
-/

namespace Honeycomb

/-- Where in the block at `ptr` the aligned one is. -/
def alignedPtr (ptr align : BitVec 32) : BitVec 32 :=
  if ptr &&& (align - 1#32) = 0#32 then ptr + align
  else (ptr + (align - 1#32)) &&& ~~~(align - 1#32)

/-- The memory is the one `rt_malloc` leaves. -/
def rtMallocAlign (rtMalloc : BitVec 32 → BitVec 32) (m : Memory) (size align : BitVec 32) :
    Memory × BitVec 32 :=
  let align := rtAlign align
  let alignSize := rtAlign size + align
  let ptr := rtMalloc alignSize
  if ptr ≠ 0#32 then
    let alignPtr := alignedPtr ptr align
    (m.store32 (alignPtr - 4#32) ptr, alignPtr)
  else (m, ptr)

/-- What is handed to `rt_free`. -/
def rtFreeAlign (m : Memory) (ptr : BitVec 32) : BitVec 32 :=
  m.load32 (ptr - 4#32)

/-- A character goes to the buffer if its place is not behind the last one. -/
def putChar (last : Nat) (s : (Nat → BitVec 8) × Nat) (c : BitVec 8) : (Nat → BitVec 8) × Nat :=
  (if s.2 ≤ last then Function.update s.1 s.2 c else s.1, s.2 + 1)

/-- A character of the output, and whether it is the sign of a number that is padded behind it,
    with zeros or on the right. -/
structure OutChar where
  char : BitVec 8
  padded : Bool
  deriving DecidableEq, Repr

/-- A sign that is not stored does not count in the width, so there is one more to pad. It is behind
    the last place as well. -/
def putOut (last : Nat) (s : (Nat → BitVec 8) × Nat) (c : OutChar) : (Nat → BitVec 8) × Nat :=
  if c.padded ∧ ¬ s.2 ≤ last then ((putChar last s c.char).1, s.2 + 2) else putChar last s c.char

/-- The buffer at the address `base` and the length of the text. A buffer without any room is
    taken to reach to the end of the address space. -/
def rtVsnprintf (base : Nat) (buf : Nat → BitVec 8) (size : Nat) (text : List OutChar) :
    (Nat → BitVec 8) × Nat :=
  let last := if size = 0 then 2 ^ 32 - 1 - base else size - 1
  let (buf, str) := text.foldl (putOut last) (buf, 0)
  (Function.update buf (if str ≤ last then str else last) 0#8, str)

/-- The buffer of `rt_kprintf`, and the flags of the console device if one is set. -/
structure Console where
  logBuf : Nat → BitVec 8
  openFlag : Option (BitVec 16)

/-- The call with which `rt_kprintf` ends. That of the device has the flags it is made with. -/
inductive ConsoleCall where
  | hwConsoleOutput (str : Nat → BitVec 8)
  | deviceWrite (openFlag : BitVec 16) (buffer : List (BitVec 8))

def rtKprintf (consolebufSize base : Nat) (c : Console) (text : List OutChar) :
    Console × ConsoleCall :=
  let (logBuf, length) := rtVsnprintf base c.logBuf (consolebufSize - 1) text
  let length := if consolebufSize - 1 < length then consolebufSize - 1 else length
  match c.openFlag with
  | none => (⟨logBuf, none⟩, .hwConsoleOutput logBuf)
  | some oldFlag =>
    (⟨logBuf, some oldFlag⟩, .deviceWrite (oldFlag ||| flagStream) ((List.range length).map logBuf))

end Honeycomb
