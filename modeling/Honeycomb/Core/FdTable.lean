import Honeycomb.Core.Kernel

/-!
# The Table of File Descriptors

The table of `dfs.c`, and the calls of `dfs_posix.c` that open and close files. A number denotes a
slot of the table, which grows by four at a time. A slot has a pointer to a descriptor with a
counter of references, or the null pointer. A pointer to a descriptor is modelled by the slot that
has it, which is the one `fd_put` finds when it looks for the pointer.

What the file system answers and whether there is memory is part of an action. The system keeps
books of the files that are open, of the references that were got and not put, and of the calls of
`fd_get` with any number: whether the number denoted an open file, and whether a descriptor was
returned, if the call did not go through a null pointer.
-/

namespace Honeycomb

/-- The number of the first slot. -/
def dfsFdOffset : Int := 3

def dfsFdMagic : BitVec 16 := 0xfdfd#16

/-- `struct dfs_fd`. The counter is an `int`, whose sign is not looked at. -/
structure DfsFd where
  magic : BitVec 16
  refCount : BitVec 32
  deriving DecidableEq, Repr

/-- `struct dfs_fdtable`, as long as `maxfd` says. -/
abbrev FdTable := List (Option DfsFd)

/-- The memory there is for a call: for a larger table, and for a descriptor, with what is in it. -/
structure FdMem where
  grows : Bool
  fd : Option DfsFd
  deriving DecidableEq, Repr

/-- Find a free slot, and get a descriptor for it. The length of the table is returned when there
    is none. -/
def fdAlloc (max : Nat) (mem : FdMem) (fds : FdTable) : FdTable × Nat :=
  let idx := fds.findIdx fun d => d.all fun d => d.refCount = 0
  let fds :=
    if idx = fds.length ∧ fds.length < max ∧ mem.grows then
      fds ++ List.replicate (min (fds.length + 4) max - fds.length) none
    else fds
  if fds[idx]? = some none then
    match mem.fd with
    | some d => (fds.set idx (some d), idx)
    | none => (fds, fds.length)
  else (fds, idx)

def fdNew (max : Nat) (mem : FdMem) (fds : FdTable) : FdTable × Option Nat :=
  let (fds, idx) := fdAlloc max mem fds
  if idx = fds.length then (fds, none)
  else (fds.set idx (some ⟨dfsFdMagic, 1⟩), some idx)

/-- No result when the call goes through a null pointer. -/
def fdGet (fds : FdTable) (fd : Int) : Option (FdTable × Option Nat) :=
  let fd := fd - dfsFdOffset
  if fd < 0 ∨ (fds.length : Int) ≤ fd then some (fds, none)
  else do
    let d ← fds[fd.toNat]?.join
    if d.magic ≠ dfsFdMagic then some (fds, none)
    else some (fds.set fd.toNat (some { d with refCount := d.refCount + 1 }), some fd.toNat)

/-- No result when the descriptor was freed before. -/
def fdPut (fds : FdTable) (i : Nat) : Option FdTable := do
  let d ← fds[i]?.join
  some (fds.set i (if d.refCount - 1 = 0 then none else some { d with refCount := d.refCount - 1 }))

/-- `open`, where the file system opens the file or does not. -/
def fdOpen (max : Nat) (mem : FdMem) (opens : Bool) (fds : FdTable) :
    Option (FdTable × Option Nat) :=
  match fdNew max mem fds with
  | (fds, none) => some (fds, none)
  | (fds, some idx) => do
    let (fds, d) ← fdGet fds (idx + dfsFdOffset)
    let d ← d
    let fds ← fdPut fds d
    if opens then some (fds, some idx)
    else some (← fdPut fds d, none)

/-- `close`, where the file system closes the file or does not. The slot is returned for which it
    was asked, if there was one. -/
def fdClose (closes : Bool) (fd : Int) (fds : FdTable) : Option (FdTable × Option Nat) := do
  let (fds, d) ← fdGet fds fd
  match d with
  | none => some (fds, none)
  | some i =>
    let fds ← fdPut fds i
    if closes then some (← fdPut fds i, some i)
    else some (fds, some i)

structure FdSys where
  fds : FdTable
  files : List Nat
  refs : List Nat
  calls : List (Bool × Option Bool)

namespace FdSys

/-- The number denotes a file that is open. -/
def denotes (s : FdSys) (fd : Int) : Bool :=
  s.files.any fun i => (i : Int) + dfsFdOffset = fd

/-- A call with a number has returned, or has gone through a null pointer. -/
def answer (s : FdSys) (fd : Int) (r : Option (FdTable × Option Nat)) : FdSys :=
  { s with
    fds := (r.map Prod.fst).getD s.fds
    calls := (s.denotes fd, r.map (·.2.isSome)) :: s.calls }

end FdSys

inductive FdAction where
  | openFile (mem : FdMem) (opens : Bool)
  | close (fd : Int) (closes : Bool)
  | get (fd : Int)
  | put (i : Nat)

/-- One call. A reference that is put was got before. -/
def fdStep (max : Nat) (s : FdSys) : FdAction → Option FdSys
  | .openFile mem opens => do
    let (fds, r) ← fdOpen max mem opens s.fds
    some { s with fds := fds, files := r.toList ++ s.files }
  | .close fd closes =>
    let r := fdClose closes fd s.fds
    some { s.answer fd r with
      files := if closes then (r.bind Prod.snd).elim s.files s.files.erase else s.files }
  | .get fd =>
    let r := fdGet s.fds fd
    some { s.answer fd r with refs := (r.bind Prod.snd).toList ++ s.refs }
  | .put i => do
    rtAssert (i ∈ s.refs)
    let fds ← fdPut s.fds i
    some { s with fds := fds, refs := s.refs.erase i }

def fdInit : FdSys :=
  { fds := [], files := [], refs := [], calls := [] }

end Honeycomb
