import Honeycomb.Core.Kernel
import Honeycomb.Lib.Spans

/-!
# The Page Allocator of the Slab Heap

The slab allocator gets its memory in runs of whole pages. The free runs are on a list that is
kept in the free memory itself: the first page of a run has a header with the number of pages in
it and the address of the next run. Taking pages and giving them back walk along the list with a
pointer to the link that led to the present run, so that the link can be written.

Addresses are counted in pages, and there are `2 ^ 20` of them in an address space of 32 bits.
Adding to an address wraps around at its end. The address 0 is no run but the end of the list.

Every page has room for a header, whoever it belongs to, and the owner of a page may write
anything there. The system keeps books of the runs that are taken. Both calls hold a semaphore,
so each is one step. They follow the list until its end, which a list that goes in circles does
not have; there are no more runs than pages, so the walk is given up after that many.
-/

namespace Honeycomb

open Function

def pageSize : Nat := 4096

/-- The pages of the address space. -/
def pageSpace : Nat := 2 ^ 20

/-- The address of a page some pages further on. -/
def pageAdd (p n : Nat) : Nat :=
  (p + n) % pageSpace

/-- `rt_page_list`, and the two fields of the header of each page. -/
structure PageHeap where
  list : Nat
  next : Nat → Nat
  page : Nat → Nat

namespace PageHeap

/-- The link a pointer to a link points to: that of a header, or the start of the list. -/
def link (h : PageHeap) : Option Nat → Nat
  | none => h.list
  | some q => h.next q

def setLink (h : PageHeap) (prev : Option Nat) (b : Nat) : PageHeap :=
  match prev with
  | none => { h with list := b }
  | some q => { h with next := update h.next q b }

def setHead (h : PageHeap) (n next page : Nat) : PageHeap :=
  { h with next := update h.next n next, page := update h.page n page }

end PageHeap

def allocLoop (h : PageHeap) (npages : Nat) : Nat → Option Nat → Option (PageHeap × Nat)
  | 0, _ => none
  | fuel + 1, prev =>
    let b := h.link prev
    if b = 0 then some (h, 0)
    else if npages < h.page b then
      -- split the run
      let n := pageAdd b npages
      let h := h.setHead n (h.next b) (h.page b - npages)
      some (h.setLink prev n, b)
    else if h.page b = npages then
      some (h.setLink prev (h.next b), b)
    else allocLoop h npages fuel (some b)

variable (h : PageHeap)

/-- Take pages. The address that is returned is 0 if there is no run of as many. -/
def rtPageAlloc (npages : Nat) : Option (PageHeap × Nat) :=
  if npages = 0 then some (h, 0) else allocLoop h npages pageSpace none

/-- Join a run with the next one on the list if they touch. -/
def joinNext (b : Nat) : PageHeap :=
  if pageAdd b (h.page b) = h.next b then
    let c := h.next b
    let h := { h with page := update h.page b (h.page b + h.page c) }
    { h with next := update h.next b (h.next c) }
  else h

/-- The loop of `rt_page_free`, and what comes after it. -/
def freeLoop (h : PageHeap) (n npages : Nat) : Nat → Option Nat → Option PageHeap
  | 0, _ => none
  | fuel + 1, prev => do
    let b := h.link prev
    if b = 0 then
      return (h.setHead n b npages).setLink prev n
    else
      rtAssert (0 < h.page b)
      rtAssert (n < b ∨ pageAdd b (h.page b) ≤ n)
      if pageAdd b (h.page b) = n then
        return joinNext { h with page := update h.page b (h.page b + npages) } b
      else if b = pageAdd n npages then
        return (h.setHead n (h.next b) (h.page b + npages)).setLink prev n
      else if pageAdd n npages < b then
        return (h.setHead n b npages).setLink prev n
      else freeLoop h n npages fuel (some b)

def rtPageFree (addr npages : Nat) : Option PageHeap := do
  rtAssert (addr ≠ 0)
  rtAssert (npages ≠ 0)
  freeLoop h addr npages pageSpace none

/-- Set up the allocator with the pages of a region. -/
def rtPageInit (addr npages : Nat) : Option PageHeap := do
  rtAssert (addr ≠ 0)
  rtAssert (npages ≠ 0)
  rtPageFree { h with list := 0 } addr npages

structure PageSys where
  h : PageHeap
  runs : List Span

/-- Pages are taken, a run is given back, or the owner of a page writes to the place of its
    header. -/
inductive PageAction where
  | alloc (npages : Nat)
  | free (run : Span)
  | write (p next page : Nat)
  deriving DecidableEq, Repr

def pageStep (s : PageSys) : PageAction → Option PageSys
  | .alloc npages => do
    let (h, b) ← rtPageAlloc s.h npages
    if b = 0 then return { s with h := h }
    else return { h := h, runs := ⟨b, npages⟩ :: s.runs }
  | .free run => do
    rtAssert (run ∈ s.runs)
    let h ← rtPageFree s.h run.start run.count
    return { h := h, runs := s.runs.erase run }
  | .write p next page => do
    rtAssert (∃ run ∈ s.runs, run.start ≤ p ∧ p < run.stop)
    return { s with h := s.h.setHead p next page }

/-- The first page that starts at an address of 32 bits or later. -/
def heapStart (beginAddr : Nat) : Nat :=
  (beginAddr + (pageSize - 1)) % 2 ^ 32 / pageSize

/-- The page an address is in. -/
def heapEnd (endAddr : Nat) : Nat :=
  endAddr / pageSize

/-- `rt_system_heap_init` of the slab heap, as far as it is about pages: the allocator is set up
    with the whole pages between two addresses, and pages are taken for the table `memusage`,
    which has four bytes for each page. Addresses in the wrong order are refused. -/
def slabHeapInit (beginAddr endAddr : Nat) : Option PageSys :=
  if heapEnd endAddr ≤ heapStart beginAddr then some { h := h, runs := [] }
  else do
    let npages := heapEnd endAddr - heapStart beginAddr
    let h ← rtPageInit h (heapStart beginAddr) npages
    pageStep { h := h, runs := [] } (.alloc ((npages * 4 + (pageSize - 1)) / pageSize))

end Honeycomb
