import Honeycomb.Core.PageAlloc
import Honeycomb.Lib.Run

/-!
# The Page Allocator Keeps its Runs Apart and Joined

The list of free runs is a list of spans, and what the two loops do to the links and headers in
memory is what `firstFit` and `insert` do to that list. A loop stands at some link, and
everything it changes is behind that link: `Kept` says that the memory before it is as it was,
so what the loop does behind the first run can be put behind the first run.

With that, the invariant is about spans alone. The free runs are separated, so they are the
maximal stretches of free pages, and they and the runs that are taken share out the region. An
owner who writes to their pages does not reach a header that is in use.

The region has to end before the end of the address space, or the address behind its last run
would be 0. The addresses `slabHeapInit` is given are of 32 bits, and the region it sets up
ends at the last of them or before.

## Theorems

* `page_runs_kept`: The promise holds in every run, for every region.
* `slab_pages_kept`: It holds for the region the slab heap is set up with.
-/

namespace Honeycomb

open Function Honeycomb.Span List Run

section Links

variable (h h' : PageHeap) {h'' : PageHeap} (prev : Option Nat) (p n : Nat) {nx : Nat} (pg lo : Nat)
  {lo' : Nat} (r : Span) (rs : List Span) {rs' : List Span}

variable {p n} in
theorem pageAdd_eq (hspace : p + n < pageSpace) : pageAdd p n = p + n :=
  Nat.mod_eq_of_lt hspace

/-- The link leads to a list of runs, each with its header. -/
def Leads (h : PageHeap) : Nat → List Span → Prop
  | p, [] => p = 0
  | p, r :: rs => p = r.start ∧ h.page p = r.count ∧ Leads h (h.next p) rs

/-- The link is before the runs that start at `lo`. -/
def LinkBefore (prev : Option Nat) (lo : Nat) : Prop :=
  ∀ q, prev = some q → q < lo

/-- What is before `lo` is as it was, except for the link the loop stands at. -/
structure Kept (prev : Option Nat) (lo : Nat) (h h' : PageHeap) : Prop where
  page : ∀ p, p < lo → h'.page p = h.page p
  next : ∀ p, p < lo → prev ≠ some p → h'.next p = h.next p
  list : prev ≠ none → h'.list = h.list

theorem linkBefore_mono {lo' : Nat} (hlo : lo ≤ lo') (hprev : LinkBefore prev lo) :
    LinkBefore prev lo' :=
  fun q hq => Nat.lt_of_lt_of_le (hprev q hq) hlo

theorem linkBefore_some (hlo : p < lo) : LinkBefore (some p) lo := by
  intro q hq
  cases hq
  exact hlo

theorem kept_refl : Kept prev lo h h :=
  ⟨fun _ _ => rfl, fun _ _ _ => rfl, fun _ => rfl⟩

theorem kept_trans (hk : Kept prev lo h h') (hk' : Kept prev lo h' h'') : Kept prev lo h h'' := by
  refine ⟨fun p hp => ?_, fun p hp hne => ?_, fun hne => ?_⟩
  · exact (hk'.page p hp).trans (hk.page p hp)
  · exact (hk'.next p hp hne).trans (hk.next p hp hne)
  · exact (hk'.list hne).trans (hk.list hne)

@[simp]
theorem link_setLink : (h.setLink prev n).link prev = n := by
  cases prev with
  | none => rfl
  | some q => exact update_self q n h.next

@[simp]
theorem page_setLink : (h.setLink prev n).page = h.page := by
  cases prev with
  | none => rfl
  | some q => rfl

variable {h prev p n} in
theorem next_setLink (hne : prev ≠ some p) : (h.setLink prev n).next p = h.next p := by
  cases prev with
  | none => rfl
  | some q => exact update_of_ne (fun heq => hne (congrArg some heq.symm)) n h.next

variable {h prev n lo} in
theorem kept_setLink : Kept prev lo h (h.setLink prev n) := by
  refine ⟨fun p _ => ?_, fun p _ hne => next_setLink hne, fun hne => ?_⟩
  · rw [page_setLink]
  · cases prev with
    | none => exact absurd rfl hne
    | some q => rfl

theorem kept_setHead {nx pg lo : Nat} (hlo : lo ≤ n) : Kept prev lo h (h.setHead n nx pg) := by
  have hne : ∀ p, p < lo → p ≠ n := fun p hp => by omega
  refine ⟨fun p hp => ?_, fun p hp _ => ?_, fun _ => rfl⟩
  · exact update_of_ne (hne p hp) pg h.page
  · exact update_of_ne (hne p hp) nx h.next

/-- A list of runs is still there if the headers of its runs are. -/
theorem leads_congr (hsame : ∀ r ∈ rs, h'.page r.start = h.page r.start ∧
    h'.next r.start = h.next r.start) (hl : Leads h p rs) : Leads h' p rs := by
  induction rs generalizing p with
  | nil => exact hl
  | cons r rs ih =>
    rcases hl with ⟨hp, hpage, hrest⟩
    rcases hsame r mem_cons_self with ⟨hpage', hnext'⟩
    rw [hp] at hpage hrest
    refine ⟨hp, ?_, ?_⟩
    · rw [hp, hpage', hpage]
    · rw [hp, hnext']
      exact ih (h.next r.start) (fun c hc => hsame c (mem_cons_of_mem r hc)) hrest

variable (hprev : LinkBefore prev lo)
include hprev

variable {h prev p n lo rs} in
theorem leads_setLink (hsep : SepFrom lo rs) (hl : Leads h p rs) :
    Leads (h.setLink prev n) p rs := by
  refine leads_congr h _ p rs (fun r hr => ⟨by rw [page_setLink], ?_⟩) hl
  refine next_setLink fun hq => ?_
  -- The link is before the runs.
  have := hprev r.start hq
  have := (sepFrom_le r hsep hr).1
  omega

omit hprev in
theorem leads_setHead {nx pg : Nat} {rs : List Span} (hout : ∀ r ∈ rs, r.start ≠ n)
    (hl : Leads h p rs) :
    Leads (h.setHead n nx pg) p rs := by
  refine leads_congr h _ p rs (fun r hr => ⟨?_, ?_⟩) hl
  · exact update_of_ne (hout r hr) pg h.page
  · exact update_of_ne (hout r hr) nx h.next

variable {h prev n pg lo rs} in
/-- A run is put in front of others: its header is written, and then the link to it. -/
theorem leads_put (hlo : lo ≤ n) (hsep : SepFrom (n + 1) rs) (hl : Leads h nx rs) :
    Leads ((h.setHead n nx pg).setLink prev n) (((h.setHead n nx pg).setLink prev n).link prev)
        (⟨n, pg⟩ :: rs) ∧
      Kept prev lo h ((h.setHead n nx pg).setLink prev n) := by
  have hne : prev ≠ some n := by
    intro hq
    have := hprev n hq
    omega
  refine ⟨⟨link_setLink _ prev n, ?_, ?_⟩, ?_⟩
  · rw [link_setLink, page_setLink]
    exact update_self n pg h.page
  · rw [link_setLink, next_setLink hne]
    have hnext : (h.setHead n nx pg).next n = nx := by
      exact update_self n nx h.next
    rw [hnext]
    refine leads_setLink (linkBefore_mono prev lo (by omega) hprev) hsep ?_
    refine leads_setHead h nx n (fun r hr => ?_) hl
    have := (sepFrom_le r hsep hr).1
    omega
  · exact kept_trans h _ prev lo (kept_setHead h prev n hlo) kept_setLink

/-- A change behind a run, to its own link included, is a change behind the link to it, and
    leaves that link as it was. -/
theorem kept_link (hlo : lo ≤ p) (hlo' : lo ≤ lo')
    (hk : Kept (some p) lo' h h') : h'.link prev = h.link prev ∧ Kept prev lo h h' := by
  have hlist : h'.list = h.list := hk.list nofun
  have hnext : ∀ q, q < lo → h'.next q = h.next q := by
    intro q hq
    refine hk.next q (by omega) fun heq => ?_
    rw [Option.some.injEq] at heq
    omega
  refine ⟨?_, fun q hq => hk.page q (by omega), fun q hq _ => hnext q hq, fun _ => hlist⟩
  cases prev with
  | none => exact hlist
  | some q => exact hnext q (hprev q rfl)

/-- What a loop does behind the first run is done behind the first run. -/
theorem leads_walk (hlo : lo ≤ r.start) (hl : Leads h (h.link prev) (r :: rs))
    (hl' : Leads h' (h'.link (some r.start)) rs') (hk : Kept (some r.start) (r.stop + 1) h h') :
    Leads h' (h'.link prev) (r :: rs') ∧ Kept prev lo h h' := by
  have hstop : r.start < r.stop + 1 := by
    unfold stop
    omega
  rcases kept_link h h' prev r.start lo hprev hlo (by omega) hk with ⟨hlink, hkept⟩
  rcases hl with ⟨hp, hpage, _⟩
  rw [hp] at hpage
  rw [hlink, hp]
  exact ⟨⟨rfl, (hk.page r.start hstop).trans hpage, hl'⟩, hkept⟩

end Links

section Loops

variable {h : PageHeap} {prev : Option Nat} {fuel lo : Nat} {rs : List Span}

/-- A loop stands at a link that leads to separated runs, all behind it and all in the address
    space, and it is not given up before their end. -/
structure At (h : PageHeap) (prev : Option Nat) (lo fuel : Nat) (rs : List Span) : Prop where
  leads : Leads h (h.link prev) rs
  sep : SepFrom lo rs
  pos : 0 < lo
  before : LinkBefore prev lo
  space : ∀ r ∈ rs, r.stop < pageSpace
  fuel : rs.length < fuel

theorem at_succ (hat : At h prev lo fuel rs) : ∃ n, fuel = n + 1 :=
  Nat.exists_eq_add_one.mpr (Nat.zero_lt_of_lt hat.fuel)

theorem at_next {fuel : Nat} {rs : List Span} {r : Span} (hat : At h prev lo (fuel + 1) (r :: rs)) :
    h.link prev = r.start ∧ r.start ≠ 0 ∧ h.page r.start = r.count ∧
      At h (some r.start) (r.stop + 1) fuel rs := by
  rcases hat with ⟨⟨hlink, hpage, hrest⟩, ⟨hlo, hpos, hsep⟩, hlopos, _, hspace, hfuel⟩
  rw [hlink] at hpage hrest
  rw [length_cons] at hfuel
  refine ⟨hlink, by omega, hpage, hrest, hsep, Nat.succ_pos _, ?_, fun c hc => ?_, by omega⟩
  · refine linkBefore_some r.start (r.stop + 1) ?_
    unfold stop
    omega
  · exact hspace c (mem_cons_of_mem r hc)

/-- Taking pages is `firstFit`. -/
theorem allocLoop_spec (n : Nat) (hat : At h prev lo fuel rs) :
    (firstFit n rs = none → allocLoop h n fuel prev = some (h, 0)) ∧
      ∀ a rs', firstFit n rs = some (a, rs') → ∃ h', allocLoop h n fuel prev = some (h', a) ∧
        Leads h' (h'.link prev) rs' ∧ Kept prev lo h h' := by
  -- The induction is on the runs, with the link and the memory before it going along.
  induction rs generalizing prev lo fuel with
  | nil =>
    have hlink : h.link prev = 0 := hat.leads
    rcases at_succ hat with ⟨fuel, rfl⟩
    refine ⟨fun _ => ?_, fun a rs' hfit => ?_⟩
    · simp only [allocLoop, hlink, if_pos]
    · exact nomatch hfit
  | cons r rs ih =>
    rcases at_succ hat with ⟨fuel, rfl⟩
    rcases at_next hat with ⟨hlink, hne, hpage, hnext⟩
    rcases hat.sep with ⟨hlo, hpos, hsep⟩
    have hspace := hat.space r mem_cons_self
    rw [allocLoop, hlink, if_neg hne, hpage]
    by_cases hmore : n < r.count
    · -- The run is split, and its rear part stays on the list.
      have hfit : firstFit n (r :: rs) = some (r.start, ⟨r.start + n, r.count - n⟩ :: rs) := by
        rw [firstFit, if_pos hmore]
      rw [hfit, if_pos hmore, pageAdd_eq (by unfold stop at hspace; omega)]
      refine ⟨fun hnone => (nomatch hnone), fun a rs' hsome => ?_⟩
      rw [Option.some.injEq, Prod.mk.injEq] at hsome
      rw [← hsome.1, ← hsome.2]
      refine ⟨_, rfl, leads_put hat.before (by omega) (sepFrom_mono ?_ hsep) hnext.leads⟩
      unfold stop
      omega
    rw [if_neg hmore]
    by_cases heq : r.count = n
    · have hfit : firstFit n (r :: rs) = some (r.start, rs) := by
        rw [firstFit, if_neg hmore, if_pos heq]
      rw [hfit, if_pos heq]
      refine ⟨fun hnone => (nomatch hnone), fun a rs' hsome => ?_⟩
      rw [Option.some.injEq, Prod.mk.injEq] at hsome
      rw [← hsome.1, ← hsome.2]
      refine ⟨_, rfl, ?_, kept_setLink⟩
      rw [link_setLink]
      refine leads_setLink ?_ hsep hnext.leads
      refine linkBefore_mono prev lo ?_ hat.before
      unfold stop
      omega
    · -- The run is too short, and the loop goes on.
      rcases ih hnext with ⟨hnone, hsome⟩
      rw [firstFit, if_neg hmore, if_neg heq, if_neg heq]
      refine ⟨fun hfit => hnone (Option.map_eq_none_iff.mp hfit), fun a rs' hfit => ?_⟩
      rcases Option.map_eq_some_iff.mp hfit with ⟨⟨a', rs''⟩, hfit', hr⟩
      rw [Prod.mk.injEq] at hr
      rcases hsome a' rs'' hfit' with ⟨h', hloop, hl', hk⟩
      rw [← hr.1, ← hr.2]
      refine ⟨h', hloop, ?_⟩
      exact leads_walk h h' prev lo r rs hat.before hlo hat.leads hl' hk

/-- Joining a run with the next one is `join`. -/
theorem joinNext_spec (s : Span) (hpage : h.page s.start = s.count)
    (hl : Leads h (h.next s.start) rs) (hpos : 0 < s.count) (hsep : SepFrom s.stop rs)
    (hspace : s.stop < pageSpace) :
    Leads (joinNext h s.start) s.start (join s rs) ∧
      Kept (some s.start) s.start h (joinNext h s.start) := by
  have hadd : pageAdd s.start s.count = s.stop := pageAdd_eq hspace
  unfold joinNext
  rw [hpage, hadd]
  cases rs with
  | nil =>
    have hend : h.next s.start = 0 := hl
    have hne : s.stop ≠ h.next s.start := by
      unfold stop
      omega
    rw [if_neg hne]
    exact ⟨⟨rfl, hpage, hl⟩, kept_refl h _ _⟩
  | cons c cs =>
    rcases hl with ⟨hc, hcpage, hcs⟩
    rcases hsep with ⟨hbehind, hcpos, hsep⟩
    by_cases htouch : s.stop = c.start
    · have heq : s.stop = h.next s.start := htouch.trans hc.symm
      have hne : c.start ≠ s.start := by
        rw [← htouch]
        unfold stop
        omega
      rw [hc] at hcpage hcs
      rw [if_pos heq, join, if_pos htouch, hc]
      dsimp only
      rw [hcpage]
      refine ⟨⟨rfl, ?_, ?_⟩, fun p hp => ?_, fun p hp _ => ?_, fun _ => rfl⟩
      · exact update_self s.start _ h.page
      · -- The link now leads past the run that was joined.
        dsimp only
        rw [update_self]
        refine leads_congr h _ _ cs (fun d hd => ?_) hcs
        have hbeyond := (sepFrom_le d hsep hd).1
        have hds : d.start ≠ s.start := by
          unfold stop at hbeyond hbehind
          omega
        exact ⟨update_of_ne hds _ h.page, update_of_ne hds _ h.next⟩
      · have hps : p ≠ s.start := by omega
        exact update_of_ne hps _ h.page
      · have hps : p ≠ s.start := by omega
        exact update_of_ne hps _ h.next
    · have hne : s.stop ≠ h.next s.start := by
        rw [hc]
        exact htouch
      rw [if_neg hne, join, if_neg htouch]
      exact ⟨⟨rfl, hpage, hc, hcpage, hcs⟩, kept_refl h _ _⟩

/-- Giving pages back is `insert`. -/
theorem freeLoop_spec (n : Span) (hpos : 0 < n.count) (hlo : lo ≤ n.start)
    (hstop : n.stop < pageSpace) (hapart : ApartFrom n rs) (hat : At h prev lo fuel rs) :
    ∃ h', freeLoop h n.start n.count fuel prev = some h' ∧
      Leads h' (h'.link prev) (Span.insert n rs) ∧ Kept prev lo h h' := by
  have hadd : pageAdd n.start n.count = n.stop := pageAdd_eq hstop
  induction rs generalizing prev lo fuel with
  | nil =>
    have hlink : h.link prev = 0 := hat.leads
    rcases at_succ hat with ⟨fuel, rfl⟩
    rw [freeLoop, hlink, if_pos rfl]
    exact ⟨_, rfl, leads_put hat.before hlo trivial rfl⟩
  | cons b bs ih =>
    rcases at_succ hat with ⟨fuel, rfl⟩
    rcases at_next hat with ⟨hlink, hne, hpage, hnext⟩
    rcases hat.sep with ⟨hblo, hbpos, hsep⟩
    have hbadd : pageAdd b.start b.count = b.stop :=
      pageAdd_eq (hat.space b mem_cons_self)
    have hab : n.stop ≤ b.start ∨ b.stop ≤ n.start := hapart b mem_cons_self
    have hapart' : ApartFrom n bs := fun c hc => hapart c (mem_cons_of_mem b hc)
    have hcheck : n.start < b.start ∨ b.stop ≤ n.start := by
      have hfront : n.start < n.stop := Nat.lt_add_of_pos_right hpos
      omega
    have hloop : freeLoop h n.start n.count (fuel + 1) prev =
        if b.stop = n.start then
          some (joinNext { h with page := update h.page b.start (b.count + n.count) } b.start)
        else if b.start = n.stop then
          some ((h.setHead n.start (h.next b.start) (b.count + n.count)).setLink prev n.start)
        else if n.stop < b.start then
          some ((h.setHead n.start b.start n.count).setLink prev n.start)
        else freeLoop h n.start n.count fuel (some b.start) := by
      rw [freeLoop, hlink, if_neg hne, hpage, hbadd, hadd,
        (rtAssert_eq_some (0 < b.count) ()).mpr hbpos,
        (rtAssert_eq_some _ ()).mpr hcheck]
      rfl
    rw [hloop]
    rcases insert_cases n b with hleft | ⟨hleft, hright⟩ | ⟨hleft, hbefore⟩ | ⟨hleft, hlater⟩
    · -- The run grows at its rear, and may then reach the next one.
      rw [if_pos hleft, insert_left n b bs hleft]
      have hgrown : (⟨b.start, b.count + n.count⟩ : Span).stop = n.stop := by
        unfold stop at hleft ⊢
        dsimp only
        omega
      have hrest : Leads
          { h with page := update h.page b.start (b.count + n.count) }
          (h.next b.start) bs := by
        refine leads_congr h _ _ bs (fun c hc => ⟨?_, rfl⟩) hnext.leads
        have hbeyond := (sepFrom_le c hsep hc).1
        have hcb : c.start ≠ b.start := by
          unfold stop at hbeyond
          omega
        exact update_of_ne hcb _ h.page
      rcases joinNext_spec
          ⟨b.start, b.count + n.count⟩ (update_self b.start _ h.page) hrest
          (Nat.add_pos_left hbpos _)
          (by rw [hgrown]; exact sepFrom_behind n bs b.stop hapart' hleft hsep)
          (by rw [hgrown]; exact hstop) with ⟨hjoin, hkept⟩
      have hgrow : Kept (some b.start) b.start h
          { h with page := update h.page b.start (b.count + n.count) } := by
        refine ⟨fun p hp => ?_, fun _ _ _ => rfl, fun _ => rfl⟩
        have hpb : p ≠ b.start := by omega
        exact update_of_ne hpb _ h.page
      rcases kept_link h _ prev b.start lo hat.before hblo hblo
          (kept_trans h _ _ _ hgrow hkept) with ⟨hlink', hkept'⟩
      refine ⟨_, rfl, ?_, hkept'⟩
      rw [hlink', hlink]
      exact hjoin
    · rw [if_neg hleft, if_pos hright, insert_right n b bs hleft hright]
      refine ⟨_, rfl, leads_put hat.before hlo (sepFrom_mono ?_ hsep) hnext.leads⟩
      unfold stop at *
      omega
    · rw [if_neg hleft, if_neg (by omega), if_pos hbefore, insert_before n b bs hleft hbefore]
      refine ⟨_, rfl, leads_put hat.before hlo ⟨?_, hbpos, hsep⟩ ⟨rfl, hpage, hnext.leads⟩⟩
      unfold stop at hbefore
      omega
    · rw [if_neg hleft, if_neg (by omega), if_neg (by omega), insert_later n b bs hleft hlater]
      rcases ih (by omega) hapart' hnext with ⟨h', hrest, hl', hk⟩
      refine ⟨h', hrest, ?_⟩
      exact leads_walk h h' prev lo b bs hat.before hblo hat.leads hl' hk

end Loops

section System

variable {base total : Nat} {s : PageSys} {s' : PageSys} {free : List Span} {h h' : PageHeap}
  {r : Span}

/-- The page is in the region and not taken. -/
def PageFree (base total : Nat) (s : PageSys) (p : Nat) : Prop :=
  base ≤ p ∧ p < base + total ∧ ¬ Covers s.runs p

/-- The list leads to separated runs, which are the free pages. The runs that are taken are
    apart from each other and in the region. -/
structure PageInv (base total : Nat) (s : PageSys) (free : List Span) : Prop where
  leads : Leads s.h s.h.list free
  sep : SepFrom base free
  cover : ∀ p, Covers free p ↔ PageFree base total s p
  taken : ∀ p, Covers s.runs p → base ≤ p ∧ p < base + total
  apart : s.runs.Pairwise Apart
  full : ∀ r ∈ s.runs, 0 < r.count

/-- What is returned for a number of pages: the start of the lowest maximal stretch of free pages
    that has as many, or nothing if there is none. -/
def AllocOk (base total : Nat) (s : PageSys) (n : Nat) : Prop :=
  ∃ h' b, rtPageAlloc s.h n = some (h', b) ∧
    (b = 0 ↔ ∀ r, MaxSpan (PageFree base total s) r → r.count < n) ∧
    (b ≠ 0 → ∃ r, MaxSpan (PageFree base total s) r ∧ r.start = b ∧ n ≤ r.count ∧
      ∀ t, MaxSpan (PageFree base total s) t → n ≤ t.count → r.start ≤ t.start)

/-- The list leads to runs that are not empty, come in rising order and have gaps between them.
    They and the runs that are taken share out the region. Any number of pages can be asked for,
    and any run that is taken can be given back. -/
structure PageOk (base total : Nat) (s : PageSys) : Prop where
  list : ∃ free, Leads s.h s.h.list free ∧ (∀ r ∈ free, 0 < r.count) ∧
    free.Pairwise (fun r t => r.stop < t.start) ∧
    (∀ p, Covers free p ∨ Covers s.runs p ↔ base ≤ p ∧ p < base + total) ∧
    ∀ p, ¬ (Covers free p ∧ Covers s.runs p)
  taken : s.runs.Pairwise Apart
  alloc : ∀ n, 0 < n → AllocOk base total s n
  free : ∀ r ∈ s.runs, (rtPageFree s.h r.start r.count).isSome

theorem span_bounds {base total : Nat} (hpos : 0 < r.count)
    (hin : ∀ p, r.Has p → base ≤ p ∧ p < base + total) :
    base ≤ r.start ∧ r.stop ≤ base + total := by
  have hfirst := hin r.start ⟨Nat.le_refl _, Nat.lt_add_of_pos_right hpos⟩
  have hlast := hin (r.stop - 1) (by unfold Has stop; omega)
  omega

theorem rtPageInit_spec {base total : Nat} (h : PageHeap) (hbase : 0 < base) (htotal : 0 < total)
    (hspace : base + total < pageSpace) :
    ∃ h', rtPageInit h base total = some h' ∧
      PageInv base total { h := h', runs := [] } [⟨base, total⟩] := by
  have hat : At { h with list := 0 } none base pageSpace [] := by
    refine ⟨rfl, trivial, hbase, fun q hq => ?_, nofun, ?_⟩
    · exact nomatch hq
    · rw [length_nil]
      omega
  rcases freeLoop_spec ⟨base, total⟩ htotal (Nat.le_refl _) hspace
    (fun _ hmem => absurd hmem not_mem_nil) hat with ⟨h', hloop, hleads, _⟩
  refine ⟨h', ?_, hleads, ⟨Nat.le_refl _, htotal, trivial⟩, fun p => ?_, fun p hp => ?_,
    List.Pairwise.nil, nofun⟩
  · unfold rtPageInit rtPageFree
    rw [(rtAssert_eq_some (base ≠ 0) ()).mpr (by omega),
      (rtAssert_eq_some (total ≠ 0) ()).mpr (by omega)]
    exact hloop
  · rw [covers_cons]
    refine ⟨fun hp => ?_, fun hp => .inl ⟨hp.1, hp.2.1⟩⟩
    rcases hp with hp | hp
    · exact ⟨hp.1, hp.2, covers_nil p⟩
    · exact absurd hp (covers_nil p)
  · exact absurd hp (covers_nil p)

variable (hinv : PageInv base total s free)
include hinv

theorem pageInv_bounds (hr : r ∈ free) : base ≤ r.start ∧ r.stop ≤ base + total := by
  refine span_bounds (sepFrom_le r hinv.sep hr).2 fun p hp => ?_
  have hfree := (hinv.cover p).mp ⟨r, hr, hp⟩
  exact ⟨hfree.1, hfree.2.1⟩

theorem pageInv_taken (hr : r ∈ s.runs) :
    base ≤ r.start ∧ r.stop ≤ base + total ∧ 0 < r.count ∧ ApartFrom r free := by
  have hpos := hinv.full r hr
  rcases span_bounds hpos fun p hp => hinv.taken p ⟨r, hr, hp⟩ with ⟨hlow, hhigh⟩
  refine ⟨hlow, hhigh, hpos, fun b hb => ?_⟩
  refine apart_of_disjoint r b hpos (sepFrom_le b hinv.sep hb).2 fun p hp hbp => ?_
  exact ((hinv.cover p).mp ⟨b, hb, hbp⟩).2.2 ⟨r, hr, hp⟩

variable (hspace : base + total < pageSpace)
include hspace

theorem pageInv_at (hbase : 0 < base) : At s.h none base pageSpace free := by
  have hin : ∀ r ∈ free, r.stop < pageSpace := by
    intro r hr
    have := (pageInv_bounds hinv hr).2
    omega
  refine ⟨hinv.leads, hinv.sep, hbase, ?_, hin, ?_⟩
  · intro q hq
    exact nomatch hq
  · have := sepFrom_length hinv.sep (by omega) hin
    omega

theorem rtPageAlloc_spec (n : Nat) (hn : 0 < n) (hbase : 0 < base) :
    (firstFit n free = none → rtPageAlloc s.h n = some (s.h, 0)) ∧
      ∀ a free', firstFit n free = some (a, free') →
        ∃ h', rtPageAlloc s.h n = some (h', a) ∧ Leads h' h'.list free' := by
  have hat := pageInv_at hinv hspace hbase
  rcases allocLoop_spec n hat with ⟨hnone, hsome⟩
  have hcall : rtPageAlloc s.h n = allocLoop s.h n pageSpace none := if_neg (by omega)
  rw [hcall]
  refine ⟨hnone, fun a free' hfit => ?_⟩
  rcases hsome a free' hfit with ⟨h', hloop, hleads, _⟩
  exact ⟨h', hloop, hleads⟩

theorem rtPageFree_spec (hr : r ∈ s.runs) (hbase : 0 < base) :
    ∃ h', rtPageFree s.h r.start r.count = some h' ∧ Leads h' h'.list (Span.insert r free) := by
  have hat := pageInv_at hinv hspace hbase
  rcases pageInv_taken hinv hr with ⟨hlow, hhigh, hpos, hapart⟩
  rcases freeLoop_spec r hpos hlow (by omega) hapart hat with
    ⟨h', hloop, hleads, _⟩
  refine ⟨h', ?_, hleads⟩
  unfold rtPageFree
  rw [(rtAssert_eq_some (r.start ≠ 0) ()).mpr (by omega),
    (rtAssert_eq_some (r.count ≠ 0) ()).mpr (by omega)]
  exact hloop

theorem pageInv_alloc {n : Nat} (hbase : 0 < base) (hstep : pageStep s (.alloc n) = some s') :
    ∃ free', PageInv base total s' free' := by
  simp only [pageStep, bind_iff, Option.pure_def] at hstep
  rcases hstep with ⟨⟨h', b⟩, hcall, hs'⟩
  by_cases hn : n = 0
  · have hzero : rtPageAlloc s.h n = some (s.h, 0) := if_pos hn
    rw [hzero, Option.some.injEq, Prod.mk.injEq] at hcall
    rw [← hcall.1, ← hcall.2, if_pos rfl] at hs'
    cases hs'
    exact ⟨free, hinv⟩
  rcases rtPageAlloc_spec hinv hspace n (by omega) hbase with ⟨hnone, hsome⟩
  cases hfit : firstFit n free with
  | none =>
    rw [hnone hfit, Option.some.injEq, Prod.mk.injEq] at hcall
    rw [← hcall.1, ← hcall.2, if_pos rfl] at hs'
    cases hs'
    exact ⟨free, hinv⟩
  | some found =>
    rcases found with ⟨a, free'⟩
    rcases firstFit_some n free (by omega) hinv.sep hfit with
      ⟨hsep, ⟨r, hr, hstart, _⟩, hcov⟩
    rcases hsome a free' hfit with ⟨h'', hcall', hleads⟩
    rw [hcall', Option.some.injEq, Prod.mk.injEq] at hcall
    have hne : a ≠ 0 := by
      have := (pageInv_bounds hinv hr).1
      omega
    rw [← hcall.1, ← hcall.2, if_neg hne] at hs'
    cases hs'
    -- The pages that are taken were free, so no other run has them.
    have hfree : ∀ p, (⟨a, n⟩ : Span).Has p → PageFree base total s p :=
      fun p hp => (hinv.cover p).mp ((hcov p).1.mpr (.inl hp))
    refine ⟨free', hleads, hsep, fun p => ?_, fun p hp => ?_, ?_, fun r hr => ?_⟩
    · unfold PageFree
      rw [covers_cons, not_or]
      refine ⟨fun hp => ?_, fun hp => ?_⟩
      · rcases (hinv.cover p).mp ((hcov p).1.mpr (.inr hp)) with ⟨hlow, hhigh, htaken⟩
        exact ⟨hlow, hhigh, fun hhas => (hcov p).2 hhas hp, htaken⟩
      · have hwas := (hcov p).1.mp ((hinv.cover p).mpr ⟨hp.1, hp.2.1, hp.2.2.2⟩)
        exact Or.resolve_left hwas hp.2.2.1
    · rcases (covers_cons _ _ p).mp hp with hp | hp
      · exact ⟨(hfree p hp).1, (hfree p hp).2.1⟩
      · exact hinv.taken p hp
    · refine List.Pairwise.cons (fun t ht => ?_) hinv.apart
      refine apart_of_disjoint _ t (Nat.pos_of_ne_zero hn) (hinv.full t ht) fun p hp htp => ?_
      exact (hfree p hp).2.2 ⟨t, ht, htp⟩
    · rcases mem_cons.mp hr with hr | hr
      · rw [hr]
        exact Nat.pos_of_ne_zero hn
      · exact hinv.full r hr

theorem pageInv_free (hbase : 0 < base) (hstep : pageStep s (.free r) = some s') :
    ∃ free', PageInv base total s' free' := by
  simp only [pageStep, bind_iff, Option.pure_def, rtAssert_eq_some] at hstep
  rcases hstep with ⟨_, hr, h', hcall, hs'⟩
  rcases rtPageFree_spec hinv hspace hr hbase with ⟨h'', hcall', hleads⟩
  rw [hcall', Option.some.injEq] at hcall
  rw [← hcall] at hs'
  cases hs'
  rcases pageInv_taken hinv hr with ⟨hlow, _, hpos, hapart⟩
  have herase : ∀ p, _ := fun p => covers_erase r p hinv.apart hr
  refine ⟨Span.insert r free, hleads, sepFrom_insert r free base hpos hlow hapart hinv.sep,
    fun p => ?_, fun p hp => ?_, (herase 0).1, fun t ht => ?_⟩
  · rcases herase p with ⟨_, hcov, hdis⟩
    rw [covers_insert, hinv.cover p]
    unfold PageFree
    refine ⟨fun hp => ?_, fun hp => ?_⟩
    · rcases hp with hp | hp
      · have hin := hinv.taken p (hcov.mpr (.inl hp))
        exact ⟨hin.1, hin.2, hdis hp⟩
      · exact ⟨hp.1, hp.2.1, fun hc => hp.2.2 (hcov.mpr (.inr hc))⟩
    by_cases hhas : r.Has p
    · exact .inl hhas
    refine .inr ⟨hp.1, hp.2.1, fun hc => ?_⟩
    rcases hcov.mp hc with hc | hc
    · exact hhas hc
    · exact hp.2.2 hc
  · exact hinv.taken p ((herase p).2.1.mpr (.inr hp))
  · exact hinv.full t (mem_of_mem_erase ht)

omit hspace

/-- What an owner writes is not in a header that is in use. -/
theorem pageInv_write {p next page : Nat}
    (hstep : pageStep s (.write p next page) = some s') : PageInv base total s' free := by
  simp only [pageStep, bind_iff, pure_iff, rtAssert_eq_some] at hstep
  rcases hstep with ⟨_, ⟨r, hr, hhas⟩, rfl⟩
  refine { hinv with leads := ?_ }
  refine leads_setHead s.h s.h.list p (fun b hb heq => ?_) hinv.leads
  have hcov : Covers free p := by
    rw [← heq]
    refine ⟨b, hb, Nat.le_refl _, ?_⟩
    have := (sepFrom_le b hinv.sep hb).2
    unfold stop
    omega
  exact ((hinv.cover p).mp hcov).2.2 ⟨r, hr, hhas⟩

omit hinv in
theorem pageInv_step {base total : Nat} {a : PageAction} (hbase : 0 < base)
    (hspace : base + total < pageSpace)
    (hinv : ∃ free, PageInv base total s free) (hstep : pageStep s a = some s') :
    ∃ free, PageInv base total s' free := by
  rcases hinv with ⟨free, hinv⟩
  cases a with
  | alloc n => exact pageInv_alloc hinv hspace hbase hstep
  | free r => exact pageInv_free hinv hspace hbase hstep
  | write p next page => exact ⟨free, pageInv_write hinv hstep⟩

theorem pageOk_of_inv (hbase : 0 < base) (hspace : base + total < pageSpace) :
    PageOk base total s := by
  have hset : Covers free = PageFree base total s := funext fun p => propext (hinv.cover p)
  have hmax : ∀ r, MaxSpan (PageFree base total s) r ↔ r ∈ free := by
    intro r
    rw [← hset]
    exact maxSpan_iff r hinv.sep
  refine ⟨⟨free, hinv.leads, fun r hr => (sepFrom_le r hinv.sep hr).2,
    sepFrom_pairwise hinv.sep, fun p => ?_, fun p hp => ?_⟩, hinv.apart,
    fun n hn => ?_, fun r hr => ?_⟩
  · rw [hinv.cover p]
    refine ⟨fun hp => ?_, fun hp => ?_⟩
    · rcases hp with hp | hp
      · exact ⟨hp.1, hp.2.1⟩
      · exact hinv.taken p hp
    · by_cases htaken : Covers s.runs p
      · exact .inr htaken
      · exact .inl ⟨hp.1, hp.2, htaken⟩
  · exact ((hinv.cover p).mp hp.1).2.2 hp.2
  · rcases rtPageAlloc_spec hinv hspace n hn hbase with ⟨hnone, hsome⟩
    unfold AllocOk
    simp only [hmax]
    cases hfit : firstFit n free with
    | none =>
      refine ⟨s.h, 0, hnone hfit, ?_, fun hne => absurd rfl hne⟩
      exact ⟨fun _ => (firstFit_none n free).mp hfit, fun _ => rfl⟩
    | some found =>
      rcases found with ⟨a, free'⟩
      rcases firstFit_some n free hn hinv.sep hfit with
        ⟨_, ⟨r, hr, hstart, henough, hlowest⟩, _⟩
      rcases hsome a free' hfit with ⟨h', hcall, _⟩
      have hne : a ≠ 0 := by
        have := (pageInv_bounds hinv hr).1
        omega
      refine ⟨h', a, hcall, ⟨fun hzero => absurd hzero hne, fun hall => ?_⟩, fun _ => ?_⟩
      · have := hall r hr
        omega
      · refine ⟨r, hr, hstart, henough, fun t ht htn => ?_⟩
        rw [hstart]
        exact hlowest t ht htn
  · rcases rtPageFree_spec hinv hspace hr hbase with ⟨h', hcall, _⟩
    rw [hcall]
    rfl

theorem page_reachable (hbase : 0 < base) (hspace : base + total < pageSpace)
    (hreach : Reachable pageStep s s') : PageOk base total s' := by
  rcases reachable_inv (fun s => ∃ free, PageInv base total s free)
      (pageInv_step hbase hspace) ⟨free, hinv⟩ hreach with ⟨free', hinv'⟩
  exact pageOk_of_inv hinv' hbase hspace

omit hinv

/-- For every region of pages, whatever is in memory before, the set-up succeeds and the
    allocator keeps its promise in every state it is brought to. -/
theorem page_runs_kept (base total : Nat) (h : PageHeap) (hbase : 0 < base) (htotal : 0 < total)
    (hspace : base + total < pageSpace) :
    ∃ h', rtPageInit h base total = some h' ∧
      ∀ s, Reachable pageStep { h := h', runs := [] } s → PageOk base total s := by
  rcases rtPageInit_spec h hbase htotal hspace with ⟨h', hinit, hinv⟩
  exact ⟨h', hinit, fun s hs => page_reachable hinv hbase hspace hs⟩

/-- Four pages from page 8 on: three runs are taken, the outer two given back, and then the
    one between them, so that all are joined again. -/
theorem page_runs_kept_four :
    (∃ h', rtPageInit ⟨0, fun _ => 0, fun _ => 0⟩ 8 4 = some h' ∧
      ∀ s, Reachable pageStep { h := h', runs := [] } s → PageOk 8 4 s) ∧
    ((rtPageInit ⟨0, fun _ => 0, fun _ => 0⟩ 8 4).bind fun h' =>
      (exec pageStep { h := h', runs := [] }
        [.alloc 1, .alloc 1, .alloc 1, .free ⟨8, 1⟩, .free ⟨10, 1⟩, .free ⟨9, 1⟩]).map fun s =>
          (s.h.list, s.h.page 8, s.h.next 8, s.runs)) = some (8, 4, 0, []) :=
  ⟨page_runs_kept 8 4 _ (by decide) (by decide) (by decide), by decide +kernel⟩

theorem heapRegion_space {beginAddr endAddr : Nat} (haddr : endAddr < 2 ^ 32)
    (horder : heapStart beginAddr < heapEnd endAddr) :
    heapStart beginAddr + (heapEnd endAddr - heapStart beginAddr) < pageSpace := by
  unfold heapEnd pageSize pageSpace at *
  omega

/-- The slab heap is set up with such a region, unless it starts at address 0. Its first pages
    are taken for the table `memusage`, and the promise holds from then on. -/
theorem slab_pages_kept {beginAddr endAddr : Nat} (haddr : endAddr < 2 ^ 32)
    (horder : heapStart beginAddr < heapEnd endAddr) (hzero : 0 < heapStart beginAddr) :
    ∃ s, slabHeapInit h beginAddr endAddr = some s ∧
      s.runs = [⟨heapStart beginAddr,
        (4 * (heapEnd endAddr - heapStart beginAddr) + 4095) / 4096⟩] ∧
      ∀ s', Reachable pageStep s s' →
        PageOk (heapStart beginAddr) (heapEnd endAddr - heapStart beginAddr) s' := by
  have hspace := heapRegion_space haddr horder
  rcases rtPageInit_spec h hzero (Nat.sub_pos_of_lt horder) hspace with ⟨h', hpages, hinv⟩
  generalize htotal : heapEnd endAddr - heapStart beginAddr = total at *
  have hcount : (total * 4 + (pageSize - 1)) / pageSize = (4 * total + 4095) / 4096 := by
    rw [Nat.mul_comm]
    rfl
  -- The table has no more pages than the region, so it is cut from the one free run.
  rcases rtPageAlloc_spec hinv hspace ((4 * total + 4095) / 4096) (by omega) hzero with ⟨_, hsome⟩
  have hfit : ∃ free', firstFit ((4 * total + 4095) / 4096) [⟨heapStart beginAddr, total⟩] =
      some (heapStart beginAddr, free') := by
    by_cases hless : (4 * total + 4095) / 4096 < total
    · exact ⟨_, if_pos hless⟩
    · exact ⟨[], (if_neg hless).trans (if_pos (by dsimp only; omega))⟩
  rcases hfit with ⟨free', hfit⟩
  rcases hsome _ _ hfit with ⟨h'', hcall, _⟩
  have hstep : pageStep ⟨h', []⟩ (.alloc ((4 * total + 4095) / 4096)) =
      some ⟨h'', [⟨heapStart beginAddr, (4 * total + 4095) / 4096⟩]⟩ := by
    rw [pageStep, hcall]
    exact if_neg (by omega)
  rcases pageInv_alloc hinv hspace hzero hstep with ⟨_, hinv'⟩
  refine ⟨_, ?_, rfl, fun s' => page_reachable hinv' hzero hspace⟩
  rw [slabHeapInit, if_neg (by omega), htotal]
  refine (bind_iff _ _ _).mpr ⟨h', hpages, ?_⟩
  rw [hcount]
  exact hstep

/-- The addresses around four pages, of which the first is the table. -/
theorem slab_pages_kept_four :
    ∃ s, slabHeapInit ⟨0, fun _ => 0, fun _ => 0⟩ 0x7fff 0xcfff = some s ∧ s.runs = [⟨8, 1⟩] ∧
      ∀ s', Reachable pageStep s s' → PageOk 8 4 s' :=
  slab_pages_kept (by decide) (by decide) (by decide)

end System

end Honeycomb
