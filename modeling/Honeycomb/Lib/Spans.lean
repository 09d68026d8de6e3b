import Mathlib.Algebra.GroupWithZero.Nat
import Mathlib.Data.List.Pairwise

/-!
# Spans of Numbers

A span is a stretch of consecutive numbers, and a list of spans stands for a set of numbers.
The list is separated if the spans come in rising order and there is a gap between any two of
them. Then they are the maximal stretches of the set, so what can be said of the list can be
said of the set.

Two operations keep a list separated. `insert` adds a span that is apart from the others and
joins it with its neighbours. `firstFit` takes numbers from the start of the first span that has
enough of them.

## Main definitions

* `Span`, `Has`: A stretch of numbers.
* `Covers`: A number is in one of the spans.
* `Apart`: Two spans have no number in common.
* `SepFrom`: The spans are separated, from some number on.
* `insert`, `firstFit`: Adding and taking.
* `MaxSpan`: A maximal stretch of a set.

## Theorems

* `maxSpan_iff`: The spans of a separated list are the maximal stretches.
* `covers_insert`, `sepFrom_insert`: Adding a span.
* `firstFit_none`, `firstFit_some`: Taking numbers.
-/

namespace Honeycomb

open List

/-- A stretch of `count` numbers. -/
structure Span where
  start : Nat
  count : Nat
  deriving DecidableEq, Repr

namespace Span

/-- The first number behind the span. -/
def stop (s : Span) : Nat :=
  s.start + s.count

/-- The number is in the span. -/
def Has (s : Span) (p : Nat) : Prop :=
  s.start ≤ p ∧ p < s.stop

/-- The number is in one of the spans. -/
def Covers (ss : List Span) (p : Nat) : Prop :=
  ∃ s ∈ ss, s.Has p

/-- The spans have no number in common, one being before the other. -/
def Apart (s t : Span) : Prop :=
  s.stop ≤ t.start ∨ t.stop ≤ s.start

/-- The spans are not empty, start at `lo` or later, and have gaps between them. -/
def SepFrom : Nat → List Span → Prop
  | _, [] => True
  | lo, s :: ss => lo ≤ s.start ∧ 0 < s.count ∧ SepFrom (s.stop + 1) ss

/-- Put a span in front, and join it with the first one if they touch. -/
def join (s : Span) : List Span → List Span
  | [] => [s]
  | c :: cs =>
    if s.stop = c.start then ⟨s.start, s.count + c.count⟩ :: cs else s :: c :: cs

/-- Add a span, and join it with the spans it touches. -/
def insert (n : Span) : List Span → List Span
  | [] => [n]
  | b :: bs =>
    if b.stop = n.start then join ⟨b.start, b.count + n.count⟩ bs
    else if b.start = n.stop then ⟨n.start, b.count + n.count⟩ :: bs
    else if n.stop < b.start then n :: b :: bs
    else b :: insert n bs

/-- Take `n` numbers from the first span that has as many. -/
def firstFit (n : Nat) : List Span → Option (Nat × List Span)
  | [] => none
  | b :: bs =>
    if n < b.count then some (b.start, ⟨b.start + n, b.count - n⟩ :: bs)
    else if b.count = n then some (b.start, bs)
    else (firstFit n bs).map fun r => (r.1, b :: r.2)

/-- A maximal stretch of the numbers with some property. -/
structure MaxSpan (P : Nat → Prop) (s : Span) : Prop where
  inside : ∀ p, s.Has p → P p
  pos : 0 < s.count
  before : ∀ p, p + 1 = s.start → ¬ P p
  behind : ¬ P s.stop

section Covers

variable (s t b : Span) {ss : List Span} (bs : List Span) (p : Nat) {lo lo' : Nat}

@[simp]
theorem covers_nil : ¬ Covers [] p := by
  intro h
  rcases h with ⟨s, hs, _⟩
  exact absurd hs not_mem_nil

@[simp]
theorem covers_cons (ss : List Span) (p : Nat) : Covers (s :: ss) p ↔ s.Has p ∨ Covers ss p := by
  simp only [Covers, mem_cons, exists_eq_or_imp]

/-- Two spans that are not empty and have no number in common are apart. -/
theorem apart_of_disjoint (hs : 0 < s.count) (ht : 0 < t.count)
    (h : ∀ p, s.Has p → ¬ t.Has p) : s.Apart t := by
  by_contra hc
  unfold Apart at hc
  -- The later one of the two starts is in both.
  refine h (max s.start t.start) ?_ ?_
  all_goals
    unfold Has stop at *
    omega

theorem sepFrom_mono (hlo : lo' ≤ lo) (h : SepFrom lo ss) : SepFrom lo' ss := by
  cases ss with
  | nil => trivial
  | cons s ss => exact ⟨Nat.le_trans hlo h.1, h.2⟩

variable (h : SepFrom lo ss)
include h

theorem sepFrom_le (hs : s ∈ ss) : lo ≤ s.start ∧ 0 < s.count := by
  induction ss generalizing lo with
  | nil => exact absurd hs not_mem_nil
  | cons b bs ih =>
    rcases mem_cons.mp hs with hs | hs
    · rw [hs]
      exact ⟨h.1, h.2.1⟩
    · have hb := ih h.2.2 hs
      unfold stop at hb
      exact ⟨by have := h.1; omega, hb.2⟩

theorem covers_le (hp : Covers ss p) : lo ≤ p := by
  rcases hp with ⟨s, hs, hhas⟩
  have := (sepFrom_le s h hs).1
  have := hhas.1
  omega

/-- Spans with gaps between them are apart, in rising order. -/
theorem sepFrom_pairwise : ss.Pairwise fun s t => s.stop < t.start := by
  induction ss generalizing lo with
  | nil => exact List.Pairwise.nil
  | cons b bs ih =>
    refine List.Pairwise.cons (fun t ht => ?_) (ih h.2.2)
    exact (sepFrom_le t h.2.2 ht).1

omit h in
/-- There are no more spans than numbers. -/
theorem sepFrom_length {hi : Nat} (h : SepFrom lo ss) (hlo : lo ≤ hi)
    (hhi : ∀ s ∈ ss, s.stop < hi) : lo + ss.length ≤ hi := by
  induction ss generalizing lo with
  | nil => exact hlo
  | cons b bs ih =>
    have hb := hhi b mem_cons_self
    have hbs := ih h.2.2 hb fun s hs => hhi s (mem_cons_of_mem b hs)
    have := h.1
    rw [length_cons]
    unfold stop at hbs
    omega

/-- Two spans of a separated list are the same, or there is a gap between them. -/
theorem sepFrom_cases (hs : s ∈ ss) (ht : t ∈ ss) :
    s = t ∨ s.stop < t.start ∨ t.stop < s.start := by
  induction ss generalizing lo with
  | nil => exact absurd hs not_mem_nil
  | cons b bs ih =>
    have hgap : ∀ u ∈ bs, b.stop < u.start :=
      fun u hu => (sepFrom_le u h.2.2 hu).1
    rcases mem_cons.mp hs with hs | hs
    · rcases mem_cons.mp ht with ht | ht
      · exact .inl (hs.trans ht.symm)
      · rw [hs]
        exact .inr (.inl (hgap t ht))
    rcases mem_cons.mp ht with ht | ht
    · rw [ht]
      exact .inr (.inr (hgap s hs))
    · exact ih h.2.2 hs ht

omit h in
/-- The numbers that are left when a span is taken off a list of spans that are apart. -/
theorem covers_erase {ss : List Span} (p : Nat) (hapart : ss.Pairwise Apart) (hs : s ∈ ss) :
    (ss.erase s).Pairwise Apart ∧ (Covers ss p ↔ s.Has p ∨ Covers (ss.erase s) p) ∧
      (s.Has p → ¬ Covers (ss.erase s) p) := by
  have hperm : ss.Perm (s :: ss.erase s) := perm_cons_erase hs
  have hsymm : ∀ {t u : Span}, t.Apart u → u.Apart t := fun h => Or.symm h
  rcases pairwise_cons.mp ((hperm.pairwise_iff hsymm).mp hapart) with ⟨hfirst, hrest⟩
  refine ⟨hrest, ?_, fun hp hc => ?_⟩
  · rw [← covers_cons]
    exact exists_congr fun t => and_congr_left' hperm.mem_iff
  · rcases hc with ⟨t, ht, hhas⟩
    have := hfirst t ht
    unfold Apart Has at *
    omega

theorem maxSpan_of_mem (hs : s ∈ ss) : MaxSpan (Covers ss) s := by
  refine ⟨fun p hp => ⟨s, hs, hp⟩, (sepFrom_le s h hs).2, fun p hp hc => ?_, fun hc => ?_⟩
  · rcases hc with ⟨t, ht, hhas⟩
    unfold Has at hhas
    rcases sepFrom_cases s t h hs ht with rfl | hgap | hgap
    · omega
    · unfold stop at hgap
      omega
    · omega
  rcases hc with ⟨t, ht, hhas⟩
  unfold Has at hhas
  rcases sepFrom_cases s t h hs ht with rfl | hgap | hgap
  · omega
  · omega
  · unfold stop at hgap hhas
    omega

/-- The spans of a separated list are the maximal stretches of the numbers it covers. -/
theorem maxSpan_iff : MaxSpan (Covers ss) s ↔ s ∈ ss := by
  constructor
  · intro hmax
    -- The first number of the stretch is in some span, which is the stretch.
    have hfirst : s.Has s.start := by
      have := hmax.pos
      unfold Has stop
      omega
    rcases hmax.inside s.start hfirst with ⟨t, ht, hhas⟩
    have htmax := maxSpan_of_mem t h ht
    unfold Has at hhas
    have hstart : t.start = s.start := by
      by_contra hne
      refine hmax.before (s.start - 1) (by omega) ⟨t, ht, ?_⟩
      unfold Has
      omega
    have hstop : t.stop = s.stop := by
      by_contra hne
      rcases Nat.lt_or_gt_of_ne hne with hlt | hgt
      · refine htmax.behind (hmax.inside t.stop ?_)
        unfold Has
        omega
      · refine hmax.behind ⟨t, ht, ?_⟩
        unfold Has stop at *
        omega
    have heq : s = t := by
      unfold stop at hstop
      cases s
      cases t
      simp only [Span.mk.injEq] at *
      omega
    rw [heq]
    exact ht
  · exact maxSpan_of_mem s h

end Covers

section Insert

variable (n b : Span) (bs : List Span) (p lo : Nat)

/-- The span is apart from all others. -/
def ApartFrom (n : Span) (bs : List Span) : Prop :=
  ∀ b ∈ bs, n.Apart b

theorem insert_left (hleft : b.stop = n.start) :
    insert n (b :: bs) = join ⟨b.start, b.count + n.count⟩ bs := by
  rw [insert, if_pos hleft]

theorem insert_right (hleft : b.stop ≠ n.start) (hright : b.start = n.stop) :
    insert n (b :: bs) = ⟨n.start, b.count + n.count⟩ :: bs := by
  rw [insert, if_neg hleft, if_pos hright]

theorem insert_before (hleft : b.stop ≠ n.start) (hbefore : n.stop < b.start) :
    insert n (b :: bs) = n :: b :: bs := by
  rw [insert, if_neg hleft, if_neg (by omega), if_pos hbefore]

theorem insert_later (hleft : b.stop ≠ n.start) (hlater : ¬ n.stop ≤ b.start) :
    insert n (b :: bs) = b :: insert n bs := by
  rw [insert, if_neg hleft, if_neg (by omega), if_neg (by omega)]

/-- Where a span goes: it touches the first one on either side, it stands before it, or it goes
    further back. -/
theorem insert_cases : b.stop = n.start ∨ (b.stop ≠ n.start ∧ b.start = n.stop) ∨
    (b.stop ≠ n.start ∧ n.stop < b.start) ∨ (b.stop ≠ n.start ∧ ¬ n.stop ≤ b.start) := by
  omega

/-- Joining spans that touch changes no number. -/
theorem has_join {s t : Span} (h : s.stop = t.start) :
    (⟨s.start, s.count + t.count⟩ : Span).Has p ↔ s.Has p ∨ t.Has p := by
  unfold Has stop at *
  dsimp only
  omega

theorem covers_join : Covers (join n bs) p ↔ n.Has p ∨ Covers bs p := by
  cases bs with
  | nil => simp only [join, covers_cons]
  | cons c cs =>
    by_cases h : n.stop = c.start
    · rw [join, if_pos h, covers_cons, has_join p h, covers_cons, or_assoc]
    · rw [join, if_neg h, covers_cons]

theorem covers_insert : Covers (insert n bs) p ↔ n.Has p ∨ Covers bs p := by
  induction bs with
  | nil => simp only [insert, covers_cons]
  | cons b bs ih =>
    rcases insert_cases n b with hleft | ⟨hleft, hright⟩ | ⟨hleft, hbefore⟩ | ⟨hleft, hlater⟩
    · rw [insert_left n b bs hleft, covers_join, has_join p hleft, covers_cons,
        or_comm (a := b.Has p), or_assoc]
    · rw [insert_right n b bs hleft hright, Nat.add_comm b.count, covers_cons,
        has_join p hright.symm, covers_cons, or_assoc]
    · rw [insert_before n b bs hleft hbefore, covers_cons]
    · rw [insert_later n b bs hleft hlater, covers_cons, ih, covers_cons, or_left_comm]

/-- A span in front of a separated list, which may touch the first one. -/
theorem sepFrom_join (hn : 0 < n.count) (hlo : lo ≤ n.start) (h : SepFrom n.stop bs) :
    SepFrom lo (join n bs) := by
  cases bs with
  | nil => exact ⟨hlo, hn, trivial⟩
  | cons c cs =>
    rcases h with ⟨hc, hpos, hrest⟩
    by_cases htouch : n.stop = c.start
    · rw [join, if_pos htouch]
      refine ⟨hlo, Nat.add_pos_left hn _, sepFrom_mono ?_ hrest⟩
      unfold stop at *
      dsimp only
      omega
    · rw [join, if_neg htouch]
      exact ⟨hlo, hn, by omega, hpos, hrest⟩

/-- A list that is behind the start of a span, and apart from it, is behind its end. -/
theorem sepFrom_behind (hapart : ApartFrom n bs) (htouch : lo = n.start)
    (h : SepFrom (lo + 1) bs) : SepFrom n.stop bs := by
  cases bs with
  | nil => trivial
  | cons c cs =>
    refine ⟨?_, h.2⟩
    have hc := hapart c mem_cons_self
    have := h.1
    unfold Apart stop at *
    omega

/-- Adding a span that is apart from the others keeps the list separated. -/
theorem sepFrom_insert (hn : 0 < n.count) (hlo : lo ≤ n.start) (hapart : ApartFrom n bs)
    (h : SepFrom lo bs) : SepFrom lo (insert n bs) := by
  induction bs generalizing lo with
  | nil => exact ⟨hlo, hn, trivial⟩
  | cons b bs ih =>
    rcases h with ⟨hb, hpos, hrest⟩
    have hab := hapart b mem_cons_self
    unfold Apart at hab
    have hapart' : ApartFrom n bs := fun c hc => hapart c (mem_cons_of_mem b hc)
    rcases insert_cases n b with hleft | ⟨hleft, hright⟩ | ⟨hleft, hbefore⟩ | ⟨hleft, hlater⟩
    · rw [insert_left n b bs hleft]
      refine sepFrom_join _ bs lo (Nat.add_pos_left hpos _) hb ?_
      have hstop : (⟨b.start, b.count + n.count⟩ : Span).stop = n.stop := by
        unfold stop at *
        dsimp only
        omega
      rw [hstop]
      exact sepFrom_behind n bs b.stop hapart' hleft hrest
    · rw [insert_right n b bs hleft hright]
      refine ⟨hlo, Nat.add_pos_left hpos _, sepFrom_mono ?_ hrest⟩
      unfold stop at *
      dsimp only
      omega
    · rw [insert_before n b bs hleft hbefore]
      exact ⟨hlo, hn, by omega, hpos, hrest⟩
    · rw [insert_later n b bs hleft hlater]
      refine ⟨hb, hpos, ih (b.stop + 1) ?_ hapart' hrest⟩
      omega

end Insert

section FirstFit

variable (n : Nat) (b : Span) (bs : List Span) {lo : Nat}

theorem firstFit_none : firstFit n bs = none ↔ ∀ b ∈ bs, b.count < n := by
  induction bs with
  | nil => exact ⟨fun _ b hb => absurd hb not_mem_nil, fun _ => rfl⟩
  | cons b bs ih =>
    unfold firstFit
    by_cases hmore : n < b.count
    · rw [if_pos hmore]
      refine ⟨fun h => (nomatch h), fun h => ?_⟩
      have := h b mem_cons_self
      omega
    rw [if_neg hmore]
    by_cases heq : b.count = n
    · rw [if_pos heq]
      refine ⟨fun h => (nomatch h), fun h => ?_⟩
      have := h b mem_cons_self
      omega
    · rw [if_neg heq, Option.map_eq_none_iff, ih, forall_mem_cons]
      exact ⟨fun h => ⟨by omega, h⟩, fun h => h.2⟩

/-- What is taken is the start of the first span that has enough numbers, and the list goes on
    to be separated. -/
theorem firstFit_some {a : Nat} {bs' : List Span} (hn : 0 < n) (h : SepFrom lo bs)
    (hfit : firstFit n bs = some (a, bs')) :
    SepFrom lo bs' ∧ (∃ b ∈ bs, b.start = a ∧ n ≤ b.count ∧ ∀ c ∈ bs, n ≤ c.count → a ≤ c.start) ∧
      ∀ p, (Covers bs p ↔ (⟨a, n⟩ : Span).Has p ∨ Covers bs' p) ∧
        ((⟨a, n⟩ : Span).Has p → ¬ Covers bs' p) := by
  induction bs generalizing lo bs' with
  | nil => exact nomatch hfit
  | cons b bs ih =>
    rcases h with ⟨hb, hpos, hrest⟩
    have hgap : ∀ p, Covers bs p → b.stop + 1 ≤ p := fun p hp => covers_le p hrest hp
    have hleast : ∀ c ∈ b :: bs, b.start ≤ c.start := by
      intro c hc
      rcases mem_cons.mp hc with hc | hc
      · exact Nat.le_of_eq (congrArg start hc.symm)
      · have := (sepFrom_le c hrest hc).1
        unfold stop at this
        omega
    unfold firstFit at hfit
    by_cases hmore : n < b.count
    · rw [if_pos hmore, Option.some.injEq, Prod.mk.injEq] at hfit
      rw [← hfit.1, ← hfit.2]
      refine ⟨⟨Nat.le_trans hb (Nat.le_add_right _ _), Nat.sub_pos_of_lt hmore,
        sepFrom_mono ?_ hrest⟩, ⟨b, mem_cons_self, rfl, by omega,
        fun c hc _ => hleast c hc⟩, fun p => ?_⟩
      · unfold stop
        dsimp only
        omega
      have hcut : b.Has p ↔ (⟨b.start, n⟩ : Span).Has p ∨
          (⟨b.start + n, b.count - n⟩ : Span).Has p := by
        unfold Has stop
        dsimp only
        omega
      refine ⟨by rw [covers_cons, covers_cons, hcut, or_assoc], fun hp hc => ?_⟩
      -- The rest of the span is behind what is taken, and the other spans are too.
      rcases (covers_cons _ bs p).mp hc with hc | hc
      · unfold Has stop at hp hc
        dsimp only at hp hc
        omega
      have := hgap p hc
      unfold Has stop at *
      omega
    rw [if_neg hmore] at hfit
    by_cases heq : b.count = n
    · rw [if_pos heq, Option.some.injEq, Prod.mk.injEq] at hfit
      rw [← hfit.1, ← hfit.2, ← heq]
      refine ⟨sepFrom_mono ?_ hrest, ⟨b, mem_cons_self, rfl, Nat.le_refl _,
        fun c hc _ => hleast c hc⟩, fun p => ⟨by rw [covers_cons], fun hp hc => ?_⟩⟩
      · unfold stop
        omega
      · have := hgap p hc
        unfold Has stop at *
        dsimp only at *
        omega
    rw [if_neg heq, Option.map_eq_some_iff] at hfit
    rcases hfit with ⟨⟨a', bs''⟩, hfit, hr⟩
    rw [Prod.mk.injEq] at hr
    dsimp only at hr
    rw [hr.1] at hfit
    rw [← hr.2]
    rcases ih hrest hfit with ⟨hsep, ⟨c, hc, hstart, henough, hfirst⟩, hcov⟩
    refine ⟨⟨hb, hpos, hsep⟩, ⟨c, mem_cons_of_mem b hc, hstart, henough,
      fun d hd hdn => ?_⟩, fun p => ⟨?_, fun hp hcp => ?_⟩⟩
    · rcases mem_cons.mp hd with hd | hd
      · rw [hd] at hdn
        omega
      · exact hfirst d hd hdn
    · rw [covers_cons, covers_cons, (hcov p).1, or_left_comm]
    · -- The numbers that are taken are behind the first span.
      rw [covers_cons] at hcp
      rcases hcp with hcp | hcp
      · have := covers_le p hrest ((hcov p).1.mpr (.inl hp))
        unfold Has at hcp
        omega
      · exact (hcov p).2 hp hcp

end FirstFit

end Span

end Honeycomb
