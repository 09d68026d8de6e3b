import Honeycomb.Theory.TimerOrder

/-!
# A Check Fires What is Due

The check looks at the first timer of the list again and again, while timers that have
fired are put back on it. It stops at the first timer that is not due.

So a timer that is due is reached if it has nothing in front of it but timers that fire. The
timers that are due have to be the first of the list, and one that is put back has to go
behind those that have not fired. Then the first part of the list, the timers that are due
and have not fired, gets shorter with every turn. A timer that is put back must not be due
again, so its time must not be zero. One that is started for no time is due at once, and the
check fires it for ever.

None of this can be left out. What stands behind a timer that does not fire does not fire,
since only a timer that fires leaves its place.

Where a timer is put back depends on all rows, for the search can go past a timer in a row
above. It goes behind the timers that are due if none of their deadlines is half of all ticks
or more before the new one, and if there is one row, only then.

## Theorems

* `check_fires`: A check fires the timers that are due, once and in order, exactly under
  these conditions.
* `check_spins`: A timer that fires again and again.
-/

namespace Honeycomb.Timers

open BitVec (lt_def toNat_ofNat)
open Function List Run

variable {level : Nat} {T : Type}

variable (s : State T)

def Due (t : T) : Prop :=
  s.tick - (s.timer t).timeoutTick < rtTickMax / 2#32

instance : DecidablePred (Due s) :=
  fun _ => inferInstanceAs (Decidable (_ < _))

def due (row : List T) : List T :=
  row.filter fun t => Due s t

/-- The control block of a timer that has fired. -/
def rearmed (t : T) : Timer :=
  if (s.timer t).periodic = true then (s.timer t).start s.tick
  else { s.timer t with activated := false }

/-- The timers of a list are running. -/
def Running (row : List T) : Prop :=
  ∀ t ∈ row, (s.timer t).registered = true ∧ (s.timer t).activated = true

/-- The deadlines, counted from a tick on, rise along the list and are within half of all
    ticks from the current one, and its timers are running. -/
structure Listed (level : Nat) (s : State T) (base : BitVec 32) (rows : Nat → List T) : Prop where
  list : Rows level s.links rows
  armed : Running s (rows (level - 1))
  window : ∀ t ∈ rows (level - 1),
    ((s.timer t).timeoutTick - base).toNat ≤ (s.tick - base).toNat + 0x7ffffffe
  sorted : (rows (level - 1)).Pairwise fun t u =>
    ((s.timer t).timeoutTick - base).toNat ≤ ((s.timer u).timeoutTick - base).toNat

/-- The time of a periodic timer is not zero, and a start accepts it. -/
def PeriodOk (t : T) : Prop :=
  (s.timer t).periodic = true →
    (s.timer t).initTick ≠ 0#32 ∧ (s.timer t).initTick < rtTickMax / 2#32

/-- The timers that are due are the first of the list, and their periods can be used. -/
structure DueCond (row : List T) : Prop where
  first : row.Pairwise fun t u => Due s u → Due s t
  period : ∀ t ∈ row, Due s t → PeriodOk s t

/-- No deadline is half of all ticks or more before the new one of a timer in front of it. -/
def Passed (d : List T) : Prop :=
  d.Pairwise fun t u => (s.timer t).periodic = true →
    (s.tick - (s.timer u).timeoutTick).toNat + (s.timer t).initTick.toNat ≤ 0x80000001

/-- What a check leaves: those that were due have fired and are on the list if they are
    periodic, and the rest is as it was, in its order. -/
structure Fired [DecidableEq T] (level : Nat) (s : State T) (due rest : List T) (s' : State T)
    (rows' : Nat → List T) : Prop where
  list : Rows level s'.links rows'
  timer : ∀ t, s'.timer t = if t ∈ due then rearmed s t else s.timer t
  row : ∀ t, t ∈ rows' (level - 1) ↔ t ∈ rest ∨ t ∈ due ∧ (s.timer t).periodic = true
  others : rest.Sublist (rows' (level - 1))

section Turns

variable [DecidableEq T] [Fintype T]

/-- The timers whose callbacks a check calls, in this order, when no callback makes a call. -/
def fired (level : Nat) (mask : BitVec 32) : Nat → State T → List T
  | 0, _ => []
  | n + 1, s =>
    match firstDue level s with
    | some (some t) =>
      t :: ((afterCallback level mask (expire level s t) t).elim [] (fired level mask n))
    | _ => []

/-- What a check is for: it ends after as many turns as there are timers that are due, and has
    called their callbacks, in the order of the list. -/
def FiresDue (level : Nat) (mask : BitVec 32) (s : State T) (row : List T) : Prop :=
  ∃ s' rows', Fired level s (due s row) (row.filter fun t => ¬ Due s t) s' rows' ∧
    ∀ n, (due s row).length ≤ n →
      rtTimerCheck level mask (replicate n []) s = some s' ∧ fired level mask n s = due s row

/-- In the turns for the given timers, each that is put back is put behind those that come
    after it. -/
def Behind (level : Nat) (mask : BitVec 32) : List T → State T → Prop
  | [], _ => True
  | t :: d, s => ∀ s' rows', afterCallback level mask (expire level s t) t = some s' →
      Rows level s'.links rows' →
        ((s.timer t).periodic = true → ∀ u ∈ d, [u, t].Sublist (rows' (level - 1))) ∧
          Behind level mask d s'

end Turns

section Place

variable {s : State T} {base : BitVec 32} {t u : T}

/-- A timer on the list is due if its deadline is behind the clock by less than half of all
    ticks. -/
theorem due_listed
    (hwindow : ((s.timer t).timeoutTick - base).toNat ≤ (s.tick - base).toNat + 0x7ffffffe) :
    Due s t ↔ ((s.timer t).timeoutTick - base).toNat ≤ (s.tick - base).toNat ∧
      (s.tick - base).toNat ≤ ((s.timer t).timeoutTick - base).toNat + 0x7ffffffe := by
  have hdiff := sub_toNat s.tick (s.timer t).timeoutTick base
  rw [Due, lt_def, half_toNat, hdiff]
  omega

/-- The search for a new deadline passes a timer that is due if the two deadlines are less
    than half of all ticks apart. -/
theorem passes_due {time : BitVec 32} (hdue : Due s u) (hsmall : time < rtTickMax / 2#32) :
    passes s (s.tick + time) u = true ↔
      (s.tick - (s.timer u).timeoutTick).toNat + time.toNat ≤ 0x80000001 := by
  have hdiff : ((s.timer u).timeoutTick - (s.tick + time)).toNat =
      (2 ^ 32 - ((s.tick - (s.timer u).timeoutTick).toNat + time.toNat) % 2 ^ 32) % 2 ^ 32 := by
    simp only [BitVec.toNat_sub, BitVec.toNat_add]
    omega
  rw [Due, lt_def, half_toNat] at hdue
  rw [lt_def, half_toNat] at hsmall
  simp only [passes, Bool.or_eq_true, decide_eq_true_eq, Bool.not_eq_true',
    decide_eq_false_iff_not, lt_def, half_toNat, ← BitVec.toNat_inj, toNat_ofNat,
    hdiff]
  omega

/-- The search for a new deadline passes a deadline of now. -/
theorem passes_now {time : BitVec 32} (hnow : (s.timer u).timeoutTick = s.tick)
    (hsmall : time < rtTickMax / 2#32) : passes s (s.tick + time) u = true := by
  have hdue : Due s u := by
    rw [Due, hnow, BitVec.sub_self]
    decide
  rw [passes_due hdue hsmall, hnow, BitVec.sub_self, toNat_ofNat]
  rw [lt_def, half_toNat] at hsmall
  omega

theorem not_passes_now (htu : ((s.timer t).timeoutTick - base).toNat ≤
      ((s.timer u).timeoutTick - base).toNat)
    (htwindow : ((s.timer t).timeoutTick - base).toNat ≤ (s.tick - base).toNat + 0x7ffffffe)
    (huwindow : ((s.timer u).timeoutTick - base).toNat ≤ (s.tick - base).toNat + 0x7ffffffe)
    (ht : Due s t) (hu : ¬ Due s u) : passes s s.tick u = false := by
  rw [due_listed htwindow] at ht
  rw [due_listed huwindow] at hu
  have hdiff := sub_toNat (s.timer u).timeoutTick s.tick base
  simp only [passes, Bool.or_eq_false_iff, decide_eq_false_iff_not, Bool.not_eq_false',
    decide_eq_true_eq, lt_def, half_toNat, ← BitVec.toNat_inj, toNat_ofNat, hdiff]
  omega

/-- The search for a deadline of now does not pass a timer that is started at this tick. -/
theorem not_passes_new {time : BitVec 32} (hnew : (s.timer t).timeoutTick = s.tick + time)
    (hzero : time ≠ 0#32) (hsmall : time < rtTickMax / 2#32) : passes s s.tick t = false := by
  rw [lt_def, half_toNat] at hsmall
  simp only [passes, hnew, Bool.or_eq_false_iff, decide_eq_false_iff_not, Bool.not_eq_false',
    decide_eq_true_eq, lt_def, half_toNat]
  bv_omega

theorem pair_sublist {p q : List T} (hu : u ∈ q) : [t, u].Sublist (p ++ t :: q) :=
  ((singleton_sublist.mpr hu).cons_cons t).trans (sublist_append_right p _)

theorem mem_of_pair {p q : List T} (hnd : (p ++ t :: q).Nodup)
    (h : [u, t].Sublist (p ++ t :: q)) : u ∈ p := by
  have hq : t ∉ q := (nodup_cons.mp hnd.of_append_right).1
  rcases sublist_append_iff.mp h with ⟨l, l', hl, hp, hq'⟩
  cases l with
  | nil =>
    rw [nil_append] at hl
    rw [← hl] at hq'
    cases hq' with
    | cons _ h => exact absurd (h.subset (mem_cons_of_mem u mem_cons_self)) hq
    | cons_cons _ h => exact absurd (h.subset mem_cons_self) hq
  | cons x l =>
    rw [cons_append, cons.injEq] at hl
    exact hp.subset (hl.1 ▸ mem_cons_self)

/-- A place in a list is behind the first part of it, or something of that part is at the place. -/
theorem split_cases {d g p q : List T} (hsplit : d ++ g = p ++ q) :
    (∃ g', p = d ++ g' ∧ g = g' ++ q) ∨ ∃ u us, d = p ++ u :: us ∧ q = u :: us ++ g := by
  rcases append_eq_append_iff.mp hsplit with h | ⟨e, he, hq⟩
  · exact .inl h
  cases e with
  | nil => exact .inl ⟨[], by rw [he, append_nil, append_nil], hq.symm⟩
  | cons u us => exact .inr ⟨u, us, he, hq⟩

theorem split_behind {d g p q : List T} (hsplit : d ++ g = p ++ q) (hnd : d.Nodup)
    (hd : ∀ u ∈ d, u ∈ p) : ∃ g', p = d ++ g' ∧ g = g' ++ q := by
  rcases split_cases hsplit with h | ⟨u, us, rfl, _⟩
  · exact h
  have hu := hd u (mem_append_right p mem_cons_self)
  exact absurd rfl ((nodup_append.mp hnd).2.2 u hu u mem_cons_self)

/-- A place before something that is not passed is behind the first part of a list if all of
    that is passed. -/
theorem cut_behind {pass : T → Bool} {d g p q : List T} (hsplit : d ++ g = p ++ q)
    (hhead : ∀ u, q.head? = some u → pass u = false) (hpass : ∀ u ∈ d, pass u = true) :
    ∃ g', p = d ++ g' ∧ g = g' ++ q := by
  rcases split_cases hsplit with h | ⟨u, us, rfl, rfl⟩
  · exact h
  have hnot := hhead u rfl
  rw [hpass u (mem_append_right p mem_cons_self)] at hnot
  exact nomatch hnot

/-- A place behind something that is passed is before the rest of a list if nothing of that
    is passed. -/
theorem cut_before {pass : T → Bool} {d g p q : List T} (hsplit : d ++ g = p ++ q)
    (hlast : ∀ u, p.getLast? = some u → pass u = true) (hpass : ∀ u ∈ g, pass u = false) :
    ∃ e, d = p ++ e ∧ q = e ++ g := by
  rcases append_eq_append_iff.mp hsplit with ⟨e, hp, hg⟩ | h
  · rcases eq_nil_or_concat' e with rfl | ⟨e, u, rfl⟩
    · exact ⟨[], by rw [hp, append_nil, append_nil], hg.symm⟩
    have hu := hlast u (by rw [hp, ← append_assoc, getLast?_concat])
    rw [hpass u (by rw [hg]; exact mem_append_left q (mem_append_right e mem_cons_self))] at hu
    exact nomatch hu
  · exact h

theorem filter_first {P : T → Prop} [DecidablePred P] {row : List T}
    (h : row.Pairwise fun t u => P u → P t) :
    row = (row.filter fun t => P t) ++ row.filter fun t => ¬ P t := by
  induction row with
  | nil => rfl
  | cons t row ih =>
    rw [pairwise_cons] at h
    by_cases ht : P t
    · simp only [filter_cons, ht, not_true_eq_false, decide_true, decide_false, if_true,
        Bool.false_eq_true, if_false, cons_append, ← ih h.2]
    · have hnone : ∀ u ∈ row, ¬ P u := fun u hu hc => ht (h.1 u hu hc)
      rw [filter_eq_nil_iff.mpr (by simpa only [decide_eq_true_iff, forall_mem_cons] using
        ⟨ht, hnone⟩), nil_append, filter_eq_self.mpr (by
        simpa only [decide_eq_true_iff, forall_mem_cons] using ⟨ht, hnone⟩)]

end Place

section Turn

variable [DecidableEq T] [Fintype T] {mask : BitVec 32} {s s' : State T}
  {rows rows' : Nat → List T} {t : T} {d g p q : List T}

omit [Fintype T] in
theorem first_spec (hr : Rows level s.links rows) (hrow : rows (level - 1) = t :: d ++ g) :
    t ∈ rows (level - 1) ∧ t ∉ d ++ g ∧ (d ++ g).Nodup ∧ without rows t (level - 1) = d ++ g := by
  have hnd := rows_nodup hr (level - 1)
  rw [hrow, cons_append, nodup_cons] at hnd
  rw [without, hrow]
  exact ⟨mem_cons_self, hnd.1, hnd.2, Ring.filter_ne_split not_mem_nil hnd.1⟩

/-- What a turn does: the timer is taken off the list, and put back at a place of it if it is
    periodic. -/
structure Turned (level : Nat) (mask : BitVec 32) (s s' : State T) (t : T)
    (rows rows' : Nat → List T) (p q : List T) : Prop where
  after : afterCallback level mask (expire level s t) t = some s'
  list : Rows level s'.links rows'
  split : without rows t (level - 1) = p ++ q
  cut : (s.timer t).periodic = true →
    Cut (passes s (s.tick + (s.timer t).initTick)) (without rows t (level - 1)) p q
  only : (s.timer t).periodic = true → level = 1 →
    ∀ u ∈ p, passes s (s.tick + (s.timer t).initTick) u = true
  row : rows' (level - 1) = p ++ if (s.timer t).periodic = true then t :: q else q
  tick : s'.tick = s.tick
  timer : s'.timer = update s.timer t (rearmed s t)

theorem turn_spec (mask : BitVec 32) (hlevel : 0 < level) (hr : Rows level s.links rows)
    (hreg : (s.timer t).registered = true) (hact : (s.timer t).activated = true)
    (hinit : (s.timer t).periodic = true → (s.timer t).initTick < rtTickMax / 2#32) :
    ∃ s' rows' p q, Turned level mask s s' t rows rows' p q := by
  have hr1 := rows_remove hr t
  have hself : without (without rows t) t (level - 1) = without rows t (level - 1) := by
    simp only [without, filter_filter, Bool.and_self]
  cases hper : (s.timer t).periodic with
  | false =>
    refine ⟨_, without rows t, _, [], if_neg (by rw [expire, hper]; rintro ⟨⟩), hr1,
      (append_nil _).symm, fun hc => absurd (hper.symm.trans hc) Bool.false_ne_true,
      fun hc => absurd (hper.symm.trans hc) Bool.false_ne_true, ?_, rfl, ?_⟩
    · rw [hper]
      exact (append_nil _).symm
    · rw [rearmed, hper]
      rfl
  | true =>
    rcases rtTimerStart_spec level mask hlevel (t := t)
      (s := (expire level s t).set t fun b => { b with activated := false }) hr1
      (by rw [set_self]; exact hreg) (by rw [set_self]; exact hinit hper) with
      ⟨s', rows', p, q, hstart, hst⟩
    replace hst := started_of_cleared hst
    have hcut := hst.cut
    rw [hself] at hcut
    refine ⟨s', rows', p, q, ?_, hst.list, hcut.split, fun _ => hcut, fun _ => hst.only, ?_,
      hst.tick, ?_⟩
    · exact (if_pos (by rw [expire, hper, hact]; rfl)).trans hstart
    · rw [hst.row, hper]
      rfl
    · rw [hst.timer, rearmed, if_pos hper]
      rfl

theorem turn_cases (hlevel : 0 < level) (hr : Rows level s.links rows)
    (harm : Running s (rows (level - 1))) (ht : t ∈ rows (level - 1))
    (h : afterCallback level mask (expire level s t) t = some s') :
    ((s.timer t).periodic = true → (s.timer t).initTick < rtTickMax / 2#32) ∧
      ∃ rows' p q, Turned level mask s s' t rows rows' p q := by
  rcases harm t ht with ⟨hreg, hact⟩
  have hinit : (s.timer t).periodic = true → (s.timer t).initTick < rtTickMax / 2#32 := by
    intro hper
    rw [afterCallback, if_pos (by rw [expire, hper, hact]; rfl)] at h
    have hguard := (rtTimerStart_guard level mask h).2
    rw [set_self] at hguard
    exact hguard
  rcases turn_spec mask hlevel hr hreg hact hinit with ⟨s'', rows', p, q, hturn⟩
  have hsame : s'' = s' := Option.some.inj (hturn.after.symm.trans h)
  exact ⟨hinit, rows', p, q, hsame ▸ hturn⟩

variable (hturn : Turned level mask s s' t rows rows' p q)
include hturn

theorem turned_of_ne {u : T} (hu : u ≠ t) : s'.timer u = s.timer u := by
  rw [hturn.timer, update_of_ne hu]

theorem turned_due {u : T} (hu : u ≠ t) : Due s' u ↔ Due s u := by
  rw [Due, Due, hturn.tick, turned_of_ne hturn hu]

theorem turned_mem {u : T} : u ∈ rows' (level - 1) ↔
    u ∈ without rows t (level - 1) ∨ u = t ∧ (s.timer t).periodic = true := by
  rw [hturn.row, hturn.split, mem_append, mem_append]
  split_ifs with hp
  · rw [mem_cons]
    tauto
  · tauto

theorem turned_armed (harm : Running s (rows (level - 1))) (ht : t ∈ rows (level - 1)) :
    Running s' (rows' (level - 1)) := by
  intro u hu
  rcases (turned_mem hturn).mp hu with hu | ⟨rfl, hp⟩
  · rw [mem_without] at hu
    rw [turned_of_ne hturn hu.2]
    exact harm u hu.1
  · rw [hturn.timer, update_self, rearmed, if_pos hp]
    exact ⟨(harm u ht).1, rfl⟩

theorem turned_sublist {l : List T} (hl : l.Sublist (rows (level - 1))) (ht : t ∉ l) :
    l.Sublist (rows' (level - 1)) := by
  have hsub := hl.filter (· ≠ t)
  rw [Ring.filter_ne_of_not_mem ht] at hsub
  refine hsub.trans ?_
  rw [← without, hturn.split, hturn.row]
  refine (List.Sublist.refl p).append ?_
  split_ifs
  · exact sublist_cons_self t q
  · exact List.Sublist.refl q

/-- A timer that is put back behind the first part of the list is in the rest. -/
theorem turned_split (hrow : without rows t (level - 1) = d ++ g) (hnd : d.Nodup)
    (hb : (s.timer t).periodic = true → ∀ u ∈ d, [u, t].Sublist (rows' (level - 1))) :
    ∃ g', rows' (level - 1) = d ++ g' ∧ ((s.timer t).periodic = false → g' = g) ∧
      ((s.timer t).periodic = true → ∃ g1, p = d ++ g1 ∧ g = g1 ++ q ∧ g' = g1 ++ t :: q) := by
  have hsplit := hrow.symm.trans hturn.split
  have hrow' := hturn.row
  cases hp : (s.timer t).periodic with
  | true =>
    have hnd' := rows_nodup hturn.list (level - 1)
    rw [if_pos hp] at hrow'
    rw [hrow'] at hnd'
    rcases split_behind hsplit hnd fun u hu => mem_of_pair hnd' (hrow' ▸ hb hp u hu) with
      ⟨g1, rfl, rfl⟩
    exact ⟨g1 ++ t :: q, by rw [hrow', append_assoc], nofun, fun _ => ⟨g1, rfl, rfl, rfl⟩⟩
  | false =>
    rw [hp, if_neg Bool.false_ne_true, ← hsplit] at hrow'
    exact ⟨g, hrow', fun _ => rfl, nofun⟩

end Turn

section Loop

variable [DecidableEq T] [Fintype T] {mask : BitVec 32} {s s' : State T}
  {rows : Nat → List T} {d g z : List T} (hlevel : 0 < level) (hr : Rows level s.links rows)
  (harm : Running s (rows (level - 1)))

include hlevel hr harm

/-- A timer fires only after the timers that are in front of it, which do not move before
    they fire. -/
theorem fired_before {n : Nat} {v u : T} (hvu : [v, u].Sublist (rows (level - 1)))
    (hu : u ∈ fired level mask n s) : v ∈ fired level mask n s := by
  induction n generalizing s rows with
  | zero => exact absurd hu not_mem_nil
  | succ n ih =>
    cases hrow : rows (level - 1) with
    | nil =>
      rw [hrow] at hvu
      exact nomatch hvu
    | cons t row =>
      rcases first_spec (d := []) hr hrow with ⟨ht, hnot, _, _⟩
      rw [fired, firstDue_cons level hr hrow] at hu ⊢
      by_cases hdue : s.tick - (s.timer t).timeoutTick < rtTickMax / 2#32
      · rw [if_pos hdue] at hu ⊢
        by_cases hv : v = t
        · exact hv ▸ mem_cons_self
        have hrest : [v, u].Sublist row := by
          rw [hrow] at hvu
          cases hvu with
          | cons _ h => exact h
          | cons_cons _ h => exact absurd rfl hv
        have hne : u ≠ t := by
          rintro rfl
          exact hnot (hrest.subset (mem_cons_of_mem v mem_cons_self))
        refine mem_cons_of_mem t ?_
        have hu' := (mem_cons.mp hu).resolve_left hne
        cases hafter : afterCallback level mask (expire level s t) t with
        | none =>
          rw [hafter] at hu'
          exact absurd hu' not_mem_nil
        | some s1 =>
          rw [hafter] at hu'
          rcases (turn_cases hlevel hr harm ht hafter).2 with ⟨rows1, p, q, hturn⟩
          refine ih hturn.list (turned_armed hturn harm ht) (turned_sublist hturn hvu ?_) hu'
          simp only [mem_cons, not_mem_nil, or_false, not_or]
          exact ⟨Ne.symm hv, hne.symm⟩
      · rw [if_neg hdue] at hu
        exact absurd hu not_mem_nil

/-- All turns. The induction is on the timers that are due and have not fired. -/
theorem check_loop (mask : BitVec 32) (hrow : rows (level - 1) = d ++ g)
    (hd : ∀ t ∈ d, Due s t ∧ PeriodOk s t) (hg : ∀ t ∈ g, ¬ Due s t)
    (hb : Behind level mask d s) :
    ∃ s' rows', Fired level s d g s' rows' ∧ ∀ n, d.length ≤ n →
      rtTimerCheck level mask (replicate n []) s = some s' ∧ fired level mask n s = d := by
  induction d generalizing s rows g with
  | nil =>
    have hnone : firstDue level s = some none := by
      cases g with
      | nil => exact firstDue_nil level hr hrow
      | cons u us =>
        rw [firstDue_cons level hr hrow]
        exact congrArg some (if_neg (hg u mem_cons_self))
    refine ⟨s, rows, ⟨hr, fun t => (if_neg not_mem_nil).symm, fun t => ?_, ?_⟩, fun n _ => ?_⟩
    · rw [hrow, nil_append]
      exact ⟨.inl, fun h => h.resolve_right fun hc => not_mem_nil hc.1⟩
    · rw [hrow]
      exact List.Sublist.refl _
    cases n with
    | zero =>
      rw [replicate_zero, rtTimerCheck, hnone]
      exact ⟨rfl, rfl⟩
    | succ n =>
      rw [replicate_succ, rtTimerCheck, fired, hnone]
      exact ⟨rfl, rfl⟩
  | cons t d ih =>
    rcases hd t mem_cons_self with ⟨hdue, hperiod⟩
    rcases first_spec hr hrow with ⟨ht, hnot, hnd, hrest⟩
    have hne : ∀ u ∈ d, u ≠ t := fun u hu hc => hnot (hc ▸ mem_append_left g hu)
    rcases turn_spec mask hlevel hr (harm t ht).1 (harm t ht).2 fun hp => (hperiod hp).2 with
      ⟨s1, rows1, p, q, hturn⟩
    rcases hb s1 rows1 hturn.after hturn.list with ⟨hplace, hb1⟩
    rcases turned_split hturn hrest hnd.of_append_left hplace with ⟨g1, hrow1, hone, hper⟩
    have hmem : ∀ u, u ∈ g1 ↔ u ∈ g ∨ u = t ∧ (s.timer t).periodic = true := by
      intro u
      cases hp : (s.timer t).periodic with
      | true =>
        rcases hper hp with ⟨g2, _, rfl, rfl⟩
        simp only [mem_append, mem_cons, and_true]
        tauto
      | false =>
        rw [hone hp]
        exact (or_iff_left fun hc => Bool.false_ne_true hc.2).symm
    have hsub : g.Sublist g1 := by
      cases hp : (s.timer t).periodic with
      | true =>
        rcases hper hp with ⟨g2, _, rfl, rfl⟩
        exact (List.Sublist.refl g2).append (sublist_cons_self t q)
      | false => rw [hone hp]
    have hd1 : ∀ u ∈ d, Due s1 u ∧ PeriodOk s1 u := by
      intro u hu
      rw [turned_due hturn (hne u hu), PeriodOk, turned_of_ne hturn (hne u hu)]
      exact hd u (mem_cons_of_mem t hu)
    have hg1 : ∀ u ∈ g1, ¬ Due s1 u := by
      intro u hu
      by_cases hut : u = t
      · -- The new deadline is ahead of the clock.
        have hp : (s.timer t).periodic = true :=
          ((hmem u).mp hu).elim (fun hc => absurd (hut ▸ mem_append_right d hc) hnot) And.right
        rcases hperiod hp with ⟨hzero, hsmall⟩
        rw [hut, Due, hturn.tick, hturn.timer, update_self, rearmed, if_pos hp, Timer.start]
        rw [lt_def, half_toNat] at hsmall ⊢
        bv_omega
      · rw [turned_due hturn hut]
        exact hg u (((hmem u).mp hu).resolve_right fun hc => hut hc.1)
    rcases ih hturn.list (turned_armed hturn harm ht) hrow1 hd1 hg1 hb1 with
      ⟨s', rows', ⟨hr', htimer', hmem', hsub'⟩, hend⟩
    refine ⟨s', rows', ⟨hr', fun u => ?_, fun u => ?_, hsub.trans hsub'⟩, fun n hn => ?_⟩
    · by_cases hut : u = t
      · rw [hut, htimer' t, if_neg (fun hc => hne t hc rfl), if_pos mem_cons_self, hturn.timer,
          update_self]
      · rw [htimer' u, rearmed, turned_of_ne hturn hut, hturn.tick]
        simp only [mem_cons, hut, false_or]
        rfl
    · rw [hmem', hmem]
      by_cases hut : u = t
      · rw [mem_append, not_or] at hnot
        simp only [hut, hnot.1, hnot.2, mem_cons, true_and, false_or, false_and, or_false]
      · simp only [hut, turned_of_ne hturn hut, mem_cons, false_and, or_false, false_or]
    cases n with
    | zero => cases hn
    | succ n =>
      have hfirst : firstDue level s = some (some t) := by
        rw [firstDue_cons level hr hrow]
        exact congrArg some (if_pos hdue)
      rcases hend n (Nat.le_of_succ_le_succ hn) with ⟨hcheck, rfl⟩
      rw [replicate_succ, rtTimerCheck, fired, hfirst]
      simp only [some_bind, callAll, hturn.after, hcheck, Option.elim_some, and_self]

/-- What the check needs to fire the first part of the list, once and in order, and to end then. The
    induction is on this part. Behind it are timers with a deadline of now, put there by turns for
    timers without a period, and then those the search for such a deadline does not pass. -/
theorem fires_needs (hrow : rows (level - 1) = d ++ (z ++ g))
    (hz : ∀ t ∈ z, (s.timer t).timeoutTick = s.tick) (hg : ∀ t ∈ g, passes s s.tick t = false)
    (hcheck : rtTimerCheck level mask (replicate d.length []) s = some s')
    (hfired : fired level mask d.length s = d) :
    z = [] ∧ (∀ t ∈ d, PeriodOk s t) ∧ Behind level mask d s := by
  induction d generalizing s rows z g with
  | nil =>
    refine ⟨?_, fun t ht => absurd ht not_mem_nil, trivial⟩
    cases z with
    | nil => rfl
    | cons t z =>
      -- A timer with a deadline of now is due, so the check cannot have ended.
      rw [length_nil, replicate_zero, rtTimerCheck, firstDue_cons level hr hrow,
        hz t mem_cons_self, BitVec.sub_self] at hcheck
      cases hcheck
  | cons t d ih =>
    rcases first_spec hr hrow with ⟨ht, hnot, hnd, hrest⟩
    have hne : ∀ u ∈ d ++ (z ++ g), u ≠ t := fun u hu hc => hnot (hc ▸ hu)
    rw [length_cons, fired, firstDue_cons level hr hrow] at hfired
    rw [length_cons, replicate_succ, rtTimerCheck, firstDue_cons level hr hrow] at hcheck
    by_cases hdue : s.tick - (s.timer t).timeoutTick < rtTickMax / 2#32
    swap
    · rw [if_neg hdue] at hfired
      cases hfired
    rw [if_pos hdue] at hfired hcheck
    simp only [some_bind, callAll, bind_iff] at hcheck
    rcases hcheck with ⟨s1, hafter, hcheck⟩
    simp only [hafter, Option.elim_some, cons.injEq, true_and] at hfired
    rcases turn_cases hlevel hr harm ht hafter with ⟨hsmall, rows1, p, q, hturn⟩
    have harm1 := turned_armed hturn harm ht
    -- What stands behind the timer that was put back would not fire before it.
    have hplace : (s.timer t).periodic = true → ∀ u ∈ d, [u, t].Sublist (rows1 (level - 1)) := by
      intro hp u hu
      have hrow1 := hturn.row
      have hmem : u ∈ p ++ q := by
        rw [← hturn.split, hrest]
        exact mem_append_left _ hu
      rw [if_pos hp] at hrow1
      rcases mem_append.mp hmem with hup | huq
      · rw [hrow1]
        exact (singleton_sublist.mpr hup).append (singleton_sublist.mpr mem_cons_self)
      · have hagain : t ∈ fired level mask d.length s1 :=
          fired_before hlevel hturn.list harm1 (hrow1 ▸ pair_sublist huq) (by rwa [hfired])
        rw [hfired] at hagain
        exact absurd rfl (hne t (mem_append_left _ hagain))
    rcases turned_split hturn hrest hnd.of_append_left hplace with ⟨g1, hrow1, hone, hper⟩
    have hz1 : ∀ u ∈ z, (s1.timer u).timeoutTick = s1.tick := by
      intro u hu
      rw [turned_of_ne hturn (hne u (mem_append_right d (mem_append_left g hu))), hturn.tick]
      exact hz u hu
    have hg1 : ∀ u ∈ g, passes s1 s1.tick u = false := by
      intro u hu
      rw [passes, turned_of_ne hturn (hne u (mem_append_right d (mem_append_right z hu))),
        hturn.tick]
      exact hg u hu
    have hend : z = [] ∧ PeriodOk s t ∧ (∀ u ∈ d, PeriodOk s1 u) ∧ Behind level mask d s1 := by
      cases hp : (s.timer t).periodic with
      | false =>
        rw [hone hp] at hrow1
        rcases ih hturn.list harm1 hrow1 hz1 hg1 hcheck hfired with ⟨hnil, hrest'⟩
        exact ⟨hnil, fun hc => absurd (hp.symm.trans hc) Bool.false_ne_true, hrest'⟩
      | true =>
        rcases hper hp with ⟨g2, rfl, hsplit, rfl⟩
        have hcut := hturn.cut hp
        have hnew : (s1.timer t).timeoutTick = s1.tick + (s.timer t).initTick := by
          rw [hturn.timer, hturn.tick, update_self, rearmed, if_pos hp]
          rfl
        by_cases hzero : (s.timer t).initTick = 0#32
        · -- The timer is due again, so it joins those with a deadline of now.
          rw [hzero, BitVec.add_zero] at hcut hnew
          rcases cut_before hsplit (fun u hu => hcut.last u (by rw [getLast?_append, hu]; rfl)) hg
            with ⟨e, rfl, rfl⟩
          rw [← cons_append, ← append_assoc g2] at hrow1
          have hz2 : ∀ u ∈ g2 ++ t :: e, (s1.timer u).timeoutTick = s1.tick := by
            simp only [forall_mem_append, forall_mem_cons] at hz1 ⊢
            exact ⟨hz1.1, hnew, hz1.2⟩
          have hnil := (ih hturn.list harm1 hrow1 hz2 hg1 hcheck hfired).1
          exact absurd (append_eq_nil_iff.mp hnil).2 (cons_ne_nil t e)
        · rcases cut_behind hsplit hcut.head (fun u hu => passes_now (hz u hu) (hsmall hp)) with
            ⟨e, rfl, rfl⟩
          rw [append_assoc] at hrow1
          have hg2 : ∀ u ∈ e ++ t :: q, passes s1 s1.tick u = false := by
            simp only [forall_mem_append, forall_mem_cons] at hg1 ⊢
            exact ⟨hg1.1, not_passes_new hnew hzero (hsmall hp), hg1.2⟩
          rcases ih hturn.list harm1 hrow1 hz1 hg2 hcheck hfired with ⟨hnil, hrest'⟩
          exact ⟨hnil, fun _ => ⟨hzero, hsmall hp⟩, hrest'⟩
    rcases hend with ⟨hnil, hperiod, hperiods, hb⟩
    refine ⟨hnil, forall_mem_cons.mpr ⟨hperiod, fun u hu => ?_⟩, fun s2 rows2 hs2 hr2 => ?_⟩
    · have hu' := hperiods u hu
      rw [PeriodOk, turned_of_ne hturn (hne u (mem_append_left _ hu))] at hu'
      exact hu'
    · cases Option.some.inj (hafter.symm.trans hs2)
      rw [rows_unique hturn.list hr2]
      exact ⟨hplace, hb⟩

/-- A timer is put behind those that are due if their deadlines are passed. -/
theorem behind_of_passed (hrow : rows (level - 1) = d ++ g) (hd : ∀ t ∈ d, Due s t)
    (hpass : Passed s d) : Behind level mask d s := by
  induction d generalizing s rows g with
  | nil => trivial
  | cons t d ih =>
    intro s1 rows1 hafter hr1
    rcases first_spec hr hrow with ⟨ht, hnot, hnd, hrest⟩
    have hne : ∀ u ∈ d, u ≠ t := fun u hu hc => hnot (hc ▸ mem_append_left g hu)
    rw [Passed, pairwise_cons] at hpass
    rcases turn_cases hlevel hr harm ht hafter with ⟨hsmall, rows2, p, q, hturn⟩
    cases rows_unique hturn.list hr1
    have hplace : (s.timer t).periodic = true → ∀ u ∈ d, [u, t].Sublist (rows1 (level - 1)) := by
      intro hp u hu
      rcases cut_behind (hrest.symm.trans hturn.split) (hturn.cut hp).head fun v hv =>
        (passes_due (hd v (mem_cons_of_mem t hv)) (hsmall hp)).mpr (hpass.1 v hv hp) with
        ⟨g', rfl, _⟩
      rw [hturn.row, if_pos hp]
      exact (singleton_sublist.mpr (mem_append_left g' hu)).append
        (singleton_sublist.mpr mem_cons_self)
    rcases turned_split hturn hrest hnd.of_append_left hplace with ⟨g', hrow1, _⟩
    refine ⟨hplace, ih hturn.list (turned_armed hturn harm ht) hrow1 (fun u hu => ?_) ?_⟩
    · exact (turned_due hturn (hne u hu)).mpr (hd u (mem_cons_of_mem t hu))
    · refine hpass.2.imp_of_mem fun hv hu hvu => ?_
      rw [turned_of_ne hturn (hne _ hv), turned_of_ne hturn (hne _ hu), hturn.tick]
      exact hvu

/-- With one row there is no other way to put it behind them. -/
theorem passed_of_behind (hone : level = 1) (hrow : rows (level - 1) = d ++ g)
    (hd : ∀ t ∈ d, Due s t ∧ PeriodOk s t) (hb : Behind level mask d s) : Passed s d := by
  induction d generalizing s rows g with
  | nil => exact List.Pairwise.nil
  | cons t d ih =>
    rcases hd t mem_cons_self with ⟨_, hperiod⟩
    rcases first_spec hr hrow with ⟨ht, hnot, hnd, hrest⟩
    have hne : ∀ u ∈ d, u ≠ t := fun u hu hc => hnot (hc ▸ mem_append_left g hu)
    rcases turn_spec mask hlevel hr (harm t ht).1 (harm t ht).2 fun hp => (hperiod hp).2 with
      ⟨s1, rows1, p, q, hturn⟩
    rcases hb s1 rows1 hturn.after hturn.list with ⟨hplace, hb1⟩
    rcases turned_split hturn hrest hnd.of_append_left hplace with ⟨g', hrow1, _, hper⟩
    have hrec := ih hturn.list (turned_armed hturn harm ht) hrow1 (fun u hu => ?_) hb1
    · refine pairwise_cons.mpr ⟨fun u hu hp => ?_, hrec.imp_of_mem fun hv hu hvu => ?_⟩
      · rcases hper hp with ⟨g1, rfl, _⟩
        exact (passes_due (hd u (mem_cons_of_mem t hu)).1 (hperiod hp).2).mp
          (hturn.only hp hone u (mem_append_left g1 hu))
      · rw [turned_of_ne hturn (hne _ hv), turned_of_ne hturn (hne _ hu), hturn.tick] at hvu
        exact hvu
    · rw [turned_due hturn (hne u hu), PeriodOk, turned_of_ne hturn (hne u hu)]
      exact hd u (mem_cons_of_mem t hu)

omit [DecidableEq T] [Fintype T] hlevel hr harm in
theorem mem_due {row : List T} : t ∈ due s row ↔ t ∈ row ∧ Due s t := by
  rw [due, mem_filter, decide_eq_true_iff]

omit hr harm in
/-- What a check that ends after the timers that are due, and fires these, needs for it. -/
theorem dueCond_of_fires {base : BitVec 32} {row : List T} (hl : Listed level s base rows)
    (hrow : rows (level - 1) = row)
    (hcheck : rtTimerCheck level mask (replicate (due s row).length []) s = some s')
    (hfired : fired level mask (due s row).length s = due s row) :
    DueCond s row ∧ Behind level mask (due s row) s := by
  -- A timer that fires has only timers in front of it that fire.
  have hfirst : row.Pairwise fun t u => Due s u → Due s t := by
    rw [pairwise_iff_forall_sublist]
    intro t u htu hu
    have hlate : t ∈ fired level mask (due s row).length s := by
      refine fired_before hlevel hl.list hl.armed (hrow ▸ htu) ?_
      rw [hfired, mem_due]
      exact ⟨htu.subset (mem_cons_of_mem t mem_cons_self), hu⟩
    rw [hfired, mem_due] at hlate
    exact hlate.2
  have hcut := hrow.trans (filter_first hfirst)
  -- The search for a deadline of now stops at the first timer that is not due.
  have hnot : due s row ≠ [] → ∀ u ∈ row.filter fun t => ¬ Due s t, passes s s.tick u = false := by
    intro hne u hu
    rcases exists_mem_of_ne_nil _ hne with ⟨t, ht⟩
    have hsorted := hl.sorted
    rw [hcut, pairwise_append] at hsorted
    have hin : ∀ v, v ∈ row → v ∈ rows (level - 1) := fun v hv => hrow ▸ hv
    exact not_passes_now (hsorted.2.2 t ht u hu) (hl.window t (hin t (mem_due.mp ht).1))
      (hl.window u (hin u (mem_filter.mp hu).1)) (mem_due.mp ht).2
      (of_decide_eq_true (mem_filter.mp hu).2)
  change _ = due s row ++ _ at hcut
  have hmem : ∀ t, t ∈ row → Due s t → t ∈ due s row := fun t ht hdue => mem_due.mpr ⟨ht, hdue⟩
  cases hd : due s row with rw [hd] at hmem
  | nil => exact ⟨⟨hfirst, fun t ht hdue => absurd (hmem t ht hdue) not_mem_nil⟩, trivial⟩
  | cons t d =>
    rw [hd] at hcheck hfired hcut hnot
    rcases fires_needs hlevel hl.list hl.armed (z := []) hcut nofun (hnot (cons_ne_nil t d)) hcheck
      hfired with ⟨_, hperiod, hb⟩
    exact ⟨⟨hfirst, fun u hu hdue => hperiod u (hmem u hu hdue)⟩, hb⟩

omit hr harm in
/-- A check fires the timers that are due, each once and in the order of the list, and then
    ends, exactly if these timers are the first of the list, have periods that can be used and
    are put back behind those that have not fired. They are put there if the deadlines are
    passed, and with one row only then. -/
theorem check_fires (mask : BitVec 32) (base : BitVec 32) (hl : Listed level s base rows) :
    (FiresDue level mask s (rows (level - 1)) ↔
      DueCond s (rows (level - 1)) ∧ Behind level mask (due s (rows (level - 1))) s) ∧
    (DueCond s (rows (level - 1)) →
      (Passed s (due s (rows (level - 1))) → Behind level mask (due s (rows (level - 1))) s) ∧
      (level = 1 → Behind level mask (due s (rows (level - 1))) s →
        Passed s (due s (rows (level - 1))))) := by
  generalize hrow : rows (level - 1) = row
  have hcond : DueCond s row → ∀ t ∈ due s row, Due s t ∧ PeriodOk s t := fun hc t ht =>
    ⟨(mem_due.mp ht).2, hc.period t (mem_due.mp ht).1 (mem_due.mp ht).2⟩
  have hsplit : DueCond s row → rows (level - 1) = due s row ++ row.filter fun t => ¬ Due s t :=
    fun hc => hrow.trans (filter_first hc.first)
  refine ⟨⟨fun hf => ?_, fun ⟨hc, hb⟩ => ?_⟩, fun hc => ⟨fun hpass => ?_, fun hone hb => ?_⟩⟩
  · rcases hf with ⟨s', rows', _, hend⟩
    rcases hend _ le_rfl with ⟨hcheck, hfired⟩
    exact dueCond_of_fires hlevel hl hrow hcheck hfired
  · exact check_loop hlevel hl.list hl.armed mask (hsplit hc) (hcond hc)
      (fun t ht => of_decide_eq_true (mem_filter.mp ht).2) hb
  · exact behind_of_passed hlevel hl.list hl.armed (hsplit hc) (fun t ht => (hcond hc t ht).1) hpass
  · exact passed_of_behind hlevel hl.list hl.armed hone (hsplit hc) (hcond hc) hb

omit hr harm in
/-- With the timers checked at every tick, the list is as starts leave it. -/
theorem listed_of_run {tick randomNr : BitVec 32} {as : List (Action T)}
    (hC : Along (timerStep level mask) Checked (timerInit tick randomNr) as)
    (hrun : exec (timerStep level mask) (timerInit tick randomNr) as = some s)
    (hact : ∀ t, (s.timer t).activated = true) :
    ∃ rows, Listed level s s.history.lastCheck rows := by
  rcases always_exec (always_of_inv (fun s => ∃ rows, Order level s rows) id
    (timerStep_order level mask hlevel) (timerInit_order level tick randomNr) hC) hrun
    with ⟨rows, h⟩
  refine ⟨rows, h.list, fun t ht => ⟨h.registered t ht, hact t⟩, h.bound, h.sorted.imp ?_⟩
  rintro t u (hlt | heq)
  · exact hlt.le
  · exact heq.1.le

end Loop

/-- One timer fires and is off the list, another one fires and is started again. -/
theorem check_fires_two :
    ∃ s : State (Fin 2), exec (timerStep 2 3#32) (timerInit 0xffffffff#32 0#32)
        [.call (.init 0 true false 1#32), .call (.init 1 true true 1#32), .call (.start 0),
          .call (.start 1), .tick] = some s ∧
      (∃ rows, Rows 2 s.links rows ∧ FiresDue 2 3#32 s (rows 1)) ∧
      fired 2 3#32 2 s = [0, 1] := by
  refine exists_checked (C := fun s => (∀ t, (s.timer t).activated = true) ∧
    (∀ t, Due s t ∧ (s.tick - (s.timer t).timeoutTick).toNat = 0) ∧
      ∀ t, (s.timer t).initTick = 1#32) (fun s hs hC => ?_) (by decide +kernel)
  rcases listed_of_run (by omega) (of_decide_eq_true (by decide +kernel)) hs hC.1 with ⟨rows, hl⟩
  have hcond : DueCond s (rows 1) := by
    refine ⟨pairwise_of_forall fun t u _ => (hC.2.1 t).1, fun t _ _ _ => ?_⟩
    rw [hC.2.2 t]
    decide
  have hpass : Passed s (due s (rows 1)) := by
    refine pairwise_of_forall fun t u _ => ?_
    rw [(hC.2.1 u).2, hC.2.2 t]
    decide
  rcases check_fires (by omega) 3#32 _ hl with ⟨hiff, hbehind⟩
  exact ⟨rows, hl.list, hiff.mpr ⟨hcond, (hbehind hcond).1 hpass⟩⟩

/-- A periodic timer is started for no time. The check fires it again and again. -/
theorem check_spins :
    ∃ s : State (Fin 1), exec (timerStep 1 3#32) (timerInit 0#32 0#32)
        [.call (.init 0 true true 0#32), .call (.start 0)] = some s ∧ Due s 0 ∧
      fired 1 3#32 4 s = [0, 0, 0, 0] ∧ rtTimerCheck 1 3#32 (replicate 4 []) s = none :=
  exists_of_run _ (by decide +kernel) fun _ _ h => h

end Honeycomb.Timers
