import Honeycomb.Theory.TimerRows

/-!
# The Order of the Timer List

The last row of the timer list is in the order of the deadlines. Deadlines are words
that wrap around, so an order of them needs a tick to count from, and this tick is
that of the last check of the timers: a check leaves no timer on the list that was
due before it, and no timer is started for more than half of all ticks.

As long as the timers are checked at every tick, the clock is at most one tick ahead
of the last check. Then all deadlines on the list are within half of all ticks from
there, and the differences that the search compares are right, also in the calls of
callbacks, and across the wrap.

Counted from the current tick the same order is one of the time that remains, with
one exception. Between a tick and its check, a timer that was started for no time at
all is one tick behind. It is still the first of the list, but its remaining time as
a word is the largest there is.

## Theorems

* `timer_list_ordered`: The order holds in every state of a run.
* `remaining_disordered`: A list that is not in the order of the remaining times.
-/

namespace Honeycomb.Timers

open Function List Run

variable {level : Nat} {T : Type}

/-- The deadline of a timer, counted from the last check. -/
def since (s : State T) (t : T) : Nat :=
  ((s.timer t).timeoutTick - s.history.lastCheck).toNat

/-- How far the clock is ahead of the last check. -/
def ahead (s : State T) : Nat :=
  (s.tick - s.history.lastCheck).toNat

/-- The order of the list: by deadline, and by start if these are equal. -/
def Earlier (s : State T) (t u : T) : Prop :=
  since s t < since s u ∨ since s t = since s u ∧ s.history.startNo t < s.history.startNo u

/-- The timers on the list are in order, all deadlines are within half of all ticks from the
    current one, and one at the last check is that of a timer started for no time. -/
structure Order (level : Nat) (s : State T) (rows : Nat → List T) : Prop where
  list : Rows level s.links rows
  registered : ∀ t ∈ rows (level - 1), (s.timer t).registered = true
  clock : ahead s ≤ 1
  bound : ∀ t ∈ rows (level - 1), since s t ≤ ahead s + 0x7ffffffe
  sorted : (rows (level - 1)).Pairwise (Earlier s)
  count : ∀ t ∈ rows (level - 1), s.history.startNo t < s.history.starts
  zero : ∀ t ∈ rows (level - 1), since s t = 0 → s.history.startTime t = 0#32

theorem half_toNat : (rtTickMax / 2#32).toNat = 0x7fffffff := rfl

theorem sub_toNat (a b c : BitVec 32) :
    (a - b).toNat = ((a - c).toNat + (2 ^ 32 - (b - c).toNat)) % 2 ^ 32 := by
  simp only [BitVec.toNat_sub]
  omega

section Search

variable (s : State T)

/-- The search for a deadline that is not too far passes the timers up to it. -/
theorem passes_iff {timeout : BitVec 32} {t : T} (hclock : ahead s ≤ 1)
    (hbound : since s t ≤ ahead s + 0x7ffffffe)
    (hlow : ahead s ≤ (timeout - s.history.lastCheck).toNat)
    (hhigh : (timeout - s.history.lastCheck).toNat ≤ ahead s + 0x7ffffffe) :
    passes s timeout t = true ↔ since s t ≤ (timeout - s.history.lastCheck).toNat := by
  have hdiff := sub_toNat (s.timer t).timeoutTick timeout s.history.lastCheck
  simp only [passes, Bool.or_eq_true, decide_eq_true_eq, Bool.not_eq_true',
    decide_eq_false_iff_not, BitVec.lt_def, half_toNat, ← BitVec.toNat_inj, BitVec.toNat_ofNat,
    hdiff]
  rw [since] at hbound ⊢
  omega

/-- A timer on the list is due when its deadline is not ahead of the clock. -/
theorem due_iff {t : T} (hclock : ahead s ≤ 1) (hbound : since s t ≤ ahead s + 0x7ffffffe) :
    s.tick - (s.timer t).timeoutTick < rtTickMax / 2#32 ↔ since s t ≤ ahead s := by
  have hdiff := sub_toNat s.tick (s.timer t).timeoutTick s.history.lastCheck
  rw [BitVec.lt_def, half_toNat, hdiff]
  rw [since, ahead] at *
  omega

theorem start_toNat {initTick : BitVec 32} (hclock : ahead s ≤ 1)
    (hinit : initTick < rtTickMax / 2#32) :
    (s.tick + initTick - s.history.lastCheck).toNat = ahead s + initTick.toNat := by
  rw [BitVec.lt_def, half_toNat] at hinit
  rw [ahead] at *
  simp only [BitVec.toNat_sub, BitVec.toNat_add] at *
  omega

end Search

variable {s s' : State T} {rows rows' : Nat → List T} {t : T}

section Calls

variable [DecidableEq T] {level : Nat}

omit [DecidableEq T] in
/-- Timers that leave the list, and writes to what is no part of the order, keep the
    order of the rest. -/
theorem order_sublist (h : Order level s rows) (hr : Rows level s'.links rows')
    (hsub : (rows' (level - 1)).Sublist (rows (level - 1)))
    (hkeep : ∀ t ∈ rows' (level - 1), (s'.timer t).timeoutTick = (s.timer t).timeoutTick ∧
      (s'.timer t).registered = (s.timer t).registered)
    (htick : s'.tick = s.tick) (hlast : s'.history.lastCheck = s.history.lastCheck)
    (hno : s'.history.startNo = s.history.startNo)
    (hstarts : s'.history.starts = s.history.starts)
    (htime : s'.history.startTime = s.history.startTime) : Order level s' rows' := by
  have hahead : ahead s' = ahead s := by rw [ahead, ahead, htick, hlast]
  have hsince : ∀ t ∈ rows' (level - 1), since s' t = since s t := by
    intro t ht
    rw [since, since, (hkeep t ht).1, hlast]
  refine ⟨hr, ?_, hahead ▸ h.clock, ?_, ?_, ?_, ?_⟩
  · intro t ht
    rw [(hkeep t ht).2]
    exact h.registered t (hsub.subset ht)
  · intro t ht
    rw [hsince t ht, hahead]
    exact h.bound t (hsub.subset ht)
  · refine (h.sorted.sublist hsub).imp_of_mem ?_
    intro t u ht hu htu
    rw [Earlier, hsince t ht, hsince u hu, hno]
    exact htu
  · intro t ht
    rw [hno, hstarts]
    exact h.count t (hsub.subset ht)
  · intro t ht hzero
    rw [htime]
    exact h.zero t (hsub.subset ht) (hsince t ht ▸ hzero)

omit [DecidableEq T] in
/-- Whatever is before the place found for a timer has a deadline up to its own, and
    whatever is behind it has a later one. -/
theorem cut_order {s : State T} {pass : T → Bool} {row p q : List T} (hcut : Cut pass row p q)
    (hsorted : row.Pairwise (Earlier s)) (bound : Nat)
    (hpass : ∀ t ∈ row, pass t = true ↔ since s t ≤ bound) :
    (∀ t ∈ p, since s t ≤ bound) ∧ ∀ t ∈ q, bound < since s t := by
  have hle : ∀ t u, Earlier s t u → since s t ≤ since s u := by
    intro t u h
    rcases h with h | h
    · omega
    · omega
  rw [hcut.split, pairwise_append] at hsorted
  constructor
  · intro t ht
    rcases eq_nil_or_concat' p with hp | ⟨p', u, hp⟩
    · cases hp ▸ ht
    have hu : since s u ≤ bound := by
      refine (hpass u ?_).mp (hcut.last u (by rw [hp, getLast?_concat]))
      rw [hcut.split, hp]
      exact mem_append_left q (mem_append_right p' mem_cons_self)
    have hpu := hsorted.1
    rw [hp, pairwise_append] at hpu
    rw [hp, mem_append, mem_singleton] at ht
    rcases ht with ht | ht
    · exact (hle t u (hpu.2.2 t ht u mem_cons_self)).trans hu
    · rw [ht]
      exact hu
  intro t ht
  cases hq : q with
  | nil =>
    cases hq ▸ ht
  | cons u us =>
    have hu : bound < since s u := by
      have hnot := hcut.head u (by rw [hq]; rfl)
      have hmem : u ∈ row := by
        rw [hcut.split, hq]
        exact mem_append_right p mem_cons_self
      by_contra hc
      rw [(hpass u hmem).mpr (by omega)] at hnot
      exact nomatch hnot
    have hqu := hsorted.2.1
    rw [hq, pairwise_cons] at hqu
    rw [hq, mem_cons] at ht
    rcases ht with ht | ht
    · rw [ht]
      exact hu
    · exact hu.trans_le (hle u t (hqu.1 t ht))

theorem start_order {p q : List T} (h : Order level s rows) (hreg : (s.timer t).registered = true)
    (hinit : (s.timer t).initTick < rtTickMax / 2#32) (hs : Started level s s' t rows rows' p q) :
    Order level s' rows' := by
  have hnew := start_toNat s h.clock hinit
  have hinit' := hinit
  rw [BitVec.lt_def, half_toNat] at hinit'
  have hahead : ahead s' = ahead s := by rw [ahead, ahead, hs.tick, hs.history]
  have hold : ∀ u, u ∈ p ++ q → u ∈ rows (level - 1) ∧ u ≠ t := by
    intro u hu
    rw [← hs.cut.split, mem_without] at hu
    exact hu
  have hsince : ∀ u ∈ p ++ q, since s' u = since s u := by
    intro u hu
    rw [since, since, hs.timer, hs.history, update_of_ne (hold u hu).2]
  have hself : since s' t = ahead s + (s.timer t).initTick.toNat := by
    rw [since, hs.timer, hs.history, update_self, Timer.start]
    exact hnew
  have hno : ∀ u ∈ p ++ q, s'.history.startNo u = s.history.startNo u := by
    intro u hu
    rw [hs.history]
    exact update_of_ne (hold u hu).2 _ _
  have hnoself : s'.history.startNo t = s.history.starts := by
    rw [hs.history]
    exact update_self _ _ _
  have hsorted : (p ++ q).Pairwise (Earlier s) := by
    rw [← hs.cut.split]
    exact h.sorted.sublist filter_sublist
  have hplace := cut_order hs.cut (hs.cut.split ▸ hsorted)
    (ahead s + (s.timer t).initTick.toNat) (fun u hu => by
      rw [← hnew]
      have hu' := h.bound u (mem_without.mp hu).1
      exact passes_iff s h.clock hu' (by omega) (by omega))
  have hearlier : ∀ u v, u ∈ p ++ q → v ∈ p ++ q → Earlier s u v → Earlier s' u v := by
    intro u v hu hv huv
    rw [Earlier, hsince u hu, hsince v hv, hno u hu, hno v hv]
    exact huv
  have hmem : ∀ u, u ∈ rows' (level - 1) → u = t ∨ u ∈ p ++ q := by
    intro u hu
    rw [hs.row, mem_append, mem_cons] at hu
    rw [mem_append]
    rcases hu with hu | hu | hu
    · exact .inr (.inl hu)
    · exact .inl hu
    · exact .inr (.inr hu)
  refine ⟨hs.list, ?_, hahead ▸ h.clock, ?_, ?_, ?_, ?_⟩
  · intro u hu
    rw [hs.timer]
    rcases hmem u hu with rfl | hu
    · rw [update_self]
      exact hreg
    · rw [update_of_ne (hold u hu).2]
      exact h.registered u (hold u hu).1
  · intro u hu
    rw [hahead]
    rcases hmem u hu with rfl | hu
    · omega
    · rw [hsince u hu]
      exact h.bound u (hold u hu).1
  · -- The new timer is the last that was started, so it is behind all with its deadline.
    rw [pairwise_append] at hsorted
    rw [hs.row, pairwise_append, pairwise_cons]
    refine ⟨hsorted.1.imp_of_mem (fun hu hv huv => hearlier _ _ (mem_append_left q hu)
        (mem_append_left q hv) huv),
      ⟨?_, hsorted.2.1.imp_of_mem (fun hu hv huv => hearlier _ _ (mem_append_right p hu)
        (mem_append_right p hv) huv)⟩, ?_⟩
    · intro v hv
      refine .inl ?_
      rw [hself, hsince v (mem_append_right p hv)]
      exact hplace.2 v hv
    intro u hu v hv
    rcases mem_cons.mp hv with rfl | hv
    · have hu' := mem_append_left q hu
      have hle := hplace.1 u hu
      rw [Earlier, hself, hsince u hu', hno u hu', hnoself]
      have hcount := h.count u (hold u hu').1
      omega
    · exact hearlier u v (mem_append_left q hu) (mem_append_right p hv) (hsorted.2.2 u hu v hv)
  · intro u hu
    have hstarts : s'.history.starts = s.history.starts + 1 := by rw [hs.history]
    rw [hstarts]
    rcases hmem u hu with rfl | hu
    · rw [hnoself]
      exact Nat.lt_succ_self _
    · rw [hno u hu]
      exact Nat.lt_succ_of_lt (h.count u (hold u hu).1)
  · intro u hu hzero
    rw [hs.history]
    rcases hmem u hu with rfl | hu
    · refine (update_self _ _ _).trans (BitVec.eq_of_toNat_eq ?_)
      rw [hself] at hzero
      exact Nat.eq_zero_of_add_eq_zero_left hzero
    · rw [hsince u hu] at hzero
      exact (update_of_ne (hold u hu).2 _ _).trans (h.zero u (hold u hu).1 hzero)

theorem order_set (t : T) (f : Timer → Timer)
    (hkeep : ∀ b, (f b).registered = b.registered ∧ (f b).timeoutTick = b.timeoutTick)
    (h : Order level s rows) : Order level (s.set t f) rows := by
  refine order_sublist h h.list (List.Sublist.refl _) ?_ rfl rfl rfl rfl rfl
  intro u _
  by_cases hut : u = t
  · rw [hut, set_self]
    exact ⟨(hkeep (s.timer t)).2, (hkeep (s.timer t)).1⟩
  · rw [set_of_ne hut]
    exact ⟨rfl, rfl⟩

theorem effect_order (h : Order level s rows) (he : Effect level s rows s' rows') :
    Order level s' rows' := by
  cases he with
  | create t b hfree hidle =>
    refine order_sublist h h.list (List.Sublist.refl _) ?_ rfl rfl rfl rfl rfl
    intro u hu
    have hut : u ≠ t := by
      intro hc
      have hreg := h.registered u hu
      rw [hc, hfree] at hreg
      exact nomatch hreg
    rw [set_of_ne hut]
    exact ⟨rfl, rfl⟩
  | start t s'' _ p q hreg hinit hstarted =>
    have hs := start_order h hreg hinit hstarted
    exact order_sublist hs hs.list (List.Sublist.refl _) (fun u _ => ⟨rfl, rfl⟩) rfl rfl rfl rfl rfl
  | idle t hreg hact =>
    exact order_sublist h h.list (List.Sublist.refl _) (fun u _ => ⟨rfl, rfl⟩) rfl rfl rfl rfl rfl
  | stop t hreg hact =>
    refine order_sublist h (rows_remove h.list t) filter_sublist ?_ rfl rfl rfl rfl rfl
    intro u hu
    have hut := (mem_without.mp hu).2
    simp only [State.note, State.set, update_of_ne hut, and_self]
  | control t f hreg hkeep =>
    exact order_set t f (fun b => ⟨(hkeep b).1, (hkeep b).2.2⟩) h
  | release t hreg =>
    refine order_sublist h (rows_remove h.list t) filter_sublist ?_ rfl rfl rfl rfl rfl
    intro u hu
    have hut := (mem_without.mp hu).2
    simp only [rtTimerRelease, State.set, update_of_ne hut, and_self]

variable {mask : BitVec 32} [Fintype T] (hlevel : 0 < level)

include hlevel

variable (h : ∃ rows, Order level s rows)
include h

theorem call_order {c : Call T}
    (hc : call level mask s c = some s') : ∃ rows, Order level s' rows := by
  rcases h with ⟨rows, h⟩
  rcases call_effect level hlevel h.list h.registered hc with ⟨rows', he, _⟩
  exact ⟨rows', effect_order h he⟩

theorem callAll_order {cs : List (Call T)}
    (hc : callAll level mask cs s = some s') : ∃ rows, Order level s' rows := by
  induction cs generalizing s with
  | nil =>
    cases hc
    exact h
  | cons c cs ih =>
    rw [callAll, Option.bind_eq_some_iff] at hc
    rcases hc with ⟨s1, hs1, hrest⟩
    exact ih (call_order hlevel h hs1) hrest

theorem afterCallback_order (ha : afterCallback level mask s t = some s') :
    ∃ rows, Order level s' rows := by
  rcases h with ⟨rows, h⟩
  have hset := order_set t (fun b => { b with activated := false }) (fun b => ⟨rfl, rfl⟩) h
  rw [afterCallback] at ha
  split_ifs at ha with hagain
  · rcases rtTimerStart_cases hlevel hset.list ha with
      ⟨hreg, hinit, rows', p, q, hstarted⟩
    exact ⟨rows', start_order hset hreg hinit hstarted⟩
  · rw [Option.some.injEq] at ha
    exact ⟨rows, ha ▸ hset⟩

omit h

omit [Fintype T] hlevel in
theorem expire_order (level : Nat) (s : State T) (t : T) (h : ∃ rows, Order level s rows) :
    ∃ rows, Order level (expire level s t) rows := by
  rcases h with ⟨rows, h⟩
  exact ⟨without rows t, order_sublist h (rows_remove h.list t)
    filter_sublist (fun u _ => ⟨rfl, rfl⟩) rfl rfl rfl rfl rfl⟩

theorem check_order {callbacks : List (List (Call T))} (h : ∃ rows, Order level s rows)
    (hc : rtTimerCheck level mask callbacks s = some s') :
    (∃ rows, Order level s' rows) ∧ firstDue level s' = some none := by
  have hend := check_keeps level (P := fun _ s => ∃ rows, Order level s rows) ?_ h hc
  · exact ⟨hend.1.elim fun _ h => h, hend.2⟩
  · intro _ _ s t _ _ h _ hs1 hs2
    exact afterCallback_order hlevel (callAll_order hlevel (expire_order level s t h) hs1) hs2

omit [Fintype T] hlevel in
/-- When no timer is due the deadlines can be counted from the current tick. -/
theorem order_checked (h : Order level s rows) (hdue : firstDue level s = some none) :
    Order level { s with history := { s.history with lastCheck := s.tick } } rows := by
  -- The first timer is ahead of the clock, and so are those behind it.
  have hlater : ∀ t ∈ rows (level - 1), ahead s < since s t := by
    cases hrow : rows (level - 1) with
    | nil =>
      intro t ht
      exact absurd ht not_mem_nil
    | cons u us =>
      have hsorted := h.sorted
      have hbound := h.bound u (by rw [hrow]; exact mem_cons_self)
      rw [firstDue_cons level h.list hrow, Option.some.injEq] at hdue
      rw [hrow, pairwise_cons] at hsorted
      have hu : ahead s < since s u := by
        by_contra hc
        rw [if_pos ((due_iff s h.clock hbound).mpr (by omega))] at hdue
        exact nomatch hdue
      intro t ht
      rcases mem_cons.mp ht with htu | ht
      · rw [htu]
        exact hu
      · rcases hsorted.1 t ht with hlt | heq
        · omega
        · omega
  have hsince : ∀ t ∈ rows (level - 1),
      since { s with history := { s.history with lastCheck := s.tick } } t =
        since s t - ahead s := by
    intro t ht
    have hlt := hlater t ht
    have hdiff := sub_toNat (s.timer t).timeoutTick s.tick s.history.lastCheck
    simp only [since, ahead] at hlt ⊢
    omega
  have hzero : ahead { s with history := { s.history with lastCheck := s.tick } } = 0 := by
    rw [ahead, BitVec.sub_self]
    rfl
  refine ⟨h.list, h.registered, by omega, ?_, ?_, h.count, ?_⟩
  · intro t ht
    have hbound := h.bound t ht
    rw [hsince t ht, hzero]
    omega
  · refine h.sorted.imp_of_mem ?_
    intro t u ht hu htu
    have hlt := hlater t ht
    rw [Earlier, hsince t ht, hsince u hu]
    rcases htu with h1 | h1
    · exact .inl (by omega)
    · exact .inr ⟨by omega, h1.2⟩
  · intro t ht hzero
    have hlt := hlater t ht
    rw [hsince t ht] at hzero
    omega

end Calls

section Runs

variable [DecidableEq T]

/-- The timers are checked at every tick: the clock only goes on after a check. -/
def Checked (s : State T) : Action T → Prop
  | .call _ => True
  | .tick => s.history.lastCheck = s.tick
  | .check _ => True

instance decidableChecked (s : State T) : ∀ a : Action T, Decidable (Checked s a)
  | .call _ => isTrue trivial
  | .tick => inferInstanceAs (Decidable (s.history.lastCheck = s.tick))
  | .check _ => isTrue trivial

def remaining (s : State T) (t : T) : Nat :=
  ((s.timer t).timeoutTick - s.tick).toNat

/-- The rows are what the links say, each is a part of the one below, and the last has
    the timers in the order of their deadlines, counted from the last check, and of
    their starts. This is the order of the times that remain if no deadline is behind the
    clock, as after every check, and only a timer that was started for no time has a deadline
    there. The next timeout is the first deadline. -/
structure ListOrdered (level : Nat) (s : State T) (rows : Nat → List T) : Prop where
  ring : ∀ lvl, lvl < level →
    Ring.Seg s.links (.inl lvl) ((rows lvl).map fun t => .inr (t, lvl)) (.inl lvl)
  nodup : ∀ lvl, lvl < level → (rows lvl).Nodup
  part : ∀ lvl, lvl + 1 < level → (rows lvl).Sublist (rows (lvl + 1))
  sorted : (rows (level - 1)).Pairwise (Earlier s)
  remains : (s.tick = s.history.lastCheck ∨ ∀ t ∈ rows (level - 1), ahead s ≤ since s t) →
    (rows (level - 1)).Pairwise fun t u => remaining s t < remaining s u ∨
      (s.timer t).timeoutTick = (s.timer u).timeoutTick ∧ s.history.startNo t < s.history.startNo u
  behind : ∀ t ∈ rows (level - 1), since s t < ahead s → s.history.startTime t = 0#32
  none : rows (level - 1) = [] → rtTimerNextTimeoutTick level s = some rtTickMax
  next : rows (level - 1) ≠ [] → ∃ t ∈ rows (level - 1),
    rtTimerNextTimeoutTick level s = some (s.timer t).timeoutTick ∧
      ∀ u ∈ rows (level - 1), since s t ≤ since s u

omit [DecidableEq T] in
/-- If no deadline is behind the clock, the times that remain are in order. -/
theorem remaining_sorted (h : Order level s rows)
    (hahead : ∀ t ∈ rows (level - 1), ahead s ≤ since s t) :
    (rows (level - 1)).Pairwise fun t u => remaining s t < remaining s u ∨
      (s.timer t).timeoutTick = (s.timer u).timeoutTick ∧
        s.history.startNo t < s.history.startNo u := by
  have hremains : ∀ t ∈ rows (level - 1), remaining s t = since s t - ahead s := by
    intro t ht
    have hle := hahead t ht
    have hdiff := sub_toNat (s.timer t).timeoutTick s.tick s.history.lastCheck
    simp only [since, ahead, remaining] at hle ⊢
    omega
  refine h.sorted.imp_of_mem ?_
  intro t u ht hu htu
  have hlt := hahead t ht
  rw [hremains t ht, hremains u hu]
  rcases htu with h1 | h1
  · exact .inl (by omega)
  refine .inr ⟨?_, h1.2⟩
  have heq := BitVec.eq_of_toNat_eq h1.1
  rw [← BitVec.sub_add_cancel (s.timer t).timeoutTick s.history.lastCheck, heq,
    BitVec.sub_add_cancel]

theorem listOrdered_of_order (h : Order level s rows) : ListOrdered level s rows := by
  refine ⟨?_, fun lvl _ => rows_nodup h.list lvl, h.list.sub, h.sorted, ?_, ?_, ?_, ?_⟩
  · intro lvl _
    have hring := h.list.rep.ring lvl
    rw [nodes, map_map] at hring
    exact hring
  · intro hor
    refine remaining_sorted h ?_
    intro t ht
    rcases hor with hnow | hall
    · have hzero : ahead s = 0 := by
        rw [ahead, hnow, BitVec.sub_self]
        rfl
      omega
    · exact hall t ht
  · intro t ht hlt
    have hclock := h.clock
    exact h.zero t ht (by omega)
  · intro hrow
    have hempty := rows_isempty h.list (level - 1)
    rw [hrow, isEmpty_nil] at hempty
    rw [rtTimerNextTimeoutTick, hempty, if_pos rfl]
  intro hrow
  cases hr : rows (level - 1) with
  | nil => exact absurd hr hrow
  | cons u us =>
    have hempty := rows_isempty h.list (level - 1)
    have hsorted := h.sorted
    rw [hr, isEmpty_cons] at hempty
    rw [hr, pairwise_cons] at hsorted
    refine ⟨u, mem_cons_self, ?_, ?_⟩
    · rw [rtTimerNextTimeoutTick, hempty, rows_entry h.list hr]
      rfl
    · intro v hv
      rcases mem_cons.mp hv with hvu | hv
      · rw [hvu]
      · rcases hsorted.1 v hv with h1 | h1
        · omega
        · omega

variable [Fintype T] (level : Nat) (mask : BitVec 32)

omit [DecidableEq T] [Fintype T] in
theorem timerInit_order (tick randomNr : BitVec 32) :
    ∃ rows, Order level (timerInit tick randomNr : State T) rows := by
  have hahead : ahead (timerInit tick randomNr : State T) = 0 := by
    rw [ahead, timerInit, BitVec.sub_self]
    rfl
  exact ⟨fun _ => [], timerInit_rows, nofun, by omega, nofun, List.Pairwise.nil, nofun, nofun⟩

theorem timerStep_order (hlevel : 0 < level) {a : Action T} (h : ∃ rows, Order level s rows)
    (hchecked : Checked s a) (hs : timerStep level mask s a = some s') :
    ∃ rows, Order level s' rows := by
  cases a with
  | call c => exact call_order hlevel h hs
  | tick =>
    rcases h with ⟨rows, h⟩
    rw [timerStep, Option.some.injEq] at hs
    rw [Checked] at hchecked
    rw [← hs]
    -- The clock was where the last check was, and is one tick ahead now.
    have hone : ahead { s with tick := s.tick + 1#32 } = 1 := by
      simp only [ahead, hchecked]
      bv_omega
    have hzero : ahead s = 0 := by
      rw [ahead, hchecked, BitVec.sub_self]
      rfl
    refine ⟨rows, { h with clock := by omega, bound := ?_ }⟩
    intro t ht
    have hbound := h.bound t ht
    exact hbound.trans (by omega)
  | check callbacks =>
    simp only [timerStep, Option.map_eq_some_iff] at hs
    rcases hs with ⟨s1, hs1, hs⟩
    rcases check_order hlevel h hs1 with ⟨⟨rows, h1⟩, hdue⟩
    exact ⟨rows, hs ▸ order_checked h1 hdue⟩

/-- With the timers checked at every tick, the timer list is in order in every state of every run,
    for every number of rows and all starting values of the clock and of the counter. -/
theorem timer_list_ordered (hlevel : 0 < level) (tick randomNr : BitVec 32) (as : List (Action T))
    (hchecked : Along (timerStep level mask) Checked (timerInit tick randomNr) as) :
    Always (timerStep level mask) (fun s => ∃ rows, ListOrdered level s rows)
      (timerInit tick randomNr) as := by
  refine always_of_inv (fun s => ∃ rows, Order level s rows) ?_
    (timerStep_order level mask hlevel) (timerInit_order level tick randomNr) hchecked
  rintro s ⟨rows, h⟩
  exact ⟨rows, listOrdered_of_order h⟩

/-- Three timers on two rows, with deadlines on both sides of the wrap. Two have the same
    deadline, one of them is also on the upper row, and the third is periodic and has the
    first of them started again when it fires. -/
theorem timer_list_ordered_wrap :
    Always (timerStep 2 3#32) (fun s => ∃ rows, ListOrdered 2 s rows)
      (timerInit 0xfffffffd#32 2#32 : State (Fin 3))
      [.call (.init 0 true false 5#32), .call (.init 1 true true 2#32),
        .call (.init 2 true false 5#32), .check [], .call (.start 0), .call (.start 2),
        .call (.start 1), .tick, .check [], .tick, .check [[.start 0]], .tick] ∧
    (exec (timerStep 2 3#32) (timerInit 0xfffffffd#32 2#32 : State (Fin 3))
      [.call (.init 0 true false 5#32), .call (.init 1 true true 2#32),
        .call (.init 2 true false 5#32), .check [], .call (.start 0), .call (.start 2),
        .call (.start 1), .tick, .check [], .tick, .check [[.start 0]], .tick]).map (fun s =>
      ([s.links.next (.inl 0), s.links.next (.inl 1), s.links.next (.inr (1, 1)),
        s.links.next (.inr (2, 1))], rtTimerNextTimeoutTick 2 s)) =
      some ([.inr (2, 0), .inr (1, 1), .inr (2, 1), .inr (0, 1)], some 1#32) :=
  ⟨timer_list_ordered 2 3#32 (by omega) _ _ _ (of_decide_eq_true (by decide +kernel)),
    by decide +kernel⟩

/-- Two timers are started after a check, one of them for no time at all. At the next tick,
    before the check, it is first on the list, but its remaining time is the largest. -/
theorem remaining_disordered :
    ∃ s : State (Fin 2),
      Along (timerStep 1 3#32) Checked (timerInit 0#32 0#32 : State (Fin 2))
        [.call (.init 0 true false 0#32), .call (.init 1 true false 5#32), .check [],
          .call (.start 0), .call (.start 1), .tick] ∧
      exec (timerStep 1 3#32) (timerInit 0#32 0#32 : State (Fin 2))
        [.call (.init 0 true false 0#32), .call (.init 1 true false 5#32), .check [],
          .call (.start 0), .call (.start 1), .tick] = some s ∧
      Ring.Seg s.links (.inl 0) [.inr (0, 0), .inr (1, 0)] (.inl 0) ∧
      remaining s 0 = 0xffffffff ∧ remaining s 1 = 4 :=
  exists_and_left.mpr ⟨of_decide_eq_true (by decide +kernel), exists_of_run (fun s =>
    ((s.links.next (.inl 0) = .inr (0, 0) ∧ s.links.prev (.inr (0, 0)) = .inl 0) ∧
      (s.links.next (.inr (0, 0)) = .inr (1, 0) ∧ s.links.prev (.inr (1, 0)) = .inr (0, 0)) ∧
      s.links.next (.inr (1, 0)) = .inl 0 ∧ s.links.prev (.inl 0) = .inr (1, 0)) ∧
      remaining s 0 = 0xffffffff ∧ remaining s 1 = 4) (by decide +kernel)
    fun s _ ⟨⟨⟨ha, hb⟩, ⟨hc, hd⟩, he, hf⟩, hr⟩ => ⟨⟨ha, hb, hc, hd, he, hf⟩, hr⟩⟩

end Runs

end Honeycomb.Timers
