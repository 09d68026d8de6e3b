import Honeycomb.Theory.TimerRows

/-!
# Timers that Run and their Flag

A timer that is on the list has its flag set, and the other way around. The flag is
what `rt_timer_stop` looks at: a timer without it is taken to be stopped already and
left where it is. So a timer on the list without the flag cannot be stopped.

The flag and the list are written one after the other, and while the callback of a
timer runs they differ: the timer is off the list and still has the flag. What the
check does after the callback makes them agree again if the callback stopped the timer,
if it did nothing to it, and if the timer is periodic, since a periodic timer is started
then. A timer that is not periodic loses its flag there, also if the callback has
started it again and it is on the list.

`RestartCond` leaves this out: whenever a callback returns, its timer is not on the list
or is periodic. Under this condition the flag is right after every call and every check,
and no timer fires that was stopped and not started since.

## Theorems

* `timer_armed`: The flags are right in every state of a run.
* `restart_unstoppable`: A timer that fires after it was stopped.
-/

namespace Honeycomb.Timers

open Bool Function List Option Run

variable {level : Nat} {T : Type} [DecidableEq T]

/-- Whether a timer is on the list: its node in the last row leads elsewhere. -/
def linked (level : Nat) (s : State T) (t : T) : Bool :=
  decide (s.links.next (.inr (t, level - 1)) ≠ .inr (t, level - 1))

variable {rows rows' : Nat → List T} {s s' : State T} {t : T} {firing : Option T}

omit [DecidableEq T] in
/-- The node behind the one of a timer on a row is the head or that of another timer. -/
theorem rows_next {m : Links (Node T)} {lvl : Nat} (hr : Rows level m rows) (ht : t ∈ rows lvl) :
    m.next (.inr (t, lvl)) = .inl lvl ∨
      ∃ u ∈ rows lvl, u ≠ t ∧ m.next (.inr (t, lvl)) = .inr (u, lvl) := by
  rcases Ring.rep_split hr.rep lvl (mem_nodes.mpr ⟨ht, rfl⟩) with
    ⟨xs, ys, hrow, _, hy, _, hseg⟩
  rcases mem_cons.mp (Ring.seg_next_mem hseg) with hnext | hnext
  · exact .inl hnext
  rcases mem_map.mp hnext with ⟨⟨u, i⟩, hu, hn⟩
  have hmem : (u, i) ∈ nodes rows lvl := hrow ▸ mem_append_right xs (mem_cons_of_mem _ hu)
  rcases mem_nodes.mp hmem with ⟨hu', rfl⟩
  exact .inr ⟨u, hu', fun hc => hy (hc ▸ hu), hn.symm⟩

theorem linked_iff {s : State T} (hr : Rows level s.links rows) {t : T} :
    linked level s t = true ↔ t ∈ rows (level - 1) := by
  rw [linked, decide_eq_true_iff]
  constructor
  · intro hne
    by_contra hc
    refine hne (hr.rep.loose (t, level - 1) (fun lvl hm => ?_)).1
    exact not_mem_rows hr hc lvl (mem_nodes.mp hm).1
  intro ht hc
  rcases rows_next hr ht with hnext | ⟨u, _, hne, hnext⟩
  · exact nomatch hc.symm.trans hnext
  · cases hc.symm.trans hnext
    exact hne rfl

/-- The flags of the timers, while the callback of one of them may run. -/
structure Flags (level : Nat) (s : State T) (rows : Nat → List T) (firing : Option T) :
    Prop where
  list : Rows level s.links rows
  registered : ∀ t ∈ rows (level - 1), (s.timer t).registered = true
  flag : ∀ t ∈ rows (level - 1), (s.timer t).activated = true
  listed : ∀ t, firing ≠ some t → (s.timer t).registered = true →
    (s.timer t).activated = true → t ∈ rows (level - 1)
  stopped : ∀ t, s.history.stopped t = true → (s.timer t).activated = false
  late : s.history.late = false

/-- What the flags say: a timer is on the list exactly when it has the flag, and none
    fired after it was stopped. -/
structure Armed (level : Nat) (s : State T) : Prop where
  flag : ∀ t, (s.timer t).registered = true →
    (linked level s t = true ↔ (s.timer t).activated = true)
  late : s.history.late = false

theorem armed_of_flags (h : Flags level s rows none) : Armed level s := by
  refine ⟨fun t hreg => ?_, h.late⟩
  rw [linked_iff h.list]
  exact ⟨h.flag t, h.listed t (by rintro ⟨⟩) hreg⟩

section Calls

variable (level : Nat)

omit [DecidableEq T] in
variable {level} in
/-- One timer is changed. Its callback may be over then, or begin. -/
theorem flags_at {firing' : Option T} (t : T) (h : Flags level s rows firing)
    (hfiring : ∀ u, u ≠ t → firing' ≠ some u → firing ≠ some u) (hr : Rows level s'.links rows')
    (hmem : ∀ u, u ≠ t → (u ∈ rows' (level - 1) ↔ u ∈ rows (level - 1)))
    (hother : ∀ u, u ≠ t → s'.timer u = s.timer u ∧ s'.history.stopped u = s.history.stopped u)
    (hin : t ∈ rows' (level - 1) → (s'.timer t).registered = true ∧ (s'.timer t).activated = true)
    (hon : firing' ≠ some t → (s'.timer t).registered = true → (s'.timer t).activated = true →
      t ∈ rows' (level - 1))
    (hstop : s'.history.stopped t = true → (s'.timer t).activated = false)
    (hlate : s'.history.late = false) : Flags level s' rows' firing' := by
  have hsplit : ∀ P : T → Prop, P t → (∀ u, u ≠ t → P u) → ∀ u, P u := by
    intro P ht hu u
    rcases eq_or_ne u t with rfl | hut
    · exact ht
    · exact hu u hut
  refine ⟨hr, hsplit _ (fun ht => (hin ht).1) ?_, hsplit _ (fun ht => (hin ht).2) ?_,
    hsplit _ hon ?_, hsplit _ hstop ?_, hlate⟩
  · intro u hut hu
    rw [(hother u hut).1]
    exact h.registered u ((hmem u hut).mp hu)
  · intro u hut hu
    rw [(hother u hut).1]
    exact h.flag u ((hmem u hut).mp hu)
  · intro u hut hfire
    rw [hmem u hut, (hother u hut).1]
    exact h.listed u (hfiring u hut hfire)
  · intro u hut
    rw [(hother u hut).1, (hother u hut).2]
    exact h.stopped u

theorem start_flags {s1 : State T} {p q : List T} {firing' : Option T}
    (h : Flags level s rows firing) (hfiring : ∀ u, u ≠ t → firing' ≠ some u → firing ≠ some u)
    (hreg : (s.timer t).registered = true) (hs : Started level s s1 t rows rows' p q)
    (hl : s'.links = s1.links) (ht : s'.timer = s1.timer)
    (hother : ∀ u, u ≠ t → s'.history.stopped u = s1.history.stopped u)
    (hstop : s'.history.stopped t = false) (hlate : s'.history.late = s1.history.late) :
    Flags level s' rows' firing' := by
  rw [hs.history] at hother hlate
  have hself : s'.timer t = (s.timer t).start s.tick := by rw [ht, hs.timer, update_self]
  have hmem := started_mem level hs
  refine flags_at t h hfiring (hl ▸ hs.list) ?_ ?_ ?_ ?_ ?_ (hlate.trans h.late)
  · intro u hut
    rw [hmem u]
    tauto
  · intro u hut
    rw [ht, hs.timer, update_of_ne hut]
    exact ⟨rfl, hother u hut⟩
  · intro _
    rw [hself]
    exact ⟨hreg, rfl⟩
  · intro _ _ _
    exact (hmem t).mpr (.inl rfl)
  · intro hc
    rw [hstop] at hc
    exact nomatch hc

theorem without_of_ne (u : T) (hut : u ≠ t) :
    u ∈ without rows t (level - 1) ↔ u ∈ rows (level - 1) := by
  rw [mem_without]
  exact and_iff_left hut

theorem not_mem_without {lvl : Nat} : t ∉ without rows t lvl := by
  rw [mem_without]
  exact fun hc => hc.2 rfl

theorem effect_flags (h : Flags level s rows firing) (he : Effect level s rows s' rows') :
    Flags level s' rows' firing := by
  cases he with
  | create t b hfree hidle =>
    refine flags_at t h (fun _ _ => id) h.list (fun _ _ => Iff.rfl)
      (fun u hu => ⟨set_of_ne hu, rfl⟩) ?_ ?_ ?_ h.late
    · intro ht
      rw [h.registered t ht] at hfree
      exact nomatch hfree
    · intro _ _ hact
      rw [set_self, hidle] at hact
      exact nomatch hact
    · intro _
      rw [set_self]
      exact hidle
  | start t s1 _ p q hreg hinit hstarted =>
    exact start_flags level h (fun _ _ => id) hreg hstarted rfl rfl
      (fun u hu => update_of_ne hu _ _) (update_self _ _ _) rfl
  | idle t hreg hact =>
    exact flags_at t h (fun _ _ => id) h.list (fun _ _ => Iff.rfl)
      (fun u hu => ⟨rfl, update_of_ne hu _ _⟩) (fun ht => ⟨hreg, h.flag t ht⟩) (h.listed t)
      (fun _ => hact) h.late
  | stop t hreg hact =>
    refine flags_at t h (fun _ _ => id) (rows_remove h.list t) (without_of_ne level)
      (fun u hu => ⟨update_of_ne hu _ _, update_of_ne hu _ _⟩)
      (fun ht => absurd ht not_mem_without) ?_ ?_ h.late
    · simp only [State.note, set_self, false_eq_true, false_implies, implies_true]
    · intro _
      simp only [State.note, set_self]
  | control t f hreg hkeep =>
    rcases hkeep (s.timer t) with ⟨hkeepReg, hkeepAct, _⟩
    refine flags_at t h (fun _ _ => id) h.list (fun _ _ => Iff.rfl)
      (fun u hu => ⟨set_of_ne hu, rfl⟩) ?_ ?_ ?_ h.late
    · rw [set_self, hkeepReg, hkeepAct]
      exact fun ht => ⟨h.registered t ht, h.flag t ht⟩
    · rw [set_self, hkeepReg, hkeepAct]
      exact h.listed t
    · rw [set_self, hkeepAct]
      exact h.stopped t
  | release t hreg =>
    refine flags_at t h (fun _ _ => id) (rows_remove h.list t) (without_of_ne level)
      (fun u hu => ⟨update_of_ne hu _ _, rfl⟩) (fun ht => absurd ht not_mem_without) ?_ ?_ h.late
    · simp only [rtTimerRelease, set_self, false_eq_true, false_implies, implies_true]
    · simp only [rtTimerRelease, set_self]
      exact h.stopped t

section Checks

variable (mask : BitVec 32) [Fintype T]

/-- Whenever a callback of a check returns, its timer is not on the list or is periodic. -/
def restartsOk : List (List (Call T)) → State T → Bool
  | [], _ => true
  | callback :: callbacks, s =>
    match firstDue level s with
    | some (some t) =>
      match callAll level mask callback (expire level s t) with
      | some s₁ =>
        (!linked level s₁ t || (s₁.timer t).periodic) &&
          match afterCallback level mask s₁ t with
          | some s₂ => restartsOk callbacks s₂
          | none => true
      | none => true
    | _ => true

/-- The callbacks of every check are such. -/
def RestartCond (s : State T) : Action T → Prop
  | .call _ => True
  | .tick => True
  | .check callbacks => restartsOk level mask callbacks s = true

instance decidableRestartCond (s : State T) : ∀ a : Action T, Decidable (RestartCond level mask s a)
  | .call _ => isTrue trivial
  | .tick => isTrue trivial
  | .check callbacks => inferInstanceAs (Decidable (restartsOk level mask callbacks s = true))

variable (hlevel : 0 < level)

include hlevel

theorem callAll_flags (firing : Option T) {cs : List (Call T)}
    (h : ∃ rows, Flags level s rows firing) (hc : callAll level mask cs s = some s') :
    ∃ rows, Flags level s' rows firing := by
  induction cs generalizing s with
  | nil =>
    cases hc
    exact h
  | cons c cs ih =>
    rw [callAll, bind_eq_some_iff] at hc
    rcases hc with ⟨s1, hs1, hrest⟩
    rcases h with ⟨rows, h⟩
    rcases call_effect level hlevel h.list h.registered hs1 with ⟨rows', he, _⟩
    exact ih ⟨rows', effect_flags level h he⟩ hrest

omit [Fintype T] hlevel in
/-- A timer that is due is on the list, so it was not stopped. -/
theorem expire_flags (hdue : firstDue level s = some (some t))
    (h : ∃ rows, Flags level s rows none) :
    ∃ rows, Flags level (expire level s t) rows (some t) := by
  rcases h with ⟨rows, h⟩
  have ht : t ∈ rows (level - 1) := by
    cases hrow : rows (level - 1) with
    | nil =>
      rw [firstDue_nil level h.list hrow, some.injEq] at hdue
      cases hdue
    | cons u us =>
      rw [firstDue_cons level h.list hrow, some.injEq] at hdue
      by_cases hlt : s.tick - (s.timer u).timeoutTick < rtTickMax / 2#32
      · rw [if_pos hlt, some.injEq] at hdue
        exact hdue ▸ mem_cons_self
      · rw [if_neg hlt] at hdue
        cases hdue
  have hstop : s.history.stopped t = false := by
    by_contra hc
    have hflag := h.flag t ht
    rw [h.stopped t ((Bool.not_eq_false _).mp hc)] at hflag
    cases hflag
  refine ⟨without rows t, flags_at t h (fun _ _ _ h => by cases h) (rows_remove h.list t)
    (without_of_ne level) (fun _ _ => ⟨rfl, rfl⟩) (fun ht => absurd ht not_mem_without)
    (fun hc => absurd rfl hc) (h.stopped t) ?_⟩
  simp only [expire, hstop, h.late, Bool.or_self]

/-- After the callback the flag of its timer is right again, if the timer is not on the
    list or is periodic. -/
theorem afterCallback_flags (h : ∃ rows, Flags level s rows (some t))
    (hok : linked level s t = true → (s.timer t).periodic = true)
    (ha : afterCallback level mask s t = some s') : ∃ rows, Flags level s' rows none := by
  rcases h with ⟨rows, h⟩
  have hfiring : ∀ u, u ≠ t → (none : Option T) ≠ some u → some t ≠ some u := by
    intro u hu _ hc
    exact hu (Option.some.inj hc).symm
  rw [afterCallback] at ha
  split_ifs at ha with hagain
  · rw [and_eq_true] at hagain
    have hlist : Rows level (s.set t fun b => { b with activated := false }).links rows := h.list
    rcases rtTimerStart_cases hlevel hlist ha with
      ⟨hreg, _, rows', p, q, hstarted⟩
    have hs := started_of_cleared hstarted
    rw [set_self] at hreg
    refine ⟨rows', start_flags level h hfiring hreg hs rfl rfl (fun _ _ => rfl) ?_ rfl⟩
    rw [hs.history]
    by_contra hc
    have hact := h.stopped t ((not_eq_false _).mp hc)
    rw [hagain.2] at hact
    exact nomatch hact
  · cases ha
    have hnot : t ∉ rows (level - 1) := by
      intro ht
      apply hagain
      rw [and_eq_true]
      exact ⟨hok ((linked_iff h.list).mpr ht), h.flag t ht⟩
    refine ⟨rows, flags_at t h hfiring h.list (fun _ _ => Iff.rfl)
      (fun u hu => ⟨set_of_ne hu, rfl⟩) (fun ht => absurd ht hnot) ?_ ?_ h.late⟩
    · simp only [set_self, false_eq_true, false_implies, implies_true]
    · intro _
      rw [set_self]

theorem check_flags {callbacks : List (List (Call T))} (h : ∃ rows, Flags level s rows none)
    (hok : restartsOk level mask callbacks s = true)
    (hc : rtTimerCheck level mask callbacks s = some s') : ∃ rows, Flags level s' rows none := by
  have hend := check_keeps level
    (P := fun cs s => (∃ rows, Flags level s rows none) ∧ restartsOk level mask cs s = true)
    ?_ ⟨h, hok⟩ hc
  · exact hend.1.elim fun _ h => h.1
  · intro callback callbacks s t s1 s2 hs hdue hs1 hs2
    have hok := hs.2
    simp only [restartsOk, hdue, hs1, hs2, and_eq_true, or_eq_true, not_eq_true'] at hok
    refine ⟨afterCallback_flags level mask hlevel
      (callAll_flags level mask hlevel _ (expire_flags level hdue hs.1) hs1) ?_ hs2, hok.2⟩
    intro hlinked
    rcases hok.1 with h1 | h1
    · rw [hlinked] at h1
      exact nomatch h1
    · exact h1

theorem timerStep_flags {a : Action T} (h : ∃ rows, Flags level s rows none)
    (hcond : RestartCond level mask s a) (hs : timerStep level mask s a = some s') :
    ∃ rows, Flags level s' rows none := by
  cases a with
  | call c =>
    have hall : callAll level mask [c] s = some s' := by
      rw [timerStep] at hs
      rw [callAll, hs]
      rfl
    exact callAll_flags level mask hlevel none h hall
  | tick =>
    rcases h with ⟨rows, h⟩
    cases hs
    exact ⟨rows, h.list, h.registered, h.flag, h.listed, h.stopped, h.late⟩
  | check callbacks =>
    simp only [timerStep, map_eq_some_iff] at hs
    rcases hs with ⟨s1, hs1, hs⟩
    rcases check_flags level mask hlevel h hcond hs1 with ⟨rows, h1⟩
    rw [← hs]
    exact ⟨rows, h1.list, h1.registered, h1.flag, h1.listed, h1.stopped, h1.late⟩

/-- If no callback leaves its own timer on the list that is not periodic, then in every
    state of the run a timer is on the list exactly when it has the flag, and no timer has
    fired that was stopped and not started since. -/
theorem timer_armed (tick randomNr : BitVec 32) (as : List (Action T))
    (hcond : Along (timerStep level mask) (RestartCond level mask) (timerInit tick randomNr) as) :
    Always (timerStep level mask) (Armed level) (timerInit tick randomNr) as := by
  refine always_of_inv (fun s => ∃ rows, Flags level s rows none) ?_
    (timerStep_flags level mask hlevel) ?_ hcond
  · rintro s ⟨rows, h⟩
    exact armed_of_flags h
  refine ⟨fun _ => [], timerInit_rows, ?_, ?_, ?_, ?_, rfl⟩
  · nofun
  · nofun
  · intro t _ hreg _
    exact nomatch hreg
  · intro t _
    rfl

omit hlevel in
/-- A periodic timer is stopped in its own callback, and a timer that is not periodic
    is started again after its callback has returned. -/
theorem timer_armed_stop :
    Always (timerStep 1 3#32) (Armed 1) (timerInit 0#32 0#32 : State (Fin 2))
      [.call (.init 0 true false 1#32), .call (.init 1 true true 1#32), .call (.start 0),
        .call (.start 1), .tick, .check [[], [.stop 1]], .call (.start 0), .tick,
        .check [[.start 1]]] ∧
    (exec (timerStep 1 3#32) (timerInit 0#32 0#32 : State (Fin 2))
      [.call (.init 0 true false 1#32), .call (.init 1 true true 1#32), .call (.start 0),
        .call (.start 1), .tick, .check [[], [.stop 1]], .call (.start 0), .tick,
        .check [[.start 1]]]).map (fun s => [linked 1 s 0, linked 1 s 1]) = some [false, true] :=
  ⟨timer_armed 1 3#32 (by omega) _ _ _ (of_decide_eq_true (by decide +kernel)), by decide +kernel⟩

omit hlevel in
/-- A timer that is not periodic starts itself again in its callback. After the check it is on the
    list without the flag, a stop returns an error and leaves it there, and it fires. -/
theorem restart_unstoppable :
    ∃ s s' : State (Fin 1),
      exec (timerStep 1 3#32) (timerInit 0#32 0#32)
        [.call (.init 0 true false 1#32), .call (.start 0), .tick, .check [[.start 0]]] = some s ∧
      linked 1 s 0 = true ∧ (s.timer 0).activated = false ∧
      (rtTimerStop 1 s 0).map Prod.snd = some .error ∧
      exec (timerStep 1 3#32) s [.call (.stop 0), .tick, .check [[]]] = some s' ∧
      s'.history.late = true := by
  simp only [exists_and_left, ← Option.any_eq_true]
  exact exists_of_run _ (by decide +kernel) fun _ _ h => h

end Checks

end Calls

end Honeycomb.Timers
