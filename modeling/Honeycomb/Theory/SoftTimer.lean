import Honeycomb.Theory.TimerArmed
import Honeycomb.Theory.TimerCheck

/-!
# The Check of the Soft Timers

The check of the soft timers goes through the list. It keeps the node behind the one of
the timer that fires, and goes on there when the callback has returned. While the
callback runs the scheduler is not locked, and every timer can be started and stopped.

If the timer behind is stopped then, its node leads to itself. The check fires this timer,
though it is not on the list, and comes to the same node again, for ever. No other timer
matters, and if the timer behind is started again it is on the list, if at another place.

## Theorems

* `soft_pass_armed`: Only timers on the list fire, and the check ends.
* `soft_pass_spins`: A timer that was stopped fires again and again.
-/

namespace Honeycomb.Timers

open Function List Run

variable {level : Nat} {T : Type} [DecidableEq T]

/-- The rows, and the timers on them are registered. -/
structure Registered (level : Nat) (s : State T) (rows : Nat → List T) : Prop where
  list : Rows level s.links rows
  registered : ∀ t ∈ rows (level - 1), (s.timer t).registered = true

/-- The check has come to the head of the list, where it ends, or to a timer on it, which
    fires if it is due. -/
def OnList (level : Nat) (p : Pass T) : Prop :=
  p.n = .inl (level - 1) ∨ ∃ t, p.n = .inr (t, level - 1) ∧ linked level p.state t = true

/-- What happens while the callback runs leaves the timer behind the one that fires on the list. -/
def KeepsNext (level : Nat) (p : Pass T) (callback : List (Option (Call T))) : Prop :=
  ∀ u, p.state.links.next p.n = .inr (u, level - 1) →
    callback.foldl (fun was a => a.elim was (Call.leaves u was)) true = true

instance [Fintype T] (p : Pass T) (callback : List (Option (Call T))) :
    Decidable (KeepsNext level p callback) :=
  inferInstanceAs (Decidable (∀ _, _ → _))

/-- No timer that has fired is on the list and due again. -/
def Rested (level : Nat) (p : Pass T) : Prop :=
  ∀ t ∈ p.fired, linked level p.state t = true → ¬ Due p.state t

variable {rows rows' : Nat → List T} {s s' : State T} {t : T}

section Effects

theorem registered_set {f : Timer → Timer} (hf : ∀ b, (f b).registered = b.registered)
    (h : Registered level s rows) : Registered level (s.set t f) rows := by
  refine ⟨h.list, fun u hu => Eq.trans ?_ (h.registered u hu)⟩
  exact field_update Timer.registered rfl (hf (s.timer t)) u

variable (h : Registered level s rows)
include h

theorem registered_start {p q : List T}
    (hreg : (s.timer t).registered = true) (hs : Started level s s' t rows rows' p q) :
    Registered level s' rows' := by
  refine ⟨hs.list, fun u hu => ?_⟩
  rw [hs.timer]
  rcases (started_mem level hs u).mp hu with rfl | hu
  · rw [update_self]
    exact hreg
  · rw [update_of_ne hu.2]
    exact h.registered u hu.1

theorem registered_without (hl : s'.links = rtTimerRemove level s.links t)
    (ht : ∀ u, u ≠ t → s'.timer u = s.timer u) : Registered level s' (without rows t) := by
  refine ⟨hl ▸ rows_remove h.list t, fun u hu => ?_⟩
  rw [mem_without] at hu
  rw [ht u hu.2]
  exact h.registered u hu.1

theorem effect_registered (he : Effect level s rows s' rows') : Registered level s' rows' := by
  cases he with
  | create t b hfree _ =>
    refine ⟨h.list, fun u hu => ?_⟩
    have hut : u ≠ t := by
      rintro rfl
      exact nomatch hfree.symm.trans (h.registered u hu)
    rw [set_of_ne hut]
    exact h.registered u hu
  | start t s1 _ p q hreg _ hs => exact ⟨hs.list, (registered_start h hreg hs).registered⟩
  | idle => exact ⟨h.list, h.registered⟩
  | stop t | release t => exact registered_without h rfl fun u hu => update_of_ne hu _ _
  | control t f _ hkeep => exact registered_set (fun b => (hkeep b).1) h

end Effects

variable {mask : BitVec 32} [Fintype T] {p p' : Pass T} {callback : List (Option (Call T))}

section Turns

variable (hlevel : 0 < level)

include hlevel

/-- A timer is on the list after what happens while a callback runs, if the last call that
    matters has put or left it there. -/
theorem softCalls_registered (u : T) (was : Bool)
    (h : ∃ rows, Registered level s rows ∧ (was = true → u ∈ rows (level - 1)))
    (hrun : exec (softCall level mask) s callback = some s') :
    ∃ rows, Registered level s' rows ∧
      (callback.foldl (fun was a => a.elim was (Call.leaves u was)) was = true →
        u ∈ rows (level - 1)) := by
  induction callback generalizing s was with
  | nil =>
    cases hrun
    exact h
  | cons a callback ih =>
    rw [exec, Option.bind_eq_some_iff] at hrun
    rcases hrun with ⟨s1, hs1, hrun⟩
    rcases h with ⟨rows, h, hu⟩
    refine ih (a.elim was (Call.leaves u was)) ?_ hrun
    cases a with
    | none =>
      cases hs1
      exact ⟨rows, ⟨h.list, h.registered⟩, hu⟩
    | some c =>
      rcases call_effect level hlevel h.list h.registered hs1 with ⟨rows', he, hleaves⟩
      exact ⟨rows', effect_registered h he, hleaves u was hu⟩

/-- After the callback other timers stay on the list. -/
theorem afterCallback_registered (h : Registered level s rows)
    (ha : afterCallback level mask s t = some s') :
    ∃ rows', Registered level s' rows' ∧ ∀ u ∈ rows (level - 1), u ∈ rows' (level - 1) := by
  have hset : Registered level (s.set t fun b => { b with activated := false }) rows :=
    registered_set (fun _ => rfl) h
  rw [afterCallback] at ha
  split_ifs at ha
  · rcases rtTimerStart_cases hlevel hset.list ha with ⟨hreg, _, rows', p, q, hs⟩
    refine ⟨rows', registered_start hset hreg hs, fun u hu => ?_⟩
    rw [started_mem level hs]
    tauto
  · cases ha
    exact ⟨rows, hset, fun _ => id⟩

omit hlevel in
theorem softTurn_cases (hon : OnList level p) (hs : softTurn level mask p callback = some p') :
    ∃ t s1 s2, p.n = .inr (t, level - 1) ∧ linked level p.state t = true ∧ Due p.state t ∧
      exec (softCall level mask) (expire level p.state t) callback = some s1 ∧
      afterCallback level mask s1 t = some s2 ∧
      p' = ⟨s2, p.state.links.next p.n, t :: p.fired⟩ := by
  simp only [softTurn, bind_iff, rtAssert_eq_some, pure_iff] at hs
  rcases hs with ⟨t, ht, _, hdue, s1, hs1, s2, hs2, hp'⟩
  rcases hon with hn | ⟨u, hn, hu⟩
  · rw [hn] at ht
    exact nomatch ht
  · rw [hn, entry, if_pos rfl] at ht
    cases ht
    exact ⟨t, s1, s2, hn, hu, hdue, hs1, hs2, hp'.symm⟩

/-- If the timer behind the one that fires is left on the list, the check comes to a timer
    on the list again. -/
theorem softTurn_onList (h : (∃ rows, Registered level p.state rows) ∧ OnList level p)
    (hkeep : KeepsNext level p callback) (hs : softTurn level mask p callback = some p') :
    (∃ rows, Registered level p'.state rows) ∧ OnList level p' := by
  rcases h with ⟨⟨rows, h⟩, hon⟩
  rcases softTurn_cases hon hs with ⟨t, s1, s2, hn, ht, _, hs1, hs2, rfl⟩
  have hexpire : Registered level (expire level p.state t) (without rows t) :=
    registered_without h rfl fun _ _ => rfl
  rw [KeepsNext, hn] at hkeep
  rw [hn, OnList]
  rcases rows_next h.list ((linked_iff h.list).mp ht) with hnext | ⟨u, hu, hut, hnext⟩
  · rcases softCalls_registered hlevel t false ⟨_, hexpire, nofun⟩ hs1 with ⟨rows1, h1, _⟩
    rcases afterCallback_registered hlevel h1 hs2 with ⟨rows2, h2, _⟩
    exact ⟨⟨rows2, h2⟩, .inl hnext⟩
  have hu0 := mem_without.mpr ⟨hu, hut⟩
  rcases softCalls_registered hlevel u true ⟨_, hexpire, fun _ => hu0⟩ hs1 with ⟨rows1, h1, hu1⟩
  rcases afterCallback_registered hlevel h1 hs2 with ⟨rows2, h2, hmem⟩
  have hu2 := hmem u (hu1 (hkeep u hnext))
  exact ⟨⟨rows2, h2⟩, .inr ⟨u, hnext, (linked_iff h2.list).mpr hu2⟩⟩

end Turns

/-- No timer fires twice if none is due again after it has fired. -/
theorem fired_nodup {callbacks : List (List (Option (Call T)))}
    (hon : Always (softTurn level mask) (OnList level) p callbacks)
    (hrest : Always (softTurn level mask) (Rested level) p callbacks) (hnd : p.fired.Nodup)
    (hrun : exec (softTurn level mask) p callbacks = some p') :
    p'.fired.Nodup ∧ p'.fired.length = callbacks.length + p.fired.length := by
  induction callbacks generalizing p with
  | nil =>
    cases hrun
    exact ⟨hnd, (Nat.zero_add _).symm⟩
  | cons callback callbacks ih =>
    rw [exec, Option.bind_eq_some_iff] at hrun
    rcases hrun with ⟨p1, hp1, hrun⟩
    rcases softTurn_cases hon.1 hp1 with ⟨t, s1, s2, _, ht, hdue, _, _, hp⟩
    have hnot : t ∉ p.fired := fun hc => hrest.1 t hc ht hdue
    have hnd1 : p1.fired.Nodup := hp ▸ nodup_cons.mpr ⟨hnot, hnd⟩
    rcases ih (hon.2 p1 hp1) (hrest.2 p1 hp1) hnd1 hrun with ⟨hnd', hlen⟩
    refine ⟨hnd', hlen.trans ?_⟩
    rw [hp, length_cons, length_cons]
    omega

/-- If every callback leaves the timer behind its own on the list, the check only comes to timers on
    the list and to its head. It ends if moreover no timer that has fired is due again. -/
theorem soft_pass_armed (hlevel : 0 < level) (h : Registered level s rows)
    (callbacks : List (List (Option (Call T))))
    (hkeep : Along (softTurn level mask) (KeepsNext level) (softStart level s) callbacks) :
    Always (softTurn level mask) (OnList level) (softStart level s) callbacks ∧
      (Always (softTurn level mask) (Rested level) (softStart level s) callbacks →
        ∀ p, exec (softTurn level mask) (softStart level s) callbacks = some p →
          callbacks.length ≤ Fintype.card T) := by
  have hstart : OnList level (softStart level s) := by
    rcases mem_cons.mp (Ring.seg_next_mem (h.list.rep.ring (level - 1))) with hnext | hnext
    · exact .inl hnext
    · rcases mem_map.mp hnext with ⟨⟨t, i⟩, ht, hn⟩
      rcases mem_nodes.mp ht with ⟨ht', rfl⟩
      exact .inr ⟨t, hn.symm, (linked_iff h.list).mpr ht'⟩
  have hon := always_of_inv _ And.right (softTurn_onList hlevel) ⟨⟨rows, h⟩, hstart⟩ hkeep
  refine ⟨hon, fun hrest p hp => ?_⟩
  rcases fired_nodup hon hrest nodup_nil hp with ⟨hnd, hlen⟩
  have hcard := hnd.length_le_card
  rw [hlen] at hcard
  exact hcard

/-- The timer behind the one that fires is stopped and started again. -/
theorem soft_pass_armed_restart :
    ∃ s : State (Fin 2), exec (timerStep 2 3#32) (timerInit 0#32 0#32)
        [.call (.init 0 true true 1#32), .call (.init 1 true false 1#32), .call (.start 0),
          .call (.start 1), .tick] = some s ∧
      Always (softTurn 2 3#32) (OnList 2) (softStart 2 s)
        [[some (.stop 1), some (.start 1), none], []] ∧
      (exec (softTurn 2 3#32) (softStart 2 s) [[some (.stop 1), some (.start 1), none], []]).map
        Pass.fired = some [1, 0] := by
  refine exists_checked (C := fun s => (∀ t, (s.timer t).activated = true) ∧
    Along (softTurn 2 3#32) (KeepsNext 2) (softStart 2 s)
      [[some (.stop 1), some (.start 1), none], []]) (fun s hs hC => ?_) (by decide +kernel)
  rcases listed_of_run (by omega) (of_decide_eq_true (by decide +kernel)) hs hC.1 with ⟨rows, hl⟩
  exact (soft_pass_armed (by omega) ⟨hl.list, fun t ht => (hl.armed t ht).1⟩ _ hC.2).1

/-- A callback stops the timer behind its own. The check comes to this timer, which is not
    on the list, and fires it again and again. -/
theorem soft_pass_spins :
    ∃ (s : State (Fin 2)) (p : Pass (Fin 2)), exec (timerStep 1 3#32) (timerInit 0#32 0#32)
        [.call (.init 0 true false 1#32), .call (.init 1 true false 1#32), .call (.start 0),
          .call (.start 1), .tick] = some s ∧
      softTurn 1 3#32 (softStart 1 s) [some (.stop 1)] = some p ∧ p.n = .inr (1, 0) ∧
      linked 1 p.state 1 = false ∧ Due p.state 1 ∧
      (exec (softTurn 1 3#32) p [[], [], []]).map (fun p' => (p'.n, p'.fired)) =
        some (.inr (1, 0), [1, 1, 1, 0]) :=
  exists_of_runs _ (by decide +kernel) fun _ _ _ _ h => h

end Honeycomb.Timers
