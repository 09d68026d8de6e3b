import Honeycomb.Core.Rwlock
import Honeycomb.Lib.Roster
import Honeycomb.Lib.Run

/-!
# Exclusion by Read-Write Locks

The count of a lock says who holds it: it is `-1` for one writer, and the number of read locks
otherwise. The other two counts are the numbers of threads that wait.

A thread that has been granted the lock takes it in a later step. In between nothing changes, since
the thread owns the mutex of the lock: only the owner is between the test and the end of a call.

A call looks at `attr` before it has the mutex, so two calls may both find a lock that is not
initialised, and the later one to set it up takes it away from its holder. A lock that was
initialised before its first use stays so.

## Theorems

* `rwlock_excludes`: The counts are right in every state that an initialised lock reaches.
* `rwlock_two_writers`: Two threads hold a statically initialised lock for writing.
-/

namespace Honeycomb

open Function List Run

def waitsFor (kind : RwKind) : RwPhase → Bool
  | .waiting k _ => k = kind
  | _ => false

/-- The count is that of one writer or of some readers. -/
def HoldOk (refcount : Int) (readers writers : List Nat) : Prop :=
  (refcount = -1 ∧ writers.length = 1 ∧ readers = []) ∨ (refcount = readers.length ∧ writers = [])

/-- The count of a kind is the number of threads in its wait. -/
def WaitOk (n : Int) (phase : Nat → RwPhase) (kind : RwKind) : Prop :=
  ∃ l, Lists l phase (waitsFor kind) ∧ n = l.length

/-- The counts agree with the holders and the waiting threads. -/
structure RwOk (s : RwSys) : Prop where
  hold : HoldOk s.refcount s.readers s.writers
  rdWait : WaitOk s.nwaitreaders s.phase .rd
  wrWait : WaitOk s.nwaitwriters s.phase .wr

/-- The thread owns the mutex in this phase. -/
def Owns : RwPhase → Prop
  | .idle => False
  | .init _ _ => False
  | .called _ => False
  | .waiting _ true => False
  | _ => True

/-- Nobody sets up the lock, and a thread that was granted it knows that it is free. -/
def GrantOk (refcount : Int) : RwPhase → Prop
  | .init _ _ => False
  | .granted .rd => 0 ≤ refcount
  | .granted .wr => refcount = 0
  | _ => True

/-- The lock is initialised, the counts are right, only the owner of the mutex is behind the entry
    of a call and not waiting, and a lock that was granted is free. -/
structure RwInv (s : RwSys) : Prop where
  ready : s.attr ≠ -1
  ok : RwOk s
  owner : ∀ t, Owns (s.phase t) → s.owner = some t
  grant : ∀ t, GrantOk s.refcount (s.phase t)

section Parts

variable {phase : Nat → RwPhase} {n : Int} {kind : RwKind} {t : Nat} {p : RwPhase}

variable (h : WaitOk n phase kind)
include h

theorem waitOk_enter {t : Nat} (hold : waitsFor kind (phase t) = false)
    (hnew : waitsFor kind p = true) : WaitOk (n + 1) (update phase t p) kind := by
  rcases h with ⟨l, hl, rfl⟩
  refine ⟨t :: l, lists_enter _ t p hl (List.Perm.refl _) hold hnew, ?_⟩
  rw [length_cons, Int.natCast_succ]

theorem waitOk_leave {t : Nat} (hold : waitsFor kind (phase t) = true)
    (hnew : waitsFor kind p = false) : WaitOk (n + -1) (update phase t p) kind := by
  rcases h with ⟨l, hl, rfl⟩
  have hperm := perm_cons_erase ((hl.2 t).mpr hold)
  refine ⟨l.erase t, lists_leave hl hperm hnew, ?_⟩
  rw [hperm.length_eq, length_cons, Int.natCast_succ, Int.add_neg_cancel_right]

theorem waitOk_same {t : Nat} (heq : waitsFor kind p = waitsFor kind (phase t)) :
    WaitOk n (update phase t p) kind := by
  rcases h with ⟨l, hl, hn⟩
  refine ⟨l, ⟨hl.1, fun u => ?_⟩, hn⟩
  by_cases hu : u = t
  · rw [hu, update_self, heq, hl.2 t]
  · rw [update_of_ne hu, hl.2 u]

end Parts

section Steps

variable {s s' : RwSys} (t : Nat) {p : RwPhase}

theorem rwOk_goto {p : RwPhase} (hold : HoldOk s'.refcount s'.readers s'.writers) (hok : RwOk s)
    (hphase : s'.phase = update s.phase t p)
    (hsame : s'.nwaitreaders = s.nwaitreaders ∧ s'.nwaitwriters = s.nwaitwriters)
    (heq : ∀ kind, waitsFor kind p = waitsFor kind (s.phase t)) : RwOk s' := by
  refine ⟨hold, ?_, ?_⟩
  · rw [hsame.1, hphase]
    exact waitOk_same hok.rdWait (heq .rd)
  · rw [hsame.2, hphase]
    exact waitOk_same hok.wrWait (heq .wr)

theorem grantOk_of_free {s : RwSys} {kind : RwKind} (h : ¬ s.blocked kind = true) :
    GrantOk s.refcount (.granted kind) := by
  cases kind with simp only [RwSys.blocked, decide_eq_true_eq, not_or, Int.not_lt, not_not] at h
  | rd =>
    exact h.1
  | wr =>
    exact h

variable (hinv : RwInv s)
include hinv

/-- What is left to show for a step of a thread that owns the mutex, or gets it: the counts, and
    what the thread knows. The others are outside or have released the mutex. -/
theorem rwInv_goto (hattr : s'.attr = s.attr) (hphase : s'.phase = update s.phase t p)
    (hfree : s.owner = none ∨ s.owner = some t) (hok : RwOk s') (hown : Owns p → s'.owner = some t)
    (hgrant : GrantOk s'.refcount p) : RwInv s' := by
  have hother : ∀ u, u ≠ t → ¬ Owns (s.phase u) := by
    intro u hu howns
    have howner := hinv.owner u howns
    rcases hfree with hnone | hsome
    · exact nomatch (howner.symm.trans hnone)
    · exact hu (Option.some.inj (howner.symm.trans hsome))
  refine ⟨hattr ▸ hinv.ready, hok, fun u hu => ?_, fun u => ?_⟩
  · rw [hphase] at hu
    by_cases hut : u = t
    · rw [hut, update_self] at hu
      rw [hut]
      exact hown hu
    · rw [update_of_ne hut] at hu
      exact absurd hu (hother u hut)
  rw [hphase]
  by_cases hut : u = t
  · rw [hut, update_self]
    exact hgrant
  -- a thread that was granted the lock would own the mutex
  rw [update_of_ne hut]
  have hnot := hother u hut
  have hold := hinv.grant u
  cases hp : s.phase u with
  | granted kind => exact absurd (by rw [hp]; trivial) hnot
  | init part op =>
    rw [hp] at hold
    exact hold
  | idle => trivial
  | called op => trivial
  | entered op => trivial
  | waiting kind released => trivial
  | leaving => trivial

/-- A thread that calls goes on to the mutex, whoever owns it. -/
theorem rwInv_call {op : RwOp} (hidle : s.phase t = .idle) : RwInv (s.goto t (.called op)) := by
  refine ⟨hinv.ready, ?_, fun u hu => ?_, fun u => ?_⟩
  · exact rwOk_goto t hinv.ok.hold hinv.ok rfl ⟨rfl, rfl⟩ fun k => by rw [hidle]; rfl
  · change Owns (update s.phase t (.called op) u) at hu
    by_cases hut : u = t
    · rw [hut, update_self] at hu
      exact hu.elim
    · rw [update_of_ne hut] at hu
      exact hinv.owner u hu
  · change GrantOk s.refcount (update s.phase t (.called op) u)
    by_cases hut : u = t
    · rw [hut, update_self]
      trivial
    · rw [update_of_ne hut]
      exact hinv.grant u

theorem rwInv_take {kind : RwKind} (hphase : s.phase t = .granted kind) :
    RwInv ((s.take t kind).goto t .leaving) := by
  have howner := hinv.owner t (by rw [hphase]; trivial)
  have hgrant := hinv.grant t
  rw [hphase] at hgrant
  have hwaits : ∀ k, waitsFor k .leaving = waitsFor k (s.phase t) := by
    intro k
    rw [hphase]
    rfl
  cases kind with
  | rd =>
    have hpos : 0 ≤ s.refcount := hgrant
    refine rwInv_goto t hinv rfl rfl (.inr howner) ?_ (fun _ => howner) trivial
    refine rwOk_goto t (.inr ?_) hinv.ok rfl ⟨rfl, rfl⟩ hwaits
    rcases hinv.ok.hold with ⟨hneg, -, -⟩ | ⟨hcount, hw⟩
    · omega
    · refine ⟨?_, hw⟩
      change s.refcount + 1 = ((t :: s.readers).length : Int)
      rw [hcount, length_cons, Int.natCast_succ]
  | wr =>
    have hzero : s.refcount = 0 := hgrant
    refine rwInv_goto t hinv rfl rfl (.inr howner) ?_ (fun _ => howner) trivial
    refine rwOk_goto t (.inl ?_) hinv.ok rfl ⟨rfl, rfl⟩ hwaits
    rcases hinv.ok.hold with ⟨hneg, -, -⟩ | ⟨hcount, hw⟩
    · omega
    have hlen : s.readers.length = 0 := by omega
    refine ⟨rfl, ?_, length_eq_zero_iff.mp hlen⟩
    change (t :: s.writers).length = 1
    rw [hw, length_singleton]

theorem rwInv_drop (hphase : s.phase t = .entered .unlock)
    (hheld : t ∈ s.readers ∨ t ∈ s.writers) : RwInv ((s.drop t).goto t .leaving) := by
  have howner := hinv.owner t (by rw [hphase]; trivial)
  refine rwInv_goto t hinv rfl rfl (.inr howner) ?_ (fun _ => howner) trivial
  refine rwOk_goto t (.inr ?_) hinv.ok rfl ⟨rfl, rfl⟩ (fun k => by rw [hphase]; rfl)
  change (if 0 < s.refcount then s.refcount - 1 else if s.refcount = -1 then 0 else s.refcount) =
    ((s.readers.erase t).length : Int) ∧ s.writers.erase t = []
  rcases hinv.ok.hold with ⟨hneg, hone, hnil⟩ | ⟨hcount, hnil⟩
  · -- the writer gives back its lock
    rw [hnil] at hheld
    have hmem := hheld.resolve_left not_mem_nil
    rw [hneg, hnil]
    refine ⟨rfl, length_eq_zero_iff.mp ?_⟩
    rw [length_erase_of_mem hmem, hone]
  · rw [hnil] at hheld
    have hmem := hheld.resolve_right not_mem_nil
    have hpos := length_pos_of_mem hmem
    rw [length_erase_of_mem hmem, hnil, if_pos (by omega)]
    exact ⟨by omega, rfl⟩

theorem rwInv_wait {kind : RwKind} (hphase : s.phase t = .entered (.lock kind)) :
    RwInv ((s.count 1 kind).goto t (.waiting kind false)) := by
  have howner := hinv.owner t (by rw [hphase]; trivial)
  have hold : ∀ k, waitsFor k (s.phase t) = false := fun k => by rw [hphase]; rfl
  have hok := hinv.ok
  cases kind with
  | rd =>
    refine rwInv_goto t hinv rfl rfl (.inr howner) ⟨hok.hold, ?_, ?_⟩ (fun _ => howner) trivial
    · exact waitOk_enter hok.rdWait (hold .rd) rfl
    · exact waitOk_same hok.wrWait (hold .wr).symm
  | wr =>
    refine rwInv_goto t hinv rfl rfl (.inr howner) ⟨hok.hold, ?_, ?_⟩ (fun _ => howner) trivial
    · exact waitOk_same hok.rdWait (hold .rd).symm
    · exact waitOk_enter hok.wrWait (hold .wr) rfl

theorem rwInv_wake {kind : RwKind} {released : Bool}
    (hphase : s.phase t = .waiting kind released) (hfree : s.owner = none ∨ s.owner = some t)
    (hp : ∀ k, waitsFor k p = false) (hgrant : ∀ n, GrantOk n p) :
    RwInv (({ s with owner := some t }.count (-1) kind).goto t p) := by
  have hok := hinv.ok
  have hof : ∀ k, waitsFor k (s.phase t) = waitsFor k (.waiting kind released) :=
    fun _ => by rw [hphase]
  cases kind with
  | rd =>
    refine rwInv_goto t hinv rfl rfl hfree ⟨hok.hold, ?_, ?_⟩ (fun _ => rfl) (hgrant _)
    · exact waitOk_leave hok.rdWait (hof .rd) (hp .rd)
    · exact waitOk_same hok.wrWait ((hp .wr).trans (hof .wr).symm)
  | wr =>
    refine rwInv_goto t hinv rfl rfl hfree ⟨hok.hold, ?_, ?_⟩ (fun _ => rfl) (hgrant _)
    · exact waitOk_same hok.rdWait ((hp .rd).trans (hof .rd).symm)
    · exact waitOk_leave hok.wrWait (hof .wr) (hp .wr)

/-- A thread that owns the mutex, or gets it, goes on with the counts as they are. -/
theorem rwInv_keep {owner : Option Nat}
    (hfree : s.owner = none ∨ s.owner = some t) (hown : Owns p → owner = some t)
    (hwaits : ∀ k, waitsFor k p = waitsFor k (s.phase t)) (hgrant : GrantOk s.refcount p) :
    RwInv ({ s with owner := owner }.goto t p) :=
  rwInv_goto t hinv rfl rfl hfree (rwOk_goto t hinv.ok.hold hinv.ok rfl ⟨rfl, rfl⟩ hwaits) hown
    hgrant

omit hinv

theorem rwStep_inv {a : RwAction} (hinv : RwInv s) (h : rwStep s a = some s') : RwInv s' := by
  cases a with simp only [rwStep, bind_iff, assert_iff, Option.some.injEq] at h
  | call t op =>
    rcases h with ⟨hidle, rfl⟩
    rw [if_neg hinv.ready]
    exact rwInv_call t hinv hidle
  | init t =>
    -- nobody is here
    have hnot := hinv.grant t
    split at h
    case h_4 => exact nomatch h
    all_goals next hphase => rw [hphase] at hnot; exact hnot.elim
  | enter t =>
    split at h
    · next op hphase =>
        simp only [bind_iff, assert_iff, Option.some.injEq] at h
        rcases h with ⟨hnone, rfl⟩
        exact rwInv_keep t hinv (.inl hnone) (fun _ => rfl) (fun k => by rw [hphase]; rfl) trivial
    · exact nomatch h
  | test t =>
    split at h
    · next kind hphase =>
        have howner := hinv.owner t (by rw [hphase]; trivial)
        split at h
        · cases h
          exact rwInv_wait t hinv hphase
        next hfree =>
          cases h
          exact rwInv_keep t hinv (.inr howner) (fun _ => howner)
            (fun k => by rw [hphase]; rfl) (grantOk_of_free hfree)
    · next kind hphase =>
        have howner := hinv.owner t (by rw [hphase]; trivial)
        cases h
        split
        · exact rwInv_keep t hinv (.inr howner) (fun _ => howner)
            (fun k => by rw [hphase]; rfl) trivial
        · next hfree =>
            exact rwInv_keep t hinv (.inr howner) (fun _ => howner)
              (fun k => by rw [hphase]; rfl) (grantOk_of_free hfree)
    · next hphase =>
        simp only [bind_iff, assert_iff, Option.some.injEq] at h
        rcases h with ⟨hheld, rfl⟩
        exact rwInv_drop t hinv hphase hheld
    · exact nomatch h
  | release t =>
    split at h
    · next kind hphase =>
        simp only [bind_iff, assert_iff, Option.some.injEq] at h
        rcases h with ⟨howner, rfl⟩
        exact rwInv_keep t hinv (.inr howner) (fun hfalse => hfalse.elim)
          (fun k => by rw [hphase]; rfl) trivial
    · exact nomatch h
  | wake t ok =>
    split at h
    · next kind released hphase =>
        simp only [bind_iff, assert_iff, Option.some.injEq] at h
        rcases h with ⟨hmutex, rfl⟩
        have hfree : s.owner = none ∨ s.owner = some t := by
          cases released with
          | true => exact .inl hmutex
          | false => exact .inr (hinv.owner t (by rw [hphase]; trivial))
        have howner : (if released then some t else s.owner) = some t := by
          cases released with
          | true => rfl
          | false => exact hinv.owner t (by rw [hphase]; trivial)
        rw [howner]
        refine rwInv_wake t hinv hphase hfree (fun k => ?_) fun n => ?_
        · cases ok with
          | true => rfl
          | false => rfl
        · cases ok with
          | true => trivial
          | false => trivial
    · exact nomatch h
  | act t =>
    split at h
    · next kind hphase =>
        cases h
        exact rwInv_take t hinv hphase
    · exact nomatch h
  | leave t =>
    rcases h with ⟨hphase, rfl⟩
    exact rwInv_keep t hinv (.inr (hinv.owner t (by rw [hphase]; trivial)))
      (fun hfalse => hfalse.elim) (fun k => by rw [hphase]; rfl) trivial

end Steps

/-- The counts agree with the holders and with the waiting threads in every state that is
    reached from a lock that was initialised before its first use. -/
theorem rwlock_excludes (s : RwSys) (h : Reachable rwStep rwInit s) : RwOk s := by
  have hwait : ∀ kind, WaitOk 0 rwInit.phase kind := fun kind =>
    ⟨[], lists_nil fun _ => rfl, rfl⟩
  have hinit : RwInv rwInit := by
    exact ⟨by decide, ⟨.inr ⟨rfl, rfl⟩, hwait .rd, hwait .wr⟩, fun _ hfalse => hfalse.elim,
      fun _ => trivial⟩
  exact (reachable_inv RwInv rwStep_inv hinit h).ok

/-- A writer waits for two readers, and has the lock after both have given theirs back. -/
theorem rwlock_excludes_handover :
    ∃ s, exec rwStep rwInit
        [.call 1 (.lock .rd), .enter 1, .test 1, .act 1, .leave 1, .call 2 (.lock .rd), .enter 2,
          .test 2, .act 2, .leave 2, .call 3 (.lock .wr), .enter 3, .test 3, .release 3,
          .call 1 .unlock, .enter 1, .test 1, .leave 1, .call 2 .unlock, .enter 2, .test 2,
          .leave 2, .wake 3 true, .test 3, .act 3] = some s ∧
      (s.refcount, s.nwaitwriters, s.readers, s.writers) = (-1, 0, [], [3]) ∧ RwOk s :=
  exists_viewed (fun s hs => rwlock_excludes s ⟨_, hs⟩) (by decide +kernel)

/-- Thread 1 finds a static lock that is not initialised, and so does thread 2, which sets it up and
    takes it for writing. Then thread 1 sets it up once more and takes it as well. -/
theorem rwlock_two_writers :
    ∃ s, exec rwStep rwStatic
        [.call 1 (.lock .wr), .call 2 (.lock .wr), .init 2, .init 2, .init 2, .enter 2, .test 2,
          .act 2, .leave 2, .init 1, .init 1, .init 1, .enter 1, .test 1, .act 1, .leave 1] =
          some s ∧
      (s.refcount, s.readers, s.writers) = (-1, [], [1, 2]) ∧ ¬ RwOk s := by
  refine exists_of_run _ (by decide +kernel) fun s _ hseen => ⟨hseen, fun hok => ?_⟩
  have hwriters : s.writers = [1, 2] := congrArg (·.2.2) hseen
  rcases hok.hold with ⟨-, hone, -⟩ | ⟨-, hnil⟩
  · rw [hwriters] at hone
    exact absurd hone (by decide)
  · rw [hwriters] at hnil
    exact absurd hnil (cons_ne_nil _ _)

end Honeycomb
