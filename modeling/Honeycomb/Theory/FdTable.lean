import Honeycomb.Core.FdTable
import Honeycomb.Lib.Run

/-!
# References to File Descriptors

A slot of the table has a descriptor as long as its file is open or somebody has a reference to
it, and the counter is the number of these. `Slots` says this for any numbers that an `int` can
have, and each call is described by what it does to them.

A number is looked up as it should be when it denotes an open file, or is outside of the table. For
a number of an empty slot `fd_get` reads the descriptor through the null pointer. When a file is
closed while there are references to it, its slot is kept and its number can be looked up as before,
and even be closed again. The counter must not overflow either.

## Theorems

* `fds_agree`: The table is right in every run within the condition.
* `fdGet_empty`: In other runs it is not.
-/

namespace Honeycomb

open Function List Run

/-- The descriptor of a slot that is referred to so many times. -/
def held (n : Nat) : Option DfsFd :=
  if n = 0 then none else some ⟨dfsFdMagic, BitVec.ofNat 32 n⟩

/-- The slots are referred to so many times, which the counters can express. -/
def Slots (fds : FdTable) (count : Nat → Nat) : Prop :=
  ∀ i, fds[i]?.join = held (count i) ∧ count i < 2 ^ 31

/-- A slot is referred to by its open file and by those who have looked it up. -/
def FdSys.count (s : FdSys) (i : Nat) : Nat :=
  s.files.count i + s.refs.count i

/-- Numbers were looked up correctly, the counters are right and free slots are empty, open files
    have different slots, and an open that fails leaves the slots as they were. -/
structure FdOk (max : Nat) (s : FdSys) : Prop where
  calls : ∀ c ∈ s.calls, c.2 = some c.1
  slots : Slots s.fds s.count
  distinct : s.files.Nodup
  opens : ∀ mem opens, ∃ fds r, fdOpen max mem opens s.fds = some (fds, r) ∧
    (r = none → ∀ i : Nat, fds[i]?.join = s.fds[i]?.join)

/-- A number that is looked up denotes an open file, with one reference less to it than there can
    be, or is outside of the table. -/
def FdCond (s : FdSys) : FdAction → Prop
  | .close fd _ | .get fd =>
    (s.denotes fd ∧ s.count (fd - dfsFdOffset).toNat + 1 < 2 ^ 31) ∨
      fd < dfsFdOffset ∨ s.fds.length + dfsFdOffset ≤ fd
  | _ => True

instance decidableFdCond (s : FdSys) : ∀ a, Decidable (FdCond s a)
  | .close _ _ => inferInstanceAs (Decidable (_ ∨ _))
  | .get _ => inferInstanceAs (Decidable (_ ∨ _))
  | .openFile _ _ => isTrue trivial
  | .put _ => isTrue trivial

section Calls

variable (max : Nat) (mem : FdMem) {fds : FdTable} {f : Nat → Nat} (i : Nat)

theorem held_pos {n : Nat} (hn : 0 < n) : held n = some ⟨dfsFdMagic, BitVec.ofNat 32 n⟩ :=
  if_neg (Nat.ne_of_gt hn)

theorem ofNat_eq_zero {n : Nat} (hn : n < 2 ^ 31) : BitVec.ofNat 32 n = 0 ↔ n = 0 := by
  rw [← BitVec.toNat_inj, BitVec.toNat_ofNat, Nat.mod_eq_of_lt (by omega)]
  rfl

theorem slots_at {f : Nat → Nat} {i : Nat} {g : Nat → Nat} {n : Nat}
    (h : Slots fds (update f i n)) (hi : g i = n) (hother : ∀ j, j ≠ i → g j = f j) :
    Slots fds g := by
  rw [Function.eq_update_iff.mpr ⟨hi, hother⟩]
  exact h

variable (h : Slots fds f)
include h

theorem slots_lt (hi : 0 < f i) : i < fds.length := by
  by_contra hlen
  have hnone := h i
  rw [getElem?_eq_none (Nat.le_of_not_lt hlen), held_pos hi] at hnone
  exact nomatch hnone.1

theorem slots_set {n : Nat} (hi : i < fds.length) (hn : n < 2 ^ 31) :
    Slots (fds.set i (held n)) (update f i n) := by
  intro j
  by_cases hj : j = i
  · rw [hj, update_self, getElem?_set_self hi]
    exact ⟨rfl, hn⟩
  · rw [update_of_ne hj, getElem?_set_ne (Ne.symm hj)]
    exact h j

theorem fdGet_slots (hi : 0 < f i) (hmore : f i + 1 < 2 ^ 31) :
    ∃ fds', fdGet fds (i + dfsFdOffset) = some (fds', some i) ∧
      Slots fds' (update f i (f i + 1)) := by
  have hlt := slots_lt i h hi
  refine ⟨_, ?_, slots_set i h hlt hmore⟩
  have hslot := (h i).1.trans (held_pos hi)
  simp only [fdGet, Int.add_sub_cancel, Int.toNat_natCast, hslot, held_pos (Nat.succ_pos (f i))]
  rw [if_neg (by omega), Nat.succ_eq_add_one, BitVec.ofNat_add]
  rfl

theorem fdPut_slots (hi : 0 < f i) :
    ∃ fds', fdPut fds i = some fds' ∧ Slots fds' (update f i (f i - 1)) := by
  have hless : f i - 1 < 2 ^ 31 := Nat.lt_of_le_of_lt (Nat.sub_le _ _) (h i).2
  refine ⟨_, ?_, slots_set i h (slots_lt i h hi) hless⟩
  have hslot := (h i).1.trans (held_pos hi)
  have hcast : BitVec.ofNat 32 (f i) - 1 = BitVec.ofNat 32 (f i - 1) := by
    have hbound := (h i).2
    bv_omega
  simp only [fdPut, hslot, some_bind, hcast, held, ofNat_eq_zero hless]

/-- An empty slot is found, if need be in a larger table, or there is none to be had. -/
theorem fdNew_slots :
    ∃ fds', (fdNew max mem fds = (fds', none) ∧ Slots fds' f) ∨
      ∃ i, f i = 0 ∧ fdNew max mem fds = (fds', some i) ∧ Slots fds' (update f i 1) := by
  generalize hidx : fds.findIdx (fun d => d.all fun d => d.refCount = 0) = idx
  generalize hgrown : (if idx = fds.length ∧ fds.length < max ∧ mem.grows then
    fds ++ List.replicate (min (fds.length + 4) max - fds.length) none else fds) = grown
  have hslots : Slots grown f := by
    intro j
    rw [← hgrown]
    split
    · refine ⟨?_, (h j).2⟩
      rw [← (h j).1]
      by_cases hj : j < fds.length
      · rw [getElem?_append_left hj]
      rw [getElem?_append_right (Nat.le_of_not_lt hj), getElem?_replicate,
        getElem?_eq_none (Nat.le_of_not_lt hj)]
      split
      · rfl
      · rfl
    · exact h j
  simp only [fdNew, fdAlloc, hidx, hgrown]
  by_cases hempty : grown[idx]? = some none
  · have hlt := (List.getElem?_eq_some_iff.mp hempty).1
    have hzero : f idx = 0 := by
      by_contra hne
      have hslot := (hslots idx).1
      rw [hempty, held_pos (Nat.pos_of_ne_zero hne)] at hslot
      exact nomatch hslot
    rw [if_pos hempty]
    cases mem.fd with
    | none => exact ⟨_, .inl ⟨if_pos rfl, hslots⟩⟩
    | some d =>
      refine ⟨_, .inr ⟨idx, hzero, ?_, slots_set idx hslots hlt (by decide)⟩⟩
      rw [length_set, if_neg (Nat.ne_of_lt hlt), set_set]
      rfl
  -- The slot that was found is past the end: one in the table would be empty.
  have hend : idx = grown.length := by
    rcases Nat.lt_or_eq_of_le (hidx ▸ findIdx_le_length) with hlt | heq
    · rw [if_neg (fun hc => Nat.ne_of_lt hlt hc.1)] at hgrown
      subst hgrown
      have hslot := (hslots idx).1
      have hfree := findIdx_getElem (w := hidx ▸ hlt)
      simp only [hidx] at hfree
      rw [getElem?_eq_getElem hlt] at hslot hempty
      cases hd : fds[idx] with
      | none => exact absurd (congrArg some hd) hempty
      | some d =>
        rw [hd, Option.all_some, decide_eq_true_eq] at hfree
        rw [hd, Option.join_some, held] at hslot
        split at hslot
        · exact nomatch hslot
        · next hused =>
            rw [Option.some.inj hslot] at hfree
            exact absurd ((ofNat_eq_zero (hslots idx).2).mp hfree) hused
    · split_ifs at hgrown with hc
      · rw [← hgrown, heq, getElem?_append_right (Nat.le_refl _), Nat.sub_self,
          getElem?_replicate, if_pos (by omega)] at hempty
        exact absurd rfl hempty
      · rw [← hgrown]
        exact heq
  rw [if_neg hempty]
  exact ⟨_, .inl ⟨if_pos hend, hslots⟩⟩

theorem fdOpen_slots (opens : Bool) :
    ∃ fds' r, fdOpen max mem opens fds = some (fds', r) ∧
      ((r = none ∧ Slots fds' f) ∨ ∃ i, r = some i ∧ f i = 0 ∧ Slots fds' (update f i 1)) := by
  rcases fdNew_slots max mem h with ⟨fds1, ⟨hnew, h1⟩ | ⟨i, hzero, hnew, h1⟩⟩
  · exact ⟨fds1, none, by rw [fdOpen, hnew], .inl ⟨rfl, h1⟩⟩
  rcases fdGet_slots i h1 (by rw [update_self]; omega) (by rw [update_self]; decide) with
    ⟨fds2, hget, h2⟩
  rcases fdPut_slots i h2 (by rw [update_self]; omega) with ⟨fds3, hput, h3⟩
  rcases fdPut_slots i h3 (by simp only [update_self]; omega) with
    ⟨fds4, hput', h4⟩
  simp only [update_self, update_idem] at h3 h4
  rw [fdOpen, hnew]
  simp only [hget, hput, hput', some_bind]
  cases opens with
  | true => exact ⟨fds3, some i, rfl, .inr ⟨i, rfl, hzero, h3⟩⟩
  | false =>
    refine ⟨fds4, none, rfl, .inl ⟨rfl, ?_⟩⟩
    rw [← update_eq_self i f, hzero]
    exact h4

theorem fdClose_slots (closes : Bool) (hi : 0 < f i) (hmore : f i + 1 < 2 ^ 31) :
    ∃ fds', fdClose closes (i + dfsFdOffset) fds = some (fds', some i) ∧
      Slots fds' (if closes then update f i (f i - 1) else f) := by
  rcases fdGet_slots i h hi hmore with ⟨fds1, hget, h1⟩
  rcases fdPut_slots i h1 (by rw [update_self]; omega) with ⟨fds2, hput, h2⟩
  simp only [update_self, update_idem, Nat.add_sub_cancel, update_eq_self] at h2
  rcases fdPut_slots i h2 hi with ⟨fds3, hput', h3⟩
  simp only [fdClose, hget, hput, hput', some_bind]
  cases closes with
  | true => exact ⟨fds3, rfl, h3⟩
  | false => exact ⟨fds2, rfl, h2⟩

end Calls

section Steps

variable {max : Nat} {s s' : FdSys}

/-- An open that fails leaves the slots as they were because each slot is what its counter says. -/
theorem fdOk_of {max : Nat} (hcalls : ∀ c ∈ s.calls, c.2 = some c.1) (hslots : Slots s.fds s.count)
    (hdistinct : s.files.Nodup) : FdOk max s := by
  refine ⟨hcalls, hslots, hdistinct, fun mem opens => ?_⟩
  rcases fdOpen_slots max mem hslots opens with ⟨fds, r, hopen, hcase⟩
  refine ⟨fds, r, hopen, fun hr i => ?_⟩
  rcases hcase with ⟨-, hsame⟩ | ⟨j, hj, -, -⟩
  · exact (hsame i).1.trans (hslots i).1.symm
  · exact nomatch (hr.symm.trans hj)

/-- A number that is looked up within the condition denotes an open file, or is not found. -/
theorem cond_cases {s : FdSys} {fd : Int} (hslots : Slots s.fds s.count) (h : FdCond s (.get fd)) :
    (s.denotes fd = true ∧ ∃ i ∈ s.files, 0 < s.count i ∧ s.count i + 1 < 2 ^ 31 ∧
        fd = i + dfsFdOffset) ∨
      (s.denotes fd = false ∧ fdGet s.fds fd = some (s.fds, none)) := by
  by_cases hd : s.denotes fd
  · rcases any_eq_true.mp hd with ⟨i, hi, heq⟩
    have hfd : fd = i + dfsFdOffset := (of_decide_eq_true heq).symm
    have hpos : 0 < s.count i := Nat.add_pos_left (count_pos_iff.mpr hi) _
    refine .inl ⟨hd, i, hi, hpos, ?_, hfd⟩
    rcases h with ⟨-, hmore⟩ | hout
    · rwa [hfd, Int.add_sub_cancel, Int.toNat_natCast] at hmore
    · -- a number outside of the table denotes nothing
      have hlt := slots_lt i hslots hpos
      omega
  · refine .inr ⟨Bool.eq_false_iff.mpr hd, if_pos ?_⟩
    have hout := h.resolve_left fun hboth => hd hboth.1
    omega

theorem calls_cons {b : Bool} (hinv : FdOk max s) :
    ∀ c ∈ (b, some b) :: s.calls, c.2 = some c.1 := by
  intro c hc
  rcases mem_cons.mp hc with rfl | hc
  · rfl
  · exact hinv.calls c hc

theorem fdStep_inv {a : FdAction} (hinv : FdOk max s) (hcond : FdCond s a)
    (h : fdStep max s a = some s') : FdOk max s' := by
  cases a with
  | openFile mem opens =>
    rcases fdOpen_slots max mem hinv.slots opens with ⟨fds, r, hopen, hcase⟩
    simp only [fdStep, hopen, some_bind] at h
    cases h
    rcases hcase with ⟨rfl, hslots⟩ | ⟨i, rfl, hzero, hslots⟩
    · exact fdOk_of hinv.calls hslots hinv.distinct
    have hnew : i ∉ s.files := count_eq_zero.mp (Nat.eq_zero_of_add_eq_zero_right hzero)
    refine fdOk_of hinv.calls (slots_at hslots ?_ (fun j hj => ?_))
      (nodup_cons.mpr ⟨hnew, hinv.distinct⟩)
    · have hself : (i :: s.files).count i = s.files.count i + 1 := count_cons_self
      have hsum : s.files.count i + s.refs.count i = 0 := hzero
      change (i :: s.files).count i + s.refs.count i = 1
      omega
    · exact congrArg (· + s.refs.count j) (count_cons_of_ne (Ne.symm hj))
  | close fd closes =>
    cases h
    rcases cond_cases hinv.slots hcond with ⟨hd, i, hi, hpos, hmore, rfl⟩ | ⟨hd, hget⟩
    · rcases fdClose_slots i hinv.slots closes hpos hmore with ⟨fds, hclose, hslots⟩
      simp only [FdSys.answer, hclose, hd]
      cases closes with
      | true =>
        refine fdOk_of (calls_cons hinv)
          (slots_at hslots ?_ (fun j hj => ?_)) (hinv.distinct.erase i)
        · exact (congrArg (· + s.refs.count i) count_erase_self).trans
            (Nat.sub_add_comm (count_pos_iff.mpr hi)).symm
        · exact congrArg (· + s.refs.count j) (count_erase_of_ne hj)
      | false => exact fdOk_of (calls_cons hinv) hslots hinv.distinct
    · have hclose : fdClose closes fd s.fds = some (s.fds, none) := by
        simp only [fdClose, hget, some_bind]
      simp only [FdSys.answer, hclose, hd]
      cases closes with
      | true => exact fdOk_of (calls_cons hinv) hinv.slots hinv.distinct
      | false => exact fdOk_of (calls_cons hinv) hinv.slots hinv.distinct
  | get fd =>
    cases h
    rcases cond_cases hinv.slots hcond with ⟨hd, i, _, hpos, hmore, rfl⟩ | ⟨hd, hget⟩
    · rcases fdGet_slots i hinv.slots hpos hmore with ⟨fds, hget, hslots⟩
      simp only [FdSys.answer, hget, hd]
      refine fdOk_of (calls_cons hinv) (slots_at hslots ?_ (fun j hj => ?_)) hinv.distinct
      · exact congrArg (s.files.count i + ·) count_cons_self
      · exact congrArg (s.files.count j + ·) (count_cons_of_ne (Ne.symm hj))
    · simp only [FdSys.answer, hget, hd]
      exact fdOk_of (calls_cons hinv) hinv.slots hinv.distinct
  | put i =>
    simp only [fdStep, bind_iff, assert_iff, Option.some.injEq] at h
    rcases h with ⟨hi, fds', hput, rfl⟩
    rcases fdPut_slots i hinv.slots
      (Nat.add_pos_right _ (count_pos_iff.mpr hi)) with ⟨fds, hput', hslots⟩
    rw [hput] at hput'
    cases hput'
    refine fdOk_of hinv.calls (slots_at hslots ?_ (fun j hj => ?_)) hinv.distinct
    · exact (congrArg (s.files.count i + ·) count_erase_self).trans
        (Nat.add_sub_assoc (count_pos_iff.mpr hi) _).symm
    · exact congrArg (s.files.count j + ·) (count_erase_of_ne hj)

end Steps

/-- Numbers are looked up correctly and references are counted, in every run in which each number
    that is looked up denotes an open file, with a counter that can go on, or is outside of the
    table. -/
theorem fds_agree (max : Nat) (as : List FdAction) (hcond : Along (fdStep max) FdCond fdInit as) :
    Always (fdStep max) (FdOk max) fdInit as := by
  have hnone : ∀ i, fdInit.count i < 2 ^ 31 := fun _ => Nat.two_pow_pos 31
  have hinit : FdOk max fdInit := fdOk_of nofun (fun i => ⟨rfl, hnone i⟩) nodup_nil
  exact always_of_inv (FdOk max) id fdStep_inv hinit hcond

/-- Two files are opened and one is not, and one is closed while there is a reference to it. -/
theorem fds_agree_closed :
    Always (fdStep 16) (FdOk 16) fdInit
      [.openFile ⟨true, some ⟨0#16, 9⟩⟩ true, .openFile ⟨true, some ⟨0#16, 9⟩⟩ false,
        .openFile ⟨true, some ⟨0#16, 9⟩⟩ true, .get 3, .close 3 true, .put 0, .get 4, .get (-1)] :=
  fds_agree 16 _ (by decide +kernel)

/-- With one file open, the number of the next slot is looked up through a null pointer. After the
    file is closed while there is a reference to it, its number is still looked up. -/
theorem fdGet_empty :
    (exec (fdStep 16) fdInit [.openFile ⟨true, some ⟨0#16, 9⟩⟩ true, .get 4]).map FdSys.calls
        = some [(false, none)] ∧
      (exec (fdStep 16) fdInit [.openFile ⟨true, some ⟨0#16, 9⟩⟩ true, .get 3, .close 3 true,
          .get 3]).map FdSys.calls
        = some [(false, some true), (true, some true), (true, some true)] := by
  decide +kernel

end Honeycomb
