import Honeycomb.Core.Mmcsd

/-!
# Errors of a Write to a Card

On an SPI bus a write that failed is reported. On another bus the error of the write command is
replaced by that of the last request for the status, so a failed command is reported only along
with another error. When the requests for the status end, the answers of the host say: one of them
finds the card ready, or five in a row fail.

## Theorems

* `write_reported`: When a write is reported.
* `write_error_lost`: A failed write command is not reported.
-/

namespace Honeycomb.Mmcsd

variable {host : Nat → Answer} {spi : Bool} {size n : Nat}

/-- The command, the data and the stop command, if there is one, are without an error. -/
def Clean (spi : Bool) (size : Nat) (answer : Answer) : Prop :=
  answer.cmd = 0 ∧ answer.data = 0 ∧ (size > 1 → spi = false → answer.stop = 0)

/-- The write returns, and returns its size only if it is without an error, or else 0. -/
def Reported (host : Nat → Answer) (spi : Bool) (size : Nat) : Prop :=
  (∃ rounds, (rtMmcsdWrite host spi size rounds).isSome) ∧
    ∀ rounds r, rtMmcsdWrite host spi size rounds = some r →
      r = size ∧ Clean spi size (host 0) ∨ r = 0

/-- The answer to a request is that the card is ready. -/
def Ready (host : Nat → Answer) (n : Nat) : Prop :=
  (host n).cmd = 0 ∧ ¬ ((host n).resp &&& (1#32 <<< 8) = 0#32 ∨
    ((host n).resp &&& 0x1E00#32) >>> 9 = 7#32)

/-- The request and the four behind it fail. -/
def Refused (host : Nat → Answer) (n : Nat) : Prop :=
  ∀ i < 5, (host (n + i)).cmd ≠ 0

/-- A request is sent until it does not fail, or as often as it may. -/
theorem sendRequest_spec (host : Nat → Answer) (k n : Nat) :
    ∃ j ≤ k, mmcsdSendRequest host (k + 1) n = (host (n + j), n + j + 1) ∧
      (∀ i < j, (host (n + i)).cmd ≠ 0) ∧ ((host (n + j)).cmd = 0 ∨ j = k) := by
  induction k generalizing n with
  | zero => exact ⟨0, Nat.le_refl 0, rfl, nofun, .inr rfl⟩
  | succ k ih =>
    by_cases hok : (host n).cmd = 0
    · exact ⟨0, Nat.zero_le _, if_neg (not_not.mpr hok), nofun, .inl hok⟩
    rcases ih (n + 1) with ⟨j, hj, hsend, hfail, hend⟩
    have hshift : ∀ i, n + 1 + i = n + (i + 1) := by omega
    simp only [hshift] at hsend hfail hend
    refine ⟨j + 1, by omega, (if_pos hok).trans hsend, fun i hi => ?_, by omega⟩
    cases i with
    | zero => exact hok
    | succ i => exact hfail i (by omega)

/-- One round of the loop: the last answer of its request ends the loop, or the next round begins
    behind it. -/
theorem pollStatus_round (host : Nat → Answer) (n : Nat) :
    ∃ j < 5, (∀ i < j, (host (n + i)).cmd ≠ 0) ∧
      ((Refused host n ∧ ∀ rounds, ∃ c ≠ 0, pollStatus host (rounds + 1) n = some c) ∨
        (Ready host (n + j) ∧ ∀ rounds, pollStatus host (rounds + 1) n = some 0) ∨
        ((host (n + j)).cmd = 0 ∧ ¬ Ready host (n + j) ∧
          ∀ rounds, pollStatus host (rounds + 1) n = pollStatus host rounds (n + j + 1))) := by
  rcases sendRequest_spec host 4 n with ⟨j, hj, hsend, hfail, hend⟩
  refine ⟨j, by omega, hfail, ?_⟩
  simp only [pollStatus, hsend]
  by_cases hok : (host (n + j)).cmd = 0
  · simp only [hok, ne_eq, not_true_eq_false, if_false]
    by_cases hready : Ready host (n + j)
    · exact .inr (.inl ⟨hready, fun _ => if_neg hready.2⟩)
    · refine .inr (.inr ⟨trivial, hready, fun _ => if_pos ?_⟩)
      exact not_not.mp fun hnot => hready ⟨hok, hnot⟩
  · refine .inl ⟨fun i hi => ?_, fun _ => ⟨_, hok, if_pos hok⟩⟩
    rcases Nat.lt_or_eq_of_le (show i ≤ j by omega) with hij | rfl
    · exact hfail i hij
    · exact hok

/-- The loop ends if an answer is there that ends it. -/
theorem pollStatus_isSome (d : Nat) (hend : Ready host (n + d) ∨ Refused host (n + d)) :
    ∃ rounds, (pollStatus host rounds n).isSome := by
  -- on how far the answer is ahead
  induction d using Nat.strongRecOn generalizing n with
  | _ d ih =>
    rcases pollStatus_round host n with ⟨j, hj, hfail, ⟨-, hr⟩ | ⟨-, hr⟩ | ⟨hok, hready, hr⟩⟩
    · rcases hr 0 with ⟨c, -, hc⟩
      exact ⟨1, by rw [hc]; rfl⟩
    · exact ⟨1, by rw [hr 0]; rfl⟩
    have hbehind : j < d := by
      by_contra hle
      rcases hend with hend | hend
      · rcases Nat.lt_or_eq_of_le (Nat.not_lt.mp hle) with hlt | rfl
        · exact hfail d hlt hend.1
        · exact hready hend
      · exact hend (j - d) (by omega) (by rwa [show n + d + (j - d) = n + j by omega])
    rcases ih (d - (j + 1)) (by omega)
      (by rwa [show n + j + 1 + (d - (j + 1)) = n + d by omega]) with ⟨rounds, h⟩
    exact ⟨rounds + 1, by rwa [hr]⟩

/-- A loop that has ended has done so at the first answer that ends it. -/
theorem pollStatus_first {rounds : Nat} {c : Int} (h : pollStatus host rounds n = some c) :
    ∃ m ≥ n, (c = 0 ∧ Ready host m ∨ c ≠ 0 ∧ Refused host m) ∧
      ∀ i, n ≤ i → i < m → ¬ Ready host i ∧ ¬ Refused host i := by
  induction rounds generalizing n with
  | zero => cases h
  | succ rounds ih =>
    rcases pollStatus_round host n with ⟨j, hj, hfail, hround⟩
    -- in front of the last answer of the round there is none that ends the loop
    have hskip : ∀ i, n ≤ i → i < n + j → (host (n + j)).cmd = 0 →
        ¬ Ready host i ∧ ¬ Refused host i := by
      intro i hle hlt hok
      refine ⟨fun hr => hfail (i - n) (by omega) ?_, fun hr => hr (n + j - i) (by omega) ?_⟩
      · rw [show n + (i - n) = i by omega]
        exact hr.1
      · rwa [show i + (n + j - i) = n + j by omega]
    rcases hround with ⟨href, hr⟩ | ⟨hready, hr⟩ | ⟨hok, hready, hr⟩
    · rcases hr rounds with ⟨c', hc', heq⟩
      cases heq.symm.trans h
      exact ⟨n, Nat.le_refl n, .inr ⟨hc', href⟩, fun i hle hlt => absurd hlt (by omega)⟩
    · cases (hr rounds).symm.trans h
      exact ⟨n + j, by omega, .inl ⟨rfl, hready⟩, fun i hle hlt => hskip i hle hlt hready.1⟩
    · rcases ih ((hr rounds).symm.trans h) with ⟨m, hm, hend, hbefore⟩
      refine ⟨m, by omega, hend, fun i hle hlt => ?_⟩
      rcases Nat.lt_trichotomy i (n + j) with hi | rfl | hi
      · exact hskip i hle hi hok
      · exact ⟨hready, fun href => href 0 (by omega) hok⟩
      · exact hbefore i hi hlt

theorem pollStatus_ends : (∃ rounds, (pollStatus host rounds n).isSome) ↔
    ∃ m ≥ n, Ready host m ∨ Refused host m := by
  refine ⟨fun ⟨rounds, h⟩ => ?_, fun ⟨m, hm, h⟩ => ?_⟩
  · rcases Option.isSome_iff_exists.mp h with ⟨c, hc⟩
    rcases pollStatus_first hc with ⟨m, hm, hend, -⟩
    exact ⟨m, hm, hend.imp And.right And.right⟩
  · exact pollStatus_isSome (m - n) (by rwa [show n + (m - n) = m by omega])

/-- What is returned when the error `c` is left in the command. -/
def returned (spi : Bool) (size : Nat) (answer : Answer) (c : Int) : Nat :=
  if c ≠ 0 ∨ answer.data ≠ 0 ∨ (size > 1 ∧ spi = false) ∧ answer.stop ≠ 0 then 0 else size

theorem write_eq (rounds : Nat) : rtMmcsdWrite host spi size rounds =
    (if spi = false then pollStatus host rounds 1 else some (host 0).cmd).map
      (returned spi size (host 0)) := by
  unfold rtMmcsdWrite rtMmcsdReqBlk
  dsimp only [mmcsdSendRequest]
  simp only [and_true, Bool.true_eq_false, or_false]
  cases (if spi = false then pollStatus host rounds 1 else some (host 0).cmd) with
  | none => rfl
  | some c =>
    simp only [some_bind, Option.map_some, returned]
    split
    · rfl
    · rfl

/-- The error `c` that is left in the command hides none. -/
def Shown (spi : Bool) (size : Nat) (answer : Answer) (c : Int) : Prop :=
  c ≠ 0 ∨ size = 0 ∨ answer.cmd = 0 ∨ answer.data ≠ 0 ∨ (size > 1 ∧ spi = false) ∧ answer.stop ≠ 0

theorem shown_iff {answer : Answer} {c : Int} {r : Nat} (h : returned spi size answer c = r) :
    (r = size ∧ Clean spi size answer ∨ r = 0) ↔ Shown spi size answer c := by
  unfold returned at h
  unfold Clean Shown
  grind

theorem reported_iff : Reported host spi size ↔
    (spi = true ∨ ∃ rounds, (pollStatus host rounds 1).isSome) ∧
      (spi = true ∨ ∀ rounds c, pollStatus host rounds 1 = some c → Shown spi size (host 0) c) := by
  unfold Reported
  simp only [write_eq, Option.isSome_map, Option.map_eq_some_iff]
  cases spi with
  | true =>
    simp only [Bool.true_eq_false, if_false, true_or, and_self, iff_true]
    refine ⟨⟨0, rfl⟩, fun _ r ⟨c, hc, hr⟩ => (shown_iff hr).mpr ?_⟩
    cases hc
    by_cases h : (host 0).cmd = 0
    · exact .inr (.inr (.inl h))
    · exact .inl h
  | false =>
    simp only [if_true, false_or, Bool.false_eq_true]
    refine and_congr_right fun _ => ⟨fun h rounds c hc => ?_, fun h rounds r ⟨c, hc, hr⟩ => ?_⟩
    · exact (shown_iff rfl).mp (h rounds _ ⟨c, hc, rfl⟩)
    · exact (shown_iff hr).mpr (h rounds c hc)

/-- A failed write is reported exactly if the requests for the status end and the error of the
    command is not the only one: there is none on an SPI bus to replace it, and on another bus the
    data, the stop command or the last request for the status has to fail as well. A write of no
    blocks returns 0 in any case. -/
theorem write_reported : Reported host spi size ↔
    (spi = true ∨ ∃ n ≥ 1, Ready host n ∨ Refused host n) ∧
      (spi = true ∨ size = 0 ∨ (host 0).cmd = 0 ∨ (host 0).data ≠ 0 ∨
        (size > 1 ∧ (host 0).stop ≠ 0) ∨
        ∃ n ≥ 1, Refused host n ∧ ∀ m ≥ 1, m < n → ¬ Ready host m) := by
  rw [reported_iff]
  cases spi with
  | true => simp only [true_or]
  | false =>
    simp only [Shown, false_or, Bool.false_eq_true, and_true]
    rw [pollStatus_ends, and_congr_right_iff]
    intro hend
    rcases pollStatus_ends.mpr hend with ⟨rounds, hsome⟩
    rcases Option.isSome_iff_exists.mp hsome with ⟨c, hc⟩
    constructor
    · intro h
      rcases h rounds c hc with hne | h
      · rcases pollStatus_first hc with ⟨m, hm, ⟨h0, -⟩ | ⟨-, href⟩, hbefore⟩
        · exact absurd h0 hne
        · exact .inr (.inr (.inr (.inr ⟨m, hm, href, fun i hi hlt => (hbefore i hi hlt).1⟩)))
      · tauto
    · rintro (h | h | h | h | ⟨n, hn, href, hready⟩) rounds c hc
      · exact .inr (.inl h)
      · exact .inr (.inr (.inl h))
      · exact .inr (.inr (.inr (.inl h)))
      · exact .inr (.inr (.inr (.inr h)))
      -- the requests end at the first refusal
      rcases pollStatus_first hc with ⟨m, hm, ⟨-, hm'⟩ | ⟨hne, -⟩, hbefore⟩
      · rcases Nat.lt_trichotomy m n with hlt | rfl | hlt
        · exact absurd hm' (hready m hm hlt)
        · exact absurd hm'.1 (href 0 (by omega))
        · exact absurd href (hbefore n hn hlt).2
      · exact .inl hne

/-- The error of the write command is gone once the card is ready. -/
theorem write_error_lost :
    let host : Nat → Answer := fun n => if n = 0 then ⟨-2, 0, 0, 0⟩ else ⟨0, 0, 0, 0x100#32⟩
    ¬ Clean false 4 (host 0) ∧ rtMmcsdWrite host false 4 1 = some 4 :=
  ⟨fun h => absurd h.1 (by decide), rfl⟩

end Honeycomb.Mmcsd
