import Honeycomb.Core.SerialDevice
import Honeycomb.Lib.Run

/-!
# The Life Cycle of a Serial Device

While a device is open, its structure for receiving is there exactly if an open has asked for one,
and it is the structure of the mode in the open flag. When the device is closed, nothing that was
allocated is left.

This holds if every open of a device that has a structure for receiving asks for the mode of that
structure, and if at the last close the flags name a mode of sending in case there is a structure
for sending, and that structure has no array of its own. Each part is needed. An open that asks for
no mode, or for the other one, leaves flags that do not fit the structure, and the last close then
leaves it where it is. The array of the data queue is never freed.

What the pointers and the heap say does not depend on the flags: `Owned` is about pointers and heap
alone, and every operation keeps it. The flags come in with `rxRecorded`, which is compared with the
mode of the structure, `rxTag`.

## Theorems

* `serial_life_cycle`: The life cycle of a device.
-/

namespace Honeycomb

open BitVec Function List Option Run

section Flags

theorem testFlag_or (x y flag : BitVec 16) :
    testFlag (x ||| y) flag = (testFlag x flag || testFlag y flag) := by
  have hdist : (x ||| y) &&& flag = (x &&& flag) ||| (y &&& flag) := by
    ext i
    simp only [getElem_and, getElem_or]
    rw [Bool.and_or_distrib_right]
  simp only [testFlag, hdist]
  by_cases hx : x &&& flag = 0#16
  · rw [hx, zero_or, bne_self_eq_false, Bool.false_or]
  have hxy : (x &&& flag) ||| (y &&& flag) ≠ 0#16 := by
    intro h
    exact hx (or_eq_zero_iff.mp h).1
  rw [bne_iff_ne.mpr hxy, bne_iff_ne.mpr hx, Bool.true_or]

theorem testFlag_keep {x mask flag : BitVec 16} (h : mask &&& flag = flag) :
    testFlag (x &&& mask) flag = testFlag x flag := by
  rw [testFlag, testFlag, BitVec.and_assoc, h]

theorem testFlag_drop (x mask flag : BitVec 16) (h : mask &&& flag = 0#16) :
    testFlag (x &&& mask) flag = false := by
  rw [testFlag, BitVec.and_assoc, h, and_zero, bne_self_eq_false]

end Flags

variable (oflag : BitVec 16)

/-- The receive mode an open gets: DMA if it asks for both. -/
def rxRequest : Option RxMode :=
  if testFlag oflag flagDmaRx then some .dma
  else if testFlag oflag flagIntRx then some .int
  else none

/-- The receive mode that reads and the last close take from the open flag. -/
def rxRecorded (openFlag : BitVec 16) : Option RxMode :=
  if testFlag openFlag flagIntRx then some .int
  else if testFlag openFlag flagDmaRx then some .dma
  else none

/-- The open flag names a mode of sending. -/
def txRecorded (openFlag : BitVec 16) : Bool :=
  testFlag openFlag flagIntTx || testFlag openFlag flagDmaTx

variable (s : SerialSys)

def rxTag : Option RxMode :=
  s.dev.serialRx.bind fun p => (s.heap p).bind SerialObj.rxMode

/-- An open has asked for a mode of receiving since the device was last closed. -/
def rxWanted : Bool :=
  s.opens.any fun oflag => testFlag oflag flagIntRx || testFlag oflag flagDmaRx

/-- The structure for sending has an array for its data queue. -/
def txQueue : Option Nat :=
  s.dev.serialTx.bind fun p =>
    match s.heap p with
    | some (.txDma queue) => queue
    | _ => none

/-- An open of a device that has a structure for receiving asks for the mode of that structure.
    At the last close the flags name a mode of sending, if there is a structure for it, and there
    is no array. -/
def SerialCond : SerialAction → Prop
  | .openDev oflag _ _ => s.dev.serialRx = none ∨ rxRequest oflag = rxTag s
  | .closeDev =>
    s.dev.refCount = 1 →
      (s.dev.serialTx = none ∨ txRecorded s.dev.openFlag = true) ∧ txQueue s = none

instance decidableSerialCond : (a : SerialAction) → Decidable (SerialCond s a)
  | .openDev oflag _ _ =>
    inferInstanceAs (Decidable (s.dev.serialRx = none ∨ rxRequest oflag = rxTag s))
  | .closeDev =>
    inferInstanceAs (Decidable (s.dev.refCount = 1 →
      (s.dev.serialTx = none ∨ txRecorded s.dev.openFlag = true) ∧ txQueue s = none))

/-- While the device is open, it has a structure for receiving exactly if an open has asked for
    one, and that structure is the one of the mode in the open flag. When it is closed, both
    pointers are null and nothing is allocated. -/
structure SerialOk : Prop where
  wanted : s.dev.refCount ≠ 0 → (s.dev.serialRx.isSome = true ↔ rxWanted s = true)
  mode : s.dev.refCount ≠ 0 → ∀ p, s.dev.serialRx = some p →
    ∃ obj mode, s.heap p = some obj ∧ obj.rxMode = some mode ∧ rxRecorded s.dev.openFlag = some mode
  closed : s.dev.refCount = 0 → s.dev.serialRx = none ∧ s.dev.serialTx = none ∧ ∀ p, s.heap p = none

/-- The pointers point to structures of their kind, and whatever is allocated is one of these or
    the array of a data queue. -/
structure Owned : Prop where
  fresh : ∀ p, s.fresh ≤ p → s.heap p = none
  rx : ∀ p, s.dev.serialRx = some p → ∃ obj mode, s.heap p = some obj ∧ obj.rxMode = some mode
  tx : ∀ p, s.dev.serialTx = some p → ∃ obj, s.heap p = some obj ∧ obj.rxMode = none
  owned : ∀ p, s.heap p ≠ none →
    s.dev.serialRx = some p ∨ s.dev.serialTx = some p ∨ txQueue s = some p

structure SerialInv : Prop where
  owned : Owned s
  mode : rxRecorded s.dev.openFlag = rxTag s
  txFlag : txRecorded s.dev.openFlag = true → s.dev.serialTx ≠ none
  wanted : s.dev.serialRx.isSome = rxWanted s
  closed : s.dev.refCount = 0 → s.dev.serialRx = none ∧ s.dev.serialTx = none
  activated : s.dev.refCount ≠ 0 → testFlag s.dev.flag flagActivated = true
  modes : ∀ flag ∈ [flagIntRx, flagDmaRx, flagIntTx, flagDmaTx], testFlag s.dev.flag flag = true

/-- The flag an open adds for the receive mode it gets. -/
def rxBits : BitVec 16 :=
  match rxRequest oflag with
  | some .dma => flagDmaRx
  | some .int => flagIntRx
  | none => 0#16

/-- The flag an open adds for the mode of sending it gets. -/
def txBits : BitVec 16 :=
  if testFlag oflag flagDmaTx then flagDmaTx
  else if testFlag oflag flagIntTx then flagIntTx
  else 0#16

/-- The flags an open leaves: the low byte of what was asked for, the two modes, and `rest`, which
    is the stream flag and the flag of an open device. -/
def openedFlag (oflag rest : BitVec 16) : BitVec 16 :=
  (oflag &&& 0xff#16) ||| rxBits oflag ||| txBits oflag ||| rest

theorem rxRequest_isSome :
    (rxRequest oflag).isSome = (testFlag oflag flagIntRx || testFlag oflag flagDmaRx) := by
  unfold rxRequest
  cases testFlag oflag flagDmaRx <;> cases testFlag oflag flagIntRx <;> rfl

section Recorded

variable (oflag : BitVec 16) {rest : BitVec 16}

theorem testFlag_txBits_rx (flag : BitVec 16) (hint : testFlag flagIntTx flag = false)
    (hdma : testFlag flagDmaTx flag = false) : testFlag (txBits oflag) flag = false := by
  unfold txBits
  split_ifs
  · exact hdma
  · exact hint
  · exact testFlag_drop 0#16 0#16 flag zero_and

theorem testFlag_rxBits_tx (flag : BitVec 16) (hint : testFlag flagIntRx flag = false)
    (hdma : testFlag flagDmaRx flag = false) : testFlag (rxBits oflag) flag = false := by
  unfold rxBits
  cases rxRequest oflag with
  | none => exact testFlag_drop 0#16 0#16 flag zero_and
  | some mode =>
    cases mode with
    | int => exact hint
    | dma => exact hdma

theorem rxRecorded_opened (hint : testFlag rest flagIntRx = false)
    (hdma : testFlag rest flagDmaRx = false) :
    rxRecorded (openedFlag oflag rest) = rxRequest oflag := by
  simp only [rxRecorded, openedFlag, testFlag_or, hint, hdma,
    testFlag_txBits_rx oflag flagIntRx (by decide) (by decide),
    testFlag_txBits_rx oflag flagDmaRx (by decide) (by decide),
    testFlag_drop oflag 0xff#16 flagIntRx (by decide),
    testFlag_drop oflag 0xff#16 flagDmaRx (by decide), Bool.false_or, Bool.or_false]
  unfold rxBits
  rcases rxRequest oflag with _ | _ | _ <;> decide

/-- An open that asks for a mode of sending records one, and no other open does. -/
theorem txRecorded_opened (hint : testFlag rest flagIntTx = false)
    (hdma : testFlag rest flagDmaTx = false) :
    txRecorded (openedFlag oflag rest) = txRecorded oflag := by
  simp only [txRecorded, openedFlag, testFlag_or, hint, hdma,
    testFlag_rxBits_tx oflag flagIntTx (by decide) (by decide),
    testFlag_rxBits_tx oflag flagDmaTx (by decide) (by decide),
    testFlag_drop oflag 0xff#16 flagIntTx (by decide),
    testFlag_drop oflag 0xff#16 flagDmaTx (by decide), Bool.false_or, Bool.or_false]
  unfold txBits
  cases testFlag oflag flagDmaTx <;> cases testFlag oflag flagIntTx <;> decide

end Recorded

variable {s : SerialSys} {f oflag : BitVec 16} {obj : SerialObj} {queueMem : Bool}

theorem Owned.rx_isSome (h : Owned s) : s.dev.serialRx.isSome = (rxTag s).isSome := by
  unfold rxTag
  cases hrx : s.dev.serialRx with
  | none => rfl
  | some p =>
    rcases h.rx p hrx with ⟨obj, mode, hobj, hmode⟩
    simp only [bind_some, hobj, hmode, isSome_some]

section Opening

variable (s s' : SerialSys)

/-- What was allocated is still there. -/
def Extends : Prop :=
  ∀ p obj, s.heap p = some obj → s'.heap p = some obj

variable (h : Owned s)
include h

theorem rxTag_extends (hrx : s'.dev.serialRx = s.dev.serialRx)
    (hext : Extends s s') : rxTag s' = rxTag s := by
  unfold rxTag
  rw [hrx]
  cases hp : s.dev.serialRx with
  | none => rfl
  | some p =>
    rcases h.rx p hp with ⟨obj, mode, hobj, _⟩
    simp only [bind_some, hobj, hext p obj hobj]

theorem txQueue_extends (htx : s'.dev.serialTx = s.dev.serialTx)
    (hext : Extends s s') : txQueue s' = txQueue s := by
  unfold txQueue
  rw [htx]
  cases hp : s.dev.serialTx with
  | none => rfl
  | some p =>
    rcases h.tx p hp with ⟨obj, hobj, _⟩
    simp only [bind_some, hobj, hext p obj hobj]

omit h in
theorem malloc_spec (obj : SerialObj) (hfresh : ∀ p, s.fresh ≤ p → s.heap p = none) :
    (s.rtMalloc obj).heap s.fresh = some obj ∧ Extends s (s.rtMalloc obj) ∧
      (∀ p, (s.rtMalloc obj).fresh ≤ p → (s.rtMalloc obj).heap p = none) ∧
      ∀ p, (s.rtMalloc obj).heap p ≠ none → s.heap p ≠ none ∨ p = s.fresh := by
  have hold : ∀ p, p ≠ s.fresh → (s.rtMalloc obj).heap p = s.heap p :=
    fun p hp => update_of_ne hp _ _
  refine ⟨update_self _ _ _, fun p obj' hp => ?_, fun p hp => ?_, fun p hp => ?_⟩
  · refine (hold p fun heq => ?_).trans hp
    rw [hfresh p (Nat.le_of_eq heq.symm)] at hp
    exact nomatch hp
  · have hlt : s.fresh < p := hp
    rw [hold p (by omega)]
    exact hfresh p (by omega)
  · by_cases heq : p = s.fresh
    · exact .inr heq
    · rw [hold p heq] at hp
      exact .inl hp

theorem owned_rx_new {mode : RxMode} (hnone : s.dev.serialRx = none) (hobj : obj.rxMode = some mode)
    (hs' : s' = { s.rtMalloc obj with
      dev := { s.dev with serialRx := some s.fresh, openFlag := f } }) :
    Owned s' ∧ rxTag s' = some mode := by
  rcases malloc_spec s obj h.fresh with ⟨hnew, hext, hfresh, hold⟩
  subst hs'
  refine ⟨⟨hfresh, fun p hp => ?_, fun p hp => ?_, fun p hp => ?_⟩, ?_⟩
  · cases hp
    exact ⟨obj, mode, hnew, hobj⟩
  · rcases h.tx p hp with ⟨tx, htx', hmode⟩
    exact ⟨tx, hext p tx htx', hmode⟩
  · rcases hold p hp with hp' | hp'
    · rcases h.owned p hp' with hown | hown | hown
      · rw [hnone] at hown
        exact nomatch hown
      · exact .inr (.inl hown)
      · refine .inr (.inr (Eq.trans ?_ hown))
        exact txQueue_extends s _ h rfl hext
    · exact .inl (congrArg some hp'.symm)
  · simp only [rxTag, bind_some, hnew, hobj]

theorem owned_tx_new (hnone : s.dev.serialTx = none) (hobj : obj.rxMode = none)
    (hrx : s'.dev.serialRx = s.dev.serialRx) (htx : s'.dev.serialTx = some s.fresh)
    (hnew : s'.heap s.fresh = some obj) (hext : Extends s s')
    (hfresh : ∀ p, s'.fresh ≤ p → s'.heap p = none)
    (hold : ∀ p, s'.heap p ≠ none → s.heap p ≠ none ∨ p = s.fresh ∨ txQueue s' = some p) :
    Owned s' := by
  refine ⟨hfresh, fun p hp => ?_, fun p hp => ?_, fun p hp => ?_⟩
  · rw [hrx] at hp
    rcases h.rx p hp with ⟨rx, mode, hrx', hmode⟩
    exact ⟨rx, mode, hext p rx hrx', hmode⟩
  · rw [htx] at hp
    cases hp
    exact ⟨obj, hnew, hobj⟩
  rcases hold p hp with hp' | hp' | hp'
  · rcases h.owned p hp' with hown | hown | hown
    · exact .inl (hrx.trans hown)
    · rw [hnone] at hown
      exact nomatch hown
    · -- there was no structure for sending, so there was no array
      simp only [txQueue, hnone, bind_none, reduceCtorEq] at hown
  · right
    left
    rw [htx, hp']
  · exact .inr (.inr hp')

theorem owned_tx_one (hnone : s.dev.serialTx = none) (hobj : obj.rxMode = none)
    (hs' : s' = { s.rtMalloc obj with
      dev := { s.dev with serialTx := some s.fresh, openFlag := f } }) :
    Owned s' ∧ Extends s s' := by
  rcases malloc_spec s obj h.fresh with ⟨hnew, hext, hfresh, hold⟩
  subst hs'
  exact ⟨owned_tx_new s _ h hnone hobj rfl rfl hnew hext hfresh
    fun p hp => (hold p hp).imp_right .inl, hext⟩

theorem owned_tx_two (hnone : s.dev.serialTx = none)
    (hs' : s' = { (s.rtMalloc (.txDma (some (s.fresh + 1)))).rtMalloc .queue with
      dev := { s.dev with serialTx := some s.fresh, openFlag := f } }) :
    Owned s' ∧ Extends s s' := by
  rcases malloc_spec s (.txDma (some (s.fresh + 1))) h.fresh with ⟨hnew, hext, hfresh, hold⟩
  rcases malloc_spec _ .queue hfresh with ⟨-, hext', hfresh', hold'⟩
  have hnew' := hext' _ _ hnew
  have hboth : Extends s s' := fun p obj hp => hs' ▸ hext' p obj (hext p obj hp)
  subst hs'
  refine ⟨owned_tx_new s _ h hnone rfl rfl rfl hnew' hboth hfresh' fun p hp => ?_, hboth⟩
  rcases hold' p hp with hp' | hp'
  · exact (hold p hp').imp_right .inl
  right
  right
  simp only [txQueue, bind_some, hnew', hp']
  rfl

omit h

/-- What an open of the driver does not touch. -/
structure Frame : Prop where
  flag : s'.dev.flag = s.dev.flag
  refCount : s'.dev.refCount = s.dev.refCount
  opens : s'.opens = s.opens

theorem openRx_spec (h : Owned s) (hs' : serialOpenRx s oflag = s') :
    Owned s' ∧ Frame s s' ∧ s'.dev.openFlag = s.dev.openFlag ||| rxBits oflag ∧
      s'.dev.serialTx = s.dev.serialTx ∧
      rxTag s' = if s.dev.serialRx = none then rxRequest oflag else rxTag s := by
  have hsame : ∀ f, Owned { s with dev := { s.dev with openFlag := f } } :=
    fun f => ⟨h.fresh, h.rx, h.tx, h.owned⟩
  unfold serialOpenRx at hs'
  by_cases hdma : testFlag oflag flagDmaRx = true
  · simp only [if_pos hdma] at hs'
    have hreq : rxRequest oflag = some .dma := if_pos hdma
    split at hs'
    · next hrx =>
      have hobj : (if s.dev.bufsz = 0 then SerialObj.rxDma else .rxFifo .dma).rxMode =
          some .dma := by
        split_ifs with hsz
        · rfl
        · rfl
      rcases owned_rx_new s s' h hrx hobj hs'.symm with ⟨hown, htag⟩
      rw [if_pos hrx, htag, hreq, rxBits, hreq]
      refine ⟨hown, ?_⟩
      rw [← hs']
      exact ⟨⟨rfl, rfl, rfl⟩, rfl, rfl, rfl⟩
    · next p hrx =>
      rw [if_neg (by simp only [hrx, reduceCtorEq, not_false_eq_true]), ← hs', rxBits, hreq]
      exact ⟨hsame _, ⟨rfl, rfl, rfl⟩, rfl, rfl, rfl⟩
  simp only [if_neg hdma] at hs'
  by_cases hint : testFlag oflag flagIntRx = true
  · simp only [if_pos hint] at hs'
    have hreq : rxRequest oflag = some .int := by rw [rxRequest, if_neg hdma, if_pos hint]
    split at hs'
    · next hrx =>
      rcases owned_rx_new s s' h hrx rfl hs'.symm with ⟨hown, htag⟩
      rw [if_pos hrx, htag, hreq, rxBits, hreq]
      refine ⟨hown, ?_⟩
      rw [← hs']
      exact ⟨⟨rfl, rfl, rfl⟩, rfl, rfl, rfl⟩
    · next p hrx =>
      rw [if_neg (by simp only [hrx, reduceCtorEq, not_false_eq_true]), ← hs', rxBits, hreq]
      exact ⟨hsame _, ⟨rfl, rfl, rfl⟩, rfl, rfl, rfl⟩
  · -- no mode is asked for, and nothing happens
    have hreq : rxRequest oflag = none := by rw [rxRequest, if_neg hdma, if_neg hint]
    have heq : s = s' := by
      simp only [if_neg hint] at hs'
      split at hs' <;> exact hs'
    rw [← heq, rxBits, hreq]
    refine ⟨h, ⟨rfl, rfl, rfl⟩, or_zero.symm, rfl, ?_⟩
    by_cases hrx : s.dev.serialRx = none
    · rw [if_pos hrx, rxTag, hrx, bind_none]
    · rw [if_neg hrx]

theorem openTx_spec (h : Owned s) (hs' : serialOpenTx s oflag queueMem = s') :
    Owned s' ∧ Frame s s' ∧ s'.dev.openFlag = s.dev.openFlag ||| txBits oflag ∧
      s'.dev.serialRx = s.dev.serialRx ∧ Extends s s' ∧
      (txRecorded oflag = true → s'.dev.serialTx ≠ none) := by
  have hsame : ∀ f, Owned { s with dev := { s.dev with openFlag := f } } :=
    fun f => ⟨h.fresh, h.rx, h.tx, h.owned⟩
  have hsome : ∀ p : Nat, some p ≠ none := fun p => some_ne_none p
  unfold serialOpenTx at hs'
  by_cases hdma : testFlag oflag flagDmaTx = true
  · simp only [if_pos hdma] at hs'
    rw [txBits, if_pos hdma]
    split at hs'
    · next htx =>
      -- with an array for the queue or without
      have hnew : Owned s' ∧ Extends s s' := by
        cases queueMem with
        | true => exact owned_tx_two s s' h htx hs'.symm
        | false => exact owned_tx_one s s' h htx rfl hs'.symm
      refine ⟨hnew.1, ?_, ?_, ?_, hnew.2, fun _ => ?_⟩
      all_goals rw [← hs']
      · cases queueMem with
        | true => exact ⟨rfl, rfl, rfl⟩
        | false => exact ⟨rfl, rfl, rfl⟩
      · exact hsome _
    · next p htx =>
      rw [← hs']
      exact ⟨hsame _, ⟨rfl, rfl, rfl⟩, rfl, rfl, fun _ _ hp => hp, fun _ => htx ▸ hsome p⟩
  simp only [if_neg hdma] at hs'
  rw [txBits, if_neg hdma]
  by_cases hint : testFlag oflag flagIntTx = true
  · simp only [if_pos hint] at hs'
    rw [if_pos hint]
    split at hs'
    · next htx =>
      rcases owned_tx_one s s' h htx rfl hs'.symm with ⟨hown, hext⟩
      refine ⟨hown, ?_, ?_, ?_, hext, fun _ => ?_⟩
      all_goals rw [← hs']
      · exact ⟨rfl, rfl, rfl⟩
      · exact hsome _
    · next p htx =>
      rw [← hs']
      exact ⟨hsame _, ⟨rfl, rfl, rfl⟩, rfl, rfl, fun _ _ hp => hp, fun _ => htx ▸ hsome p⟩
  · have heq : s = s' := by
      simp only [if_neg hint] at hs'
      split at hs' <;> exact hs'
    rw [← heq, if_neg hint]
    refine ⟨h, ⟨rfl, rfl, rfl⟩, or_zero.symm, rfl, fun _ _ hp => hp, fun htx => ?_⟩
    rw [txRecorded, Bool.or_eq_true] at htx
    rcases htx with htx | htx
    · exact absurd htx hint
    · exact absurd htx hdma

end Opening

section Closing

variable (s : SerialSys)

/-- What a pointer pointed to is gone, everything else is as it was. -/
def Freed (s' : SerialSys) (ptr : Option Nat) : Prop :=
  ∀ p, s'.heap p = if ptr = some p then none else s.heap p

theorem freed_rtFree {s' : SerialSys} {p : Nat} (hs' : s'.heap = (s.rtFree p).heap) :
    Freed s s' (some p) := by
  intro q
  rw [hs']
  by_cases hq : q = p
  · rw [hq, if_pos rfl]
    exact update_self _ _ _
  · rw [if_neg (fun h => hq (Option.some.inj h).symm)]
    exact update_of_ne hq _ _

theorem freed_none : Freed s s none := by
  intro q
  rw [if_neg (by nofun)]

/-- If the flags name the mode of the structure for receiving, that structure is freed. -/
theorem closeRx_spec (h : Owned s) (hmode : rxRecorded s.dev.openFlag = rxTag s) :
    ∃ s', serialCloseRx s = some s' ∧ s'.dev.serialRx = none ∧ Freed s s' s.dev.serialRx ∧
      Frame s s' ∧ s'.dev.serialTx = s.dev.serialTx ∧
      testFlag s'.dev.openFlag flagIntTx = testFlag s.dev.openFlag flagIntTx ∧
      testFlag s'.dev.openFlag flagDmaTx = testFlag s.dev.openFlag flagDmaTx := by
  unfold serialCloseRx
  cases hrx : s.dev.serialRx with
  | none =>
    -- the flags name no mode
    have hnone : rxRecorded s.dev.openFlag = none := by
      rw [hmode, rxTag, hrx, bind_none]
    unfold rxRecorded at hnone
    split_ifs at hnone with hint hdma
    rw [if_neg hint, if_neg hdma]
    exact ⟨s, rfl, hrx, freed_none s, ⟨rfl, rfl, rfl⟩, rfl, rfl, rfl⟩
  | some p =>
    by_cases hint : testFlag s.dev.openFlag flagIntRx = true
    · simp only [if_pos hint, hrx, map_some]
      refine ⟨_, rfl, ?_⟩
      refine ⟨rfl, freed_rtFree s rfl, ⟨rfl, rfl, rfl⟩, rfl, ?_, ?_⟩
      · exact testFlag_keep (by decide)
      · exact testFlag_keep (by decide)
    by_cases hdma : testFlag s.dev.openFlag flagDmaRx = true
    · simp only [if_neg hint, if_pos hdma, hrx, map_some]
      refine ⟨_, rfl, ?_⟩
      refine ⟨rfl, freed_rtFree s rfl, ⟨rfl, rfl, rfl⟩, rfl, ?_, ?_⟩
      · exact testFlag_keep (by decide)
      · exact testFlag_keep (by decide)
    · rcases h.rx p hrx with ⟨obj, mode, hobj, hmode'⟩
      simp only [rxRecorded, if_neg hint, if_neg hdma, rxTag, hrx, bind_some, hobj,
        hmode', reduceCtorEq] at hmode

/-- If the flags name a mode of sending exactly when there is a structure for it, that structure
    is freed. -/
theorem closeTx_spec (hflag : txRecorded s.dev.openFlag = true ↔ s.dev.serialTx ≠ none) :
    ∃ s', serialCloseTx s = some s' ∧ s'.dev.serialTx = none ∧ Freed s s' s.dev.serialTx ∧
      Frame s s' ∧ s'.dev.serialRx = s.dev.serialRx := by
  rw [txRecorded, Bool.or_eq_true] at hflag
  unfold serialCloseTx
  cases htx : s.dev.serialTx with
  | none =>
    have hnone := fun h => hflag.mp h htx
    rw [if_neg (fun h => hnone (.inl h)), if_neg (fun h => hnone (.inr h))]
    exact ⟨s, rfl, htx, freed_none s, ⟨rfl, rfl, rfl⟩, rfl⟩
  | some p =>
    have hsome := hflag.mpr (by simp only [htx, ne_eq, reduceCtorEq, not_false_eq_true])
    by_cases hint : testFlag s.dev.openFlag flagIntTx = true
    · simp only [if_pos hint, htx, map_some]
      refine ⟨_, rfl, ?_⟩
      exact ⟨rfl, freed_rtFree s rfl, ⟨rfl, rfl, rfl⟩, rfl⟩
    · simp only [if_neg hint, if_pos (hsome.resolve_left hint), htx, map_some]
      refine ⟨_, rfl, ?_⟩
      exact ⟨rfl, freed_rtFree s rfl, ⟨rfl, rfl, rfl⟩, rfl⟩

theorem close_last (h : SerialInv s) (hcond : SerialCond s .closeDev)
    (hcount : s.dev.refCount = 1) :
    ∃ s', serialStep s .closeDev = some s' ∧ s'.dev.serialRx = none ∧ s'.dev.serialTx = none ∧
      (∀ p, s'.heap p = none) ∧ s'.dev.flag = s.dev.flag ∧ s'.dev.refCount = 0 ∧
      s'.dev.openFlag = oflagClose ∧ s'.opens = [] := by
  rcases hcond hcount with ⟨htx, hqueue⟩
  let s0 : SerialSys := { s with dev := { s.dev with refCount := s.dev.refCount - 1 } }
  have hown : Owned s0 := ⟨h.owned.fresh, h.owned.rx, h.owned.tx, h.owned.owned⟩
  rcases closeRx_spec s0 hown h.mode with ⟨s1, hs1, hrx1, hfree1, hframe1, htx1, hint1, hdma1⟩
  have hflag1 : txRecorded s1.dev.openFlag = true ↔ s1.dev.serialTx ≠ none := by
    rw [txRecorded, hint1, hdma1, htx1]
    refine ⟨h.txFlag, fun hne => ?_⟩
    exact htx.resolve_left hne
  rcases closeTx_spec s1 hflag1 with ⟨s2, hs2, htx2, hfree2, hframe2, hrx2⟩
  have hzero : s0.dev.refCount = 0 := by
    simp only [s0]
    omega
  refine ⟨{ s2 with dev := { s2.dev with openFlag := oflagClose }, opens := [] }, ?_,
    hrx2.trans hrx1, htx2, fun p => ?_, hframe2.flag.trans hframe1.flag, ?_, rfl, rfl⟩
  · have hclose : rtSerialClose s0 = some s2 := by
      rw [rtSerialClose, if_neg (by omega), hs1, bind_some, hs2]
    simp only [serialStep, rtDeviceClose]
    rw [if_neg (by omega), if_neg (not_not.mpr hzero)]
    rw [show rtSerialClose { s with dev := { s.dev with refCount := s.dev.refCount - 1 } } =
      some s2 from hclose]
    rfl
  · -- whatever is allocated is one of the two structures
    have hp2 := hfree2 p
    rw [hfree1 p, htx1] at hp2
    by_cases hp : s.heap p = none
    · rw [show s0.heap p = none from hp, ite_self, ite_self] at hp2
      exact hp2
    rcases h.owned.owned p hp with hcase | hcase | hcase
    · rw [if_pos (show s0.dev.serialRx = some p from hcase), ite_self] at hp2
      exact hp2
    · rw [if_pos (show s0.dev.serialTx = some p from hcase)] at hp2
      exact hp2
    · rw [hqueue] at hcase
      exact nomatch hcase
  · exact (hframe2.refCount.trans hframe1.refCount).trans hzero

end Closing

section Steps

variable {s s' : SerialSys}

theorem open_modes (oflag : BitVec 16) (queueMem : Bool) (h : SerialInv s) :
    ∃ rest s1, rtSerialOpen s oflag queueMem = (s1, .eok) ∧
      (rest = flagStream ∨ rest = 0#16) ∧
      s1.dev.openFlag = openedFlag oflag rest ∧ Owned s1 ∧ Frame s s1 ∧
      (txRecorded oflag = true → s1.dev.serialTx ≠ none) ∧
      rxTag s1 = if s.dev.serialRx = none then rxRequest oflag else rxTag s := by
  have hmiss : ∀ flag ∈ [flagIntRx, flagDmaRx, flagIntTx, flagDmaTx],
      ¬ missesFlag s oflag flag = true := by
    intro flag hflag
    rw [missesFlag, h.modes flag hflag, Bool.not_true, Bool.and_false]
    exact Bool.false_ne_true
  simp only [forall_mem_cons] at hmiss
  rcases hmiss with ⟨hintRx, hdmaRx, hintTx, hdmaTx, -⟩
  let s0 : SerialSys := { s with dev := { s.dev with openFlag := oflag &&& 0xff#16 } }
  have hown0 : Owned s0 := ⟨h.owned.fresh, h.owned.rx, h.owned.tx, h.owned.owned⟩
  rcases openRx_spec s0 _ hown0 rfl with ⟨hown1, hframe1, hflag1, -, htag1⟩
  rcases openTx_spec _ _ hown1 rfl with
    ⟨hown2, hframe2, hflag2, hrx2, hext2, htx2⟩
  have htag2 := rxTag_extends _ _ hown1 hrx2 hext2
  rw [htag1] at htag2
  let stream := if (testFlag oflag flagStream || testFlag s.dev.openFlag flagStream) = true
    then flagStream else 0#16
  let s2 := serialOpenTx (serialOpenRx s0 oflag) oflag queueMem
  refine ⟨stream, { s2 with dev := { s2.dev with openFlag := s2.dev.openFlag ||| stream } },
    ?_, ?_, ?_, ⟨hown2.fresh, hown2.rx, hown2.tx, hown2.owned⟩, ?_, htx2, htag2⟩
  · rw [rtSerialOpen, if_neg hdmaRx, if_neg hdmaTx, if_neg hintRx, if_neg hintTx]
  · exact ite_eq_or_eq _ _ _
  · rw [openedFlag, ← hflag1, ← hflag2]
  · exact ⟨hframe2.flag.trans hframe1.flag, hframe2.refCount.trans hframe1.refCount,
      hframe2.opens.trans hframe1.opens⟩

theorem serialInv_activated {result : RtErr} (h : SerialInv s)
    (hact : testFlag s.dev.flag flagActivated = true)
    (hcond : s.dev.serialRx = none ∨ rxRequest oflag = rxTag s)
    (hstep : deviceOpenActivated s oflag queueMem = some (s', result)) : SerialInv s' := by
  unfold deviceOpenActivated at hstep
  split_ifs at hstep with hbusy
  · simp only [some.injEq, Prod.mk.injEq] at hstep
    rw [← hstep.1]
    exact h
  rcases open_modes oflag queueMem h with
    ⟨rest, s1, hopen, hrest, hflag, hown, hframe, htx, htag⟩
  simp only [hopen, bind_iff, assert_iff, some.injEq, Prod.mk.injEq] at hstep
  rcases hstep with ⟨hcount, hs', -⟩
  -- the open flag is what was asked for, with the stream flag and the flag of an open device
  have hflag' : s'.dev.openFlag = openedFlag oflag (rest ||| oflagOpen) := by
    rw [← hs', openedFlag, ← BitVec.or_assoc]
    exact congrArg (· ||| oflagOpen) hflag
  have htag' : rxTag s' = rxRequest oflag := by
    have heq : rxTag s' = rxTag s1 := by
      rw [← hs']
      rfl
    rw [heq, htag]
    rcases hcond with hnone | hmode
    · rw [if_pos hnone]
    · rw [hmode, ite_eq_right_iff]
      intro _
      rfl
  have hown' : Owned s' := by
    rw [← hs']
    exact ⟨hown.fresh, hown.rx, hown.tx, hown.owned⟩
  have hrestf : ∀ flag, testFlag flagStream flag = false → testFlag oflagOpen flag = false →
      testFlag (rest ||| oflagOpen) flag = false := by
    intro flag hstream hopen'
    rw [testFlag_or, hopen', Bool.or_false]
    rcases hrest with hrest | hrest
    · rw [hrest, hstream]
    · rw [hrest]
      exact testFlag_drop 0#16 0#16 flag zero_and
  refine ⟨hown', ?_, fun hrec => ?_, ?_, fun hzero => ?_, fun _ => ?_, fun flag hmem => ?_⟩
  · rw [hflag', htag']
    exact rxRecorded_opened oflag (hrestf _ (by decide) (by decide))
      (hrestf _ (by decide) (by decide))
  · rw [hflag', txRecorded_opened oflag (hrestf _ (by decide) (by decide))
      (hrestf _ (by decide) (by decide))] at hrec
    rw [← hs']
    exact htx hrec
  · -- either there was a structure, and then an open had asked for it, or this open decides
    have hopens : rxWanted s' = (rxWanted s || (rxRequest oflag).isSome) := by
      rw [← hs', rxWanted, rxWanted, hframe.opens, any_append, any_cons, any_nil,
        Bool.or_false, rxRequest_isSome]
    rw [hown'.rx_isSome, hopens, ← h.wanted, h.owned.rx_isSome, htag']
    rcases hcond with hnone | hmode
    · rw [rxTag, hnone, bind_none, isSome_none, Bool.false_or]
    · rw [hmode, Bool.or_self]
  · rw [← hs'] at hzero
    exact absurd hzero hcount
  · rw [← hs']
    exact hframe.flag.symm ▸ hact
  · rw [← hs']
    exact hframe.flag.symm ▸ h.modes flag hmem

theorem serialInit_eq (h : SerialInv s) (hact : ¬ testFlag s.dev.flag flagActivated = true) :
    rtSerialInit s = s := by
  have hzero : s.dev.refCount = 0 := by
    by_contra hne
    exact hact (h.activated hne)
  rcases h.closed hzero with ⟨hrx, htx⟩
  have hdev : ({ s.dev with serialRx := none, serialTx := none } : SerialDevice) = s.dev := by
    nth_rewrite 1 [← hrx, ← htx]
    rfl
  rw [rtSerialInit, hdev]

theorem serialInv_mark (h : SerialInv s) :
    SerialInv { s with dev := { s.dev with flag := s.dev.flag ||| flagActivated } } := by
  refine ⟨⟨h.owned.fresh, h.owned.rx, h.owned.tx, h.owned.owned⟩, h.mode, h.txFlag, h.wanted,
    h.closed, fun _ => ?_, fun flag hmem => ?_⟩
  · rw [testFlag_or, show testFlag flagActivated flagActivated = true by decide, Bool.or_true]
  · rw [testFlag_or, h.modes flag hmem, Bool.true_or]

theorem serialInv_step {a : SerialAction} (h : SerialInv s) (hcond : SerialCond s a)
    (hstep : serialStep s a = some s') : SerialInv s' := by
  cases a with
  | openDev oflag configured queueMem =>
    simp only [serialStep, map_eq_some_iff] at hstep
    rcases hstep with ⟨⟨t, result⟩, hstep, rfl⟩
    unfold rtDeviceOpen at hstep
    by_cases hact : testFlag s.dev.flag flagActivated = true
    · rw [if_pos hact] at hstep
      exact serialInv_activated h hact hcond hstep
    rw [if_neg hact, serialInit_eq h hact] at hstep
    cases configured with
    | false =>
      simp only [Bool.false_eq_true, if_false, some.injEq, Prod.mk.injEq] at hstep
      rw [← hstep.1]
      exact h
    | true =>
      refine serialInv_activated (serialInv_mark h) ?_ hcond hstep
      rw [testFlag_or, show testFlag flagActivated flagActivated = true by decide, Bool.or_true]
  | closeDev =>
    by_cases hlast : s.dev.refCount = 1
    · rcases close_last s h hcond hlast with
        ⟨t, ht, hrx, htx, hheap, hflag, hcount, hopen, hopens⟩
      rw [ht] at hstep
      cases hstep
      refine ⟨⟨fun p _ => hheap p, ?_, ?_, fun p hp => absurd (hheap p) hp⟩, ?_, ?_, ?_,
        fun _ => ⟨hrx, htx⟩, fun hne => absurd hcount hne, fun flag hmem => ?_⟩
      · intro p hp
        rw [hrx] at hp
        exact nomatch hp
      · intro p hp
        rw [htx] at hp
        exact nomatch hp
      · rw [hopen, rxTag, hrx]
        rfl
      · intro hrec
        rw [hopen] at hrec
        exact absurd hrec (by decide)
      · rw [hrx, rxWanted, hopens]
        rfl
      · rw [hflag]
        exact h.modes flag hmem
    · -- the device stays open, or was not open
      have hs' : s' = s ∨
          (1 < s.dev.refCount ∧
            s' = { s with dev := { s.dev with refCount := s.dev.refCount - 1 } }) := by
        simp only [serialStep, rtDeviceClose] at hstep
        by_cases hzero : s.dev.refCount = 0
        · rw [if_pos hzero] at hstep
          exact .inl (Option.some.inj hstep).symm
        · rw [if_neg hzero, if_pos (by omega)] at hstep
          exact .inr ⟨by omega, (Option.some.inj hstep).symm⟩
      rcases hs' with hs' | ⟨hgt, hs'⟩
      · rw [hs']
        exact h
      rw [hs']
      refine ⟨⟨h.owned.fresh, h.owned.rx, h.owned.tx, h.owned.owned⟩, h.mode, h.txFlag,
        h.wanted, fun hzero => ?_, fun _ => h.activated (by omega), h.modes⟩
      simp only at hzero
      omega

theorem serialOk_of_inv (h : SerialInv s) : SerialOk s := by
  refine ⟨fun _ => ?_, fun _ p hp => ?_, fun hzero => ?_⟩
  · rw [h.wanted]
  · rcases h.owned.rx p hp with ⟨obj, mode, hobj, hmode⟩
    refine ⟨obj, mode, hobj, hmode, ?_⟩
    simp only [h.mode, rxTag, hp, bind_some, hobj, hmode]
  rcases h.closed hzero with ⟨hrx, htx⟩
  refine ⟨hrx, htx, fun p => ?_⟩
  by_contra hp
  rcases h.owned.owned p hp with hcase | hcase | hcase
  · rw [hrx] at hcase
    exact nomatch hcase
  · rw [htx] at hcase
    exact nomatch hcase
  · rw [txQueue, htx] at hcase
    exact nomatch hcase

end Steps

theorem serialInv_registered {flag : BitVec 16} {bufsz : Nat}
    (hmodes : ∀ mode ∈ [flagIntRx, flagDmaRx, flagIntTx, flagDmaTx], testFlag flag mode = true) :
    SerialInv (serialRegistered flag bufsz) := by
  have hnone : ∀ p : Nat, (none : Option Nat) ≠ some p :=
    fun p => nofun
  refine ⟨⟨fun _ _ => rfl, fun p hp => absurd hp (hnone p), fun p hp => absurd hp (hnone p),
    fun p hp => absurd rfl hp⟩, ?_, fun hrec => absurd hrec ?_, rfl, fun _ => ⟨rfl, rfl⟩,
    fun hne => absurd rfl hne, hmodes⟩
  · show rxRecorded oflagClose = none
    decide
  · show ¬ txRecorded oflagClose = true
    decide

/-- A device that has all modes is opened and closed in any order. If every call meets the
    condition, the structure for receiving is there when it was asked for and is the one of the
    mode in the open flag, and a closed device has left nothing behind; and the last close does not
    run into an assertion. -/
theorem serial_life_cycle (flag : BitVec 16) (bufsz : Nat) (as : List SerialAction)
    (hmodes : ∀ mode ∈ [flagIntRx, flagDmaRx, flagIntTx, flagDmaTx], testFlag flag mode = true)
    (hcond : Along serialStep SerialCond (serialRegistered flag bufsz) as) :
    Always serialStep
      (fun s => SerialOk s ∧
        (s.dev.refCount = 1 → SerialCond s .closeDev → (serialStep s .closeDev).isSome = true))
      (serialRegistered flag bufsz) as := by
  refine always_of_inv SerialInv (fun {s} h => ?_) serialInv_step
    (serialInv_registered hmodes) hcond
  refine ⟨serialOk_of_inv h, fun hlast hclose => ?_⟩
  rcases close_last s h hclose hlast with ⟨s', hs', -⟩
  rw [hs', isSome_some]

/-- A device with all modes and a buffer of 64 bytes is opened twice, for receiving by DMA and
    sending with interrupts, and closed twice. -/
theorem serial_life_cycle_two :
    Always serialStep
      (fun s => SerialOk s ∧
        (s.dev.refCount = 1 → SerialCond s .closeDev → (serialStep s .closeDev).isSome = true))
      (serialRegistered 0xf03#16 64)
      [.openDev 0x603#16 true true, .openDev 0x603#16 true true, .closeDev, .closeDev] ∧
    ((exec serialStep (serialRegistered 0xf03#16 64)
      [.openDev 0x603#16 true true, .openDev 0x603#16 true true]).map fun s =>
        (s.dev.refCount, s.dev.serialRx, s.dev.serialTx)) = some (2, some 0, some 1) := by
  refine ⟨serial_life_cycle 0xf03#16 64 _ ?_ ?_, ?_⟩
  · exact all_eq_true.mp (by decide +kernel)
  · exact of_decide_eq_true (by decide +kernel)
  · decide +kernel

/-- Three ways in which it goes wrong. A second open that asks for no receive mode makes the last
    close leave the structure for receiving where it is; a second open by DMA, without a buffer,
    has the FIFO of the first open taken for a DMA structure; and the array of a data queue stays
    after any open for sending by DMA. -/
theorem serial_left_behind :
    ((exec serialStep (serialRegistered 0xf03#16 64)
      [.openDev 0x103#16 true true, .openDev 0x003#16 true true, .closeDev, .closeDev]).map fun s =>
        (s.dev.refCount, s.dev.serialRx, s.heap 0)) =
      some (0, some 0, some (.rxFifo .int)) ∧
    ((exec serialStep (serialRegistered 0xf03#16 0)
      [.openDev 0x103#16 true true, .openDev 0x203#16 true true]).map fun s =>
        (rxRecorded s.dev.openFlag, s.dev.serialRx, s.heap 0)) =
      some (some .dma, some 0, some (.rxFifo .int)) ∧
    ((exec serialStep (serialRegistered 0xf03#16 64)
      [.openDev 0x803#16 true true, .closeDev]).map fun s =>
        (s.dev.refCount, s.dev.serialTx, s.heap 0, s.heap 1)) =
      some (0, none, none, some .queue) := by
  refine ⟨?_, ?_, ?_⟩ <;> decide +kernel

end Honeycomb
