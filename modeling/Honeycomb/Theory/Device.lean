import Honeycomb.Core.Device
import Honeycomb.Lib.Run

/-!
# The Count and the Flag of a Device

A device is marked as open exactly if it is open at least once, and one that was closed as often
as it was opened can be opened again. This holds as long as the driver leaves the mark alone in an
open that fails and does not refuse the last close: that close counts the device down before it
asks the driver, and a driver that refuses leaves it marked as open with a count of zero.

## Theorems

* `device_flag_agrees`: The flag and the count agree in every run within the condition.
* `device_close_refused`: They do not in every run.
-/

namespace Honeycomb

open Run

/-- The device is marked as open. -/
def Device.IsOpen (dev : Device) : Prop :=
  dev.openFlag &&& deviceOpen ≠ 0#16

instance decidableIsOpen (dev : Device) : Decidable dev.IsOpen :=
  inferInstanceAs (Decidable (_ ≠ _))

/-- An entry point leaves the mark of the device as it is. -/
def Device.Keeps (dev : Device) (e : Entry) : Prop :=
  e.openFlag &&& deviceOpen = dev.openFlag &&& deviceOpen

instance decidableKeeps (dev : Device) (e : Entry) : Decidable (dev.Keeps e) :=
  inferInstanceAs (Decidable (_ = _))

/-- The device is marked as open exactly if it is open, its count is the difference of the books,
    and it can be opened again if there is none. -/
structure DeviceOk (drv : Driver) (s : DeviceSys) : Prop where
  flag : 0 < s.dev.refCount.toNat ↔ s.dev.IsOpen
  books : s.opens = s.closes + s.dev.refCount.toNat
  again : s.opens = s.closes → ∀ oflag init open', s.dev.Keeps init → init.result = 0 →
    open'.result = 0 → ∃ dev, Device.rtDeviceOpen drv s.dev oflag init open' = some (dev, 0)

/-- The initialisation and an open that fails keep the mark, and the last close is not refused. -/
def DeviceCond (drv : Driver) (s : DeviceSys) : DeviceAction → Prop
  | .open' _ init open' =>
    (s.dev.flag &&& deviceActivated = 0#16 ∧ drv.init → s.dev.Keeps init) ∧
      (drv.open' = true → ¬ devDone open'.result → s.dev.Keeps open')
  | .close close => drv.close = true → s.dev.refCount = 1#8 → devDone close.result

instance decidableDeviceCond (drv : Driver) (s : DeviceSys) : ∀ a, Decidable (DeviceCond drv s a)
  | .open' _ _ _ => inferInstanceAs (Decidable (_ ∧ _))
  | .close _ => inferInstanceAs (Decidable (_ → _ → _))

section Calls

variable (drv : Driver) (dev : Device) {dev' : Device} {result : Int} {oflag : BitVec 16}
  {init open' : Entry}

theorem open_bit (f : BitVec 16) : (f ||| deviceOpen) &&& deviceOpen ≠ 0#16 := by
  intro hzero
  have hbit := congrArg (fun v => v.getLsbD 3) hzero
  simp [deviceOpen] at hbit

/-- An open leaves the count and the mark, or counts the device up and marks it. -/
theorem rtDeviceOpen_cases
    (hinit : dev.flag &&& deviceActivated = 0#16 ∧ drv.init → dev.Keeps init)
    (hopen : drv.open' = true → ¬ devDone open'.result → dev.Keeps open')
    (h : Device.rtDeviceOpen drv dev oflag init open' = some (dev', result)) :
    (dev'.refCount = dev.refCount ∧ (dev'.IsOpen ↔ dev.IsOpen)) ∨
      (dev'.refCount = dev.refCount + 1#8 ∧ dev'.refCount ≠ 0#8 ∧ dev'.IsOpen) := by
  unfold Device.rtDeviceOpen at h
  dsimp only at h
  -- what the initialisation leaves has the mark of before
  generalize hflag : (if dev.flag &&& deviceActivated = 0#16 ∧ drv.init = true then init.openFlag
    else dev.openFlag) = f at h
  have hf : f &&& deviceOpen = dev.openFlag &&& deviceOpen := by
    split_ifs at hflag with hfirst
    · exact hflag ▸ hinit hfirst
    · rw [hflag]
  split at h
  · cases h
    exact .inl ⟨rfl, by rw [Device.IsOpen, hf, Device.IsOpen]⟩
  split at h
  · cases h
    exact .inl ⟨rfl, by rw [Device.IsOpen, hf, Device.IsOpen]⟩
  by_cases hdone : devDone (if drv.open' = true then open'.result else 0)
  · simp only [if_pos hdone, bind_iff, assert_iff, Option.some.injEq, Prod.mk.injEq] at h
    rcases h with ⟨hne, rfl, rfl⟩
    exact .inr ⟨rfl, hne, open_bit _⟩
  rw [if_neg hdone] at h
  cases h
  split_ifs at hdone with hdrv
  · exact .inl ⟨rfl, by rw [Device.IsOpen, if_pos hdrv, hopen hdrv hdone, Device.IsOpen]⟩
  · exact absurd (.inl rfl) hdone

/-- A close counts an open device down, and the last one takes the mark away if it is not
    refused. -/
theorem rtDeviceClose_cases {close : Entry}
    (hcond : drv.close = true → dev.refCount = 1#8 → devDone close.result) :
    (dev.refCount = 0#8 ∧ (Device.rtDeviceClose drv dev close).1 = dev) ∨
      (dev.refCount ≠ 0#8 ∧
        (Device.rtDeviceClose drv dev close).1.refCount = dev.refCount - 1#8 ∧
        (Device.rtDeviceClose drv dev close).1.openFlag =
          if dev.refCount = 1#8 then 0#16 else dev.openFlag) := by
  unfold Device.rtDeviceClose
  dsimp only
  by_cases hzero : dev.refCount = 0#8
  · rw [if_pos hzero]
    exact .inl ⟨hzero, rfl⟩
  rw [if_neg hzero]
  refine .inr ⟨hzero, ?_⟩
  by_cases hone : dev.refCount = 1#8
  · have hdone : devDone (if drv.close = true then close.result else 0) := by
      split
      · next hclose => exact hcond hclose hone
      · exact .inl rfl
    rw [if_neg (by rw [hone]; decide), if_pos hdone, if_pos hone]
    exact ⟨rfl, rfl⟩
  · have hne : dev.refCount - 1#8 ≠ 0#8 := by bv_omega
    rw [if_pos hne, if_neg hone]
    exact ⟨rfl, rfl⟩

/-- A device that is neither marked as open nor counted can be opened. -/
theorem rtDeviceOpen_again (hcount : dev.refCount = 0#8) (hclosed : ¬ dev.IsOpen)
    (hkeeps : dev.Keeps init) (hinit : init.result = 0) (hopen : open'.result = 0) :
    ∃ dev', Device.rtDeviceOpen drv dev oflag init open' = some (dev', 0) := by
  have hflag : dev.openFlag &&& deviceOpen = 0#16 := not_not.mp hclosed
  have hleft : init.openFlag &&& deviceOpen = 0#16 := hkeeps.trans hflag
  unfold Device.rtDeviceOpen
  dsimp only
  rw [if_neg (fun hc => hc.2 hinit), if_neg]
  · cases drv.open' with
    | true => simp [hcount, hopen, devDone, rtAssert]
    | false => simp [hcount, devDone, rtAssert]
  rintro ⟨-, hset⟩
  split_ifs at hset
  · exact hset hleft
  · exact hset hflag

end Calls

section Steps

variable (drv : Driver) (s : DeviceSys) {s' : DeviceSys}

/-- The part of the promise that the steps keep. -/
def DeviceInv (s : DeviceSys) : Prop :=
  (0 < s.dev.refCount.toNat ↔ s.dev.IsOpen) ∧ s.opens = s.closes + s.dev.refCount.toNat

theorem deviceOk_of_inv (h : DeviceInv s) : DeviceOk drv s := by
  refine ⟨h.1, h.2, fun heq oflag init open' => ?_⟩
  have hzero : s.dev.refCount.toNat = 0 := by have := h.2; omega
  refine rtDeviceOpen_again drv s.dev (BitVec.eq_of_toNat_eq hzero) fun hopen => ?_
  exact absurd (h.1.mpr hopen) (by omega)

theorem deviceStep_inv {a : DeviceAction} (hinv : DeviceInv s) (hcond : DeviceCond drv s a)
    (h : deviceStep drv s a = some s') : DeviceInv s' := by
  rcases hinv with ⟨hflag, hbooks⟩
  cases a with
  | open' oflag init open' =>
    simp only [deviceStep, bind_iff, Option.some.injEq] at h
    rcases h with ⟨⟨dev, result⟩, hcall, rfl⟩
    rcases rtDeviceOpen_cases drv s.dev hcond.1 hcond.2 hcall with
      ⟨hcount, hopen⟩ | ⟨hcount, hne, hopen⟩
    · refine ⟨?_, ?_⟩
      · rw [hopen, hcount]
        exact hflag
      · dsimp only
        rw [if_pos hcount, hcount]
        exact hbooks
    -- the count did not wrap around, so it is greater by one
    have hnat : dev.refCount.toNat = s.dev.refCount.toNat + 1 := by bv_omega
    have hchanged : dev.refCount ≠ s.dev.refCount := by bv_omega
    refine ⟨⟨fun _ => hopen, fun _ => ?_⟩, ?_⟩
    · dsimp only
      omega
    · dsimp only
      rw [if_neg hchanged]
      omega
  | close close =>
    cases h
    rcases rtDeviceClose_cases drv s.dev hcond with
      ⟨hzero, hsame⟩ | ⟨hne, hcount, hopen⟩
    · refine ⟨?_, ?_⟩
      · dsimp only
        rw [hsame]
        exact hflag
      · dsimp only
        rw [hsame, if_pos hzero]
        exact hbooks
    have hnat : (s.dev.refCount - 1#8).toNat + 1 = s.dev.refCount.toNat := by bv_omega
    refine ⟨?_, ?_⟩
    · unfold Device.IsOpen at hflag ⊢
      dsimp only
      rw [hcount, hopen]
      split_ifs with hone
      · rw [hone]
        decide
      rw [← hflag]
      constructor
      · intro _
        omega
      · intro _
        bv_omega
    · dsimp only
      rw [hcount, if_neg hne]
      omega

end Steps

/-- The flag and the count agree, and a device that was closed as often as it was opened can be
    opened again, in every run in which the driver keeps the mark in an open that fails and does
    not refuse the last close. -/
theorem device_flag_agrees (drv : Driver) (flag : BitVec 16) (as : List DeviceAction)
    (hcond : Along (deviceStep drv) (DeviceCond drv) (deviceInit flag) as) :
    Always (deviceStep drv) (DeviceOk drv) (deviceInit flag) as := by
  refine always_of_inv DeviceInv (deviceOk_of_inv drv _) (deviceStep_inv drv _) ⟨?_, rfl⟩ hcond
  exact ⟨fun h => absurd h (Nat.lt_irrefl 0), fun h => absurd (BitVec.zero_and (x := deviceOpen)) h⟩

/-- A device that stands alone is opened, found busy, closed and opened again. The driver sets the
    flag in its open. -/
theorem device_flag_agrees_reopened :
    Always (deviceStep ⟨true, true, true⟩) (DeviceOk ⟨true, true, true⟩)
      (deviceInit deviceStandalone)
      [.open' 3#16 ⟨0, 0#16⟩ ⟨0, 3#16⟩, .open' 3#16 ⟨0, 8#16⟩ ⟨0, 3#16⟩, .close ⟨devNosys, 3#16⟩,
        .open' 3#16 ⟨0, 0#16⟩ ⟨0, 3#16⟩] :=
  device_flag_agrees _ _ _ (by decide)

/-- A driver refuses to close. The device is marked as open, although it was closed as often as it
    was opened, and since it stands alone no one can open it again. -/
theorem device_close_refused :
    (exec (deviceStep ⟨false, false, true⟩) (deviceInit deviceStandalone)
        [.open' 3#16 ⟨0, 0#16⟩ ⟨0, 0#16⟩, .close ⟨devError, 11#16⟩]).map
      (fun s => (s.dev.refCount, decide s.dev.IsOpen, s.opens, s.closes,
        (Device.rtDeviceOpen ⟨false, false, true⟩ s.dev 3#16 ⟨0, 0#16⟩ ⟨0, 0#16⟩).map Prod.snd)) =
      some (0#8, true, 1, 1, some devBusy) := by
  decide

end Honeycomb
