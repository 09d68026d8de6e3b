import Honeycomb.Core.Kernel

/-!
# Opening and Closing Devices

The framework of `device.c` counts how often a device is open and keeps a flag for it. The driver
takes part with three entry points, each of which may be missing. What an entry point returns is
up to the driver, and drivers also write the flag in them, so every call has the results and the
flags it would get. Error codes are numbers, and those that are returned are not positive.

The system counts the calls that opened the device and those that closed it.
-/

namespace Honeycomb

def deviceStandalone : BitVec 16 := 0x008#16

def deviceActivated : BitVec 16 := 0x010#16

def deviceOpen : BitVec 16 := 0x008#16

def deviceMask : BitVec 16 := 0xf0f#16

/-- `-RT_ERROR`, `-RT_ENOSYS` and `-RT_EBUSY`. -/
def devError : Int := -1

@[inherit_doc devError]
def devNosys : Int := -6

@[inherit_doc devError]
def devBusy : Int := -7

/-- The fields of `struct rt_device` that the two calls use. -/
structure Device where
  flag : BitVec 16
  openFlag : BitVec 16
  refCount : BitVec 8
  deriving DecidableEq, Repr

/-- The entry points the driver has. -/
structure Driver where
  init : Bool
  open' : Bool
  close : Bool
  deriving DecidableEq, Repr

/-- What an entry point returns, and the `open_flag` it leaves. -/
structure Entry where
  result : Int
  openFlag : BitVec 16
  deriving DecidableEq, Repr

/-- The results that count as success. -/
def devDone (result : Int) : Prop :=
  result = 0 ∨ result = devNosys

instance decidableDevDone (result : Int) : Decidable (devDone result) :=
  inferInstanceAs (Decidable (_ ∨ _))

def Device.rtDeviceOpen (drv : Driver) (dev : Device) (oflag : BitVec 16) (init open' : Entry) :
    Option (Device × Int) :=
  let first := dev.flag &&& deviceActivated = 0#16 ∧ drv.init
  let dev := { dev with openFlag := if first then init.openFlag else dev.openFlag }
  if first ∧ init.result ≠ 0 then some (dev, init.result)
  else
    -- the bit may be set already
    let dev := { dev with flag := dev.flag ||| deviceActivated }
    -- a device that stands alone is opened once
    if dev.flag &&& deviceStandalone ≠ 0#16 ∧ dev.openFlag &&& deviceOpen ≠ 0#16 then
      some (dev, devBusy)
    else
      let result := if drv.open' then open'.result else 0
      let dev := { dev with openFlag := if drv.open' then open'.openFlag else oflag &&& deviceMask }
      if devDone result then do
        let dev :=
          { dev with openFlag := dev.openFlag ||| deviceOpen, refCount := dev.refCount + 1#8 }
        rtAssert (dev.refCount ≠ 0#8)
        some (dev, result)
      else some (dev, result)

def Device.rtDeviceClose (drv : Driver) (dev : Device) (close : Entry) : Device × Int :=
  if dev.refCount = 0#8 then (dev, devError)
  else
    let dev := { dev with refCount := dev.refCount - 1#8 }
    if dev.refCount ≠ 0#8 then (dev, 0)
    else
      let result := if drv.close then close.result else 0
      let dev := { dev with openFlag := if drv.close then close.openFlag else dev.openFlag }
      if devDone result then ({ dev with openFlag := 0#16 }, result) else (dev, result)

/-- A device, and how often it was opened and closed. -/
structure DeviceSys where
  dev : Device
  opens : Nat
  closes : Nat

/-- A call, with what the entry points do in it. -/
inductive DeviceAction where
  | open' (oflag : BitVec 16) (init open' : Entry)
  | close (close : Entry)
  deriving DecidableEq, Repr

/-- One step. An open counts if the device is open once more after it, and a close if the device was
    open. The result alone does not tell, since `-RT_ENOSYS` may come from the initialisation. -/
def deviceStep (drv : Driver) (s : DeviceSys) : DeviceAction → Option DeviceSys
  | .open' oflag init open' => do
    let (dev, _) ← Device.rtDeviceOpen drv s.dev oflag init open'
    some { s with
      dev := dev, opens := if dev.refCount = s.dev.refCount then s.opens else s.opens + 1 }
  | .close close =>
    some { s with
      dev := (Device.rtDeviceClose drv s.dev close).1
      closes := if s.dev.refCount = 0#8 then s.closes else s.closes + 1 }

def deviceInit (flag : BitVec 16) : DeviceSys :=
  { dev := { flag := flag, openFlag := 0#16, refCount := 0#8 }, opens := 0, closes := 0 }

end Honeycomb
