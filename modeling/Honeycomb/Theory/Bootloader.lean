import Honeycomb.Core.Bootloader

/-!
# What the Bootloader Records

The version in `system.cfg` is to change only if the update has been made: the whole binary is
in the flash at the address that is started, every write to the flash has succeeded, and the
binary has the check sum that `update.cfg` gives.

The code goes on to record the version whatever the copy loop did. It does not look at what the
reads of the binary return, it leaves the loop when a write fails without a trace of it, it
never looks at the check sum, and it starts the address from `update.cfg` while the binary goes
to the address of the user application. So none of the four follows from the record, and each
of them has to be asked of the files and of the flash: they are just what is missing.

How a check sum is formed the code does not say. It is a parameter here.

An update that is abandoned is to leave the present firmware to be started. But the address from
`update.cfg` is taken over before the binary is looked for, and the variables for the descriptors
are not set before the files are opened, while all of them are closed in the end.

The sectors to erase are counted from that of the first byte to that of the byte after the last
one. If this one is the first of a sector, a sector is erased that was not to be.

## Theorems

* `record_means_installed`: When the version is recorded only if the update has been made.
* `record_without_install`: An update that is recorded and has not been made.
* `abandoned_update`: When an update that is abandoned leaves the present firmware to be started,
  and only files that were opened to be closed.
* `erase_exact`: When the sectors that are erased are those that were to be.
-/

namespace Honeycomb.Boot

open BitVec (ofNat)
open List

/-- What is in `system.cfg` after so many bytes of the record have been written. -/
def recorded (env : Env) (u : Update) (count : Nat) : Option (List Byte) :=
  env.systemCfg.map (overwrite · ((recordText u.version userAppAddress).take count))

/-- The update in `update.cfg` has been made and recorded, and it is started where it has been
    programmed. -/
structure Installed (checkSumOf : List Byte → BitVec 16) (env : Env) (out : Outcome) (u : Update)
    (bin : List Byte) : Prop where
  update : pending env = some u
  file : env.bin (binFileName u.version) = some bin
  size : u.binSize = ofNat 32 bin.length
  recorded : ∃ count, out.systemCfg = recorded env u count
  boot : out.boot = some userAppAddress
  programmed : ∀ i, i < u.binSize.toNat → bin[i]? = some (out.flash (userAppAddress.toNat + i))
  written : ∀ r ∈ out.results, r = true
  checked : checkSumOf bin = u.checkSum

/-- The buffer and the place in the binary after some reads. -/
def buffer (env : Env) (bin : List Byte) : Nat → (Nat → Byte) × Nat
  | 0 => (env.stack, 0)
  | k + 1 => readChunk env bin (buffSize * k) (buffer env bin k).1 (buffer env bin k).2

/-- The words of a chunk are programmed. -/
def Programs (env : Env) (addr k : Nat) : Prop :=
  ∀ w, w < buffSize / 4 → env.program (addr + buffSize * k + 4 * w) = true

/-- The chunks a binary is copied in. -/
def chunksOf (size : BitVec 32) : Nat :=
  (size.toNat + (buffSize - 1)) / buffSize

/-- For an update whose record changes `system.cfg`: `update.cfg` gives the address of the user
    application and the check sum of the binary, each byte of the binary is in the buffer after the
    read of its chunk, and every word of the chunks is programmed. -/
def BootCond (checkSumOf : List Byte → BitVec 16) (env : Env) : Prop :=
  ∀ u bin count, env.checkKey = false → pending env = some u → binStage env u = some bin →
    env.eraseUserApp.1 = true → env.writeSystem = some count →
    recorded env u count ≠ env.systemCfg →
    u.bootAddr = userAppAddress ∧ checkSumOf bin = u.checkSum ∧
    (∀ i, i < u.binSize.toNat →
      bin[i]? = some ((buffer env bin (i / buffSize + 1)).1 (i % buffSize))) ∧
    ∀ k, k < chunksOf u.binSize → Programs env userAppAddress.toNat k

section Copy

variable (program : Nat → Bool) (addr : Nat) (buf : Nat → Byte) (env : Env) (bin : List Byte)

theorem efPortWrite_ok (words i : Nat) (flash : Nat → Byte) :
    (efPortWrite program addr buf words i flash).2 = true ↔
      ∀ w, w < words → program (addr + i + 4 * w) = true := by
  induction words generalizing i flash with
  | zero => exact ⟨fun _ w hw => absurd hw (Nat.not_lt_zero w), fun _ => rfl⟩
  | succ words ih =>
    rw [efPortWrite]
    split
    · next hfirst =>
        rw [ih]
        refine ⟨fun hall w hw => ?_, fun hall w hw => ?_⟩
        · cases w with
          | zero => exact hfirst
          | succ w =>
            have hw' := hall w (by omega)
            rwa [show addr + (i + 4) + 4 * w = addr + i + 4 * (w + 1) by omega] at hw'
        · have hw' := hall (w + 1) (by omega)
          rwa [show addr + i + 4 * (w + 1) = addr + (i + 4) + 4 * w by omega] at hw'
    · next hfirst => exact ⟨nofun, fun hall => absurd (hall 0 (Nat.succ_pos words)) hfirst⟩

theorem efPortWrite_flash (words i : Nat) (flash : Nat → Byte)
    (hok : (efPortWrite program addr buf words i flash).2 = true) (a : Nat) :
    (efPortWrite program addr buf words i flash).1 a =
      if addr + i ≤ a ∧ a < addr + i + 4 * words then buf (a - addr) else flash a := by
  induction words generalizing i flash with
  | zero =>
    rw [if_neg (by omega)]
    rfl
  | succ words ih =>
    rw [efPortWrite] at hok ⊢
    by_cases hfirst : program (addr + i) = true
    · rw [if_pos hfirst] at hok ⊢
      rw [ih _ _ hok]
      -- The address is in the first word, in one of the others, or outside of the buffer.
      by_cases hlater : addr + (i + 4) ≤ a ∧ a < addr + (i + 4) + 4 * words
      · rw [if_pos hlater, if_pos (by omega)]
      rw [if_neg hlater]
      by_cases hhere : addr + i ≤ a ∧ a < addr + i + 4
      · rw [if_pos hhere, if_pos (by omega)]
      · rw [if_neg hhere, if_neg (by omega)]
    · rw [if_neg hfirst] at hok
      exact nomatch hok

/-- What has been copied: what the first chunks were read as is in the flash, and all writes have
    succeeded. -/
structure Copied (k : Nat) (c : Copy) : Prop where
  flash : ∀ i, i < buffSize * k →
    c.flash (addr + i) = (buffer env bin (i / buffSize + 1)).1 (i % buffSize)
  read : (c.buff, c.pos) = buffer env bin k
  results : ∀ r ∈ c.results, r = true

variable {addr env bin}

/-- The result of a chunk says whether its words were programmed, and if so it has been copied. -/
theorem copyChunk_spec {k : Nat} {c c' : Copy} {ok : Bool} (hc : Copied addr env bin k c)
    (h : copyChunk env bin addr (buffSize * k) c = (c', ok)) :
    (ok = true ↔ Programs env addr k) ∧ c'.results = c.results ++ [ok] ∧
      (Programs env addr k → Copied addr env bin (k + 1) c') := by
  have hread : readChunk env bin (buffSize * k) c.buff c.pos = buffer env bin (k + 1) := by
    rw [buffer, ← hc.read]
  simp only [copyChunk, hread, Prod.mk.injEq] at h
  rcases h with ⟨rfl, rfl⟩
  generalize hbuf : (buffer env bin (k + 1)).1 = buf
  have hok := efPortWrite_ok env.program (addr + buffSize * k) buf (buffSize / 4) 0 c.flash
  rw [Nat.add_zero] at hok
  refine ⟨hok, rfl, fun hprog => ⟨fun i hi => ?_, by rw [← hbuf], fun r hr => ?_⟩⟩
  · refine (efPortWrite_flash _ _ _ _ _ _ (hok.mpr hprog) _).trans ?_
    by_cases hold : i < buffSize * k
    · rw [if_neg (by omega)]
      exact hc.flash i hold
    have hplace : i / buffSize = k ∧ i % buffSize = addr + i - (addr + buffSize * k) := by
      unfold buffSize at hi hold ⊢
      omega
    rw [if_pos (by unfold buffSize at hi hold ⊢; omega), hplace.1, hplace.2, hbuf]
  · rcases mem_append.mp hr with hr | hr
    · exact hc.results r hr
    · exact (mem_singleton.mp hr).trans (hok.mpr hprog)

/-- The loop goes through all chunks when all of them are programmed, and otherwise there is a
    write that has failed. -/
theorem copyLoop_spec (chunks k : Nat) (c : Copy) (hc : Copied addr env bin k c) :
    ((∀ r ∈ (copyLoop env bin addr chunks (buffSize * k) c).results, r = true) ↔
      ∀ j, k ≤ j → j < k + chunks → Programs env addr j) ∧
    ((∀ j, k ≤ j → j < k + chunks → Programs env addr j) →
      Copied addr env bin (k + chunks) (copyLoop env bin addr chunks (buffSize * k) c)) := by
  induction chunks generalizing k c with
  | zero => exact ⟨⟨fun _ j _ _ => by omega, fun _ => hc.results⟩, fun _ => hc⟩
  | succ chunks ih =>
    rcases hchunk : copyChunk env bin addr (buffSize * k) c with ⟨c', ok⟩
    rcases copyChunk_spec hc hchunk with ⟨hok, hresults, hcopied⟩
    simp only [copyLoop, hchunk]
    by_cases hprog : Programs env addr k
    · have hall : (∀ j, k ≤ j → j < k + (chunks + 1) → Programs env addr j) ↔
          ∀ j, k + 1 ≤ j → j < k + 1 + chunks → Programs env addr j := by
        refine ⟨fun h j hj hj' => h j (by omega) (by omega), fun h j hj hj' => ?_⟩
        rcases Nat.lt_or_eq_of_le hj with hlt | rfl
        · exact h j hlt (by omega)
        · exact hprog
      rw [if_pos (hok.mpr hprog), hall, ← Nat.mul_succ, Nat.add_comm chunks, ← Nat.add_assoc]
      exact ih (k + 1) c' (hcopied hprog)
    · have hfail := Bool.eq_false_iff.mpr fun h => hprog (hok.mp h)
      have hno : ¬ ∀ j, k ≤ j → j < k + (chunks + 1) → Programs env addr j :=
        fun h => hprog (h k (Nat.le_refl k) (by omega))
      refine ⟨⟨fun hr => ?_, fun h => absurd h hno⟩, fun h => absurd h hno⟩
      rw [hfail, if_neg Bool.false_ne_true, hresults, hfail] at hr
      exact absurd (hr false (mem_append_right _ mem_cons_self)) Bool.false_ne_true

variable (env bin)

theorem install_spec (size start : BitVec 32) :
    ((∀ r ∈ (install env bin size start).results, r = true) ↔
      ∀ k, k < chunksOf size → Programs env start.toNat k) ∧
    ((∀ k, k < chunksOf size → Programs env start.toNat k) → ∀ i, i < size.toNat →
      (install env bin size start).flash (start.toNat + i) =
        (buffer env bin (i / buffSize + 1)).1 (i % buffSize)) := by
  rcases @copyLoop_spec start.toNat env bin (chunksOf size) 0
    ⟨env.eraseUserApp.2, env.stack, 0, []⟩
    ⟨fun i hi => absurd hi (Nat.not_lt_zero i), rfl, nofun⟩ with ⟨hresults, hcopied⟩
  simp only [Nat.zero_le, true_implies, Nat.zero_add] at hresults hcopied
  refine ⟨hresults, fun hprog i hi => (hcopied hprog).flash i ?_⟩
  unfold chunksOf buffSize
  omega

end Copy

section Record

variable (env : Env)

/-- The address of the present firmware. -/
def oldAddr : BitVec 32 :=
  ((systemStage env).map Prod.snd).getD userAppAddress

def leave (flash : Nat → Byte) (bootAddr : BitVec 32) : Outcome :=
  { systemCfg := env.systemCfg, flash := flash, results := [], boot := some bootAddr }

/-- How it ends with a binary for an update. -/
def withBinary (u : Update) (bin : List Byte) : Outcome :=
  if env.eraseUserApp.1 then
    { systemCfg := (env.writeSystem.map (recorded env u)).getD env.systemCfg
      flash := (install env bin (ofNat 32 bin.length) userAppAddress).flash
      results := (install env bin (ofNat 32 bin.length) userAppAddress).results
      boot := some u.bootAddr }
  else leave env env.eraseUserApp.2 u.bootAddr

/-- How it ends without the key: with the present firmware, with the address of an update that has
    no binary, or with an update. -/
theorem bootloader_eq (hkey : env.checkKey = false) :
    bootloader env =
      match pending env with
      | none => leave env env.flash (oldAddr env)
      | some u =>
        ((binStage env u).map (withBinary env u)).getD (leave env env.flash u.bootAddr) := by
  unfold bootloader pending oldAddr
  simp only [hkey, Bool.false_eq_true, if_false]
  cases systemStage env with
  | none => rfl
  | some sys =>
    simp only [Option.bind_eq_bind, Option.bind_some]
    cases updateStage env sys.1 with
    | none => rfl
    | some u =>
      dsimp only
      cases binStage env u with
      | none => rfl
      | some bin =>
        dsimp only [Option.map_some, Option.getD_some, withBinary]
        cases env.writeSystem with
        | none => rfl
        | some count => rfl

theorem binStage_cases {u : Update} {bin : List Byte} (h : binStage env u = some bin) :
    env.bin (binFileName u.version) = some bin ∧ u.binSize = ofNat 32 bin.length := by
  simp only [binStage, guard, Option.bind_eq_bind, Option.bind_eq_some_iff, Option.pure_def,
    Option.some.injEq] at h
  rcases h with ⟨bin', hfile, _, _, _, hsize, rfl⟩
  refine ⟨hfile, ?_⟩
  by_contra hne
  rw [if_neg hne] at hsize
  exact nomatch hsize

theorem bootloader_made {u : Update} {bin : List Byte} {count : Nat} (hkey : env.checkKey = false)
    (hupd : pending env = some u) (hbin : binStage env u = some bin)
    (herase : env.eraseUserApp.1 = true) (hwrite : env.writeSystem = some count) :
    bootloader env =
      { systemCfg := recorded env u count
        flash := (install env bin u.binSize userAppAddress).flash
        results := (install env bin u.binSize userAppAddress).results
        boot := some u.bootAddr } := by
  rw [bootloader_eq env hkey, hupd]
  simp only [hbin, Option.map_some, Option.getD_some, withBinary, herase, if_true, hwrite,
    (binStage_cases env hbin).2]

/-- What has happened when `system.cfg` is not as it was. -/
theorem recorded_cases (hne : (bootloader env).systemCfg ≠ env.systemCfg) :
    ∃ u bin count, env.checkKey = false ∧ pending env = some u ∧ binStage env u = some bin ∧
      env.eraseUserApp.1 = true ∧ env.writeSystem = some count := by
  cases hkey : env.checkKey with
  | true =>
    rw [bootloader, if_pos hkey] at hne
    exact absurd rfl hne
  | false =>
    rw [bootloader_eq env hkey] at hne
    cases hupd : pending env with
    | none => exact absurd (by rw [hupd]; rfl) hne
    | some u =>
      simp only [hupd] at hne
      cases hbin : binStage env u with
      | none => exact absurd (by rw [hbin]; rfl) hne
      | some bin =>
        simp only [hbin, Option.map_some, Option.getD_some, withBinary] at hne
        by_cases herase : env.eraseUserApp.1 = true
        · cases hwrite : env.writeSystem with
          | none => exact absurd (by rw [if_pos herase, hwrite]; rfl) hne
          | some count => exact ⟨u, bin, count, rfl, rfl, hbin, herase, rfl⟩
        · exact absurd (by rw [if_neg herase]; rfl) hne

/-- The new version is in `system.cfg` only if the update has been made, just when the update
    goes to the address of the user application and has the right check sum, and the binary is
    read and written without a loss. -/
theorem record_means_installed (checkSumOf : List Byte → BitVec 16) :
    ((bootloader env).systemCfg = env.systemCfg ∨
      ∃ u bin, Installed checkSumOf env (bootloader env) u bin) ↔ BootCond checkSumOf env := by
  constructor
  · intro h u bin count hkey hupd hbin herase hwrite hne
    have hend := bootloader_made env hkey hupd hbin herase hwrite
    rcases h with hsame | ⟨u', bin', hinst⟩
    · rw [hend] at hsame
      exact absurd hsame hne
    obtain rfl : u' = u := Option.some.inj (hinst.update.symm.trans hupd)
    obtain rfl : bin' = bin :=
      Option.some.inj (hinst.file.symm.trans (binStage_cases env hbin).1)
    rw [hend] at hinst
    have hprog := (install_spec env bin' _ userAppAddress).1.mp hinst.written
    refine ⟨Option.some.inj hinst.boot, hinst.checked, fun i hi => ?_, hprog⟩
    rw [← (install_spec env bin' _ userAppAddress).2 hprog i hi]
    exact hinst.programmed i hi
  intro hcond
  by_cases hsame : (bootloader env).systemCfg = env.systemCfg
  · exact .inl hsame
  rcases recorded_cases env hsame with ⟨u, bin, count, hkey, hupd, hbin, herase, hwrite⟩
  have hend := bootloader_made env hkey hupd hbin herase hwrite
  rw [hend] at hsame ⊢
  rcases hcond u bin count hkey hupd hbin herase hwrite hsame with ⟨hboot, hsum, hread, hprog⟩
  rcases binStage_cases env hbin with ⟨hfile, hsize⟩
  refine .inr ⟨u, bin, hupd, hfile, hsize, ⟨count, rfl⟩, congrArg some hboot, fun i hi => ?_,
    (install_spec env bin _ userAppAddress).1.mpr hprog, hsum⟩
  have hflash := (install_spec env bin _ userAppAddress).2 hprog i hi
  exact (hread i hi).trans (congrArg some hflash.symm)

/-- An update of four bytes, with a flash in which some words can be programmed. -/
def smallUpdate (program : Nat → Bool) : Env :=
  { checkKey := false
    systemCfg := some (bytes "version:1\r\nboot_addr:0x8020000")
    readSystem := some 200
    updateCfg :=
      some (bytes "version:2\r\nbin_size:4\r\ncheck_sum:10\r\nboot_addr:0x8020000")
    readUpdate := some 200
    bin := fun name => if name = bytes "2.bin" then some [1, 2, 3, 4] else none
    seekBin := true
    readBin := fun _ => some 128
    flash := fun _ => 0
    eraseUserApp := (true, fun _ => 0xff)
    program := program
    stack := fun _ => 0
    writeSystem := some 200 }

/-- No word can be programmed. The new version is recorded all the same. -/
theorem record_without_install :
    (bootloader (smallUpdate fun _ => false)).systemCfg =
        some (bytes "version:2\r\nboot_addr:0x8020000") ∧
      (bootloader (smallUpdate fun _ => false)).results = [false] ∧
      (bootloader (smallUpdate fun _ => false)).boot = some 0x08020000 ∧
      (bootloader (smallUpdate fun _ => false)).flash 0x08020000 = 0xff := by decide +kernel

end Record

section Abandon

variable (env : Env)

def openedFds (fd : File → Nat) : List Int :=
  if env.checkKey then [] else ([.system, .update, .bin].filter (opened env)).map fun f => fd f

def erased : Bool :=
  ((pending env).bind (binStage env)).isSome && env.eraseUserApp.1

/-- What is in the flash when nothing is erased. An attempt to erase it may have failed. -/
def keptFlash : Nat → Byte :=
  if ((pending env).bind (binStage env)).isSome then env.eraseUserApp.2 else env.flash

/-- An update that is abandoned gives the address of the present firmware, which is still in the
    flash. A variable that is not set is -1. -/
structure KeepsOld (stack : File → Int) : Prop where
  addr : env.checkKey = false → erased env = false →
    ∀ u, pending env = some u → u.bootAddr = oldAddr env
  present : env.checkKey = false → erased env = false →
    iapLoadApp (keptFlash env) (oldAddr env) = true
  unset : env.checkKey = false → ∀ f, reached env f = false → stack f = -1

variable {env}

theorem bootloader_abandoned (hkey : env.checkKey = false) (herased : erased env = false) :
    bootloader env =
      leave env (keptFlash env) (((pending env).map Update.bootAddr).getD (oldAddr env)) := by
  rw [bootloader_eq env hkey, keptFlash]
  rw [erased] at herased
  cases hupd : pending env with
  | none => rfl
  | some u =>
    rw [hupd, Option.bind_some] at herased
    cases hbin : binStage env u with
    | none => simp only [hbin, Option.map_none, Option.getD_none, Option.bind_some,
        Option.isSome_none, Bool.false_eq_true, if_false, Option.map_some, Option.getD_some]
    | some bin =>
      rw [hbin, Option.isSome_some, Bool.true_and] at herased
      simp only [hbin, Option.map_some, Option.getD_some, withBinary, herased, Bool.false_eq_true,
        if_false, Option.bind_some, Option.isSome_some, if_true]

/-- Without an update the present firmware is started if its address is not replaced and it is
    still there. -/
theorem jump_old_iff (hkey : env.checkKey = false) (herased : erased env = false) :
    jump env = some (oldAddr env) ↔
      (∀ u, pending env = some u → u.bootAddr = oldAddr env) ∧
        iapLoadApp (keptFlash env) (oldAddr env) = true := by
  rw [jump, bootloader_abandoned hkey herased]
  simp only [leave, Option.filter_eq_some_iff, Option.some.injEq]
  cases hupd : pending env with
  | none => simp
  | some u =>
    simp

theorem reached_of_opened {f : File} (h : opened env f = true) : reached env f = true := by
  cases f with
  | system => rfl
  | update => exact (Bool.and_eq_true_iff.mp h).1
  | bin =>
    cases hupd : pending env with
    | none => rw [opened, hupd] at h; exact nomatch h
    | some u => rw [reached, hupd]; rfl

/-- A variable of a file that was not opened is -1, if the code has set it or it was so before. -/
theorem descriptor_eq (fd : File → Nat) {stack : File → Int} {f : File}
    (h : reached env f = false → stack f = -1) :
    descriptor env fd stack f = if opened env f then (fd f : Int) else -1 := by
  unfold descriptor
  split
  · rfl
  · cases hr : reached env f with
    | true => rfl
    | false => exact h hr

/-- The descriptors that are closed are those of the files that have been opened, if the variables
    that are not set are -1. Any other value is closed as well. -/
theorem closed_iff (fd : File → Nat) (stack : File → Int) (hkey : env.checkKey = false) :
    closed env fd stack = openedFds env fd ↔ ∀ f, reached env f = false → stack f = -1 := by
  have hall : ∀ f, f ∈ [File.system, .update, .bin] := fun f => by cases f <;> simp
  simp only [closed, openedFds, hkey, Bool.false_eq_true, if_false, filter_map]
  generalize [File.system, .update, .bin] = files at *
  constructor
  · -- an opened file is not -1, so the files that are closed are no more than those
    intro h f hr
    by_contra hne
    have hsub : files.filter (opened env) <+
        files.filter ((fun v => decide (v ≠ -1)) ∘ descriptor env fd stack) := by
      refine monotone_filter_right _ fun f hf => decide_eq_true ?_
      rw [descriptor, if_pos hf]
      omega
    have hlen := congrArg length h
    rw [length_map, length_map] at hlen
    have hnot : ¬ opened env f = true := fun ho => by
      rw [reached_of_opened ho] at hr
      exact nomatch hr
    have hmem : f ∈ files.filter ((fun v => decide (v ≠ -1)) ∘ descriptor env fd stack) := by
      refine mem_filter.mpr ⟨hall f, decide_eq_true ?_⟩
      rw [descriptor, if_neg hnot, hr]
      exact hne
    rw [← hsub.eq_of_length hlen.symm] at hmem
    exact hnot (mem_filter.mp hmem).2
  · intro h
    rw [filter_congr (q := opened env)]
    · refine map_congr_left fun f hf => ?_
      rw [descriptor_eq fd (h f), if_pos (mem_filter.mp hf).2]
    · intro f _
      rw [Function.comp_apply, descriptor_eq fd (h f)]
      cases opened env f with
      | false => rfl
      | true => exact decide_eq_true (by rw [if_pos rfl]; omega)

/-- An update that is abandoned leaves the present firmware to be started, and the descriptors
    that are closed are those of the files that have been opened, just when the old address is kept
    and so are the flash and the variables. -/
theorem abandoned_update (fd : File → Nat) (stack : File → Int) :
    ((env.checkKey = false → erased env = false → jump env = some (oldAddr env)) ∧
      closed env fd stack = openedFds env fd) ↔ KeepsOld env stack := by
  cases hkey : env.checkKey with
  | true =>
    refine ⟨fun _ => ?_, fun _ => ⟨nofun, ?_⟩⟩
    · constructor <;> (rw [hkey]; exact nofun)
    · rw [closed, openedFds, if_pos hkey, if_pos hkey]
  | false =>
    rw [closed_iff fd stack hkey]
    refine ⟨fun ⟨hjump, hunset⟩ => ?_, fun h => ⟨fun _ he => ?_, h.unset hkey⟩⟩
    · exact ⟨fun _ he => ((jump_old_iff hkey he).mp (hjump rfl he)).1,
        fun _ he => ((jump_old_iff hkey he).mp (hjump rfl he)).2, fun _ => hunset⟩
    · exact (jump_old_iff hkey he).mpr ⟨h.addr hkey he, h.present hkey he⟩

def noBinary (bootAddr : String) : Env :=
  { smallUpdate fun _ => true with
    updateCfg := some (bytes ("version:2\r\nbin_size:4\r\ncheck_sum:10\r\nboot_addr:" ++ bootAddr))
    bin := fun _ => none
    flash := fun a => if a % 4 = 3 then 0x20 else 0 }

/-- The address of an update without a binary is jumped to, and without `system.cfg` descriptors
    are closed that nobody has opened. -/
theorem abandoned_update_jumps :
    erased (noBinary "0x8040000") = false ∧ oldAddr (noBinary "0x8040000") = 0x08020000 ∧
      jump (noBinary "0x8040000") = some 0x08040000 ∧
      closed { noBinary "" with systemCfg := none } (fun _ => 3) (fun _ => 7) = [7, 7] ∧
      openedFds { noBinary "" with systemCfg := none } (fun _ => 3) = [] := by decide +kernel

end Abandon

section Erase

variable {a n : Nat}

theorem sectors_rise : StrictMonoOn addrFlashSector (Set.Iic 12) :=
  fun m _ n hn hlt =>
    (by decide : ∀ n ≤ 12, ∀ m < n, addrFlashSector m < addrFlashSector n) n hn m hlt

/-- Between the first base and another one, every address is in a sector. -/
theorem exists_sector (hlow : addrFlashSector 0 ≤ a) (h : a < addrFlashSector n) :
    ∃ m < n, addrFlashSector m ≤ a ∧ a < addrFlashSector (m + 1) := by
  induction n with
  | zero => exact absurd h (Nat.not_lt.mpr hlow)
  | succ n ih =>
    by_cases hlt : a < addrFlashSector n
    · rcases ih hlt with ⟨m, hm, hin⟩
      exact ⟨m, Nat.lt_succ_of_lt hm, hin⟩
    · exact ⟨n, Nat.lt_succ_self n, Nat.not_lt.mp hlt, h⟩

theorem stm32GetSector_eq {address : BitVec 32} (hn : n < 12)
    (hlow : addrFlashSector n ≤ address.toNat) (h : address.toNat < addrFlashSector (n + 1)) :
    stm32GetSector address = ofNat 32 n := by
  refine congrArg (fun x : Option Nat => ofNat 32 (x.getD 0))
    (find?_range_eq_some.mpr ⟨decide_eq_true ⟨h, hlow⟩, mem_range.mpr hn, fun m hm => ?_⟩)
  have hle := sectors_rise.monotoneOn (Nat.lt_trans hm hn : m + 1 ≤ 12) hn.le (Nat.succ_le_of_lt hm)
  simp only [(hle.trans hlow).not_gt, false_and, decide_false, Bool.not_false]

/-- The sectors that are erased are those that have a byte in the range. -/
def ErasesRange (addr size sector nbSectors : BitVec 32) : Prop :=
  ∀ m, (sector.toNat ≤ m ∧ m < sector.toNat + nbSectors.toNat) ↔
    m < 12 ∧ ∃ a, addr.toNat ≤ a ∧ a < addr.toNat + size.toNat ∧
      addrFlashSector m ≤ a ∧ a < addrFlashSector (m + 1)

section Range

variable {addr size : BitVec 32} {k : Nat} (hk : k < 12) (haddr : addr.toNat = addrFlashSector k)
include hk haddr

theorem erases_inner {j : Nat} (hj : j < 12) (hkj : k ≤ j)
    (hlow : addrFlashSector j < addr.toNat + size.toNat)
    (hhigh : addr.toNat + size.toNat < addrFlashSector (j + 1)) :
    ErasesRange addr size (ofNat 32 k) (ofNat 32 j - ofNat 32 k + 1) := by
  intro m
  have hbelow : ∀ n < 12, ∀ i < 12, addrFlashSector n < addrFlashSector (i + 1) → n < i + 1 :=
    fun n hn i hi => (sectors_rise.lt_iff_lt hn.le hi).mp
  rw [show (ofNat 32 k).toNat = k from Nat.mod_eq_of_lt (by omega),
    show (ofNat 32 j - ofNat 32 k + 1).toNat = j - k + 1 by bv_omega]
  constructor
  · rintro ⟨hkm, hmj⟩
    have hmj : m ≤ j := by omega
    refine ⟨by omega, addrFlashSector m, ?_, ?_, le_rfl,
      sectors_rise (hmj.trans hj.le) (Nat.succ_le_of_lt (by omega)) (Nat.lt_succ_self m)⟩
    · rw [haddr]
      exact sectors_rise.monotoneOn hk.le (hmj.trans hj.le) hkm
    · exact (sectors_rise.monotoneOn (hmj.trans hj.le) hj.le hmj).trans_lt hlow
  · rintro ⟨hm, a, hge, hlt, hma, ham⟩
    have hkm := hbelow k hk m hm (by omega)
    have hmj := hbelow m hm j hj (by omega)
    omega

/-- With the sector that begins at the end there is one too many. -/
theorem not_erases_base {n : Nat} (hn : n < 12) (hkn : k ≤ n)
    (hbase : addr.toNat + size.toNat = addrFlashSector n) :
    ¬ ErasesRange addr size (ofNat 32 k) (ofNat 32 n - ofNat 32 k + 1) := by
  intro h
  rcases ((h n).mp ⟨by bv_omega, by bv_omega⟩).2 with ⟨a, _, hlt, hle, _⟩
  omega

/-- At the end of the flash there is no sector to count to. Sector 11 is not erased, or one after
    it. -/
theorem not_erases_end (hbase : addr.toNat + size.toNat = 0x08100000) :
    ¬ ErasesRange addr size (ofNat 32 k) (0#32 - ofNat 32 k + 1) := by
  intro h
  by_cases hsmall : k ≤ 1
  · have hmem := (h 11).mpr ⟨by omega, addrFlashSector 11, ?_, ?_, le_rfl, by decide⟩
    · bv_omega
    · rw [haddr]
      exact sectors_rise.monotoneOn hk.le (by decide) (Nat.le_of_lt_succ hk)
    · rw [hbase]
      decide
  · exact absurd ((h 12).mp ⟨by bv_omega, by bv_omega⟩).1 (Nat.lt_irrefl 12)

end Range

/-- The sectors that are erased are those that have a byte in the range just when the range does
    not end where a sector does. -/
theorem erase_exact (addr size sector nbSectors : BitVec 32) (k : Nat) (hk : k < 12)
    (haddr : addr.toNat = addrFlashSector k) (hpos : 0 < size.toNat)
    (hend : addr.toNat + size.toNat ≤ 0x08100000)
    (h : efPortErase addr size = (sector, nbSectors)) :
    ErasesRange addr size sector nbSectors ↔
      ∀ n ≤ 12, addr.toNat + size.toNat ≠ addrFlashSector n := by
  have hsum : (addr + size).toNat = addr.toNat + size.toNat :=
    BitVec.toNat_add_of_lt (by omega)
  have hsucc : ∀ n < 12, addrFlashSector n < addrFlashSector (n + 1) :=
    fun n hn => sectors_rise hn.le hn (Nat.lt_succ_self n)
  have hfirst := stm32GetSector_eq hk (Nat.le_of_eq haddr.symm) (haddr ▸ hsucc k hk)
  simp only [efPortErase, hfirst, Prod.mk.injEq] at h
  rcases h with ⟨rfl, rfl⟩
  constructor
  · intro hall n hn heq
    have hkn : k < n := (sectors_rise.lt_iff_lt hk.le hn).mp (by omega)
    rcases Nat.lt_or_eq_of_le hn with hlt | rfl
    · rw [stm32GetSector_eq hlt (by omega) (by have := hsucc n hlt; omega)] at hall
      exact not_erases_base hk haddr hlt hkn.le heq hall
    · have hout : addr + size = 0x08100000#32 := BitVec.eq_of_toNat_eq (hsum.trans heq)
      rw [hout, show stm32GetSector 0x08100000#32 = 0#32 by decide] at hall
      exact not_erases_end hk haddr heq hall
  · intro hinner
    have hzero := sectors_rise.monotoneOn (Nat.zero_le 12) hk.le (Nat.zero_le k)
    rcases exists_sector (n := 12) (hzero.trans (by omega))
      (Nat.lt_of_le_of_ne hend (hinner 12 le_rfl)) with ⟨j, hj, hlow, hhigh⟩
    have hstart : addrFlashSector k < addrFlashSector (j + 1) := by omega
    have hkj : k < j + 1 := (sectors_rise.lt_iff_lt hk.le hj).mp hstart
    rw [stm32GetSector_eq hj (hsum ▸ hlow) (hsum ▸ hhigh)]
    exact erases_inner hk haddr hj (Nat.le_of_lt_succ hkj)
      (Nat.lt_of_le_of_ne hlow (hinner j hj.le).symm) hhigh

/-- The 192 K from sector 5 on are sectors 5 and 6. -/
theorem erase_exact_update : efPortErase 0x08020000 0x30000 = (5, 2) ∧
    ErasesRange 0x08020000 0x30000 5 2 :=
  ⟨by decide, (erase_exact 0x08020000 0x30000 5 2 5 (by decide) rfl (by decide) (by decide)
    (by decide)).mpr (by decide)⟩

/-- Sector 6 is erased for the 128 K of sector 5, and for the last sector the driver is told
    to erase some four billions. -/
theorem erase_next_sector :
    efPortErase 0x08020000 0x20000 = (5, 2) ∧ addrFlashSector 6 = 0x08020000 + 0x20000 ∧
      efPortErase 0x080E0000 0x20000 = (11, 4294967286) := by
  decide

end Erase

end Honeycomb.Boot
