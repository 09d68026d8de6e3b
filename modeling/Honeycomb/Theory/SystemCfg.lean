import Honeycomb.Theory.Bootloader

/-!
# The Record of an Update

After an update the new version and the address of the firmware are written over the start of
`system.cfg`. The file does not get shorter, so the end of an old and longer text stays behind
the new one. The address is the last thing that is written, in hexadecimal digits, and at the
next start it is read as far as there are such digits.

So the record is read back as it was written exactly if what stays behind does not go on with
a hexadecimal digit. Otherwise the address gets at least one more digit, is out of range, and
the whole file is refused.

## Theorems

* `locate_first`: The first place of a key is found.
* `system_cfg_round_trip`: The record in the file.
* `record_unreadable`: A record that cannot be read.
-/

namespace Honeycomb.Boot

open List Numeral
open Option (bind_eq_bind bind_some filter_some map_some some)

variable (base d : Nat) (v : Int) (before rest text : List Byte)

section Text

theorem strtol_bounds : -2 ^ 31 ≤ strtol base text ∧ strtol base text ≤ 2 ^ 31 - 1 := by
  unfold strtol
  dsimp only
  split_ifs <;> omega

theorem digitOf_digitChar (hbase : base ≤ 16) (hd : d < base) :
    digitOf base (digitChar d) = some d := by
  have hcheck : ∀ d, d < 16 → (digitChar d).toNat = if d < 10 then 48 + d else 87 + d := by
    decide
  unfold digitOf
  dsimp only
  rw [hcheck d (by omega)]
  by_cases hten : d < 10
  · rw [if_pos hten, if_pos (by omega), filter_some, if_pos (by simpa using by omega)]
    congr 1
    omega
  rw [if_neg hten, if_neg (by omega), if_pos (by omega), filter_some,
    if_pos (by simpa using by omega)]
  congr 1
  omega

theorem digitChar_plain (hd : d < 16) :
    isSpace (digitChar d) = false ∧ digitChar d ≠ 0x2d ∧ digitChar d ≠ 0x2b ∧
      (d < 10 → digitChar d ≠ 0x62) := by
  revert d
  decide

/-- A key is found behind text that does not have its first byte. -/
theorem locateFrom_skip {src before key rest : List Byte} {first : Byte} {srcLen off : Nat}
    (hsrc : src.drop off = before ++ (first :: key) ++ rest) (hbefore : first ∉ before)
    (hlen : before.length + (first :: key).length ≤ srcLen) :
    locateFrom src (first :: key) srcLen off = off + before.length + (first :: key).length := by
  induction before generalizing srcLen off with
  | nil =>
    rcases Nat.exists_eq_succ_of_ne_zero (n := srcLen) (by
      rw [length_cons] at hlen
      omega) with ⟨n, rfl⟩
    rw [locateFrom, if_pos (by omega), if_pos]
    · rfl
    · rw [hsrc, nil_append, take_left]
  | cons b before ih =>
    rcases Nat.exists_eq_succ_of_ne_zero (n := srcLen) (by
      rw [length_cons] at hlen
      omega) with ⟨n, rfl⟩
    rw [length_cons] at hlen
    -- The comparison fails at the first byte already.
    have hne : (src.drop off).take (first :: key).length ≠ first :: key := by
      rw [hsrc]
      intro hc
      simp only [cons_append, length_cons, take_succ_cons, cons.injEq] at hc
      exact hbefore (by rw [hc.1]; exact mem_cons_self)
    have hnext : src.drop (off + 1) = before ++ (first :: key) ++ rest := by
      rw [← drop_drop, hsrc]
      rfl
    rw [locateFrom, if_pos (by omega), if_neg hne,
      ih hnext (fun hc => hbefore (mem_cons_of_mem b hc)) (by omega)]
    simp only [length_cons]
    omega

theorem after_skip (key : String) (srcLen : Nat) (first : Byte) (tail : List Byte)
    (hkey : bytes key = first :: tail) (hbefore : first ∉ before)
    (hlen : before.length + (bytes key).length ≤ srcLen) :
    after (before ++ bytes key ++ rest) key srcLen = some rest := by
  have hloc : locateString (before ++ bytes key ++ rest) (bytes key) srcLen =
      before.length + (bytes key).length := by
    unfold locateString
    rw [hkey] at hlen ⊢
    rw [locateFrom_skip rfl hbefore hlen]
    omega
  unfold after
  rw [hloc, if_neg (by rw [hkey, length_cons]; omega), some.injEq, ← length_append, drop_left]

section Locate

variable {src str : List Byte} {n off srcLen : Nat}

/-- A text stands at a place within the first bytes of a buffer. -/
def StandsAt (src str : List Byte) (n k : Nat) : Prop :=
  k + str.length ≤ n ∧ (src.drop k).take str.length = str

/-- The index after the first place from an offset on at which the text stands, or 0 if there is
    none. -/
def AfterFirst (src str : List Byte) (n off r : Nat) : Prop :=
  (∃ k, off ≤ k ∧ StandsAt src str n k ∧ (∀ j, off ≤ j → j < k → ¬ StandsAt src str n j) ∧
    r = k + str.length) ∨ (∀ k, off ≤ k → ¬ StandsAt src str n k) ∧ r = 0

theorem memcmp_eq (hn : n ≤ src.length) (hoff : off + str.length ≤ n) :
    memcmp ((src.take n)[·]?) off str = some ((src.drop off).take str.length == str) := by
  induction str generalizing off with
  | nil => rfl
  | cons b str ih =>
    rw [length_cons] at hoff
    have hlt : off < src.length := by omega
    rw [memcmp, getElem?_take_of_lt (by omega), getElem?_eq_getElem hlt, ih (by omega),
      drop_eq_getElem_cons hlt]
    rfl

theorem locateFrom_first (hstr : str ≠ []) :
    AfterFirst src str (off + srcLen) off (locateFrom src str srcLen off) := by
  have hpos := length_pos_iff.mpr hstr
  induction srcLen generalizing off with
  | zero => exact .inr ⟨fun j hj h => by have := h.1; omega, rfl⟩
  | succ srcLen ih =>
    rw [locateFrom]
    split_ifs with hfits hsame
    · exact .inl ⟨off, le_refl off, ⟨by omega, hsame⟩, fun j hj hlt => by omega, rfl⟩
    · -- It does not stand at this place, and the range ends where it did.
      have hnext : ∀ j, off ≤ j → StandsAt src str (off + (srcLen + 1)) j → off + 1 ≤ j := by
        intro j hj h
        exact lt_of_le_of_ne hj fun hc => hsame (hc ▸ h.2)
      rw [show off + (srcLen + 1) = off + 1 + srcLen by omega] at hnext ⊢
      rcases @ih (off + 1) with ⟨k, hk, hat, hfirst, hr⟩ | ⟨hnone, hr⟩
      · exact .inl ⟨k, by omega, hat, fun j hj hlt h => hfirst j (hnext j hj h) hlt h, hr⟩
      · exact .inr ⟨fun j hj h => hnone j (hnext j hj h) h, hr⟩
    · exact .inr ⟨fun j hj h => by have := h.1; omega, rfl⟩

/-- The loop with counters of 16 bits reads no byte after the range, and is done after a round for
    each byte of it and one more. -/
theorem locateLoop_eq {m : Nat} {i off srcLen : BitVec 16} (hstr : str ≠ [])
    (hi : i.toNat = str.length) (hn : n ≤ src.length) (hrange : n < 2 ^ 16) (hm : srcLen.toNat = m)
    (hsum : off.toNat + m = n) :
    (locateLoop ((src.take n)[·]?) str i (m + 1) off srcLen).map BitVec.toNat =
      some (locateFrom src str m off.toNat) := by
  have hpos := length_pos_iff.mpr hstr
  induction m generalizing off srcLen with
  | zero =>
    rw [locateLoop, if_neg (by rw [BitVec.le_def]; omega)]
    rfl
  | succ m ih =>
    rw [locateLoop, locateFrom]
    by_cases hfits : str.length ≤ m + 1
    · rw [if_pos (by rw [BitVec.le_def]; omega), if_pos hfits, hi, take_length,
        memcmp_eq hn (by omega)]
      simp only [bind_eq_bind, bind_some, beq_iff_eq]
      split_ifs with hsame
      · rw [map_some, BitVec.toNat_add, hi, Nat.mod_eq_of_lt (by omega)]
      · -- Neither counter wraps: the one is below the end of the range, the other is not 0.
        have hoff : (off + 1#16).toNat = off.toNat + 1 := by bv_omega
        rw [← hoff]
        exact ih (by bv_omega) (by omega)
    · rw [if_neg (by rw [BitVec.le_def]; omega), if_neg hfits]
      rfl

/-- The index after the first place at which the text stands within the range, or 0 if there is
    none, with nothing to read but the range. -/
theorem locate_first (hstr : str ≠ []) (hlen : str.length < 2 ^ 16) (srcLen : BitVec 16)
    (hsrc : srcLen.toNat ≤ src.length) :
    ∃ r, locateLoop ((src.take srcLen.toNat)[·]?) str (.ofNat 16 str.length) (srcLen.toNat + 1) 0
      srcLen = some r ∧ AfterFirst src str srcLen.toNat 0 r.toNat := by
  have hi : (BitVec.ofNat 16 str.length).toNat = str.length := Nat.mod_eq_of_lt hlen
  have hsum : (0 : BitVec 16).toNat + srcLen.toNat = srcLen.toNat := zero_add _
  have hloop := locateLoop_eq hstr hi hsrc srcLen.isLt rfl hsum
  rcases Option.map_eq_some_iff.mp hloop with ⟨r, hr, hloc⟩
  have hfirst : AfterFirst src str (0 + srcLen.toNat) 0 _ := locateFrom_first hstr
  rw [zero_add] at hfirst
  exact ⟨r, hr, hloc ▸ hfirst⟩

/-- The string is found where it is first, although it comes twice. -/
theorem locate_first_twice :
    AfterFirst (bytes "a key: key: 1") (bytes "key: ") 12 0 7 := by
  rcases @locate_first (bytes "a key: key: 1") (bytes "key: ") (by decide) (by decide) 12
    (by decide) with ⟨r, hr, h⟩
  rcases Option.some.inj (hr.symm.trans (by decide : _ = some 7#16))
  exact h

end Locate

theorem strtol_digit (hd : d < 16) :
    strtol base (digitChar d :: text) =
      min ((readNat (digitOf base) base 0
        (if base = 16 then skipHex (digitChar d :: text) else digitChar d :: text) : Nat) : Int)
        (2 ^ 31 - 1) := by
  rcases digitChar_plain d hd with ⟨hspace, hminus, hplus, _⟩
  unfold strtol
  rw [dropWhile_cons_of_neg (by rw [hspace]; exact Bool.false_ne_true)]
  simp only [readSign, if_neg hminus, if_neg hplus, Bool.false_eq_true, if_false]

/-- A version is read back if no digit follows. -/
theorem atol_printInt (hlow : -2 ^ 31 ≤ v) (hhigh : v ≤ 2 ^ 31 - 1)
    (hstop : Stops (digitOf 10) text) : atol (printInt v ++ text) = v := by
  have hcode : ∀ d, d < 10 → digitOf 10 (digitChar d) = some d :=
    fun d hd => digitOf_digitChar 10 d (by omega) hd
  have hread := readNat_printNat (digitOf 10) digitChar 10 hcode v.natAbs (by omega) hstop
  unfold printInt atol
  split_ifs with hneg
  · unfold strtol
    rw [cons_append, dropWhile_cons_of_neg (by exact Bool.false_ne_true)]
    simp only [readSign, if_true]
    rw [if_neg (by decide)]
    omega
  rcases printNat_cons (digitOf 10) digitChar 10 hcode v.natAbs (by omega) with
    ⟨a, as, _, hcons, _⟩
  rcases mem_printNat digitChar 10 v.natAbs a (by omega) (by rw [hcons]; exact mem_cons_self)
    with ⟨d, hd, rfl⟩
  rw [hcons, cons_append] at hread ⊢
  rw [strtol_digit 10 d (as ++ text) (by omega), if_neg (by decide), hread]
  omega

/-- An address is read with all digits that follow it. -/
theorem strtol_printHex (addr : BitVec 32) (text : List Byte) :
    strtol 16 (bytes "0x" ++ (printHex addr ++ text)) =
      min ((readNat (digitOf 16) 16 addr.toNat text : Nat) : Int) (2 ^ 31 - 1) := by
  have hzero : bytes "0x" = [digitChar 0, 0x78] := by decide
  rw [hzero, cons_append, strtol_digit 16 0 _ (by omega), if_pos rfl]
  have hskip : skipHex (digitChar 0 :: ([0x78] ++ (printHex addr ++ text))) =
      printHex addr ++ text := by
    simp only [cons_append, nil_append, skipHex]
    rw [if_pos (by decide)]
  rw [hskip, printHex, readNat_printNat_append (digitOf 16) digitChar 16
    (fun d hd => digitOf_digitChar 16 d (by omega) hd) (by omega)]

theorem printInt_short (hlow : -2 ^ 31 ≤ v) (hhigh : v ≤ 2 ^ 31 - 1) :
    (printInt v).length ≤ 11 ∧ 0x62 ∉ printInt v := by
  have hlen := length_printNat_le digitChar 10 v.natAbs 10 (by omega) (by omega) (by omega)
  have hmem : (0x62 : Byte) ∉ printNat digitChar 10 v.natAbs := by
    intro hc
    rcases mem_printNat digitChar 10 v.natAbs 0x62 (by omega) hc with ⟨d, hd, hchar⟩
    exact (digitChar_plain d (by omega)).2.2.2 hd hchar.symm
  unfold printInt
  split_ifs with hneg
  · refine ⟨by rw [length_cons]; omega, fun hc => ?_⟩
    rcases mem_cons.mp hc with hc | hc
    · exact absurd hc (by decide)
    · exact hmem hc
  · exact ⟨by omega, hmem⟩

end Text

section Record

/-- The record is read back exactly if the text behind it does not start with a hexadecimal
    digit. -/
theorem parseSystem_record (hlow : -2 ^ 31 ≤ v) (hhigh : v ≤ 2 ^ 31 - 1) :
    parseSystem (recordText v userAppAddress ++ text) = some (v, userAppAddress) ↔
      Stops (digitOf 16) text := by
  rcases printInt_short v hlow hhigh with ⟨hshort, hplain⟩
  -- The text is cut at the two keys.
  have hcut : bytes "\r\nboot_addr:0x" = bytes "\r\n" ++ (bytes "boot_addr:" ++ bytes "0x") := by
    decide
  have hver : after (recordText v userAppAddress ++ text) "version:" 16 =
      some (printInt v ++ (bytes "\r\n" ++ (bytes "boot_addr:" ++ (bytes "0x" ++
        (printHex userAppAddress ++ text))))) := by
    have h := after_skip [] (printInt v ++ (bytes "\r\n" ++ (bytes "boot_addr:" ++ (bytes "0x" ++
      (printHex userAppAddress ++ text))))) "version:" 16 0x76 _ (by rfl) not_mem_nil
      (by decide)
    rw [← h, recordText, hcut]
    simp only [append_assoc, nil_append]
  have hboot : after (printInt v ++ (bytes "\r\n" ++ (bytes "boot_addr:" ++ (bytes "0x" ++
      (printHex userAppAddress ++ text))))) "boot_addr:" 50 =
      some (bytes "0x" ++ (printHex userAppAddress ++ text)) := by
    have h := after_skip (printInt v ++ bytes "\r\n") (bytes "0x" ++ (printHex userAppAddress ++
      text)) "boot_addr:" 50 0x62 _ (by rfl) (fun hc => ?_) ?_
    · rw [← h]
      simp only [append_assoc]
    · rcases mem_append.mp hc with hc | hc
      · exact hplain hc
      · exact absurd hc (by decide)
    · rw [length_append]
      have h2 : (bytes "\r\n").length = 2 := by decide
      have h10 : (bytes "boot_addr:").length = 10 := by decide
      omega
  have hatol := atol_printInt v (bytes "\r\n" ++ (bytes "boot_addr:" ++ (bytes "0x" ++
    (printHex userAppAddress ++ text)))) hlow hhigh (by
      intro a ha
      have hhead : a = 0x0d := (some.inj ha).symm
      rw [hhead]
      decide)
  simp only [parseSystem, hver, hboot, hatol, strtol_printHex, bind_eq_bind, bind_some]
  constructor
  · -- With one more digit the address does not fit into 32 bits, and the largest number that
    -- does is out of range.
    intro hparse a ha
    cases hd : digitOf 16 a with
    | none => rfl
    | some d =>
      rcases head?_eq_some_iff.mp ha with ⟨rest, hrest⟩
      have hread : 2 ^ 31 ≤ readNat (digitOf 16) 16 userAppAddress.toNat text := by
        have hle := le_readNat (digitOf 16) 16 (userAppAddress.toNat * 16 + d) rest (by omega)
        have haddr : userAppAddress.toNat = 0x08020000 := by decide
        rw [hrest, readNat, hd]
        dsimp only
        omega
      have hout : inRange (BitVec.ofInt 32 (2 ^ 31 - 1)) = false := by decide
      rw [Int.min_eq_right (by omega)] at hparse
      simp only [hout, guard, Bool.false_eq_true, if_false, failure, Option.bind_none,
        reduceCtorEq] at hparse
  · intro hstop
    rw [readNat_stops (digitOf 16) 16 hstop]
    rfl

/-- The buffer after the file has been read: the record, and what stays behind it. -/
theorem fileReadBuf_record (old text : List Byte) (hlen : text.length < configFileMaxSize) :
    ∃ tail, fileReadBuf ((overwrite old text).take configFileMaxSize) = text ++ tail ∧
      (Stops (digitOf 16) tail ↔ Stops (digitOf 16) (old.drop text.length)) := by
  unfold fileReadBuf overwrite
  rw [take_append, take_of_length_le (by omega), append_assoc]
  refine ⟨_, rfl, ?_⟩
  cases hrest : old.drop text.length with
  | nil =>
    -- Nothing is left of the old text, and the buffer goes on with zeros.
    refine iff_of_true (fun a ha => ?_) (fun a ha => ?_)
    · rw [take_nil, nil_append] at ha
      rw [eq_of_mem_replicate (mem_of_head? ha)]
      decide
    · exact absurd ha (by simp only [head?_nil, Option.mem_def, reduceCtorEq, not_false_eq_true])
  | cons b rest =>
    rcases Nat.exists_eq_succ_of_ne_zero (n := configFileMaxSize - text.length) (by omega) with
      ⟨n, hn⟩
    rw [hn, take_succ_cons]
    rfl

theorem recordText_short (hlow : -2 ^ 31 ≤ v) (hhigh : v ≤ 2 ^ 31 - 1) :
    (recordText v userAppAddress).length < configFileMaxSize := by
  have hshort := (printInt_short v hlow hhigh).1
  have h8 : (bytes "version:").length = 8 := by decide
  have h14 : (bytes "\r\nboot_addr:0x").length = 14 := by decide
  have h7 : (printHex userAppAddress).length = 7 := by decide
  unfold configFileMaxSize recordText
  simp only [length_append]
  omega

theorem updateStage_bounds {env : Env} {version : Int} {u : Update}
    (h : updateStage env version = some u) : -2 ^ 31 ≤ u.version ∧ u.version ≤ 2 ^ 31 - 1 := by
  simp only [updateStage, parseUpdate, bind_eq_bind, Option.bind_eq_some_iff,
    Option.pure_def, some.injEq] at h
  rcases h with ⟨_, _, _, _, p, _, _, _, _, _, _, _, _, _, _, _, _, _, _, _, rfl⟩
  exact strtol_bounds 10 p

/-- After an update, the next start finds the new version and the address in `system.cfg` exactly
    if the old file did not have a hexadecimal digit right behind the place the new text takes.
    Its read comes back with all bytes it asks for. -/
theorem system_cfg_round_trip (env : Env) (old : List Byte) (version : Int) (addr : BitVec 32)
    (u : Update) (bin : List Byte) (count next : Nat) (hkey : env.checkKey = false)
    (hold : env.systemCfg = some old) (hsys : systemStage env = some (version, addr))
    (hupd : updateStage env version = some u) (hbin : binStage env u = some bin)
    (herase : env.eraseUserApp.1 = true) (hwrite : env.writeSystem = some count)
    (hcount : (recordText u.version userAppAddress).length ≤ count)
    (hnext : configFileMaxSize ≤ next) :
    systemStage { env with systemCfg := (bootloader env).systemCfg, readSystem := some next } =
        some (u.version, userAppAddress) ↔
      Stops (digitOf 16) (old.drop (recordText u.version userAppAddress).length) := by
  rcases updateStage_bounds hupd with ⟨hlow, hhigh⟩
  have hfile : (bootloader env).systemCfg =
      some (overwrite old (recordText u.version userAppAddress)) := by
    simp only [bootloader, hkey, Bool.false_eq_true, if_false, hsys, hupd, hbin, herase, if_true,
      hwrite, hold, map_some, take_of_length_le hcount]
  rcases fileReadBuf_record old _ (recordText_short u.version hlow hhigh) with ⟨tail, hbuf, htail⟩
  have hstage : systemStage
      { env with systemCfg := (bootloader env).systemCfg, readSystem := some next } =
      parseSystem (recordText u.version userAppAddress ++ tail) := by
    rw [← hbuf]
    simp only [systemStage, hfile, bind_eq_bind, bind_some, readAt, map_some,
      drop_zero, take_take, min_eq_right hnext]
  rw [hstage, parseSystem_record u.version tail hlow hhigh, htail]

/-- The small update over another `system.cfg`. -/
def cfgUpdate (system : String) : Env :=
  { smallUpdate (fun _ => true) with systemCfg := some (bytes system) }

/-- The old text ends with a line break, which stays behind the new one. -/
theorem system_cfg_round_trip_line :
    systemStage { cfgUpdate "version:1\r\nboot_addr:0X8020000\r\n" with
      systemCfg := (bootloader (cfgUpdate "version:1\r\nboot_addr:0X8020000\r\n")).systemCfg
      readSystem := some 200 } = some (2, userAppAddress) := by
  refine (system_cfg_round_trip (cfgUpdate "version:1\r\nboot_addr:0X8020000\r\n")
    (bytes "version:1\r\nboot_addr:0X8020000\r\n") 1 userAppAddress ⟨2, 4, 10, 0x08020000⟩
    [1, 2, 3, 4] 200 200 rfl rfl (by decide +kernel) (by decide +kernel) (by decide +kernel) rfl rfl
    (by decide +kernel) (by decide)).mpr ?_
  intro a ha
  cases ha
  decide

/-- The old file has leading zeros. The last four of its digits stay behind the new address, and
    the file is refused at the next start. -/
theorem record_unreadable :
    systemStage (cfgUpdate "version:0001\r\nboot_addr:0x08020000") = some (1, userAppAddress) ∧
      (bootloader (cfgUpdate "version:0001\r\nboot_addr:0x08020000")).systemCfg =
        some (bytes "version:2\r\nboot_addr:0x80200000000") ∧
      systemStage { cfgUpdate "version:0001\r\nboot_addr:0x08020000" with
        systemCfg := (bootloader (cfgUpdate "version:0001\r\nboot_addr:0x08020000")).systemCfg } =
        none := by decide +kernel

end Record

end Honeycomb.Boot
