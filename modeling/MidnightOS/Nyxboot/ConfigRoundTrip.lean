import MidnightOS.Nyxboot.BumpFirmware
import MidnightOS.Nyxboot.ConfigWalk

/-! # What was encoded is read back

`encodeConfig` writes a configuration file with the two options.  `readConfig_encode`
says that `read_config` gets them back, whatever bytes the path has.
`verifyHeader_detects` says that a small change in the data region is noticed.
-/

namespace MidnightOS.Nyxboot

open MidnightOS.Lib

/-! ## Encoding -/

def EfiGuid.encode (g : EfiGuid) : List Byte :=
  leBytes 4 g.data1 ++ (leBytes 2 g.data2 ++ (leBytes 2 g.data3 ++ leBytes 8 g.data4))

/-- One option: its name, the size of its data, the data, and the trailer. -/
def encodeOption (name data : List Byte) : List Byte :=
  name ++ 0x00 :: (leBytes 2 (BitVec.ofNat 16 data.length) ++ (data ++ [0x00, 0x0A]))

/-- The two options, BOOT_DISK first or BOOT_PATH first. -/
def encodeOptions (g : EfiGuid) (path : List Byte) (diskFirst : Bool) : List Byte :=
  if diskFirst then encodeOption bootDisk g.encode ++ encodeOption bootPath path
  else encodeOption bootPath path ++ encodeOption bootDisk g.encode

def encodeHeader (crc : UINT32) (pad : List Byte) (dataOffset : UINT64) : List Byte :=
  mdbcMagic ++ (leBytes 4 crc ++ (0x01 :: (pad ++ leBytes 8 dataOffset)))

/-- A configuration file: the header, the filler between it and its data offset, and
    the options. -/
def encodeConfig (g : EfiGuid) (path : List Byte) (diskFirst : Bool) (pad filler : List Byte) :
    List Byte :=
  encodeHeader (crc32 (encodeOptions g path diskFirst) 0xFFFFFFFF) pad
      (BitVec.ofNat 64 (24 + filler.length)) ++
    (filler ++ encodeOptions g path diskFirst)

theorem EfiGuid.length_encode (g : EfiGuid) : g.encode.length = 16 := by
  simp [EfiGuid.encode]

theorem EfiGuid.ofBytes_encode (g : EfiGuid) : EfiGuid.ofBytes g.encode = g := by
  have whole := hasBytes_getD g.encode
  obtain ⟨first, rest⟩ := hasBytes_append.mp whole
  obtain ⟨second, rest⟩ := hasBytes_append.mp rest
  obtain ⟨third, fourth⟩ := hasBytes_append.mp rest
  rw [EfiGuid.ofBytes, EfiGuid.decode]
  simp only [length_leBytes] at second third fourth
  rw [first.loadLE, second.loadLE, third.loadLE, fourth.loadLE]

theorem length_encodeHeader (crc : UINT32) {pad : List Byte} (hpad : pad.length = 7)
    (dataOffset : UINT64) : (encodeHeader crc pad dataOffset).length = 24 := by
  simp [encodeHeader, mdbcMagic, hpad]

/-- Decoding a header undoes encoding it. -/
theorem headerAt_encode {m : Mem} {cfgBuffer : UINT64} {crc : UINT32} {pad : List Byte}
    {dataOffset : UINT64} (hpad : pad.length = 7)
    (h : HasBytes m cfgBuffer.toNat (encodeHeader crc pad dataOffset)) :
    headerAt m cfgBuffer = ⟨mdbcMagic, crc, 1, dataOffset⟩ := by
  obtain ⟨magic, rest⟩ := hasBytes_append.mp h
  obtain ⟨sum, rest⟩ := hasBytes_append.mp rest
  obtain ⟨version, rest⟩ := hasBytes_cons.mp rest
  obtain ⟨-, offset⟩ := hasBytes_append.mp rest
  rw [show mdbcMagic.length = 4 from rfl] at sum version offset
  rw [length_leBytes] at version offset
  rw [hpad] at offset
  rw [headerAt, MdbcHeader.decode, sum.loadLE, offset.loadLE, version,
    show slice m cfgBuffer.toNat 4 = mdbcMagic from magic]

/-! ## Reading back -/

/-- AllocatePool refuses no request of this run. -/
def Granted (x : ConfigM Unit) (s : Machine ConfigVars) : Prop :=
  refusals (after x s).trace = refusals s.trace

instance (x : ConfigM Unit) (s : Machine ConfigVars) : Decidable (Granted x s) :=
  inferInstanceAs (Decidable (_ = _))

section RoundTrip

variable {fw : Firmware} {s s' : Machine ConfigVars} {cfgBuffer : UINT64} {lo stop : Nat}

theorem Took.refusals_eq {taken : List TakenRecord} (h : Took lo stop s s' taken) :
    refusals s'.trace = refusals s.trace := by
  obtain ⟨evs, trace, walk, _⟩ := h.events
  rw [trace, refusals_append, refusals_walk walk, Nat.zero_add]

theorem refusals_headerRead (s : Machine ConfigVars) (cfgBuffer : UINT64) (cfgSize : UINTN) :
    refusals (headerRead s cfgBuffer cfgSize).trace = refusals s.trace := rfl

/-- A run over a region that is all records stops only where a request is refused. -/
theorem ReadFailed.refusals_lt {e : Stop} {result : List TakenRecord × ScanEnd}
    (h : ReadFailed lo stop s s' e result) (done : result.2 = .done) :
    refusals s.trace < refusals s'.trace := by
  cases h with
  | rejected took status => cases done
  | outside took beyond status => cases done
  | refused took isPath status state =>
    rw [state, Machine.emits_trace, List.singleton_append, refusals, took.refusals_eq]
    exact Nat.lt_succ_self _

/-- The options as records. -/
def optionRecords (g : EfiGuid) (path : List Byte) (hpath : path.length ≤ 65535)
    (diskFirst : Bool) : List ConfigRecord :=
  if diskFirst then
    [⟨bootDisk, g.encode, by decide, by rw [g.length_encode]; decide⟩,
      ⟨bootPath, path, by decide, Nat.lt_succ_of_le hpath⟩]
  else
    [⟨bootPath, path, by decide, Nat.lt_succ_of_le hpath⟩,
      ⟨bootDisk, g.encode, by decide, by rw [g.length_encode]; decide⟩]

theorem encodeOptions_eq (g : EfiGuid) (path : List Byte) (hpath : path.length ≤ 65535)
    (diskFirst : Bool) : encodeOptions g path diskFirst =
      (optionRecords g path hpath diskFirst).flatMap ConfigRecord.encode := by
  cases diskFirst with
  | true => simp [encodeOptions, optionRecords, encodeOption, ConfigRecord.encode]
  | false => simp [encodeOptions, optionRecords, encodeOption, ConfigRecord.encode]

theorem scan_encodeOptions (g : EfiGuid) (path : List Byte) (hpath : path.length ≤ 65535)
    (diskFirst : Bool) :
    (scan (encodeOptions g path diskFirst)).2 = .done ∧
      pathsOf (scan (encodeOptions g path diskFirst)).1 = [path] ∧
      disksOf (scan (encodeOptions g path diskFirst)).1 = [g.encode] := by
  have known : ∀ r ∈ optionRecords g path hpath diskFirst, r.name = bootDisk ∨ r.name = bootPath := by
    cases diskFirst with
    | true => simp [optionRecords]
    | false => simp [optionRecords]
  obtain ⟨done, records⟩ := scan_flatMap known
  rw [← encodeOptions_eq] at done records
  refine ⟨done, ?_⟩
  -- both lists depend on the records alone
  have paths : ∀ taken : List TakenRecord, pathsOf taken =
      ((taken.map (·.record)).filter fun r => r.name = bootPath).map (·.data) := by
    intro taken
    simp [pathsOf, List.filter_map, Function.comp_def]
  have disks : ∀ taken : List TakenRecord, disksOf taken =
      ((taken.map (·.record)).filter fun r => r.name = bootDisk).map (·.data) := by
    intro taken
    simp [disksOf, List.filter_map, Function.comp_def]
  rw [paths, disks, records]
  cases diskFirst with
  | true => exact ⟨rfl, rfl⟩
  | false => exact ⟨rfl, rfl⟩

/-- `read_config` gets back what was encoded. -/
theorem readConfig_encode (hfw : fw.SoundPool) {g : EfiGuid} {path : List Byte} {diskFirst : Bool}
    {pad filler : List Byte} (hpath : path.length ≤ 65535) (hpad : pad.length = 7)
    (h : HoldsFile s cfgBuffer (encodeConfig g path diskFirst pad filler))
    (granted : Granted
      (readConfig fw cfgBuffer (fileSize (encodeConfig g path diskFirst pad filler))) s) :
    ∃ s', readConfig fw cfgBuffer (fileSize (encodeConfig g path diskFirst pad filler)) s =
        .ok () s' ∧
      s'.vars.cfg.bootPartUUID = g ∧
      (s'.vars.cfg.bootBinPath.toNat, path.length) ∈ poolBuffers s'.trace ∧
      HasBytes s'.mem s'.vars.cfg.bootBinPath.toNat path := by
  have below := h.below
  have header := headerAt_encode hpad (hasBytes_append.mp h.contents).1
  have length : (encodeConfig g path diskFirst pad filler).length =
      24 + (filler.length + (encodeOptions g path diskFirst).length) := by
    rw [encodeConfig, List.length_append, length_encodeHeader _ hpad, List.length_append]
  have offset_eq : (headerAt s.mem cfgBuffer).dataOffset.toNat = 24 + filler.length := by
    rw [header, BitVec.toNat_ofNat, Nat.mod_eq_of_lt (by omega)]
  have offset : (headerAt s.mem cfgBuffer).dataOffset.toNat ≤
      (encodeConfig g path diskFirst pad filler).length := by omega
  -- behind header and filler are the two options
  have region : (encodeConfig g path diskFirst pad filler).drop (24 + filler.length) =
      encodeOptions g path diskFirst := by
    rw [encodeConfig, ← List.append_assoc, List.drop_append_of_le_length,
      List.drop_of_length_le, List.nil_append]
    · simp [length_encodeHeader _ hpad]
    · simp [length_encodeHeader _ hpad]
  have accepted : headerStatus s.mem cfgBuffer
      (fileSize (encodeConfig g path diskFirst pad filler)) = .ok () := by
    have sum := h.crcBytes offset
    rw [offset_eq, region] at sum
    rw [headerStatus, crcStart, crcLength, sum, header]
    simp
  obtain ⟨done, paths, disks⟩ := scan_encodeOptions g path hpath diskFirst
  have run := readConfig_spec hfw h offset
  rw [offset_eq, region] at run
  cases hrun : readConfig fw cfgBuffer (fileSize (encodeConfig g path diskFirst pad filler)) s with
  | ok _ s' =>
    obtain ⟨_, _, took⟩ := wp_ok run hrun
    obtain ⟨_, bytes, head⟩ := took.path path (by rw [paths]; rfl)
    refine ⟨s', rfl, ?_, List.mem_of_mem_head? head, bytes⟩
    rw [took.disk g.encode (by rw [disks]; rfl) g.length_encode, g.ofBytes_encode]
  | error e s' =>
    rw [Granted, after_of_error hrun] at granted
    rcases wp_error run hrun with rejected | ⟨_, failed⟩
    · obtain ⟨code, status, _⟩ := rejected.status
      rw [accepted] at status
      cases status
    · -- the scan comes to its end, so only a refused copy could fail
      have more := failed.refusals_lt done
      rw [refusals_headerRead] at more
      omega

end RoundTrip

/-- A file whose path has bytes that look like the end of a record and a name. -/
def sampleConfig : List Byte :=
  encodeConfig ⟨1, 2, 3, 4⟩ (0x00 :: 0x0A :: bootDisk ++ [0x00]) false [1, 2, 3, 4, 5, 6, 7] [0, 0]

theorem readConfig_encode_sample :
    ∃ s', readConfig (Firmware.bump (2 ^ 52)) 0x1000 (fileSize sampleConfig)
        (configMachine sampleConfig) = .ok () s' ∧
      s'.vars.cfg.bootPartUUID = ⟨1, 2, 3, 4⟩ ∧
      (s'.vars.cfg.bootBinPath.toNat, 12) ∈ poolBuffers s'.trace ∧
      HasBytes s'.mem s'.vars.cfg.bootBinPath.toNat (0x00 :: 0x0A :: bootDisk ++ [0x00]) :=
  readConfig_encode (Firmware.bump_soundPool _ (by decide)) (by decide) rfl
    (configMachine_holds (by decide +kernel)) (by decide +kernel)

/-! ## Detecting corruption -/

section Corruption

variable {s s' t : Machine ConfigVars} {cfgBuffer cfgBuffer' : UINT64} {header : MdbcHeader}
  {file file' : List Byte}

/-- What `verify_header` accepts. -/
theorem verifyHeader_ok {cfgSize : UINTN} (h : verifyHeader header cfgBuffer cfgSize s = .ok () t) :
    header.magic = mdbcMagic ∧ header.version = 1 ∧
      crc32 (slice (wrapped s.mem) (cfgBuffer + header.dataOffset).toNat
        (cfgSize - header.dataOffset).toNat) 0xFFFFFFFF = header.crc32 := by
  have spec : wp (verifyHeader header cfgBuffer cfgSize)
      (fun _ _ => header.magic = mdbcMagic ∧ header.version = 1 ∧
        crc32 (slice (wrapped s.mem) (cfgBuffer + header.dataOffset).toNat
          (cfgSize - header.dataOffset).toNat) 0xFFFFFFFF = header.crc32)
      (fun _ _ => True) s := by
    simp only [verifyHeader, wp_bind, wp_returnIf, wp_loadBytes]
    refine ⟨fun _ => trivial, fun magic => ⟨fun _ => trivial, fun version => ⟨fun _ => trivial,
      fun sum => ⟨not_not.mp magic, not_not.mp version, not_not.mp sum⟩⟩⟩⟩
  simpa only [wp, h] using spec

/-- A change of the data region inside four consecutive bytes is noticed. -/
theorem verifyHeader_detects (h : HoldsFile s cfgBuffer file) (h' : HoldsFile s' cfgBuffer' file')
    (size : file'.length = file.length) (offset : header.dataOffset.toNat ≤ file.length)
    {before window window' behind : List Byte}
    (data : file.drop header.dataOffset.toNat = before ++ window ++ behind)
    (data' : file'.drop header.dataOffset.toNat = before ++ window' ++ behind)
    (same : window.length = window'.length) (short : window.length ≤ 4) (differ : window ≠ window')
    (accepted : verifyHeader header cfgBuffer (fileSize file) s = .ok () t) :
    ∃ t', verifyHeader header cfgBuffer' (fileSize file') s' = .error (.efi .crcError) t' := by
  obtain ⟨magic, version, sum⟩ := verifyHeader_ok accepted
  rw [h.crcBytes offset, data] at sum
  have sum' := h'.crcBytes (offset.trans size.ge)
  rw [data'] at sum'
  have differs := crc32_ne_of_window before behind 0xFFFFFFFF same short differ
  have run : wp (verifyHeader header cfgBuffer' (fileSize file')) (fun _ _ => False)
      (fun e t' => e = .efi .crcError ∧
        t' = s'.emits [.load (cfgBuffer' + header.dataOffset).toNat
          (fileSize file' - header.dataOffset).toNat]) s' := by
    simp only [verifyHeader, wp_bind, wp_returnIf, wp_loadBytes, sum']
    refine ⟨fun wrong => absurd magic wrong, fun _ => ⟨fun wrong => absurd version wrong,
      fun _ => ⟨fun _ => ⟨trivial, trivial⟩, fun equal => ?_⟩⟩⟩
    exact differs (sum.trans (not_not.mp equal).symm)
  exact ⟨_, eq_error_of_wp run⟩

end Corruption

/-- The sample file with another letter in a name. -/
def corruptedConfig : List Byte := sampleConfig.set 30 0x00

theorem verifyHeader_detects_sample :
    ∃ t', verifyHeader (headerAt (configMachine sampleConfig).mem 0x1000) 0x1000
      (fileSize corruptedConfig) (configMachine corruptedConfig) = .error (.efi .crcError) t' :=
  verifyHeader_detects (s := configMachine sampleConfig)
    (configMachine_holds (by decide +kernel)) (configMachine_holds (by decide +kernel))
    (by decide +kernel) (by decide +kernel)
    (by decide +kernel : _ = (sampleConfig.drop 26).take 4 ++ [0x5F] ++ sampleConfig.drop 31)
    (by decide +kernel : _ = (sampleConfig.drop 26).take 4 ++ [0x00] ++ sampleConfig.drop 31)
    rfl (by decide) (by decide) (eq_ok_of_succeeds (by decide +kernel))

end MidnightOS.Nyxboot
