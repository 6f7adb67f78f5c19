import MidnightOS.Nyxboot.ConfigParse
import MidnightOS.Nyxboot.ConfigReads

/-! # What is accepted as a configuration

`read_config` checks the checksum and the framing of the records.  It does not look at
the size of the file, the range of the data offset or the size of a GUID, and not at
whether both options were there and the path is terminated.  `accepts_iff` says when it,
and `parse_config` on top of it, still accept only what is well formed.
-/

namespace MidnightOS.Nyxboot

open MidnightOS.Lib

/-! ## Well-formed configurations -/

/-- `file` is a header and, from its data offset on, these records; the options that
    `parse_config` documents as required are among them. -/
structure WellFormedConfig (file : List Byte) (records : List ConfigRecord) : Prop where
  header : 24 ≤ file.length
  known : (headerOf file).Known
  offset : 24 ≤ (headerOf file).dataOffset.toNat ∧ (headerOf file).dataOffset.toNat ≤ file.length
  sum : crc32 (file.drop (headerOf file).dataOffset.toNat) 0xFFFFFFFF = (headerOf file).crc32
  region : file.drop (headerOf file).dataOffset.toNat = records.flatMap ConfigRecord.encode
  disks : ∀ r ∈ records, r.name = bootDisk → r.data.length = 16
  hasDisk : ∃ r ∈ records, r.name = bootDisk
  hasPath : ∃ r ∈ records, r.name = bootPath

/-- A path with a zero `CHAR16`. -/
def Terminated (path : List Byte) : Prop :=
  ∃ i < path.length, path[2 * i]? = some 0 ∧ path[2 * i + 1]? = some 0

instance decidableTerminated (path : List Byte) : Decidable (Terminated path) :=
  inferInstanceAs (Decidable (∃ i < path.length, path[2 * i]? = some 0 ∧ path[2 * i + 1]? = some 0))

/-- `cfg->bootBinPath` is the pool buffer obtained last, and has a zero `CHAR16`. -/
structure TerminatedPath (s : Machine ConfigVars) : Prop where
  nonnull : s.vars.cfg.bootBinPath ≠ 0
  terminator : ∃ n, (s.vars.cfg.bootBinPath.toNat, n) ∈ (poolBuffers s.trace).head? ∧
    ∃ i, 2 * i + 2 ≤ n ∧ s.mem (s.vars.cfg.bootBinPath.toNat + 2 * i) = 0 ∧
      s.mem (s.vars.cfg.bootBinPath.toNat + 2 * i + 1) = 0

/-- The records taken from a file with a right checksum make it well formed, if this is
    all of the file. -/
structure Complete (file : List Byte) (taken : List TakenRecord) : Prop where
  header : 24 ≤ file.length
  offset : 24 ≤ (headerOf file).dataOffset.toNat ∧ (headerOf file).dataOffset.toNat ≤ file.length
  disks : ∀ data ∈ disksOf taken, data.length = 16
  hasDisk : disksOf taken ≠ []
  path : ∃ data ∈ (pathsOf taken).getLast?, Terminated data

section Complete

variable {s t s' final : Machine ConfigVars} {cfgBuffer : UINT64} {file : List Byte}
  {taken : List TakenRecord} {lo stop : Nat}

theorem mem_disksOf {data : List Byte} :
    data ∈ disksOf taken ↔ ∃ t ∈ taken, t.record.name = bootDisk ∧ t.record.data = data := by
  simp [disksOf, and_assoc]

theorem mem_pathsOf {data : List Byte} :
    data ∈ pathsOf taken ↔ ∃ t ∈ taken, t.record.name = bootPath ∧ t.record.data = data := by
  simp [pathsOf, and_assoc]

/-- A copy of a path in memory has a zero `CHAR16` where the path has one. -/
theorem terminator_iff {m : Mem} {a : Nat} {path : List Byte} (h : HasBytes m a path) :
    (∃ i, 2 * i + 2 ≤ path.length ∧ m (a + 2 * i) = 0 ∧ m (a + 2 * i + 1) = 0) ↔
      Terminated path := by
  rw [hasBytes_iff] at h
  constructor
  · rintro ⟨i, hi, low, high⟩
    refine ⟨i, by omega, ?_, ?_⟩
    · rw [List.getElem?_eq_getElem (by omega), ← h (2 * i) (by omega), low]
    · rw [List.getElem?_eq_getElem (by omega), ← h (2 * i + 1) (by omega), ← Nat.add_assoc, high]
  · rintro ⟨i, _, low, high⟩
    obtain ⟨hi, low⟩ := List.getElem?_eq_some_iff.mp low
    obtain ⟨hi', high⟩ := List.getElem?_eq_some_iff.mp high
    exact ⟨i, by omega, (h _ hi).trans low, (h _ hi').trans high⟩

/-- What is left of a run when `parse_config`, too, is done with the machine: the
    configuration, and its path unless the path is empty. -/
structure Leaves (taken : List TakenRecord) (s' final : Machine ConfigVars) : Prop where
  cfg : final.vars.cfg = s'.vars.cfg
  mem : final.mem = s'.mem
  pool : pathsOf taken ≠ [] → ∀ b ∈ (poolBuffers s'.trace).head?, b ∈ (poolBuffers final.trace).head? ∨
    b.2 = 0 ∧ ∀ n, (b.1, n) ∉ poolBuffers final.trace

theorem Leaves.refl (s : Machine ConfigVars) : Leaves taken s s :=
  ⟨rfl, rfl, fun _ _ h => Or.inl h⟩

/-- The path of the last BOOT_PATH record decides whether the configuration has a
    terminated path. -/
theorem terminatedPath_iff (took : Took lo stop s s' taken) (leaves : Leaves taken s' final)
    {path : List Byte} (last : (pathsOf taken).getLast? = some path) :
    TerminatedPath final ↔ Terminated path := by
  obtain ⟨nonnull, bytes, head⟩ := took.path path last
  rw [← leaves.mem, ← leaves.cfg] at bytes
  rw [← leaves.cfg] at nonnull head
  have found := terminator_iff bytes
  have some_path : pathsOf taken ≠ [] := List.ne_nil_of_mem (List.mem_of_getLast? last)
  rcases leaves.pool some_path _ head with head' | ⟨empty, gone⟩
  · rw [← found]
    constructor
    · rintro ⟨_, n, hn, h⟩
      cases Option.mem_unique hn head'
      exact h
    · intro h
      exact ⟨nonnull, path.length, head', h⟩
  · constructor
    · rintro ⟨_, n, hn, _⟩
      exact absurd (List.mem_of_mem_head? hn) (gone n)
    · rintro ⟨i, hi, _⟩
      rw [show path.length = 0 from empty] at hi
      omega

/-- Where all records were taken, the result is right exactly if they are complete. -/
theorem complete_iff (h : HoldsFile s cfgBuffer file)
    (status : headerStatus s.mem cfgBuffer (fileSize file) = .ok ())
    (done : (scan (dataRegion s.mem cfgBuffer file)).2 = .done)
    (took : Took lo stop t s' (scan (dataRegion s.mem cfgBuffer file)).1)
    (leaves : Leaves (scan (dataRegion s.mem cfgBuffer file)).1 s' final) :
    ((∃ records, WellFormedConfig file records) ∧ TerminatedPath final) ↔
      Complete file (scan (dataRegion s.mem cfgBuffer file)).1 := by
  have whole := scan_done done
  generalize scan (dataRegion s.mem cfgBuffer file) = result at whole done took leaves
  constructor
  · rintro ⟨⟨records, wf⟩, terminated⟩
    -- the records of the file are the ones that were taken
    have header := h.headerAt_eq wf.header
    have region := h.dataRegion_eq (header ▸ wf.offset.2)
    rw [header, wf.region] at region
    obtain rfl : records = result.1.map (·.record) :=
      flatMap_encode_injective (region.symm.trans whole)
    refine ⟨wf.header, wf.offset, ?_, ?_, ?_⟩
    · intro data hdata
      obtain ⟨t, ht, name, rfl⟩ := mem_disksOf.mp hdata
      exact wf.disks t.record (List.mem_map_of_mem ht) name
    · obtain ⟨r, hr, name⟩ := wf.hasDisk
      obtain ⟨t, ht, rfl⟩ := List.mem_map.mp hr
      exact List.ne_nil_of_mem (mem_disksOf.mpr ⟨t, ht, name, rfl⟩)
    · obtain ⟨r, hr, name⟩ := wf.hasPath
      obtain ⟨t, ht, rfl⟩ := List.mem_map.mp hr
      -- the last path is the one that `bootBinPath` points to
      have some_path := List.ne_nil_of_mem (mem_pathsOf.mpr ⟨t, ht, name, rfl⟩)
      have last := List.getLast?_eq_some_getLast some_path
      exact ⟨_, last, (terminatedPath_iff took leaves last).mp terminated⟩
  · intro complete
    obtain ⟨path, last, terminated⟩ := complete.path
    have header := h.headerAt_eq complete.header
    have region := h.dataRegion_eq (header ▸ complete.offset.2)
    rw [header] at region
    -- version, magic and checksum were compared
    have checked := (headerStatus_file h complete.header complete.offset.2).mp status
    refine ⟨⟨result.1.map (·.record), ?_⟩, (terminatedPath_iff took leaves last).mpr terminated⟩
    exact {
      header := complete.header
      known := checked.1
      offset := complete.offset
      sum := checked.2
      region := region.symm.trans whole
      disks := by
        intro r hr name
        obtain ⟨t, ht, rfl⟩ := List.mem_map.mp hr
        exact complete.disks _ (mem_disksOf.mpr ⟨t, ht, name, rfl⟩)
      hasDisk := by
        obtain ⟨data, hdata⟩ := List.exists_mem_of_ne_nil _ complete.hasDisk
        obtain ⟨t, ht, name, _⟩ := mem_disksOf.mp hdata
        exact ⟨t.record, List.mem_map_of_mem ht, name⟩
      hasPath := by
        obtain ⟨t, ht, name, _⟩ := mem_pathsOf.mp (List.mem_of_getLast? last)
        exact ⟨t.record, List.mem_map_of_mem ht, name⟩ }

end Complete

/-! ## `read_config` -/

/-- What `read_config` accepts is well formed. -/
def AcceptsWellFormed (fw : Firmware) (cfgBuffer : UINT64) (file : List Byte)
    (s : Machine ConfigVars) : Prop :=
  ∀ s', readConfig fw cfgBuffer (fileSize file) s = .ok () s' →
    (∃ records, WellFormedConfig file records) ∧ TerminatedPath s'

/-- Unless the header is refused, the records are in memory that is in use, and if they
    come to an end, they complete the file. -/
def RefusesRest (s : Machine ConfigVars) (cfgBuffer : UINT64) (file : List Byte) : Prop :=
  headerStatus s.mem cfgBuffer (fileSize file) = .ok () →
    RegionInUse s cfgBuffer file ∧ ((scan (dataRegion s.mem cfgBuffer file)).2 = .done →
      Complete file (scan (dataRegion s.mem cfgBuffer file)).1)

section Accepts

variable {fw : Firmware} {s s' final : Machine ConfigVars} {cfgBuffer : UINT64} {file : List Byte}

theorem headerStatus_of_run {cfgSize : UINTN} (run : readConfig fw cfgBuffer cfgSize s = .ok () s') :
    headerStatus s.mem cfgBuffer cfgSize = .ok () := by
  have accepted : wp (readConfig fw cfgBuffer cfgSize)
      (fun _ _ => headerStatus s.mem cfgBuffer cfgSize = .ok ()) (fun _ _ => True) s := by
    refine wp_readConfig (fun _ _ _ => trivial) fun status => ?_
    unfold wp
    split
    · exact status
    · trivial
  exact wp_ok (a := ()) accepted run

/-- A run that is right, if the file is refused or complete. -/
theorem right_of_refusesRest (hfw : fw.SoundPool) (h : HoldsFile s cfgBuffer file)
    (refuses : RefusesRest s cfgBuffer file)
    (run : readConfig fw cfgBuffer (fileSize file) s = .ok () s')
    (leaves : Leaves (scan (dataRegion s.mem cfgBuffer file)).1 s' final) :
    (∃ records, WellFormedConfig file records) ∧ TerminatedPath final := by
  have status := headerStatus_of_run run
  obtain ⟨inUse, complete⟩ := refuses status
  obtain ⟨_, done, took⟩ := wp_ok (readConfig_region hfw inUse) run
  exact (complete_iff h status done took leaves).mpr (complete done)

/-- If no request for a copy is refused, records that come to an end are accepted. -/
theorem run_of_done (hfw : fw.SoundPool) (inUse : RegionInUse s cfgBuffer file)
    (granted : Granted (readConfig fw cfgBuffer (fileSize file)) s)
    (status : headerStatus s.mem cfgBuffer (fileSize file) = .ok ())
    (done : (scan (dataRegion s.mem cfgBuffer file)).2 = .done) :
    ∃ s' lo stop, readConfig fw cfgBuffer (fileSize file) s = .ok () s' ∧
      Took lo stop (headerRead s cfgBuffer (fileSize file)) s'
        (scan (dataRegion s.mem cfgBuffer file)).1 := by
  have run := readConfig_region hfw inUse
  cases hrun : readConfig fw cfgBuffer (fileSize file) s with
  | ok _ s' =>
    obtain ⟨_, _, took⟩ := wp_ok run hrun
    exact ⟨s', _, _, rfl, took⟩
  | error e s' =>
    rw [Granted, after_of_error hrun] at granted
    rcases wp_error run hrun with rejected | ⟨_, failed⟩
    · obtain ⟨code, wrong, _⟩ := rejected.status
      rw [status] at wrong
      cases wrong
    · have more := failed.refusals_lt done
      rw [refusals_headerRead] at more
      omega

theorem readConfig_accepts_of (hfw : fw.SoundPool) (h : HoldsFile s cfgBuffer file)
    (refuses : RefusesRest s cfgBuffer file) : AcceptsWellFormed fw cfgBuffer file s :=
  fun _ run => right_of_refusesRest hfw h refuses run (.refl _)

theorem refusesRest_of_accepts (hfw : fw.SoundPool) (h : HoldsFile s cfgBuffer file)
    (inUse : RegionInUse s cfgBuffer file)
    (granted : Granted (readConfig fw cfgBuffer (fileSize file)) s)
    (right : ∀ s', readConfig fw cfgBuffer (fileSize file) s = .ok () s' → ∃ final,
      Leaves (scan (dataRegion s.mem cfgBuffer file)).1 s' final ∧
        (∃ records, WellFormedConfig file records) ∧ TerminatedPath final) :
    RefusesRest s cfgBuffer file := by
  intro status
  refine ⟨inUse, fun done => ?_⟩
  obtain ⟨s', lo, stop, run, took⟩ := run_of_done hfw inUse granted status done
  obtain ⟨final, leaves, accepted⟩ := right s' run
  exact (complete_iff h status done took leaves).mp accepted

end Accepts

/-! ## `parse_config` -/

/-- What `parse_config` accepts is well formed. -/
def ParsesWellFormed (fw : Firmware) (files : ConfigFiles) (imageHandle cfg : UINT64)
    (s : Machine ConfigVars) : Prop :=
  ∀ s', parseConfig fw files imageHandle cfg s = .ok () s' →
    (∃ records, WellFormedConfig files.delivered records) ∧ TerminatedPath s'

/-- A file that is opened and read is not empty, and is refused or complete. -/
def ParseRefusesRest (fw : Firmware) (files : ConfigFiles) (imageHandle cfg : UINT64)
    (s : Machine ConfigVars) : Prop :=
  ∀ c t, bufferConfig fw files imageHandle cfg s = .ok c t →
    ∃ b, c = some b ∧ RefusesRest t b.buffer files.delivered

section Parse

variable {fw : Firmware} {files : ConfigFiles} {imageHandle cfg : UINT64} {s t t' : Machine ConfigVars}
  {c : OpenedConfig}

/-- What the cleanup of `parse_config` leaves. -/
theorem Buffered.leaves (h : Buffered fw files s c t) {lo stop : Nat} {taken : List TakenRecord}
    (took : Took lo stop (headerRead t c.buffer (fileSize files.delivered)) t' taken) :
    Leaves taken t' ((t'.logs [.closed c.file]).emits [.freePool c.buffer]) where
  cfg := rfl
  mem := rfl
  pool := by
    intro some_path b hb
    obtain ⟨copies, pools, sizes, fresh⟩ := took.copies
    change b ∈ ((poolBuffers t'.trace).filter _).head? ∨
      b.2 = 0 ∧ ∀ n, (b.1, n) ∉ (poolBuffers t'.trace).filter _
    by_cases same : b.1 = c.buffer.toNat
    · -- the buffer of the file is in use, so only an empty copy can be at its address
      right
      refine ⟨?_, fun n => by simp [same]⟩
      have copy : b ∈ copies := by
        cases copies with
        | nil => simp [some_path] at sizes
        | cons first rest =>
          rw [pools] at hb
          obtain rfl : first = b := by simpa using hb
          exact List.mem_cons_self
      by_contra positive
      apply fresh b copy (Nat.pos_of_ne_zero positive)
      obtain ⟨info, size, _, size_ne, trace⟩ := h.trace
      change InUse t.trace b.1
      rw [trace, same]
      refine Or.inr ⟨(c.buffer.toNat, size.toNat), by simp [bufferedTrace, poolBuffers], Nat.le_refl _, ?_⟩
      exact Nat.lt_add_of_pos_right (Nat.pos_of_ne_zero fun zero => size_ne (BitVec.eq_of_toNat_eq zero))
    · left
      cases hpools : poolBuffers t'.trace with
      | nil => simp [hpools] at hb
      | cons first rest =>
        rw [hpools] at hb
        obtain rfl : first = b := by simpa using hb
        simp [same]

/-- The records of the file are taken, if none of its copies is refused. -/
theorem Buffered.granted (h : Buffered fw files s c t)
    (run : bufferConfig fw files imageHandle cfg s = .ok (some c) t)
    (granted : Granted (parseConfig fw files imageHandle cfg) s) :
    Granted (readConfig fw c.buffer (fileSize files.delivered)) t := by
  obtain ⟨info, size, _, _, trace⟩ := h.trace
  have before : refusals t.trace = refusals s.trace := by
    rw [trace]
    rfl
  have rest := parseConfig_of_buffered run
  rw [Granted, before]
  rw [Granted, after, rest] at granted
  rw [after, ← h.size]
  cases finished fw h.file_ne with
  | ok run finish =>
    rw [finish] at granted
    rw [run]
    exact granted
  | error run finish =>
    rw [finish] at granted
    rw [run]
    exact granted
  | fault run finish =>
    rw [finish] at granted
    rw [run]
    exact granted

theorem parseConfig_accepts_of (hfw : fw.SoundPool)
    (refuses : ParseRefusesRest fw files imageHandle cfg s) :
    ParsesWellFormed fw files imageHandle cfg s := by
  intro s' run
  cases hbuffer : bufferConfig fw files imageHandle cfg s with
  | error e t =>
    rw [parseConfig_of_failed hbuffer] at run
    cases run
  | ok c t =>
    obtain ⟨b, rfl, rest⟩ := refuses c t hbuffer
    have buffered := bufferConfig_some hfw hbuffer
    rw [parseConfig_of_buffered hbuffer] at run
    cases finished fw buffered.file_ne with
    | ok hread finish =>
      rw [finish] at run
      cases run
      rw [buffered.size] at hread
      -- closed and freed, what was read stays as it is
      obtain ⟨inUse, _⟩ := rest (headerStatus_of_run hread)
      obtain ⟨_, _, took⟩ := wp_ok (readConfig_region hfw inUse) hread
      exact right_of_refusesRest hfw buffered.holds rest hread (buffered.leaves took)
    | error _ finish =>
      rw [finish] at run
      cases run
    | fault _ finish =>
      rw [finish] at run
      cases run

theorem parseRefusesRest_of_accepts (hfw : fw.SoundPool)
    (granted : Granted (parseConfig fw files imageHandle cfg) s)
    (inUse : ParseRegionInUse fw files imageHandle cfg s)
    (accepts : ParsesWellFormed fw files imageHandle cfg s) :
    ParseRefusesRest fw files imageHandle cfg s := by
  intro c t hbuffer
  have spec := wp_ok (bufferConfig_spec hfw files s imageHandle cfg) hbuffer
  cases c with
  | none =>
    -- an empty file is a success
    obtain ⟨⟨_, wf⟩, _⟩ := accepts t (parseConfig_of_buffered hbuffer)
    have empty : files.delivered = [] := by
      rw [ConfigFiles.delivered, spec.2.1]
      rfl
    have long := wf.header
    rw [empty, List.length_nil] at long
    omega
  | some b =>
    have buffered := bufferConfig_some hfw hbuffer
    refine ⟨b, rfl, refusesRest_of_accepts hfw buffered.holds (inUse b t hbuffer)
      (buffered.granted hbuffer granted) fun t' hread => ?_⟩
    obtain ⟨_, _, took⟩ := wp_ok (readConfig_region hfw (inUse b t hbuffer)) hread
    refine ⟨_, buffered.leaves took, accepts _ ?_⟩
    rw [parseConfig_of_buffered hbuffer]
    rw [← buffered.size] at hread
    cases finished fw buffered.file_ne with
    | ok run finish => cases hread.symm.trans run; exact finish
    | error run _ => cases hread.symm.trans run
    | fault run _ => cases hread.symm.trans run

end Parse

/-- `read_config`, and `parse_config` for every file, accept only well-formed
    configurations exactly if they are refused or complete.  For the other direction than
    that this is enough, no request for a copy is refused, and the records are read from
    memory that is in use. -/
theorem accepts_iff {fw : Firmware} (hfw : fw.SoundPool) :
    (∀ s cfgBuffer file, HoldsFile s cfgBuffer file →
      (RefusesRest s cfgBuffer file → AcceptsWellFormed fw cfgBuffer file s) ∧
      (RegionInUse s cfgBuffer file → Granted (readConfig fw cfgBuffer (fileSize file)) s →
        (AcceptsWellFormed fw cfgBuffer file s ↔ RefusesRest s cfgBuffer file))) ∧
    ∀ files imageHandle cfg s,
      (ParseRefusesRest fw files imageHandle cfg s →
        ParsesWellFormed fw files imageHandle cfg s) ∧
      (ParseRegionInUse fw files imageHandle cfg s →
        Granted (parseConfig fw files imageHandle cfg) s →
        (ParsesWellFormed fw files imageHandle cfg s ↔
          ParseRefusesRest fw files imageHandle cfg s)) := by
  constructor
  · intro s cfgBuffer file h
    refine ⟨readConfig_accepts_of hfw h, fun inUse granted => ⟨fun accepts => ?_,
      readConfig_accepts_of hfw h⟩⟩
    exact refusesRest_of_accepts hfw h inUse granted fun s' run =>
      ⟨s', .refl s', accepts s' run⟩
  · intro files imageHandle cfg s
    exact ⟨parseConfig_accepts_of hfw, fun inUse granted =>
      ⟨parseRefusesRest_of_accepts hfw granted inUse, parseConfig_accepts_of hfw⟩⟩

/-! ## Files that are accepted -/

/-- A header with nothing behind it. -/
def bareConfig : List Byte := encodeHeader (crc32 [] 0xFFFFFFFF) [0, 0, 0, 0, 0, 0, 0] 24

/-- No options are a success, and so is no file. -/
theorem bare_header_accepted :
    (Firmware.bump (2 ^ 52)).SoundPool ∧
    HoldsFile (configMachine bareConfig) 0x1000 bareConfig ∧
    ¬AcceptsWellFormed (Firmware.bump (2 ^ 52)) 0x1000 bareConfig (configMachine bareConfig) ∧
    ¬ParsesWellFormed (Firmware.bump (2 ^ 52)) (.holding []) 1 1 freshMachine := by
  refine ⟨Firmware.bump_soundPool _ (by decide), configMachine_holds (by decide +kernel), ?_, ?_⟩
  · intro accepts
    have run := eq_ok_of_succeeds (x := readConfig (Firmware.bump (2 ^ 52)) 0x1000
      (fileSize bareConfig)) (s := configMachine bareConfig) (by decide +kernel)
    exact absurd (by decide +kernel) (accepts _ run).2.nonnull
  · intro accepts
    have run := eq_ok_of_succeeds (x := parseConfig (Firmware.bump (2 ^ 52)) (.holding []) 1 1)
      (s := freshMachine) (by decide +kernel)
    exact absurd (by decide +kernel) (accepts _ run).2.nonnull

/-- A file with both options and a terminated path. -/
def completeConfig : List Byte :=
  encodeConfig ⟨1, 2, 3, 4⟩ [0x6B, 0x00, 0x00, 0x00] true [0, 0, 0, 0, 0, 0, 0] []

theorem accepts_iff_complete :
    AcceptsWellFormed (Firmware.bump (2 ^ 52)) 0x1000 completeConfig
      (configMachine completeConfig) := by
  have holds : HoldsFile (configMachine completeConfig) 0x1000 completeConfig :=
    configMachine_holds (by decide +kernel)
  refine ((accepts_iff (Firmware.bump_soundPool _ (by decide))).1 _ _ _ holds).1 fun _ => ?_
  refine ⟨holds.regionInUse (by decide +kernel), fun _ => ?_⟩
  exact {
    header := by decide +kernel
    offset := by decide +kernel
    disks := by decide +kernel
    hasDisk := by decide +kernel
    path := ⟨[0x6B, 0x00, 0x00, 0x00], by decide +kernel, by decide +kernel⟩ }

end MidnightOS.Nyxboot
