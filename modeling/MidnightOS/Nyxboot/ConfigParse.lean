import MidnightOS.Nyxboot.ConfigWalk

/-! # Runs of `parse_config`

`parse_config` is `bufferConfig`, which reads the file into a pool buffer, and
`finishConfig`, which calls `read_config` on it.  `bufferConfig_spec` lists the ways the
first part ends; `readConfig_region` is `readConfig_spec` for any data offset, as long as
the records lie in memory that is in use.
-/

namespace MidnightOS.Nyxboot

open MidnightOS.Lib

/-! ## Any data offset -/

/-- Where the records are read from: from the data offset to the end of the buffer.  With
    an offset past the end these are no bytes, or, where the pointer wraps, bytes of the
    memory before the buffer and then the file. -/
def dataRegion (m : Mem) (cfgBuffer : UINT64) (file : List Byte) : List Byte :=
  slice m (crcStart m cfgBuffer) ((cfgBuffer + fileSize file).toNat - crcStart m cfgBuffer)

/-- The records are read from memory that is not handed out meanwhile. -/
def RegionInUse (s : Machine ConfigVars) (cfgBuffer : UINT64) (file : List Byte) : Prop :=
  ∀ x, crcStart s.mem cfgBuffer ≤ x → x < (cfgBuffer + fileSize file).toNat → InUse s.trace x

section Region

variable {fw : Firmware} {s : Machine ConfigVars} {cfgBuffer : UINT64} {file : List Byte}

theorem HoldsFile.dataRegion_eq (h : HoldsFile s cfgBuffer file)
    (offset : (headerAt s.mem cfgBuffer).dataOffset.toNat ≤ file.length) :
    dataRegion s.mem cfgBuffer file = file.drop (headerAt s.mem cfgBuffer).dataOffset.toNat := by
  have region := h.region offset
  rw [HasBytes, List.length_drop] at region
  rw [dataRegion, crcStart, h.start_toNat offset, h.stop_toNat, Nat.add_sub_add_left, region]

theorem HoldsFile.regionInUse (h : HoldsFile s cfgBuffer file)
    (offset : (headerAt s.mem cfgBuffer).dataOffset.toNat ≤ file.length) :
    RegionInUse s cfgBuffer file := by
  intro x lo hi
  rw [crcStart, h.start_toNat offset] at lo
  rw [h.stop_toNat] at hi
  exact h.inUse (by omega) hi

/-- `read_config`, whatever the data offset. -/
theorem readConfig_region (hfw : fw.SoundPool) (inUse : RegionInUse s cfgBuffer file) :
    wp (readConfig fw cfgBuffer (fileSize file))
      (fun _ s' => headerStatus s.mem cfgBuffer (fileSize file) = .ok () ∧
        (scan (dataRegion s.mem cfgBuffer file)).2 = .done ∧
        Took (crcStart s.mem cfgBuffer) (cfgBuffer + fileSize file).toNat
          (headerRead s cfgBuffer (fileSize file)) s' (scan (dataRegion s.mem cfgBuffer file)).1)
      (fun e s' => HeaderRejected s cfgBuffer (fileSize file) e s' ∨
        (headerStatus s.mem cfgBuffer (fileSize file) = .ok () ∧
          ReadFailed (crcStart s.mem cfgBuffer) (cfgBuffer + fileSize file).toNat
            (headerRead s cfgBuffer (fileSize file)) s' e
            (scan (dataRegion s.mem cfgBuffer file)))) s := by
  refine wp_readConfig (fun _ _ rejected => Or.inl rejected) fun accepted => ?_
  have length : (dataRegion s.mem cfgBuffer file).length =
      (cfgBuffer + fileSize file).toNat - crcStart s.mem cfgBuffer := length_slice _ _ _
  by_cases inside : crcStart s.mem cfgBuffer ≤ (cfgBuffer + fileSize file).toNat
  · have bytes : HasBytes (headerRead s cfgBuffer (fileSize file)).mem (crcStart s.mem cfgBuffer)
        (dataRegion s.mem cfgBuffer file) := by
      rw [HasBytes, length]
      rfl
    have run := readRecords_spec (s := headerRead s cfgBuffer (fileSize file)) hfw (Nat.le_refl _)
      bytes (by omega) (cfgBuffer + fileSize file).isLt (Nat.le_refl _)
      (fun x lo hi => inUse_walk (by simp [WalkEvent.load]) (inUse x lo hi))
    rw [length] at run
    rw [scan, length]
    refine wp_mono run ?_ ?_
    · intro _ s' hs'
      exact ⟨accepted, hs'⟩
    · intro e s' failed
      exact Or.inr ⟨accepted, failed⟩
  · -- the loop is not entered
    have none : (cfgBuffer + fileSize file).toNat - crcStart s.mem cfgBuffer = 0 := by omega
    have empty : dataRegion s.mem cfgBuffer file = [] :=
      List.eq_nil_of_length_eq_zero (length.trans none)
    rw [none, readRecords, wp_faultIf, empty]
    exact ⟨fun more => by omega, fun _ => ⟨accepted, rfl, .of_reads (.refl _)⟩⟩

end Region

/-! ## Handles -/

/-- The log of `s`, continued. -/
def Machine.logs (s : Machine ConfigVars) (log : List HandleEvent) : Machine ConfigVars :=
  { s with vars := { s.vars with handles := log ++ s.vars.handles } }

section Handles

variable {s : Machine ConfigVars} {Q : UINT64 → Machine ConfigVars → Prop}
  {E : Stop → Machine ConfigVars → Prop}

@[simp] theorem Machine.logs_logs (s : Machine ConfigVars) (log log' : List HandleEvent) :
    (s.logs log).logs log' = s.logs (log' ++ log) := by
  simp [Machine.logs]

theorem wp_answer {α : Type} {res : Except EfiError α} {Q : α → Machine ConfigVars → Prop} :
    wp (answer res) Q E s ↔
      (∀ a, res = .ok a → Q a s) ∧ (∀ e, res = .error e → E (.efi e) s) := by
  cases res with
  | ok a => simp [answer]
  | error e => simp [answer]

theorem wp_openHandle {res : Except EfiError UINT64} :
    wp (openHandle res) Q E s ↔ (∀ a, res = .ok a → if a = 0 then Q 0 s else Q a (s.logs [.opened a])) ∧
      (∀ e, res = .error e → E (.efi e) s) := by
  rw [openHandle, wp_bind, wp_answer]
  refine and_congr_left fun _ => forall_congr' fun a => imp_congr_right fun _ => ?_
  by_cases null : a = 0
  · rw [if_pos null, if_pos null, wp_pure]
  · rw [if_neg null, if_neg null]
    rfl

theorem wp_closeHandle {file : UINT64} {Q : PUnit → Machine ConfigVars → Prop} :
    wp (closeHandle file) Q E s ↔
      (file = 0 → E .fault s) ∧ (file ≠ 0 → Q () (s.logs [.closed file])) := by
  rw [closeHandle, wp_bind, wp_faultIf]
  rfl

end Handles

/-- The firmware opens the root directory and the configuration file. -/
structure ConfigFiles.Opens (files : ConfigFiles) (root cfgFile : UINT64) : Prop where
  loadedImage : ∃ a, files.loadedImage = .ok a ∧ a ≠ 0
  fileSystem : ∃ a, files.fileSystem = .ok a ∧ a ≠ 0
  openVolume : files.openVolume = .ok root ∧ root ≠ 0
  openFile : files.openFile = .ok cfgFile ∧ cfgFile ≠ 0

/-- The handle log when the configuration file is open, and the root directory closed. -/
def openedLog (root cfgFile : UINT64) : List HandleEvent :=
  [.closed root, .opened cfgFile, .opened root]

/-- How `open_config_file` ends without an open file. -/
inductive OpenFailed (files : ConfigFiles) (s : Machine ConfigVars) : Machine ConfigVars → Prop where
  | before (none : ∀ root cfgFile, ¬files.Opens root cfgFile) : OpenFailed files s s
  | rootOnly {root : UINT64} (none : ∀ root cfgFile, ¬files.Opens root cfgFile) :
      OpenFailed files s (s.logs [.closed root, .opened root])

theorem openConfigFile_spec (files : ConfigFiles) (s : Machine ConfigVars) :
    wp (openConfigFile files)
      (fun cfgFile s' => cfgFile = 0 ∨
        ∃ root, files.Opens root cfgFile ∧ s' = s.logs (openedLog root cfgFile))
      (fun e s' => (∃ code, e = .efi code) ∧ OpenFailed files s s') s := by
  simp only [openConfigFile, wp_bind, wp_answer, wp_ite, wp_pure, true_or, wp_onError]
  refine ⟨fun image himage => ⟨fun _ => trivial, fun image_ne => ⟨fun fs hfs => ⟨fun _ => trivial,
    fun fs_ne => ?_⟩, fun e he => ⟨⟨e, rfl⟩, .before ?_⟩⟩⟩, fun e he => ⟨⟨e, rfl⟩, .before ?_⟩⟩
  · rw [wp_openHandle]
    refine ⟨fun root hroot => ?_, fun e he => ⟨⟨e, rfl⟩, .before fun r f opens => ?_⟩⟩
    · -- a null interface that came with EFI_SUCCESS is called
      by_cases root_ne : root = 0
      · simp [root_ne]
      · rw [if_neg root_ne, wp_openHandle]
        refine ⟨fun _ => ?_, fun _ => ⟨fun cfgFile hfile => ?_, fun e he => ?_⟩⟩
        · contradiction
        · by_cases file_ne : cfgFile = 0
          · rw [if_pos file_ne, wp_closeHandle]
            exact ⟨fun null => absurd null root_ne, fun _ => Or.inl rfl⟩
          · simp only [if_neg file_ne, wp_closeHandle, root_ne, IsEmpty.forall_iff, ne_eq,
              not_false_eq_true, forall_const, true_and]
            right
            exact ⟨root, ⟨⟨image, himage, image_ne⟩, ⟨fs, hfs, fs_ne⟩, ⟨hroot, root_ne⟩,
              ⟨hfile, file_ne⟩⟩, rfl⟩
        · simp only [wp_closeHandle, wp_throw, root_ne, IsEmpty.forall_iff, ne_eq,
            not_false_eq_true, forall_const, true_and]
          -- only the volume was opened, and it is closed again
          refine ⟨⟨e, rfl⟩, .rootOnly fun r f opens => ?_⟩
          cases he.symm.trans opens.openFile.1
    · cases he.symm.trans opens.openVolume.1
  · rintro r f ⟨-, ⟨a, ha, -⟩, -, -⟩
    cases he.symm.trans ha
  · rintro r f ⟨⟨a, ha, -⟩, -, -, -⟩
    cases he.symm.trans ha

/-! ## The file in a buffer -/

/-- The bytes that `parse_config` gets of the file. -/
def ConfigFiles.delivered (files : ConfigFiles) : List Byte :=
  match files.getInfo with
  | .error _ => []
  | .ok size =>
      if size = 0 then []
      else match files.read size with
        | .ok bytes => bytes.val
        | .error _ => []

/-- The file that `bufferConfig` opened, and what `read_config` is called with. -/
structure OpenedConfig where
  file : UINT64
  buffer : UINT64
  size : UINTN
deriving DecidableEq

/-- `parse_config` up to the call of `read_config`, which an empty file does not get to. -/
def bufferConfig (fw : Firmware) (files : ConfigFiles) (imageHandle cfg : UINT64) :
    ConfigM (Option OpenedConfig) := do
  returnIf (imageHandle = 0 ∨ cfg = 0) .invalidParameter
  let cfgFile ← openConfigFile files
  let fileSize ← onError (getFileSize fw files cfgFile) fun e => do
    closeHandle cfgFile
    throw (.efi e)
  if fileSize = 0 then do
    closeHandle cfgFile
    return none
  else do
    let cfgBuffer ← onError (allocatePool fw fileSize) fun e => do
      closeHandle cfgFile
      throw (.efi e)
    zeroMem cfgBuffer.toNat fileSize.toNat
    let fileSize ← onError (readFile files cfgBuffer fileSize) fun e => do
      freePool cfgBuffer
      closeHandle cfgFile
      throw (.efi e)
    return some ⟨cfgFile, cfgBuffer, fileSize⟩

/-- The rest of `parse_config`. -/
def finishConfig (fw : Firmware) : Option OpenedConfig → ConfigM Unit
  | none => pure ()
  | some c => do
      onError (readConfig fw c.buffer c.size) fun e => do
        freePool c.buffer
        closeHandle c.file
        throw (.efi e)
      closeHandle c.file
      freePool c.buffer

theorem parseConfig_eq (fw : Firmware) (files : ConfigFiles) (imageHandle cfg : UINT64) :
    parseConfig fw files imageHandle cfg =
      bufferConfig fw files imageHandle cfg >>= finishConfig fw := by
  simp only [parseConfig, bufferConfig, bind_assoc]
  refine bind_congr fun _ => bind_congr fun cfgFile => bind_congr fun fileSize => ?_
  by_cases empty : fileSize = 0
  · simp only [if_pos empty, bind_assoc, pure_bind, finishConfig, bind_pure_unit]
  · simp only [if_neg empty, bind_assoc]
    rfl

/-- The records of a file that is read are in memory that is in use. -/
def ParseRegionInUse (fw : Firmware) (files : ConfigFiles) (imageHandle cfg : UINT64)
    (s : Machine ConfigVars) : Prop :=
  ∀ b t, bufferConfig fw files imageHandle cfg s = .ok (some b) t →
    RegionInUse t b.buffer files.delivered

/-- What the trace has when the file was read to `buffer`. -/
def bufferedTrace (info buffer : UINT64) (size : UINTN) : List Event :=
  [.read size (some buffer) (.ok ()), .store buffer.toNat size.toNat, .allocatePool size (.ok buffer),
    .freePool info, .allocatePool fileInfoBufferSize (.ok info)]

/-- Up to `read_config` all went well, which left the machine `t`. -/
structure Buffered (fw : Firmware) (files : ConfigFiles) (s : Machine ConfigVars)
    (c : OpenedConfig) (t : Machine ConfigVars) : Prop where
  opened : ∃ root, files.Opens root c.file ∧
    t.vars.handles = openedLog root c.file ++ s.vars.handles
  size : c.size = fileSize files.delivered
  nonempty : ∃ n, files.getInfo = .ok n ∧ n ≠ 0
  trace : ∃ info size, fw.allocatePool s.trace fileInfoBufferSize = .ok info ∧ size ≠ 0 ∧
    t.trace = bufferedTrace info c.buffer size ++ s.trace
  holds : HoldsFile t c.buffer files.delivered
  cfg : t.vars.cfg = s.vars.cfg

/-- `bufferConfig` ends with an error. -/
inductive BufferFailed (fw : Firmware) (files : ConfigFiles) (imageHandle cfg : UINT64)
    (s : Machine ConfigVars) : Stop → Machine ConfigVars → Prop where
  | fault {t : Machine ConfigVars} : BufferFailed fw files imageHandle cfg s .fault t
  | parameter {e : EfiError} (null : imageHandle = 0 ∨ cfg = 0) :
      BufferFailed fw files imageHandle cfg s (.efi e) s
  | opening {e : EfiError} {t : Machine ConfigVars} (failed : OpenFailed files s t) :
      BufferFailed fw files imageHandle cfg s (.efi e) t
  | noInfo {e code : EfiError} {root cfgFile : UINT64} (nonnull : ¬(imageHandle = 0 ∨ cfg = 0))
      (opens : files.Opens root cfgFile)
      (refused : fw.allocatePool s.trace fileInfoBufferSize = .error code) :
      BufferFailed fw files imageHandle cfg s (.efi e)
        ((s.emits [.allocatePool fileInfoBufferSize (.error code)]).logs
          ([.closed cfgFile, .closed cfgFile] ++ openedLog root cfgFile))
  | noSize {e code : EfiError} {root cfgFile info : UINT64}
      (nonnull : ¬(imageHandle = 0 ∨ cfg = 0)) (opens : files.Opens root cfgFile)
      (unknown : files.getInfo = .error code) :
      BufferFailed fw files imageHandle cfg s (.efi e)
        ((s.emits [.freePool info, .allocatePool fileInfoBufferSize (.ok info)]).logs
          ([.closed cfgFile, .closed cfgFile] ++ openedLog root cfgFile))
  | noBuffer {e code : EfiError} {root cfgFile info : UINT64} {size : UINTN}
      (opens : files.Opens root cfgFile)
      (known : fw.allocatePool s.trace fileInfoBufferSize = .ok info ∧ files.getInfo = .ok size ∧
        size ≠ 0) :
      BufferFailed fw files imageHandle cfg s (.efi e)
        ((s.emits [.allocatePool size (.error code), .freePool info,
          .allocatePool fileInfoBufferSize (.ok info)]).logs
          (.closed cfgFile :: openedLog root cfgFile))
  | notRead {e : EfiError} {root cfgFile info buffer : UINT64} {size : UINTN} {m : Mem}
      (opens : files.Opens root cfgFile)
      (known : fw.allocatePool s.trace fileInfoBufferSize = .ok info ∧ files.getInfo = .ok size ∧
        size ≠ 0) :
      BufferFailed fw files imageHandle cfg s (.efi e)
        { (s.emits (.freePool buffer :: (bufferedTrace info buffer size).tail)).logs
          (.closed cfgFile :: openedLog root cfgFile) with mem := m }

section Buffer

variable {fw : Firmware} {files : ConfigFiles} {s : Machine ConfigVars}

theorem getFileSize_spec {file : UINT64} (file_ne : file ≠ 0) :
    wp (getFileSize fw files file)
      (fun n s' => files.getInfo = .ok n ∧ ∃ info,
        fw.allocatePool s.trace fileInfoBufferSize = .ok info ∧
        s' = s.emits [.freePool info, .allocatePool fileInfoBufferSize (.ok info)])
      (fun e s' => (∃ code, e = .efi code) ∧
        ((∃ code, fw.allocatePool s.trace fileInfoBufferSize = .error code ∧
          s' = (s.emits [.allocatePool fileInfoBufferSize (.error code)]).logs [.closed file]) ∨
        ∃ code info, files.getInfo = .error code ∧
          s' = (s.emits [.freePool info, .allocatePool fileInfoBufferSize (.ok info)]).logs
            [.closed file])) s := by
  simp only [getFileSize, wp_bind, wp_returnIf, wp_onError, wp_allocatePool, wp_answer,
    wp_freePool, wp_closeHandle, wp_throw, wp_pure]
  refine ⟨fun null => absurd null file_ne, fun _ => ⟨fun info granted => ⟨fun n known => ?_,
    fun e unknown => ⟨fun null => absurd null file_ne, fun _ => ?_⟩⟩,
    fun e refused => ⟨fun null => absurd null file_ne, fun _ => ?_⟩⟩⟩
  · exact ⟨known, info, granted, rfl⟩
  · exact ⟨⟨e, rfl⟩, Or.inr ⟨e, info, unknown, rfl⟩⟩
  · exact ⟨⟨e, rfl⟩, Or.inl ⟨e, refused, rfl⟩⟩

theorem wp_readFile {cfgBuffer : UINT64} {size : UINTN} {Q : UINTN → Machine ConfigVars → Prop}
    {E : Stop → Machine ConfigVars → Prop} :
    wp (readFile files cfgBuffer size) Q E s ↔
      (∀ bytes, files.read size = .ok bytes → Q (fileSize bytes.val)
        { s.emits [.read size (some cfgBuffer) (.ok ())] with
          mem := blit s.mem cfgBuffer.toNat bytes.val }) ∧
      (∀ e, files.read size = .error e → E (.efi e) s) := by
  simp only [readFile, wp_bind, wp_answer, wp_modify, wp_pure]
  rfl

/-- The buffer of a file that was read. -/
theorem holdsFile_read (hfw : fw.SoundPool) {t : Machine ConfigVars} {h : List Event} {buffer : UINT64}
    {size : UINTN} {bytes : List Byte} (granted : fw.allocatePool h size = .ok buffer)
    (short : bytes.length ≤ size.toNat) (mem : ∃ m, t.mem = blit m buffer.toNat bytes)
    (live : (buffer.toNat, size.toNat) ∈ poolBuffers t.trace) : HoldsFile t buffer bytes where
  contents := by
    obtain ⟨m, mem⟩ := mem
    rw [hasBytes_iff, mem]
    intro i hi
    exact blit_of_inside hi
  live := ⟨size.toNat, short, live⟩
  below := by
    have := hfw.below _ _ _ granted
    omega

theorem bufferConfig_spec (hfw : fw.SoundPool) (files : ConfigFiles) (s : Machine ConfigVars)
    (imageHandle cfg : UINT64) :
    wp (bufferConfig fw files imageHandle cfg)
      (fun c t => match c with
        | none => ¬(imageHandle = 0 ∨ cfg = 0) ∧ files.getInfo = .ok 0 ∧
          ∃ root cfgFile info, files.Opens root cfgFile ∧
            t = (s.emits [.freePool info, .allocatePool fileInfoBufferSize (.ok info)]).logs
              (.closed cfgFile :: openedLog root cfgFile)
        | some c => Buffered fw files s c t)
      (BufferFailed fw files imageHandle cfg s) s := by
  simp only [bufferConfig, wp_bind, wp_returnIf]
  refine ⟨.parameter, fun nonnull => wp_mono (openConfigFile_spec files s) ?_ ?_⟩
  · intro cfgFile s1 hs1
    by_cases null : cfgFile = 0
    · -- no file, and no error: get_file_size refuses the null pointer, and Close is called on it
      simp [null, getFileSize, wp_onError, wp_closeHandle, BufferFailed.fault]
    · obtain ⟨root, opens, rfl⟩ := hs1.resolve_left null
      rw [wp_onError]
      refine wp_mono (getFileSize_spec null) ?_ ?_
      · rintro n s2 ⟨known, info, granted, rfl⟩
        rw [wp_ite]
        refine ⟨fun empty => ?_, fun nonempty => ?_⟩
        · simp only [wp_bind, wp_closeHandle, wp_pure]
          refine ⟨fun _ => absurd ‹_› null, fun _ => ⟨nonnull, empty ▸ known, root, cfgFile, info, opens, ?_⟩⟩
          simp [Machine.logs, Machine.emits]
        · simp only [wp_bind, wp_onError, wp_allocatePool, wp_zeroMem, wp_readFile, wp_freePool,
            wp_closeHandle, wp_throw, wp_pure]
          refine ⟨fun buffer granted' => ⟨fun bytes read => ?_, fun e _ => ⟨fun _ => absurd ‹_› null,
            fun _ => ?_⟩⟩, fun e _ => ⟨fun _ => absurd ‹_› null, fun _ => ?_⟩⟩
          · have delivered : files.delivered = bytes.val := by
              simp only [ConfigFiles.delivered, known, if_neg nonempty, read]
            exact {
              opened := ⟨root, opens, rfl⟩
              size := by rw [delivered]
              nonempty := ⟨n, known, nonempty⟩
              trace := ⟨info, n, granted, nonempty, rfl⟩
              holds := by
                rw [delivered]
                exact holdsFile_read hfw granted' bytes.property ⟨_, rfl⟩ (by simp [poolBuffers])
              cfg := rfl }
          · have failed : BufferFailed fw files imageHandle cfg s (.efi e)
                { (s.emits (.freePool buffer :: (bufferedTrace info buffer n).tail)).logs
                  (.closed cfgFile :: openedLog root cfgFile) with
                  mem := fill s.mem buffer.toNat n.toNat 0 } :=
              .notRead opens ⟨granted, known, nonempty⟩
            exact failed
          · have failed : BufferFailed fw files imageHandle cfg s (.efi e)
                ((s.emits [.allocatePool n (.error e), .freePool info,
                  .allocatePool fileInfoBufferSize (.ok info)]).logs
                  (.closed cfgFile :: openedLog root cfgFile)) :=
              .noBuffer opens ⟨granted, known, nonempty⟩
            exact failed
      · rintro e s2 ⟨⟨code, rfl⟩, ⟨code', refused, rfl⟩ | ⟨code', info, unknown, rfl⟩⟩
        · simp only [wp_bind, wp_closeHandle, wp_throw]
          refine ⟨fun _ => absurd ‹_› null, fun _ => ?_⟩
          have failed := BufferFailed.noInfo (s := s) (e := code) nonnull opens refused
          exact failed
        · simp only [wp_bind, wp_closeHandle, wp_throw]
          refine ⟨fun _ => absurd ‹_› null, fun _ => ?_⟩
          have failed : BufferFailed fw files imageHandle cfg s (.efi code)
              ((s.emits [.freePool info, .allocatePool fileInfoBufferSize (.ok info)]).logs
                ([.closed cfgFile, .closed cfgFile] ++ openedLog root cfgFile)) :=
            .noSize nonnull opens unknown
          exact failed
  · rintro e s1 ⟨⟨code, rfl⟩, failed⟩
    exact .opening failed

theorem wp_finishConfig {t : Machine ConfigVars} {c : OpenedConfig} (opened : c.file ≠ 0)
    {Q : Unit → Machine ConfigVars → Prop} {E : Stop → Machine ConfigVars → Prop} :
    wp (finishConfig fw (some c)) Q E t ↔ wp (readConfig fw c.buffer c.size)
      (fun _ t' => Q () ((t'.logs [.closed c.file]).emits [.freePool c.buffer]))
      (fun stop t' => match stop with
        | .efi e => E (.efi e) ((t'.emits [.freePool c.buffer]).logs [.closed c.file])
        | .fault => E .fault t') t := by
  simp only [finishConfig, wp_bind, wp_onError, wp_freePool, wp_closeHandle, wp_throw, opened,
    IsEmpty.forall_iff, ne_eq, not_false_eq_true, forall_const, true_and]
  rfl

/-- How `finishConfig` ends, by how `read_config` ends. -/
inductive Finished (fw : Firmware) (c : OpenedConfig) (t : Machine ConfigVars) : Prop where
  | ok {t' : Machine ConfigVars} (run : readConfig fw c.buffer c.size t = .ok () t')
      (finish : finishConfig fw (some c) t =
        .ok () ((t'.logs [.closed c.file]).emits [.freePool c.buffer]))
  | error {t' : Machine ConfigVars} {e : EfiError}
      (run : readConfig fw c.buffer c.size t = .error (.efi e) t')
      (finish : finishConfig fw (some c) t =
        .error (.efi e) ((t'.emits [.freePool c.buffer]).logs [.closed c.file]))
  | fault {t' : Machine ConfigVars} (run : readConfig fw c.buffer c.size t = .error .fault t')
      (finish : finishConfig fw (some c) t = .error .fault t')

theorem finished (fw : Firmware) {t : Machine ConfigVars} {c : OpenedConfig} (opened : c.file ≠ 0) :
    Finished fw c t := by
  cases run : readConfig fw c.buffer c.size t with
  | ok _ t' =>
    exact .ok run (eq_ok_state_of_wp ((wp_finishConfig opened).mpr (wp_of_ok run ⟨rfl, rfl⟩)))
  | error e t' =>
    cases e with
    | efi e =>
      exact .error run (eq_error_of_wp ((wp_finishConfig opened).mpr (wp_of_error run ⟨rfl, rfl⟩)))
    | fault =>
      exact .fault run (eq_error_of_wp ((wp_finishConfig opened).mpr (wp_of_error run ⟨rfl, rfl⟩)))

theorem Buffered.file_ne {t : Machine ConfigVars} {c : OpenedConfig} (h : Buffered fw files s c t) :
    c.file ≠ 0 := by
  obtain ⟨_, opens, _⟩ := h.opened
  exact opens.openFile.2

theorem bufferConfig_some (hfw : fw.SoundPool) {imageHandle cfg : UINT64} {c : OpenedConfig}
    {t : Machine ConfigVars} (run : bufferConfig fw files imageHandle cfg s = .ok (some c) t) :
    Buffered fw files s c t := by
  have spec := wp_ok (bufferConfig_spec hfw files s imageHandle cfg) run
  exact spec

/-- How `parse_config` goes on with a file in the buffer. -/
theorem parseConfig_of_buffered {imageHandle cfg : UINT64} {c : Option OpenedConfig}
    {t : Machine ConfigVars} (run : bufferConfig fw files imageHandle cfg s = .ok c t) :
    parseConfig fw files imageHandle cfg s = finishConfig fw c t := by
  rw [parseConfig_eq, bind_of_ok run]

theorem parseConfig_of_failed {imageHandle cfg : UINT64} {e : Stop} {t : Machine ConfigVars}
    (run : bufferConfig fw files imageHandle cfg s = .error e t) :
    parseConfig fw files imageHandle cfg s = .error e t := by
  rw [parseConfig_eq, bind_of_error run]

end Buffer

/-! ## A machine that has a file to parse -/

/-- A firmware that opens the configuration file and delivers these bytes. -/
def ConfigFiles.holding (file : List Byte) : ConfigFiles where
  loadedImage := .ok 0x10
  fileSystem := .ok 0x20
  openVolume := .ok 0x30
  openFile := .ok 0x40
  getInfo := .ok (fileSize file)
  read := fun size => .ok ⟨file.take size.toNat, List.length_take_le _ _⟩

/-- The machine before `parse_config` is called. -/
def freshMachine : Machine ConfigVars where
  mem := fun _ => 0
  trace := []
  vars := ⟨⟨⟨0, 0, 0, 0⟩, 0⟩, []⟩

end MidnightOS.Nyxboot
