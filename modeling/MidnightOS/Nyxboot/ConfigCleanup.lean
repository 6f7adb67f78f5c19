import MidnightOS.Nyxboot.BumpFirmware
import MidnightOS.Nyxboot.ConfigParse
import MidnightOS.Nyxboot.ConfigRoundTrip
import MidnightOS.Nyxboot.LoadCleanup

/-! # What `parse_config` leaves behind

The trace as a ledger of pool buffers, and the handle log as a ledger of open files.
`get_file_size` closes a file that is not its own; a copy of a path is only freed by
the caller of `parse_config`, who knows about one of them and only after a success.
-/

namespace MidnightOS.Nyxboot

open MidnightOS.Lib

/-! ## Copies -/

/-- The answers of AllocatePool, newest first. -/
def poolAnswers : List Event → List (Except EfiError UINT64)
  | [] => []
  | .allocatePool _ res :: h => res :: poolAnswers h
  | _ :: h => poolAnswers h

section Walk

variable {evs h : List Event}

theorem poolAnswers_append (h h' : List Event) :
    poolAnswers (h ++ h') = poolAnswers h ++ poolAnswers h' := by
  induction h using poolAnswers.induct with
  | case1 => rfl
  | case2 n res h ih => simp only [List.cons_append, poolAnswers, ih]
  | case3 ev h hev ih =>
    rw [List.cons_append, poolAnswers.eq_3 ev _ hev, poolAnswers.eq_3 ev _ hev, ih]

/-- Reads neither ask for nor free anything. -/
theorem loads_holds (loads : ∀ ev ∈ evs, ∃ a n, ev = .load a n) (h : List Event) :
    Holds h (evs ++ h) 0 ∧ poolAnswers evs = [] := by
  induction evs with
  | nil => exact ⟨.refl h, rfl⟩
  | cons ev evs ih =>
    rw [List.forall_mem_cons] at loads
    obtain ⟨⟨a, n, rfl⟩, loads⟩ := loads
    obtain ⟨holds, answers⟩ := ih loads
    exact ⟨holds.skip _ rfl, answers⟩

/-- The record loop only obtains buffers: these. -/
theorem walk_holds (walk : ∀ ev ∈ evs, WalkEvent ev) (h : List Event) :
    ∃ bufs : List (UINT64 × UINTN),
      Holds h (evs ++ h) (bufs.map fun b => Resource.pool b.1) ∧
      poolBuffers (evs ++ h) = bufs.map (fun b => (b.1.toNat, b.2.toNat)) ++ poolBuffers h ∧
      poolAnswers evs = bufs.map fun b => .ok b.1 := by
  induction evs with
  | nil => exact ⟨[], .refl h, rfl, rfl⟩
  | cons ev evs ih =>
    rw [List.forall_mem_cons] at walk
    obtain ⟨bufs, holds, pools, answers⟩ := ih walk.2
    cases walk.1 with
    | load a n => exact ⟨bufs, holds.skip _ rfl, pools, answers⟩
    | store a n => exact ⟨bufs, holds.skip _ rfl, pools, answers⟩
    | granted n a =>
      refine ⟨(a, n) :: bufs, ?_, ?_, ?_⟩
      · exact holds.obtain (.allocatePool n (.ok a)) rfl
      · rw [List.cons_append, poolBuffers, pools, List.map_cons, List.cons_append]
      · rw [poolAnswers, answers, List.map_cons]

/-- The records taken left one buffer for each path, and if there is one path,
    `bootBinPath` is its buffer. -/
theorem Took.holds {lo stop : Nat} {t t' : Machine ConfigVars} {taken : List TakenRecord}
    (took : Took lo stop t t' taken) :
    ∃ bufs evs, t'.trace = evs ++ t.trace ∧ Holds t.trace t'.trace (bufs.map Resource.pool) ∧
      bufs.length = (pathsOf taken).length ∧ poolAnswers evs = bufs.map Except.ok ∧
      ∀ b, bufs = [b] → t'.vars.cfg.bootBinPath = b := by
  obtain ⟨evs, trace, walk, _⟩ := took.events
  obtain ⟨bufs, holds, pools, answers⟩ := walk_holds walk t.trace
  obtain ⟨copies, pools', sizes, _⟩ := took.copies
  rw [trace, pools] at pools'
  -- the buffers that were granted are the ones of the paths
  have same := List.append_cancel_right pools'
  have count : bufs.length = (pathsOf taken).length := by
    have lengths := congrArg List.length sizes
    rw [← same] at lengths
    simpa using lengths
  refine ⟨bufs.map (·.1), evs, trace, ?_, ?_, ?_, ?_⟩
  · rw [trace, List.map_map]
    exact holds
  · rw [List.length_map, count]
  · rw [answers, List.map_map]
    rfl
  · intro b hb
    obtain ⟨buf, rfl, rfl⟩ := List.map_eq_singleton_iff.mp hb
    obtain ⟨path, hpath⟩ := List.length_eq_one_iff.mp (count.symm.trans (List.length_singleton))
    obtain ⟨_, _, head⟩ := took.path path (by rw [hpath]; rfl)
    rw [trace, pools] at head
    have same := Option.some.inj head
    exact (BitVec.eq_of_toNat_eq (congrArg Prod.fst same)).symm

end Walk

/-! ## `read_config` -/

/-- `read_config` keeps its hands off the handles, and what it leaves in the pool is the
    buffer of the path after a success, and nothing after an error. -/
def ReadReleases (fw : Firmware) (t : Machine ConfigVars) (cfgBuffer : UINT64) (cfgSize : UINTN) :
    Prop :=
  (∀ t', readConfig fw cfgBuffer cfgSize t = .ok () t' →
    Holds t.trace t'.trace {.pool t'.vars.cfg.bootBinPath}) ∧
  ∀ e t', readConfig fw cfgBuffer cfgSize t = .error (.efi e) t' → Holds t.trace t'.trace 0

section ReadReleases

variable {fw : Firmware} {t t' : Machine ConfigVars} {cfgBuffer : UINT64} {cfgSize : UINTN}

theorem readReleases_ok_iff (run : readConfig fw cfgBuffer cfgSize t = .ok () t') :
    ReadReleases fw t cfgBuffer cfgSize ↔
      Holds t.trace t'.trace {.pool t'.vars.cfg.bootBinPath} := by
  simp [ReadReleases, run]

theorem readReleases_error_iff {e : EfiError}
    (run : readConfig fw cfgBuffer cfgSize t = .error (.efi e) t') :
    ReadReleases fw t cfgBuffer cfgSize ↔ Holds t.trace t'.trace 0 := by
  simp [ReadReleases, run]

/-- Nothing is said about a run that does not return. -/
theorem readReleases_of_fault (run : readConfig fw cfgBuffer cfgSize t = .error .fault t') :
    ReadReleases fw t cfgBuffer cfgSize := by
  simp [ReadReleases, run]

end ReadReleases

/-- From `t` to `t'`, AllocatePool was asked for something, and refused it the first
    time. -/
def FirstRefusal (t t' : Machine ConfigVars) : Prop :=
  ∃ evs, t'.trace = evs ++ t.trace ∧ ∃ e, (poolAnswers evs).getLast? = some (.error e)

/-- One path in records that come to an end, or no path before the records break off. -/
def PathsBalanced (result : List TakenRecord × ScanEnd) : Prop :=
  result.2 = .done ∧ (pathsOf result.1).length = 1 ∨ result.2 ≠ .done ∧ pathsOf result.1 = []

/-- What `read_config` has to find in the buffer to release what it acquires. -/
def ReleasesCopies (fw : Firmware) (t : Machine ConfigVars) (cfgBuffer : UINT64)
    (file : List Byte) : Prop :=
  headerStatus t.mem cfgBuffer (fileSize file) = .ok () → RegionInUse t cfgBuffer file ∧
    (FirstRefusal t (after (readConfig fw cfgBuffer (fileSize file)) t) ∨
      PathsBalanced (scan (dataRegion t.mem cfgBuffer file)))

section Read

variable {fw : Firmware} {t t' : Machine ConfigVars} {cfgBuffer : UINT64} {file : List Byte}
  {lo stop : Nat}

theorem headerRead_holds (t : Machine ConfigVars) (cfgBuffer : UINT64) (cfgSize : UINTN) :
    Holds t.trace (headerRead t cfgBuffer cfgSize).trace 0 :=
  ((Holds.refl _).skip (.load cfgBuffer.toNat 24) rfl).skip _ rfl

theorem HeaderRejected.holds {cfgSize : UINTN} {e : Stop}
    (rejected : HeaderRejected t cfgBuffer cfgSize e t') :
    Holds t.trace t'.trace 0 ∧ t'.vars.handles = t.vars.handles := by
  rcases rejected.state with ⟨_, rfl⟩ | ⟨_, rfl⟩
  · exact ⟨(Holds.refl _).skip _ rfl, rfl⟩
  · exact ⟨headerRead_holds t cfgBuffer cfgSize, rfl⟩

theorem firstRefusal_iff {evs : List Event} (trace : t'.trace = evs ++ t.trace) :
    FirstRefusal t t' ↔ ∃ e, (poolAnswers evs).getLast? = some (.error e) := by
  constructor
  · rintro ⟨evs', trace', refused⟩
    rwa [List.append_cancel_right (trace'.symm.trans trace)] at refused
  · intro refused
    exact ⟨evs, trace, refused⟩

/-- What a run of `read_config` holds at its end. -/
structure Leftover (t t' : Machine ConfigVars) (bufs : List UINT64) : Prop where
  handles : t'.vars.handles = t.vars.handles
  holds : Holds t.trace t'.trace (bufs.map Resource.pool)

/-- Records that were taken leave a buffer for each path. -/
theorem Took.leftover {taken : List TakenRecord} {cfgSize : UINTN}
    (took : Took lo stop (headerRead t cfgBuffer cfgSize) t' taken) :
    ∃ bufs evs, Leftover t t' bufs ∧ bufs.length = (pathsOf taken).length ∧
      t'.trace = evs ++ t.trace ∧ poolAnswers evs = bufs.map Except.ok ∧
      ∀ b, bufs = [b] → t'.vars.cfg.bootBinPath = b := by
  obtain ⟨bufs, evs, trace, holds, count, answers, path⟩ := took.holds
  have all := (headerRead_holds t cfgBuffer cfgSize).trans holds
  rw [zero_add] at all
  refine ⟨bufs, evs ++ [.load (crcStart t.mem cfgBuffer) (crcLength t.mem cfgBuffer cfgSize),
    .load cfgBuffer.toNat 24], ⟨took.handles, all⟩, count, ?_, ?_, path⟩
  · rw [trace, List.append_assoc]
    rfl
  · rw [poolAnswers_append, answers]
    exact List.append_nil _

theorem no_refusal (bufs : List UINT64) :
    ¬∃ e : EfiError, (bufs.map Except.ok).getLast? = some (.error e) := by
  rintro ⟨e, last⟩
  obtain ⟨b, _, wrong⟩ := List.mem_map.mp (List.mem_of_getLast? last)
  cases wrong

/-- A run that stopped holds nothing exactly if its first request was refused, or the
    records broke off before the first path. -/
theorem ReadFailed.leftover {result : List TakenRecord × ScanEnd} {e : Stop} {cfgSize : UINTN}
    (failed : ReadFailed lo stop (headerRead t cfgBuffer cfgSize) t' e result) :
    e = .fault ∨ ∃ bufs, Leftover t t' bufs ∧
      (bufs = [] ↔ FirstRefusal t t' ∨ PathsBalanced result) := by
  cases failed with
  | @rejected taken code took status =>
    obtain ⟨bufs, evs, left, count, trace, answers, _⟩ := took.leftover
    refine Or.inr ⟨bufs, left, ?_⟩
    rw [firstRefusal_iff trace, answers, or_iff_right (no_refusal bufs), PathsBalanced]
    simp [← List.length_eq_zero_iff, count]
  | @outside taken u took beyond status =>
    rcases status with status | status
    · obtain ⟨bufs, evs, left, count, trace, answers, _⟩ := took.leftover
      -- the reads beyond the end add nothing to the pool
      obtain ⟨evs', rfl, loads, _⟩ := beyond
      have quiet := loads_holds loads u.trace
      have all := left.holds.trans quiet.1
      rw [add_zero] at all
      refine Or.inr ⟨bufs, ⟨left.handles, all⟩, ?_⟩
      have trace' : (u.emits evs').trace = (evs' ++ evs) ++ t.trace := by
        rw [Machine.emits_trace, trace, List.append_assoc]
      rw [firstRefusal_iff trace', poolAnswers_append, quiet.2, answers, List.nil_append,
        or_iff_right (no_refusal bufs), PathsBalanced]
      simp [← List.length_eq_zero_iff, count]
    · exact Or.inl status
  | @refused taken rest r fin n code u took isPath status state =>
    obtain ⟨bufs, evs, left, count, trace, answers, _⟩ := took.leftover
    refine Or.inr ⟨bufs, ⟨by rw [state]; exact left.handles, by rw [state]; exact left.holds.skip _ rfl⟩, ?_⟩
    have trace' : t'.trace = (.allocatePool n (.error code) :: evs) ++ t.trace := by
      rw [state, Machine.emits_trace, trace]
      rfl
    -- the path that got no buffer is not the last one
    have paths : pathsOf (taken ++ r :: rest) = pathsOf taken ++ r.record.data :: pathsOf rest := by
      simp [pathsOf, isPath]
    rw [firstRefusal_iff trace', poolAnswers, answers]
    cases bufs with
    | nil => simp
    | cons b bufs =>
      have last := no_refusal (b :: bufs)
      rw [List.getLast?_cons_of_ne_nil (by simp)]
      simp only [last, false_or, PathsBalanced, paths, List.length_append, List.length_cons, reduceCtorEq,
        false_iff, ← count]
      simp
      omega

/-- `read_config` releases what it acquires, if it returns at all, exactly if its first
    request was refused or the paths are balanced. -/
theorem readReleases_iff (hfw : fw.SoundPool) (inUse : RegionInUse t cfgBuffer file)
    (status : headerStatus t.mem cfgBuffer (fileSize file) = .ok ())
    (returns : ∀ t', readConfig fw cfgBuffer (fileSize file) t ≠ .error .fault t') :
    ReadReleases fw t cfgBuffer (fileSize file) ↔
      FirstRefusal t (after (readConfig fw cfgBuffer (fileSize file)) t) ∨
        PathsBalanced (scan (dataRegion t.mem cfgBuffer file)) := by
  have spec := readConfig_region hfw inUse
  cases run : readConfig fw cfgBuffer (fileSize file) t with
  | ok _ t' =>
    obtain ⟨_, done, took⟩ := wp_ok spec run
    obtain ⟨bufs, evs, left, count, trace, answers, path⟩ := took.leftover
    rw [after_of_ok run, firstRefusal_iff trace, answers, or_iff_right (no_refusal bufs),
      PathsBalanced, done, ← count]
    simp only [true_and, ne_eq, not_true_eq_false, false_and, or_false]
    rw [readReleases_ok_iff run]
    constructor
    · -- what is left is determined, so it is one buffer
      intro releases
      have one := left.holds.unique releases
      simpa using congrArg Multiset.card one
    · intro one
      obtain ⟨b, rfl⟩ := List.length_eq_one_iff.mp one
      rw [path b rfl]
      exact left.holds
  | error e t' =>
    rcases wp_error spec run with rejected | ⟨_, failed⟩
    · obtain ⟨code, wrong, _⟩ := rejected.status
      rw [status] at wrong
      cases wrong
    · rcases failed.leftover with rfl | ⟨bufs, left, none_iff⟩
      · exact absurd run (returns t')
      · rw [after_of_error run, ← none_iff]
        cases e with
        | fault => exact absurd run (returns t')
        | efi e =>
          rw [readReleases_error_iff run]
          constructor
          · intro releases
            have none := left.holds.unique releases
            simpa using congrArg Multiset.card none
          · rintro rfl
            exact left.holds

/-- A run keeps its hands off the handles, and what it holds in the pool can be told. -/
theorem readConfig_leftover (hfw : fw.SoundPool)
    (inUse : headerStatus t.mem cfgBuffer (fileSize file) = .ok () → RegionInUse t cfgBuffer file) :
    wp (readConfig fw cfgBuffer (fileSize file)) (fun _ t' => ∃ bufs, Leftover t t' bufs)
      (fun e t' => e = .fault ∨ ∃ bufs, Leftover t t' bufs) t := by
  by_cases status : headerStatus t.mem cfgBuffer (fileSize file) = .ok ()
  · refine wp_mono (readConfig_region hfw (inUse status)) ?_ ?_
    · rintro _ t' ⟨_, _, took⟩
      obtain ⟨bufs, _, left, _⟩ := took.leftover
      exact ⟨bufs, left⟩
    · rintro e t' (rejected | ⟨_, failed⟩)
      · exact Or.inr ⟨[], rejected.holds.2, rejected.holds.1⟩
      · rcases failed.leftover with fault | ⟨bufs, left, _⟩
        · exact Or.inl fault
        · exact Or.inr ⟨bufs, left⟩
  · refine wp_readConfig (fun e t' rejected => Or.inr ⟨[], rejected.holds.2, rejected.holds.1⟩)
      fun accepted => absurd accepted status

/-- A refused header leaves nothing. -/
theorem readReleases_of_refused {cfgSize : UINTN}
    (status : headerStatus t.mem cfgBuffer cfgSize ≠ .ok ()) :
    ReadReleases fw t cfgBuffer cfgSize := by
  have spec : wp (readConfig fw cfgBuffer cfgSize) (fun _ _ => False)
      (fun _ t' => Holds t.trace t'.trace 0) t :=
    wp_readConfig (fun _ _ rejected => rejected.holds.1) fun accepted => absurd accepted status
  refine ⟨fun _ run => (wp_ok spec run).elim, fun e t' run => ?_⟩
  have holds := wp_error spec run
  exact holds

/-- The condition is enough, also for runs that do not return. -/
theorem readReleases_of (hfw : fw.SoundPool) (releases : ReleasesCopies fw t cfgBuffer file) :
    ReadReleases fw t cfgBuffer (fileSize file) := by
  by_cases status : headerStatus t.mem cfgBuffer (fileSize file) = .ok ()
  · obtain ⟨inUse, balanced⟩ := releases status
    by_cases returns : ∀ t', readConfig fw cfgBuffer (fileSize file) t ≠ .error .fault t'
    · exact (readReleases_iff hfw inUse status returns).mpr balanced
    · rw [not_forall_not] at returns
      obtain ⟨t', fault⟩ := returns
      exact readReleases_of_fault fault
  · exact readReleases_of_refused status

end Read

/-! ## `parse_config` -/

def HandleEvent.entry : HandleEvent → Entry UINT64
  | .opened file => .acquire file
  | .closed file => .release file

/-- From `s` to `s'`, each file that was opened was closed exactly once, and no other
    file was; of the pool, `left` was obtained and not freed, all else that was obtained
    was freed exactly once, and nothing else was freed. -/
structure Released (s s' : Machine ConfigVars) (left : Multiset Resource) : Prop where
  handles : ∃ log, s'.vars.handles = log ++ s.vars.handles ∧
    settle (log.map HandleEvent.entry) 0 = some 0
  pool : Holds s.trace s'.trace left

/-- When `parse_config` returns, only the buffer of the path is left, and nothing after
    an error. -/
def ParseReleases (fw : Firmware) (files : ConfigFiles) (imageHandle cfg : UINT64)
    (s : Machine ConfigVars) : Prop :=
  (∀ s', parseConfig fw files imageHandle cfg s = .ok () s' →
    Released s s' {.pool s'.vars.cfg.bootBinPath}) ∧
  ∀ e s', parseConfig fw files imageHandle cfg s = .error (.efi e) s' → Released s s' 0

section ParseReleases

variable {fw : Firmware} {files : ConfigFiles} {imageHandle cfg : UINT64}
  {s s' : Machine ConfigVars}

theorem parseReleases_ok_iff (run : parseConfig fw files imageHandle cfg s = .ok () s') :
    ParseReleases fw files imageHandle cfg s ↔
      Released s s' {.pool s'.vars.cfg.bootBinPath} := by
  simp [ParseReleases, run]

theorem parseReleases_error_iff {e : EfiError}
    (run : parseConfig fw files imageHandle cfg s = .error (.efi e) s') :
    ParseReleases fw files imageHandle cfg s ↔ Released s s' 0 := by
  simp [ParseReleases, run]

theorem parseReleases_of_fault (run : parseConfig fw files imageHandle cfg s = .error .fault s') :
    ParseReleases fw files imageHandle cfg s := by
  simp [ParseReleases, run]

end ParseReleases

/-- An open file has a size that is known and not zero, and what is read from it is
    released. -/
structure ReleaseCondition (fw : Firmware) (files : ConfigFiles) (imageHandle cfg : UINT64)
    (s : Machine ConfigVars) : Prop where
  size : ¬(imageHandle = 0 ∨ cfg = 0) → ∀ root cfgFile, files.Opens root cfgFile →
    (∃ info, fw.allocatePool s.trace fileInfoBufferSize = .ok info) ∧
      ∃ n, files.getInfo = .ok n ∧ n ≠ 0
  copies : ∀ c t, bufferConfig fw files imageHandle cfg s = .ok (some c) t →
    ReleasesCopies fw t c.buffer files.delivered

section Parse

variable {fw : Firmware} {files : ConfigFiles} {imageHandle cfg : UINT64}
  {s t t' u : Machine ConfigVars} {c : OpenedConfig} {left : Multiset Resource}

/-- The log of a file that is closed once. -/
theorem settle_closedOnce (root cfgFile : UINT64) :
    settle ((.closed cfgFile :: openedLog root cfgFile).map HandleEvent.entry) 0 = some 0 := by
  have opened : settle [.acquire cfgFile, .acquire root] 0 = some (root ::ₘ cfgFile ::ₘ 0) := by
    rw [Multiset.cons_swap]
    rfl
  exact settle_release (settle_release opened)

/-- A file that is closed twice. -/
theorem settle_closedTwice (root cfgFile : UINT64) :
    settle (([HandleEvent.closed cfgFile, .closed cfgFile] ++ openedLog root cfgFile).map
      HandleEvent.entry) 0 = none := by
  have twice : ([HandleEvent.closed cfgFile, .closed cfgFile] ++ openedLog root cfgFile).map
      HandleEvent.entry =
      .release cfgFile :: (.closed cfgFile :: openedLog root cfgFile).map HandleEvent.entry := rfl
  rw [twice, settle, settle_closedOnce]
  rfl

theorem settle_rootOnly (root : UINT64) :
    settle ([HandleEvent.closed root, .opened root].map HandleEvent.entry) 0 = some 0 := by
  have opened : settle [.acquire root] 0 = some (root ::ₘ 0) := rfl
  exact settle_release opened

theorem OpenFailed.released (h : OpenFailed files s t) : Released s t 0 := by
  cases h with
  | before none => exact ⟨⟨[], rfl, rfl⟩, .refl _⟩
  | rootOnly none => exact ⟨⟨_, rfl, settle_rootOnly _⟩, .refl _⟩

theorem info_holds (h : List Event) (info : UINT64) :
    Holds h (.freePool info :: .allocatePool fileInfoBufferSize (.ok info) :: h) 0 :=
  ((Holds.refl h).obtain (.allocatePool fileInfoBufferSize (.ok info)) rfl).free _ rfl

theorem Buffered.holds_buffer (h : Buffered fw files s c t) :
    Holds s.trace t.trace {.pool c.buffer} := by
  obtain ⟨info, size, _, _, trace⟩ := h.trace
  rw [trace]
  have granted := (info_holds s.trace info).obtain (.allocatePool size (.ok c.buffer)) rfl
  exact (granted.skip (.store c.buffer.toNat size.toNat) rfl).skip _ rfl

/-- The cleanup of `parse_config` closes the file and frees its buffer. -/
theorem Buffered.released_iff (h : Buffered fw files s c t) {bufs : List UINT64}
    (leftover : Leftover t t' bufs) (handles : u.vars.handles = .closed c.file :: t'.vars.handles)
    (trace : u.trace = .freePool c.buffer :: t'.trace) :
    Released s u left ↔ Holds t.trace t'.trace left := by
  have all := h.holds_buffer.trans leftover.holds
  rw [Multiset.singleton_add] at all
  have freed := all.free (.freePool c.buffer) rfl
  rw [← trace] at freed
  constructor
  · intro released
    rw [released.pool.unique freed]
    exact leftover.holds
  · intro holds
    obtain ⟨root, _, opened⟩ := h.opened
    refine ⟨⟨.closed c.file :: openedLog root c.file, ?_, settle_closedOnce root c.file⟩, ?_⟩
    · rw [handles, leftover.handles, opened]
      rfl
    · rw [holds.unique leftover.holds]
      exact freed

/-- What an error before `read_config` releases. -/
theorem BufferFailed.released_iff {e : EfiError} (h : BufferFailed fw files imageHandle cfg s (.efi e) t) :
    Released s t 0 ↔ (¬(imageHandle = 0 ∨ cfg = 0) → ∀ root cfgFile, files.Opens root cfgFile →
      (∃ info, fw.allocatePool s.trace fileInfoBufferSize = .ok info) ∧
        ∃ n, files.getInfo = .ok n ∧ n ≠ 0) := by
  -- a file that is closed twice
  have twice : ∀ {root cfgFile : UINT64} {s t : Machine ConfigVars}, t.vars.handles =
      ([.closed cfgFile, .closed cfgFile] ++ openedLog root cfgFile) ++ s.vars.handles →
      ¬Released s t 0 := by
    intro root cfgFile s t handles released
    obtain ⟨log, handles', settled⟩ := released.handles
    rw [← List.append_cancel_right (handles.symm.trans handles'), settle_closedTwice] at settled
    cases settled
  cases h with
  | parameter null =>
    exact ⟨fun _ nonnull => absurd null nonnull, fun _ => ⟨⟨[], rfl, rfl⟩, .refl _⟩⟩
  | opening failed =>
    refine ⟨fun _ _ root cfgFile opens => ?_, fun _ => failed.released⟩
    cases failed with
    | before none => exact absurd opens (none root cfgFile)
    | rootOnly none => exact absurd opens (none root cfgFile)
  | @noInfo e code root cfgFile nonnull opens refused =>
    refine ⟨fun released => absurd released (twice rfl), fun known => ?_⟩
    obtain ⟨⟨info, granted⟩, _⟩ := known nonnull root cfgFile opens
    cases refused.symm.trans granted
  | @noSize e code root cfgFile info nonnull opens unknown =>
    refine ⟨fun released => absurd released (twice rfl), fun known => ?_⟩
    obtain ⟨_, n, size, _⟩ := known nonnull root cfgFile opens
    cases unknown.symm.trans size
  | @noBuffer e code root cfgFile info size opens known =>
    refine ⟨fun _ _ _ _ _ => ⟨⟨info, known.1⟩, size, known.2⟩, fun _ => ?_⟩
    exact ⟨⟨_, rfl, settle_closedOnce root cfgFile⟩, (info_holds s.trace info).skip _ rfl⟩
  | @notRead e root cfgFile info buffer size m opens known =>
    refine ⟨fun _ _ _ _ _ => ⟨⟨info, known.1⟩, size, known.2⟩, fun _ => ?_⟩
    have granted := (info_holds s.trace info).obtain (.allocatePool size (.ok buffer)) rfl
    exact ⟨⟨_, rfl, settle_closedOnce root cfgFile⟩, (granted.skip _ rfl).free _ rfl⟩

/-- With the file in its buffer, what `read_config` releases decides. -/
theorem Buffered.parseReleases_iff (hfw : fw.SoundPool)
    (run : bufferConfig fw files imageHandle cfg s = .ok (some c) t)
    (inUse : headerStatus t.mem c.buffer (fileSize files.delivered) = .ok () →
      RegionInUse t c.buffer files.delivered) :
    ParseReleases fw files imageHandle cfg s ↔
      ReadReleases fw t c.buffer (fileSize files.delivered) := by
  have h := bufferConfig_some hfw run
  have leftover := readConfig_leftover hfw inUse
  have parse := parseConfig_of_buffered run
  rw [← h.size] at leftover ⊢
  cases finished fw h.file_ne with
  | @ok t' read finish =>
    rw [finish] at parse
    obtain ⟨bufs, left⟩ := wp_ok leftover read
    rw [parseReleases_ok_iff parse, readReleases_ok_iff read]
    exact h.released_iff left rfl rfl
  | @error t' e read finish =>
    rw [finish] at parse
    obtain ⟨bufs, left⟩ := (wp_error leftover read).resolve_left (by simp)
    rw [parseReleases_error_iff parse, readReleases_error_iff read]
    exact h.released_iff left rfl rfl
  | @fault t' read finish =>
    rw [finish] at parse
    exact iff_of_true (parseReleases_of_fault parse) (readReleases_of_fault read)

theorem releases_of_condition (hfw : fw.SoundPool)
    (condition : ReleaseCondition fw files imageHandle cfg s) :
    ParseReleases fw files imageHandle cfg s := by
  have spec := bufferConfig_spec hfw files s imageHandle cfg
  cases run : bufferConfig fw files imageHandle cfg s with
  | ok c t =>
    cases c with
    | none =>
      obtain ⟨nonnull, empty, root, cfgFile, info, opens, rfl⟩ := wp_ok spec run
      obtain ⟨_, n, size, n_ne⟩ := condition.size nonnull root cfgFile opens
      cases empty.symm.trans size
      exact absurd rfl n_ne
    | some c =>
      have releases := condition.copies c t run
      exact (Buffered.parseReleases_iff hfw run fun status => (releases status).1).mpr
        (readReleases_of hfw releases)
  | error e t =>
    have failed := wp_error spec run
    cases e with
    | fault => exact parseReleases_of_fault (parseConfig_of_failed run)
    | efi e =>
      rw [parseReleases_error_iff (parseConfig_of_failed run), failed.released_iff]
      exact condition.size

theorem condition_of_releases (hfw : fw.SoundPool)
    (inUse : ParseRegionInUse fw files imageHandle cfg s)
    (returns : ∀ t, parseConfig fw files imageHandle cfg s ≠ .error .fault t)
    (releases : ParseReleases fw files imageHandle cfg s) :
    ReleaseCondition fw files imageHandle cfg s := by
  have spec := bufferConfig_spec hfw files s imageHandle cfg
  cases run : bufferConfig fw files imageHandle cfg s with
  | ok c t =>
    cases c with
    | none =>
      -- a success without a buffer
      obtain ⟨_, _, root, cfgFile, info, _, rfl⟩ := wp_ok spec run
      rw [parseReleases_ok_iff (parseConfig_of_buffered run)] at releases
      have one := releases.pool.unique (info_holds s.trace info)
      cases congrArg Multiset.card one
    | some c =>
      have h := bufferConfig_some hfw run
      have reads := (Buffered.parseReleases_iff hfw run fun _ => inUse c t run).mp releases
      refine ⟨fun _ _ _ _ => ?_, fun c' t' run' status => ?_⟩
      · obtain ⟨info, _, granted, _⟩ := h.trace
        exact ⟨⟨info, granted⟩, h.nonempty⟩
      · cases run.symm.trans run'
        refine ⟨inUse c t run, (readReleases_iff hfw (inUse c t run) status ?_).mp reads⟩
        intro u fault
        rw [← h.size] at fault
        cases finished fw h.file_ne with
        | ok read _ => cases fault.symm.trans read
        | error read _ => cases fault.symm.trans read
        | fault read finish =>
          exact returns _ ((parseConfig_of_buffered run).trans finish)
  | error e t =>
    cases e with
    | fault => exact absurd (parseConfig_of_failed run) (returns t)
    | efi e =>
      have failed := wp_error spec run
      have released := (parseReleases_error_iff (parseConfig_of_failed run)).mp releases
      refine ⟨failed.released_iff.mp released, fun c u run' => ?_⟩
      cases run.symm.trans run'

end Parse

/-- `parse_config`, when it returns, has released what it acquired exactly if an open
    file has a size that is known and not zero, and the paths in it are balanced.  The
    condition is also enough where `parse_config` does not return. -/
theorem releases_iff {fw : Firmware} (hfw : fw.SoundPool) (files : ConfigFiles)
    (imageHandle cfg : UINT64) (s : Machine ConfigVars) :
    (ReleaseCondition fw files imageHandle cfg s → ParseReleases fw files imageHandle cfg s) ∧
    (ParseRegionInUse fw files imageHandle cfg s →
      (∀ t, parseConfig fw files imageHandle cfg s ≠ .error .fault t) →
      (ParseReleases fw files imageHandle cfg s ↔
        ReleaseCondition fw files imageHandle cfg s)) :=
  ⟨releases_of_condition hfw, fun inUse returns =>
    ⟨condition_of_releases hfw inUse returns, releases_of_condition hfw⟩⟩

/-! ## Files that are closed twice and paths that are lost -/

/-- A firmware that opens the file but gives no information about it. -/
def unknownSize : ConfigFiles := { ConfigFiles.holding [] with getInfo := .error (efierr 7) }

/-- Two BOOT_PATH records. -/
def twoPaths : List Byte := encodeOption bootPath [0, 0] ++ encodeOption bootPath [0, 0]

/-- A file with two paths. -/
def twoPathsConfig : List Byte :=
  encodeHeader (crc32 twoPaths 0xFFFFFFFF) [0, 0, 0, 0, 0, 0, 0] 24 ++ twoPaths

theorem closed_twice_and_path_lost :
    (Firmware.bump (2 ^ 52)).SoundPool ∧
    ¬ParseReleases (Firmware.bump (2 ^ 52)) unknownSize 1 1 freshMachine ∧
    ¬ParseReleases (Firmware.bump (2 ^ 52)) (.holding twoPathsConfig) 1 1 freshMachine := by
  refine ⟨Firmware.bump_soundPool _ (by decide), fun releases => ?_, fun releases => ?_⟩
  · have run := eq_error_of_stopOf (x := parseConfig (Firmware.bump (2 ^ 52)) unknownSize 1 1)
      (s := freshMachine) (e := .efi (efierr 7)) (by decide +kernel)
    obtain ⟨log, handles, settled⟩ := (releases.2 _ _ run).handles
    rw [show freshMachine.vars.handles = [] from rfl, List.append_nil] at handles
    rw [← handles] at settled
    exact absurd settled (by decide +kernel)
  · have run := eq_ok_of_succeeds
      (x := parseConfig (Firmware.bump (2 ^ 52)) (.holding twoPathsConfig) 1 1)
      (s := freshMachine) (by decide +kernel)
    obtain ⟨evs, trace, settled⟩ := (releases.1 _ run).pool
    rw [show freshMachine.trace = [] from rfl, List.append_nil] at trace
    rw [← trace] at settled
    exact absurd settled (by decide +kernel)

/-- One terminated path. -/
def onePathConfig : List Byte :=
  encodeHeader (crc32 (encodeOption bootPath [0, 0]) 0xFFFFFFFF) [0, 0, 0, 0, 0, 0, 0] 24 ++
    encodeOption bootPath [0, 0]

theorem releases_iff_one_path :
    ParseReleases (Firmware.bump (2 ^ 52)) (.holding onePathConfig) 1 1 freshMachine := by
  have hfw := Firmware.bump_soundPool (2 ^ 52) (by decide)
  refine (releases_iff hfw _ 1 1 freshMachine).1 ⟨fun _ _ _ _ => ?_, fun c t run _ => ?_⟩
  · exact ⟨⟨0x1000, by decide +kernel⟩, 40, rfl, by decide⟩
  · have holds := (bufferConfig_some hfw run).holds
    have same := eq_ok_of_resultOf (x := bufferConfig (Firmware.bump (2 ^ 52)) (.holding onePathConfig) 1 1)
      (s := freshMachine) (a := some ⟨0x40, 0x2000, 40⟩) (by decide +kernel)
    cases run.symm.trans same
    exact ⟨holds.regionInUse (by decide +kernel), Or.inr (Or.inl (by decide +kernel))⟩

end MidnightOS.Nyxboot
