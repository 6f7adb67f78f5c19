import MidnightOS.Nyxboot.MainLabels

/-! # `load_boot_bin`

Which file is loaded, what is left in the pool where the load fails, and that the files are
closed on every way out.
-/

namespace MidnightOS.Nyxboot

open MidnightOS.Lib

/-! ## The search for the partition -/

section Search

variable {bs : FsServices}

/-- The search obtains and frees no memory of the trace. -/
theorem findRound_traces (guid : Nat) (handles : UINT64) (i : Nat) (handle : UINT64) :
    Traces (fun _ => False) (findRound bs guid handles i handle) := by
  have record : ∀ c, Traces (fun _ => False) (recordFsCall c) := fun c s => ⟨[], rfl, by simp⟩
  have call : ∀ protocol, Traces (fun _ => False) (callHandleProtocol bs i handle protocol) :=
    fun protocol => (record _).bind fun _ => .pure _
  refine (call .devicePath).bind fun answer => ?_
  cases answer with
  | error e => exact .pure _
  | ok dp =>
    refine .ite (.pure _) (Traces.get.bind fun s => ?_)
    cases matchNodeGuid s.mem dp.toNat guid with
    | none => exact .throw _
    | some found =>
      cases found with
      | false => exact .pure _
      | true =>
        refine (call .simpleFileSystem).bind fun answer => ?_
        cases answer with
        | error e => exact .pure _
        | ok sfs => exact .ite (.pure _) (.bind (fun s => ⟨[], rfl, by simp⟩) fun _ =>
            (record _).bind fun _ => .pure _)

theorem findLoop_traces (guid : Nat) (handles : UINT64) (i : Nat) (rest : List UINT64) :
    Traces (fun _ => False) (findLoop bs guid handles i rest) := by
  induction rest generalizing i with
  | nil => exact .bind (fun s => ⟨[], rfl, by simp⟩) fun _ => .throw _
  | cons handle rest ih =>
    exact (findRound_traces guid handles i handle).bind fun _ => .ite (.pure _) (ih (i + 1))

theorem findFilesystemForGuid_traces (guid handle filesystem : UINT64) :
    Traces (fun _ => False) (findFilesystemForGuid bs guid handle filesystem) := by
  refine .bind .returnIf fun _ => Traces.get.bind fun s => .bind .returnIf fun _ =>
    .bind .returnIf fun _ => .bind .returnIf fun _ => .bind (fun s => ⟨[], rfl, by simp⟩) fun _ => ?_
  cases bs.locateHandleBuffer with
  | error e => exact .throw _
  | ok found => exact findLoop_traces _ _ _ _

theorem Grows.nothing {σ : Type} {s s' : Machine σ} (grows : Grows (fun _ => False) s s') :
    s'.trace = s.trace := by
  obtain ⟨evs, trace, none⟩ := grows
  rw [trace, List.eq_nil_iff_forall_not_mem.mpr none, List.nil_append]

end Search

/-! ## Files -/

/-- Since `log`, each file that was opened was closed exactly once. -/
def ClosedOnce (log log' : List HandleEvent) : Prop :=
  ∃ new, log' = new ++ log ∧ settle (new.map HandleEvent.entry) 0 = some 0

/-- The log of a root directory and a file in it. -/
def nestedLog (root file : UINT64) : List HandleEvent :=
  [.closed root, .closed file, .opened file, .opened root]

theorem nestedLog_settles (root file : UINT64) :
    settle ((nestedLog root file).map HandleEvent.entry) 0 = some 0 := by
  have opened : settle [.acquire file, .acquire root] 0 = some (file ::ₘ root ::ₘ 0) := rfl
  exact settle_release (settle_release opened)

section Load

variable {p : Platform} {s : Machine MainVars}

/-- What was loaded from the partition, and from which file. -/
structure LoadedFile (p : Platform) (s s' : Machine MainVars) (bin : UINT64 × EfiFile)
    (t : Machine ElfVars) : Prop where
  opened : p.openFile s.mem s.vars.config.cfg.bootBinPath = .ok bin
  load : elfLoadFile p.fw bin.2 .discontig ⟨s.mem, s.trace, { s.vars.elf with position := 0 }⟩ =
    .ok () t
  mem : s'.mem = t.mem
  trace : s'.trace = t.trace
  vars : s'.vars = { s.vars with elf := t.vars, handles := s'.vars.handles }

theorem loadFromPartition_spec (pool : p.fw.SoundPool) :
    wp (loadFromPartition p)
      (fun _ s' => ClosedOnce s.vars.handles s'.vars.handles ∧ ∃ bin t, LoadedFile p s s' bin t)
      (fun stop s' => ∀ e, stop = .efi e → ClosedOnce s.vars.handles s'.vars.handles ∧
        s'.vars = { s.vars with elf := s'.vars.elf, handles := s'.vars.handles } ∧
        ∃ runs, Holds s.trace s'.trace runs) s := by
  simp only [loadFromPartition, callOpenVolume, wp_bind, wp_get]
  cases root : p.openVolume s.vars.partition.filesystem with
  | error e =>
    rw [wp_throw]
    exact fun _ _ => ⟨⟨[], rfl, rfl⟩, rfl, 0, .refl _⟩
  | ok bootRoot =>
    simp only [wp_bind, wp_recordHandle, wp_pure, wp_onError, callOpen, wp_get, wp_faultIf]
    refine ⟨fun _ => fun e fault => (by cases fault), fun _ => ?_⟩
    cases opened : p.openFile s.mem s.vars.config.cfg.bootBinPath with
    | error e =>
      simp only [wp_throw]
      exact fun _ _ => ⟨⟨[.closed bootRoot, .opened bootRoot], rfl, settle_rootOnly _⟩, trivial, 0,
        .refl _⟩
    | ok bootBinary =>
      simp only [wp_bind, wp_recordHandle, wp_faultIf, wp_modify, wp_pure, wp_inElf]
      refine ⟨fun _ => fun e fault => (by cases fault), fun _ => ?_⟩
      refine wp_mono (wp_and (wp_run _ _) (elfLoadFileDiscont_holds pool)) ?_ ?_
      · rintro _ t ⟨load, -⟩
        exact ⟨⟨nestedLog bootRoot bootBinary.1, rfl, nestedLog_settles _ _⟩, bootBinary, t, opened,
          load, rfl, rfl, rfl⟩
      · rintro stop t ⟨-, left⟩
        cases stop with
        | fault => exact fun e fault => by cases fault
        | efi e =>
          obtain ⟨runs, holds, -⟩ := left e rfl
          simp only [wp_throw]
          exact fun _ _ => ⟨⟨nestedLog bootRoot bootBinary.1, rfl, nestedLog_settles _ _⟩, trivial,
            runs, holds⟩

/-- The configuration is read, and the file that it names is loaded. -/
structure LoadedBoot (p : Platform) (imageHandle : UINT64) (l : Locals) (s s' : Machine MainVars)
    (t : Machine ConfigVars) (bin : UINT64 × EfiFile) (u : Machine ElfVars) : Prop where
  config : parseConfig p.fw p.config imageHandle l.bootConfig ⟨s.mem, s.trace, s.vars.config⟩ =
    .ok () t
  opened : p.openFile t.mem t.vars.cfg.bootBinPath = .ok bin
  load : elfLoadFile p.fw bin.2 .discontig ⟨t.mem, t.trace, { s.vars.elf with position := 0 }⟩ =
    .ok () u
  mem : s'.mem = u.mem
  trace : s'.trace = u.trace
  vars : s'.vars = { s.vars with
    config := t.vars, partition := s'.vars.partition, elf := u.vars, handles := s'.vars.handles }

/-- An error is one of `parse_config`, or it is one after that. -/
structure BootFailed (p : Platform) (imageHandle : UINT64) (l : Locals) (s s' : Machine MainVars)
    (e : EfiError) : Prop where
  closed : ClosedOnce s.vars.handles s'.vars.handles
  handover : s'.vars.handover = s.vars.handover
  stage : (∃ t, parseConfig p.fw p.config imageHandle l.bootConfig ⟨s.mem, s.trace, s.vars.config⟩ =
      .error (.efi e) t ∧ s'.trace = t.trace ∧ s'.vars.config = t.vars) ∨
    ∃ t runs, parseConfig p.fw p.config imageHandle l.bootConfig ⟨s.mem, s.trace, s.vars.config⟩ =
      .ok () t ∧ Holds t.trace s'.trace runs ∧ s'.vars.config = t.vars

theorem loadBootBin_spec {imageHandle : UINT64} {l : Locals} (pool : p.fw.SoundPool) :
    wp (loadBootBin p imageHandle l)
      (fun _ s' => ClosedOnce s.vars.handles s'.vars.handles ∧
        ∃ t bin u, LoadedBoot p imageHandle l s s' t bin u)
      (fun stop s' => ∀ e, stop = .efi e → BootFailed p imageHandle l s s' e) s := by
  simp only [loadBootBin, wp_bind, wp_inConfig]
  refine wp_mono (wp_run _ _) ?_ ?_
  · rintro _ t config
    rw [wp_inPartition]
    refine wp_mono (findFilesystemForGuid_traces _ _ _ _) ?_ ?_
    · rintro _ t' grows
      have same := grows.nothing
      dsimp only at same
      rw [same]
      refine wp_mono (loadFromPartition_spec pool) ?_ ?_
      · rintro _ s' ⟨closed, bin, u, loaded⟩
        exact ⟨closed, t, bin, u, config, loaded.opened, loaded.load, loaded.mem, loaded.trace,
          by rw [loaded.vars]⟩
      · rintro stop s' left e rfl
        obtain ⟨closed, vars, runs, holds⟩ := left e rfl
        exact ⟨closed, by rw [vars], .inr ⟨t, runs, config, holds, by rw [vars]⟩⟩
    · rintro stop t' grows e rfl
      have same := grows.nothing
      dsimp only at same
      refine ⟨⟨[], rfl, rfl⟩, rfl, .inr ⟨t, 0, config, ?_, rfl⟩⟩
      rw [same]
      exact .refl _
  · rintro stop t config e rfl
    exact ⟨⟨[], rfl, rfl⟩, rfl, .inl ⟨t, config, rfl, rfl⟩⟩

end Load

end MidnightOS.Nyxboot
