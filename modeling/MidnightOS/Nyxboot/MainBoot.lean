import MidnightOS.Nyxboot.ConfigAccepts
import MidnightOS.Nyxboot.MainLoad
import MidnightOS.Nyxboot.MainStages

/-! # Runs of `efi_main`

Either the kernel is entered, and then it finds the tables, its own segments and the boot information
where they should be, or `efi_main` returns and has given back what it obtained.
-/

namespace MidnightOS.Nyxboot

open MidnightOS.Lib MidnightOS.Lib.HeapTrie

/-! ## After the load -/

section Boot

variable {p : Platform} {s : Machine MainVars} {s₀ : Machine MainVars} {held : Multiset Resource}

/-- With the tables built, the kernel is entered, or all is freed. -/
theorem tablesBuilt_spec {m : MemoryMap} {pml4 : UINT64} {frames : List Nat} (sound : p.Sound)
    (tables : TablesBuilt m pml4 frames s) (map : MapHeld m s)
    (sections : ∀ sec ∈ s.vars.elf.info.sectionInfos, sec.reqVirt.toNat % 4096 = 0)
    (running : Running s₀ ((frames.map frameResource : Multiset Resource) +
      (.pages pml4 1 ::ₘ .pool s.vars.handover.memMap.descs ::ₘ held)) s) :
    wp (do
      let bootInfo ← onError (Build.biBuildBootinfo p.fw s.vars.elf.info) (errFreePageTables p pml4)
      leaveFirmware p pml4 bootInfo s.vars.elf.info.entry)
      (fun ending s' => s'.vars = { s.vars with handover := s'.vars.handover } ∧
        ∀ cr3 rdi rip, ending = .jump cr3 rdi rip →
          rip = s.vars.elf.info.entry ∧ KernelFinds cr3 rdi s.vars.elf.info s' ∧
          ∀ x, InUse s.trace x → ¬s.vars.InMap x → s'.mem x = s.mem x)
      (Returns s₀ held) s := by
  have aligned := tables.aligned
  rw [wp_bind, wp_onError]
  refine wp_mono (info_stage sound map running) ?_ ?_
  · rintro _ t ⟨b, rfl, info, used, map', vars, kept⟩
    have count : t.vars.elf.info.sectionCount.toNat = t.vars.elf.info.sectionInfos.length := by
      rw [vars]
      exact running.sections.count
    refine wp_mono (leaveFirmware_spec sound map' info count used) ?_ (fun _ _ h => h.elim)
    rintro ending u ⟨vars', left⟩
    rw [vars] at vars'
    refine ⟨vars', fun cr3 rdi rip jump => ?_⟩
    obtain ⟨rfl, rfl, rfl, handed⟩ := left cr3 rdi rip jump
    have frame : ∀ x, InUse s.trace x → ¬s.vars.InMap x → u.mem x = s.mem x := by
      intro x inUse outside
      obtain ⟨inUse', same, apart⟩ := kept x inUse
      rw [← same]
      refine handed.frame x inUse' ?_ (apart _ (by simp [BootBuffers.list]))
        (apart _ (by simp [BootBuffers.list]))
      rwa [vars]
    obtain ⟨n, buffer, delivered⟩ := map'.delivered
    obtain ⟨evs, calls⟩ := handed.calls
    have information := handed.information info count used
    rw [vars] at information
    refine ⟨rfl, ⟨aligned, ⟨m, ⟨n, buffer, ?_⟩, ?_⟩, sections, b, rfl, handed.accepted, information⟩,
      frame⟩
    · rw [calls]
      exact List.mem_append_right _ delivered
    · rw [← tables.space]
      exact (tables.tables.of_same fun x hx =>
        frame x (tables.tables.held _ hx x rfl) (tables.apart x hx)).2
  · rintro stop t ⟨running', vars, same⟩
    cases stop with
    | fault => exact fun e fault => by cases fault
    | efi e =>
      refine errFreePageTables_returns (by omega) (tables.tables.of_same fun x hx =>
        same x (tables.tables.held _ hx x rfl)).1 ?_
      rwa [vars]

/-- After the load, the kernel is entered, or all is given back, also what the load obtained. -/
theorem bootLoaded_spec (sound : p.Sound) (sections : HasSections s.vars.elf.info)
    (stays : ∀ c ∈ s.vars.handover.calls, ¬c.IsExit) (zero : s.vars.handover.memMap.size = 0) :
    wp (bootLoaded p)
      (fun ending s' => s'.vars = { s.vars with handover := s'.vars.handover } ∧
        ∀ cr3 rdi rip, ending = .jump cr3 rdi rip →
          rip = s.vars.elf.info.entry ∧ KernelFinds cr3 rdi s.vars.elf.info s' ∧
          ∀ x, InUse s.trace x → s'.mem x = s.mem x)
      (Returns s 0) s := by
  have running := Running.start sections stays
  rw [bootLoaded, wp_bind, wp_onError]
  refine wp_mono (getMap_stage sound running zero) ?_ ?_
  · rintro _ t₁ ⟨running₁, ⟨m, map₁⟩, kept₁⟩
    have elf₁ : t₁.vars.elf = s.vars.elf := by rw [running₁.vars]
    rw [wp_bind, wp_onError]
    refine wp_mono (pml4_stage sound map₁ running₁) ?_ ?_
    · rintro pml4 t₂ ⟨zeroed, undisturbed, fresh, running₂, map₂, vars₂⟩
      have aligned := zeroed.aligned
      have fresh₂ : ∀ x, x / 4096 = pml4.toNat / 4096 → ¬t₂.vars.InMap x := by
        rw [vars₂]
        exact fun x page inside => fresh x page (map₁.used inside)
      rw [wp_bind, wp_onError]
      refine wp_mono (map_stage sound map₂ running₂ zeroed fresh₂) ?_ ?_
      · rintro _ t₃ ⟨aligned₃, frames, tables, map₃, running₃, vars₃, kept₃⟩
        rw [← vars₂, ← vars₃] at running₃
        rw [← vars₃] at aligned₃
        rw [wp_bind, wp_get]
        refine wp_mono (tablesBuilt_spec sound tables map₃ aligned₃ running₃) ?_ (fun _ _ h => h)
        rintro ending u ⟨vars, left⟩
        rw [vars₃, vars₂, running₁.vars] at vars
        refine ⟨vars, fun cr3 rdi rip jump => ?_⟩
        obtain ⟨entry, finds, frame⟩ := left cr3 rdi rip jump
        rw [vars₃, vars₂, elf₁] at entry finds
        refine ⟨entry, finds, fun x inUse => ?_⟩
        obtain ⟨inUse₁, same₁, outside⟩ := kept₁ x inUse
        obtain ⟨inUse₃, same₃⟩ := kept₃ x (undisturbed.kept x inUse₁)
        rw [frame x inUse₃ (by rwa [vars₃, vars₂]), same₃ fun page => fresh x page inUse₁,
          undisturbed.same x inUse₁, same₁]
      · rintro stop t₃ ⟨frames, trie, running₃, vars₃⟩
        cases stop with
        | fault => exact fun e fault => by cases fault
        | efi e =>
          rw [← vars₂, ← vars₃] at running₃
          exact errFreePageTables_returns (by omega) trie running₃
    · rintro stop t₂ ⟨running₂, vars₂⟩
      cases stop with
      | fault => exact fun e fault => by cases fault
      | efi e =>
        rw [← vars₂] at running₂
        exact errFreeMap_returns running₂
  · rintro stop t₁ ⟨noFault, running₁⟩
    cases stop with
    | fault => exact absurd rfl noFault
    | efi e => exact errFreeLoadedBin_returns running₁

end Boot

/-! ## A platform that boots -/

/-- Boot services that hand out memory as `Firmware.bump` does. -/
def BootServices.bump (limit count : Nat) (h : List Event) : BootServices :=
  { BootServices.steady count with
    allocatePool := fun calls n => bumpGrant limit (poolEvents calls ++ h) n.toNat }

theorem BootServices.bump_documented (limit count : Nat) (h : List Event) :
    (bump limit count h).Documented :=
  ⟨(steady_documented count).query, (steady_documented count).fits, (steady_documented count).stride⟩

theorem BootServices.bump_fresh {limit : Nat} (hlimit : limit ≤ 2 ^ 52) (count : Nat) (h : List Event)
    (calls : List BootCall) : (bump limit count h).Fresh h calls := by
  intro evs n a granted x inside used
  obtain ⟨start, -⟩ := bumpGrant_ok hlimit granted
  have top : topOf (poolEvents evs ++ h) ≤ topOf (poolEvents (evs ++ calls) ++ h) := by
    rw [topOf_append, topOf_append, poolEvents, poolEvents, List.filterMap_append, topOf_append]
    omega
  have below := inUse_lt_nextPage used
  have low := inside.1
  rw [nextPage] at start below
  dsimp only at low
  omega

/-- A disk at 0x200, with the GUID of `completeConfig`. -/
def diskMemory : Mem :=
  blit (fun _ => 0) 0x200 ([0x04, 0x01, 42, 0] ++ List.replicate 20 0 ++
    EfiGuid.bytes ⟨1, 2, 3, 4⟩ ++ [0x02, 0x02, 0x7F, 0xFF])

def sampleLocals : Locals := ⟨0x300, 0x10, 0x18, by decide, by decide, by decide⟩

/-- A machine with `limit` bytes of memory, one disk, and one program. -/
def samplePlatform (limit : Nat) : Platform where
  fw := .bump limit
  services := .bump limit 2
  config := .holding completeConfig
  partition := ⟨.ok ⟨0x8000, [2]⟩, fun _ handle _ => .ok (handle * 0x100)⟩
  openVolume _ := .ok 0x50
  openFile _ _ := .ok (0x60, sampleElf)

theorem samplePlatform_sound {limit : Nat} (hlimit : limit ≤ 2 ^ 52) : (samplePlatform limit).Sound where
  pages := Firmware.bump_soundPages limit hlimit
  pool := Firmware.bump_soundPool limit hlimit
  documented := BootServices.bump_documented limit 2
  fresh h calls := BootServices.bump_fresh hlimit 2 h calls
  small h calls r answer := by
    cases answer
    decide

def bootMachine : Machine MainVars where
  mem := diskMemory
  trace := []
  vars := ⟨⟨⟨⟨0, 0, 0, 0⟩, 0⟩, []⟩, ⟨0, 0, []⟩, ⟨0, ⟨0, 0, 0, []⟩⟩,
    ⟨[], ⟨0, 0, 0, 0⟩, 0, ⟨0, 0, 0, 0, 0⟩⟩, []⟩

def bootedMachine : Machine MainVars :=
  after (efiMain (samplePlatform (2 ^ 30)) 1 sampleLocals) bootMachine

/-- The machine when the tables do not fit. -/
def fullBootMachine : Machine MainVars :=
  after (efiMain (samplePlatform 0xD000) 1 sampleLocals) bootMachine

theorem fullBootMachine_eq : efiMain (samplePlatform 0xD000) 1 sampleLocals bootMachine =
    .error (.efi .outOfResources) fullBootMachine :=
  eq_error_of_stopOf (by decide +kernel)

theorem samplePlatform_releases :
    ReleaseCondition (samplePlatform 0xD000).fw (samplePlatform 0xD000).config 1 0x300
      ⟨bootMachine.mem, bootMachine.trace, bootMachine.vars.config⟩ := by
  refine ⟨fun _ _ _ _ => ⟨⟨0x1000, by decide +kernel⟩, 72, rfl, by decide⟩, fun c t run _ => ?_⟩
  have holds := (bufferConfig_some (Firmware.bump_soundPool 0xD000 (by decide)) run).holds
  have same := eq_ok_of_resultOf (x := bufferConfig (samplePlatform 0xD000).fw (samplePlatform 0xD000).config 1 0x300)
    (s := ⟨bootMachine.mem, bootMachine.trace, bootMachine.vars.config⟩)
    (a := some ⟨0x40, 0x2000, 72⟩) (by decide +kernel)
  cases run.symm.trans same
  exact ⟨holds.regionInUse (by decide +kernel), Or.inr (Or.inl (by decide +kernel))⟩

/-! ## Whole runs -/

/-- There is no memory map yet, and nothing was asked of the boot services. -/
structure MainVars.Start (vars : MainVars) : Prop where
  size : vars.handover.memMap.size = 0
  calls : vars.handover.calls = []

/-- No two segments have a page in common. -/
def EfiFile.SegmentsApart (file : EfiFile) : Prop :=
  (loadable file.phdrs).Pairwise fun phdr phdr' => ∀ n j k, phdr.PageAt n j → ¬phdr'.PageAt n k

/-- Through the tables at `cr3` each byte of each segment is where its program header wants it, if
its page is not mapped over by a later page of the segment. -/
def EfiFile.SeenThrough (file : EfiFile) (mem : Mem) (cr3 : UINT64) : Prop :=
  ∀ phdr ∈ loadable file.phdrs, ∀ b < phdr.pMemsz.toNat,
    (segmentPages phdr).toNat ≤ b / 4096 + 2 ^ 36 →
      ∃ a, translate mem cr3 (phdr.pVaddr + BitVec.ofNat 64 b) = some a ∧
        mem a.toNat = if b < phdr.pFilesz.toNat then file.byte (phdr.pOffset.toNat + b) else 0

section Runs

variable {p : Platform} {imageHandle : UINT64} {l : Locals} {s s' : Machine MainVars}

/-- How `efi_main` ends where it does not return: the load succeeded. -/
structure Ended (p : Platform) (imageHandle : UINT64) (l : Locals) (s s' : Machine MainVars)
    (ending : MainEnding) (t : Machine ConfigVars) (bin : UINT64 × EfiFile) (u : Machine ElfVars) :
    Prop where
  loaded : ∃ s₁, LoadedBoot p imageHandle l s s₁ t bin u
  config : s'.vars.config = t.vars
  closed : ClosedOnce s.vars.handles s'.vars.handles
  jump : ∀ cr3 rdi rip, ending = .jump cr3 rdi rip → rip = u.vars.info.entry ∧
    KernelFinds cr3 rdi u.vars.info s' ∧ ∀ x, InUse u.trace x → s'.mem x = u.mem x

/-- An error before the load is done, or one after it. -/
def Failed (p : Platform) (imageHandle : UINT64) (l : Locals) (s s' : Machine MainVars)
    (e : EfiError) : Prop :=
  loadBootBin p imageHandle l s = .error (.efi e) s' ∧ BootFailed p imageHandle l s s' e ∨
    ∃ s₁ t bin u, LoadedBoot p imageHandle l s s₁ t bin u ∧
      ClosedOnce s.vars.handles s₁.vars.handles ∧ Returns s₁ 0 (.efi e) s'

theorem efiMain_spec (sound : p.Sound) (start : s.vars.Start) :
    wp (efiMain p imageHandle l)
      (fun ending s' => ∃ t bin u, Ended p imageHandle l s s' ending t bin u)
      (fun stop s' => ∀ e, stop = .efi e → Failed p imageHandle l s s' e) s := by
  rw [efiMain, wp_bind]
  refine wp_mono (wp_and (wp_run _ _) (loadBootBin_spec sound.pool)) ?_ ?_
  · rintro _ s₁ ⟨-, closed, t, bin, u, loaded⟩
    have handover : s₁.vars.handover = s.vars.handover := by rw [loaded.vars]
    have elf : s₁.vars.elf = u.vars := by rw [loaded.vars]
    have config : s₁.vars.config = t.vars := by rw [loaded.vars]
    obtain ⟨sections, -⟩ := wp_ok (elfLoadFileDiscont_held sound.pool) loaded.load
    rw [← elf] at sections
    refine wp_mono (bootLoaded_spec sound sections ?_ (by rw [handover, start.size])) ?_ ?_
    · rw [handover, start.calls]
      simp
    · rintro ending s' ⟨vars, jump⟩
      refine ⟨t, bin, u, ⟨s₁, loaded⟩, by rw [vars, config], by rwa [vars], fun cr3 rdi rip ends => ?_⟩
      obtain ⟨entry, finds, same⟩ := jump cr3 rdi rip ends
      rw [elf] at entry finds
      rw [loaded.mem, loaded.trace] at same
      exact ⟨entry, finds, same⟩
    · rintro stop s' returns e rfl
      exact .inr ⟨s₁, t, bin, u, loaded, closed, returns⟩
  · rintro stop s' ⟨run, failed⟩ e rfl
    exact .inl ⟨run, failed e rfl⟩

/-- The segments that were loaded are seen through the tables. -/
theorem KernelFinds.seenThrough {fw : Firmware} {file : EfiFile} {s₀ u : Machine ElfVars}
    {cr3 rdi : UINT64} (finds : KernelFinds cr3 rdi u.vars.info s') (pages : fw.SoundPages)
    (load : elfLoadFile fw file .discontig s₀ = .ok () u) (opened : s₀.vars.position = 0)
    (same : ∀ x, InUse u.trace x → s'.mem x = u.mem x) (wellFormed : file.WellFormed)
    (apart : file.SegmentsApart) : u.vars.info.entry = file.ehdr.eEntry ∧ file.SeenThrough s'.mem cr3 := by
  obtain ⟨t₀, ehdr, phdrs, table, _, hinfo, _, fitting⟩ := elfLoadFileDiscont_ok pages load
  obtain ⟨hehdr, hphdrs⟩ := hinfo.of_headersInside wellFormed.toHeadersInside opened
  have hloaded := fitting (hphdrs ▸ fun _ hphdr => wellFormed.segmentFits hphdr)
  have held := hloaded.held.sections
  rw [EfiFile.image, hphdrs, List.forall₂_map_left_iff] at held
  obtain ⟨m, -, space⟩ := finds.space
  refine ⟨?_, fun phdr hphdr b hb last => ?_⟩
  · rw [hloaded.held.entry, ← hehdr]
    rfl
  have frame := finds.aligned
  have vaddr : phdr.pVaddr.toNat % 4096 = 0 := by
    obtain ⟨_, _, before, sec, after, _, secs, hsec, _⟩ := forall₂_split held hphdr
    rw [show phdr.pVaddr = sec.reqVirt from hsec.reqVirt.symm]
    refine finds.sections sec ?_
    rw [secs]
    exact List.mem_append_right _ List.mem_cons_self
  have pages := wellFormed.memsz_le hphdr
  have bound := phdr.pMemsz.isLt
  have toNat : (phdr.pVaddr + BitVec.ofNat 64 b).toNat = (phdr.pVaddr.toNat + b) % 2 ^ 64 := by
    rw [BitVec.toNat_add, BitVec.toNat_ofNat, Nat.add_mod_mod]
  have page : phdr.PageAt ((phdr.pVaddr + BitVec.ofNat 64 b).toNat / 4096) (b / 4096) := by
    refine ⟨by omega, ?_⟩
    rw [toNat]
    omega
  obtain ⟨a, walk, byte⟩ := segment_page (hloaded.run.of_fileInfo hinfo) held apart (by omega) space
    same hphdr page last
  refine ⟨a, walk, ?_⟩
  have offset : 4096 * (b / 4096) + (phdr.pVaddr + BitVec.ofNat 64 b).toNat % 4096 = b := by
    rw [toNat]
    omega
  rw [byte, offset, wellFormed.contents hphdr]

/-- Where the kernel is entered, it is the program that the configuration names: the tables show its
segments, and `rdi` leads to the boot information. -/
theorem efiMain_enters (sound : p.Sound) (start : s.vars.Start) {cr3 rdi rip : UINT64}
    (run : efiMain p imageHandle l s = .ok (.jump cr3 rdi rip) s') :
    ∃ t handle file u,
      parseConfig p.fw p.config imageHandle l.bootConfig ⟨s.mem, s.trace, s.vars.config⟩ = .ok () t ∧
      p.openFile t.mem t.vars.cfg.bootBinPath = .ok (handle, file) ∧
      elfLoadFile p.fw file .discontig ⟨t.mem, t.trace, { s.vars.elf with position := 0 }⟩ = .ok () u ∧
      KernelFinds cr3 rdi u.vars.info s' ∧
      (file.WellFormed → file.SegmentsApart → rip = file.ehdr.eEntry ∧ file.SeenThrough s'.mem cr3) := by
  obtain ⟨t, ⟨handle, file⟩, u, ⟨s₁, loaded⟩, -, -, jump⟩ := wp_ok (efiMain_spec sound start) run
  obtain ⟨entry, finds, same⟩ := jump cr3 rdi rip rfl
  refine ⟨t, handle, file, u, loaded.config, loaded.opened, loaded.load, finds,
    fun wellFormed apart => ?_⟩
  rw [entry]
  exact finds.seenThrough sound.pages loaded.load rfl same wellFormed apart

theorem efiMain_enters_sample :
    (0x400000 : UINT64) = sampleElf.ehdr.eEntry ∧ sampleElf.SeenThrough bootedMachine.mem 0xC000 := by
  have run : efiMain (samplePlatform (2 ^ 30)) 1 sampleLocals bootMachine =
      .ok (.jump 0xC000 0x10000 0x400000) bootedMachine := eq_ok_of_resultOf (by decide +kernel)
  obtain ⟨t, handle, file, u, -, opened, -, -, seen⟩ :=
    efiMain_enters (samplePlatform_sound (by decide)) ⟨rfl, rfl⟩ run
  cases opened
  exact seen sampleElf_wellFormed sampleElf_disjoint

/-- What is held after a load: the program headers besides what is given back. -/
theorem LoadedBoot.holds {t : Machine ConfigVars} {bin : UINT64 × EfiFile} {u : Machine ElfVars}
    {s₁ : Machine MainVars} (pool : p.fw.SoundPool) (loaded : LoadedBoot p imageHandle l s s₁ t bin u)
    (path : Holds s.trace t.trace {.pool t.vars.cfg.bootBinPath}) :
    ∃ phdrs, Holds s.trace s₁.trace (s₁.vars.held + {.pool phdrs}) := by
  obtain ⟨-, phdrs, program⟩ := wp_ok (elfLoadFileDiscont_held pool) loaded.load
  have all := path.trans program
  refine ⟨phdrs, ?_⟩
  rw [loaded.trace, MainVars.held, loaded.vars]
  rwa [Multiset.singleton_add, Multiset.cons_swap, ← Multiset.singleton_add, add_comm] at all

/-- `efi_main` returns before the firmware is left only.  It has then given back all that it
obtained exactly if `parse_config` failed: a later error of the load loses the path, and after the
load only the program headers are lost. -/
theorem efiMain_gives_back_iff (sound : p.Sound) (start : s.vars.Start)
    (condition : ReleaseCondition p.fw p.config imageHandle l.bootConfig
      ⟨s.mem, s.trace, s.vars.config⟩) {e : EfiError}
    (run : efiMain p imageHandle l s = .error (.efi e) s') :
    (∀ c ∈ s'.vars.handover.calls, ¬c.IsExit) ∧
    (Holds s.trace s'.trace 0 ↔ ∃ t, parseConfig p.fw p.config imageHandle l.bootConfig
      ⟨s.mem, s.trace, s.vars.config⟩ = .error (.efi e) t) ∧
    ∀ s₁, loadBootBin p imageHandle l s = .ok () s₁ → ∃ phdrs, Holds s.trace s'.trace {.pool phdrs} := by
  obtain ⟨success, failure⟩ := releases_of_condition sound.pool condition
  rcases wp_error (efiMain_spec sound start) run e rfl with ⟨stopped, failed⟩ |
    ⟨s₁, t, bin, u, loaded, -, returns⟩
  · refine ⟨?_, ?_, fun s₁ ok => by cases stopped.symm.trans ok⟩
    · rw [failed.handover, start.calls]
      simp
    · rcases failed.stage with ⟨t, config, trace, -⟩ | ⟨t, runs, config, holds, -⟩
      · rw [trace]
        exact ⟨fun _ => ⟨t, config⟩, fun _ => (failure e t config).pool⟩
      · have all := (success t config).pool.trans holds
        refine ⟨fun nothing => ?_, fun ⟨t', config'⟩ => by cases config.symm.trans config'⟩
        rw [Multiset.singleton_add] at all
        exact absurd (all.unique nothing) Multiset.cons_ne_zero
  · obtain ⟨settles, stays, -⟩ := returns e rfl
    obtain ⟨phdrs, holds⟩ := loaded.holds sound.pool (success t loaded.config).pool
    have all := holds.then_settles settles
    rw [zero_add] at all
    refine ⟨stays, ⟨fun nothing => ?_, fun ⟨t', config'⟩ => by cases loaded.config.symm.trans config'⟩,
      fun _ _ => ⟨phdrs, all⟩⟩
    exact absurd (all.unique nothing) (Multiset.singleton_ne_zero _)

theorem efiMain_gives_back_full :
    ¬Holds [] fullBootMachine.trace 0 ∧ ∃ phdrs, Holds [] fullBootMachine.trace {.pool phdrs} := by
  obtain ⟨-, -, after_load⟩ := efiMain_gives_back_iff (samplePlatform_sound (by decide)) ⟨rfl, rfl⟩
    samplePlatform_releases fullBootMachine_eq
  obtain ⟨phdrs, holds⟩ := after_load _ (eq_ok_of_succeeds (by decide +kernel))
  exact ⟨fun nothing => absurd (holds.unique nothing) (Multiset.singleton_ne_zero _), phdrs, holds⟩

/-- Each file that is opened between `s` and `s'` is closed exactly once. -/
structure FilesClosed (s s' : Machine MainVars) : Prop where
  config : ClosedOnce s.vars.config.handles s'.vars.config.handles
  boot : ClosedOnce s.vars.handles s'.vars.handles

/-- On every way out the files are closed. -/
theorem efiMain_closes (sound : p.Sound) (start : s.vars.Start)
    (condition : ReleaseCondition p.fw p.config imageHandle l.bootConfig
      ⟨s.mem, s.trace, s.vars.config⟩) :
    (∀ ending s', efiMain p imageHandle l s = .ok ending s' → FilesClosed s s') ∧
      ∀ e s', efiMain p imageHandle l s = .error (.efi e) s' → FilesClosed s s' := by
  obtain ⟨success, failure⟩ := releases_of_condition sound.pool condition
  constructor
  · intro ending s' run
    obtain ⟨t, bin, u, ⟨s₁, loaded⟩, config, closed, -⟩ := wp_ok (efiMain_spec sound start) run
    refine ⟨?_, closed⟩
    rw [config]
    exact (success t loaded.config).handles
  · intro e s' run
    rcases wp_error (efiMain_spec sound start) run e rfl with ⟨-, failed⟩ |
      ⟨s₁, t, bin, u, loaded, closed, returns⟩
    · refine ⟨?_, failed.closed⟩
      rcases failed.stage with ⟨t, config, -, same⟩ | ⟨t, -, config, -, same⟩
      · rw [same]
        exact (failure e t config).handles
      · rw [same]
        exact (success t config).handles
    · obtain ⟨-, -, vars⟩ := returns e rfl
      rw [loaded.vars] at vars
      refine ⟨?_, ?_⟩
      · rw [vars]
        exact (success t loaded.config).handles
      · rw [vars]
        exact closed

theorem efiMain_closes_full : FilesClosed bootMachine fullBootMachine :=
  (efiMain_closes (samplePlatform_sound (by decide)) ⟨rfl, rfl⟩ samplePlatform_releases).2 _ _
    fullBootMachine_eq

end Runs

end MidnightOS.Nyxboot
