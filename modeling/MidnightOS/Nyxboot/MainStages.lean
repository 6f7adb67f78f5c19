import MidnightOS.Nyxboot.MainLabels

/-! # The stages of `efi_main`

After the program is loaded, each stage obtains memory that was not in use, so that what the
stages before it built stays as it is until the kernel is entered.
-/

namespace MidnightOS.Nyxboot

open MidnightOS.Lib MidnightOS.Lib.HeapTrie

/-- The firmware does what is documented; memory that it hands out is not in use. -/
structure Platform.Sound (p : Platform) : Prop where
  pages : p.fw.SoundPages
  pool : p.fw.SoundPool
  documented : ∀ h, (p.services h).Documented
  fresh : ∀ h calls, (p.services h).Fresh h calls
  small : ∀ h calls r, (p.services h).getMemoryMap calls 0 none = .error r →
    r.size.toNat + 8192 < 2 ^ 64

/-! ## Memory in use besides a buffer -/

/-- A pool buffer at `a` has `n` bytes, or none. -/
def Sole (h : List Event) (a : UINT64) (n : Nat) : Prop :=
  ∀ b ∈ poolBuffers h, b.1 = a.toNat → b.2 = 0 ∨ b.2 = n

section Sole

variable {h h' : List Event} {a : UINT64} {n x : Nat}

/-- Freeing the buffer leaves all else in use. -/
theorem Sole.inUse (sole : Sole h a n) (used : InUse h x) (outside : ¬Inside (a, n) x) :
    InUse (.freePool a :: h) x := by
  rcases used with pages | ⟨b, hb, low, high⟩
  · exact .inl pages
  · refine .inr ⟨b, List.mem_filter.mpr ⟨hb, ?_⟩, low, high⟩
    rw [decide_eq_true_iff]
    intro same
    rcases sole b hb same with none | all
    · omega
    · exact outside ⟨by dsimp only; omega, by dsimp only; omega⟩

end Sole

/-- The boot information is where its bytes are the same. -/
theorem BootBuffers.Hold.of_same {b : BootBuffers} {elf : ElfLoadinfo} {mem mem' : Mem}
    (hold : b.Hold elf mem) (count : elf.sectionCount.toNat = elf.sectionInfos.length)
    (same : ∀ buf ∈ b.list elf, ∀ x, Inside buf x → mem' x = mem x) : b.Hold elf mem' where
  info := by
    rw [← hold.info]
    exact BiBootinfo.decode_congr fun x low high =>
      same (b.info, 48) (by simp [list]) x ⟨low, high⟩
  memMap := by
    rw [← hold.memMap]
    exact BiMemmap.decode_congr fun x low high =>
      same (b.memMap, 40) (by simp [list]) x ⟨low, high⟩
  kernelMap := by
    rw [← hold.kernelMap]
    exact BiKernelmap.decode_congr fun x low high =>
      same (b.kernelMap, 32) (by simp [list]) x ⟨low, high⟩
  sections i hi := by
    rw [← hold.sections i hi]
    refine BiKernelmapdesc.decode_congr fun j hj =>
      same (b.kernelDescs, elf.sectionCount.toNat * 32) (by simp [list]) _ ⟨?_, ?_⟩
    · dsimp only
      omega
    · dsimp only
      omega

/-- The map is held by the memory and the variables. -/
theorem ExitedWith.of_same {m : MemoryMap} {t u : Machine HandoverVars} (exited : ExitedWith m t)
    (mem : u.mem = t.mem) (vars : u.vars = t.vars) : ExitedWith m u := by
  obtain ⟨⟨size, key, descSize, bytes, fits, stride⟩, last⟩ := exited
  refine ⟨⟨?_, ?_, ?_, ?_, ?_, stride⟩, ?_⟩
  all_goals (try rw [mem]); rwa [vars]

/-! ## The stages -/

/-- The memory map is held, in a buffer of its own. -/
structure MapHeld (m : MemoryMap) (s : Machine MainVars) : Prop where
  map : HoldsMap m ⟨s.mem, s.trace, s.vars.handover⟩
  delivered : ∃ n b, .getMemoryMap n (some b) (.ok m) ∈ s.vars.handover.calls
  buffer : (s.vars.handover.memMap.descs.toNat, s.vars.handover.memMapBufferSize.toNat) ∈
    poolBuffers s.trace
  sole : Sole s.trace s.vars.handover.memMap.descs s.vars.handover.memMapBufferSize.toNat
  nonempty : 0 < s.vars.handover.memMapBufferSize.toNat

/-- The bytes of the buffer of the map. -/
def MainVars.InMap (vars : MainVars) : Nat → Prop :=
  Inside (vars.handover.memMap.descs, vars.handover.memMapBufferSize.toNat)

section Stages

variable {p : Platform} {s : Machine MainVars} {m : MemoryMap} {s₀ : Machine MainVars}
  {held : Multiset Resource} {pml4 : UINT64}

theorem MapHeld.used (map : MapHeld m s) {x : Nat} (inside : s.vars.InMap x) : InUse s.trace x :=
  .inr ⟨_, map.buffer, inside.1, inside.2⟩

/-- The memory map is obtained: its buffer was not in use. -/
theorem getMap_stage (sound : p.Sound) (running : Running s₀ held s)
    (zero : s.vars.handover.memMap.size = 0) :
    wp (inHandover p efiGetMemmap)
      (fun _ s' => Running s₀ (.pool s'.vars.handover.memMap.descs ::ₘ held) s' ∧
        (∃ m, MapHeld m s') ∧
        (∀ x, InUse s.trace x → InUse s'.trace x ∧ s'.mem x = s.mem x ∧ ¬s'.vars.InMap x))
      (fun stop s' => stop ≠ .fault ∧ Running s₀ held s') s := by
  rw [wp_inHandover]
  refine wp_mono (efiGetMemmap_got (sound.documented s.trace) zero) ?_ ?_
  · rintro _ t got
    obtain ⟨evs, calls, pool, stays⟩ := got.calls
    obtain ⟨m, holds, n, b, rest, last⟩ := got.map
    obtain ⟨evs', quiet, granted⟩ := got.granted
    have trace : (s.resume t).trace =
        .allocatePool t.vars.memMapBufferSize (.ok t.vars.memMap.descs) :: s.trace := by
      rw [Machine.resume_trace calls, pool, got.trace]
      rfl
    have unused : ∀ x, Inside (t.vars.memMap.descs, t.vars.memMapBufferSize.toNat) x →
        ¬InUse s.trace x := by
      intro x inside
      have fresh := sound.fresh s.trace s.vars.handover.calls _ _ _ granted x inside
      rwa [quiet] at fresh
    have nonempty : 0 < t.vars.memMapBufferSize.toNat := by
      obtain ⟨h', r, asked, size⟩ := got.asked
      have small := sound.small _ _ _ asked
      rw [size, BitVec.toNat_add, show (8192 : UINTN).toNat = 8192 from rfl]
      omega
    refine ⟨?_, ⟨m, ?_, ?_, ?_, ?_, nonempty⟩,
      fun x used => ⟨?_, ?_, fun inside => unused x inside used⟩⟩
    · refine running.resume calls got.trace stays ?_
      rw [pool, Multiset.add_cons]
      exact running.settles.obtain (.allocatePool _ (.ok t.vars.memMap.descs)) rfl
    · exact ⟨holds.size, holds.key, holds.descSize, holds.bytes, holds.fits, holds.stride⟩
    · refine ⟨n, b, ?_⟩
      rw [Machine.resume_vars, last]
      exact List.mem_cons_self
    · rw [trace]
      exact List.mem_cons_self
    · rw [trace]
      intro b hb same
      rcases List.mem_cons.mp hb with rfl | old
      · exact .inr rfl
      · -- an older buffer there would be in use
        refine .inl (Nat.eq_zero_of_not_pos fun some => ?_)
        refine unused t.vars.memMap.descs.toNat ⟨Nat.le_refl _, Nat.lt_add_of_pos_right nonempty⟩
          (.inr ⟨b, old, ?_, ?_⟩)
        · exact Nat.le_of_eq same
        · have same' : b.1 = t.vars.memMap.descs.toNat := same
          omega
    · rw [trace]
      exact InUse.allocatePool used
    · exact got.frame x fun inside => unused x inside used
  · rintro stop t ⟨noFault, none⟩
    obtain ⟨evs, calls, pool, stays⟩ := none.calls
    refine ⟨noFault, running.resume calls none.trace stays ?_⟩
    rcases pool with ⟨n, e, pool⟩ | ⟨n, descs, pool⟩
    · rw [pool]
      exact running.settles.skip _ rfl
    · rw [pool]
      exact (running.settles.obtain (.allocatePool n (.ok descs)) rfl).free _ rfl

/-- The map survives what leaves its buffer alone. -/
theorem MapHeld.step {s' : Machine MainVars} (new : List (Nat × Nat)) (map : MapHeld m s)
    (vars : s'.vars = s.vars) (same : ∀ x, s.vars.InMap x → s'.mem x = s.mem x)
    (buffers : poolBuffers s'.trace = new ++ poolBuffers s.trace)
    (elsewhere : ∀ b ∈ new, ∀ x, b.1 ≤ x → x < b.1 + b.2 → ¬s.vars.InMap x) : MapHeld m s' := by
  refine ⟨⟨?_, ?_, ?_, ?_, ?_, map.map.stride⟩, ?_, ?_, ?_, ?_⟩
  · rw [vars]
    exact map.map.size
  · rw [vars]
    exact map.map.key
  · rw [vars]
    exact map.map.descSize
  · have bytes := map.map.bytes
    have fits := map.map.fits
    rw [vars]
    rw [hasBytes_iff] at bytes ⊢
    intro i hi
    refine (same _ ⟨Nat.le_add_right _ _, ?_⟩).trans (bytes i hi)
    exact Nat.add_lt_add_left (Nat.lt_of_lt_of_le hi fits) _
  · rw [vars]
    exact map.map.fits
  · rw [vars]
    exact map.delivered
  · rw [vars, buffers]
    exact List.mem_append_right _ map.buffer
  · rw [vars]
    intro b hb start
    rw [buffers] at hb
    rcases List.mem_append.mp hb with hnew | old
    · refine .inl (Nat.eq_zero_of_not_pos fun some => ?_)
      have nonempty := map.nonempty
      exact elsewhere b hnew s.vars.handover.memMap.descs.toNat (by omega) (by omega)
        ⟨Nat.le_refl _, by dsimp only; omega⟩
    · exact map.sole b old start
  · rw [vars]
    exact map.nonempty

theorem pml4_stage (sound : p.Sound) (map : MapHeld m s) (running : Running s₀ held s) :
    wp (newPml4 p.fw)
      (fun pml4 s' => ZeroedPml4 s' pml4 ∧ Undisturbed s s' ∧
        (∀ x, x / 4096 = pml4.toNat / 4096 → ¬InUse s.trace x) ∧
        Running s₀ (.pages pml4 1 ::ₘ held) s' ∧ MapHeld m s' ∧ s'.vars = s.vars)
      (fun _ s' => Running s₀ held s' ∧ s'.vars = s.vars) s := by
  refine wp_mono (wp_and (newPml4_spec sound.pages) (newPml4_holds running.settles)) ?_ ?_
  · rintro pml4 s' ⟨⟨zeroed, undisturbed, fresh⟩, holds, buffers, vars⟩
    refine ⟨zeroed, undisturbed, fresh, running.step vars ?_, ?_, vars⟩
    · rwa [Multiset.add_cons]
    · exact map.step [] vars (fun x inside => undisturbed.same x (map.used inside)) buffers (by simp)
  · rintro _ s' ⟨-, holds, vars⟩
    exact ⟨running.step vars holds, vars⟩

/-- Descriptors that are the same make the same address space. -/
theorem addressSpace_congr {memMap memMap' : EfiMemmap} (secs : List ElfSectioninfo)
    (count : memMap.count = memMap'.count)
    (descs : ∀ i < memMap.count, memMap.desc i = memMap'.desc i) :
    addressSpace memMap secs = addressSpace memMap' secs := by
  have ram : ∀ k ≤ memMap.count, ramMap memMap k = ramMap memMap' k := by
    intro k hk
    induction k with
    | zero => rfl
    | succ k ih => rw [ramMap_succ, ramMap_succ, ih (by omega), descs k hk]
  rw [addressSpace, addressSpace, ram _ (Nat.le_refl _), count]

/-- The tables are built: they hold the address space of the map and the sections. -/
structure TablesBuilt (m : MemoryMap) (pml4 : UINT64) (frames : List Nat) (s : Machine MainVars) :
    Prop where
  aligned : pml4.toNat % 4096 = 0
  tables : Tables s (pml4.toNat / 4096) frames
  apart : ∀ x, x / 4096 = pml4.toNat / 4096 ∨ x / 4096 ∈ frames → ¬s.vars.InMap x
  space : pageMap s.mem (pml4.toNat / 4096) = addressSpace m.view s.vars.elf.info.sectionInfos

theorem map_stage (sound : p.Sound) (map : MapHeld m s) (running : Running s₀ held s)
    (zeroed : ZeroedPml4 s pml4) (fresh : ∀ x, x / 4096 = pml4.toNat / 4096 → ¬s.vars.InMap x) :
    wp (mapMemoryHere p pml4)
      (fun _ s' => (∀ sec ∈ s.vars.elf.info.sectionInfos, sec.reqVirt.toNat % 4096 = 0) ∧
        ∃ frames, TablesBuilt m pml4 frames s' ∧ MapHeld m s' ∧
        Running s₀ ((frames.map frameResource : Multiset Resource) + held) s' ∧ s'.vars = s.vars ∧
        ∀ x, InUse s.trace x → InUse s'.trace x ∧
          (x / 4096 ≠ pml4.toNat / 4096 → s'.mem x = s.mem x))
      (fun _ s' => ∃ frames,
        IsTrie entryFrame tableEntry (slots s'.mem) (pml4.toNat / 4096) 3 frames ∧
        Running s₀ ((frames.map frameResource : Multiset Resource) + held) s' ∧
        s'.vars = s.vars) s := by
  have size : s.vars.handover.memMap.size.toNat ≤ s.vars.handover.memMapBufferSize.toNat := by
    have size := map.map.size
    have fits := map.map.fits
    dsimp only at size fits
    omega
  have inMap : ∀ x, Inside (s.vars.handover.memMap.descs, s.vars.handover.memMap.size.toNat) x →
      s.vars.InMap x := fun x inside => ⟨inside.1, Nat.lt_of_lt_of_le inside.2 (by dsimp only; omega)⟩
  have stride : 40 ≤ s.vars.handover.memMap.descSize.toNat := by
    have stride := map.map.stride
    rwa [← map.map.descSize] at stride
  have spec := mapMemoryHere_spec sound.pages zeroed running.sections.count stride
    fun x inside => ⟨map.used (inMap x inside), fun same => fresh x same (inMap x inside)⟩
  refine wp_mono (wp_and spec (mapMemoryHere_traces p pml4 s)) ?_ ?_
  · rintro _ s' ⟨⟨evs, run, space, aligned⟩, grows⟩
    obtain ⟨holds, buffers⟩ := run.holds grows running.settles
    have undisturbed : ∀ x, InUse s.trace x → x / 4096 ≠ pml4.toNat / 4096 → s'.mem x = s.mem x :=
      fun x used other => run.mem_eq used (by simpa using other)
    have tables := run.tables
    rw [List.append_nil] at tables
    refine ⟨aligned, obtainedFrames evs, ⟨zeroed.aligned, tables, ?_, ?_⟩, ?_, ?_, run.vars,
      fun x used => ⟨run.kept x used, undisturbed x used⟩⟩
    · rw [run.vars]
      rintro x (root | new) inside
      · exact fresh x root inside
      · exact run.fresh _ new x rfl (map.used inside)
    · rw [space, run.vars]
      exact addressSpace_congr _ map.map.count_eq fun i hi => map.map.desc_eq (map.map.count_eq ▸ hi)
    · exact map.step [] run.vars (fun x inside => undisturbed x (map.used inside) fun same =>
        fresh x same inside) buffers (by simp)
    · refine running.step run.vars ?_
      rwa [add_left_comm]
  · rintro _ s' ⟨⟨evs, run⟩, grows⟩
    obtain ⟨holds, -⟩ := run.holds grows running.settles
    have tables := run.tables
    rw [List.append_nil] at tables
    refine ⟨obtainedFrames evs, tables.trie, running.step run.vars ?_, run.vars⟩
    rwa [add_left_comm]

/-- The boot information is built, in buffers of its own. -/
structure InfoBuilt (b : BootBuffers) (s : Machine MainVars) : Prop where
  hold : b.Hold s.vars.elf.info s.mem
  apart : ∀ buf ∈ b.list s.vars.elf.info, ∀ x, Inside buf x → ¬s.vars.InMap x
  nonnull : ∀ buf ∈ b.list s.vars.elf.info, buf.1 ≠ 0
  disjoint : (b.list s.vars.elf.info).Pairwise fun buf buf' => ∀ x, Inside buf x → ¬Inside buf' x

/-- The buffers of the boot information are in use. -/
def BootBuffers.Used (b : BootBuffers) (s : Machine MainVars) : Prop :=
  ∀ buf ∈ b.list s.vars.elf.info, ∀ x, Inside buf x → InUse s.trace x

theorem info_stage (sound : p.Sound) (map : MapHeld m s) (running : Running s₀ held s) :
    wp (Build.biBuildBootinfo p.fw s.vars.elf.info)
      (fun info s' => ∃ b : BootBuffers, b.info = info ∧ InfoBuilt b s' ∧ b.Used s' ∧ MapHeld m s' ∧
        s'.vars = s.vars ∧ ∀ x, InUse s.trace x → InUse s'.trace x ∧ s'.mem x = s.mem x ∧
          ∀ buf ∈ b.list s.vars.elf.info, ¬Inside buf x)
      (fun _ s' => Running s₀ held s' ∧ s'.vars = s.vars ∧
        ∀ x, InUse s.trace x → s'.mem x = s.mem x) s := by
  refine wp_mono (biBuildBootinfo_spec sound.pool running.sections.count running.sections.few) ?_ ?_
  · rintro _ s' ⟨b, rfl, obtained, hold, frame, vars⟩
    have old : ∀ x, InUse s.trace x → ∀ buf ∈ b.list s.vars.elf.info, ¬Inside buf x :=
      fun x used buf hbuf inside => obtained.fresh buf hbuf x inside used
    have same : ∀ x, InUse s.trace x → s'.mem x = s.mem x := fun x used => frame x (old x used)
    refine ⟨b, rfl, ⟨?_, ?_, ?_, ?_⟩, ?_, ?_, vars,
      fun x used => ⟨obtained.inUse x used, same x used, old x used⟩⟩
    · rwa [vars]
    · rw [vars]
      exact fun buf hbuf x inside inMap => old x (map.used inMap) buf hbuf inside
    · rw [vars]
      exact obtained.nonnull
    · rw [vars]
      exact obtained.disjoint
    · rw [BootBuffers.Used, vars]
      exact obtained.used
    · refine map.step _ vars (fun x inMap => same x (map.used inMap)) obtained.buffers ?_
      rintro _ hb x low high inMap
      obtain ⟨buf, hbuf, rfl⟩ := List.mem_map.mp hb
      exact old x (map.used inMap) buf hbuf ⟨low, high⟩
  · rintro _ s' ⟨-, holds, same, vars⟩
    have all := running.settles.trans holds
    rw [add_zero] at all
    exact ⟨running.step vars all, vars, same⟩

/-- The boot information and what else is in use is as before when the firmware is left. -/
theorem exit_stage {b : BootBuffers} (sound : p.Sound) (map : MapHeld m s) (info : InfoBuilt b s)
    (count : s.vars.elf.info.sectionCount.toNat = s.vars.elf.info.sectionInfos.length)
    (used : b.Used s) :
    wp (inHandover p exitServices)
      (fun res s' => s'.vars = { s.vars with handover := s'.vars.handover } ∧
        (res = none → (∃ m, ExitedWith m ⟨s'.mem, s'.trace, s'.vars.handover⟩) ∧ InfoBuilt b s' ∧
          (∃ evs, s'.vars.handover.calls = evs ++ s.vars.handover.calls) ∧
          ∀ x, InUse s.trace x → ¬s.vars.InMap x → s'.mem x = s.mem x)) (fun _ _ => False) s := by
  rw [wp_inHandover]
  refine wp_mono (exitServices_leaves (sound.documented _) (sound.fresh _ _)) ?_ (fun _ _ h => h)
  rintro res t left
  refine ⟨rfl, fun none => ?_⟩
  obtain ⟨⟨m', exited⟩, calls, -, apart, frame⟩ := left none
  -- freeing the buffer of the map leaves all else in use
  have kept : ∀ x, InUse s.trace x → ¬s.vars.InMap x →
      InUse (.freePool s.vars.handover.memMap.descs :: s.trace) x :=
    fun x inUse outside => map.sole.inUse inUse outside
  have same : ∀ x, InUse s.trace x → ¬s.vars.InMap x → t.mem x = s.mem x :=
    fun x inUse outside => frame x (kept x inUse outside) outside
  refine ⟨⟨m', exited.of_same rfl rfl⟩, ⟨?_, fun buf hbuf x inside inMap => ?_, info.nonnull,
    info.disjoint⟩, calls, same⟩
  · exact info.hold.of_same count fun buf hbuf x inside =>
      same x (used buf hbuf x inside) (info.apart buf hbuf x inside)
  · rcases apart x inMap with old | unused
    · exact info.apart buf hbuf x inside old
    · exact unused (kept x (used buf hbuf x inside) (info.apart buf hbuf x inside))

/-- The map that was delivered last is converted. -/
theorem update_stage {b : BootBuffers} (info : InfoBuilt b s)
    (exited : ExitedWith m ⟨s.mem, s.trace, s.vars.handover⟩) :
    wp (inHandover p fun _ => status (Build.biUpdateMemmap b.memMap.toNat))
      (fun res s' => s'.vars = s.vars ∧ (res = none → m.count * 24 ≤ 14336 ∧
        BiMemmap.decode s'.mem b.memMap.toNat =
          { biBuildMemmap b.memDescs with descriptorCount := m.count } ∧
        (BiMemmap.decode s'.mem b.memMap.toNat).Converts s'.mem m.view ∧
        ∀ x, ¬Inside (b.memMap, 40) x → ¬Inside (b.memDescs, 14336) x → s'.mem x = s.mem x))
      (fun _ _ => False) s := by
  have holds := exited.toHoldsMap
  have memMap : (b.memMap, 40) ∈ b.list s.vars.elf.info := by simp [BootBuffers.list]
  have memDescs : (b.memDescs, 14336) ∈ b.list s.vars.elf.info := by simp [BootBuffers.list]
  have inMap : ∀ x, Inside (s.vars.handover.memMap.descs, s.vars.handover.memMap.size.toNat) x →
      s.vars.InMap x := by
    have size := holds.size
    have fits := holds.fits
    dsimp only at size fits
    exact fun x inside => ⟨inside.1, Nat.lt_of_lt_of_le inside.2 (by dsimp only; omega)⟩
  have stride : 40 ≤ s.vars.handover.memMap.descSize.toNat := by
    have stride := holds.stride
    rwa [← holds.descSize] at stride
  rw [wp_inHandover, wp_status]
  refine wp_mono (biUpdateMemmapInMemory_spec info.hold.memMap (info.nonnull _ memDescs) stride
    (fun x inside inside' => info.apart _ memDescs x inside' (inMap x inside)) ?_ ?_) ?_ ?_
  · have disjoint := info.disjoint
    simp only [BootBuffers.list, List.pairwise_cons, List.mem_cons, forall_eq_or_imp] at disjoint
    exact separated (P := Inside (b.memMap, 40)) (fun x low high => ⟨low, high⟩)
      (fun x low high => disjoint.2.2.1.1 x ⟨low, high⟩) (by omega) (Nat.zero_lt_succ 14335)
  · intro x inside
    by_contra overlap
    exact info.apart _ memMap x ⟨by dsimp only; omega, by dsimp only; omega⟩ (inMap x inside)
  · rintro _ t ⟨room, updated, converts, frame, vars⟩
    rw [holds.count_eq] at room
    have count : s.vars.handover.memMap.size / s.vars.handover.memMap.descSize = (m.count : UINT64) := by
      apply BitVec.eq_of_toNat_eq
      rw [← holds.count_eq]
      exact (Nat.mod_eq_of_lt (BitVec.isLt _)).symm
    refine ⟨by rw [Machine.resume_vars, vars], fun _ =>
      ⟨room, ?_, ⟨?_, fun i hi => ?_⟩, fun x head buffer => ?_⟩⟩
    · exact updated.trans (by rw [count])
    · exact converts.1.trans holds.count_eq
    · exact (converts.2 i (holds.count_eq.symm ▸ hi)).trans (congrArg _ (holds.desc_eq hi))
    · simp only [Inside, not_and_or, Nat.not_le, Nat.not_lt] at head
      exact frame x buffer (by omega)
  · rintro stop t ⟨rfl, -, vars, -⟩
    exact ⟨by rw [Machine.resume_vars, vars], fun none => by cases none⟩

/-- The boot information has the map that was delivered last, with the key that was accepted. -/
def BootBuffers.HasAccepted (b : BootBuffers) (s : Machine MainVars) : Prop :=
  ∃ m : MemoryMap, (∃ n buffer rest, s.vars.handover.calls =
      .exitBootServices m.key (.ok ()) :: .getMemoryMap n (some buffer) (.ok m) :: rest) ∧
    m.count * 24 ≤ 14336 ∧
    BiMemmap.decode s.mem b.memMap.toNat =
      { biBuildMemmap b.memDescs with descriptorCount := m.count } ∧
    (BiMemmap.decode s.mem b.memMap.toNat).Converts s.mem m.view

/-- The firmware is left between `s` and `s'`. -/
structure HandedOver (b : BootBuffers) (s s' : Machine MainVars) : Prop where
  accepted : b.HasAccepted s'
  frame : ∀ x, InUse s.trace x → ¬s.vars.InMap x → ¬Inside (b.memMap, 40) x →
    ¬Inside (b.memDescs, 14336) x → s'.mem x = s.mem x
  calls : ∃ evs, s'.vars.handover.calls = evs ++ s.vars.handover.calls

theorem leaveFirmware_spec {b : BootBuffers} {entry : UINT64} (sound : p.Sound) (map : MapHeld m s)
    (info : InfoBuilt b s)
    (count : s.vars.elf.info.sectionCount.toNat = s.vars.elf.info.sectionInfos.length)
    (used : b.Used s) :
    wp (leaveFirmware p pml4 b.info entry)
      (fun ending s' => s'.vars = { s.vars with handover := s'.vars.handover } ∧
        ∀ cr3 rdi rip, ending = .jump cr3 rdi rip →
          cr3 = pml4 ∧ rdi = b.info ∧ rip = entry ∧ HandedOver b s s') (fun _ _ => False) s := by
  simp only [leaveFirmware, wp_bind]
  refine wp_mono (exit_stage sound map info count used) ?_ (fun _ _ h => h)
  rintro res t ⟨vars, left⟩
  rw [wp_ite]
  refine ⟨fun _ => ⟨vars, by intro cr3 rdi rip jump; cases jump⟩, fun accepted => ?_⟩
  obtain ⟨⟨m', exited⟩, info', ⟨evs, calls⟩, frame⟩ := left (by simpa using accepted)
  have memMap : (loadLE t.mem 8 (b.info.toNat + 32) : UINT64) = b.memMap :=
    congrArg BiBootinfo.pMemMap info'.hold.info
  rw [wp_bind, wp_loadWord, memMap, wp_bind]
  have info'' : InfoBuilt b (t.emit (.load (b.info.toNat + 32) 8)) :=
    ⟨info'.hold, info'.apart, info'.nonnull, info'.disjoint⟩
  refine wp_mono (update_stage info'' (exited.of_same rfl rfl)) ?_ (fun _ _ h => h)
  rintro res' u ⟨vars', updated⟩
  have all : u.vars = { s.vars with handover := u.vars.handover } := by
    rw [vars', Machine.emit_vars]
    exact vars
  rw [wp_ite]
  refine ⟨fun _ => ⟨all, by intro cr3 rdi rip jump; cases jump⟩, fun done => ⟨all, ?_⟩⟩
  obtain ⟨room, decoded, converts, frame'⟩ := updated (by simpa using done)
  rintro cr3 rdi rip jump
  cases jump
  refine ⟨rfl, rfl, rfl, ⟨m', ?_, room, decoded, converts⟩, fun x inUse outside head buffer => ?_, ?_⟩
  · rw [vars']
    exact exited.last
  · exact (frame' x head buffer).trans (frame x inUse outside)
  · rw [vars']
    exact ⟨evs, calls⟩

/-- What the kernel that was loaded as `elf` says finds where it is entered: the tables of a memory
map that was delivered, and the boot information. -/
structure KernelFinds (cr3 rdi : UINT64) (elf : ElfLoadinfo) (s : Machine MainVars) : Prop where
  aligned : cr3.toNat % 4096 = 0
  space : ∃ m : MemoryMap,
    (∃ n buffer, .getMemoryMap n (some buffer) (.ok m) ∈ s.vars.handover.calls) ∧
    pageMap s.mem (cr3.toNat / 4096) = addressSpace m.view elf.sectionInfos
  sections : ∀ sec ∈ elf.sectionInfos, sec.reqVirt.toNat % 4096 = 0
  information : ∃ b : BootBuffers, b.info = rdi ∧ b.HasAccepted s ∧
    BiBootinfo.decode s.mem b.info.toNat =
      ⟨0, 1, 0, [0x4E, 0x42, 0x36, 0x34], 1, 48, b.memMap, b.kernelMap⟩ ∧
    BiKernelmap.decode s.mem b.kernelMap.toNat = ⟨1, 32, elf.sectionCount, b.kernelDescs⟩ ∧
    ∀ i (hi : i < elf.sectionInfos.length),
      BiKernelmapdesc.decode s.mem (b.kernelDescs.toNat + i * 32) = elf.sectionInfos[i].toBi

/-- The other structures of the boot information stay. -/
theorem HandedOver.information {b : BootBuffers} {s' : Machine MainVars} (handed : HandedOver b s s')
    (info : InfoBuilt b s)
    (count : s.vars.elf.info.sectionCount.toNat = s.vars.elf.info.sectionInfos.length)
    (used : b.Used s) :
    BiBootinfo.decode s'.mem b.info.toNat =
      ⟨0, 1, 0, [0x4E, 0x42, 0x36, 0x34], 1, 48, b.memMap, b.kernelMap⟩ ∧
    BiKernelmap.decode s'.mem b.kernelMap.toNat =
      ⟨1, 32, s.vars.elf.info.sectionCount, b.kernelDescs⟩ ∧
    ∀ i (hi : i < s.vars.elf.info.sectionInfos.length),
      BiKernelmapdesc.decode s'.mem (b.kernelDescs.toNat + i * 32) =
        s.vars.elf.info.sectionInfos[i].toBi := by
  have same : ∀ buf ∈ b.list s.vars.elf.info, (∀ x, Inside buf x → ¬Inside (b.memMap, 40) x) →
      (∀ x, Inside buf x → ¬Inside (b.memDescs, 14336) x) → ∀ x, Inside buf x →
      s'.mem x = s.mem x :=
    fun buf hbuf head buffer x inside => handed.frame x (used buf hbuf x inside)
      (info.apart buf hbuf x inside) (head x inside) (buffer x inside)
  have disjoint := info.disjoint
  simp only [BootBuffers.list, List.pairwise_cons, List.mem_cons, forall_eq_or_imp] at disjoint
  obtain ⟨⟨-, kd_md, kd_mm, -⟩, ⟨km_md, km_mm, -⟩, ⟨-, md_bi, -⟩, ⟨mm_bi, -⟩, -⟩ := disjoint
  refine ⟨?_, ?_, fun i hi => ?_⟩
  · rw [← info.hold.info]
    exact BiBootinfo.decode_congr fun x low high =>
      same (b.info, 48) (by simp [BootBuffers.list]) (fun x inside inside' => mm_bi x inside' inside)
        (fun x inside inside' => md_bi x inside' inside) x ⟨low, high⟩
  · rw [← info.hold.kernelMap]
    exact BiKernelmap.decode_congr fun x low high =>
      same (b.kernelMap, 32) (by simp [BootBuffers.list]) km_mm km_md x ⟨low, high⟩
  · rw [← info.hold.sections i hi]
    refine BiKernelmapdesc.decode_congr fun j hj =>
      same (b.kernelDescs, s.vars.elf.info.sectionCount.toNat * 32) (by simp [BootBuffers.list])
        kd_mm kd_md _ ⟨?_, ?_⟩
    · dsimp only
      omega
    · dsimp only
      omega

end Stages

end MidnightOS.Nyxboot
