import MidnightOS.Lib.Ledger
import MidnightOS.Nyxboot.WellFormedElf

/-! # What loads leave behind

The trace of a load as a ledger of pool buffers and page runs.  The contiguous
loader returns everything before it returns an error; the discontiguous one
never frees the pages of the segments it has loaded so far.  Neither frees the
program headers when it succeeds, and then nobody else has their address.
-/

namespace MidnightOS.Nyxboot

open MidnightOS.Lib

/-- What the loader obtains from the firmware. -/
inductive Resource where
  | pool (buffer : UINT64)
  | pages (memory : UINT64) (count : UINTN)
deriving DecidableEq

def Event.entry : Event → Option (Entry Resource)
  | .allocatePool _ (.ok a) => some (.acquire (.pool a))
  | .freePool a => some (.release (.pool a))
  | .allocatePages n (.ok a) => some (.acquire (.pages a n))
  | .freePages a n => some (.release (.pages a n))
  | _ => none

/-- From `h` to `h'`, what was obtained and not freed is `held`, and nothing else
    was freed. -/
def Holds (h h' : List Event) (held : Multiset Resource) : Prop :=
  ∃ evs, h' = evs ++ h ∧ settle (evs.filterMap Event.entry) 0 = some held

section Holds

variable {h h' h'' : List Event} {held held' : Multiset Resource}

theorem Holds.refl (h : List Event) : Holds h h 0 := ⟨[], rfl, rfl⟩

theorem Holds.trans (first : Holds h h' held) (then' : Holds h' h'' held') :
    Holds h h'' (held + held') := by
  obtain ⟨evs, htrace, settled⟩ := first
  obtain ⟨evs', htrace', settled'⟩ := then'
  refine ⟨evs' ++ evs, by rw [htrace', htrace, List.append_assoc], ?_⟩
  have framed := settle_frame held settled'
  rw [zero_add] at framed
  rw [List.filterMap_append, settle_append, settled, Option.bind_some, framed, add_comm]

theorem Holds.unique (one : Holds h h' held) (two : Holds h h' held') : held = held' := by
  obtain ⟨evs, htrace, settled⟩ := one
  obtain ⟨evs', htrace', settled'⟩ := two
  have same := List.append_cancel_right (htrace.symm.trans htrace')
  rw [same] at settled
  exact Option.some.inj (settled.symm.trans settled')

/-- What happens after `h'` turns what is held then into what is held at the end. -/
theorem Holds.settle_rest {evs : List Event} (first : Holds h h' held) (all : Holds h h'' held')
    (htrace : h'' = evs ++ h') : settle (evs.filterMap Event.entry) held = some held' := by
  obtain ⟨evs₁, htrace₁, settled₁⟩ := first
  obtain ⟨evs₂, htrace₂, settled₂⟩ := all
  rw [htrace, htrace₁, ← List.append_assoc] at htrace₂
  rwa [← List.append_cancel_right htrace₂, List.filterMap_append, settle_append, settled₁] at settled₂

theorem Holds.skip (ev : Event) (hev : ev.entry = none) (holds : Holds h h' held) : Holds h (ev :: h') held := by
  obtain ⟨evs, htrace, settled⟩ := holds
  exact ⟨ev :: evs, by rw [htrace, List.cons_append], by
    rw [List.filterMap_cons_none hev]
    exact settled⟩

theorem Holds.obtain (ev : Event) {k : Resource} (hev : ev.entry = some (.acquire k)) (holds : Holds h h' held) :
    Holds h (ev :: h') (k ::ₘ held) := by
  obtain ⟨evs, htrace, settled⟩ := holds
  exact ⟨ev :: evs, by rw [htrace, List.cons_append], by
    rw [List.filterMap_cons_some hev]
    exact settle_acquire settled⟩

theorem Holds.free (ev : Event) {k : Resource} (hev : ev.entry = some (.release k))
    (holds : Holds h h' (k ::ₘ held)) : Holds h (ev :: h') held := by
  obtain ⟨evs, htrace, settled⟩ := holds
  exact ⟨ev :: evs, by rw [htrace, List.cons_append], by
    rw [List.filterMap_cons_some hev]
    exact settle_release settled⟩

end Holds

section Load

variable {fw : Firmware} {file : EfiFile} {s s' t : Machine ElfVars} {ehdr : Elf64Ehdr}
  {phdrs : UINT64} {table : Mem} {h : List Event} {held : Multiset Resource}

/-! ## The phases of a load -/

/-- The header buffer and the section array are obtained, or all is returned. -/
theorem elfGetFileInfo_holds :
    wp (elfGetFileInfo fw file)
      (fun r s' => Holds s.trace s'.trace (.pool r.2.1 ::ₘ .pool s'.vars.info.sections ::ₘ 0))
      (fun _ s' => Holds s.trace s'.trace 0) s := by
  simp only [elfGetFileInfo, wp_bind, wp_readBuffer, wp_onError, wp_setPosition, wp_allocatePool,
    wp_setInfo, wp_freePool, wp_throw, wp_pure, wp_faultIf]
  have header := (Holds.refl s.trace).skip (.read 64 none (.ok ())) rfl
  refine ⟨fun _ => ?_, fun e _ => (Holds.refl s.trace).skip _ rfl⟩
  refine wp_mono elfVerifyEhdr_spec ?_ ?_
  · rintro _ _ ⟨rfl, _⟩
    refine ⟨fun _ => header, fun _ => ⟨fun buffer _ => ?_, fun e _ => header.skip _ rfl⟩⟩
    -- from here on the header buffer is held, and every exit frees it
    refine ⟨fun _ => ⟨fun _ => ⟨fun sections _ => ?_, fun e _ => ?_⟩, fun e _ => ?_⟩, fun e _ => ?_⟩
    · rw [Multiset.cons_swap]
      exact (((header.obtain _ rfl).skip _ rfl).skip _ rfl).obtain _ rfl
    · exact ((((header.obtain _ rfl).skip _ rfl).skip _ rfl).skip _ rfl).free _ rfl
    · exact (((header.obtain _ rfl).skip _ rfl).skip _ rfl).free _ rfl
    · exact ((header.obtain _ rfl).skip _ rfl).free _ rfl
  · rintro e _ ⟨rfl, _⟩
    exact header

/-- The cleanup at `err_free_loadInfo` frees the section array and the headers. -/
theorem errFreeLoadInfo_holds {α : Type} {Q : α → Machine ElfVars → Prop} {e : EfiError}
    (nonnull : s.vars.info.sections ≠ 0)
    (holds : Holds h s.trace (.pool phdrs ::ₘ .pool s.vars.info.sections ::ₘ held)) :
    wp (errFreeLoadInfo phdrs e) Q (fun _ s' => Holds h s'.trace held) s := by
  simp only [errFreeLoadInfo, elfFreeLoadinfo, wp_bind, wp_get, wp_ite, wp_freePool, wp_setInfo,
    wp_throw]
  rw [Multiset.cons_swap] at holds
  exact ⟨fun _ => (holds.free _ rfl).free _ rfl, fun null => absurd null (not_not_intro nonnull)⟩

/-- Of the pages asked for at `h`, those of the first segment, nothing is granted. -/
def FirstRefused (fw : Firmware) (h : List Event) (segs : List Elf64Phdr) : Prop :=
  ∀ phdr ∈ segs.head?, ∀ a, fw.allocatePages h (segmentPages phdr) ≠ .ok a

theorem loadDiscontSegment_holds (index : Nat) (phdr : Elf64Phdr) :
    wp (loadDiscontSegment fw file index phdr)
      (fun _ s' => s'.vars.info.sections = s.vars.info.sections ∧
        ∃ a, fw.allocatePages s.trace (segmentPages phdr) = .ok a ∧
          Holds s.trace s'.trace (.pages a (segmentPages phdr) ::ₘ 0))
      (fun _ s' => s'.vars.info.sections = s.vars.info.sections ∧
        ((∃ a, fw.allocatePages s.trace (segmentPages phdr) = .ok a ∧
          Holds s.trace s'.trace (.pages a (segmentPages phdr) ::ₘ 0)) ∨
        (∃ e, fw.allocatePages s.trace (segmentPages phdr) = .error e) ∧
          Holds s.trace s'.trace 0)) s := by
  simp only [loadDiscontSegment, wp_bind, wp_allocatePages, wp_zeroMem, wp_setPosition,
    wp_readPages, setSection, wp_setInfo]
  have start := Holds.refl s.trace
  refine ⟨fun paddr granted => ⟨fun _ => ⟨fun _ => ?_, fun e _ => ?_⟩, fun e _ => ?_⟩,
    fun e refused => ?_⟩
  · exact ⟨rfl, paddr, granted, (((start.obtain _ rfl).skip _ rfl).skip _ rfl).skip _ rfl⟩
  · exact ⟨rfl, .inl ⟨paddr, granted, (((start.obtain _ rfl).skip _ rfl).skip _ rfl).skip _ rfl⟩⟩
  · exact ⟨rfl, .inl ⟨paddr, granted, ((start.obtain _ rfl).skip _ rfl).skip _ rfl⟩⟩
  · exact ⟨rfl, .inr ⟨⟨e, refused⟩, start.skip _ rfl⟩⟩

/-- The loop only obtains pages.  Where it stops, it has obtained some unless the
    first request was refused. -/
theorem loadDiscontLoop_holds (phdrs : List Elf64Phdr) (index : Nat) :
    wp (loadDiscontLoop fw file index phdrs)
      (fun _ s' => s'.vars.info.sections = s.vars.info.sections ∧
        ∃ runs, Holds s.trace s'.trace runs)
      (fun _ s' => s'.vars.info.sections = s.vars.info.sections ∧
        ∃ runs, Holds s.trace s'.trace runs ∧
          (runs = 0 ↔ FirstRefused fw s.trace (loadable phdrs))) s := by
  induction phdrs generalizing index s with
  | nil => exact ⟨rfl, 0, Holds.refl _⟩
  | cons phdr rest ih =>
    by_cases hload : phdr.pType = ptLoad
    · rw [loadable_cons_of_load hload]
      simp only [loadDiscontLoop, if_pos hload, wp_bind]
      -- pages that the first segment got are never given back
      have granted_first : ∀ a, fw.allocatePages s.trace (segmentPages phdr) = .ok a →
          ¬FirstRefused fw s.trace (phdr :: loadable rest) :=
        fun a granted refused => refused phdr rfl a granted
      refine wp_mono (loadDiscontSegment_holds index phdr) ?_ ?_
      · rintro _ t ⟨same, a, granted, first⟩
        refine wp_mono (ih (index + 1)) ?_ ?_
        · rintro _ u ⟨same', runs, later⟩
          exact ⟨same'.trans same, _, first.trans later⟩
        · rintro _ u ⟨same', runs, later, _⟩
          refine ⟨same'.trans same, _, first.trans later, ?_⟩
          simp [granted_first a granted]
      · rintro _ t ⟨same, outcome⟩
        cases outcome with
        | inl granted =>
          obtain ⟨a, granted, first⟩ := granted
          exact ⟨same, _, first, by simp [granted_first a granted]⟩
        | inr refused =>
          obtain ⟨⟨e, refused⟩, nothing⟩ := refused
          refine ⟨same, 0, nothing, fun _ p hp a granted => ?_, fun _ => rfl⟩
          cases hp
          rw [refused] at granted
          cases granted
    · rw [loadable_cons_of_not_load hload]
      simp only [loadDiscontLoop, if_neg hload]
      exact ih index

/-- The loop of the contiguous loader obtains and frees nothing. -/
theorem loadContLoop_holds {paddr : UINT64} (phdrs : List Elf64Phdr) (index : Nat) :
    wp (loadContLoop fw file index paddr phdrs)
      (fun _ s' => s'.vars.info.sections = s.vars.info.sections ∧ Holds s.trace s'.trace 0)
      (fun _ s' => s'.vars.info.sections = s.vars.info.sections ∧ Holds s.trace s'.trace 0) s := by
  induction phdrs generalizing index paddr s with
  | nil => exact ⟨rfl, Holds.refl _⟩
  | cons phdr rest ih =>
    by_cases hload : phdr.pType = ptLoad
    · simp only [loadContLoop, if_pos hload, wp_bind]
      have start := Holds.refl s.trace
      -- a segment acquires nothing, whichever call fails
      have segment : wp (loadContSegment fw file index paddr phdr)
          (fun _ s' => s'.vars.info.sections = s.vars.info.sections ∧ Holds s.trace s'.trace 0)
          (fun _ s' => s'.vars.info.sections = s.vars.info.sections ∧ Holds s.trace s'.trace 0)
          s := by
        simp only [loadContSegment, wp_bind, wp_setPosition, wp_readPages, setSection, wp_setInfo]
        refine ⟨fun _ => ⟨fun _ => ⟨rfl, ?_⟩, fun e _ => ⟨rfl, ?_⟩⟩, fun e _ => ⟨rfl, ?_⟩⟩
        · exact (start.skip _ rfl).skip _ rfl
        · exact (start.skip _ rfl).skip _ rfl
        · exact start.skip _ rfl
      refine wp_mono segment ?_ (fun _ _ h => h)
      rintro _ t ⟨same, first⟩
      refine wp_mono (ih (index + 1)) ?_ ?_
      · rintro _ u ⟨same', later⟩
        exact ⟨same'.trans same, first.trans later⟩
      · rintro _ u ⟨same', later⟩
        exact ⟨same'.trans same, first.trans later⟩
    · simp only [loadContLoop, if_neg hload]
      exact ih index

/-! ## The loaders -/

/-- No pages are granted to the discontiguous loader run from `s`: it does not get
    to ask for any, or the first request is refused. -/
def NoPagesGranted (fw : Firmware) (file : EfiFile) (s : Machine ElfVars) : Prop :=
  ∀ ehdr phdrs table t, elfGetFileInfo fw file s = .ok (ehdr, phdrs, table) t →
    FirstRefused fw t.trace (loadable (phdrTable ehdr table))

theorem GotFileInfo.sections_nonnull (hpool : fw.SoundPool)
    (info : GotFileInfo fw file s t ehdr phdrs table) : t.vars.info.sections ≠ 0 := by
  obtain ⟨_, granted⟩ := info.granted
  exact hpool.nonnull _ _ _ granted

theorem elfLoadFileDiscont_holds (hpool : fw.SoundPool) :
    wp (elfLoadFileDiscont fw file)
      (fun _ s' => ∃ buffer runs, Holds s.trace s'.trace
        (.pool buffer ::ₘ .pool s'.vars.info.sections ::ₘ runs))
      (fun stop s' => ∀ e, stop = .efi e → ∃ runs, Holds s.trace s'.trace runs ∧
        (runs = 0 ↔ NoPagesGranted fw file s)) s := by
  have fileInfo : wp (elfGetFileInfo fw file) _ _ s := elfGetFileInfo_holds
  rw [elfLoadFileDiscont, wp_bind]
  cases hget : elfGetFileInfo fw file s with
  | error stop u =>
    have nothing := wp_error fileInfo hget
    refine wp_of_error hget fun e _ => ⟨0, nothing, fun _ => ?_, fun _ => rfl⟩
    intro ehdr phdrs table t hok
    cases hok.symm.trans hget
  | ok r t =>
    obtain ⟨ehdr, phdrs, table⟩ := r
    have first := wp_ok fileInfo hget
    have info := wp_ok elfGetFileInfo_spec hget
    -- there is only one run of `elf_get_file_info` to speak of
    have granted_iff : FirstRefused fw t.trace (loadable (phdrTable ehdr table)) ↔
        NoPagesGranted fw file s := by
      constructor
      · intro refused ehdr' phdrs' table' t' hget'
        cases hget.symm.trans hget'
        exact refused
      · exact fun none => none ehdr phdrs table t hget
    refine wp_of_ok hget ?_
    rw [wp_onError]
    refine wp_mono (loadDiscontLoop_holds (phdrTable ehdr table) 0) ?_ ?_
    · rintro _ s' ⟨same, runs, later⟩
      have all := first.trans later
      exact ⟨phdrs, runs, by simpa [same] using all⟩
    · rintro stop u ⟨same, runs, later, refused⟩
      cases stop with
      | fault => exact fun e he => by cases he
      | efi e =>
        have all := first.trans later
        simp only [Multiset.cons_add, zero_add, ← same] at all
        -- so the section array is freed
        have nonnull : u.vars.info.sections ≠ 0 := by
          rw [same]
          exact info.sections_nonnull hpool
        refine wp_mono (errFreeLoadInfo_holds nonnull all) (fun _ _ h => h) ?_
        exact fun _ s' left _ _ => ⟨runs, left, refused.trans granted_iff⟩

theorem elfLoadFileCont_holds (hpool : fw.SoundPool) :
    wp (elfLoadFileCont fw file)
      (fun _ s' => ∃ buffer runs, Holds s.trace s'.trace
        (.pool buffer ::ₘ .pool s'.vars.info.sections ::ₘ runs))
      (fun stop s' => ∀ e, stop = .efi e → Holds s.trace s'.trace 0) s := by
  have fileInfo : wp (elfGetFileInfo fw file) _ _ s := elfGetFileInfo_holds
  rw [elfLoadFileCont, wp_bind]
  cases hget : elfGetFileInfo fw file s with
  | error stop u =>
    have nothing := wp_error fileInfo hget
    exact wp_of_error hget fun e _ => nothing
  | ok r t =>
    obtain ⟨ehdr, phdrs, table⟩ := r
    have first := wp_ok fileInfo hget
    have info := wp_ok elfGetFileInfo_spec hget
    have nonnull := info.sections_nonnull hpool
    refine wp_of_ok hget ?_
    simp only [wp_bind, wp_onError, wp_allocatePages, wp_zeroMem]
    refine ⟨fun loadBuffer _ => ?_, fun e _ => ?_⟩
    · have obtained := (first.obtain (.allocatePages (elfGetSectionSize ehdr table) (.ok loadBuffer))
        rfl).skip (.store loadBuffer.toNat (elfGetSectionSize ehdr table * 0x1000).toNat) rfl
      refine wp_mono (loadContLoop_holds (phdrTable ehdr table) 0) ?_ ?_
      · rintro _ s' ⟨same, later⟩
        change s'.vars.info.sections = t.vars.info.sections at same
        have all := obtained.trans later
        rw [add_zero, Multiset.cons_swap, Multiset.cons_swap (Resource.pages _ _), ← same] at all
        exact ⟨phdrs, _, all⟩
      · rintro stop u ⟨same, later⟩
        change u.vars.info.sections = t.vars.info.sections at same
        cases stop with
        | fault => exact fun e he => by cases he
        | efi e =>
          -- the load buffer is freed, then what `elf_get_file_info` obtained
          have all := obtained.trans later
          rw [add_zero, ← same] at all
          simp only [wp_freePages]
          refine wp_mono (errFreeLoadInfo_holds (same ▸ nonnull) (all.free _ rfl))
            (fun _ _ h => h) ?_
          exact fun _ s' left _ _ => left
    · refine wp_mono (errFreeLoadInfo_holds nonnull (first.skip _ rfl)) (fun _ _ h => h) ?_
      exact fun _ s' left _ _ => left

/-! ## Failed loads -/

/-- The state in which `elf_load_file` starts the discontiguous loader, where it
    comes to that after an error of the contiguous one. -/
def discontStart (fw : Firmware) (file : EfiFile) (s : Machine ElfVars) :
    ElfLoadtype → Option (Machine ElfVars)
  | .auto => some (after (elfLoadFileCont fw file) s)
  | .discontig => some s
  | .contig => none
  | .other _ => none

/-- A load that returns an error has returned what it obtained exactly if the
    discontiguous loader, where it was started, was granted no pages. -/
theorem failed_load_returns_all_iff {loadType : ElfLoadtype} {e : EfiError} (hpool : fw.SoundPool)
    (failed : elfLoadFile fw file loadType s = .error (.efi e) s') :
    Holds s.trace s'.trace 0 ↔ ∀ u ∈ discontStart fw file s loadType, NoPagesGranted fw file u := by
  -- only the discontiguous loader leaves something
  have discont : ∀ {u}, elfLoadFileDiscont fw file u = .error (.efi e) s' →
      ∃ runs, Holds u.trace s'.trace runs ∧ (runs = 0 ↔ NoPagesGranted fw file u) :=
    fun h => wp_error (elfLoadFileDiscont_holds hpool) h e rfl
  cases loadType with
  | auto =>
    cases contig : elfLoadFileCont fw file s with
    | ok _ u =>
      simp only [elfLoadFile, onError, contig] at failed
      cases failed
    | error stop u =>
      cases stop with
      | fault =>
        simp only [elfLoadFile, onError, contig] at failed
        cases failed
      | efi e' =>
        have first := wp_error (elfLoadFileCont_holds hpool) contig e' rfl
        simp only [elfLoadFile, onError, contig] at failed
        obtain ⟨runs, later, none_iff⟩ := discont failed
        have all := first.trans later
        rw [zero_add] at all
        simp only [discontStart, after_of_error contig, Option.mem_some_iff, forall_eq']
        rw [← none_iff]
        exact ⟨fun nothing => all.unique nothing, fun none => none ▸ all⟩
  | contig =>
    have nothing := wp_error (elfLoadFileCont_holds hpool) failed e rfl
    simp [discontStart, nothing]
  | discontig =>
    obtain ⟨runs, all, none_iff⟩ := discont failed
    simp only [discontStart, Option.mem_some_iff, forall_eq']
    rw [← none_iff]
    exact ⟨fun nothing => all.unique nothing, fun none => none ▸ all⟩
  | other value =>
    cases failed
    simp [discontStart, Holds.refl]

/-! ## Unloading -/

/-- What `efi_main` does with a loaded program before it returns. -/
def unload : ElfM Unit := do
  elfFreeSections
  elfFreeLoadinfo

def Resource.IsPool : Resource → Prop
  | .pool _ => True
  | .pages _ _ => False

instance : DecidablePred Resource.IsPool
  | .pool _ => .isTrue trivial
  | .pages _ _ => .isFalse id

/-- From `s` to `s'`, pages were freed and at most `n` pool buffers, and nothing
    was obtained. -/
def Frees (n : Nat) (s s' : Machine ElfVars) : Prop :=
  ∃ evs, s'.trace = evs ++ s.trace ∧
    countAcquired Resource.IsPool (evs.filterMap Event.entry) = 0 ∧
    countReleased Resource.IsPool (evs.filterMap Event.entry) ≤ n

theorem Frees.refl (s : Machine ElfVars) : Frees 0 s s := ⟨[], rfl, rfl, Nat.le_refl 0⟩

theorem Frees.freePages {a : UINT64} {n : UINTN} (frees : Frees 0 s t) :
    Frees 0 s (t.emit (.freePages a n)) := by
  obtain ⟨evs, htrace, acquired, released⟩ := frees
  exact ⟨.freePages a n :: evs, congrArg _ htrace, acquired, released⟩

theorem Frees.freePool {a : UINT64} (frees : Frees 0 s t) :
    Frees 1 s (t.emit (.freePool a)) := by
  obtain ⟨evs, htrace, acquired, released⟩ := frees
  exact ⟨.freePool a :: evs, congrArg _ htrace, acquired, Nat.succ_le_succ released⟩

theorem unload_frees :
    wp unload (fun _ s' => Frees 1 s s') (fun _ s' => Frees 1 s s') s := by
  have less : ∀ {t}, Frees 0 s t → Frees 1 s t :=
    fun ⟨evs, htrace, acquired, released⟩ => ⟨evs, htrace, acquired, Nat.le_succ_of_le released⟩
  have sections : wp elfFreeSections (fun _ t => Frees 0 s t) (fun _ t => Frees 0 s t) s := by
    simp only [elfFreeSections, wp_bind, wp_get]
    refine wp_forUp (I := fun _ t => Frees 0 s t) (fun k t _ _ frees => ?_) (Frees.refl s)
    simp only [freeSection, wp_bind, wp_get]
    cases t.vars.info.sectionInfos[k]? with
    | none => exact frees
    | some sec => exact frees.freePages
  simp only [unload, wp_bind]
  refine wp_mono sections (fun _ t frees => ?_) (fun _ _ => less)
  simp only [elfFreeLoadinfo, wp_bind, wp_get, wp_ite, wp_freePool, wp_setInfo]
  exact ⟨fun _ => frees.freePool, fun _ => less frees⟩

/-- A successful load holds two pool buffers. -/
theorem elfLoadFile_holds {loadType : ElfLoadtype} (hpool : fw.SoundPool)
    (loaded : elfLoadFile fw file loadType s = .ok () s') :
    ∃ buffer runs, Holds s.trace s'.trace
      (.pool buffer ::ₘ .pool s'.vars.info.sections ::ₘ runs) := by
  cases loadType with
  | auto =>
    cases contig : elfLoadFileCont fw file s with
    | ok _ u =>
      simp only [elfLoadFile, onError, contig] at loaded
      cases loaded
      exact wp_ok (elfLoadFileCont_holds hpool) contig
    | error stop u =>
      cases stop with
      | fault =>
        simp only [elfLoadFile, onError, contig] at loaded
        cases loaded
      | efi e =>
        have first := wp_error (elfLoadFileCont_holds hpool) contig e rfl
        simp only [elfLoadFile, onError, contig] at loaded
        obtain ⟨buffer, runs, later⟩ := wp_ok (elfLoadFileDiscont_holds hpool) loaded
        have all := first.trans later
        rw [zero_add] at all
        exact ⟨buffer, runs, all⟩
  | contig => exact wp_ok (elfLoadFileCont_holds hpool) loaded
  | discontig => exact wp_ok (elfLoadFileDiscont_holds hpool) loaded
  | other value => cases loaded

/-- Unloading never returns all that a load obtained: of two pool buffers it frees
    at most one. -/
theorem unload_never_returns_all {loadType : ElfLoadtype} (hpool : fw.SoundPool)
    (loaded : elfLoadFile fw file loadType s = .ok () s') :
    ¬Holds s.trace (after unload s').trace 0 := by
  intro nothing
  obtain ⟨buffer, runs, holds⟩ := elfLoadFile_holds hpool loaded
  obtain ⟨evs, htrace, acquired, released⟩ :=
    wp_after (P := Frees 1 s') unload_frees (fun _ _ h => h) (fun _ _ h => h)
  have count := settle_count (p := Resource.IsPool) (holds.settle_rest nothing htrace)
  have two : 2 ≤ (Resource.pool buffer ::ₘ .pool s'.vars.info.sections ::ₘ runs).countP
      Resource.IsPool := by
    simp [Multiset.countP_cons, Resource.IsPool]
  rw [Multiset.countP_zero] at count
  omega

end Load

/-! ## Two segments -/

def twoSegmentElf : EfiFile :=
  ⟨elfBytes [oneSegmentPhdr 3 5, oneSegmentPhdr 3 5] [], by decide +kernel⟩

/-- The discontiguous loader on a machine that has pages for the first segment only. -/
def fullMachine : Machine ElfVars :=
  after (elfLoadFile (Firmware.bump 0x4000) twoSegmentElf .discontig) openedMachine

theorem fullMachine_eq :
    elfLoadFile (Firmware.bump 0x4000) twoSegmentElf .discontig openedMachine =
      .error (.efi .outOfResources) fullMachine :=
  eq_error_of_stopOf (by decide +kernel)

theorem not_holds_of_settle {h : List Event}
    (h' : settle (h.filterMap Event.entry) 0 ≠ some 0) : ¬Holds [] h 0 := by
  rintro ⟨evs, htrace, settled⟩
  rw [List.append_nil] at htrace
  exact h' (htrace ▸ settled)

theorem loaded_segment_not_freed :
    (Firmware.bump 0x4000).SoundPool ∧
    elfLoadFile (Firmware.bump 0x4000) twoSegmentElf .discontig openedMachine =
      .error (.efi .outOfResources) fullMachine ∧
    ¬Holds openedMachine.trace fullMachine.trace 0 :=
  ⟨Firmware.bump_soundPool _ (by decide), fullMachine_eq, not_holds_of_settle (by decide +kernel)⟩

theorem failed_load_returns_all_iff_full :
    ¬∀ u ∈ discontStart (Firmware.bump 0x4000) twoSegmentElf openedMachine .discontig,
      NoPagesGranted (Firmware.bump 0x4000) twoSegmentElf u :=
  fun none => not_holds_of_settle (h := fullMachine.trace) (by decide +kernel)
    ((failed_load_returns_all_iff (Firmware.bump_soundPool _ (by decide)) fullMachine_eq).mpr none)

/-! ## Loaded and unloaded -/

def loadedSample : Machine ElfVars :=
  after (elfLoadFile (Firmware.bump (2 ^ 30)) sampleElf .discontig) openedMachine

theorem loadedSample_eq :
    elfLoadFile (Firmware.bump (2 ^ 30)) sampleElf .discontig openedMachine = .ok () loadedSample :=
  eq_ok_of_succeeds (by decide +kernel)

/-- What is left is the buffer of the program headers. -/
theorem headers_not_freed :
    (Firmware.bump (2 ^ 30)).SoundPool ∧
    elfLoadFile (Firmware.bump (2 ^ 30)) sampleElf .discontig openedMachine = .ok () loadedSample ∧
    succeeds unload loadedSample = true ∧
    settle ((after unload loadedSample).trace.filterMap Event.entry) 0 = some {.pool 0x1000} ∧
    ¬Holds openedMachine.trace (after unload loadedSample).trace 0 :=
  ⟨Firmware.bump_soundPool _ (by decide), loadedSample_eq, by decide +kernel, by decide +kernel,
    not_holds_of_settle (by decide +kernel)⟩

theorem unload_never_returns_all_sample :
    ¬Holds openedMachine.trace (after unload loadedSample).trace 0 :=
  unload_never_returns_all (Firmware.bump_soundPool _ (by decide)) loadedSample_eq

end MidnightOS.Nyxboot
