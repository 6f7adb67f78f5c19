import MidnightOS.Nyxboot.WellFormedElf

/-! # Where segments are read to

Neither loader compares `p_filesz` with `p_memsz`, and the contiguous one does
not compare its buffer with what its sections take.  `reads_inside_iff` is about
a program header table: in every run that reads it, whatever the firmware
answers, all segment reads stay inside the pages of their sections, exactly if
the sizes in the table allow it.

That direction which needs a run that goes wrong uses a machine that has the
whole physical memory for pages, and a file made from the table.
-/

namespace MidnightOS.Nyxboot

open MidnightOS.Lib

/-! ## What a trace shows -/

/-- The reads of segments, oldest first: size and buffer. -/
def segmentReads (evs : List Event) : List (UINTN × UINT64) :=
  evs.reverse.filterMap fun
    | .read n (some b) _ => some (n, b)
    | _ => none

theorem segmentReads_append (evs' evs : List Event) :
    segmentReads (evs' ++ evs) = segmentReads evs ++ segmentReads evs' := by
  simp [segmentReads]

/-- The page requests among `evs`, which came after `h`, were answered by `fw`,
    and no pages were freed. -/
def Grants (fw : Firmware) (h : List Event) : List Event → Prop
  | [] => True
  | .allocatePages n (.ok a) :: evs => fw.allocatePages (evs ++ h) n = .ok a ∧ Grants fw h evs
  | .freePages _ _ :: _ => False
  | _ :: evs => Grants fw h evs

/-- An event that changes no pages. -/
def Idle : Event → Prop
  | .allocatePages _ (.ok _) => False
  | .freePages _ _ => False
  | _ => True

section Grants

variable {fw : Firmware} {h evs evs' : List Event} {ev : Event}

theorem Idle.grants (idle : Idle ev) : Grants fw h (ev :: evs) ↔ Grants fw h evs := by
  cases ev with
  | allocatePages n res =>
    cases res with
    | ok a => exact absurd idle id
    | error e => exact Iff.rfl
  | freePages a n => exact absurd idle id
  | _ => exact Iff.rfl

theorem Idle.obtainedRuns (idle : Idle ev) : obtainedRuns (ev :: evs) = obtainedRuns evs := by
  cases ev with
  | allocatePages n res =>
    cases res with
    | ok a => exact absurd idle id
    | error e => rfl
  | freePages a n => exact absurd idle id
  | _ => rfl

theorem Idle.pagesHeld (idle : Idle ev) (x : Nat) : PagesHeld (ev :: h) x ↔ PagesHeld h x := by
  cases ev with
  | allocatePages n res =>
    cases res with
    | ok a => exact absurd idle id
    | error e => exact Iff.rfl
  | freePages a n => exact absurd idle id
  | _ => exact Iff.rfl

/-- A request was answered, or the event is idle. -/
@[elab_as_elim]
theorem Grants.induction {motive : ∀ evs, Grants fw h evs → Prop} (nil : motive [] trivial)
    (granted : ∀ n a evs (ok : fw.allocatePages (evs ++ h) n = .ok a) (g : Grants fw h evs),
      motive evs g → motive (.allocatePages n (.ok a) :: evs) ⟨ok, g⟩)
    (other : ∀ ev evs (idle : Idle ev) (g : Grants fw h evs),
      motive evs g → motive (ev :: evs) (idle.grants.mpr g)) :
    ∀ evs g, motive evs g := by
  intro evs g
  induction evs with
  | nil => exact nil
  | cons ev evs ih =>
    cases ev with
    | allocatePages n res =>
      cases res with
      | ok a => exact granted n a evs g.1 g.2 (ih g.2)
      | error e =>
        refine other _ evs ?_ g (ih g)
        exact trivial
    | freePages a n => exact absurd g id
    | _ =>
      refine other _ evs ?_ g (ih g)
      exact trivial

theorem Grants.append (g' : Grants fw (evs ++ h) evs') (g : Grants fw h evs) :
    Grants fw h (evs' ++ evs) := by
  induction evs', g' using Grants.induction with
  | nil => exact g
  | granted n a evs' ok g' ih =>
    rw [List.cons_append, Grants, List.append_assoc]
    exact ⟨ok, ih⟩
  | other ev evs' idle g' ih => exact idle.grants.mpr ih

/-- What was obtained is held. -/
theorem Grants.held (g : Grants fw h evs) {r : UINT64 × UINTN} (hr : r ∈ obtainedRuns evs)
    {x : Nat} (lo : r.1.toNat ≤ x) (hi : x < r.1.toNat + 4096 * r.2.toNat) :
    PagesHeld (evs ++ h) x := by
  induction evs, g using Grants.induction with
  | nil => cases hr
  | granted n a evs ok g ih =>
    rw [obtainedRuns] at hr
    cases hr with
    | head => exact Or.inl ⟨lo, hi⟩
    | tail _ hr => exact Or.inr (ih hr)
  | other ev evs idle g ih =>
    rw [idle.obtainedRuns] at hr
    exact (idle.pagesHeld x).mpr (ih hr)

theorem Grants.below (hfw : fw.SoundPages) (g : Grants fw h evs) :
    ∀ r ∈ obtainedRuns evs, r.1.toNat + 4096 * r.2.toNat ≤ 2 ^ 52 := by
  induction evs, g using Grants.induction with
  | nil => simp [obtainedRuns]
  | granted n a evs ok g ih =>
    rw [obtainedRuns, List.forall_mem_cons]
    exact ⟨hfw.below _ _ _ ok, ih⟩
  | other ev evs idle g ih =>
    rw [idle.obtainedRuns]
    exact ih

/-- Runs that are all still held do not overlap. -/
theorem Grants.disjoint (hfw : fw.SoundPages) (g : Grants fw h evs) :
    (obtainedRuns evs).Pairwise fun r r' => ∀ x, r.1.toNat ≤ x →
      x < r.1.toNat + 4096 * r.2.toNat → ¬(r'.1.toNat ≤ x ∧ x < r'.1.toNat + 4096 * r'.2.toNat) := by
  induction evs, g using Grants.induction with
  | nil => simp [obtainedRuns]
  | granted n a evs ok g ih =>
    rw [obtainedRuns, List.pairwise_cons]
    refine ⟨fun r' hr' x lo hi inside => ?_, ih⟩
    exact hfw.fresh _ _ _ ok x lo hi (Or.inl (g.held hr' inside.1 inside.2))
  | other ev evs idle g ih =>
    rw [idle.obtainedRuns]
    exact ih

end Grants

/-! ## Reads inside their sections -/

/-- The pages of the section that `p`, a segment and the address it is read to,
    becomes. -/
def sectionOf (p : Elf64Phdr × UINT64) : ElfSectioninfo := loadedSection p.1 p.2

/-- The reads of segments among `evs`: `placed` are the segments read, in the
    order of `phdrs`, with the addresses they are read to.  Each read asks for at
    most the pages of its section, these were obtained, and the sections do not
    overlap. -/
structure ReadsInside (phdrs : List Elf64Phdr) (evs : List Event)
    (placed : List (Elf64Phdr × UINT64)) : Prop where
  order : placed.map (·.1) <+: loadable phdrs
  reads : segmentReads evs = placed.map fun p => (p.1.pFilesz, p.2)
  size : ∀ p ∈ placed, p.1.pFilesz.toNat ≤ 4096 * (segmentPages p.1).toNat
  obtained : ∀ p ∈ placed, ∃ r ∈ obtainedRuns evs, r.1.toNat ≤ p.2.toNat ∧
    p.2.toNat + 4096 * (segmentPages p.1).toNat ≤ r.1.toNat + 4096 * r.2.toNat
  apart : (placed.map sectionOf).Pairwise fun sec sec' => ∀ x, sec.Owns x → ¬sec'.Owns x

/-- In every run of `load` that takes `phdrs` from the file, the segments are read
    inside their sections. -/
def LoadsInside (load : Firmware → EfiFile → ElfM Unit) (phdrs : List Elf64Phdr) : Prop :=
  ∀ fw file s t ehdr buffer table evs, fw.SoundPages →
    elfGetFileInfo fw file s = .ok (ehdr, buffer, table) t → phdrTable ehdr table = phdrs →
    (after (load fw file) s).trace = evs ++ s.trace → ∃ placed, ReadsInside phdrs evs placed

/-- Nothing here reads a segment or obtains pages. -/
structure Quiet (evs : List Event) : Prop where
  reads : segmentReads evs = []
  runs : obtainedRuns evs = []

theorem Quiet.nil : Quiet [] := ⟨rfl, rfl⟩

theorem Quiet.freePools (buffers : List UINT64) : Quiet (buffers.map Event.freePool) := by
  induction buffers with
  | nil => exact Quiet.nil
  | cons buffer buffers ih =>
    refine ⟨?_, ih.runs⟩
    rw [List.map_cons, ← List.singleton_append, segmentReads_append, ih.reads]
    rfl

theorem Quiet.append {evs evs' : List Event} (h' : Quiet evs') (h : Quiet evs) :
    Quiet (evs' ++ evs) :=
  ⟨by rw [segmentReads_append, h.reads, h'.reads]; rfl,
    by rw [obtainedRuns_append, h.runs, h'.runs]; rfl⟩

theorem fileInfoEvents_quiet (ehdr : Elf64Ehdr) (table : Mem) (buffer sections : UINT64) :
    Quiet (fileInfoEvents ehdr table buffer sections) := ⟨rfl, rfl⟩

section Quiet

variable {phdrs : List Elf64Phdr} {evs clean start : List Event}
  {placed : List (Elf64Phdr × UINT64)}

theorem ReadsInside.congr {evs' : List Event} (inside : ReadsInside phdrs evs placed)
    (reads : segmentReads evs' = segmentReads evs) (runs : obtainedRuns evs' = obtainedRuns evs) :
    ReadsInside phdrs evs' placed where
  order := inside.order
  reads := reads.trans inside.reads
  size := inside.size
  obtained := by
    rw [runs]
    exact inside.obtained
  apart := inside.apart

theorem Quiet.reads_between (h' : Quiet clean) (h : Quiet start) :
    segmentReads (clean ++ evs ++ start) = segmentReads evs := by
  simp [segmentReads_append, h.reads, h'.reads]

theorem Quiet.runs_between (h' : Quiet clean) (h : Quiet start) :
    obtainedRuns (clean ++ evs ++ start) = obtainedRuns evs := by
  simp [obtainedRuns_append, h.runs, h'.runs]

theorem ReadsInside.between (inside : ReadsInside phdrs evs placed) (h' : Quiet clean)
    (h : Quiet start) : ReadsInside phdrs (clean ++ evs ++ start) placed :=
  inside.congr (h'.reads_between h) (h'.runs_between h)

end Quiet

/-! ## The discontiguous loader -/

section Discont

variable {fw : Firmware} {file : EfiFile} {s s' t : Machine ElfVars}

/-- The events of loading `phdr` to `paddr`, newest first. -/
def segmentEvents (phdr : Elf64Phdr) (paddr : UINT64) : List Event :=
  [.read phdr.pFilesz (some paddr) (.ok ()), .setPosition phdr.pOffset (.ok ()),
    .store paddr.toNat (segmentPages phdr * 0x1000).toNat,
    .allocatePages (segmentPages phdr) (.ok paddr)]

/-- What the loop did between `s` and `s'` for the segments `segs`: it obtained the
    pages of `placed`, and read all of them, or all but the last. -/
structure DiscontTrace (fw : Firmware) (segs : List Elf64Phdr) (s s' : Machine ElfVars)
    (evs : List Event) (placed : List (Elf64Phdr × UINT64)) : Prop where
  trace : s'.trace = evs ++ s.trace
  grants : Grants fw s.trace evs
  order : placed.map (·.1) <+: segs
  runs : obtainedRuns evs = (placed.map fun p => (p.2, segmentPages p.1)).reverse
  reads : segmentReads evs <+: placed.map fun p => (p.1.pFilesz, p.2)

/-- After a segment that was loaded. -/
theorem DiscontTrace.cons {phdr : Elf64Phdr} {paddr : UINT64} {segs : List Elf64Phdr}
    {evs : List Event} {placed : List (Elf64Phdr × UINT64)}
    (granted : fw.allocatePages s.trace (segmentPages phdr) = .ok paddr)
    (htrace : t.trace = segmentEvents phdr paddr ++ s.trace)
    (rest : DiscontTrace fw segs t s' evs placed) :
    DiscontTrace fw (phdr :: segs) s s' (evs ++ segmentEvents phdr paddr)
      ((phdr, paddr) :: placed) where
  trace := by rw [rest.trace, htrace, List.append_assoc]
  grants := by
    have later := rest.grants
    rw [htrace] at later
    exact later.append ⟨granted, trivial⟩
  order := by simpa using rest.order
  runs := by simp [obtainedRuns_append, rest.runs, segmentEvents, obtainedRuns]
  reads := by
    rw [segmentReads_append, List.map_cons]
    change (phdr.pFilesz, paddr) :: segmentReads evs <+: _
    exact List.cons_prefix_cons.mpr ⟨rfl, rest.reads⟩

theorem loadDiscontSegment_trace (index : Nat) (phdr : Elf64Phdr) (segs : List Elf64Phdr) :
    wp (loadDiscontSegment fw file index phdr)
      (fun _ s' => ∃ paddr, fw.allocatePages s.trace (segmentPages phdr) = .ok paddr ∧
        s'.trace = segmentEvents phdr paddr ++ s.trace)
      (fun _ s' => ∃ evs placed, DiscontTrace fw (phdr :: segs) s s' evs placed) s := by
  simp only [loadDiscontSegment, wp_bind, wp_allocatePages, wp_zeroMem, wp_setPosition,
    wp_readPages, setSection, wp_setInfo]
  refine ⟨fun paddr granted => ⟨fun _ => ⟨fun _ => ?_, fun e _ => ?_⟩, fun e _ => ?_⟩, fun e _ => ?_⟩
  · exact ⟨paddr, granted, rfl⟩
  · exact ⟨.read phdr.pFilesz (some paddr) (.error e) :: (segmentEvents phdr paddr).tail,
      [(phdr, paddr)], rfl, ⟨granted, trivial⟩, by simp, rfl, by
      simp [segmentReads, segmentEvents]⟩
  · exact ⟨.setPosition phdr.pOffset (.error e) :: (segmentEvents phdr paddr).tail.tail,
      [(phdr, paddr)], rfl, ⟨granted, trivial⟩, by simp, rfl, by
      simp [segmentReads, segmentEvents]⟩
  · exact ⟨[.allocatePages (segmentPages phdr) (.error e)], [], rfl, trivial, by simp, rfl, by
      simp [segmentReads]⟩

theorem loadDiscontLoop_trace (phdrs : List Elf64Phdr) (index : Nat) :
    wp (loadDiscontLoop fw file index phdrs)
      (fun _ s' => ∃ evs placed, DiscontTrace fw (loadable phdrs) s s' evs placed)
      (fun _ s' => ∃ evs placed, DiscontTrace fw (loadable phdrs) s s' evs placed) s := by
  induction phdrs generalizing index s with
  | nil => exact ⟨[], [], rfl, trivial, by simp, rfl, by simp [segmentReads]⟩
  | cons phdr rest ih =>
    by_cases hload : phdr.pType = ptLoad
    · rw [loadable_cons_of_load hload]
      simp only [loadDiscontLoop, if_pos hload, wp_bind]
      refine wp_mono (loadDiscontSegment_trace index phdr (loadable rest)) ?_ (fun _ _ h => h)
      rintro _ t ⟨paddr, granted, htrace⟩
      -- however the rest goes, its trace comes after that of this segment
      refine wp_mono (ih (index + 1)) ?_ ?_
      · rintro _ s' ⟨evs, placed, tail⟩
        exact ⟨_, _, tail.cons granted htrace⟩
      · rintro _ s' ⟨evs, placed, tail⟩
        exact ⟨_, _, tail.cons granted htrace⟩
    · rw [loadable_cons_of_not_load hload]
      simp only [loadDiscontLoop, if_neg hload]
      exact ih index

/-- The pages that the sections of `segs` take. -/
def pagesOf (segs : List Elf64Phdr) : Nat := (segs.map fun phdr => (segmentPages phdr).toNat).sum

@[simp] theorem pagesOf_nil : pagesOf [] = 0 := rfl

@[simp] theorem pagesOf_cons (phdr : Elf64Phdr) (segs : List Elf64Phdr) :
    pagesOf (phdr :: segs) = (segmentPages phdr).toNat + pagesOf segs := rfl

@[simp] theorem pagesOf_append (segs segs' : List Elf64Phdr) :
    pagesOf (segs ++ segs') = pagesOf segs + pagesOf segs' := by
  simp [pagesOf]

/-- A segment whose pages, with those of the segments before it, there can be has
    at most that many bytes in the file. -/
def DiscontSafe (segs : List Elf64Phdr) : Prop :=
  ∀ before phdr rest, segs = before ++ phdr :: rest → pagesOf (before ++ [phdr]) ≤ 2 ^ 40 →
    phdr.pFilesz.toNat ≤ 4096 * (segmentPages phdr).toNat

theorem DiscontTrace.pages_le {segs : List Elf64Phdr} {evs : List Event}
    {placed : List (Elf64Phdr × UINT64)} (hfw : fw.SoundPages)
    (run : DiscontTrace fw segs s s' evs placed) : pagesOf (placed.map (·.1)) ≤ 2 ^ 40 := by
  have bound := sum_runs_le (run.grants.below hfw) (run.grants.disjoint hfw)
  rw [run.runs, List.map_reverse, List.sum_reverse, List.map_map] at bound
  rwa [pagesOf, List.map_map]

theorem DiscontTrace.readsInside {phdrs : List Elf64Phdr} {evs : List Event}
    {placed : List (Elf64Phdr × UINT64)} (hfw : fw.SoundPages)
    (run : DiscontTrace fw (loadable phdrs) s s' evs placed) (safe : DiscontSafe (loadable phdrs)) :
    ReadsInside phdrs evs (placed.take (segmentReads evs).length) where
  order := by
    rw [List.map_take]
    exact (List.take_prefix _ _).trans run.order
  reads := by
    rw [List.map_take]
    exact List.prefix_iff_eq_take.mp run.reads
  size := by
    intro p hp
    obtain ⟨before, after, split⟩ := List.append_of_mem (List.mem_of_mem_take hp)
    obtain ⟨rest, order⟩ := run.order
    have pages := run.pages_le hfw
    rw [split, List.map_append, List.map_cons] at order pages
    apply safe (before.map (·.1)) p.1 (after.map (·.1) ++ rest)
    · rw [← order]
      simp
    · simp only [pagesOf_append, pagesOf_cons, pagesOf_nil] at pages ⊢
      omega
  obtained := by
    intro p hp
    refine ⟨(p.2, segmentPages p.1), ?_, Nat.le_refl _, Nat.le_refl _⟩
    rw [run.runs, List.mem_reverse]
    exact List.mem_map_of_mem (List.mem_of_mem_take hp)
  apart := by
    -- each segment has a run of its own, and runs held at once are disjoint
    have disjoint := run.grants.disjoint hfw
    rw [run.runs, List.pairwise_reverse, List.pairwise_map] at disjoint
    rw [List.pairwise_map]
    refine (disjoint.sublist (List.take_sublist _ _)).imp ?_
    intro p p' apart x inside inside'
    exact apart x inside'.1 inside'.2 inside

/-- What every end of the loop satisfies is how far any run of the discontiguous
    loader comes, but for a cleanup. -/
theorem elfLoadFileDiscont_after {ehdr : Elf64Ehdr} {buffer : UINT64} {table : Mem}
    {R : Machine ElfVars → Prop} (hget : elfGetFileInfo fw file s = .ok (ehdr, buffer, table) t)
    (loop : wp (loadDiscontLoop fw file 0 (phdrTable ehdr table)) (fun _ => R) (fun _ => R) t) :
    ∃ u clean, R u ∧ (after (elfLoadFileDiscont fw file) s).trace = clean ++ u.trace ∧
      Quiet clean := by
  have run : wp (elfLoadFileDiscont fw file) (fun _ => R)
      (fun _ s' => ∃ u clean, R u ∧ s'.trace = clean ++ u.trace ∧ Quiet clean) s := by
    rw [elfLoadFileDiscont, wp_bind]
    refine wp_of_ok hget ?_
    rw [wp_onError]
    refine wp_mono loop (fun _ _ h => h) ?_
    intro stop u reached
    cases stop with
    | fault => exact ⟨u, [], reached, rfl, Quiet.nil⟩
    | efi e =>
      refine wp_mono errFreeLoadInfo_spec (fun _ _ h => h) ?_
      rintro _ s' ⟨_, buffers, htrace⟩
      exact ⟨u, _, reached, htrace, Quiet.freePools buffers⟩
  refine wp_after run ?_ (fun _ _ h => h)
  exact fun _ s' reached => ⟨s', [], reached, rfl, Quiet.nil⟩

theorem loadsInside_discont_of_safe {phdrs : List Elf64Phdr} (safe : DiscontSafe (loadable phdrs)) :
    LoadsInside elfLoadFileDiscont phdrs := by
  intro fw file s t ehdr buffer table evs hfw hget htable htrace
  obtain ⟨u, clean, ⟨loopEvs, placed, loop⟩, hclean, quiet⟩ :=
    elfLoadFileDiscont_after hget (loadDiscontLoop_trace _ _)
  have info := wp_ok elfGetFileInfo_spec hget
  rw [htable] at loop
  rw [htrace, loop.trace, info.trace, ← List.append_assoc, ← List.append_assoc] at hclean
  have split := List.append_cancel_right hclean
  subst split
  exact ⟨_, (loop.readsInside hfw safe).between quiet (fileInfoEvents_quiet _ _ _ _)⟩

end Discont

/-! ## The contiguous loader -/

section Cont

variable {fw : Firmware} {file : EfiFile} {s s' t : Machine ElfVars} {run : UINT64}
  {pageCount : UINTN}

/-- The segments are read to addresses from `paddr` on, each as far on as the
    segment before it is rounded to. -/
def Laid : UINT64 → List (Elf64Phdr × UINT64) → Prop
  | _, [] => True
  | paddr, p :: placed => p.2 = paddr ∧ Laid (paddr + alignedMemsz p.1) placed

/-- What the loop did between `s` and `s'` for the segments `segs`: it read those
    of `placed`. -/
structure ContTrace (segs : List Elf64Phdr) (paddr : UINT64) (s s' : Machine ElfVars)
    (evs : List Event) (placed : List (Elf64Phdr × UINT64)) : Prop where
  trace : s'.trace = evs ++ s.trace
  order : placed.map (·.1) <+: segs
  laid : Laid paddr placed
  runs : obtainedRuns evs = []
  reads : segmentReads evs = placed.map fun p => (p.1.pFilesz, p.2)

theorem ContTrace.cons {phdr : Elf64Phdr} {paddr : UINT64} {segs : List Elf64Phdr}
    {evs : List Event} {placed : List (Elf64Phdr × UINT64)}
    (htrace : t.trace = .read phdr.pFilesz (some paddr) (.ok ()) ::
      .setPosition phdr.pOffset (.ok ()) :: s.trace)
    (rest : ContTrace segs (paddr + alignedMemsz phdr) t s' evs placed) :
    ContTrace (phdr :: segs) paddr s s'
      (evs ++ [.read phdr.pFilesz (some paddr) (.ok ()), .setPosition phdr.pOffset (.ok ())])
      ((phdr, paddr) :: placed) where
  trace := by simp [rest.trace, htrace]
  order := by simpa using rest.order
  laid := ⟨rfl, rest.laid⟩
  runs := by simp [obtainedRuns_append, rest.runs, obtainedRuns]
  reads := by
    rw [segmentReads_append, rest.reads]
    rfl

theorem loadContSegment_trace (index : Nat) (paddr : UINT64) (phdr : Elf64Phdr)
    (segs : List Elf64Phdr) :
    wp (loadContSegment fw file index paddr phdr)
      (fun _ s' => s'.trace = .read phdr.pFilesz (some paddr) (.ok ()) ::
        .setPosition phdr.pOffset (.ok ()) :: s.trace)
      (fun _ s' => ∃ evs placed, ContTrace (phdr :: segs) paddr s s' evs placed) s := by
  simp only [loadContSegment, wp_bind, wp_setPosition, wp_readPages, setSection, wp_setInfo]
  refine ⟨fun _ => ⟨fun _ => rfl, fun e _ => ?_⟩, fun e _ => ?_⟩
  · exact ⟨[.read phdr.pFilesz (some paddr) (.error e), .setPosition phdr.pOffset (.ok ())],
      [(phdr, paddr)], rfl, by simp, ⟨rfl, trivial⟩, rfl, rfl⟩
  · exact ⟨[.setPosition phdr.pOffset (.error e)], [], rfl, by simp, trivial, rfl, rfl⟩

theorem loadContLoop_trace (phdrs : List Elf64Phdr) (index : Nat) (paddr : UINT64) :
    wp (loadContLoop fw file index paddr phdrs)
      (fun _ s' => ∃ evs placed, ContTrace (loadable phdrs) paddr s s' evs placed)
      (fun _ s' => ∃ evs placed, ContTrace (loadable phdrs) paddr s s' evs placed) s := by
  induction phdrs generalizing index paddr s with
  | nil => exact ⟨[], [], rfl, by simp, trivial, rfl, rfl⟩
  | cons phdr rest ih =>
    by_cases hload : phdr.pType = ptLoad
    · rw [loadable_cons_of_load hload]
      simp only [loadContLoop, if_pos hload, wp_bind]
      refine wp_mono (loadContSegment_trace index paddr phdr (loadable rest)) ?_ (fun _ _ h => h)
      intro _ t htrace
      refine wp_mono (ih (index + 1) (paddr + alignedMemsz phdr)) ?_ ?_
      · rintro _ s' ⟨evs, placed, tail⟩
        exact ⟨_, _, tail.cons htrace⟩
      · rintro _ s' ⟨evs, placed, tail⟩
        exact ⟨_, _, tail.cons htrace⟩
    · rw [loadable_cons_of_not_load hload]
      simp only [loadContLoop, if_neg hload]
      exact ih index paddr

/-- Where addresses do not wrap, the sections lie one after another. -/
theorem Laid.contiguous {paddr : UINT64} {placed : List (Elf64Phdr × UINT64)}
    (laid : Laid paddr placed)
    (room : paddr.toNat + 4096 * pagesOf (placed.map (·.1)) ≤ 2 ^ 52) :
    Contiguous paddr.toNat (placed.map sectionOf) := by
  induction placed generalizing paddr with
  | nil => trivial
  | cons p placed ih =>
    obtain ⟨addr, rest⟩ := laid
    rw [List.map_cons, pagesOf_cons] at room
    have next : (paddr + alignedMemsz p.1).toNat =
        paddr.toNat + 4096 * (segmentPages p.1).toNat := by
      rw [BitVec.toNat_add, alignedMemsz_toNat]
      omega
    refine ⟨congrArg BitVec.toNat addr, ?_⟩
    change Contiguous (paddr.toNat + 4096 * (segmentPages p.1).toNat) _
    rw [← next]
    apply ih rest
    rw [next]
    omega

/-- Sections one after another do not overlap. -/
theorem Contiguous.apart {base : Nat} {secs : List ElfSectioninfo} (h : Contiguous base secs) :
    secs.Pairwise fun sec sec' => ∀ x, sec.Owns x → ¬sec'.Owns x := by
  induction secs generalizing base with
  | nil => exact .nil
  | cons sec secs ih =>
    obtain ⟨addr, rest⟩ := h
    refine List.Pairwise.cons (fun sec' hsec' x inside inside' => ?_) (ih rest)
    have later := (rest.inside sec' hsec').1
    have here := inside.2
    have there := inside'.1
    omega

theorem pagesOf_le_of_prefix {segs segs' : List Elf64Phdr} (h : segs <+: segs') :
    pagesOf segs ≤ pagesOf segs' := by
  obtain ⟨rest, rfl⟩ := h
  simp

/-- The pages that the contiguous loader asks for: see `elfGetSectionSize_toNat`. -/
def bufferPages (segs : List Elf64Phdr) : Nat :=
  (segs.map fun phdr => slackSize phdr % 2 ^ 52).sum % 2 ^ 64

/-- If there can be a buffer, it has as many pages as the sections together, and no
    segment has more bytes in the file than its section has. -/
def ContSafe (segs : List Elf64Phdr) : Prop :=
  bufferPages segs ≤ 2 ^ 40 → pagesOf segs ≤ bufferPages segs ∧
    ∀ phdr ∈ segs, phdr.pFilesz.toNat ≤ 4096 * (segmentPages phdr).toNat

/-- The events of obtaining and zeroing the buffer. -/
def bufferEvents (loadBuffer : UINT64) (pageCount : UINTN) : List Event :=
  [.store loadBuffer.toNat (pageCount * 0x1000).toNat, .allocatePages pageCount (.ok loadBuffer)]

theorem ContTrace.readsInside {phdrs : List Elf64Phdr} {evs : List Event}
    {placed : List (Elf64Phdr × UINT64)}
    (loop : ContTrace (loadable phdrs) run s s' evs placed)
    (below : run.toNat + 4096 * pageCount.toNat ≤ 2 ^ 52)
    (count : pageCount.toNat = bufferPages (loadable phdrs)) (safe : ContSafe (loadable phdrs)) :
    ReadsInside phdrs (evs ++ bufferEvents run pageCount) placed := by
  obtain ⟨room, sizes⟩ := safe (by omega)
  have pages := pagesOf_le_of_prefix loop.order
  have contiguous := loop.laid.contiguous (by omega)
  refine ⟨loop.order, ?_, fun p hp => ?_, fun p hp => ⟨(run, pageCount), ?_, ?_⟩,
    contiguous.apart⟩
  · rw [segmentReads_append, loop.reads]
    rfl
  · exact sizes p.1 (loop.order.subset (List.mem_map_of_mem hp))
  · rw [obtainedRuns_append, loop.runs]
    exact List.mem_cons_self
  · -- the segments lie one behind the other, and the buffer holds them all
    have inside := contiguous.inside (sectionOf p) (List.mem_map_of_mem hp)
    have total : ((placed.map sectionOf).map fun sec => sec.pageCount.toNat).sum =
        pagesOf (placed.map (·.1)) := by
      rw [pagesOf, List.map_map, List.map_map]
      rfl
    rw [total] at inside
    change run.toNat ≤ p.2.toNat ∧ p.2.toNat + 4096 * (segmentPages p.1).toNat ≤ _ at inside
    refine ⟨inside.1, ?_⟩
    change _ ≤ run.toNat + 4096 * pageCount.toNat
    omega

/-- The same for the contiguous loader, if it obtains its buffer. -/
theorem elfLoadFileCont_after {ehdr : Elf64Ehdr} {buffer loadBuffer : UINT64} {table : Mem}
    {R : Machine ElfVars → Prop} (hget : elfGetFileInfo fw file s = .ok (ehdr, buffer, table) t)
    (granted : fw.allocatePages t.trace (elfGetSectionSize ehdr table) = .ok loadBuffer)
    (loop : wp (loadContLoop fw file 0 loadBuffer (phdrTable ehdr table)) (fun _ => R) (fun _ => R)
      (buffered loadBuffer (elfGetSectionSize ehdr table) t)) :
    ∃ u clean, R u ∧ (after (elfLoadFileCont fw file) s).trace = clean ++ u.trace ∧
      Quiet clean := by
  have run : wp (elfLoadFileCont fw file) (fun _ => R)
      (fun _ s' => ∃ u clean, R u ∧ s'.trace = clean ++ u.trace ∧ Quiet clean) s := by
    rw [elfLoadFileCont, wp_bind]
    refine wp_of_ok hget ?_
    simp only [wp_bind, wp_onError, wp_allocatePages, wp_zeroMem, granted, reduceCtorEq,
      false_implies, implies_true, and_true]
    intro _ same
    cases same
    refine wp_mono loop (fun _ _ h => h) ?_
    intro stop u reached
    cases stop with
    | fault => exact ⟨u, [], reached, rfl, Quiet.nil⟩
    | efi e =>
      simp only [wp_freePages]
      refine wp_mono errFreeLoadInfo_spec (fun _ _ h => h) ?_
      rintro _ s' ⟨_, buffers, htrace⟩
      refine ⟨u, buffers.map Event.freePool ++
        [.freePages loadBuffer (elfGetSectionSize ehdr table)], reached, ?_,
        (Quiet.freePools buffers).append ⟨rfl, rfl⟩⟩
      rw [htrace, List.append_assoc]
      rfl
  refine wp_after run ?_ (fun _ _ h => h)
  exact fun _ s' reached => ⟨s', [], reached, rfl, Quiet.nil⟩

/-- Without a buffer nothing is read. -/
theorem elfLoadFileCont_after_refused {ehdr : Elf64Ehdr} {buffer : UINT64} {table : Mem}
    {e : EfiError} (hget : elfGetFileInfo fw file s = .ok (ehdr, buffer, table) t)
    (refused : fw.allocatePages t.trace (elfGetSectionSize ehdr table) = .error e) :
    ∃ quiet, (after (elfLoadFileCont fw file) s).trace = quiet ++ t.trace ∧ Quiet quiet := by
  have run : wp (elfLoadFileCont fw file) (fun _ _ => False)
      (fun _ s' => ∃ quiet, s'.trace = quiet ++ t.trace ∧ Quiet quiet) s := by
    rw [elfLoadFileCont, wp_bind]
    refine wp_of_ok hget ?_
    simp only [wp_bind, wp_onError, wp_allocatePages, refused, reduceCtorEq, false_implies,
      implies_true, true_and]
    intro _ same
    cases same
    refine wp_mono errFreeLoadInfo_spec (fun _ _ h => h) ?_
    rintro _ s' ⟨_, buffers, htrace⟩
    refine ⟨buffers.map Event.freePool ++
      [.allocatePages (elfGetSectionSize ehdr table) (.error e)], ?_,
      (Quiet.freePools buffers).append ⟨rfl, rfl⟩⟩
    rw [htrace, List.append_assoc]
    rfl
  exact wp_after run (fun _ _ h => absurd h id) (fun _ _ h => h)

theorem loadsInside_cont_of_safe {phdrs : List Elf64Phdr} (safe : ContSafe (loadable phdrs)) :
    LoadsInside elfLoadFileCont phdrs := by
  intro fw file s t ehdr buffer table evs hfw hget htable htrace
  have info := wp_ok elfGetFileInfo_spec hget
  cases answer : fw.allocatePages t.trace (elfGetSectionSize ehdr table) with
  | error e =>
    -- no buffer, no segment reads
    obtain ⟨quiet, hquiet, none⟩ := elfLoadFileCont_after_refused hget answer
    rw [htrace, info.trace, ← List.append_assoc] at hquiet
    have split := List.append_cancel_right hquiet
    subst split
    have none := none.append (fileInfoEvents_quiet ehdr table buffer t.vars.info.sections)
    exact ⟨[], by simp, none.reads, by simp, by simp, .nil⟩
  | ok loadBuffer =>
    obtain ⟨u, clean, ⟨loopEvs, placed, loop⟩, hclean, quiet⟩ :=
      elfLoadFileCont_after hget answer (loadContLoop_trace _ _ _)
    have count := elfGetSectionSize_toNat ehdr table
    rw [htable] at loop count
    have start : (buffered loadBuffer (elfGetSectionSize ehdr table) t).trace =
      bufferEvents loadBuffer (elfGetSectionSize ehdr table) ++ t.trace := rfl
    rw [htrace, loop.trace, start, info.trace, ← List.append_assoc loopEvs, ← List.append_assoc,
      ← List.append_assoc] at hclean
    have split := List.append_cancel_right hclean
    subst split
    have inside := loop.readsInside (hfw.below _ _ _ answer) count safe
    exact ⟨_, inside.between quiet (fileInfoEvents_quiet _ _ _ _)⟩

end Cont

end MidnightOS.Nyxboot
