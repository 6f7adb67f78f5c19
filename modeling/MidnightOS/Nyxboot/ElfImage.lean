import Mathlib.Logic.Unique
import MidnightOS.Nyxboot.Elf

/-! # What a program file stands for

An `ElfImage` is what loading is meant to bring about, without saying where: an
entry point and, for each loadable segment, where it belongs, how many pages it
takes and what each of their bytes is.  `ElfImage.HeldBy` says that a load info
and a memory hold an image.

The rest of the module has the rules for the operations that loaders are made
of, and what `elfGetFileInfo` leaves behind.
-/

namespace MidnightOS.Nyxboot

open MidnightOS.Lib

/-! ## Images -/

/-- A segment in memory; `contents k` is byte `k` of its pages. -/
@[ext]
structure Segment where
  reqVirt : UINT64
  flags : UINT32
  pageCount : UINT64
  contents : Nat → Byte

@[ext]
structure ElfImage where
  entry : UINT64
  segments : List Segment

/-- The headers of the segments to load. -/
def loadable (phdrs : List Elf64Phdr) : List Elf64Phdr := phdrs.filter (·.pType = ptLoad)

theorem loadable_cons_of_load {phdr : Elf64Phdr} {rest : List Elf64Phdr}
    (h : phdr.pType = ptLoad) : loadable (phdr :: rest) = phdr :: loadable rest :=
  List.filter_cons_of_pos (decide_eq_true h)

theorem loadable_cons_of_not_load {phdr : Elf64Phdr} {rest : List Elf64Phdr}
    (h : ¬phdr.pType = ptLoad) : loadable (phdr :: rest) = loadable rest :=
  List.filter_cons_of_neg (by simpa using h)

/-- The bytes that the file has for a segment. -/
def EfiFile.segmentBytes (file : EfiFile) (phdr : Elf64Phdr) : List Byte :=
  file.delivered (file.seek phdr.pOffset) phdr.pFilesz

/-- The segment that a program header describes: its bytes of the file, then zeros. -/
def EfiFile.segment (file : EfiFile) (phdr : Elf64Phdr) : Segment where
  reqVirt := phdr.pVaddr
  flags := phdr.pFlags
  pageCount := segmentPages phdr
  contents := fun k => (file.segmentBytes phdr).getD k 0

def EfiFile.image (file : EfiFile) (ehdr : Elf64Ehdr) (table : Mem) : ElfImage where
  entry := ehdr.eEntry
  segments := (loadable (phdrTable ehdr table)).map file.segment

/-- Section `sec` of memory `m` holds the segment. -/
structure Segment.HeldBy (seg : Segment) (m : Mem) (sec : ElfSectioninfo) : Prop where
  reqVirt : sec.reqVirt = seg.reqVirt
  flags : sec.flags = seg.flags
  pageCount : sec.pageCount = seg.pageCount
  contents : ∀ k < 4096 * sec.pageCount.toNat, m (sec.phys.toNat + k) = seg.contents k

/-- `info` describes a load of the image into memory `m`. -/
structure ElfImage.HeldBy (img : ElfImage) (m : Mem) (info : ElfLoadinfo) : Prop where
  entry : info.entry = img.entry
  count : info.sectionCount.toNat = img.segments.length
  sections : List.Forall₂ (fun seg sec => seg.HeldBy m sec) img.segments info.sectionInfos

/-- Two sections, each in its memory, are equal but for where they are. -/
structure SameSection (m m' : Mem) (sec sec' : ElfSectioninfo) : Prop where
  reqVirt : sec.reqVirt = sec'.reqVirt
  flags : sec.flags = sec'.flags
  pageCount : sec.pageCount = sec'.pageCount
  contents : ∀ k < 4096 * sec.pageCount.toNat, m (sec.phys.toNat + k) = m' (sec'.phys.toNat + k)

/-- Two loads are equal but for where the sections are. -/
structure SameLoad (s s' : Machine ElfVars) : Prop where
  entry : s.vars.info.entry = s'.vars.info.entry
  count : s.vars.info.sectionCount = s'.vars.info.sectionCount
  sections : List.Forall₂ (SameSection s.mem s'.mem) s.vars.info.sectionInfos
    s'.vars.info.sectionInfos

theorem Segment.HeldBy.same {seg : Segment} {m m' : Mem} {sec sec' : ElfSectioninfo}
    (h : seg.HeldBy m sec) (h' : seg.HeldBy m' sec') : SameSection m m' sec sec' := by
  have hpages : sec.pageCount = sec'.pageCount := h.pageCount.trans h'.pageCount.symm
  refine ⟨h.reqVirt.trans h'.reqVirt.symm, h.flags.trans h'.flags.symm, hpages, fun k hk => ?_⟩
  rw [h.contents k hk, h'.contents k (by rwa [← hpages])]

/-- Two loads of one image are the same load. -/
theorem ElfImage.HeldBy.same {img : ElfImage} {s s' : Machine ElfVars}
    (h : img.HeldBy s.mem s.vars.info) (h' : img.HeldBy s'.mem s'.vars.info) : SameLoad s s' := by
  refine ⟨h.entry.trans h'.entry.symm, BitVec.eq_of_toNat_eq (h.count.trans h'.count.symm), ?_⟩
  have hsecs := h.sections
  have hsecs' := h'.sections
  revert hsecs hsecs'
  generalize img.segments = segs, s.vars.info.sectionInfos = secs,
    s'.vars.info.sectionInfos = secs'
  intro hsecs hsecs'
  induction hsecs generalizing secs' with
  | nil =>
    cases hsecs' with
    | nil => exact .nil
  | cons head tail ih =>
    cases hsecs' with
    | cons head' tail' => exact .cons (head.same head') (ih _ tail')

/-- There is nothing past the pages of the segment. -/
def Segment.Padded (seg : Segment) : Prop :=
  ∀ k, 4096 * seg.pageCount.toNat ≤ k → seg.contents k = 0

theorem Segment.HeldBy.eq_of_same {seg seg' : Segment} {m m' : Mem} {sec sec' : ElfSectioninfo}
    (h : seg.HeldBy m sec) (h' : seg'.HeldBy m' sec') (same : SameSection m m' sec sec')
    (padded : seg.Padded) (padded' : seg'.Padded) : seg = seg' := by
  have pages : seg.pageCount = seg'.pageCount := by
    rw [← h.pageCount, ← h'.pageCount, same.pageCount]
  ext1
  · rw [← h.reqVirt, ← h'.reqVirt, same.reqVirt]
  · rw [← h.flags, ← h'.flags, same.flags]
  · exact pages
  · funext k
    by_cases inside : k < 4096 * sec.pageCount.toNat
    · rw [← h.contents k inside, same.contents k inside]
      exact h'.contents k (by rwa [← same.pageCount])
    · have beyond : 4096 * seg.pageCount.toNat ≤ k := by
        rw [← h.pageCount]
        omega
      rw [padded k beyond, padded' k (pages ▸ beyond)]

/-- Equal loads are of one image. -/
theorem ElfImage.HeldBy.eq_of_same {img img' : ElfImage} {s s' : Machine ElfVars}
    (h : img.HeldBy s.mem s.vars.info) (h' : img'.HeldBy s'.mem s'.vars.info)
    (same : SameLoad s s') (padded : ∀ seg ∈ img.segments, seg.Padded)
    (padded' : ∀ seg ∈ img'.segments, seg.Padded) : img = img' := by
  have sections := h.sections
  have sections' := h'.sections
  have sameSections := same.sections
  ext1
  · rw [← h.entry, ← h'.entry, same.entry]
  · generalize img.segments = segs, img'.segments = segs' at *
    generalize s.vars.info.sectionInfos = secs, s'.vars.info.sectionInfos = secs' at *
    -- the three lists of pairs have the same shape
    induction sameSections generalizing segs segs' with
    | nil =>
      cases sections
      cases sections'
      rfl
    | cons head tail ih =>
      cases sections with
      | cons held rest =>
        cases sections' with
        | cons held' rest' =>
          rw [List.forall_mem_cons] at padded padded'
          rw [held.eq_of_same held' head padded.1 padded'.1,
            ih _ _ padded.2 padded'.2 rest rest']

/-- The address lies in the pages of the section. -/
def ElfSectioninfo.Owns (sec : ElfSectioninfo) (x : Nat) : Prop :=
  sec.phys.toNat ≤ x ∧ x < sec.phys.toNat + 4096 * sec.pageCount.toNat

/-- Only the section's own pages matter. -/
theorem Segment.HeldBy.congr {seg : Segment} {m m' : Mem} {sec : ElfSectioninfo}
    (h : seg.HeldBy m sec) (hm : ∀ x, sec.Owns x → m' x = m x) : seg.HeldBy m' sec := by
  refine ⟨h.reqVirt, h.flags, h.pageCount, fun k hk => ?_⟩
  rw [hm _ ⟨by omega, by omega⟩]
  exact h.contents k hk

/-! ## Lists that stand for each other -/

/-- What stands for an element of the one list, with what comes after it. -/
theorem forall₂_split {α β : Type} {R : α → β → Prop} {as : List α} {bs : List β} {a : α}
    (h : List.Forall₂ R as bs) (ha : a ∈ as) :
    ∃ as₁ as₂ bs₁ b bs₂, as = as₁ ++ a :: as₂ ∧ bs = bs₁ ++ b :: bs₂ ∧ R a b ∧
      List.Forall₂ R as₂ bs₂ := by
  induction h with
  | nil => cases ha
  | @cons a' b' as' bs' head tail ih =>
    cases List.mem_cons.mp ha with
    | inl heq =>
      subst heq
      exact ⟨[], as', [], b', bs', rfl, rfl, head, tail⟩
    | inr hmem =>
      obtain ⟨as₁, as₂, bs₁, b, bs₂, has, hbs, hR, hrest⟩ := ih hmem
      exact ⟨a' :: as₁, as₂, b' :: bs₁, b, bs₂, by rw [has]; rfl, by rw [hbs]; rfl, hR, hrest⟩

theorem forall₂_mem_right {α β : Type} {R : α → β → Prop} {as : List α} {bs : List β} {b : β}
    (h : List.Forall₂ R as bs) (hb : b ∈ bs) : ∃ a ∈ as, R a b := by
  induction h with
  | nil => cases hb
  | cons head tail ih =>
    cases List.mem_cons.mp hb with
    | inl heq => exact ⟨_, List.mem_cons_self, heq ▸ head⟩
    | inr hmem =>
      obtain ⟨a, ha, hR⟩ := ih hmem
      exact ⟨a, List.mem_cons_of_mem _ ha, hR⟩

/-! ## Counting -/

theorem length_loadable_le (ehdr : Elf64Ehdr) (table : Mem) :
    (loadable (phdrTable ehdr table)).length ≤ ehdr.ePhnum.toNat := by
  refine Nat.le_trans (List.length_filter_le _ _) (Nat.le_of_eq ?_)
  rw [phdrTable, List.length_map, List.length_range]

/-- Counting from `start` on, as the loop does. -/
theorem count_foldl (phdrs : List Elf64Phdr) (start : UINTN) :
    phdrs.foldl (fun count phdr => if phdr.pType = ptLoad then count + 1 else count) start =
      start + BitVec.ofNat 64 (loadable phdrs).length := by
  induction phdrs generalizing start with
  | nil => exact (BitVec.add_zero start).symm
  | cons phdr phdrs ih =>
    rw [List.foldl_cons, ih]
    by_cases h : phdr.pType = ptLoad
    · rw [if_pos h, loadable_cons_of_load h, List.length_cons, Nat.add_comm _ 1,
        BitVec.ofNat_add, ← BitVec.add_assoc]
      rfl
    · rw [if_neg h, loadable_cons_of_not_load h]

theorem elfCountLoadable_toNat (ehdr : Elf64Ehdr) (table : Mem) :
    (elfCountLoadable ehdr table).toNat = (loadable (phdrTable ehdr table)).length := by
  have hlt := ehdr.ePhnum.isLt
  have hle := length_loadable_le ehdr table
  rw [elfCountLoadable, count_foldl, show (0 : UINTN) = 0#64 from rfl, BitVec.zero_add,
    BitVec.toNat_ofNat]
  omega

/-! ## Rules for the operations -/

section Operations

variable {fw : Firmware} {file : EfiFile} {s : Machine ElfVars} {E : Stop → Machine ElfVars → Prop}

/-- The machine after a successful `SetPosition`. -/
def seeked (file : EfiFile) (position : UINT64) (s : Machine ElfVars) : Machine ElfVars :=
  { s.emit (.setPosition position (.ok ())) with
    vars := { s.vars with position := file.seek position } }

/-- The machine after a successful `Read` into a local buffer. -/
def advanced (file : EfiFile) (size : UINTN) (s : Machine ElfVars) : Machine ElfVars :=
  { s.emit (.read size none (.ok ())) with
    vars := { s.vars with
      position := s.vars.position + (file.delivered s.vars.position size).length } }

/-- What a buffer holds after `bytes` were read into it. -/
def filled (fw : Firmware) (h : List Event) (bytes : List Byte) : Mem :=
  fun i => bytes.getD i (fw.indeterminate h i)

/-- The machine after a successful `Read` to `buffer`. -/
def received (file : EfiFile) (size : UINTN) (buffer : UINT64) (s : Machine ElfVars) :
    Machine ElfVars :=
  { s.emit (.read size (some buffer) (.ok ())) with
    mem := blit s.mem buffer.toNat (file.delivered s.vars.position size)
    vars := { s.vars with
      position := s.vars.position + (file.delivered s.vars.position size).length } }

def withInfo (f : ElfLoadinfo → ElfLoadinfo) (s : Machine ElfVars) : Machine ElfVars :=
  { s with vars := { s.vars with info := f s.vars.info } }

theorem wp_setPosition {position : UINT64} {Q : Unit → Machine ElfVars → Prop} :
    wp (setPosition fw file position) Q E s ↔
      (fw.setPosition s.trace position = .ok () → Q () (seeked file position s)) ∧
      ∀ e, fw.setPosition s.trace position = .error e →
        E (.efi e) (s.emit (.setPosition position (.error e))) := by
  simp only [setPosition, wp_bind, wp_get, wp_call, wp_modify]
  exact and_congr_left fun _ => Unique.forall_iff

theorem wp_readBuffer {size : UINTN} {Q : Mem → Machine ElfVars → Prop} :
    wp (readBuffer fw file size) Q E s ↔
      (fw.read s.trace s.vars.position size = .ok () →
        Q (filled fw s.trace (file.delivered s.vars.position size)) (advanced file size s)) ∧
      ∀ e, fw.read s.trace s.vars.position size = .error e →
        E (.efi e) (s.emit (.read size none (.error e))) := by
  simp only [readBuffer, wp_bind, wp_get, wp_call, wp_modify, wp_pure]
  exact and_congr_left fun _ => Unique.forall_iff

theorem wp_readPages {size : UINTN} {buffer : UINT64} {Q : Unit → Machine ElfVars → Prop} :
    wp (readPages fw file size buffer) Q E s ↔
      (fw.read s.trace s.vars.position size = .ok () → Q () (received file size buffer s)) ∧
      ∀ e, fw.read s.trace s.vars.position size = .error e →
        E (.efi e) (s.emit (.read size (some buffer) (.error e))) := by
  simp only [readPages, wp_bind, wp_get, wp_call, wp_modify]
  exact and_congr_left fun _ => Unique.forall_iff

theorem wp_setInfo {f : ElfLoadinfo → ElfLoadinfo} {Q : PUnit → Machine ElfVars → Prop} :
    wp (setInfo f) Q E s ↔ Q () (withInfo f s) := Iff.rfl

end Operations

/-! ## The file information -/

/-- What `elf_verify_ehdr` checks. -/
structure Elf64Ehdr.Accepted (ehdr : Elf64Ehdr) : Prop where
  magic : ehdr.eIdent.take 4 = [0x7F, 0x45, 0x4C, 0x46]
  class64 : ehdr.eIdent.getD 4 0 = 2
  littleEndian : ehdr.eIdent.getD 5 0 = 1
  executable : ehdr.eType = 2
  machine : ehdr.eMachine = 62
  version : ehdr.eVersion = 1

/-- What a successful `elfGetFileInfo` does, newest first. -/
def fileInfoEvents (ehdr : Elf64Ehdr) (table : Mem) (phdrs sections : UINT64) : List Event :=
  [.allocatePool (elfCountLoadable ehdr table * 32) (.ok sections),
    .read (BitVec.ofNat 64 (phdrBufferSize ehdr)) none (.ok ()),
    .setPosition ehdr.ePhoff (.ok ()),
    .allocatePool (BitVec.ofNat 64 (phdrBufferSize ehdr)) (.ok phdrs),
    .read 64 none (.ok ())]

/-- `elfGetFileInfo` ran from `s` to `s'` and returned `(ehdr, phdrs, table)`. -/
structure GotFileInfo (fw : Firmware) (file : EfiFile) (s s' : Machine ElfVars)
    (ehdr : Elf64Ehdr) (phdrs : UINT64) (table : Mem) : Prop where
  ehdr_eq : ehdr = .decode (filled fw s.trace (file.delivered s.vars.position 64))
  accepted : ehdr.Accepted
  small : phdrBufferSize ehdr < 2 ^ 31
  table_eq : ∃ h, table =
    filled fw h (file.delivered (file.seek ehdr.ePhoff) (BitVec.ofNat 64 (phdrBufferSize ehdr)))
  mem : s'.mem = s.mem
  trace : s'.trace = fileInfoEvents ehdr table phdrs s'.vars.info.sections ++ s.trace
  granted : ∃ h, fw.allocatePool h (elfCountLoadable ehdr table * 32) = .ok s'.vars.info.sections
  entry : s'.vars.info.entry = ehdr.eEntry
  count : s'.vars.info.sectionCount = elfCountLoadable ehdr table
  infos : s'.vars.info.sectionInfos =
    List.replicate (loadable (phdrTable ehdr table)).length ⟨0, 0, 0, 0⟩

section FileInfo

variable {fw : Firmware} {file : EfiFile} {s s' : Machine ElfVars} {ehdr : Elf64Ehdr}
  {phdrs : UINT64} {table : Mem}

theorem elfVerifyEhdr_spec :
    wp (elfVerifyEhdr ehdr) (fun _ s' => s' = s ∧ ehdr.Accepted)
      (fun e s' => s' = s ∧ e ≠ .fault ∧ ¬ehdr.Accepted) s := by
  simp only [elfVerifyEhdr, wp_bind, wp_returnIf, not_not, true_and]
  refine ⟨fun h => ⟨(fun he => by cases he), fun ha => h ha.magic⟩, fun hmagic => ?_⟩
  refine ⟨fun h => ⟨(fun he => by cases he), fun ha => h ha.class64⟩, fun hclass => ?_⟩
  refine ⟨fun h => ⟨(fun he => by cases he), fun ha => h ha.littleEndian⟩, fun hdata => ?_⟩
  refine ⟨fun h => ⟨(fun he => by cases he), fun ha => h ha.executable⟩, fun htype => ?_⟩
  refine ⟨fun h => ⟨(fun he => by cases he), fun ha => h ha.machine⟩, fun hmachine => ?_⟩
  refine ⟨fun h => ⟨(fun he => by cases he), fun ha => h ha.version⟩, fun hversion => ?_⟩
  exact ⟨hmagic, hclass, hdata, htype, hmachine, hversion⟩

theorem elfGetFileInfo_spec :
    wp (elfGetFileInfo fw file) (fun r s' => GotFileInfo fw file s s' r.1 r.2.1 r.2.2)
      (fun _ _ => True) s := by
  simp only [elfGetFileInfo, wp_bind, wp_readBuffer, wp_onError, wp_setPosition, wp_allocatePool,
    wp_setInfo, wp_freePool, wp_throw, wp_pure, wp_faultIf, implies_true, and_true, true_and]
  intro _
  refine wp_mono elfVerifyEhdr_spec ?_ (fun _ _ _ => trivial)
  rintro _ _ ⟨rfl, haccepted⟩
  intro hsmall phdrs _ _ _ sections hgranted
  refine ⟨rfl, haccepted, Nat.lt_of_not_le hsmall, ⟨_, rfl⟩, rfl, ?_, ⟨_, hgranted⟩, rfl, rfl, ?_⟩
  · rfl
  · exact congrArg (List.replicate · _) (elfCountLoadable_toNat _ _)

end FileInfo

end MidnightOS.Nyxboot
