import MidnightOS.Nyxboot.BumpFirmware
import MidnightOS.Nyxboot.MapPage

/-! # Runs of mapping calls

A caller may go on after a failed call, so `runCalls` takes the state that each
call leaves behind.  Whatever the calls and the firmware's answers, the result
is a `TableRun`.

`memMapPage_refines` says that the tables refine a finite map.
-/

namespace MidnightOS.Nyxboot

open MidnightOS.Lib MidnightOS.Lib.HeapTrie

variable {σ : Type}

/-! ## Mapping a range of pages -/

section Specs

variable {fw : Firmware} {root : Nat} {live : List Nat} {s : Machine σ} {pml4 : UINT64}

theorem leafFrame_eq (paddr : UINT64) {f : Nat} (h : paddr.toNat / 4096 % 2 ^ 40 = f % 2 ^ 40) :
    leafFrame paddr = f % 2 ^ 40 := h

/-- The loop maps the pages from `n` on, in order, to the frames from `f` on. -/
theorem memMapLoop_spec (hfw : fw.SoundPages) (hroot : pml4.toNat = 4096 * root)
    (t : Tables s root live) (pageCount : Nat) {vaddr paddr : UINT64} {n f : Nat}
    (hn : vaddr.toNat / 4096 % 2 ^ 36 = n % 2 ^ 36)
    (hf : paddr.toNat / 4096 % 2 ^ 40 = f % 2 ^ 40) :
    wp (memMapLoop fw pml4 pageCount vaddr paddr)
      (fun _ s' => ∃ evs, TableRun root live s s' evs ∧
        pageMap s'.mem root = (pageMap s.mem root).setRange n f pageCount)
      (fun e s' => e ≠ .fault ∧ ∃ evs, TableRun root live s s' evs) s := by
  induction pageCount generalizing live s vaddr paddr n f with
  | zero => exact ⟨_, TableRun.refl t, rfl⟩
  | succ pageCount ih =>
    simp only [memMapLoop, wp_bind]
    refine wp_mono (memMapPage_spec hfw hroot t vaddr paddr) ?_ ?_
    swap
    · rintro e s' ⟨he, evs, hrun, _⟩
      exact ⟨he, evs, hrun⟩
    rintro _ s₁ ⟨evs₁, hrun₁, hmap₁, hv, hp⟩
    -- the next page and the next frame, both modulo what the entries hold
    have hvnext : (vaddr + 0x1000#64).toNat / 4096 % 2 ^ 36 = (n + 1) % 2 ^ 36 := by
      rw [BitVec.toNat_add, show (0x1000#64).toNat = 4096 from rfl]
      omega
    have hpnext : (paddr + 0x1000#64).toNat / 4096 % 2 ^ 40 = (f + 1) % 2 ^ 40 := by
      rw [BitVec.toNat_add, show (0x1000#64).toNat = 4096 from rfl]
      omega
    refine wp_mono (ih hrun₁.tables hvnext hpnext) ?_ ?_
    · rintro _ s₂ ⟨evs₂, hrun₂, hmap₂⟩
      refine ⟨_, hrun₁.trans hrun₂, ?_⟩
      rw [hmap₂, hmap₁, PageMap.set_congr _ _ hn, leafFrame_eq paddr hf, PageMap.setRange_succ']
    · rintro e s₂ ⟨he, evs₂, hrun₂⟩
      exact ⟨he, _, hrun₁.trans hrun₂⟩

theorem memMapPages_spec (hfw : fw.SoundPages) (hroot : pml4.toNat = 4096 * root)
    (t : Tables s root live) (vaddr paddr : UINT64) (pageCount : UINTN) :
    wp (memMapPages fw pml4 vaddr paddr pageCount)
      (fun _ s' => ∃ evs, TableRun root live s s' evs ∧ pageMap s'.mem root =
        (pageMap s.mem root).setRange (vaddr.toNat / 4096) (paddr.toNat / 4096) pageCount.toNat ∧
        vaddr.toNat % 4096 = 0 ∧ paddr.toNat % 4096 = 0)
      (fun e s' => e ≠ .fault ∧ ∃ evs, TableRun root live s s' evs) s := by
  have hrefused : ∀ e : EfiError, Stop.efi e ≠ .fault ∧ ∃ evs, TableRun root live s s evs :=
    fun e => ⟨(fun he => by cases he), _, TableRun.refl t⟩
  simp only [memMapPages, wp_bind]
  rw [wp_returnIf, wp_returnIf, wp_returnIf, aligned_iff, aligned_iff, not_not, not_not]
  refine ⟨fun _ => hrefused _, fun _ => ⟨fun _ => hrefused _, fun hv =>
    ⟨fun _ => hrefused _, fun hp => ?_⟩⟩⟩
  refine wp_mono (memMapLoop_spec hfw hroot t pageCount.toNat rfl rfl) ?_ (fun _ _ he => he)
  rintro _ s' ⟨evs, hrun, hmap⟩
  exact ⟨evs, hrun, hmap, hv, hp⟩

end Specs

/-! ## Mapping where memory suffices -/

section Bump

variable {limit : Nat} {s : Machine σ} {pml4 table index : UINT64}

theorem memNextTable_bump (hlimit : limit ≤ 2 ^ 52) (hroom : nextPage s.trace + 4096 ≤ limit) :
    wp (memNextTable (Firmware.bump limit) table index)
      (fun _ s' => nextPage s'.trace ≤ nextPage s.trace + 4096) (fun _ _ => False) s := by
  have hone : 4096 * (1 : UINTN).toNat = 4096 := rfl
  simp only [memNextTable, memAddTable, wp_bind, wp_loadWord, wp_ite, wp_pure, wp_allocatePages,
    wp_storeWord, wp_zeroMem, Machine.emit_trace, nextPage_load, nextPage_store]
  refine ⟨fun _ => ⟨fun a hok => ?_, fun e hno => ?_⟩, fun _ => Nat.le_add_right _ _⟩
  · have ha := (bumpGrant_ok hlimit hok).1
    exact Nat.le_of_eq (by rw [nextPage_allocatePages ha, hone, nextPage_load])
  · refine bumpGrant_of_fits ?_ hno
    rw [hone, nextPage_load]
    exact hroom

/-- Three pages are enough to map a page. -/
theorem memMapPage_bump (hlimit : limit ≤ 2 ^ 52) (hpml4 : pml4 ≠ 0) {vaddr paddr : UINT64}
    (hv : vaddr.toNat % 4096 = 0) (hp : paddr.toNat % 4096 = 0)
    (hroom : nextPage s.trace + 12288 ≤ limit) :
    wp (memMapPage (Firmware.bump limit) pml4 vaddr paddr)
      (fun _ s' => nextPage s'.trace ≤ nextPage s.trace + 12288) (fun _ _ => False) s := by
  simp only [memMapPage, wp_bind]
  rw [wp_returnIf, wp_returnIf, wp_returnIf, aligned_iff, aligned_iff]
  refine ⟨hpml4, fun _ => ⟨fun hne => hne hv, fun _ => ⟨fun hne => hne hp, fun _ => ?_⟩⟩⟩
  refine wp_mono (memNextTable_bump hlimit (by omega)) (fun pdpt s₁ h₁ => ?_) (fun _ _ h => h)
  refine wp_mono (memNextTable_bump hlimit (by omega)) (fun pd s₂ h₂ => ?_) (fun _ _ h => h)
  refine wp_mono (memNextTable_bump hlimit (by omega)) (fun pt s₃ h₃ => ?_) (fun _ _ h => h)
  rw [wp_storeWord, Machine.emit_trace, nextPage_store]
  omega

/-- Mapping a range succeeds if there is room for three tables a page. -/
theorem memMapLoop_bump (hlimit : limit ≤ 2 ^ 52) (hpml4 : pml4 ≠ 0) (pageCount : Nat)
    {vaddr paddr : UINT64} (hv : vaddr.toNat % 4096 = 0) (hp : paddr.toNat % 4096 = 0)
    (hroom : nextPage s.trace + pageCount * 12288 ≤ limit) :
    wp (memMapLoop (Firmware.bump limit) pml4 pageCount vaddr paddr) (fun _ _ => True)
      (fun _ _ => False) s := by
  induction pageCount generalizing s vaddr paddr with
  | zero => trivial
  | succ pageCount ih =>
    rw [Nat.succ_mul, ← Nat.add_assoc] at hroom
    rw [memMapLoop, wp_bind]
    refine wp_mono (memMapPage_bump hlimit hpml4 hv hp (by omega)) (fun _ s₁ h₁ => ?_)
      (fun _ _ h => h)
    have hnext : ∀ x : UINT64, x.toNat % 4096 = 0 → (x + 0x1000#64).toNat % 4096 = 0 := by
      intro x hx
      rw [BitVec.toNat_add, show (0x1000#64).toNat = 4096 from rfl]
      omega
    exact ih (hnext vaddr hv) (hnext paddr hp) (by omega)

theorem memMapPages_bump (hlimit : limit ≤ 2 ^ 52) (hpml4 : pml4 ≠ 0) {vaddr paddr : UINT64}
    {pageCount : UINTN} (hv : vaddr.toNat % 4096 = 0) (hp : paddr.toNat % 4096 = 0)
    (hroom : nextPage s.trace + pageCount.toNat * 12288 ≤ limit) :
    wp (memMapPages (Firmware.bump limit) pml4 vaddr paddr pageCount) (fun _ _ => True)
      (fun _ _ => False) s := by
  simp only [memMapPages, wp_bind]
  rw [wp_returnIf, wp_returnIf, wp_returnIf, aligned_iff, aligned_iff]
  exact ⟨hpml4, fun _ => ⟨fun hne => hne hv, fun _ => ⟨fun hne => hne hp, fun _ =>
    memMapLoop_bump hlimit hpml4 pageCount.toNat hv hp hroom⟩⟩⟩

end Bump

/-! ## Sequences of calls -/

/-- A call of `mem_map_page` or `mem_map_pages`. -/
inductive MapCall where
  | page (vaddr paddr : UINT64)
  | pages (vaddr paddr : UINT64) (pageCount : UINTN)

def MapCall.run (fw : Firmware) (pml4 : UINT64) : MapCall → Efi σ Unit
  | .page vaddr paddr => memMapPage fw pml4 vaddr paddr
  | .pages vaddr paddr pageCount => memMapPages fw pml4 vaddr paddr pageCount

/-- The state after a sequence of calls, each of which may have failed. -/
def runCalls (fw : Firmware) (pml4 : UINT64) (calls : List MapCall) (s : Machine σ) : Machine σ :=
  calls.foldl (fun s c => after (c.run fw pml4) s) s

/-- `pml4` is a page that the loader holds, and it is zeroed. -/
structure ZeroedPml4 (s : Machine σ) (pml4 : UINT64) : Prop where
  aligned : pml4.toNat % 4096 = 0
  zero : ∀ i < 4096, s.mem (pml4.toNat + i) = 0
  held : ∀ i < 4096, InUse s.trace (pml4.toNat + i)

/-- The frame of an aligned page. -/
theorem ZeroedPml4.frame {s : Machine σ} {pml4 : UINT64} (hz : ZeroedPml4 s pml4) :
    pml4.toNat = 4096 * (pml4.toNat / 4096) := by
  have := hz.aligned
  omega

theorem ZeroedPml4.slots_eq {s : Machine σ} {pml4 : UINT64} (hz : ZeroedPml4 s pml4)
    (i : Fin 512) : slots s.mem (pml4.toNat / 4096) i = 0 := by
  have hi := i.isLt
  refine loadLE_zero_of_bytes fun k hk => ?_
  rw [← hz.frame, Nat.add_assoc]
  exact hz.zero _ (by omega)

/-- A zeroed page is a trie without further tables. -/
theorem ZeroedPml4.tables {s : Machine σ} {pml4 : UINT64} (hz : ZeroedPml4 s pml4) :
    Tables s (pml4.toNat / 4096) [] := by
  refine ⟨IsTrie.empty fun i => ?_, ?_⟩
  · rw [hz.slots_eq i]
    rfl
  · rintro f (rfl | hf) x hx
    · have := hz.aligned
      have h := hz.held (x - pml4.toNat) (by omega)
      rwa [show pml4.toNat + (x - pml4.toNat) = x by omega] at h
    · cases hf

/-- Nothing is mapped below a zeroed page. -/
theorem ZeroedPml4.pageMap_eq {s : Machine σ} {pml4 : UINT64} (hz : ZeroedPml4 s pml4) (n : Nat) :
    pageMap s.mem (pml4.toNat / 4096) n = none :=
  walk_cons_none (by rw [hz.slots_eq]; rfl)

/-- A machine that holds one page, at `0x1000`, and has zeroed memory. -/
def bareMachine : Machine Unit := ⟨fun _ => 0, [.allocatePages 1 (.ok 0x1000#64)], ()⟩

theorem bareMachine_zeroedPml4 : ZeroedPml4 bareMachine 0x1000#64 := by
  refine ⟨rfl, fun _ _ => rfl, fun i hi => Or.inl (Or.inl ⟨Nat.le_add_right _ _, ?_⟩)⟩
  exact Nat.add_lt_add_left hi 4096

section Runs

variable {fw : Firmware} {root : Nat} {live : List Nat} {s : Machine σ} {pml4 : UINT64}

theorem MapCall.run_tableRun (hfw : fw.SoundPages) (hroot : pml4.toNat = 4096 * root)
    (t : Tables s root live) (c : MapCall) :
    ∃ evs, TableRun root live s (after (c.run fw pml4) s) evs := by
  cases c with
  | page vaddr paddr =>
    refine wp_after (P := fun s' => ∃ evs, TableRun root live s s' evs)
      (memMapPage_spec hfw hroot t vaddr paddr) ?_ ?_
    · rintro _ s' ⟨evs, hrun, _⟩
      exact ⟨evs, hrun⟩
    · rintro _ s' ⟨_, evs, hrun, _⟩
      exact ⟨evs, hrun⟩
  | pages vaddr paddr pageCount =>
    refine wp_after (P := fun s' => ∃ evs, TableRun root live s s' evs)
      (memMapPages_spec hfw hroot t vaddr paddr pageCount) ?_ ?_
    · rintro _ s' ⟨evs, hrun, _⟩
      exact ⟨evs, hrun⟩
    · rintro _ s' ⟨_, evs, hrun⟩
      exact ⟨evs, hrun⟩

theorem runCalls_tableRun (hfw : fw.SoundPages) (hroot : pml4.toNat = 4096 * root)
    (t : Tables s root live) (calls : List MapCall) :
    ∃ evs, TableRun root live s (runCalls fw pml4 calls s) evs := by
  induction calls generalizing live s with
  | nil => exact ⟨_, TableRun.refl t⟩
  | cons c calls ih =>
    obtain ⟨evs, hrun⟩ := MapCall.run_tableRun hfw hroot t c
    obtain ⟨evs', hrun'⟩ := ih hrun.tables
    exact ⟨_, hrun.trans hrun'⟩

end Runs

/-! ## The tables refine a finite map -/

/-- The page an address lies in, of the `2 ^ 36` that the tables can tell apart. -/
def pageNumber (v : UINT64) : Nat := v.toNat / 4096 % 2 ^ 36

/-- A leaf below `2 ^ 52` is translated to exactly. -/
theorem leafFrame_page {paddr : UINT64} (h : paddr.toNat < 2 ^ 52) (ha : paddr.toNat % 4096 = 0) :
    BitVec.ofNat 64 (4096 * leafFrame paddr) = paddr := by
  apply BitVec.eq_of_toNat_eq
  rw [BitVec.toNat_ofNat, leafFrame]
  omega

theorem pageOffset_of_aligned {v : UINT64} (h : v.toNat % 4096 = 0) : v &&& 0xFFF#64 = 0 := by
  apply BitVec.eq_of_toNat_eq
  rw [pageOffset_toNat, h]
  rfl

theorem translate_congr {m m' : Mem} {pml4 : UINT64} {root : Nat}
    (hroot : pml4.toNat = 4096 * root) {v : UINT64}
    (h : pageMap m' root (v.toNat / 4096) = pageMap m root (v.toNat / 4096)) :
    translate m' pml4 v = translate m pml4 v := by
  rw [translate_eq_pageMap hroot, translate_eq_pageMap hroot, h]

/-- What is written lies in the `pml4` page or in a page obtained on the way. -/
def WritesOnly (pml4 : UINT64) (evs : List Event) (s s' : Machine σ) : Prop :=
  (∀ a n, Event.store a n ∈ evs → ∃ p, (p = pml4 ∨ (p, 1) ∈ obtainedRuns evs) ∧
    p.toNat ≤ a ∧ a + n ≤ p.toNat + 4096) ∧
  ∀ x, s'.mem x ≠ s.mem x → ∃ p, (p = pml4 ∨ (p, 1) ∈ obtainedRuns evs) ∧
    p.toNat ≤ x ∧ x < p.toNat + 4096

theorem TableRun.writesOnly {root : Nat} {s s' : Machine σ} {evs : List Event} {pml4 : UINT64}
    (hroot : pml4.toNat = 4096 * root) (h : TableRun root [] s s' evs) :
    WritesOnly pml4 evs s s' := by
  have hpage : ∀ f ∈ root :: (obtainedFrames evs ++ []), ∃ p : UINT64,
      (p = pml4 ∨ (p, 1) ∈ obtainedRuns evs) ∧ p.toNat = 4096 * f := by
    intro f hf
    rcases List.mem_cons.mp hf with rfl | hf
    · exact ⟨pml4, Or.inl rfl, hroot⟩
    · rw [List.append_nil, obtainedFrames, List.mem_map] at hf
      obtain ⟨r, hr, rfl⟩ := hf
      obtain ⟨hone, haligned⟩ := h.single r hr
      exact ⟨r.1, Or.inr (by rw [← hone]; exact hr), by omega⟩
  refine ⟨fun a n hmem => ?_, fun x hx => ?_⟩
  · obtain ⟨f, hf, hlo, hhi⟩ := h.stores a n hmem
    obtain ⟨p, hp, heq⟩ := hpage f hf
    exact ⟨p, hp, by omega, by omega⟩
  · have hf : x / 4096 ∈ root :: (obtainedFrames evs ++ []) := by
      by_contra hnot
      exact hx (h.frame x hnot)
    obtain ⟨p, hp, heq⟩ := hpage _ hf
    exact ⟨p, hp, by omega, by omega⟩

/-- After any calls, one more `mem_map_page` acts on the translation as an update
    of a finite map at one page where it succeeds, and not at all where it fails;
    and only the `pml4` page and pages obtained on the way were ever written. -/
theorem memMapPage_refines {fw : Firmware} (hfw : fw.SoundPages) {s : Machine σ} {pml4 : UINT64}
    (hz : ZeroedPml4 s pml4) (calls : List MapCall) (vaddr paddr : UINT64)
    (hpaddr : paddr.toNat < 2 ^ 52) :
    let t := runCalls fw pml4 calls s
    (∀ t', memMapPage fw pml4 vaddr paddr t = .ok () t' →
      translate t'.mem pml4 vaddr = some paddr ∧
      ∀ v, pageNumber v ≠ pageNumber vaddr → translate t'.mem pml4 v = translate t.mem pml4 v) ∧
    (∀ e t', memMapPage fw pml4 vaddr paddr t = .error e t' →
      e ≠ .fault ∧ ∀ v, translate t'.mem pml4 v = translate t.mem pml4 v) ∧
    ∃ evs, (after (memMapPage fw pml4 vaddr paddr) t).trace = evs ++ s.trace ∧
      WritesOnly pml4 evs s (after (memMapPage fw pml4 vaddr paddr) t) := by
  intro t
  have hroot := hz.frame
  obtain ⟨evs, hrun⟩ := runCalls_tableRun hfw hroot hz.tables calls
  have hpage := memMapPage_spec hfw hroot hrun.tables vaddr paddr
  refine ⟨fun t' hok => ?_, fun e t' herr => ?_, ?_⟩
  · -- a success maps the page to its frame and keeps the others
    obtain ⟨_, _, hmap, hv, hp⟩ := wp_ok hpage hok
    refine ⟨?_, fun v hne => translate_congr hroot ?_⟩
    · rw [translate_eq_pageMap hroot, hmap, PageMap.set, if_pos rfl, Option.map_some,
        leafFrame_page hpaddr hp, pageOffset_of_aligned hv]
      exact congrArg some (BitVec.add_zero paddr)
    · rw [hmap, PageMap.set]
      exact if_neg hne
  · -- tables may have been added, but no page is mapped
    obtain ⟨hne, _, _, hmap⟩ := wp_error hpage herr
    exact ⟨hne, fun v => translate_congr hroot (by rw [hmap])⟩
  · obtain ⟨evs', hrun'⟩ := MapCall.run_tableRun hfw hroot hrun.tables (.page vaddr paddr)
    have hall := hrun.trans hrun'
    exact ⟨_, hall.trace, hall.writesOnly hroot⟩

/-- A second page on a machine with 1 MiB of memory. -/
theorem memMapPage_refines_bump :
    translate (after (memMapPage (Firmware.bump (2 ^ 20)) 0x1000#64 0x5000#64 0x8000#64)
      (runCalls (Firmware.bump (2 ^ 20)) 0x1000#64 [.page 0 0x7000#64] bareMachine)).mem
      0x1000#64 0x5000#64 = some 0x8000#64 :=
  ((memMapPage_refines (Firmware.bump_soundPages (2 ^ 20) (by decide)) bareMachine_zeroedPml4
    [.page 0 0x7000#64] 0x5000#64 0x8000#64 (by decide)).1 _ rfl).1

end MidnightOS.Nyxboot
