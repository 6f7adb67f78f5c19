import MidnightOS.Lib.BitFields
import MidnightOS.Lib.HeapTrie
import MidnightOS.Nyxboot.Efi

/-! # Four-level page tables (`memory.c`)

`memMapPage`, `memMapPages` and `memFreeTables` follow the source.  The block
that looks up the next table, and allocates and links a zeroed one where there
is none, stands three times in `mem_map_page`; here it is `memNextTable`.

`translate` is the walk of the processor: indices from bits 47 to 12, entry
addresses masked with `ADDRESS_MASK`.
-/

namespace MidnightOS.Nyxboot

open MidnightOS.Lib

/-! ## The source -/

def ptEntry (addr : UINT64) : UINT64 := (addr >>> 12) &&& 0x1FF#64
def pdEntry (addr : UINT64) : UINT64 := (addr >>> 21) &&& 0x1FF#64
def pdptEntry (addr : UINT64) : UINT64 := (addr >>> 30) &&& 0x1FF#64
def pml4Entry (addr : UINT64) : UINT64 := (addr >>> 39) &&& 0x1FF#64

def pagePresent : UINT64 := 1#64 <<< 0
def pageWritable : UINT64 := 1#64 <<< 1
def pageWsp : UINT64 := pagePresent ||| pageWritable
def addressMask : UINT64 := 0x000FFFFFFFFFF000#64

/-- `&table[index]` -/
def slotAddr (table index : UINT64) : Nat := table.toNat + 8 * index.toNat

section Source

variable {σ : Type}

/-- The body of `if (!(table[index] & PAGE_PRESENT))`: allocate a page, enter it
    in the slot, then zero it. -/
def memAddTable (fw : Firmware) (table index : UINT64) : Efi σ Unit := do
  let newPage ← allocatePages fw 1
  storeWord (slotAddr table index) (newPage ||| pageWsp)
  zeroMem newPage.toNat 0x1000

/-- The table below `table[index]`, added first where it is missing. -/
def memNextTable (fw : Firmware) (table index : UINT64) : Efi σ UINT64 := do
  let entry ← loadWord (slotAddr table index)
  if entry &&& pagePresent = 0 then memAddTable fw table index else pure ()
  let entry ← loadWord (slotAddr table index)
  return entry &&& ~~~0xFFF#64

def memMapPage (fw : Firmware) (pml4 vaddr paddr : UINT64) : Efi σ Unit := do
  returnIf (pml4 = 0) .invalidParameter
  returnIf (vaddr % 0x1000 ≠ 0) .invalidParameter
  returnIf (paddr % 0x1000 ≠ 0) .invalidParameter
  let pdpt ← memNextTable fw pml4 (pml4Entry vaddr)
  let pd ← memNextTable fw pdpt (pdptEntry vaddr)
  let pt ← memNextTable fw pd (pdEntry vaddr)
  storeWord (slotAddr pt (ptEntry vaddr)) (paddr ||| pageWsp)

/-- The loop of `mem_map_pages`, with `pageCount` rounds to go. -/
def memMapLoop (fw : Firmware) (pml4 : UINT64) : Nat → UINT64 → UINT64 → Efi σ Unit
  | 0, _, _ => pure ()
  | pageCount + 1, vaddr, paddr => do
      memMapPage fw pml4 vaddr paddr
      memMapLoop fw pml4 pageCount (vaddr + 0x1000) (paddr + 0x1000)

def memMapPages (fw : Firmware) (pml4 vaddr paddr : UINT64) (pageCount : UINTN) : Efi σ Unit := do
  returnIf (pml4 = 0) .invalidParameter
  returnIf (vaddr % 0x1000 ≠ 0) .invalidParameter
  returnIf (paddr % 0x1000 ≠ 0) .invalidParameter
  memMapLoop fw pml4 pageCount.toNat vaddr paddr

/-- Call `visit` on the address in each present entry of a table, in order. -/
def forEachPresent (table : UINT64) (visit : UINT64 → Efi σ Unit) : Efi σ Unit :=
  forUp (fun i => do
    let entry ← loadWord (slotAddr table (BitVec.ofNat 64 i))
    if entry &&& pagePresent = 0 then pure () else visit (entry &&& addressMask)) 0 512

def memFreeTables (pml4 : UINT64) : Efi σ Unit :=
  forEachPresent pml4 fun pdpt => do
    forEachPresent pdpt fun pd => do
      forEachPresent pd fun pt => freePages pt 1
      freePages pd 1
    freePages pdpt 1

end Source

/-! ## The walk of the processor -/

/-- The address in an entry, if it is present. -/
def presentAddr (entry : UINT64) : Option UINT64 :=
  if entry &&& pagePresent = 0 then none else some (entry &&& addressMask)

/-- The physical address that the tables rooted at `pml4` give `vaddr`. -/
def translate (m : Mem) (pml4 vaddr : UINT64) : Option UINT64 := do
  let pdpt ← presentAddr (loadLE m 8 (slotAddr pml4 (pml4Entry vaddr)))
  let pd ← presentAddr (loadLE m 8 (slotAddr pdpt (pdptEntry vaddr)))
  let pt ← presentAddr (loadLE m 8 (slotAddr pd (pdEntry vaddr)))
  let page ← presentAddr (loadLE m 8 (slotAddr pt (ptEntry vaddr)))
  return page + (vaddr &&& 0xFFF#64)

/-! ## Entries and indices as arithmetic -/

theorem pml4Entry_toNat (v : UINT64) : (pml4Entry v).toNat = v.toNat / 4096 / 2 ^ 27 % 512 := by
  rw [pml4Entry, toNat_shift_and_fieldMask 9 rfl]
  omega

theorem pdptEntry_toNat (v : UINT64) : (pdptEntry v).toNat = v.toNat / 4096 / 2 ^ 18 % 512 := by
  rw [pdptEntry, toNat_shift_and_fieldMask 9 rfl]
  omega

theorem pdEntry_toNat (v : UINT64) : (pdEntry v).toNat = v.toNat / 4096 / 2 ^ 9 % 512 := by
  rw [pdEntry, toNat_shift_and_fieldMask 9 rfl]
  omega

theorem ptEntry_toNat (v : UINT64) : (ptEntry v).toNat = v.toNat / 4096 % 512 :=
  toNat_shift_and_fieldMask 9 rfl

theorem pageOffset_toNat (v : UINT64) : (v &&& 0xFFF#64).toNat = v.toNat % 4096 := by
  rw [toNat_and_fieldMask 0 12 rfl]
  omega

theorem entryAddr_toNat (e : UINT64) : (e &&& addressMask).toNat = e.toNat / 4096 % 2 ^ 40 * 4096 :=
  toNat_and_fieldMask 12 40 rfl

theorem tableAddr_toNat (e : UINT64) :
    (e &&& ~~~0xFFF#64).toNat = e.toNat / 4096 % 2 ^ 52 * 4096 :=
  toNat_and_fieldMask 12 52 rfl

theorem absent_iff (e : UINT64) : e &&& pagePresent = 0 ↔ e.toNat % 2 = 0 := by
  have h : (e &&& pagePresent).toNat = e.toNat % 2 := by
    rw [toNat_and_fieldMask 0 1 rfl]
    omega
  rw [← h]
  exact ⟨fun h0 => by rw [h0]; rfl, fun h0 => BitVec.eq_of_toNat_eq h0⟩

theorem or_pageWsp_toNat {p : UINT64} (h : p.toNat % 4096 = 0) :
    (p ||| pageWsp).toNat = p.toNat + 3 :=
  toNat_or_flags 12 h (by decide)

theorem aligned_iff (v : UINT64) : v % 0x1000 ≠ 0 ↔ v.toNat % 4096 ≠ 0 := by
  have h : (v % 0x1000).toNat = v.toNat % 4096 := rfl
  rw [← h]
  exact not_congr ⟨fun h0 => by rw [h0]; rfl, fun h0 => BitVec.eq_of_toNat_eq h0⟩

end MidnightOS.Nyxboot
