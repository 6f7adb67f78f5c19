import Mathlib.Algebra.BigOperators.Ring.List
import MidnightOS.Lib.ByteMemory
import MidnightOS.Lib.FallibleState

/-! # The firmware as the boot loader sees it

The loader runs single-threaded on a flat, identity-mapped memory and calls boot
services.  A `Machine` holds that memory, the trace of everything the loader did
so far (newest first), and the loader's own variables.  A `Firmware` answers
each call, and may let the answer depend on the whole trace: nothing is assumed
about it here.  What the documentation promises about memory allocation is
`Firmware.SoundPages` and `Firmware.SoundPool`, stated in terms of the memory
that the trace shows to be in use.

Pointers are natural numbers: pointer arithmetic that leaves the address space
is not defined in C.  Integers are bit vectors and wrap.
-/

namespace MidnightOS.Nyxboot

open MidnightOS.Lib

abbrev UINT8 := BitVec 8
abbrev UINT16 := BitVec 16
abbrev UINT32 := BitVec 32
abbrev UINT64 := BitVec 64
abbrev UINTN := BitVec 64

/-! ## Status codes -/

/-- An `EFI_STATUS` for which `EFI_ERROR` holds: its top bit is set. -/
structure EfiError where
  status : UINT64
  isError : status.msb = true
deriving DecidableEq

/-- `EFIERR(a)`. -/
def efierr (a : UINT64) : EfiError :=
  ⟨0x8000000000000000#64 ||| a, by rw [BitVec.msb_or]; rfl⟩

namespace EfiError

def invalidParameter : EfiError := efierr 2
def unsupported : EfiError := efierr 3
def outOfResources : EfiError := efierr 9
def incompatibleVersion : EfiError := efierr 25
def crcError : EfiError := efierr 27
def compromisedData : EfiError := efierr 33

end EfiError

/-- Why a function did not return normally: it returned an error status, or the
    run left defined behaviour. -/
inductive Stop where
  | efi (e : EfiError)
  | fault
deriving DecidableEq

/-! ## Traces -/

/-- One thing the loader did.  A buffer of `none` is one of its own variables. -/
inductive Event where
  | load (addr len : Nat)
  | store (addr len : Nat)
  | allocatePages (pages : UINTN) (res : Except EfiError UINT64)
  | freePages (memory : UINT64) (pages : UINTN)
  | allocatePool (size : UINTN) (res : Except EfiError UINT64)
  | freePool (buffer : UINT64)
  | setPosition (position : UINT64) (res : Except EfiError Unit)
  | read (size : UINTN) (buffer : Option UINT64) (res : Except EfiError Unit)

/-- Bytes that belong to page runs obtained and not freed since. -/
def PagesHeld : List Event → Nat → Prop
  | [], _ => False
  | .allocatePages n (.ok a) :: h, x =>
      (a.toNat ≤ x ∧ x < a.toNat + 4096 * n.toNat) ∨ PagesHeld h x
  | .freePages a n :: h, x =>
      PagesHeld h x ∧ ¬(a.toNat ≤ x ∧ x < a.toNat + 4096 * n.toNat)
  | _ :: h, x => PagesHeld h x

/-- The pool buffers obtained and not freed since, as address and size. -/
def poolBuffers : List Event → List (Nat × Nat)
  | [] => []
  | .allocatePool n (.ok a) :: h => (a.toNat, n.toNat) :: poolBuffers h
  | .freePool a :: h => (poolBuffers h).filter fun b => b.1 ≠ a.toNat
  | _ :: h => poolBuffers h

def InUse (h : List Event) (x : Nat) : Prop :=
  PagesHeld h x ∨ ∃ b ∈ poolBuffers h, b.1 ≤ x ∧ x < b.1 + b.2

/-- The page runs obtained, as address and page count, newest first. -/
def obtainedRuns : List Event → List (UINT64 × UINTN)
  | [] => []
  | .allocatePages n (.ok a) :: h => (a, n) :: obtainedRuns h
  | _ :: h => obtainedRuns h

/-- The page runs freed, as address and page count, newest first. -/
def freedRuns : List Event → List (UINT64 × UINTN)
  | [] => []
  | .freePages a n :: h => (a, n) :: freedRuns h
  | _ :: h => freedRuns h

theorem obtainedRuns_append (h h' : List Event) :
    obtainedRuns (h ++ h') = obtainedRuns h ++ obtainedRuns h' := by
  induction h using obtainedRuns.induct with
  | case1 => rfl
  | case2 n a h ih => simp only [List.cons_append, obtainedRuns, ih]
  | case3 ev h hev ih =>
    rw [List.cons_append, obtainedRuns.eq_3 ev _ hev, obtainedRuns.eq_3 ev _ hev, ih]

theorem freedRuns_append (h h' : List Event) :
    freedRuns (h ++ h') = freedRuns h ++ freedRuns h' := by
  induction h using freedRuns.induct with
  | case1 => rfl
  | case2 a n h ih => simp only [List.cons_append, freedRuns, ih]
  | case3 ev h hev ih =>
    rw [List.cons_append, freedRuns.eq_3 ev _ hev, freedRuns.eq_3 ev _ hev, ih]

/-- The loads among `evs` stay between `lo` and `hi`. -/
def StaysInside (lo hi : Nat) (evs : List Event) : Prop :=
  ∀ a n, Event.load a n ∈ evs → lo ≤ a ∧ a + n ≤ hi

section StaysInside

variable {lo hi : Nat} {evs evs' : List Event}

theorem StaysInside.nil : StaysInside lo hi [] := by
  intro a n h
  cases h

theorem staysInside_append :
    StaysInside lo hi (evs ++ evs') ↔ StaysInside lo hi evs ∧ StaysInside lo hi evs' := by
  simp only [StaysInside, List.mem_append]
  constructor
  · intro h
    exact ⟨fun a n ha => h a n (Or.inl ha), fun a n ha => h a n (Or.inr ha)⟩
  · intro h a n ha
    rcases ha with ha | ha
    · exact h.1 a n ha
    · exact h.2 a n ha

theorem staysInside_cons_load {a n : Nat} :
    StaysInside lo hi (.load a n :: evs) ↔ (lo ≤ a ∧ a + n ≤ hi) ∧ StaysInside lo hi evs := by
  simp only [StaysInside, List.mem_cons, Event.load.injEq]
  constructor
  · intro h
    exact ⟨h a n (Or.inl ⟨rfl, rfl⟩), fun b k hb => h b k (Or.inr hb)⟩
  · intro h b k hb
    rcases hb with ⟨rfl, rfl⟩ | hb
    · exact h.1
    · exact h.2 b k hb

end StaysInside

/-! ## Firmware and machine -/

/-- How the firmware answers.  Every answer may depend on the trace so far; that
    of `read` also on the position in the file.  `indeterminate` is what storage
    holds before the loader first writes it. -/
structure Firmware where
  allocatePages : List Event → UINTN → Except EfiError UINT64
  allocatePool : List Event → UINTN → Except EfiError UINT64
  setPosition : List Event → UINT64 → Except EfiError Unit
  read : List Event → Nat → UINTN → Except EfiError Unit
  indeterminate : List Event → Nat → Byte

/-- The page allocator hands out page-aligned runs of physical memory that are
    not in use. -/
structure Firmware.SoundPages (fw : Firmware) : Prop where
  aligned : ∀ h n a, fw.allocatePages h n = .ok a → a.toNat % 4096 = 0
  below : ∀ h n a, fw.allocatePages h n = .ok a → a.toNat + 4096 * n.toNat ≤ 2 ^ 52
  fresh : ∀ h n a, fw.allocatePages h n = .ok a →
    ∀ x, a.toNat ≤ x → x < a.toNat + 4096 * n.toNat → ¬InUse h x

/-- The pool allocator hands out non-null buffers of physical memory that are
    not in use. -/
structure Firmware.SoundPool (fw : Firmware) : Prop where
  nonnull : ∀ h n a, fw.allocatePool h n = .ok a → a ≠ 0
  below : ∀ h n a, fw.allocatePool h n = .ok a → a.toNat + n.toNat ≤ 2 ^ 52
  fresh : ∀ h n a, fw.allocatePool h n = .ok a →
    ∀ x, a.toNat ≤ x → x < a.toNat + n.toNat → ¬InUse h x

/-- Runs of pages of physical memory that do not overlap: there are `2 ^ 40` pages. -/
theorem sum_runs_le {runs : List (UINT64 × UINTN)}
    (below : ∀ r ∈ runs, r.1.toNat + 4096 * r.2.toNat ≤ 2 ^ 52)
    (disjoint : runs.Pairwise fun r r' => ∀ x, r.1.toNat ≤ x → x < r.1.toNat + 4096 * r.2.toNat →
      ¬(r'.1.toNat ≤ x ∧ x < r'.1.toNat + 4096 * r'.2.toNat)) :
    (runs.map fun r => r.2.toNat).sum ≤ 2 ^ 40 := by
  have covered : ((runs.map fun r => (r.1.toNat, 4096 * r.2.toNat)).map (·.2)).sum ≤ 2 ^ 52 := by
    apply sum_length_le_of_disjoint
    · exact List.forall_mem_map.mpr below
    · rwa [List.pairwise_map]
  have scaled := List.sum_map_mul_left runs (fun r => r.2.toNat) 4096
  rw [List.map_map] at covered
  change (runs.map fun r => 4096 * r.2.toNat).sum ≤ 2 ^ 52 at covered
  omega

/-- Memory, trace (newest event first) and the running function's variables. -/
structure Machine (σ : Type) where
  mem : Mem
  trace : List Event
  vars : σ

abbrev Efi (σ α : Type) := EStateM Stop (Machine σ) α

section Operations

variable {σ : Type}

def Machine.emit (s : Machine σ) (ev : Event) : Machine σ := { s with trace := ev :: s.trace }

@[simp] theorem Machine.emit_mem (s : Machine σ) (ev : Event) : (s.emit ev).mem = s.mem := rfl
@[simp] theorem Machine.emit_trace (s : Machine σ) (ev : Event) :
    (s.emit ev).trace = ev :: s.trace := rfl
@[simp] theorem Machine.emit_vars (s : Machine σ) (ev : Event) : (s.emit ev).vars = s.vars := rfl

/-- `if (c) { return e; }` -/
def returnIf (c : Prop) [Decidable c] (e : EfiError) : Efi σ Unit :=
  if c then throw (.efi e) else pure ()

/-- Undefined behaviour if `c`. -/
def faultIf (c : Prop) [Decidable c] : Efi σ Unit :=
  if c then throw .fault else pure ()

/-- Run `x`; where it returns an error status, continue with `handler`. -/
def onError {α : Type} (x : Efi σ α) (handler : EfiError → Efi σ α) : Efi σ α := fun s =>
  match x s with
  | .error (.efi e) s' => handler e s'
  | r => r

/-- Record a firmware call with its answer and pass the answer on. -/
def call {α : Type} (ev : Except EfiError α → Event) (res : Except EfiError α) : Efi σ α := fun s =>
  match res with
  | .ok a => .ok a (s.emit (ev (.ok a)))
  | .error e => .error (.efi e) (s.emit (ev (.error e)))

def allocatePages (fw : Firmware) (pages : UINTN) : Efi σ UINT64 := do
  let s ← get
  call (.allocatePages pages) (fw.allocatePages s.trace pages)

def freePages (memory : UINT64) (pages : UINTN) : Efi σ Unit :=
  modify (·.emit (.freePages memory pages))

def allocatePool (fw : Firmware) (size : UINTN) : Efi σ UINT64 := do
  let s ← get
  call (.allocatePool size) (fw.allocatePool s.trace size)

def freePool (buffer : UINT64) : Efi σ Unit :=
  modify (·.emit (.freePool buffer))

/-- Read a `uint64_t` from memory. -/
def loadWord (addr : Nat) : Efi σ UINT64 := do
  modify (·.emit (.load addr 8))
  let s ← get
  return loadLE s.mem 8 addr

/-- Write a `uint64_t` to memory. -/
def storeWord (addr : Nat) (w : UINT64) : Efi σ Unit :=
  modify fun s => { s.emit (.store addr 8) with mem := storeLE s.mem 8 addr w }

/-- `ZeroMem(Buffer, Size)`. -/
def zeroMem (buffer size : Nat) : Efi σ Unit :=
  modify fun s => { s.emit (.store buffer size) with mem := fill s.mem buffer size 0 }

/-! ## What each operation does -/

variable {α : Type} {Q : α → Machine σ → Prop} {E : Stop → Machine σ → Prop} {s : Machine σ}

@[simp] theorem wp_returnIf {c : Prop} [Decidable c] {e : EfiError}
    {Q : Unit → Machine σ → Prop} :
    wp (returnIf c e) Q E s ↔ (c → E (.efi e) s) ∧ (¬c → Q () s) := by
  simp only [returnIf, wp_ite, wp_throw, wp_pure]

@[simp] theorem wp_faultIf {c : Prop} [Decidable c] {Q : Unit → Machine σ → Prop} :
    wp (faultIf c) Q E s ↔ (c → E .fault s) ∧ (¬c → Q () s) := by
  simp only [faultIf, wp_ite, wp_throw, wp_pure]

theorem wp_call {res : Except EfiError α} {ev : Except EfiError α → Event} :
    wp (call ev res) Q E s ↔ (∀ a, res = .ok a → Q a (s.emit (ev (.ok a)))) ∧
      (∀ e, res = .error e → E (.efi e) (s.emit (ev (.error e)))) := by
  cases res with
  | ok a => simp [wp, call]
  | error e => simp [wp, call]

theorem wp_allocatePages {fw : Firmware} {pages : UINTN} {Q : UINT64 → Machine σ → Prop} :
    wp (allocatePages fw pages) Q E s ↔
      (∀ a, fw.allocatePages s.trace pages = .ok a →
        Q a (s.emit (.allocatePages pages (.ok a)))) ∧
      (∀ e, fw.allocatePages s.trace pages = .error e →
        E (.efi e) (s.emit (.allocatePages pages (.error e)))) := by
  simp only [allocatePages, wp_bind, wp_get, wp_call]

theorem wp_freePages {memory : UINT64} {pages : UINTN} {Q : PUnit → Machine σ → Prop} :
    wp (freePages memory pages) Q E s ↔ Q () (s.emit (.freePages memory pages)) := by
  simp only [freePages, wp_modify]

theorem wp_allocatePool {fw : Firmware} {size : UINTN} {Q : UINT64 → Machine σ → Prop} :
    wp (allocatePool fw size) Q E s ↔
      (∀ a, fw.allocatePool s.trace size = .ok a → Q a (s.emit (.allocatePool size (.ok a)))) ∧
      (∀ e, fw.allocatePool s.trace size = .error e →
        E (.efi e) (s.emit (.allocatePool size (.error e)))) := by
  simp only [allocatePool, wp_bind, wp_get, wp_call]

theorem wp_freePool {buffer : UINT64} {Q : PUnit → Machine σ → Prop} :
    wp (freePool buffer) Q E s ↔ Q () (s.emit (.freePool buffer)) := by
  simp only [freePool, wp_modify]

theorem wp_onError {x : Efi σ α} {handler : EfiError → Efi σ α} :
    wp (onError x handler) Q E s ↔ wp x Q (fun stop s' =>
      match stop with
      | .efi e => wp (handler e) Q E s'
      | .fault => E .fault s') s := by
  simp only [wp, onError]
  cases x s with
  | ok a s' => rfl
  | error stop s' =>
    cases stop with
    | efi e => rfl
    | fault => rfl

theorem wp_loadWord {addr : Nat} {Q : UINT64 → Machine σ → Prop} :
    wp (loadWord addr) Q E s ↔ Q (loadLE s.mem 8 addr) (s.emit (.load addr 8)) := by
  simp only [loadWord, wp_bind, wp_modify, wp_get, wp_pure, Machine.emit_mem]

theorem wp_storeWord {addr : Nat} {w : UINT64} {Q : PUnit → Machine σ → Prop} :
    wp (storeWord addr w) Q E s ↔
      Q () { s.emit (.store addr 8) with mem := storeLE s.mem 8 addr w } := by
  simp only [storeWord, wp_modify]

theorem wp_zeroMem {buffer size : Nat} {Q : PUnit → Machine σ → Prop} :
    wp (zeroMem buffer size) Q E s ↔
      Q () { s.emit (.store buffer size) with mem := fill s.mem buffer size 0 } := by
  simp only [zeroMem, wp_modify]

end Operations

end MidnightOS.Nyxboot
