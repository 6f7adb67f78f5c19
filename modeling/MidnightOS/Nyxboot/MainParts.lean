import MidnightOS.Nyxboot.FreeTables
import MidnightOS.Nyxboot.Main

/-! # What the parts of `efi_main` obtain and free

One specification for each part, as the whole needs it: the memory map and its buffer, the
page tables, and the loaded program with what it holds.
-/

namespace MidnightOS.Nyxboot

open MidnightOS.Lib MidnightOS.Lib.HeapTrie

/-! ## Keeping accounts from the middle of a run -/

/-- Where `given` is held at `h`, `held` is left at `h'`. -/
def Settles (given : Multiset Resource) (h h' : List Event) (held : Multiset Resource) : Prop :=
  ∃ evs, h' = evs ++ h ∧ settle (evs.filterMap Event.entry) given = some held

section Settles

variable {h h' h'' : List Event} {given held held' : Multiset Resource}

theorem Settles.refl (given : Multiset Resource) (h : List Event) : Settles given h h given :=
  ⟨[], rfl, rfl⟩

theorem Settles.trans (first : Settles given h h' held) (then' : Holds h' h'' held') :
    Settles given h h'' (held + held') := by
  obtain ⟨evs, trace, settled⟩ := first
  obtain ⟨evs', trace', settled'⟩ := then'
  refine ⟨evs' ++ evs, by rw [trace', trace, List.append_assoc], ?_⟩
  have framed := settle_frame held settled'
  rw [zero_add] at framed
  rw [List.filterMap_append, settle_append, settled, Option.bind_some, framed, add_comm]

/-- What was held before is what is given; more may be held. -/
theorem Holds.then_settles (first : Holds h h' (given + held')) (then' : Settles given h' h'' held) :
    Holds h h'' (held + held') := by
  obtain ⟨evs, trace, settled⟩ := first
  obtain ⟨evs', trace', settled'⟩ := then'
  refine ⟨evs' ++ evs, by rw [trace', trace, List.append_assoc], ?_⟩
  rw [List.filterMap_append, settle_append, settled, Option.bind_some]
  exact settle_frame held' settled'

theorem Settles.skip (ev : Event) (hev : ev.entry = none) (settles : Settles given h h' held) :
    Settles given h (ev :: h') held := by
  obtain ⟨evs, trace, settled⟩ := settles
  refine ⟨ev :: evs, by rw [trace, List.cons_append], ?_⟩
  rw [List.filterMap_cons_none hev]
  exact settled

theorem Settles.obtain (ev : Event) {k : Resource} (hev : ev.entry = some (.acquire k))
    (settles : Settles given h h' held) : Settles given h (ev :: h') (k ::ₘ held) := by
  obtain ⟨evs, trace, settled⟩ := settles
  refine ⟨ev :: evs, by rw [trace, List.cons_append], ?_⟩
  rw [List.filterMap_cons_some hev]
  exact settle_acquire settled

theorem Settles.free (ev : Event) {k : Resource} (hev : ev.entry = some (.release k))
    (settles : Settles given h h' (k ::ₘ held)) : Settles given h (ev :: h') held := by
  obtain ⟨evs, trace, settled⟩ := settles
  refine ⟨ev :: evs, by rw [trace, List.cons_append], ?_⟩
  rw [List.filterMap_cons_some hev]
  exact settle_release settled

end Settles

/-! ## The memory map -/

def BootCall.IsExit : BootCall → Prop
  | .exitBootServices _ _ => True
  | _ => False

/-- `efi_get_memmap` from `s` to `s'`, with a new buffer that it was granted. -/
structure GotMap (bs : BootServices) (s s' : Machine HandoverVars) : Prop where
  calls : ∃ evs, s'.vars.calls = evs ++ s.vars.calls ∧
    poolEvents evs = [.allocatePool s'.vars.memMapBufferSize (.ok s'.vars.memMap.descs)] ∧
    ∀ c ∈ evs, ¬c.IsExit
  granted : ∃ evs, poolEvents evs = [] ∧ bs.allocatePool (evs ++ s.vars.calls)
    s'.vars.memMapBufferSize = .ok s'.vars.memMap.descs
  asked : ∃ h r, bs.getMemoryMap h 0 none = .error r ∧
    s'.vars.memMapBufferSize = r.size + 8192
  trace : s'.trace = s.trace
  map : ∃ m, HoldsMap m s' ∧ ∃ n b rest, s'.vars.calls = .getMemoryMap n (some b) (.ok m) :: rest
  frame : ∀ x, ¬Inside (s'.vars.memMap.descs, s'.vars.memMapBufferSize.toNat) x →
    s'.mem x = s.mem x

/-- `efi_get_memmap` from `s` to `s'`, without a buffer in the end. -/
structure NoMapGot (s s' : Machine HandoverVars) : Prop where
  calls : ∃ evs, s'.vars.calls = evs ++ s.vars.calls ∧
    ((∃ n e, poolEvents evs = [.allocatePool n (.error e)]) ∨
      ∃ n descs, poolEvents evs = [.freePool descs, .allocatePool n (.ok descs)]) ∧
    ∀ c ∈ evs, ¬c.IsExit
  trace : s'.trace = s.trace

section MemoryMap

variable {bs : BootServices} {s : Machine HandoverVars}

theorem delivered_holdsMap (documented : bs.Documented) {m : MemoryMap} {h : List BootCall}
    {n : UINTN} {b : UINT64} (answer : bs.getMemoryMap h n (some b) = .ok m)
    (here : s.vars.memMap.descs = b) (fits : n.toNat ≤ s.vars.memMapBufferSize.toNat) :
    HoldsMap m (mapped (some b) m s) := by
  have size := documented.fits _ _ _ _ answer
  have bound := n.isLt
  refine ⟨?_, rfl, rfl, ?_, Nat.le_trans size fits, documented.stride _ _ _ _ answer⟩
  · change (BitVec.ofNat 64 m.bytes.length).toNat = _
    rw [BitVec.toNat_ofNat]
    omega
  · rw [hasBytes_iff, show (mapped (some b) m s).vars.memMap.descs = b from here]
    exact fun i hi => blit_of_inside hi

theorem efiGetMemmap_got (documented : bs.Documented) (zero : s.vars.memMap.size = 0) :
    wp (efiGetMemmap bs) (fun _ s' => GotMap bs s s')
      (fun stop s' => stop ≠ .fault ∧ NoMapGot s s') s := by
  simp only [efiGetMemmap, wp_bind, wp_status, wp_callGetMemoryMap]
  obtain ⟨r, answer, tooSmall⟩ := documented.query s.vars.calls
  rw [zero, answer]
  refine ⟨(fun m same => by cases same), fun r' same => ?_⟩
  cases same
  rw [tooSmall]
  simp only [ne_eq, not_true_eq_false, if_false, wp_bind, wp_setMemMap, wp_setVars, wp_get,
    wp_callAllocatePool, wp_onError, wp_callGetMemoryMap, wp_callFreePool, wp_throw]
  refine ⟨fun descs granted => ⟨fun m answer' => ?_, fun r' _ => ?_⟩, fun e refused => ?_⟩
  · refine ⟨⟨[_, _, _], rfl, rfl, ?_⟩, ⟨[_], rfl, granted⟩, ⟨_, r, answer, rfl⟩, rfl,
      ⟨m, ?_, _, _, _, rfl⟩,
      fun x outside => ?_⟩
    · simp [BootCall.IsExit]
    · exact delivered_holdsMap documented answer' rfl (Nat.le_refl _)
    · have fits := documented.fits _ _ _ _ answer'
      have outside' : ¬Inside (descs, (r.size + 8192).toNat) x := outside
      simp only [Inside, not_and_or, Nat.not_le, Nat.not_lt] at outside'
      exact blit_of_outside (by
        change m.bytes.length ≤ (r.size + 8192).toNat at fits
        omega)
  · refine ⟨(fun same => by cases same), ⟨[_, _, _, _], rfl, .inr ⟨_, _, rfl⟩, ?_⟩, rfl⟩
    simp [BootCall.IsExit]
  · refine ⟨(fun same => by cases same), ⟨[_, _], rfl, .inl ⟨_, _, rfl⟩, ?_⟩, rfl⟩
    simp [BootCall.IsExit]

end MemoryMap

/-! ## Leaving the firmware -/

/-- What the firmware hands out after `h` and the calls `calls` is not in use then. -/
def BootServices.Fresh (bs : BootServices) (h : List Event) (calls : List BootCall) : Prop :=
  ∀ evs n a, bs.allocatePool (evs ++ calls) n = .ok a → ∀ x, Inside (a, n.toNat) x →
    ¬InUse (poolEvents evs ++ h) x

/-- Attempts from `s` to `s'`, which write to the buffer of the map only. -/
structure Tried (s s' : Machine HandoverVars) : Prop where
  calls : ∃ evs, s'.vars.calls = evs ++ s.vars.calls ∧ poolEvents evs = []
  descs : s'.vars.memMap.descs = s.vars.memMap.descs
  size : s'.vars.memMapBufferSize = s.vars.memMapBufferSize
  trace : s'.trace = s.trace
  frame : ∀ x, ¬Inside (s.vars.memMap.descs, s.vars.memMapBufferSize.toNat) x →
    s'.mem x = s.mem x

/-- The last call accepted the key of the map that the one before delivered. -/
structure ExitedWith (m : MemoryMap) (s : Machine HandoverVars) : Prop extends HoldsMap m s where
  last : ∃ n b rest, s.vars.calls =
    .exitBootServices m.key (.ok ()) :: .getMemoryMap n (some b) (.ok m) :: rest

/-- The firmware is left between `s` and `s'`.  Memory that is in use besides the buffer of the
map is as before, also where a new buffer was obtained. -/
structure LeftFirmware (s s' : Machine HandoverVars) : Prop where
  map : ∃ m, ExitedWith m s'
  calls : ∃ evs, s'.vars.calls = evs ++ s.vars.calls
  trace : s'.trace = s.trace
  apart : ∀ x, Inside (s'.vars.memMap.descs, s'.vars.memMapBufferSize.toNat) x →
    Inside (s.vars.memMap.descs, s.vars.memMapBufferSize.toNat) x ∨
      ¬InUse (.freePool s.vars.memMap.descs :: s.trace) x
  frame : ∀ x, InUse (.freePool s.vars.memMap.descs :: s.trace) x →
    ¬Inside (s.vars.memMap.descs, s.vars.memMapBufferSize.toNat) x → s'.mem x = s.mem x

section Leaving

variable {bs : BootServices} {s t u : Machine HandoverVars} {m : MemoryMap}

theorem Tried.refl (s : Machine HandoverVars) : Tried s s :=
  ⟨⟨[], rfl, rfl⟩, rfl, rfl, rfl, fun _ _ => rfl⟩

theorem Tried.trans (first : Tried s t) (then' : Tried t u) : Tried s u where
  calls := by
    obtain ⟨evs, calls, quiet⟩ := first.calls
    obtain ⟨evs', calls', quiet'⟩ := then'.calls
    refine ⟨evs' ++ evs, by rw [calls', calls, List.append_assoc], ?_⟩
    rw [poolEvents, List.filterMap_append, ← poolEvents, ← poolEvents, quiet, quiet']
    rfl
  descs := then'.descs.trans first.descs
  size := then'.size.trans first.size
  trace := then'.trace.trans first.trace
  frame x outside := by
    refine (then'.frame x ?_).trans (first.frame x outside)
    rwa [first.descs, first.size]

/-- `ExitBootServices` with the key of the map that was just delivered. -/
theorem exitWithKey_spec (holds : HoldsMap m s)
    (last : ∃ n b rest, s.vars.calls = .getMemoryMap n (some b) (.ok m) :: rest) :
    wp (callExitBootServices bs s.vars.memMap.key)
      (fun _ s' => ExitedWith m s' ∧ (∃ c, s'.vars.calls = c :: s.vars.calls) ∧ s'.mem = s.mem ∧
        s'.trace = s.trace ∧ s'.vars.memMap = s.vars.memMap ∧ s'.vars.memMapBufferSize = s.vars.memMapBufferSize)
      (fun stop s' => stop ≠ .fault ∧ Tried s s') s := by
  obtain ⟨n, b, rest, last⟩ := last
  rw [wp_callExitBootServices, holds.key]
  refine ⟨fun _ => ⟨⟨⟨holds.size, holds.key, holds.descSize, holds.bytes, holds.fits, holds.stride⟩,
    n, b, rest, ?_⟩, ⟨_, rfl⟩, rfl, rfl, rfl, rfl⟩, fun e _ => ⟨(fun same => by cases same), ?_⟩⟩
  · change _ :: s.vars.calls = _
    rw [last]
  · exact ⟨⟨[_], rfl, rfl⟩, rfl, rfl, rfl, fun _ _ => rfl⟩

theorem exitAttempt_leaves (documented : bs.Documented) :
    wp (exitAttempt bs) (fun _ s' => LeftFirmware s s')
      (fun stop s' => stop ≠ .fault ∧ Tried s s') s := by
  simp only [exitAttempt, efiGetMemmapNorealloc, wp_bind, wp_get, wp_setMemMap, wp_callGetMemoryMap]
  refine ⟨fun m answer => ?_, fun r _ => ⟨(fun same => by cases same), ⟨[_], rfl, rfl⟩, rfl, rfl,
    rfl, fun _ _ => rfl⟩⟩
  have holds := delivered_holdsMap (s := { s with vars := { s.vars with memMap :=
    { s.vars.memMap with size := s.vars.memMapBufferSize } } }) documented answer rfl (Nat.le_refl _)
  have size := documented.fits _ _ _ _ answer
  -- the map is written to its buffer
  have frame : ∀ x, ¬Inside (s.vars.memMap.descs, s.vars.memMapBufferSize.toNat) x →
      blit s.mem s.vars.memMap.descs.toNat m.bytes x = s.mem x := by
    intro x outside
    simp only [Inside, not_and_or, Nat.not_le, Nat.not_lt] at outside
    exact blit_of_outside (by omega)
  refine wp_mono (exitWithKey_spec holds ⟨_, _, _, rfl⟩) ?_ ?_
  · rintro _ s' ⟨exited, ⟨c, calls⟩, mem, trace, memMap, bufferSize⟩
    refine ⟨⟨m, exited⟩, ⟨[c, _], calls⟩, trace, fun x inside => .inl ?_, fun x _ outside => ?_⟩
    · rwa [memMap, bufferSize] at inside
    · rw [mem]
      exact frame x outside
  · rintro stop s' ⟨noFault, tried⟩
    refine ⟨noFault, Tried.trans ?_ tried⟩
    exact ⟨⟨[_], rfl, rfl⟩, rfl, rfl, rfl, frame⟩

theorem LeftFirmware.after_tried (first : Tried s t) (then' : LeftFirmware t u) :
    LeftFirmware s u where
  map := then'.map
  calls := by
    obtain ⟨evs, calls, -⟩ := first.calls
    obtain ⟨evs', calls'⟩ := then'.calls
    exact ⟨evs' ++ evs, by rw [calls', calls, List.append_assoc]⟩
  trace := then'.trace.trans first.trace
  apart x inside := by
    have apart := then'.apart x inside
    rwa [first.descs, first.size, first.trace] at apart
  frame x used outside := by
    refine (then'.frame x ?_ ?_).trans (first.frame x outside)
    · rwa [first.descs, first.trace]
    · rwa [first.descs, first.size]

theorem exitAttempts_leaves (documented : bs.Documented) (n : Nat) (res : Option EfiError)
    (tried : n = 0 → res.isSome) :
    wp (exitAttempts bs n res)
      (fun res s' => (res = none ∧ LeftFirmware s s') ∨ (res.isSome ∧ Tried s s'))
      (fun _ _ => False) s := by
  induction n generalizing res s with
  | zero => exact .inr ⟨tried rfl, Tried.refl s⟩
  | succ n ih =>
    simp only [exitAttempts, wp_bind, wp_status]
    refine wp_mono (exitAttempt_leaves documented) (fun _ _ left => .inl ⟨rfl, left⟩) ?_
    rintro stop t ⟨noFault, first⟩
    cases stop with
    | fault => exact absurd rfl noFault
    | efi e =>
      refine wp_mono (ih (some e) fun _ => rfl) ?_ (fun _ _ h => h)
      rintro res' u (⟨none, left⟩ | ⟨some, more⟩)
      · exact .inl ⟨none, left.after_tried first⟩
      · exact .inr ⟨some, first.trans more⟩

/-- A new buffer is not in use, so writing the map to it does no harm. -/
theorem exitReallocated_leaves (documented : bs.Documented) (fresh : bs.Fresh s.trace s.vars.calls) :
    wp (exitReallocated bs) (fun _ s' => LeftFirmware s s') (fun stop _ => stop ≠ .fault) s := by
  simp only [exitReallocated, efiFreeMemmap, wp_bind, wp_get, wp_callFreePool, wp_setMemMap]
  refine wp_mono (efiGetMemmap_got documented rfl) ?_ (fun _ _ h => h.1)
  rintro _ t got
  obtain ⟨m, holds, last⟩ := got.map
  obtain ⟨evs, quiet, granted⟩ := got.granted
  have unused : ∀ x, Inside (t.vars.memMap.descs, t.vars.memMapBufferSize.toNat) x →
      ¬InUse (.freePool s.vars.memMap.descs :: s.trace) x := by
    intro x inside used
    refine fresh (evs ++ [.freePool s.vars.memMap.descs]) _ _ ?_ x inside ?_
    · rw [List.append_assoc]
      exact granted
    · rw [poolEvents, List.filterMap_append, ← poolEvents, quiet]
      exact used
  refine wp_mono (exitWithKey_spec holds last) ?_ (fun _ _ h => h.1)
  rintro _ s' ⟨exited, ⟨c, calls⟩, mem, trace, memMap, bufferSize⟩
  obtain ⟨evs', calls', -⟩ := got.calls
  refine ⟨⟨m, exited⟩, ⟨c :: evs' ++ [.freePool s.vars.memMap.descs], ?_⟩, trace.trans got.trace,
    fun x inside => .inr ?_, fun x used _ => ?_⟩
  · rw [calls, calls', List.cons_append, List.cons_append, List.append_assoc]
    rfl
  · rw [memMap, bufferSize] at inside
    exact unused x inside
  · rw [mem]
    exact got.frame x fun inside => unused x inside used

theorem exitServices_leaves (documented : bs.Documented) (fresh : bs.Fresh s.trace s.vars.calls) :
    wp (exitServices bs) (fun res s' => res = none → LeftFirmware s s') (fun _ _ => False) s := by
  simp only [exitServices, wp_bind]
  refine wp_mono (exitAttempts_leaves documented 5 none (by simp)) ?_ (fun _ _ h => h)
  rintro res t (⟨rfl, left⟩ | ⟨some, tried⟩)
  · exact fun _ => left
  · simp only [some, if_true, wp_status]
    have fresh' : bs.Fresh t.trace t.vars.calls := by
      intro evs n a granted x inside used
      obtain ⟨evs', calls, quiet⟩ := tried.calls
      rw [calls, ← List.append_assoc] at granted
      refine fresh _ n a granted x inside ?_
      rw [poolEvents, List.filterMap_append, ← poolEvents, ← poolEvents, quiet, List.append_nil]
      rwa [tried.trace] at used
    refine wp_mono (exitReallocated_leaves documented fresh') ?_ ?_
    · exact fun _ u left _ => left.after_tried tried
    · intro stop u noFault
      cases stop with
      | fault => exact absurd rfl noFault
      | efi e => exact fun none => by cases none

end Leaving

/-! ## Page tables -/

/-- Mapping pages does nothing else. -/
def Event.IsMapping : Event → Prop
  | .load _ _ => True
  | .store _ _ => True
  | .allocatePages _ _ => True
  | _ => False

/-- From `s` to `s'` all events satisfy `P`. -/
def Grows {σ : Type} (P : Event → Prop) (s s' : Machine σ) : Prop :=
  ∃ evs, s'.trace = evs ++ s.trace ∧ ∀ ev ∈ evs, P ev

/-- All events of `x` satisfy `P`, however it ends. -/
def Traces {σ α : Type} (P : Event → Prop) (x : Efi σ α) : Prop :=
  ∀ s, wp x (fun _ s' => Grows P s s') (fun _ s' => Grows P s s') s

section Traces

variable {σ α β : Type} {P : Event → Prop} {s t u : Machine σ}

theorem Grows.refl (s : Machine σ) : Grows P s s := ⟨[], rfl, by simp⟩

theorem Grows.trans (first : Grows P s t) (then' : Grows P t u) : Grows P s u := by
  obtain ⟨evs, trace, all⟩ := first
  obtain ⟨evs', trace', all'⟩ := then'
  exact ⟨evs' ++ evs, by rw [trace', trace, List.append_assoc],
    List.forall_mem_append.mpr ⟨all', all⟩⟩

theorem Grows.emit {ev : Event} (h : P ev) : Grows P s (s.emit ev) := ⟨[ev], rfl, by simpa⟩

theorem Traces.pure (a : α) : Traces P (pure a : Efi σ α) := fun s => Grows.refl s

theorem Traces.throw (e : Stop) : Traces P (throw e : Efi σ α) := fun s => Grows.refl s

theorem Traces.get : Traces P (get : Efi σ (Machine σ)) := fun s => Grows.refl s

theorem Traces.bind {x : Efi σ α} {f : α → Efi σ β} (hx : Traces P x) (hf : ∀ a, Traces P (f a)) :
    Traces P (x >>= f) := by
  intro s
  rw [wp_bind]
  refine wp_mono (hx s) (fun a t first => ?_) (fun _ _ h => h)
  exact wp_mono (hf a t) (fun _ _ => first.trans) (fun _ _ => first.trans)

theorem Traces.ite {c : Prop} [Decidable c] {x y : Efi σ α} (hx : Traces P x) (hy : Traces P y) :
    Traces P (if c then x else y) := by
  by_cases h : c
  · rwa [if_pos h]
  · rwa [if_neg h]

theorem Traces.returnIf {c : Prop} [Decidable c] {e : EfiError} :
    Traces P (returnIf c e : Efi σ Unit) := .ite (.throw _) (.pure _)

theorem Traces.faultIf {c : Prop} [Decidable c] : Traces P (faultIf c : Efi σ Unit) :=
  .ite (.throw _) (.pure _)

theorem Traces.forUp {f : Nat → Efi σ Unit} {i n : Nat} (hf : ∀ k, Traces P (f k)) :
    Traces P (forUp f i n) := by
  induction n generalizing i with
  | zero => exact .pure ()
  | succ n ih => exact (hf i).bind fun _ => ih

theorem loadWord_traces (addr : Nat) : Traces Event.IsMapping (loadWord addr : Efi σ UINT64) := by
  intro s
  rw [wp_loadWord]
  exact .emit trivial

theorem storeWord_traces (addr : Nat) (w : UINT64) :
    Traces Event.IsMapping (storeWord addr w : Efi σ Unit) := by
  intro s
  rw [wp_storeWord]
  exact ⟨[_], rfl, by simp [Event.IsMapping]⟩

theorem zeroMem_traces (a n : Nat) : Traces Event.IsMapping (zeroMem a n : Efi σ Unit) := by
  intro s
  rw [wp_zeroMem]
  exact ⟨[_], rfl, by simp [Event.IsMapping]⟩

theorem allocatePages_traces (fw : Firmware) (n : UINTN) :
    Traces Event.IsMapping (allocatePages fw n : Efi σ UINT64) := by
  intro s
  rw [wp_allocatePages]
  exact ⟨fun _ _ => .emit trivial, fun _ _ => .emit trivial⟩

theorem memNextTable_traces (fw : Firmware) (table index : UINT64) :
    Traces Event.IsMapping (memNextTable fw table index : Efi σ UINT64) := by
  have add : Traces Event.IsMapping (memAddTable fw table index : Efi σ Unit) :=
    (allocatePages_traces fw 1).bind fun _ => (storeWord_traces _ _).bind fun _ => zeroMem_traces _ _
  have next : Traces Event.IsMapping (do
      let entry ← loadWord (slotAddr table index)
      return entry &&& ~~~0xFFF#64 : Efi σ UINT64) :=
    (loadWord_traces _).bind fun _ => .pure _
  exact (loadWord_traces _).bind fun _ => .ite (add.bind fun _ => next) next

theorem memMapPage_traces (fw : Firmware) (pml4 vaddr paddr : UINT64) :
    Traces Event.IsMapping (memMapPage fw pml4 vaddr paddr : Efi σ Unit) :=
  .bind .returnIf fun _ => .bind .returnIf fun _ => .bind .returnIf fun _ =>
    (memNextTable_traces fw _ _).bind fun _ => (memNextTable_traces fw _ _).bind fun _ =>
      (memNextTable_traces fw _ _).bind fun _ => storeWord_traces _ _

theorem memMapPages_traces (fw : Firmware) (pml4 vaddr paddr : UINT64) (pageCount : UINTN) :
    Traces Event.IsMapping (memMapPages fw pml4 vaddr paddr pageCount : Efi σ Unit) := by
  refine .bind .returnIf fun _ => .bind .returnIf fun _ => .bind .returnIf fun _ => ?_
  generalize pageCount.toNat = count
  induction count generalizing vaddr paddr with
  | zero => exact .pure ()
  | succ count ih => exact (memMapPage_traces fw pml4 _ _).bind fun _ => ih _ _

theorem mapMemoryHere_traces (p : Platform) (pml4 : UINT64) :
    Traces Event.IsMapping (mapMemoryHere p pml4) := by
  have section' : ∀ info i, Traces Event.IsMapping (mapSection p.fw pml4 info i : MainM Unit) := by
    intro info i
    unfold mapSection
    cases info.sectionInfos[i]? with
    | none => exact .throw _
    | some sec => exact memMapPages_traces _ _ _ _ _
  refine Traces.get.bind fun s => .bind .faultIf fun _ => .bind (.forUp fun i => ?_) fun _ =>
    .forUp (section' _)
  refine Traces.get.bind fun s => .ite (.pure _) ?_
  exact (memMapPages_traces _ _ _ _ _).bind fun _ => memMapPages_traces _ _ _ _ _

end Traces

/-- A page run as a resource. -/
def runResource (r : UINT64 × UINTN) : Resource := .pages r.1 r.2

/-- The page of a table. -/
def frameResource (f : Nat) : Resource := .pages (framePage f) 1

section Runs

variable {h h' evs : List Event} {given held : Multiset Resource}

/-- Mapping only obtains page runs. -/
theorem Settles.mapping (mapping : ∀ ev ∈ evs, ev.IsMapping) (freed : freedRuns evs = [])
    (holds : Settles given h h' held) :
    Settles given h (evs ++ h') (((obtainedRuns evs).map runResource : Multiset Resource) + held) := by
  induction evs with
  | nil => simpa [obtainedRuns] using holds
  | cons ev evs ih =>
    rw [List.forall_mem_cons] at mapping
    cases ev with
    | load a n => exact (ih mapping.2 freed).skip _ rfl
    | store a n => exact (ih mapping.2 freed).skip _ rfl
    | allocatePages n res =>
      cases res with
      | error e => exact (ih mapping.2 freed).skip _ rfl
      | ok a =>
        have more := (ih mapping.2 freed).obtain (.allocatePages n (.ok a)) rfl
        rwa [← Multiset.cons_add, Multiset.cons_coe] at more
    | freePages a n => cases mapping.1
    | allocatePool n res => cases mapping.1
    | freePool a => cases mapping.1
    | setPosition a res => cases mapping.1
    | read n b res => cases mapping.1

theorem poolBuffers_mapping (mapping : ∀ ev ∈ evs, ev.IsMapping) :
    poolBuffers (evs ++ h) = poolBuffers h := by
  induction evs with
  | nil => rfl
  | cons ev evs ih =>
    rw [List.forall_mem_cons] at mapping
    cases ev with
    | load a n => exact ih mapping.2
    | store a n => exact ih mapping.2
    | allocatePages n res => exact ih mapping.2
    | freePages a n => cases mapping.1
    | allocatePool n res => cases mapping.1
    | freePool a => cases mapping.1
    | setPosition a res => cases mapping.1
    | read n b res => cases mapping.1

/-- Page runs that are held are freed, between reads. -/
theorem Settles.free_visits {vs : List (Visit (Fin 512) Nat)}
    (holds : Settles given h h' (((released vs).map frameResource : Multiset Resource) + held)) :
    Settles given h ((vs.map visitEvent).reverse ++ h') held := by
  induction vs generalizing h' with
  | nil => simpa [released] using holds
  | cons v vs ih =>
    rw [List.map_cons, List.reverse_cons, List.append_assoc]
    apply ih
    cases v with
    | read f i => exact holds.skip _ rfl
    | release f =>
      rw [show released (.release f :: vs) = f :: released vs from rfl, List.map_cons,
        ← Multiset.cons_coe, Multiset.cons_add] at holds
      exact holds.free (.freePages (framePage f) 1) rfl

end Runs

section Tables

variable {p : Platform} {s : Machine MainVars} {pml4 : UINT64}

/-- The map is read from its buffer, which no table overlaps. -/
theorem mapMemoryHere_spec (hfw : p.fw.SoundPages) (hz : ZeroedPml4 s pml4)
    (hcount : s.vars.elf.info.sectionCount.toNat = s.vars.elf.info.sectionInfos.length)
    (stride : 40 ≤ s.vars.handover.memMap.descSize.toNat)
    (buffer : ∀ x, Inside (s.vars.handover.memMap.descs, s.vars.handover.memMap.size.toNat) x →
      InUse s.trace x ∧ x / 4096 ≠ pml4.toNat / 4096) :
    wp (mapMemoryHere p pml4)
      (fun _ s' => ∃ evs, TableRun (pml4.toNat / 4096) [] s s' evs ∧
        pageMap s'.mem (pml4.toNat / 4096) =
          addressSpace (s.vars.handover.memMap.view s.mem) s.vars.elf.info.sectionInfos ∧
        ∀ sec ∈ s.vars.elf.info.sectionInfos, sec.reqVirt.toNat % 4096 = 0)
      (fun _ s' => ∃ evs, TableRun (pml4.toNat / 4096) [] s s' evs) s := by
  have nonzero : s.vars.handover.memMap.descSize ≠ 0 := by
    intro zero
    rw [zero] at stride
    exact absurd stride (by decide)
  simp only [mapMemoryHere, wp_bind, wp_get, wp_faultIf]
  refine ⟨fun zero => absurd zero nonzero, fun _ => ?_⟩
  have loop := wp_forUp (f := fun i => do
      let s' ← get
      mapDescriptor p.fw pml4 (.decode s'.mem (s.vars.handover.memMap.descs.toNat +
        i * s.vars.handover.memMap.descSize.toNat))) (i := 0)
    (n := (s.vars.handover.memMap.view s.mem).count)
    (I := fun i t => ∃ evs, TableRun (pml4.toNat / 4096) [] s t evs ∧
      pageMap t.mem (pml4.toNat / 4096) = ramMap (s.vars.handover.memMap.view s.mem) i)
    (E := fun _ t => ∃ evs, TableRun (pml4.toNat / 4096) [] s t evs) (s := s) ?_
    ⟨_, TableRun.refl hz.tables, funext fun n => hz.pageMap_eq n⟩
  · rw [Nat.zero_add] at loop
    refine wp_mono loop ?_ (fun _ _ h => h)
    rintro _ t ⟨evs, run, map⟩
    refine wp_mono (mapSections_spec hfw hz.frame run.tables s.vars.elf.info (Nat.le_of_eq hcount)) ?_ ?_
    · rw [hcount, List.take_length, map]
      rintro _ u ⟨evs', run', map', aligned⟩
      exact ⟨_, run.trans run', map', fun sec hsec => (aligned sec hsec).1⟩
    · rintro _ u ⟨_, evs', run'⟩
      exact ⟨_, run.trans run'⟩
  · rintro i t - hi ⟨evs, run, map⟩
    rw [Nat.zero_add] at hi
    have inside := s.vars.handover.memMap.count_mul_le s.mem
    have here : i * s.vars.handover.memMap.descSize.toNat + 40 ≤
        s.vars.handover.memMap.size.toNat := by
      calc i * s.vars.handover.memMap.descSize.toNat + 40
          ≤ (i + 1) * s.vars.handover.memMap.descSize.toNat := by
            rw [Nat.succ_mul]
            exact Nat.add_le_add_left stride _
        _ ≤ (s.vars.handover.memMap.view s.mem).count * s.vars.handover.memMap.descSize.toNat :=
            Nat.mul_le_mul_right _ hi
        _ ≤ s.vars.handover.memMap.size.toNat := inside
    -- the descriptor is still what it was
    have same : EfiMemoryDescriptor.decode t.mem (s.vars.handover.memMap.descs.toNat +
        i * s.vars.handover.memMap.descSize.toNat) =
        (s.vars.handover.memMap.view s.mem).desc i := by
      rw [EfiMemmapVar.desc_view]
      refine EfiMemoryDescriptor.decode_moved fun j hj => ?_
      obtain ⟨used, other⟩ := buffer (s.vars.handover.memMap.descs.toNat +
        i * s.vars.handover.memMap.descSize.toNat + j) ⟨by dsimp only; omega, by dsimp only; omega⟩
      exact run.mem_eq used (by simpa using other)
    simp only [wp_bind, wp_get, same]
    refine wp_mono (mapDescriptor_spec hfw hz.frame run.tables _) ?_ ?_
    · rintro _ t' ⟨evs', run', map'⟩
      exact ⟨_, run.trans run', by rw [map', map, ramMap_succ]⟩
    · rintro _ t' ⟨_, evs', run'⟩
      exact ⟨_, run.trans run'⟩

/-- What was mapped is held, and no pool buffer is obtained or freed for it. -/
theorem TableRun.holds {t : Machine MainVars} {evs : List Event} {h : List Event}
    {given held : Multiset Resource} (run : TableRun (pml4.toNat / 4096) [] s t evs)
    (grows : Grows Event.IsMapping s t) (holds : Settles given h s.trace held) :
    Settles given h t.trace (((obtainedFrames evs).map frameResource : Multiset Resource) + held) ∧
      poolBuffers t.trace = poolBuffers s.trace := by
  obtain ⟨evs', trace, mapping⟩ := grows
  obtain rfl := List.append_cancel_right (trace.symm.trans run.trace)
  have all := holds.mapping mapping run.freed
  rw [run.obtainedRuns_eq, List.map_map] at all
  rw [run.trace]
  exact ⟨all, poolBuffers_mapping mapping⟩

/-- The tables are given back. -/
theorem memFreeTables_holds {frames : List Nat} {h : List Event} {given held : Multiset Resource}
    (hroot : pml4.toNat = 4096 * (pml4.toNat / 4096))
    (trie : IsTrie entryFrame tableEntry (slots s.mem) (pml4.toNat / 4096) 3 frames)
    (holds : Settles given h s.trace ((frames.map frameResource : Multiset Resource) + held)) :
    wp (memFreeTables pml4) (fun _ s' => Settles given h s'.trace held ∧ s'.vars = s.vars)
      (fun _ _ => False) s := by
  have perm := trie.released_perm List.mem_finRange (List.nodup_finRange 512)
  refine wp_of_ok (memFreeTables_emits hroot s rfl) ⟨Settles.free_visits ?_, rfl⟩
  rwa [← Multiset.coe_eq_coe.mpr (perm.map _)] at holds

/-- Tables whose memory is the same are the same tables. -/
theorem Tables.of_same {σ : Type} {s : Machine σ} {root : Nat} {frames : List Nat} {m : Mem}
    (tables : Tables s root frames)
    (same : ∀ x, x / 4096 = root ∨ x / 4096 ∈ frames → m x = s.mem x) :
    IsTrie entryFrame tableEntry (slots m) root 3 frames ∧ pageMap m root = pageMap s.mem root := by
  have hroot : ∀ i, slots m root i = slots s.mem root i :=
    slots_congr fun x hx => same x (.inl hx)
  have hlive : ∀ f ∈ frames, ∀ i, slots m f i = slots s.mem f i :=
    fun f hf => slots_congr fun x hx => same x (.inr (hx ▸ hf))
  refine ⟨tables.trie.of_agree hroot hlive, funext fun n => ?_⟩
  exact tables.trie.walk_eq_of_agree hroot hlive (Nat.le_refl 4)

theorem newPml4_holds {fw : Firmware} {h : List Event} {given held : Multiset Resource}
    (holds : Settles given h s.trace held) :
    wp (newPml4 fw) (fun a s' => Settles given h s'.trace (.pages a 1 ::ₘ held) ∧
        poolBuffers s'.trace = poolBuffers s.trace ∧ s'.vars = s.vars)
      (fun _ s' => Settles given h s'.trace held ∧ s'.vars = s.vars) s := by
  simp only [newPml4, wp_bind, wp_allocatePages, wp_zeroMem, wp_pure]
  exact ⟨fun a _ => ⟨(holds.obtain (.allocatePages 1 (.ok a)) rfl).skip _ rfl, rfl, rfl⟩,
    fun e _ => ⟨holds.skip _ rfl, rfl⟩⟩

end Tables

/-! ## The loaded program -/

/-- The pages of a section. -/
def ElfSectioninfo.resource (sec : ElfSectioninfo) : Resource := .pages sec.phys sec.pageCount

section Program

variable {fw : Firmware} {file : EfiFile} {s s' : Machine ElfVars}

/-- The loop holds the pages of the sections that it has loaded. -/
theorem loadDiscontLoop_sections (phdrs : List Elf64Phdr) (index : Nat)
    (hlen : s.vars.info.sectionInfos.length = index + (loadable phdrs).length) :
    wp (loadDiscontLoop fw file index phdrs)
      (fun _ s' => ∃ secs, secs.length = (loadable phdrs).length ∧
        Holds s.trace s'.trace (secs.map ElfSectioninfo.resource) ∧
        s'.vars.info = { s.vars.info with
          sectionInfos := s.vars.info.sectionInfos.take index ++ secs }) (fun _ _ => True) s := by
  induction phdrs generalizing index s with
  | nil =>
    refine ⟨[], rfl, Holds.refl _, ?_⟩
    rw [List.append_nil, List.take_of_length_le (show _ ≤ index from Nat.le_of_eq hlen)]
  | cons phdr rest ih =>
    by_cases hload : phdr.pType = ptLoad
    · rw [loadable_cons_of_load hload, List.length_cons] at hlen
      simp only [loadDiscontLoop, if_pos hload, wp_bind]
      have segment : wp (loadDiscontSegment fw file index phdr) (fun _ s' => ∃ paddr,
          Holds s.trace s'.trace ((loadedSection phdr paddr).resource ::ₘ 0) ∧
          s'.vars.info = { s.vars.info with
            sectionInfos := s.vars.info.sectionInfos.set index (loadedSection phdr paddr) })
          (fun _ _ => True) s := by
        simp only [loadDiscontSegment, wp_bind, wp_allocatePages, wp_zeroMem, wp_setPosition,
          wp_readPages, setSection, wp_setInfo]
        refine ⟨fun paddr _ => ⟨fun _ => ⟨fun _ => ⟨paddr, ?_, rfl⟩, fun _ _ => trivial⟩,
          fun _ _ => trivial⟩, fun _ _ => trivial⟩
        exact ((((Holds.refl _).obtain (.allocatePages (segmentPages phdr) (.ok paddr)) rfl).skip _
          rfl).skip _ rfl).skip _ rfl
      refine wp_mono segment ?_ (fun _ _ h => h)
      rintro _ t ⟨paddr, first, info⟩
      have hlen' : t.vars.info.sectionInfos.length = index + 1 + (loadable rest).length := by
        rw [info, List.length_set]
        omega
      refine wp_mono (ih (index + 1) hlen') ?_ (fun _ _ h => h)
      rintro _ u ⟨secs, length, later, info'⟩
      refine ⟨loadedSection phdr paddr :: secs, ?_, ?_, ?_⟩
      · rw [loadable_cons_of_load hload, List.length_cons, List.length_cons, length]
      · exact first.trans later
      · rw [info', info, take_set_succ _ _ _ (by omega), List.append_assoc]
        rfl
    · rw [loadable_cons_of_not_load hload] at hlen ⊢
      simp only [loadDiscontLoop, if_neg hload]
      exact ih index hlen

/-- A program is loaded: there are as many sections as the loader counts, and their array is a
buffer. -/
structure HasSections (info : ElfLoadinfo) : Prop where
  count : info.sectionCount.toNat = info.sectionInfos.length
  few : info.sectionCount.toNat ≤ 65535
  nonnull : info.sections ≠ 0

/-- What a program holds. -/
def ElfLoadinfo.held (info : ElfLoadinfo) : Multiset Resource :=
  .pool info.sections ::ₘ (info.sectionInfos.map ElfSectioninfo.resource : Multiset Resource)

/-- A load that succeeds holds the program and the program headers. -/
theorem elfLoadFileDiscont_held (pool : fw.SoundPool) :
    wp (elfLoadFileDiscont fw file)
      (fun _ s' => HasSections s'.vars.info ∧ ∃ phdrs,
        Holds s.trace s'.trace (.pool phdrs ::ₘ s'.vars.info.held))
      (fun _ _ => True) s := by
  have fileInfo : wp (elfGetFileInfo fw file) _ _ s := wp_and elfGetFileInfo_holds elfGetFileInfo_spec
  rw [elfLoadFileDiscont, wp_bind]
  cases hget : elfGetFileInfo fw file s with
  | error stop u => exact wp_of_error hget trivial
  | ok r t =>
    obtain ⟨ehdr, phdrs, table⟩ := r
    obtain ⟨first, info⟩ := wp_ok fileInfo hget
    refine wp_of_ok hget ?_
    have hlen : t.vars.info.sectionInfos.length = 0 + (loadable (phdrTable ehdr table)).length := by
      rw [info.infos, List.length_replicate, Nat.zero_add]
    rw [wp_onError]
    refine wp_mono (loadDiscontLoop_sections _ 0 hlen) ?_ ?_
    · rintro _ s' ⟨secs, length, later, vars⟩
      have count : t.vars.info.sectionCount.toNat = (loadable (phdrTable ehdr table)).length := by
        rw [info.count, elfCountLoadable_toNat]
      have few := length_loadable_le ehdr table
      have bound := ehdr.ePhnum.isLt
      have infos : s'.vars.info.sectionInfos = secs := by
        rw [vars]
        rfl
      have all := first.trans later
      refine ⟨⟨?_, ?_, ?_⟩, phdrs, ?_⟩
      · rw [infos, length, vars]
        exact count
      · rw [vars]
        change t.vars.info.sectionCount.toNat ≤ 65535
        omega
      · rw [vars]
        exact info.sections_nonnull pool
      · rw [ElfLoadinfo.held, infos, vars]
        simpa using all
    · intro stop u _
      cases stop with
      | fault => trivial
      | efi e => exact wp_mono errFreeLoadInfo_spec (fun _ _ h => h) (fun _ _ _ => trivial)

/-- Unloading gives back the program. -/
theorem unload_holds {h : List Event} {given held : Multiset Resource} (loaded : HasSections s.vars.info)
    (holds : Settles given h s.trace (s.vars.info.held + held)) :
    wp unload (fun _ s' => Settles given h s'.trace held) (fun _ _ => False) s := by
  have sections : wp elfFreeSections (fun _ t => t.vars = s.vars ∧
      Settles given h t.trace (.pool s.vars.info.sections ::ₘ held)) (fun _ _ => False) s := by
    simp only [elfFreeSections, wp_bind, wp_get]
    have loop := wp_forUp (f := freeSection) (i := 0) (n := s.vars.info.sectionCount.toNat) (s := s)
      (E := fun _ _ => False)
      (I := fun i t => t.vars = s.vars ∧ Settles given h t.trace (.pool s.vars.info.sections ::ₘ
        (((s.vars.info.sectionInfos.drop i).map ElfSectioninfo.resource : Multiset Resource) +
          held))) ?_ ⟨rfl, by rwa [ElfLoadinfo.held, Multiset.cons_add] at holds⟩
    · refine wp_mono loop ?_ (fun _ _ h => h)
      rintro _ t ⟨vars, left⟩
      rw [Nat.zero_add, loaded.count, List.drop_length] at left
      exact ⟨vars, by simpa using left⟩
    · rintro i t - hi ⟨vars, left⟩
      rw [Nat.zero_add, loaded.count] at hi
      simp only [freeSection, wp_bind, wp_get, vars, List.getElem?_eq_getElem hi, wp_freePages]
      refine ⟨vars, Settles.free (.freePages _ _) rfl (k := (s.vars.info.sectionInfos[i]).resource) ?_⟩
      rw [List.drop_eq_getElem_cons hi, List.map_cons, ← Multiset.cons_coe, Multiset.cons_add,
        Multiset.cons_swap] at left
      exact left
  simp only [unload, wp_bind]
  refine wp_mono sections ?_ (fun _ _ h => h)
  rintro _ t ⟨vars, left⟩
  simp only [elfFreeLoadinfo, wp_bind, wp_get, wp_ite, wp_freePool, wp_setInfo, vars]
  exact ⟨fun _ => left.free _ rfl, fun null => absurd loaded.nonnull null⟩

end Program

end MidnightOS.Nyxboot
