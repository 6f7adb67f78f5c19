import MidnightOS.Nyxboot.BootMemmap

/-! # Leaving the firmware (the exit phase of `efi_main`)

The loader gets the memory map and exits boot services with its key, at most
five times, then once more with a new buffer.  The invariant between two calls
is `Ready`; a map that was just delivered makes it `Delivered`, and its key is
the only one that is ever passed on.

`handover_protocol` is about all calls of a run, and about the jump at its end.
-/

namespace MidnightOS.Nyxboot

open MidnightOS.Lib

/-! ## The source -/

/-- How `efi_main` ends once it has left the paths that return: the jump to the
    kernel, or the loop at `err_halt`. -/
inductive Ending where
  | jump
  | halt
deriving DecidableEq

/-- One round of the loop; its status is that of the last call. -/
def exitAttempt (bs : BootServices) : HandoverM Unit := do
  let s ← get
  efiGetMemmapNorealloc bs s.vars.memMapBufferSize
  let s ← get
  callExitBootServices bs s.vars.memMap.key

/-- The loop with `n` attempts left; `res` is the status so far. -/
def exitAttempts (bs : BootServices) : Nat → Option EfiError → HandoverM (Option EfiError)
  | 0, res => pure res
  | n + 1, _ => do
    match ← status (exitAttempt bs) with
    | none => pure none
    | some e => exitAttempts bs n (some e)

/-- A new buffer for the map, and one more attempt. -/
def exitReallocated (bs : BootServices) : HandoverM Unit := do
  efiFreeMemmap
  efiGetMemmap bs
  let s ← get
  callExitBootServices bs s.vars.memMap.key

/-- From the loop on; `EXIT_BS_MAX_ATTEMPTS` is 5. -/
def efiMainExit (bs : BootServices) : HandoverM Ending := do
  let res ← exitAttempts bs 5 none
  let res ← if res.isSome then status (exitReallocated bs) else pure none
  if res.isSome then pure .halt
  else do
    let res ← status biUpdateMemmap
    if res.isSome then pure .halt else pure .jump

/-! ## The firmware and the start of the phase -/

/-- What is documented of `GetMemoryMap`: a query fails with the size that is needed,
    a map fits the size passed, and its descriptors do not overlap. -/
structure BootServices.Documented (bs : BootServices) : Prop where
  query : ∀ h, ∃ r, bs.getMemoryMap h 0 none = .error r ∧ r.error = .bufferTooSmall
  fits : ∀ h n b m, bs.getMemoryMap h n (some b) = .ok m → m.bytes.length ≤ n.toNat
  stride : ∀ h n b m, bs.getMemoryMap h n (some b) = .ok m → 40 ≤ m.descSize.toNat

/-- After the calls `h`, no memory of the buffer of `bootMap` is handed out. -/
def BootServices.Leaves (bs : BootServices) (h : List BootCall) (bootMap : BiMemmap) : Prop :=
  ∀ evs n a, bs.allocatePool (evs ++ h) n = .ok a → bootMap.Apart a n.toNat

/-- The variables as `efi_main` initialises them. -/
structure Initialised (s : Machine HandoverVars) : Prop where
  memMap : s.vars.memMap = ⟨0, 0, 0, 0⟩
  bootMap : s.vars.bootMap = ⟨0, 0, 0, 0, 0⟩
  open' : ¬Exited s.vars.calls

/-- What happens between `efi_get_memmap`, which ended in `s`, and the exit phase,
    which starts in `s'`: page tables and the boot information are built. -/
structure Prepared (s s' : Machine HandoverVars) : Prop where
  memMap : s'.vars.memMap = s.vars.memMap
  bufferSize : s'.vars.memMapBufferSize = s.vars.memMapBufferSize
  calls : ∃ between, s'.vars.calls = between ++ s.vars.calls ∧ ∀ c ∈ between,
    ∃ n a, c = .allocatePool n (.ok a) ∧ a ≠ s.vars.memMap.descs
  nonnull : s'.vars.bootMap.pDescriptors ≠ 0
  apart : s'.vars.bootMap.Apart s.vars.memMap.descs s.vars.memMapBufferSize.toNat

/-- The calls between `h₀` and `h` are all allowed. -/
def Follows (h₀ h : List BootCall) : Prop :=
  ∃ evs, h = evs ++ h₀ ∧ ∀ later c earlier, evs = later ++ c :: earlier →
    Permitted (earlier ++ h₀) c

section Follows

variable {h₀ h h' : List BootCall} {c : BootCall}

theorem Follows.refl (h : List BootCall) : Follows h h :=
  ⟨[], rfl, fun later c earlier split => by simp at split⟩

theorem Follows.cons (follows : Follows h₀ h) (permitted : Permitted h c) :
    Follows h₀ (c :: h) := by
  obtain ⟨evs, hevs, all⟩ := follows
  refine ⟨c :: evs, by rw [hevs, List.cons_append], ?_⟩
  intro later c' earlier split
  cases later with
  | nil =>
    cases split
    rw [← hevs]
    exact permitted
  | cons c'' later =>
    cases split
    exact all later c' earlier rfl

theorem Permitted.allocatePool {n : UINTN} {answer : Except EfiError UINT64} (open' : ¬Exited h) :
    Permitted h (.allocatePool n answer) :=
  ⟨open', (fun _ _ _ same => by cases same), (fun _ _ same => by cases same)⟩

theorem Permitted.freePool {b : UINT64} (open' : ¬Exited h) : Permitted h (.freePool b) :=
  ⟨open', (fun _ _ _ same => by cases same), (fun _ _ same => by cases same)⟩

theorem Permitted.query {n : UINTN} {answer : Except NoMap MemoryMap} (open' : ¬Exited h) :
    Permitted h (.getMemoryMap n none answer) :=
  ⟨open', (fun _ _ _ same => by cases same), (fun _ _ same => by cases same)⟩

theorem Permitted.getMemoryMap {n capacity : UINTN} {b : UINT64} {answer : Except NoMap MemoryMap}
    (open' : ¬Exited h) (live : liveSize h b = some capacity) (fits : n.toNat ≤ capacity.toNat) :
    Permitted h (.getMemoryMap n (some b) answer) := by
  refine ⟨open', fun n' b' answer' same => ?_, (fun _ _ same => by cases same)⟩
  cases same
  exact ⟨capacity, live, fits⟩

theorem Permitted.exitBootServices {n : UINTN} {b : UINT64} {m : MemoryMap}
    {answer : Except EfiError Unit} (open' : ¬Exited (.getMemoryMap n (some b) (.ok m) :: h)) :
    Permitted (.getMemoryMap n (some b) (.ok m) :: h) (.exitBootServices m.key answer) := by
  refine ⟨open', (fun _ _ _ same => by cases same), fun k answer' same => ?_⟩
  cases same
  exact ⟨n, b, m, h, rfl, rfl⟩

/-- Only a successful `ExitBootServices` ends boot services. -/
theorem not_exited_cons (open' : ¬Exited h) (other : ∀ key, c ≠ .exitBootServices key (.ok ())) :
    ¬Exited (c :: h) := by
  rintro ⟨key, mem⟩
  cases mem with
  | head => exact other key rfl
  | tail _ mem => exact open' ⟨key, mem⟩

end Follows

/-! ## The invariant -/

/-- Between two calls: the buffer of the map is allocated with the size that
    `memMapBufferSize` says, and boot services are there. -/
structure Ready (h₀ : List BootCall) (bootMap : BiMemmap) (s : Machine HandoverVars) : Prop where
  follows : Follows h₀ s.vars.calls
  open' : ¬Exited s.vars.calls
  unchanged : s.vars.bootMap = bootMap
  live : liveSize s.vars.calls s.vars.memMap.descs = some s.vars.memMapBufferSize
  apart : bootMap.Apart s.vars.memMap.descs s.vars.memMapBufferSize.toNat

/-- The variable and its buffer hold the map `m`. -/
structure HoldsMap (m : MemoryMap) (s : Machine HandoverVars) : Prop where
  size : s.vars.memMap.size.toNat = m.bytes.length
  key : s.vars.memMap.key = m.key
  descSize : s.vars.memMap.descSize = m.descSize
  bytes : HasBytes s.mem s.vars.memMap.descs.toNat m.bytes
  fits : m.bytes.length ≤ s.vars.memMapBufferSize.toNat
  stride : 40 ≤ m.descSize.toNat

/-- The last call delivered `m`. -/
structure Delivered (h₀ : List BootCall) (bootMap : BiMemmap) (m : MemoryMap)
    (s : Machine HandoverVars) : Prop extends Ready h₀ bootMap s, HoldsMap m s where
  last : ∃ n b rest, s.vars.calls = .getMemoryMap n (some b) (.ok m) :: rest

/-- The last two calls delivered `m` and accepted its key. -/
structure Accepted (h₀ : List BootCall) (bootMap : BiMemmap) (m : MemoryMap)
    (s : Machine HandoverVars) : Prop extends HoldsMap m s where
  follows : Follows h₀ s.vars.calls
  last : ∃ n b rest, s.vars.calls =
    .exitBootServices m.key (.ok ()) :: .getMemoryMap n (some b) (.ok m) :: rest
  unchanged : s.vars.bootMap = bootMap
  apart : bootMap.Apart s.vars.memMap.descs s.vars.memMapBufferSize.toNat

section Steps

variable {bs : BootServices} {h₀ : List BootCall} {bootMap : BiMemmap} {m : MemoryMap}
  {s : Machine HandoverVars}

/-- A call of `GetMemoryMap` with the buffer, for any size up to its capacity. -/
theorem callGetMemoryMap_spec (documented : bs.Documented) (ready : Ready h₀ bootMap s)
    (fits : s.vars.memMap.size.toNat ≤ s.vars.memMapBufferSize.toNat) :
    wp (callGetMemoryMap bs (some s.vars.memMap.descs))
      (fun _ s' => ∃ m, Delivered h₀ bootMap m s') (fun stop s' => stop ≠ .fault ∧ Ready h₀ bootMap s')
      s := by
  rw [wp_callGetMemoryMap]
  refine ⟨fun m answer => ⟨m, ?_⟩, fun r answer => ⟨(fun same => by cases same), ?_⟩⟩
  · have delivered := documented.fits _ _ _ _ answer
    have bound := s.vars.memMap.size.isLt
    refine ⟨⟨ready.follows.cons (.getMemoryMap ready.open' ready.live fits), ?_, ready.unchanged,
      ready.live, ready.apart⟩, ⟨?_, rfl, rfl, ?_, by change _ ≤ s.vars.memMapBufferSize.toNat; omega,
      documented.stride _ _ _ _ answer⟩, ⟨_, _, _, rfl⟩⟩
    · exact not_exited_cons ready.open' (fun key same => by cases same)
    · change (BitVec.ofNat 64 m.bytes.length).toNat = _
      rw [BitVec.toNat_ofNat]
      omega
    · rw [hasBytes_iff]
      exact fun i hi => blit_of_inside hi
  · refine ⟨ready.follows.cons (.getMemoryMap ready.open' ready.live fits), ?_, ready.unchanged,
      ready.live, ready.apart⟩
    exact not_exited_cons ready.open' (fun key same => by cases same)

theorem efiGetMemmapNorealloc_spec (documented : bs.Documented) (ready : Ready h₀ bootMap s) :
    wp (efiGetMemmapNorealloc bs s.vars.memMapBufferSize)
      (fun _ s' => ∃ m, Delivered h₀ bootMap m s') (fun stop s' => stop ≠ .fault ∧ Ready h₀ bootMap s')
      s := by
  simp only [efiGetMemmapNorealloc, wp_bind, wp_setMemMap, wp_get]
  exact callGetMemoryMap_spec documented ⟨ready.follows, ready.open', ready.unchanged, ready.live, ready.apart⟩
    (Nat.le_refl _)

/-- `efi_get_memmap` with a size of 0 ends with a new buffer and its map, or fails. -/
theorem efiGetMemmap_spec (documented : bs.Documented) (leaves : bs.Leaves h₀ bootMap)
    (follows : Follows h₀ s.vars.calls)
    (open' : ¬Exited s.vars.calls) (unchanged : s.vars.bootMap = bootMap)
    (zero : s.vars.memMap.size = 0) :
    wp (efiGetMemmap bs) (fun _ s' => ∃ m, Delivered h₀ bootMap m s')
      (fun stop s' => stop ≠ .fault ∧ Follows h₀ s'.vars.calls ∧ ¬Exited s'.vars.calls) s := by
  simp only [efiGetMemmap, wp_bind, wp_status, wp_callGetMemoryMap]
  obtain ⟨r, answer, tooSmall⟩ := documented.query s.vars.calls
  rw [zero, answer]
  refine ⟨(fun m same => by cases same), fun r' same => ?_⟩
  cases same
  -- the query fails as it should, and says how much is needed
  have follows' : Follows h₀ (unmapped none r s).vars.calls := follows.cons (.query open')
  have open'' : ¬Exited (unmapped none r s).vars.calls :=
    not_exited_cons open' (fun key same => by cases same)
  rw [tooSmall]
  simp only [ne_eq, not_true_eq_false, if_false, wp_bind, wp_setMemMap, wp_setVars, wp_get,
    wp_callAllocatePool, wp_onError]
  refine ⟨fun descs granted => ?_, fun e refused => ⟨(fun same => by cases same), ?_, ?_⟩⟩
  · have apart : bootMap.Apart descs (r.size + 8192).toNat := by
      obtain ⟨evs, hevs, _⟩ := follows'
      exact leaves evs _ _ (hevs ▸ granted)
    have allocated := not_exited_cons (c := .allocatePool (r.size + 8192) (.ok descs)) open''
      (fun key same => by cases same)
    refine wp_mono (callGetMemoryMap_spec documented ⟨follows'.cons (.allocatePool open''), allocated,
      unchanged, if_pos rfl, apart⟩ (Nat.le_refl _)) (fun _ _ h => h) ?_
    rintro stop s' ⟨noFault, ready'⟩
    cases stop with
    | fault => exact absurd rfl noFault
    | efi e =>
      refine ⟨noFault, ready'.follows.cons (.freePool ready'.open'), ?_⟩
      exact not_exited_cons ready'.open' (fun key same => by cases same)
  · exact follows'.cons (.allocatePool open'')
  · exact not_exited_cons open'' (fun key same => by cases same)

/-- `ExitBootServices` with the key of the map just delivered. -/
theorem callExitBootServices_spec (delivered : Delivered h₀ bootMap m s) :
    wp (callExitBootServices bs s.vars.memMap.key) (fun _ s' => Accepted h₀ bootMap m s')
      (fun stop s' => stop ≠ .fault ∧ Ready h₀ bootMap s') s := by
  obtain ⟨n, b, rest, last⟩ := delivered.last
  have permitted : ∀ answer, Permitted s.vars.calls (.exitBootServices s.vars.memMap.key answer) := by
    intro answer
    have open' := delivered.open'
    rw [last] at open' ⊢
    rw [delivered.key]
    exact .exitBootServices open'
  rw [wp_callExitBootServices]
  refine ⟨fun _ => ?_, fun e _ => ⟨(fun same => by cases same), ?_⟩⟩
  · refine ⟨⟨delivered.size, delivered.key, delivered.descSize, delivered.bytes, delivered.fits,
      delivered.stride⟩, delivered.follows.cons (permitted _), ⟨n, b, rest, ?_⟩,
      delivered.unchanged, delivered.apart⟩
    change _ :: s.vars.calls = _
    rw [last, delivered.key]
  · refine ⟨delivered.follows.cons (permitted _), ?_, delivered.unchanged, delivered.live,
      delivered.apart⟩
    exact not_exited_cons delivered.open' (fun key same => by cases same)

theorem exitAttempt_spec (documented : bs.Documented) (ready : Ready h₀ bootMap s) :
    wp (exitAttempt bs) (fun _ s' => ∃ m, Accepted h₀ bootMap m s')
      (fun stop s' => stop ≠ .fault ∧ Ready h₀ bootMap s') s := by
  simp only [exitAttempt, wp_bind, wp_get]
  refine wp_mono (efiGetMemmapNorealloc_spec documented ready) ?_ (fun _ _ h => h)
  rintro _ t ⟨m, delivered⟩
  exact wp_mono (callExitBootServices_spec delivered) (fun _ _ accepted => ⟨m, accepted⟩)
    (fun _ _ h => h)

/-- The loop ends with a key accepted, or is ready for another attempt. -/
theorem exitAttempts_spec (documented : bs.Documented) (n : Nat) (res : Option EfiError)
    (ready : Ready h₀ bootMap s) (tried : n = 0 → res.isSome) :
    wp (exitAttempts bs n res)
      (fun res s' => (res = none ∧ ∃ m, Accepted h₀ bootMap m s') ∨
        (res.isSome ∧ Ready h₀ bootMap s')) (fun _ _ => False) s := by
  induction n generalizing res s with
  | zero => exact Or.inr ⟨tried rfl, ready⟩
  | succ n ih =>
    simp only [exitAttempts, wp_bind, wp_status]
    refine wp_mono (exitAttempt_spec documented ready) ?_ ?_
    · exact fun _ _ accepted => Or.inl ⟨rfl, accepted⟩
    · rintro stop t ⟨noFault, ready'⟩
      cases stop with
      | fault => exact absurd rfl noFault
      | efi e => exact ih (some e) ready' (fun _ => rfl)

/-- The last attempt ends with a key accepted, or there are no more calls. -/
theorem exitReallocated_spec (documented : bs.Documented) (leaves : bs.Leaves h₀ bootMap)
    (ready : Ready h₀ bootMap s) :
    wp (exitReallocated bs) (fun _ s' => ∃ m, Accepted h₀ bootMap m s')
      (fun stop s' => stop ≠ .fault ∧ Follows h₀ s'.vars.calls ∧ ¬Exited s'.vars.calls) s := by
  simp only [exitReallocated, efiFreeMemmap, wp_bind, wp_get, wp_callFreePool, wp_setMemMap]
  have freed : Follows h₀ (.freePool s.vars.memMap.descs :: s.vars.calls) :=
    ready.follows.cons (.freePool ready.open')
  have open' := not_exited_cons (c := .freePool s.vars.memMap.descs) ready.open'
    (fun key same => by cases same)
  refine wp_mono (efiGetMemmap_spec documented leaves freed open' ready.unchanged rfl) ?_ (fun _ _ h => h)
  rintro _ t ⟨m, delivered⟩
  refine wp_mono (callExitBootServices_spec delivered) (fun _ _ accepted => ⟨m, accepted⟩) ?_
  exact fun _ _ failed => ⟨failed.1, failed.2.follows, failed.2.open'⟩

end Steps

/-! ## The run -/

/-- The last call accepted the key of the map `m`, delivered by the call before, and
    the map for the kernel is the conversion of `m`. -/
def HandsOver (m : MemoryMap) (s : Machine HandoverVars) : Prop :=
  (∃ n b rest, s.vars.calls =
    .exitBootServices m.key (.ok ()) :: .getMemoryMap n (some b) (.ok m) :: rest) ∧
  s.vars.bootMap.Converts s.mem m.view

theorem HoldsMap.size_eq {m : MemoryMap} {s : Machine HandoverVars} (holds : HoldsMap m s) :
    s.vars.memMap.size = m.view.size := by
  have bound := s.vars.memMap.size.isLt
  have size := holds.size
  apply BitVec.eq_of_toNat_eq
  change _ = (BitVec.ofNat 64 m.bytes.length).toNat
  rw [BitVec.toNat_ofNat]
  omega

theorem HoldsMap.count_eq {m : MemoryMap} {s : Machine HandoverVars} (holds : HoldsMap m s) :
    (s.vars.memMap.view s.mem).count = m.count := by
  change (s.vars.memMap.size / s.vars.memMap.descSize).toNat = (m.view.size / m.descSize).toNat
  rw [holds.size_eq, holds.descSize]

/-- A descriptor that the map counts lies in its bytes. -/
theorem HoldsMap.desc_eq {m : MemoryMap} {s : Machine HandoverVars} (holds : HoldsMap m s) {i : Nat}
    (counted : i < m.count) : (s.vars.memMap.view s.mem).desc i = m.view.desc i := by
  have inside := s.vars.memMap.count_mul_le s.mem
  rw [holds.count_eq, holds.size, holds.descSize] at inside
  have here : i * m.descSize.toNat + 40 ≤ m.bytes.length := by
    calc i * m.descSize.toNat + 40
        ≤ i * m.descSize.toNat + m.descSize.toNat := Nat.add_le_add_left holds.stride _
      _ = (i + 1) * m.descSize.toNat := (Nat.succ_mul _ _).symm
      _ ≤ m.count * m.descSize.toNat := Nat.mul_le_mul_right _ counted
      _ ≤ m.bytes.length := inside
  rw [EfiMemmapVar.desc_view, holds.descSize]
  change _ = EfiMemoryDescriptor.decode (fun k => m.bytes.getD k 0) (i * m.descSize.toNat)
  apply EfiMemoryDescriptor.decode_moved
  intro j hj
  have bytes := hasBytes_iff.mp holds.bytes (i * m.descSize.toNat + j) (by omega)
  rw [Nat.add_assoc, bytes]
  have inside : i * m.descSize.toNat + j < m.bytes.length := by omega
  simp [List.getD_eq_getElem?_getD, List.getElem?_eq_getElem inside]

section Run

variable {bs : BootServices} {h₀ : List BootCall} {bootMap : BiMemmap} {m : MemoryMap}
  {s s' : Machine HandoverVars}

/-- After the key was accepted there are no more calls, only the conversion. -/
theorem biUpdateMemmap_accepted (nonnull : bootMap.pDescriptors ≠ 0)
    (accepted : Accepted h₀ bootMap m s) :
    wp biUpdateMemmap (fun _ s' => s'.vars.calls = s.vars.calls ∧
        m.count * 24 ≤ bootMap.bufferSize.toNat ∧ HandsOver m s')
      (fun stop s' => stop ≠ .fault ∧ s'.vars.calls = s.vars.calls ∧
        bootMap.bufferSize.toNat < m.count * 24) s := by
  have holds := accepted.toHoldsMap
  -- the map that was accepted is the one in memory
  have fits := holds.fits
  rw [← holds.size] at fits
  have apart := accepted.apart
  rw [← accepted.unchanged] at nonnull apart ⊢
  refine wp_mono (biUpdateMemmap_spec nonnull ?_ ?_) ?_ ?_
  · rw [holds.descSize]
    exact holds.stride
  · unfold BiMemmap.Apart at apart ⊢
    omega
  · rintro _ s' ⟨room, ⟨count, written⟩, _, vars⟩
    rw [holds.count_eq] at room count written
    have calls : s'.vars.calls = s.vars.calls := by rw [vars]
    refine ⟨calls, room, ?_, count, fun i hi => ?_⟩
    · rw [calls]
      exact accepted.last
    · rw [written i hi, holds.desc_eq hi]
  · rintro stop s' ⟨rfl, rfl, small⟩
    rw [holds.count_eq] at small
    exact ⟨(fun same => by cases same), rfl, small⟩

/-- How the exit phase ends: with boot services still there, or with a map whose key
    was accepted, and then in a jump exactly if the buffer has room for the map. -/
def EndsWith (bootMap : BiMemmap) (ending : Ending) (s' : Machine HandoverVars) : Prop :=
  ending = .halt ∧ ¬Exited s'.vars.calls ∨
    ∃ m, (∃ n b rest, s'.vars.calls =
        .exitBootServices m.key (.ok ()) :: .getMemoryMap n (some b) (.ok m) :: rest) ∧
      (ending = .jump ∧ m.count * 24 ≤ bootMap.bufferSize.toNat ∧ HandsOver m s' ∨
        ending = .halt ∧ bootMap.bufferSize.toNat < m.count * 24)

theorem efiMainExit_spec (documented : bs.Documented) (leaves : bs.Leaves h₀ bootMap)
    (nonnull : bootMap.pDescriptors ≠ 0)
    (ready : Ready h₀ bootMap s) :
    wp (efiMainExit bs) (fun ending s' => Follows h₀ s'.vars.calls ∧ EndsWith bootMap ending s')
      (fun _ _ => False) s := by
  -- what is left to do once a key was accepted
  have update : ∀ t, (∃ m, Accepted h₀ bootMap m t) →
      wp (do
        let res ← status biUpdateMemmap
        if res.isSome then pure .halt else pure .jump)
        (fun ending s' => Follows h₀ s'.vars.calls ∧ EndsWith bootMap ending s')
        (fun _ _ => False) t := by
    rintro t ⟨m, accepted⟩
    simp only [wp_bind, wp_status]
    refine wp_mono (biUpdateMemmap_accepted nonnull accepted) ?_ ?_
    · rintro _ s' ⟨calls, room, handsOver⟩
      refine ⟨calls ▸ accepted.follows, Or.inr ⟨m, calls ▸ accepted.last, Or.inl ⟨rfl, room, handsOver⟩⟩⟩
    · rintro stop s' ⟨noFault, calls, small⟩
      cases stop with
      | fault => exact absurd rfl noFault
      | efi e => exact ⟨calls ▸ accepted.follows, Or.inr ⟨m, calls ▸ accepted.last, Or.inr ⟨rfl, small⟩⟩⟩
  simp only [efiMainExit, wp_bind]
  refine wp_mono (exitAttempts_spec documented 5 none ready (fun zero => by cases zero)) ?_ (fun _ _ h => h)
  rintro res t (⟨rfl, accepted⟩ | ⟨failed, ready'⟩)
  · exact update t accepted
  · rw [if_pos failed, wp_bind, wp_status]
    refine wp_mono (exitReallocated_spec documented leaves ready') (fun _ u accepted => update u accepted) ?_
    rintro stop u ⟨noFault, follows, open'⟩
    cases stop with
    | fault => exact absurd rfl noFault
    | efi e => exact ⟨follows, Or.inl ⟨rfl, open'⟩⟩

theorem liveSize_append {between h : List BootCall} {b : UINT64}
    (others : ∀ c ∈ between, ∃ n a, c = .allocatePool n (.ok a) ∧ a ≠ b) :
    liveSize (between ++ h) b = liveSize h b := by
  induction between with
  | nil => rfl
  | cons c between ih =>
    rw [List.forall_mem_cons] at others
    obtain ⟨⟨n, a, rfl, other⟩, rest⟩ := others
    rw [List.cons_append, liveSize, if_neg other, ih rest]

theorem not_exited_append {between h : List BootCall} (open' : ¬Exited h)
    (others : ∀ c ∈ between, ∃ n a, c = .allocatePool n (.ok a)) : ¬Exited (between ++ h) := by
  rintro ⟨key, mem⟩
  cases List.mem_append.mp mem with
  | inl mem =>
    obtain ⟨n, a, same⟩ := others _ mem
    cases same
  | inr mem => exact open' ⟨key, mem⟩

/-- The exit phase starts ready. -/
theorem Prepared.ready {s₀ s₁ : Machine HandoverVars} (documented : bs.Documented)
    (initial : Initialised s₀) (got : efiGetMemmap bs s₀ = .ok () s₁) (prepared : Prepared s₁ s) :
    Ready s.vars.calls s.vars.bootMap s := by
  have nothing : bs.Leaves s₀.vars.calls ⟨0, 0, 0, 0, 0⟩ := fun _ _ a _ => Or.inr (Nat.zero_le _)
  have first := efiGetMemmap_spec documented nothing (Follows.refl _) initial.open' initial.bootMap
    (by rw [initial.memMap])
  obtain ⟨m, delivered⟩ := wp_ok first got
  obtain ⟨between, calls, others⟩ := prepared.calls
  refine ⟨Follows.refl _, ?_, rfl, ?_, ?_⟩
  · rw [calls]
    exact not_exited_append delivered.open' fun c mem =>
      have ⟨n, a, same, _⟩ := others c mem
      ⟨n, a, same⟩
  · rw [calls, prepared.memMap, prepared.bufferSize, liveSize_append others]
    exact delivered.live
  · rw [prepared.memMap, prepared.bufferSize]
    exact prepared.apart

/-- The exit phase ends in the jump or in the loop; every call it makes is allowed
    after those before it; and if it jumps, its last call accepted the key of the
    map that the kernel gets. -/
theorem handover_protocol {s₀ s₁ : Machine HandoverVars} (documented : bs.Documented)
    (initial : Initialised s₀) (got : efiGetMemmap bs s₀ = .ok () s₁) (prepared : Prepared s₁ s)
    (leaves : bs.Leaves s.vars.calls s.vars.bootMap) :
    ∃ ending s' evs, efiMainExit bs s = .ok ending s' ∧ s'.vars.calls = evs ++ s.vars.calls ∧
      (∀ later c earlier, evs = later ++ c :: earlier → Permitted (earlier ++ s.vars.calls) c) ∧
      (ending = .jump → ∃ m, HandsOver m s') := by
  have ready := prepared.ready documented initial got
  have spec := efiMainExit_spec documented leaves prepared.nonnull ready
  cases run : efiMainExit bs s with
  | error stop s' => exact absurd (wp_error spec run) id
  | ok ending s' =>
    obtain ⟨⟨evs, calls, permitted⟩, ends⟩ := wp_ok spec run
    refine ⟨ending, s', evs, rfl, calls, permitted, fun jumps => ?_⟩
    subst jumps
    cases ends with
    | inl halts => cases halts.1
    | inr accepted =>
      obtain ⟨m, _, outcome⟩ := accepted
      cases outcome with
      | inl jumped => exact ⟨m, jumped.2.2⟩
      | inr halts => cases halts.1

/-- Once a key was accepted, the exit phase ends in the jump exactly if the map has at
    most 597 descriptors. -/
theorem jumps_iff_map_fits {s₀ s₁ : Machine HandoverVars} {descriptors : UINT64}
    {ending : Ending} {n : UINTN} {b : UINT64} {rest : List BootCall} (documented : bs.Documented)
    (initial : Initialised s₀) (got : efiGetMemmap bs s₀ = .ok () s₁) (prepared : Prepared s₁ s)
    (built : s.vars.bootMap = biBuildMemmap descriptors)
    (leaves : bs.Leaves s.vars.calls s.vars.bootMap) (run : efiMainExit bs s = .ok ending s')
    (accepted : s'.vars.calls =
      .exitBootServices m.key (.ok ()) :: .getMemoryMap n (some b) (.ok m) :: rest) :
    ending = .jump ↔ m.count ≤ 597 := by
  have ready := prepared.ready documented initial got
  have spec := efiMainExit_spec documented leaves prepared.nonnull ready
  obtain ⟨_, ends⟩ := wp_ok spec run
  have size : s.vars.bootMap.bufferSize.toNat = 14336 := by
    rw [built]
    rfl
  rw [EndsWith, size] at ends
  cases ends with
  | inl halts =>
    -- boot services were exited, so it did not halt before that
    refine absurd ⟨m.key, ?_⟩ halts.2
    simp [accepted]
  | inr ends =>
    -- the last map of the run is the one whose key was accepted
    obtain ⟨m', ⟨n', b', rest', calls⟩, outcome⟩ := ends
    have same := accepted.symm.trans calls
    simp only [List.cons.injEq, BootCall.getMemoryMap.injEq, Except.ok.injEq] at same
    obtain ⟨_, ⟨_, _, rfl⟩, _⟩ := same
    cases outcome with
    | inl jumped => exact ⟨fun _ => by omega, fun _ => jumped.1⟩
    | inr halted =>
      refine ⟨fun jumps => ?_, fun fits => by omega⟩
      rw [halted.1] at jumps
      cases jumps

end Run

/-! ## A firmware whose map has a given number of descriptors -/

def BootCall.isExit : BootCall → Bool
  | .exitBootServices _ _ => true
  | _ => false

def BootCall.isAccepted : BootCall → Bool
  | .exitBootServices _ (.ok _) => true
  | _ => false

/-- The map has `count` descriptors, and its key is new each time.  The first
    attempt to exit is refused. -/
def BootServices.steady (count : Nat) : BootServices where
  getMemoryMap h n b :=
    if b.isSome ∧ 40 * count ≤ n.toNat then
      .ok ⟨List.replicate (40 * count) 0, BitVec.ofNat 64 h.length, 40⟩
    else .error ⟨.bufferTooSmall, BitVec.ofNat 64 (40 * count), 0, 40⟩
  allocatePool _ _ := .ok 0x100000
  exitBootServices h _ := if h.any BootCall.isExit then .ok () else .error .invalidParameter

theorem BootServices.steady_documented (count : Nat) : (steady count).Documented := by
  refine ⟨fun h => ⟨⟨.bufferTooSmall, BitVec.ofNat 64 (40 * count), 0, 40⟩, rfl, rfl⟩,
    fun h n b m answer => ?_, fun h n b m answer => ?_⟩
  · simp only [steady] at answer
    split at answer
    · next room =>
      cases answer
      simpa using room.2
    · cases answer
  · simp only [steady] at answer
    split at answer
    · cases answer
      exact Nat.le_refl 40
    · cases answer

def initialMachine : Machine HandoverVars :=
  ⟨fun _ => 0xFF, [], ⟨[], ⟨0, 0, 0, 0⟩, 0, ⟨0, 0, 0, 0, 0⟩⟩⟩

theorem initialMachine_initialised : Initialised initialMachine :=
  ⟨rfl, rfl, fun ⟨_, mem⟩ => by cases mem⟩

def mappedMachine (count : Nat) : Machine HandoverVars :=
  after (efiGetMemmap (.steady count)) initialMachine

/-- The start of the exit phase, with the buffer for the kernel's map at `0x10000`. -/
def exitMachine (count : Nat) : Machine HandoverVars :=
  { mappedMachine count with vars := { (mappedMachine count).vars with
      calls := .allocatePool 14336 (.ok 0x10000) :: (mappedMachine count).vars.calls
      bootMap := biBuildMemmap 0x10000 } }

theorem sampleMap_apart (n : Nat) : (biBuildMemmap 0x10000).Apart 0x100000 n := Or.inr (by decide)

theorem exitMachine_prepared {count : Nat} (descs : (mappedMachine count).vars.memMap.descs = 0x100000) :
    Prepared (mappedMachine count) (exitMachine count) := by
  refine ⟨rfl, rfl, ⟨[.allocatePool 14336 (.ok 0x10000)], rfl, ?_⟩, (by decide : (0x10000 : UINT64) ≠ 0),
    ?_⟩
  · intro c mem
    refine ⟨_, _, List.mem_singleton.mp mem, ?_⟩
    rw [descs]
    decide
  · rw [descs]
    exact sampleMap_apart _

theorem exitMachine_leaves (count : Nat) :
    (BootServices.steady count).Leaves (exitMachine count).vars.calls
      (exitMachine count).vars.bootMap := by
  intro evs n a granted
  cases granted
  exact sampleMap_apart _

theorem handover_protocol_two :
    ∃ ending s' evs, efiMainExit (.steady 2) (exitMachine 2) = .ok ending s' ∧
      s'.vars.calls = evs ++ (exitMachine 2).vars.calls ∧
      (∀ later c earlier, evs = later ++ c :: earlier →
        Permitted (earlier ++ (exitMachine 2).vars.calls) c) ∧
      (ending = .jump → ∃ m, HandsOver m s') :=
  handover_protocol (BootServices.steady_documented 2) initialMachine_initialised
    (eq_ok_of_succeeds (by decide +kernel)) (exitMachine_prepared (by decide +kernel))
    (exitMachine_leaves 2)

/-- The end of the exit phase on a machine whose map has `count` descriptors. -/
def exitedMachine (count : Nat) : Machine HandoverVars :=
  after (efiMainExit (.steady count)) (exitMachine count)

theorem exited_of_any {h : List BootCall} (some : h.any BootCall.isAccepted = true) : Exited h := by
  obtain ⟨c, mem, accepted⟩ := List.any_eq_true.mp some
  cases c with
  | exitBootServices key answer =>
    cases answer with
    | ok _ => exact ⟨key, mem⟩
    | error e => cases accepted
  | getMemoryMap n b answer => cases accepted
  | allocatePool n answer => cases accepted
  | freePool b => cases accepted

theorem exitedMachine_accepted {count : Nat} {ending : Ending}
    (got : efiGetMemmap (.steady count) initialMachine = .ok () (mappedMachine count))
    (descs : (mappedMachine count).vars.memMap.descs = 0x100000)
    (run : efiMainExit (.steady count) (exitMachine count) = .ok ending (exitedMachine count))
    (exited : (exitedMachine count).vars.calls.any BootCall.isAccepted = true) :
    ∃ m n b rest, (exitedMachine count).vars.calls =
      .exitBootServices m.key (.ok ()) :: .getMemoryMap n (some b) (.ok m) :: rest := by
  have documented := BootServices.steady_documented count
  have prepared := exitMachine_prepared descs
  have ready := prepared.ready documented initialMachine_initialised got
  have spec := efiMainExit_spec documented (exitMachine_leaves count) prepared.nonnull ready
  cases (wp_ok spec run).2 with
  | inl halts => exact absurd (exited_of_any exited) halts.2
  | inr ends =>
    obtain ⟨m, accepted, _⟩ := ends
    exact ⟨m, accepted⟩

/-- 598 descriptors do not fit: the loader ends in its loop with boot services gone. -/
theorem large_map_halts :
    (BootServices.steady 598).Documented ∧ Initialised initialMachine ∧
    efiGetMemmap (.steady 598) initialMachine = .ok () (mappedMachine 598) ∧
    Prepared (mappedMachine 598) (exitMachine 598) ∧
    (exitMachine 598).vars.bootMap = biBuildMemmap 0x10000 ∧
    efiMainExit (.steady 598) (exitMachine 598) = .ok .halt (exitedMachine 598) ∧
    ∃ m n b rest, (exitedMachine 598).vars.calls =
      .exitBootServices m.key (.ok ()) :: .getMemoryMap n (some b) (.ok m) :: rest := by
  have got : efiGetMemmap (.steady 598) initialMachine = .ok () (mappedMachine 598) :=
    eq_ok_of_succeeds (by decide +kernel)
  have descs : (mappedMachine 598).vars.memMap.descs = 0x100000 := by decide +kernel
  have run : efiMainExit (.steady 598) (exitMachine 598) = .ok .halt (exitedMachine 598) :=
    eq_ok_of_resultOf (by decide +kernel)
  exact ⟨BootServices.steady_documented 598, initialMachine_initialised, got,
    exitMachine_prepared descs, rfl, run, exitedMachine_accepted got descs run (by decide +kernel)⟩

theorem jumps_iff_map_fits_two :
    ∃ m n b rest, (exitedMachine 2).vars.calls =
        .exitBootServices m.key (.ok ()) :: .getMemoryMap n (some b) (.ok m) :: rest ∧
      (Ending.jump = .jump ↔ m.count ≤ 597) := by
  have got : efiGetMemmap (.steady 2) initialMachine = .ok () (mappedMachine 2) :=
    eq_ok_of_succeeds (by decide +kernel)
  have descs : (mappedMachine 2).vars.memMap.descs = 0x100000 := by decide +kernel
  have run : efiMainExit (.steady 2) (exitMachine 2) = .ok .jump (exitedMachine 2) :=
    eq_ok_of_resultOf (by decide +kernel)
  obtain ⟨m, n, b, rest, accepted⟩ := exitedMachine_accepted got descs run (by decide +kernel)
  exact ⟨m, n, b, rest, accepted, jumps_iff_map_fits (BootServices.steady_documented 2)
    initialMachine_initialised got (exitMachine_prepared descs) rfl (exitMachine_leaves 2) run
    accepted⟩

end MidnightOS.Nyxboot
