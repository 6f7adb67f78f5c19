import MidnightOS.Nyxboot.ConfigFile

/-! # Runs of the record loop

What `readRecords` does with a region of memory is what `scan` says about its bytes.
`readRecords_spec` is for a region of a live buffer, whatever the firmware answers:
the run takes the records of the scan one by one (`Took`), up to the end of the scan
or to a request that AllocatePool refuses (`ReadFailed`).
-/

namespace MidnightOS.Nyxboot

open MidnightOS.Lib

/-! ## Events -/

/-- The trace of `s`, continued. -/
def Machine.emits {σ : Type} (s : Machine σ) (evs : List Event) : Machine σ :=
  { s with trace := evs ++ s.trace }

section Emits

variable {σ : Type} (s : Machine σ) (evs evs' : List Event)

@[simp] theorem Machine.emits_mem : (s.emits evs).mem = s.mem := rfl
@[simp] theorem Machine.emits_vars : (s.emits evs).vars = s.vars := rfl
@[simp] theorem Machine.emits_trace : (s.emits evs).trace = evs ++ s.trace := rfl

theorem Machine.emits_emits : (s.emits evs).emits evs' = s.emits (evs' ++ evs) := by
  simp [Machine.emits]

end Emits

/-- Events of the record loop: reads, writes, and requests that were granted. -/
inductive WalkEvent : Event → Prop where
  | load (a n : Nat) : WalkEvent (.load a n)
  | store (a n : Nat) : WalkEvent (.store a n)
  | granted (n : UINTN) (a : UINT64) : WalkEvent (.allocatePool n (.ok a))

/-- How many requests for pool memory were refused. -/
def refusals : List Event → Nat
  | [] => 0
  | .allocatePool _ (.error _) :: h => refusals h + 1
  | _ :: h => refusals h

section Events

variable {lo hi : Nat} {evs evs' h : List Event}

theorem refusals_append (h h' : List Event) : refusals (h ++ h') = refusals h + refusals h' := by
  induction h using refusals.induct with
  | case1 => simp [refusals]
  | case2 n e h ih =>
    simp only [List.cons_append, refusals, ih]
    omega
  | case3 ev h hev ih =>
    rw [List.cons_append, refusals.eq_3 ev _ hev, refusals.eq_3 ev _ hev, ih]

theorem refusals_walk (quiet : ∀ ev ∈ evs, WalkEvent ev) : refusals evs = 0 := by
  induction evs with
  | nil => rfl
  | cons ev evs ih =>
    rw [List.forall_mem_cons] at quiet
    cases quiet.1 with
    | load a n => exact ih quiet.2
    | store a n => exact ih quiet.2
    | granted n a => exact ih quiet.2

/-- What was in use before these events still is. -/
theorem inUse_walk (quiet : ∀ ev ∈ evs, WalkEvent ev) {x : Nat} (hx : InUse h x) :
    InUse (evs ++ h) x := by
  induction evs with
  | nil => exact hx
  | cons ev evs ih =>
    rw [List.forall_mem_cons] at quiet
    have rest := ih quiet.2
    cases quiet.1 with
    | load a n => exact rest
    | store a n => exact rest
    | granted n a =>
      rcases rest with pages | ⟨b, hb, inside⟩
      · exact Or.inl pages
      · exact Or.inr ⟨b, List.mem_cons_of_mem _ hb, inside⟩

end Events

/-! ## Reading -/

section Reading

variable {s : Machine ConfigVars} {E : Stop → Machine ConfigVars → Prop} {a n lo hi : Nat}

theorem wp_loadBytes {Q : List UINT8 → Machine ConfigVars → Prop} :
    wp (loadBytes a n) Q E s ↔ Q (slice (wrapped s.mem) a n) (s.emits [.load a n]) := by
  simp only [loadBytes, wp_bind, wp_modify, wp_get, wp_pure]
  rfl

theorem wp_loadUINT8 {Q : UINT8 → Machine ConfigVars → Prop} :
    wp (loadUINT8 a) Q E s ↔ Q (s.mem a) (s.emits [.load a 1]) := by
  simp only [loadUINT8, wp_bind, wp_modify, wp_get, wp_pure]
  rfl

theorem wp_loadUINT16 {Q : UINT16 → Machine ConfigVars → Prop} :
    wp (loadUINT16 a) Q E s ↔ Q (loadLE s.mem 2 a) (s.emits [.load a 2]) := by
  simp only [loadUINT16, wp_bind, wp_modify, wp_get, wp_pure]
  rfl

end Reading

/-- `s'` is `s` after some reads between `lo` and `hi`. -/
def ReadsOnly (lo hi : Nat) (s s' : Machine ConfigVars) : Prop :=
  ∃ evs, s' = s.emits evs ∧ (∀ ev ∈ evs, ∃ a n, ev = .load a n) ∧ StaysInside lo hi evs

/-- `s'` is `s` after some reads that are not all between `lo` and `hi`. -/
def ReadsBeyond (lo hi : Nat) (s s' : Machine ConfigVars) : Prop :=
  ∃ evs, s' = s.emits evs ∧ (∀ ev ∈ evs, ∃ a n, ev = .load a n) ∧ ¬StaysInside lo hi evs

section Reads

variable {s t u : Machine ConfigVars} {lo hi a n : Nat}

theorem ReadsOnly.refl (s : Machine ConfigVars) : ReadsOnly lo hi s s :=
  ⟨[], rfl, by simp, .nil⟩

theorem ReadsOnly.load (h : ReadsOnly lo hi s t) (inside : lo ≤ a ∧ a + n ≤ hi) :
    ReadsOnly lo hi s (t.emits [.load a n]) := by
  obtain ⟨evs, rfl, loads, within⟩ := h
  refine ⟨.load a n :: evs, rfl, ?_, staysInside_cons_load.mpr ⟨inside, within⟩⟩
  exact List.forall_mem_cons.mpr ⟨⟨a, n, rfl⟩, loads⟩

theorem ReadsOnly.trans (h : ReadsOnly lo hi s t) (h' : ReadsOnly lo hi t u) :
    ReadsOnly lo hi s u := by
  obtain ⟨evs, rfl, loads, within⟩ := h
  obtain ⟨evs', rfl, loads', within'⟩ := h'
  refine ⟨evs' ++ evs, Machine.emits_emits _ _ _, ?_, staysInside_append.mpr ⟨within', within⟩⟩
  exact List.forall_mem_append.mpr ⟨loads', loads⟩

theorem ReadsOnly.mem (h : ReadsOnly lo hi s t) : t.mem = s.mem := by
  obtain ⟨evs, rfl, _⟩ := h
  rfl

theorem ReadsOnly.vars (h : ReadsOnly lo hi s t) : t.vars = s.vars := by
  obtain ⟨evs, rfl, _⟩ := h
  rfl

end Reads

/-- Inside the address space nothing wraps. -/
theorem slice_wrapped {m : Mem} {a n : Nat} (h : a + n ≤ 2 ^ 64) :
    slice (wrapped m) a n = slice m a n := by
  apply slice_congr
  intro i hi
  rw [wrapped, Nat.mod_eq_of_lt (by omega)]

section LengthFrom

variable {m : Mem} {a n : Nat} {name : List Byte}

theorem lengthFrom_name {tail : List Byte} (name_ne : ∀ b ∈ name, b ≠ 0)
    (h : HasBytes m a (name ++ 0 :: tail)) (enough : name.length < n) :
    lengthFrom m a n = some name.length := by
  induction name generalizing a n with
  | nil =>
    have zero : m a = 0 := (hasBytes_cons.mp h).1
    cases n with
    | zero => cases enough
    | succ n => simp [lengthFrom, zero]
  | cons b name ih =>
    rw [List.forall_mem_cons] at name_ne
    obtain ⟨first, rest⟩ := hasBytes_cons.mp h
    cases n with
    | zero => cases enough
    | succ n =>
      have next := ih name_ne.2 rest (by simpa using enough)
      rw [lengthFrom, first, if_neg name_ne.1, next]
      rfl

/-- A name that does not end among `bytes` is no shorter than these. -/
theorem le_of_lengthFrom {bytes : List Byte} (unterminated : ∀ b ∈ bytes, b ≠ 0)
    (h : HasBytes m a bytes) {k : Nat} (hk : lengthFrom m a n = some k) : bytes.length ≤ k := by
  induction bytes generalizing a n k with
  | nil => exact Nat.zero_le k
  | cons b bytes ih =>
    rw [List.forall_mem_cons] at unterminated
    obtain ⟨first, rest⟩ := hasBytes_cons.mp h
    cases n with
    | zero => cases hk
    | succ n =>
      rw [lengthFrom, first, if_neg unterminated.1, Option.map_eq_some_iff] at hk
      obtain ⟨j, hj, rfl⟩ := hk
      have := ih unterminated.2 rest hj
      simpa using this

end LengthFrom

/-! ## One record -/

section Record

variable {s : Machine ConfigVars} {lo ptr stop : Nat} {bytes : List Byte}

theorem strlena_spec (lo stop : Nat) {name tail : List Byte} (name_ne : ∀ b ∈ name, b ≠ 0)
    (h : HasBytes s.mem ptr (name ++ 0 :: tail)) (below : ptr + name.length < 2 ^ 64)
    (hlo : lo ≤ ptr) (hstop : ptr + name.length + 1 ≤ stop) :
    wp (strlena ptr) (fun len s' => len = name.length ∧ ReadsOnly lo stop s s')
      (fun _ _ => False) s := by
  have found := lengthFrom_name name_ne h (n := 2 ^ 64 - ptr) (by omega)
  simp only [strlena, wp_bind, wp_get, found, wp_modify, wp_pure, true_and]
  exact (ReadsOnly.refl s).load ⟨hlo, by omega⟩

/-- A name that does not end in the region is read past the end of the region. -/
theorem strlena_unterminated (lo : Nat) (unterminated : ∀ b ∈ bytes, b ≠ 0) (h : HasBytes s.mem ptr bytes)
    (hstop : ptr + bytes.length = stop) (below : stop < 2 ^ 64) :
    wp (strlena ptr) (fun len s' => stop < ptr + len + 1 ∧ ReadsBeyond lo stop s s')
      (fun e s' => e = .fault ∧ ReadsBeyond lo stop s s') s := by
  have beyond : ∀ n, stop < ptr + n → ReadsBeyond lo stop s (s.emits [.load ptr n]) := by
    intro n hn
    refine ⟨[.load ptr n], rfl, by simp, ?_⟩
    intro inside
    have := inside ptr n (List.mem_singleton_self _)
    omega
  simp only [strlena, wp_bind, wp_get]
  cases found : lengthFrom s.mem ptr (2 ^ 64 - ptr) with
  | some len =>
    have := le_of_lengthFrom unterminated h found
    simp only [wp_bind, wp_modify, wp_pure]
    exact ⟨by omega, beyond (len + 1) (by omega)⟩
  | none =>
    simp only [wp_bind, wp_modify, wp_throw, true_and]
    exact beyond (2 ^ 64 - ptr) (by omega)

/-- The size field after a name. -/
theorem loadLE_size {name body : List Byte} {size : BitVec 16}
    (h : HasBytes s.mem ptr (name ++ 0 :: (leBytes 2 size ++ body))) :
    loadLE s.mem 2 (ptr + name.length + 1) = size := by
  have after := (hasBytes_append.mp h).2
  exact ((hasBytes_cons.mp after).2.parts (leBytes 2 size) body).1.loadLE

/-- The two bytes after the data. -/
theorem trailer_bytes {name data rest : List Byte} {size : BitVec 16} {first second : Byte}
    (h : HasBytes s.mem ptr (name ++ 0 :: (leBytes 2 size ++ (data ++ first :: second :: rest)))) :
    s.mem (ptr + name.length + 3 + data.length) = first ∧
      s.mem (ptr + name.length + 3 + data.length + 1) = second := by
  have after := (hasBytes_append.mp h).2
  have body := ((hasBytes_cons.mp after).2.parts (leBytes 2 size) _).2
  rw [length_leBytes] at body
  have trailer := hasBytes_cons.mp (hasBytes_append.mp body).2
  exact ⟨trailer.1, (hasBytes_cons.mp trailer.2).1⟩

/-- A record with all its data: the two bytes behind it decide. -/
theorem extractData_whole {name data rest : List Byte} {first second : Byte}
    (name_ne : ∀ b ∈ name, b ≠ 0) (size_lt : data.length < 2 ^ 16)
    (h : HasBytes s.mem ptr (name ++ 0 :: (leBytes 2 (BitVec.ofNat 16 data.length) ++
      (data ++ first :: second :: rest))))
    (hstop : ptr + (name ++ 0 :: (leBytes 2 (BitVec.ofNat 16 data.length) ++
      (data ++ first :: second :: rest))).length = stop)
    (below : stop < 2 ^ 64) (hlo : lo ≤ ptr) :
    wp (extractData ptr stop)
      (fun x s' => ReadsOnly lo stop s s' ∧ (first = 0x00 ∧ second = 0x0A) ∧
        x = ⟨BitVec.ofNat 16 data.length, ptr + name.length + 3, stop - rest.length⟩)
      (fun e s' => ¬(first = 0x00 ∧ second = 0x0A) ∧ e = .efi .compromisedData ∧
        ReadsOnly lo stop s s') s := by
  rw [extractData, wp_bind]
  simp only [List.length_append, List.length_cons, length_leBytes] at hstop
  refine wp_mono (strlena_spec lo stop name_ne h (by omega) hlo (by omega)) ?_
    (fun _ _ hno => hno.elim)
  rintro _ s' ⟨rfl, hs'⟩
  have sized := loadLE_size h
  have trailer := trailer_bytes h
  have size : (BitVec.ofNat 16 data.length).toNat = data.length := by
    rw [BitVec.toNat_ofNat, Nat.mod_eq_of_lt size_lt]
  -- the size field, then the two bytes of the trailer
  have read1 := hs'.load (a := ptr + name.length + 1) (n := 2) ⟨by omega, by omega⟩
  have read2 := read1.load (a := ptr + name.length + 3 + data.length) (n := 1)
    ⟨by omega, by omega⟩
  have read3 := read2.load (a := ptr + name.length + 3 + data.length + 1) (n := 1)
    ⟨by omega, by omega⟩
  simp only [wp_bind, wp_returnIf, wp_loadUINT16, wp_loadUINT8, wp_pure, hs'.mem, sized, size,
    Machine.emits_mem, Nat.add_assoc (ptr + name.length) 1 2, trailer]
  refine ⟨fun short => ?_, fun _ => ⟨fun short => ?_, fun _ => ⟨fun wrong => ?_, fun hfirst =>
    ⟨fun wrong => ?_, fun hsecond => ?_⟩⟩⟩⟩
  · omega
  · omega
  · exact ⟨fun both => wrong both.1, trivial, read2⟩
  · exact ⟨fun both => wrong both.2, trivial, read3⟩
  · refine ⟨read3, ⟨not_not.mp hfirst, not_not.mp hsecond⟩, ?_⟩
    congr 1
    omega

theorem extractData_spec (h : HasBytes s.mem ptr bytes) (hstop : ptr + bytes.length = stop)
    (below : stop < 2 ^ 64) (hlo : lo ≤ ptr) :
    wp (extractData ptr stop)
      (fun x s' => ReadsOnly lo stop s s' ∧ ∃ r rest, nextRecord bytes = .record r rest ∧
        bytes = r.encode ++ rest ∧
        x = ⟨BitVec.ofNat 16 r.data.length, ptr + r.name.length + 3, stop - rest.length⟩)
      (fun e s' => (nextRecord bytes = .broken ∧ e = .efi .compromisedData ∧ ReadsOnly lo stop s s') ∨
        (nextRecord bytes = .outside ∧ (e = .efi .compromisedData ∨ e = .fault) ∧
          ReadsBeyond lo stop s s')) s := by
  have starts := starts_nextRecord bytes
  generalize nextRecord bytes = next at starts
  cases starts with
  | outside unterminated =>
    rw [extractData, wp_bind]
    refine wp_mono (strlena_unterminated lo unterminated h hstop below) ?_ ?_
    · intro len s' hs'
      rw [wp_bind, wp_returnIf]
      refine ⟨fun _ => Or.inr ⟨rfl, Or.inl rfl, hs'.2⟩, fun inside => ?_⟩
      omega
    · intro e s' hs'
      exact Or.inr ⟨rfl, Or.inr hs'.1, hs'.2⟩
  | @noSize name tail name_ne short =>
    rw [extractData, wp_bind]
    simp only [List.length_append, List.length_cons] at hstop
    refine wp_mono (strlena_spec lo stop name_ne h (by omega) hlo (by omega)) ?_
      (fun _ _ hno => hno.elim)
    rintro _ s' ⟨rfl, hs'⟩
    rw [wp_bind, wp_returnIf]
    refine ⟨fun _ => Or.inl ⟨rfl, rfl, hs'⟩, fun room => ?_⟩
    omega
  | @noData name body size name_ne short =>
    rw [extractData, wp_bind]
    simp only [List.length_append, List.length_cons, length_leBytes] at hstop
    refine wp_mono (strlena_spec lo stop name_ne h (by omega) hlo (by omega)) ?_
      (fun _ _ hno => hno.elim)
    rintro _ s' ⟨rfl, hs'⟩
    have sized := loadLE_size h
    simp only [wp_bind, wp_returnIf, wp_loadUINT16, hs'.mem, sized]
    refine ⟨fun short => ?_, fun _ => ⟨fun _ => Or.inl ⟨trivial, trivial, ?_⟩, fun room => ?_⟩⟩
    · omega
    · exact hs'.load ⟨by omega, by omega⟩
    · omega
  | @noTrailer name data rest first second name_ne size_lt wrong =>
    refine wp_mono (extractData_whole name_ne size_lt h hstop below hlo) ?_ ?_
    · rintro _ _ ⟨_, trailer, _⟩
      exact absurd trailer wrong
    · rintro _ _ ⟨_, status, reads⟩
      exact Or.inl ⟨rfl, status, reads⟩
  | @record r rest =>
    have whole : r.encode ++ rest = r.name ++ 0 :: (leBytes 2 (BitVec.ofNat 16 r.data.length) ++
        (r.data ++ 0x00 :: 0x0A :: rest)) := by
      simp [ConfigRecord.encode]
    have fields := h
    have length := hstop
    rw [whole] at fields length
    refine wp_mono (extractData_whole r.name_ne r.size_lt fields length below hlo) ?_ ?_
    · rintro _ _ ⟨reads, _, record⟩
      exact ⟨reads, r, rest, rfl, rfl, record⟩
    · rintro _ _ ⟨noTrailer, _⟩
      exact absurd ⟨rfl, rfl⟩ noTrailer

theorem difference_eq_zero (c d : UINT8) : c.setWidth 64 - d.setWidth 64 = (0 : UINTN) ↔ c = d := by
  rw [← BitVec.toNat_inj, ← BitVec.toNat_inj, BitVec.toNat_sub, BitVec.toNat_setWidth,
    BitVec.toNat_setWidth, show (0 : UINTN).toNat = 0 from rfl]
  have := c.isLt
  have := d.isLt
  omega

/-- `strcmpa` returns zero exactly for the name it was given. -/
theorem strcmpa_spec (lo stop : Nat) {name s2 tail : List Byte} (s2_ne : ∀ d ∈ s2, d ≠ 0)
    (name_ne : ∀ b ∈ name, b ≠ 0) (h : HasBytes s.mem ptr (name ++ 0 :: tail)) (hlo : lo ≤ ptr)
    (hstop : ptr + name.length + 1 ≤ stop) :
    wp (strcmpa ptr s2) (fun r s' => (r = 0 ↔ name = s2) ∧ ReadsOnly lo stop s s')
      (fun _ _ => False) s := by
  have read : ReadsOnly lo stop s (s.emits [.load ptr 1]) :=
    (ReadsOnly.refl s).load ⟨hlo, by omega⟩
  induction s2 generalizing s ptr name with
  | nil =>
    -- at the end of `s2` the names are equal if the record's ends too
    have zero := difference_eq_zero (s.mem ptr) 0
    rw [show (0 : UINT8).setWidth 64 = 0#64 from rfl, BitVec.sub_zero] at zero
    simp only [strcmpa, wp_bind, wp_loadUINT8, wp_pure, zero]
    refine ⟨?_, read⟩
    cases name with
    | nil => simp [(hasBytes_cons.mp h).1]
    | cons b name =>
      rw [(hasBytes_cons.mp h).1]
      exact ⟨fun hb => absurd hb (name_ne b List.mem_cons_self), fun wrong => by cases wrong⟩
  | cons d s2 ih =>
    rw [List.forall_mem_cons] at s2_ne
    simp only [strcmpa, wp_bind, wp_loadUINT8, wp_ite, wp_pure, difference_eq_zero]
    cases name with
    | nil =>
      rw [(hasBytes_cons.mp h).1]
      exact ⟨fun _ => ⟨⟨fun hd => absurd hd.symm s2_ne.1, fun wrong => by cases wrong⟩, read⟩,
        fun stays => absurd (Or.inl rfl) stays⟩
    | cons b name =>
      obtain ⟨first, rest⟩ := hasBytes_cons.mp h
      rw [List.forall_mem_cons] at name_ne
      rw [List.length_cons] at hstop
      rw [first]
      refine ⟨fun differs => ⟨?_, read⟩, fun same => ?_⟩
      · -- the first difference
        have distinct : b ≠ d := differs.resolve_left name_ne.1
        exact ⟨fun heq => absurd heq distinct, fun heq => absurd (List.cons.inj heq).1 distinct⟩
      · obtain rfl : b = d := by
          by_contra hne
          exact same (Or.inr hne)
        have next := ih (s := s.emits [.load ptr 1]) s2_ne.2 name_ne.2 rest (by omega) (by omega)
          ((ReadsOnly.refl _).load ⟨by omega, by omega⟩)
        refine wp_mono next ?_ (fun _ _ hno => hno)
        intro r s' hs'
        refine ⟨?_, read.trans hs'.2⟩
        rw [hs'.1, List.cons.injEq, and_iff_right rfl]

end Record

/-! ## The records taken -/

/-- The GUID that some bytes are. -/
def EfiGuid.ofBytes (bytes : List Byte) : EfiGuid := EfiGuid.decode (fun i => bytes.getD i 0) 0

/-- The BOOT_DISK records have the bytes of a GUID between their data and the end of
    the file. -/
def DisksFit (taken : List TakenRecord) : Prop :=
  ∀ t ∈ taken, t.record.name = bootDisk → 16 ≤ t.room

instance decidableDisksFit (taken : List TakenRecord) : Decidable (DisksFit taken) :=
  inferInstanceAs (Decidable (∀ t ∈ taken, t.record.name = bootDisk → 16 ≤ t.room))

/-- A run from `s` to `s'` took these records, from a region that ends at `stop`. -/
structure Took (lo stop : Nat) (s s' : Machine ConfigVars) (taken : List TakenRecord) : Prop where
  events : ∃ evs, s'.trace = evs ++ s.trace ∧ (∀ ev ∈ evs, WalkEvent ev) ∧
    (StaysInside lo stop evs ↔ DisksFit taken)
  handles : s'.vars.handles = s.vars.handles
  frame : ∀ x, InUse s.trace x → s'.mem x = s.mem x
  copies : ∃ copies, poolBuffers s'.trace = copies ++ poolBuffers s.trace ∧
    copies.map (·.2) = (pathsOf taken).reverse.map List.length ∧
    ∀ b ∈ copies, 0 < b.2 → ¬InUse s.trace b.1
  noPath : pathsOf taken = [] → s'.vars.cfg.bootBinPath = s.vars.cfg.bootBinPath
  path : ∀ data, (pathsOf taken).getLast? = some data →
    s'.vars.cfg.bootBinPath ≠ 0 ∧ HasBytes s'.mem s'.vars.cfg.bootBinPath.toNat data ∧
      (s'.vars.cfg.bootBinPath.toNat, data.length) ∈ (poolBuffers s'.trace).head?
  noDisk : disksOf taken = [] → s'.vars.cfg.bootPartUUID = s.vars.cfg.bootPartUUID
  disk : ∀ data, (disksOf taken).getLast? = some data → data.length = 16 →
    s'.vars.cfg.bootPartUUID = EfiGuid.ofBytes data

section Took

variable {lo stop : Nat} {s t u : Machine ConfigVars} {taken taken' : List TakenRecord}

@[simp] theorem pathsOf_append (taken taken' : List TakenRecord) :
    pathsOf (taken ++ taken') = pathsOf taken ++ pathsOf taken' := by
  simp [pathsOf]

@[simp] theorem disksOf_append (taken taken' : List TakenRecord) :
    disksOf (taken ++ taken') = disksOf taken ++ disksOf taken' := by
  simp [disksOf]

theorem Took.of_reads (h : ReadsOnly lo stop s t) : Took lo stop s t [] := by
  obtain ⟨evs, rfl, loads, within⟩ := h
  have walk : ∀ ev ∈ evs, WalkEvent ev := by
    intro ev hev
    obtain ⟨a, n, rfl⟩ := loads ev hev
    exact .load a n
  have pools : poolBuffers (evs ++ s.trace) = poolBuffers s.trace := by
    clear within walk
    induction evs with
    | nil => rfl
    | cons ev evs ih =>
      rw [List.forall_mem_cons] at loads
      obtain ⟨⟨a, n, rfl⟩, loads⟩ := loads
      exact ih loads
  exact {
    events := ⟨evs, rfl, walk, fun _ => by simp [DisksFit], fun _ => within⟩
    handles := rfl
    frame := fun _ _ => rfl
    copies := ⟨[], pools, rfl, by simp⟩
    noPath := fun _ => rfl
    path := fun _ h => by cases h
    noDisk := fun _ => rfl
    disk := fun _ h => by cases h }

theorem Took.inUse (h : Took lo stop s t taken) {x : Nat} (hx : InUse s.trace x) :
    InUse t.trace x := by
  obtain ⟨evs, trace, walk, _⟩ := h.events
  rw [trace]
  exact inUse_walk walk hx

theorem Took.trans (h : Took lo stop s t taken) (h' : Took lo stop t u taken') :
    Took lo stop s u (taken ++ taken') := by
  obtain ⟨evs, trace, walk, within⟩ := h.events
  obtain ⟨evs', trace', walk', within'⟩ := h'.events
  obtain ⟨copies, pools, sizes, fresh⟩ := h.copies
  obtain ⟨copies', pools', sizes', fresh'⟩ := h'.copies
  refine {
    events := ⟨evs' ++ evs, ?_, List.forall_mem_append.mpr ⟨walk', walk⟩, ?_⟩
    handles := h'.handles.trans h.handles
    frame := fun x hx => (h'.frame x (h.inUse hx)).trans (h.frame x hx)
    copies := ⟨copies' ++ copies, ?_, ?_, ?_⟩
    noPath := fun none => ?_
    path := fun data last => ?_
    noDisk := fun none => ?_
    disk := fun data last size => ?_ }
  · rw [trace', trace, List.append_assoc]
  · rw [staysInside_append, within, within']
    simp only [DisksFit, List.forall_mem_append]
    exact And.comm
  · rw [pools', pools, List.append_assoc]
  · simp [sizes, sizes']
  · intro b hb positive inUse
    rcases List.mem_append.mp hb with hb | hb
    · exact fresh' b hb positive (h.inUse inUse)
    · exact fresh b hb positive inUse
  · rw [pathsOf_append, List.append_eq_nil_iff] at none
    rw [h'.noPath none.2, h.noPath none.1]
  · rw [pathsOf_append, List.getLast?_append] at last
    cases later : (pathsOf taken').getLast? with
    | some data' =>
      rw [later, Option.some_or] at last
      exact h'.path data (later.trans last)
    | none =>
      -- no path after this one: the buffer and its bytes are as the first run left them
      rw [later, Option.none_or] at last
      have none' : pathsOf taken' = [] := List.getLast?_eq_none_iff.mp later
      obtain ⟨nonnull, bytes, head⟩ := h.path data last
      have same := h'.noPath none'
      have noCopies : copies' = [] := by simpa [none'] using sizes'
      rw [noCopies, List.nil_append] at pools'
      rw [same, pools']
      refine ⟨nonnull, ?_, head⟩
      rw [hasBytes_iff] at bytes ⊢
      intro i hi
      rw [← bytes i hi]
      apply h'.frame
      exact Or.inr ⟨_, List.mem_of_mem_head? head, Nat.le_add_right _ _, Nat.add_lt_add_left hi _⟩
  · rw [disksOf_append, List.append_eq_nil_iff] at none
    rw [h'.noDisk none.2, h.noDisk none.1]
  · rw [disksOf_append, List.getLast?_append] at last
    cases later : (disksOf taken').getLast? with
    | some data' =>
      rw [later, Option.some_or] at last
      exact h'.disk data (later.trans last) size
    | none =>
      rw [later, Option.none_or] at last
      rw [h'.noDisk (List.getLast?_eq_none_iff.mp later), h.disk data last size]

end Took

section Options

variable {fw : Firmware} {lo stop data : Nat} {s : Machine ConfigVars} {t : TakenRecord}

theorem EfiGuid.decode_moved {m m' : Mem} {a a' : Nat}
    (h : ∀ i < 16, m (a + i) = m' (a' + i)) : EfiGuid.decode m a = EfiGuid.decode m' a' := by
  have field : ∀ off n, off + n ≤ 16 → loadLE m n (a + off) = loadLE m' n (a' + off) := by
    intro off n inside
    apply loadLE_moved
    intro i hi
    rw [Nat.add_assoc, Nat.add_assoc, h _ (by omega)]
  rw [EfiGuid.decode, EfiGuid.decode]
  congr 1
  · exact field 0 4 (by omega)
  · exact field 4 2 (by omega)
  · exact field 6 2 (by omega)
  · exact field 8 8 (by omega)

theorem EfiGuid.decode_of_hasBytes {m : Mem} {a : Nat} {bytes : List Byte} (h : HasBytes m a bytes)
    (size : bytes.length = 16) : EfiGuid.decode m a = EfiGuid.ofBytes bytes :=
  EfiGuid.decode_moved fun _ hi => h.getD_eq (by omega)

theorem setBootDisk_spec (hname : t.record.name = bootDisk)
    (hdata : HasBytes s.mem data t.record.data) (hroom : data + t.room = stop) (hlo : lo ≤ data) :
    wp (setBootDisk data) (fun _ s' => Took lo stop s s' [t]) (fun _ _ => False) s := by
  have noPath : pathsOf [t] = [] := by
    rw [pathsOf, List.filter_singleton, hname]
    rfl
  have disk : disksOf [t] = [t.record.data] := by
    rw [disksOf, List.filter_singleton, hname]
    rfl
  simp only [setBootDisk, wp_bind, wp_modify]
  refine {
    events := ⟨[.load data 16], rfl, by simp [WalkEvent.load], ?_⟩
    handles := rfl
    frame := fun _ _ => rfl
    copies := ⟨[], rfl, by rw [noPath]; rfl, by simp⟩
    noPath := fun _ => rfl
    path := fun _ h => by rw [noPath] at h; cases h
    noDisk := fun h => by rw [disk] at h; cases h
    disk := fun d h size => ?_ }
  · rw [staysInside_cons_load]
    simp only [DisksFit, List.mem_singleton, forall_eq, hname, forall_const]
    constructor
    · intro h
      omega
    · intro h
      exact ⟨⟨hlo, by omega⟩, .nil⟩
  · rw [disk] at h
    cases h
    exact EfiGuid.decode_of_hasBytes hdata size

theorem setBootPath_spec (hfw : fw.SoundPool) (hname : t.record.name = bootPath)
    (hdata : HasBytes s.mem data t.record.data) (hlo : lo ≤ data)
    (hstop : data + t.record.data.length ≤ stop) (below : stop < 2 ^ 64) :
    wp (setBootPath fw data (BitVec.ofNat 16 t.record.data.length))
      (fun _ s' => Took lo stop s s' [t])
      (fun e s' => ∃ n code, e = .efi code ∧ s' = s.emits [.allocatePool n (.error code)]) s := by
  have size : (BitVec.ofNat 16 t.record.data.length).toNat = t.record.data.length := by
    rw [BitVec.toNat_ofNat, Nat.mod_eq_of_lt t.record.size_lt]
  have request : ((BitVec.ofNat 16 t.record.data.length).setWidth 64 : UINTN).toNat =
      t.record.data.length := by
    rw [BitVec.toNat_setWidth, size, Nat.mod_eq_of_lt]
    exact Nat.lt_trans t.record.size_lt (by decide)
  have path : pathsOf [t] = [t.record.data] := by
    rw [pathsOf, List.filter_singleton, hname]
    rfl
  have noDisk : disksOf [t] = [] := by
    rw [disksOf, List.filter_singleton, hname]
    rfl
  simp only [setBootPath, copyMem, wp_bind, wp_allocatePool, wp_modify, wp_loadBytes]
  refine ⟨fun buffer granted => ?_, fun code refused => ⟨_, code, rfl, rfl⟩⟩
  have bytes : slice (wrapped s.mem) data (BitVec.ofNat 16 t.record.data.length).toNat =
      t.record.data := by
    rw [size, slice_wrapped (by omega)]
    exact hdata
  refine {
    events := ⟨[.store buffer.toNat _, .load data _, .allocatePool _ (.ok buffer)], rfl, ?_, ?_⟩
    handles := rfl
    frame := fun x hx => ?_
    copies := ⟨[(buffer.toNat, _)], rfl, ?_, ?_⟩
    noPath := fun h => by rw [path] at h; cases h
    path := fun d h => ?_
    noDisk := fun _ => rfl
    disk := fun d h => by rw [noDisk] at h; cases h }
  · simp [WalkEvent.load, WalkEvent.store, WalkEvent.granted]
  · have fit : DisksFit [t] := by
      intro t' ht' hdisk
      rw [List.mem_singleton.mp ht', hname] at hdisk
      cases hdisk
    refine ⟨fun _ => fit, fun _ a n h => ?_⟩
    simp only [List.mem_cons, Event.load.injEq, reduceCtorEq, List.not_mem_nil, or_false,
      false_or] at h
    obtain ⟨rfl, rfl⟩ := h
    exact ⟨hlo, by omega⟩
  · -- memory in use is not handed out, so the copy does not reach it
    change blit s.mem buffer.toNat (slice (wrapped s.mem) data _) x = s.mem x
    rw [bytes]
    apply blit_of_outside
    have fresh := hfw.fresh _ _ _ granted x
    rw [request] at fresh
    by_contra inside
    exact fresh (by omega) (by omega) hx
  · rw [path]
    simp [request]
  · simp only [List.mem_singleton, forall_eq]
    intro positive
    exact hfw.fresh _ _ _ granted _ (Nat.le_refl _) (by omega)
  · obtain rfl : t.record.data = d := by simpa [path] using h
    refine ⟨hfw.nonnull _ _ _ granted, ?_, ?_⟩
    · rw [hasBytes_iff]
      intro i hi
      change blit s.mem buffer.toNat (slice (wrapped s.mem) data _) (buffer.toNat + i) = _
      rw [bytes, blit_of_inside hi]
    · simp [poolBuffers, request]

end Options

/-! ## The loop -/

/-- How a run from `s` that did not come to the end of its region stopped, in `s'`,
    when this is what the scan of the region says. -/
inductive ReadFailed (lo stop : Nat) (s s' : Machine ConfigVars) (e : Stop) :
    List TakenRecord × ScanEnd → Prop where
  | rejected {taken : List TakenRecord} {code : EfiError} (took : Took lo stop s s' taken)
      (status : e = .efi code) : ReadFailed lo stop s s' e (taken, .rejected code)
  | outside {taken : List TakenRecord} {t : Machine ConfigVars} (took : Took lo stop s t taken)
      (beyond : ReadsBeyond lo stop t s') (status : e = .efi .compromisedData ∨ e = .fault) :
      ReadFailed lo stop s s' e (taken, .outside)
  | refused {taken rest : List TakenRecord} {r : TakenRecord} {fin : ScanEnd} {n : UINTN}
      {code : EfiError} {t : Machine ConfigVars} (took : Took lo stop s t taken)
      (isPath : r.record.name = bootPath) (status : e = .efi code)
      (state : s' = t.emits [.allocatePool n (.error code)]) :
      ReadFailed lo stop s s' e (taken ++ r :: rest, fin)

section Loop

variable {fw : Firmware} {lo ptr stop : Nat} {s t s' : Machine ConfigVars} {bytes : List Byte}

theorem ReadFailed.after {first : List TakenRecord} {e : Stop}
    {result : List TakenRecord × ScanEnd} (took : Took lo stop s t first)
    (h : ReadFailed lo stop t s' e result) :
    ReadFailed lo stop s s' e (first ++ result.1, result.2) := by
  cases h with
  | rejected took' status => exact .rejected (took.trans took') status
  | outside took' beyond status => exact .outside (took.trans took') beyond status
  | refused took' isPath status state =>
    simp only [← List.append_assoc]
    exact .refused (took.trans took') isPath status state

/-- One round, on a region that starts with the record `r`. -/
theorem parseData_spec (hfw : fw.SoundPool) {r : ConfigRecord} {rest : List Byte}
    (h : HasBytes s.mem ptr (r.encode ++ rest)) (hstop : ptr + (r.encode ++ rest).length = stop)
    (below : stop < 2 ^ 64) (hlo : lo ≤ ptr) :
    wp (parseData fw ptr ⟨BitVec.ofNat 16 r.data.length, ptr + r.name.length + 3, stop - rest.length⟩)
      (fun _ s' => (r.name = bootDisk ∨ r.name = bootPath) ∧
        Took lo stop s s' [⟨r, r.data.length + 2 + rest.length⟩])
      (fun e s' => (¬(r.name = bootDisk ∨ r.name = bootPath) ∧ e = .efi .invalidParameter ∧
          ReadsOnly lo stop s s') ∨
        (r.name = bootPath ∧ ∃ t n code, ReadsOnly lo stop s t ∧ e = .efi code ∧
          s' = t.emits [.allocatePool n (.error code)])) s := by
  have length := r.length_encode
  rw [List.length_append] at hstop
  have whole : r.encode ++ rest = r.name ++ 0 :: (leBytes 2 (BitVec.ofNat 16 r.data.length) ++
      (r.data ++ 0x00 :: 0x0A :: rest)) := by
    simp [ConfigRecord.encode]
  rw [whole] at h
  have name := strcmpa_spec (s := s) lo stop (by decide : ∀ d ∈ bootDisk, d ≠ 0) r.name_ne h hlo
    (by omega)
  -- the data starts behind name, terminator and size
  have data : HasBytes s.mem (ptr + r.name.length + 3) r.data := by
    have after := (hasBytes_cons.mp (hasBytes_append.mp h).2).2
    have body := (after.parts (leBytes 2 _) _).2
    rw [length_leBytes] at body
    exact (body.parts r.data _).1
  have room : ptr + r.name.length + 3 + (r.data.length + 2 + rest.length) = stop := by omega
  have inside : ptr + r.name.length + 3 + r.data.length ≤ stop := by omega
  rw [parseData, wp_bind]
  refine wp_mono name ?_ (fun _ _ hno => hno.elim)
  intro disk s1 hs1
  rw [wp_ite]
  refine ⟨fun hdisk => ?_, fun hdisk => ?_⟩
  · -- BOOT_DISK
    have isDisk := hs1.1.mp hdisk
    have set := setBootDisk_spec (s := s1) (t := ⟨r, r.data.length + 2 + rest.length⟩) isDisk
      (by rw [hs1.2.mem]; exact data) room (by omega : lo ≤ _)
    refine wp_mono set ?_ (fun _ _ hno => hno.elim)
    intro _ s' took
    exact ⟨Or.inl isDisk, (Took.of_reads hs1.2).trans took⟩
  · have notDisk : ¬r.name = bootDisk := fun h => hdisk (hs1.1.mpr h)
    rw [wp_bind]
    have name' := strcmpa_spec (s := s1) lo stop (by decide : ∀ d ∈ bootPath, d ≠ 0) r.name_ne
      (by rw [hs1.2.mem]; exact h) hlo (by omega)
    refine wp_mono name' ?_ (fun _ _ hno => hno.elim)
    intro path s2 hs2
    have reads := hs1.2.trans hs2.2
    rw [wp_ite]
    refine ⟨fun hpath => ?_, fun hpath => ?_⟩
    · -- BOOT_PATH, copied to a buffer of its own
      have isPath := hs2.1.mp hpath
      have set := setBootPath_spec (s := s2) (t := ⟨r, r.data.length + 2 + rest.length⟩) hfw isPath
        (by rw [reads.mem]; exact data) (by omega : lo ≤ _) inside below
      refine wp_mono set ?_ ?_
      · intro _ s' took
        exact ⟨Or.inr isPath, (Took.of_reads reads).trans took⟩
      · rintro e s' ⟨n, code, status, state⟩
        exact Or.inr ⟨isPath, s2, n, code, reads, status, state⟩
    · have notPath : ¬r.name = bootPath := fun h => hpath (hs2.1.mpr h)
      exact Or.inl ⟨not_or.mpr ⟨notDisk, notPath⟩, rfl, reads⟩

/-- The loop over a region of memory that is in use does what the scan of its bytes
    says. -/
theorem readRecords_spec (hfw : fw.SoundPool) {fuel : Nat} (enough : bytes.length ≤ fuel)
    (h : HasBytes s.mem ptr bytes) (hstop : ptr + bytes.length = stop) (below : stop < 2 ^ 64)
    (hlo : lo ≤ ptr) (inUse : ∀ x, ptr ≤ x → x < stop → InUse s.trace x) :
    wp (readRecords fw stop ptr fuel)
      (fun _ s' => (scanWith fuel bytes).2 = .done ∧ Took lo stop s s' (scanWith fuel bytes).1)
      (fun e s' => ReadFailed lo stop s s' e (scanWith fuel bytes)) s := by
  induction fuel generalizing s ptr bytes with
  | zero =>
    obtain rfl := List.eq_nil_of_length_eq_zero (Nat.le_zero.mp enough)
    rw [readRecords, wp_faultIf]
    rw [List.length_nil] at hstop
    exact ⟨fun more => by omega, fun _ => ⟨rfl, .of_reads (.refl s)⟩⟩
  | succ fuel ih =>
    rw [readRecords, wp_ite]
    refine ⟨fun more => ?_, fun nomore => ?_⟩
    · have nonempty : bytes.isEmpty = false := by
        cases bytes with
        | nil => rw [List.length_nil] at hstop; omega
        | cons b tail => rfl
      rw [wp_bind]
      refine wp_mono (extractData_spec h hstop below hlo) ?_ ?_
      · rintro x s1 ⟨reads, r, rest, next, whole, rfl⟩
        have length := r.length_encode
        have split := h
        rw [whole] at h hstop
        have region := (h.parts r.encode rest).2
        rw [wp_bind]
        refine wp_mono (parseData_spec hfw (by rw [reads.mem]; exact h) hstop below hlo) ?_ ?_
        · rintro _ s2 ⟨known, took⟩
          have took := (Took.of_reads reads).trans took
          rw [List.nil_append] at took
          rw [List.length_append] at hstop
          -- the next record starts behind this one
          have ptr_eq : stop - rest.length = ptr + r.encode.length := by omega
          have rest_bytes : HasBytes s2.mem (ptr + r.encode.length) rest := by
            rw [hasBytes_iff] at region ⊢
            intro i hi
            rw [← region i hi]
            -- the copy of a path does not touch the file, which is in use
            exact took.frame _ (inUse _ (by omega) (by omega))
          have run := ih (s := s2) (by rw [whole, List.length_append] at enough; omega) rest_bytes
            (by omega) (by omega) (fun x hx hx' => took.inUse (inUse x (by omega) hx'))
          have scanned : scanWith (fuel + 1) bytes =
              ([⟨r, r.data.length + 2 + rest.length⟩] ++ (scanWith fuel rest).1,
                (scanWith fuel rest).2) := by
            rw [scanWith, nonempty, next]
            simp [known]
          rw [ptr_eq, scanned]
          refine wp_mono run ?_ ?_
          · intro _ s' hs'
            exact ⟨hs'.1, took.trans hs'.2⟩
          · intro e s' failed
            exact failed.after took
        · rintro e s2 (⟨unknown, status, reads'⟩ | ⟨isPath, t, n, code, reads', status, state⟩)
          · rw [scanWith, nonempty, next]
            simp only [Bool.false_eq_true, if_false, if_neg unknown]
            exact .rejected (.of_reads (reads.trans reads')) status
          · rw [scanWith, nonempty, next]
            simp only [Bool.false_eq_true, if_false, if_pos (Or.inr isPath : _ ∨ _)]
            have failed : ReadFailed lo stop s s2 e
                ([] ++ ⟨r, r.data.length + 2 + rest.length⟩ :: (scanWith fuel rest).1,
                  (scanWith fuel rest).2) :=
              .refused (.of_reads (reads.trans reads')) isPath status state
            exact failed
      · rintro e s1 (⟨next, status, reads⟩ | ⟨next, status, beyond⟩)
        · rw [scanWith, nonempty, next]
          exact .rejected (.of_reads reads) status
        · rw [scanWith, nonempty, next]
          exact .outside (.of_reads (.refl s)) beyond status
    · obtain rfl : bytes = [] := List.eq_nil_of_length_eq_zero (by omega)
      exact ⟨rfl, .of_reads (.refl s)⟩

end Loop

/-! ## `read_config` -/

/-- The buffer at `cfgBuffer` is in use and holds `file`. -/
structure HoldsFile (s : Machine ConfigVars) (cfgBuffer : UINT64) (file : List Byte) : Prop where
  contents : HasBytes s.mem cfgBuffer.toNat file
  live : ∃ n, file.length ≤ n ∧ (cfgBuffer.toNat, n) ∈ poolBuffers s.trace
  below : cfgBuffer.toNat + file.length ≤ 2 ^ 52

/-- The size of a file, as the loader has it. -/
def fileSize (file : List Byte) : UINTN := BitVec.ofNat 64 file.length

/-- The 24 bytes at the start of a buffer, as a header. -/
def headerAt (m : Mem) (cfgBuffer : UINT64) : MdbcHeader := MdbcHeader.decode m cfgBuffer.toNat

/-- A header has the magic and the version that the loader knows. -/
def MdbcHeader.Known (header : MdbcHeader) : Prop :=
  header.magic = mdbcMagic ∧ header.version = 1

instance (header : MdbcHeader) : Decidable header.Known := inferInstanceAs (Decidable (_ ∧ _))

/-- Where the checksum starts. -/
def crcStart (m : Mem) (cfgBuffer : UINT64) : Nat :=
  (cfgBuffer + (headerAt m cfgBuffer).dataOffset).toNat

/-- How many bytes the checksum covers. -/
def crcLength (m : Mem) (cfgBuffer : UINT64) (cfgSize : UINTN) : Nat :=
  (cfgSize - (headerAt m cfgBuffer).dataOffset).toNat

/-- What `verify_header` returns for the header in a buffer. -/
def headerStatus (m : Mem) (cfgBuffer : UINT64) (cfgSize : UINTN) : Except EfiError Unit :=
  if (headerAt m cfgBuffer).magic ≠ mdbcMagic then .error .unsupported
  else if (headerAt m cfgBuffer).version ≠ 1 then .error .incompatibleVersion
  else if crc32 (slice (wrapped m) (crcStart m cfgBuffer) (crcLength m cfgBuffer cfgSize))
      0xFFFFFFFF ≠ (headerAt m cfgBuffer).crc32 then .error .crcError
  else .ok ()

section Config

variable {fw : Firmware} {s : Machine ConfigVars} {cfgBuffer : UINT64} {cfgSize : UINTN}
  {file : List Byte}

/-- The state in which an accepted header leaves the machine: `s`, and two reads. -/
def headerRead (s : Machine ConfigVars) (cfgBuffer : UINT64) (cfgSize : UINTN) :
    Machine ConfigVars :=
  s.emits [.load (crcStart s.mem cfgBuffer) (crcLength s.mem cfgBuffer cfgSize),
    .load cfgBuffer.toNat 24]

theorem verifyHeader_spec (s : Machine ConfigVars) (cfgBuffer : UINT64) (cfgSize : UINTN) :
    wp (verifyHeader (headerAt s.mem cfgBuffer) cfgBuffer cfgSize)
      (fun _ s' => headerStatus s.mem cfgBuffer cfgSize = .ok () ∧
        s' = s.emits [.load (crcStart s.mem cfgBuffer) (crcLength s.mem cfgBuffer cfgSize)])
      (fun e s' => ∃ code, headerStatus s.mem cfgBuffer cfgSize = .error code ∧ e = .efi code ∧
        (¬(headerAt s.mem cfgBuffer).Known ∧ s' = s ∨ (headerAt s.mem cfgBuffer).Known ∧
          s' = s.emits [.load (crcStart s.mem cfgBuffer) (crcLength s.mem cfgBuffer cfgSize)])) s := by
  simp only [verifyHeader, wp_bind, wp_returnIf, wp_loadBytes]
  refine ⟨fun magic => ⟨_, ?_, rfl, Or.inl ⟨fun known => magic known.1, trivial⟩⟩,
    fun magic => ⟨fun version => ⟨_, ?_, rfl, Or.inl ⟨fun known => version known.2, trivial⟩⟩,
    fun version => ⟨fun crc => ⟨_, ?_, rfl, Or.inr ⟨⟨not_not.mp magic, not_not.mp version⟩, rfl⟩⟩,
      fun crc => ⟨?_, rfl⟩⟩⟩⟩
  · rw [headerStatus, if_pos magic]
  · rw [headerStatus, if_neg magic, if_pos version]
  · rw [headerStatus, if_neg magic, if_neg version]
    exact if_pos crc
  · rw [headerStatus, if_neg magic, if_neg version]
    exact if_neg crc

theorem headerStatus_eq_ok {m : Mem} : headerStatus m cfgBuffer cfgSize = .ok () ↔
    (headerAt m cfgBuffer).Known ∧
      crc32 (slice (wrapped m) (crcStart m cfgBuffer) (crcLength m cfgBuffer cfgSize)) 0xFFFFFFFF =
        (headerAt m cfgBuffer).crc32 := by
  rw [headerStatus, MdbcHeader.Known]
  by_cases magic : (headerAt m cfgBuffer).magic = mdbcMagic
  · by_cases version : (headerAt m cfgBuffer).version = 1#8
    · simp [magic, version]
    · simp [magic, version]
  · simp [magic]

theorem HoldsFile.size_toNat (h : HoldsFile s cfgBuffer file) :
    (fileSize file).toNat = file.length := by
  have := h.below
  rw [fileSize, BitVec.toNat_ofNat, Nat.mod_eq_of_lt (by omega)]

theorem HoldsFile.stop_toNat (h : HoldsFile s cfgBuffer file) :
    (cfgBuffer + fileSize file).toNat = cfgBuffer.toNat + file.length := by
  have := h.below
  rw [BitVec.toNat_add, h.size_toNat, Nat.mod_eq_of_lt (by omega)]

theorem HoldsFile.inUse (h : HoldsFile s cfgBuffer file) {x : Nat} (lo : cfgBuffer.toNat ≤ x)
    (hi : x < cfgBuffer.toNat + file.length) : InUse s.trace x := by
  obtain ⟨n, hn, live⟩ := h.live
  exact Or.inr ⟨_, live, lo, by omega⟩

section Offset

variable {dataOffset : UINT64} (h : HoldsFile s cfgBuffer file) (offset : dataOffset.toNat ≤ file.length)

include h offset

theorem HoldsFile.start_toNat : (cfgBuffer + dataOffset).toNat = cfgBuffer.toNat + dataOffset.toNat := by
  have := h.below
  rw [BitVec.toNat_add, Nat.mod_eq_of_lt (by omega)]

theorem HoldsFile.length_toNat : (fileSize file - dataOffset).toNat = file.length - dataOffset.toNat := by
  rw [BitVec.toNat_sub_of_le, h.size_toNat]
  rw [BitVec.le_def, h.size_toNat]
  exact offset

theorem HoldsFile.region :
    HasBytes s.mem (cfgBuffer.toNat + dataOffset.toNat) (file.drop dataOffset.toNat) := by
  have parts := h.contents
  rw [← List.take_append_drop dataOffset.toNat file] at parts
  have region := (hasBytes_append.mp parts).2
  rwa [List.length_take_of_le offset] at region

/-- From an offset inside the file, the checksum covers the rest of the file. -/
theorem HoldsFile.crcBytes :
    slice (wrapped s.mem) (cfgBuffer + dataOffset).toNat (fileSize file - dataOffset).toNat =
      file.drop dataOffset.toNat := by
  have below := h.below
  have region := h.region offset
  rw [HasBytes, List.length_drop] at region
  rw [h.start_toNat offset, h.length_toNat offset, slice_wrapped (by omega), region]

end Offset

/-- What follows the copy of the header. -/
def readBody (fw : Firmware) (cfgBuffer : UINT64) (cfgSize : UINTN) (header : MdbcHeader) :
    ConfigM Unit := do
  verifyHeader header cfgBuffer cfgSize
  readRecords fw (cfgBuffer + cfgSize).toNat (cfgBuffer + header.dataOffset).toNat
    ((cfgBuffer + cfgSize).toNat - (cfgBuffer + header.dataOffset).toNat)

theorem readConfig_eq_readBody (fw : Firmware) (s : Machine ConfigVars) (cfgBuffer : UINT64)
    (cfgSize : UINTN) : readConfig fw cfgBuffer cfgSize s =
      readBody fw cfgBuffer cfgSize (headerAt s.mem cfgBuffer)
        (s.emits [.load cfgBuffer.toNat 24]) := rfl

/-- A run stopped at the header with this status, in `s'`. -/
structure HeaderRejected (s : Machine ConfigVars) (cfgBuffer : UINT64) (cfgSize : UINTN)
    (e : Stop) (s' : Machine ConfigVars) : Prop where
  status : ∃ code, headerStatus s.mem cfgBuffer cfgSize = .error code ∧ e = .efi code
  state : ¬(headerAt s.mem cfgBuffer).Known ∧ s' = s.emits [.load cfgBuffer.toNat 24] ∨
    (headerAt s.mem cfgBuffer).Known ∧ s' = headerRead s cfgBuffer cfgSize

/-- `read_config` stops at the header, or goes on with the records. -/
theorem wp_readConfig {Q : Unit → Machine ConfigVars → Prop}
    {E : Stop → Machine ConfigVars → Prop}
    (rejected : ∀ e s', HeaderRejected s cfgBuffer cfgSize e s' → E e s')
    (accepted : headerStatus s.mem cfgBuffer cfgSize = .ok () →
      wp (readRecords fw (cfgBuffer + cfgSize).toNat (crcStart s.mem cfgBuffer)
        ((cfgBuffer + cfgSize).toNat - crcStart s.mem cfgBuffer)) Q E
        (headerRead s cfgBuffer cfgSize)) :
    wp (readConfig fw cfgBuffer cfgSize) Q E s := by
  simp only [readConfig, wp_bind, wp_modify, wp_get]
  refine wp_mono (verifyHeader_spec (s.emits [.load cfgBuffer.toNat 24]) cfgBuffer cfgSize) ?_ ?_
  · rintro _ s1 ⟨status, rfl⟩
    exact accepted status
  · rintro e s1 ⟨code, status, he, state⟩
    exact rejected e s1 ⟨⟨code, status, he⟩, state⟩

/-- `read_config` on a file whose data region starts inside it. -/
theorem readConfig_spec (hfw : fw.SoundPool) (h : HoldsFile s cfgBuffer file)
    (offset : (headerAt s.mem cfgBuffer).dataOffset.toNat ≤ file.length) :
    wp (readConfig fw cfgBuffer (fileSize file))
      (fun _ s' => headerStatus s.mem cfgBuffer (fileSize file) = .ok () ∧
        (scan (file.drop (headerAt s.mem cfgBuffer).dataOffset.toNat)).2 = .done ∧
        Took cfgBuffer.toNat (cfgBuffer.toNat + file.length)
          (headerRead s cfgBuffer (fileSize file)) s'
          (scan (file.drop (headerAt s.mem cfgBuffer).dataOffset.toNat)).1)
      (fun e s' => HeaderRejected s cfgBuffer (fileSize file) e s' ∨
        (headerStatus s.mem cfgBuffer (fileSize file) = .ok () ∧
          ReadFailed cfgBuffer.toNat (cfgBuffer.toNat + file.length)
            (headerRead s cfgBuffer (fileSize file)) s' e
            (scan (file.drop (headerAt s.mem cfgBuffer).dataOffset.toNat)))) s := by
  have below := h.below
  refine wp_readConfig (fun _ _ rejected => Or.inl rejected) fun accepted => ?_
  have length : (file.drop (headerAt s.mem cfgBuffer).dataOffset.toNat).length =
      file.length - (headerAt s.mem cfgBuffer).dataOffset.toNat := List.length_drop
  have run := readRecords_spec (s := headerRead s cfgBuffer (fileSize file)) hfw (Nat.le_refl _)
    (h.region offset) (by omega) (by omega : cfgBuffer.toNat + file.length < 2 ^ 64)
    (Nat.le_add_right _ _)
    (fun x lo hi => inUse_walk (by simp [WalkEvent.load]) (h.inUse (by omega) hi))
  rw [h.stop_toNat, crcStart, h.start_toNat offset, Nat.add_sub_add_left, ← length]
  refine wp_mono run ?_ ?_
  · intro _ s' hs'
    exact ⟨accepted, hs'⟩
  · intro e s' failed
    exact Or.inr ⟨accepted, failed⟩

end Config

/-! ## A machine with a file -/

/-- The machine on which a file was just read to `0x1000`. -/
def configMachine (file : List Byte) : Machine ConfigVars where
  mem := blit (fun _ => 0) 0x1000 file
  trace := [.allocatePool (fileSize file) (.ok 0x1000)]
  vars := ⟨⟨⟨0, 0, 0, 0⟩, 0⟩, []⟩

theorem configMachine_holds {file : List Byte} (short : file.length ≤ 2 ^ 51) :
    HoldsFile (configMachine file) 0x1000 file where
  contents := by
    rw [hasBytes_iff]
    intro i hi
    change blit (fun _ => 0) 4096 file (4096 + i) = file[i]
    exact blit_of_inside hi
  live := by
    refine ⟨(fileSize file).toNat, ?_, List.mem_singleton_self _⟩
    rw [fileSize, BitVec.toNat_ofNat, Nat.mod_eq_of_lt (by omega)]
  below := by
    have : (0x1000 : UINT64).toNat = 4096 := rfl
    omega

end MidnightOS.Nyxboot
