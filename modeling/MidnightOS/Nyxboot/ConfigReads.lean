import MidnightOS.Nyxboot.ConfigRoundTrip

/-! # What the configuration depends on

`read_config` never compares a pointer that it reads from with the end of the buffer,
except before the size and the trailer of a record.  `readsFile_iff` says for which
files every read stays inside the file: these are the files that the result of
`read_config` is a function of.

`Local` programs are those whose runs agree on any two machines that agree where they
read; everything that `read_config` calls is local.
-/

namespace MidnightOS.Nyxboot

open MidnightOS.Lib

/-! ## Machines that agree -/

/-- Two machines with one trace that agree between `lo` and `hi`, and on everything
    written since the trace was `base`. -/
structure Alike (lo hi : Nat) (base : List Event) (s t : Machine ConfigVars) : Prop where
  trace : s.trace = t.trace
  vars : s.vars = t.vars
  file : ∀ x, lo ≤ x → x < hi → s.mem x = t.mem x
  written : ∀ evs, s.trace = evs ++ base → ∀ a n, Event.store a n ∈ evs →
    ∀ x, a ≤ x → x < a + n → s.mem x = t.mem x

/-- Two runs that return the same value or the same status, on machines that agree. -/
inductive EndsAlike {α : Type} (R : Machine ConfigVars → Machine ConfigVars → Prop) :
    EStateM.Result Stop (Machine ConfigVars) α → EStateM.Result Stop (Machine ConfigVars) α →
      Prop where
  | ok {s t : Machine ConfigVars} (a : α) (h : R s t) : EndsAlike R (.ok a s) (.ok a t)
  | error {s t : Machine ConfigVars} (e : Stop) (h : R s t) :
      EndsAlike R (.error e s) (.error e t)

/-- A program that only adds to the trace, and whose runs agree on machines that agree,
    if all that was read since `base` lies between `lo` and `hi`. -/
structure Local (lo hi : Nat) {α : Type} (x : ConfigM α) : Prop where
  adds : ∀ s, ∃ evs, (after x s).trace = evs ++ s.trace
  agrees : ∀ base s t, Alike lo hi base s t →
    (∀ evs, (after x s).trace = evs ++ base → StaysInside lo hi evs) →
    (∃ evs, s.trace = evs ++ base) → EndsAlike (Alike lo hi base) (x s) (x t)

section Local

variable {lo hi : Nat} {α β : Type} {base : List Event} {s t : Machine ConfigVars}

theorem Alike.emit (h : Alike lo hi base s t) {ev : Event} (noStore : ∀ a n, ev ≠ .store a n)
    (since : ∃ evs, s.trace = evs ++ base) : Alike lo hi base (s.emits [ev]) (t.emits [ev]) where
  trace := congrArg (ev :: ·) h.trace
  vars := h.vars
  file := h.file
  written := by
    intro evs hevs a n hstore
    obtain ⟨evs₀, hs⟩ := since
    have : evs = ev :: evs₀ := List.append_cancel_right (hevs.symm.trans (congrArg (ev :: ·) hs))
    subst this
    rcases List.mem_cons.mp hstore with heq | hstore
    · exact absurd heq.symm (noStore a n)
    · exact h.written evs₀ hs a n hstore

theorem Local.pure (a : α) : Local lo hi (pure a : ConfigM α) where
  adds := fun _ => ⟨[], rfl⟩
  agrees := fun _ _ _ h _ _ => .ok a h

theorem Local.throw (e : Stop) : Local lo hi (throw e : ConfigM α) where
  adds := fun _ => ⟨[], rfl⟩
  agrees := fun _ _ _ h _ _ => .error e h

theorem Local.bind {x : ConfigM α} {f : α → ConfigM β} (hx : Local lo hi x)
    (hf : ∀ a, Local lo hi (f a)) : Local lo hi (x >>= f) where
  adds := by
    intro s
    obtain ⟨evs, trace⟩ := hx.adds s
    cases hs : x s with
    | ok a s' =>
      rw [after_of_ok hs] at trace
      obtain ⟨evs', trace'⟩ := (hf a).adds s'
      refine ⟨evs' ++ evs, ?_⟩
      rw [after, bind_of_ok hs]
      exact trace'.trans (by rw [trace, List.append_assoc])
    | error e s' =>
      rw [after_of_error hs] at trace
      exact ⟨evs, by rw [after_of_error (bind_of_error hs), trace]⟩
  agrees := by
    intro base s t h inside since
    obtain ⟨evs₀, hsince⟩ := since
    obtain ⟨evs, trace⟩ := hx.adds s
    cases hs : x s with
    | ok a s' =>
      rw [after_of_ok hs] at trace
      have final : after (x >>= f) s = after (f a) s' := by rw [after, bind_of_ok hs]; rfl
      rw [final] at inside
      -- what the first part read is read by the whole
      obtain ⟨evs', trace'⟩ := (hf a).adds s'
      have first : ∀ evs, (after x s).trace = evs ++ base → StaysInside lo hi evs := by
        intro evs₁ hevs₁
        rw [after_of_ok hs] at hevs₁
        have whole := inside (evs' ++ evs₁) (by rw [trace', hevs₁, List.append_assoc])
        exact (staysInside_append.mp whole).2
      have ends := hx.agrees base s t h first ⟨evs₀, hsince⟩
      rw [hs] at ends
      cases ht : x t with
      | ok a' t' =>
        rw [ht] at ends
        cases ends with
        | ok _ h' =>
          rw [bind_of_ok hs, bind_of_ok ht]
          exact (hf a).agrees base s' t' h' inside ⟨evs ++ evs₀, by
            rw [trace, hsince, List.append_assoc]⟩
      | error e t' => rw [ht] at ends; cases ends
    | error e s' =>
      rw [after_of_error (bind_of_error hs)] at inside
      have ends := hx.agrees base s t h (by rw [after_of_error hs]; exact inside) ⟨evs₀, hsince⟩
      rw [hs] at ends
      cases ht : x t with
      | ok a' t' => rw [ht] at ends; cases ends
      | error e' t' =>
        rw [ht] at ends
        cases ends with
        | error _ h' =>
          rw [bind_of_error hs, bind_of_error ht]
          exact .error e h'

theorem Local.ite {c : Prop} [Decidable c] {x y : ConfigM α} (hx : Local lo hi x)
    (hy : Local lo hi y) : Local lo hi (if c then x else y) := by
  by_cases h : c
  · rw [if_pos h]
    exact hx
  · rw [if_neg h]
    exact hy

theorem Local.returnIf (c : Prop) [Decidable c] (e : EfiError) :
    Local lo hi (returnIf c e : ConfigM Unit) :=
  .ite (.throw _) (.pure ())

theorem Local.faultIf (c : Prop) [Decidable c] : Local lo hi (faultIf c : ConfigM Unit) :=
  .ite (.throw _) (.pure ())

/-- To read `n` bytes at `a`, and go on with a value that depends on them only. -/
theorem Local.read {a n : Nat} (value : Mem → α) {f : α → ConfigM β}
    (reads : a + n ≤ hi → ∀ m m' : Mem, (∀ x, a ≤ x → x < a + n → m x = m' x) →
      value m = value m')
    (hf : ∀ m, Local lo hi (f (value m))) :
    Local lo hi (do
      modify (·.emit (.load a n))
      let s ← get
      f (value s.mem)) where
  adds := by
    intro s
    obtain ⟨evs, trace⟩ := (hf s.mem).adds (s.emits [.load a n])
    refine ⟨evs ++ [.load a n], ?_⟩
    change (after (f (value s.mem)) (s.emits [.load a n])).trace = _
    rw [trace, Machine.emits_trace, List.append_assoc]
  agrees := by
    intro base s t h inside since
    obtain ⟨evs₀, hsince⟩ := since
    obtain ⟨evs, trace⟩ := (hf s.mem).adds (s.emits [.load a n])
    -- all reads of the run are inside, so this one is
    have load := inside (evs ++ .load a n :: evs₀) (by
      refine Eq.trans trace ?_
      rw [Machine.emits_trace, hsince]
      simp)
    have here := load a n (by simp)
    have same : value s.mem = value t.mem := by
      apply reads here.2
      intro x hx hx'
      exact h.file x (by omega) (by omega)
    have next := (hf s.mem).agrees base _ _
      (h.emit (by simp : ∀ b k, Event.load a n ≠ .store b k) ⟨evs₀, hsince⟩) inside
      ⟨.load a n :: evs₀, by rw [Machine.emits_trace, hsince]; rfl⟩
    change EndsAlike _ (f (value s.mem) (s.emits [.load a n])) (f (value t.mem) (t.emits [.load a n]))
    rwa [← same]

theorem local_loadBytes (hhi : hi ≤ 2 ^ 64) (a n : Nat) : Local lo hi (loadBytes a n) := by
  refine Local.read (fun m => slice (wrapped m) a n) ?_ fun m => .pure _
  intro inside m m' h
  rw [slice_wrapped (by omega), slice_wrapped (by omega)]
  apply slice_congr
  intro i hi
  exact h _ (by omega) (by omega)

theorem local_loadUINT8 (a : Nat) : Local lo hi (loadUINT8 a) := by
  refine Local.read (fun m => m a) ?_ fun m => .pure _
  intro _ m m' h
  exact h a (Nat.le_refl a) (Nat.lt_succ_self a)

theorem local_loadUINT16 (a : Nat) : Local lo hi (loadUINT16 a) := by
  refine Local.read (fun m => loadLE m 2 a) ?_ fun m => .pure _
  intro _ m m' h
  apply loadLE_congr
  intro i hi
  exact h _ (by omega) (by omega)

theorem lengthFrom_congr {m m' : Mem} {a n : Nat} (h : ∀ x, a ≤ x → x < a + n → m x = m' x) :
    lengthFrom m a n = lengthFrom m' a n := by
  induction n generalizing a with
  | zero => rfl
  | succ n ih =>
    rw [lengthFrom, lengthFrom, h a (Nat.le_refl a) (by omega), ih]
    intro x hx hx'
    exact h x (by omega) (by omega)

/-- A scan that found a terminator looked no further. -/
theorem lengthFrom_some {m : Mem} {a n k : Nat} (h : lengthFrom m a n = some k) :
    k < n ∧ lengthFrom m a (k + 1) = some k := by
  induction n generalizing a k with
  | zero => cases h
  | succ n ih =>
    rw [lengthFrom] at h
    by_cases zero : m a = 0
    · rw [if_pos zero] at h
      cases h
      exact ⟨Nat.succ_pos n, by rw [lengthFrom, if_pos zero]⟩
    · rw [if_neg zero, Option.map_eq_some_iff] at h
      obtain ⟨j, hj, rfl⟩ := h
      obtain ⟨hlt, found⟩ := ih hj
      refine ⟨Nat.succ_lt_succ hlt, ?_⟩
      rw [lengthFrom, if_neg zero, found]
      rfl

theorem lengthFrom_mono {m : Mem} {a n n' k : Nat} (hn : n ≤ n') (h : lengthFrom m a n = some k) :
    lengthFrom m a n' = some k := by
  induction n generalizing a n' k with
  | zero => cases h
  | succ n ih =>
    cases n' with
    | zero => omega
    | succ n' =>
      rw [lengthFrom] at h ⊢
      by_cases zero : m a = 0
      · rwa [if_pos zero] at h ⊢
      · rw [if_neg zero, Option.map_eq_some_iff] at h ⊢
        obtain ⟨j, hj, rfl⟩ := h
        exact ⟨j, ih (by omega) hj, rfl⟩

theorem strlena_found {a len : Nat} (h : lengthFrom s.mem a (2 ^ 64 - a) = some len) :
    strlena a s = .ok len (s.emits [.load a (len + 1)]) := by
  rw [strlena, get_bind, h]
  rfl

theorem strlena_lost {a : Nat} (h : lengthFrom s.mem a (2 ^ 64 - a) = none) :
    strlena a s = .error .fault (s.emits [.load a (2 ^ 64 - a)]) := by
  rw [strlena, get_bind, h]
  rfl

theorem local_strlena (a : Nat) : Local lo hi (strlena a) where
  adds := by
    intro s
    cases found : lengthFrom s.mem a (2 ^ 64 - a) with
    | some len => exact ⟨_, congrArg Machine.trace (after_of_ok (strlena_found found))⟩
    | none => exact ⟨_, congrArg Machine.trace (after_of_error (strlena_lost found))⟩
  agrees := by
    intro base s t h inside since
    obtain ⟨evs₀, hsince⟩ := since
    -- the bytes that the scan read are inside, so the other machine has them too
    have read : ∀ n, (after (strlena a) s).trace = .load a n :: s.trace →
        ∀ x, a ≤ x → x < a + n → s.mem x = t.mem x := by
      intro n hn x hx hx'
      have here := inside (.load a n :: evs₀) (by rw [hn, hsince]; rfl) a n (by simp)
      exact h.file x (by omega) (by omega)
    cases found : lengthFrom s.mem a (2 ^ 64 - a) with
    | some len =>
      obtain ⟨hlt, short⟩ := lengthFrom_some found
      have same := read (len + 1) (congrArg Machine.trace (after_of_ok (strlena_found found)))
      rw [lengthFrom_congr same] at short
      have found' : lengthFrom t.mem a (2 ^ 64 - a) = some len := lengthFrom_mono hlt short
      rw [strlena_found found, strlena_found found']
      exact .ok len (h.emit (by simp) ⟨evs₀, hsince⟩)
    | none =>
      have same := read (2 ^ 64 - a) (congrArg Machine.trace (after_of_error (strlena_lost found)))
      have found' : lengthFrom t.mem a (2 ^ 64 - a) = none := by
        rw [← lengthFrom_congr same, found]
      rw [strlena_lost found, strlena_lost found']
      exact .error .fault (h.emit (by simp) ⟨evs₀, hsince⟩)

theorem local_strcmpa (a : Nat) (s2 : List UINT8) : Local lo hi (strcmpa a s2) := by
  induction s2 generalizing a with
  | nil => exact (local_loadUINT8 a).bind fun c => .pure _
  | cons d s2 ih => exact (local_loadUINT8 a).bind fun c => .ite (.pure _) (ih (a + 1))

theorem local_allocatePool (fw : Firmware) (size : UINTN) : Local lo hi (allocatePool fw size) where
  adds := by
    intro s
    cases granted : fw.allocatePool s.trace size with
    | ok a => exact ⟨[.allocatePool size (.ok a)], by simp [allocatePool, get_bind, after, call, granted]⟩
    | error e =>
      exact ⟨[.allocatePool size (.error e)], by simp [allocatePool, get_bind, after, call, granted]⟩
  agrees := by
    intro base s t h inside since
    rw [allocatePool, get_bind, get_bind, ← h.trace]
    cases fw.allocatePool s.trace size with
    | ok a => exact .ok a (h.emit (by simp) since)
    | error e => exact .error (.efi e) (h.emit (by simp) since)

/-- To set variables, in a way that does not depend on memory. -/
theorem Local.setVars (f : ConfigVars → ConfigVars) :
    Local lo hi (modify fun s => { s with vars := f s.vars } : ConfigM PUnit) where
  adds := fun s => ⟨[], rfl⟩
  agrees := by
    intro base s t h _ _
    refine .ok () ⟨h.trace, ?_, h.file, h.written⟩
    change f s.vars = f t.vars
    rw [h.vars]

/-- To write bytes. -/
theorem Local.write (a n : Nat) {bytes : List Byte} (size : bytes.length = n) :
    Local lo hi (modify fun s =>
      { s.emit (.store a n) with mem := blit s.mem a bytes } : ConfigM PUnit) where
  adds := fun s => ⟨[.store a n], rfl⟩
  agrees := by
    intro base s t h _ since
    -- bytes that agree still do, and the new ones do anyway
    have kept : ∀ x, s.mem x = t.mem x → blit s.mem a bytes x = blit t.mem a bytes x := by
      intro x hx
      simp only [blit, hx]
    have new : ∀ x, a ≤ x → x < a + n → blit s.mem a bytes x = blit t.mem a bytes x := by
      intro x hx hx'
      rw [← size] at hx'
      simp only [blit, if_pos (And.intro hx hx')]
    refine .ok () ⟨congrArg (Event.store a n :: ·) h.trace, h.vars,
      fun x hx hx' => kept x (h.file x hx hx'), ?_⟩
    intro evs hevs b k hstore x hx hx'
    obtain ⟨evs₀, hsince⟩ := since
    have : evs = .store a n :: evs₀ :=
      List.append_cancel_right (hevs.symm.trans (congrArg (Event.store a n :: ·) hsince))
    subst this
    rcases List.mem_cons.mp hstore with heq | hstore
    · cases heq
      exact new x hx hx'
    · exact kept x (h.written evs₀ hsince b k hstore x hx hx')

theorem local_copyMem (hhi : hi ≤ 2 ^ 64) (destination source length : Nat) :
    Local lo hi (copyMem destination source length) := by
  refine Local.read (fun m => slice (wrapped m) source length)
    (f := fun bytes => modify fun s =>
      { s.emit (.store destination length) with mem := blit s.mem destination bytes }) ?_ ?_
  · intro inside m m' h
    rw [slice_wrapped (by omega), slice_wrapped (by omega)]
    apply slice_congr
    intro i hi
    exact h _ (by omega) (by omega)
  · intro m
    exact .write destination length (length_slice _ _ _)

/-! ## The parser is local -/

theorem local_verifyHeader (hhi : hi ≤ 2 ^ 64) (header : MdbcHeader) (cfgBuffer : UINT64)
    (cfgSize : UINTN) : Local lo hi (verifyHeader header cfgBuffer cfgSize) :=
  (Local.returnIf _ _).bind fun _ => (Local.returnIf _ _).bind fun _ =>
    (local_loadBytes hhi _ _).bind fun _ => Local.returnIf _ _

theorem local_extractData (ptr stop : Nat) : Local lo hi (extractData ptr stop) :=
  (local_strlena _).bind fun _ => (Local.returnIf _ _).bind fun _ =>
    (local_loadUINT16 _).bind fun _ => (Local.returnIf _ _).bind fun _ =>
      (local_loadUINT8 _).bind fun _ => (Local.returnIf _ _).bind fun _ =>
        (local_loadUINT8 _).bind fun _ => (Local.returnIf _ _).bind fun _ => .pure _

theorem local_setBootDisk (data : Nat) : Local lo hi (setBootDisk data) := by
  refine Local.read (fun m => EfiGuid.decode m data)
    (f := fun g => modify fun s =>
      { s with vars := { s.vars with cfg := { s.vars.cfg with bootPartUUID := g } } }) ?_ ?_
  · intro _ m m' h
    exact EfiGuid.decode_moved fun i hi => h _ (by omega) (by omega)
  · intro m
    exact .setVars fun v => { v with cfg := { v.cfg with bootPartUUID := EfiGuid.decode m data } }

theorem local_setBootPath (hhi : hi ≤ 2 ^ 64) (fw : Firmware) (data : Nat) (size : UINT16) :
    Local lo hi (setBootPath fw data size) :=
  (local_allocatePool fw _).bind fun buffer =>
    (Local.setVars fun v => { v with cfg := { v.cfg with bootBinPath := buffer } }).bind fun _ =>
      local_copyMem hhi _ _ _

theorem local_parseData (hhi : hi ≤ 2 ^ 64) (fw : Firmware) (name : Nat) (x : Extracted) :
    Local lo hi (parseData fw name x) :=
  (local_strcmpa _ _).bind fun _ => .ite (local_setBootDisk _)
    ((local_strcmpa _ _).bind fun _ => .ite (local_setBootPath hhi fw _ _) (.throw _))

theorem local_readRecords (hhi : hi ≤ 2 ^ 64) (fw : Firmware) (stop ptr fuel : Nat) :
    Local lo hi (readRecords fw stop ptr fuel) := by
  induction fuel generalizing ptr with
  | zero => exact .faultIf _
  | succ fuel ih =>
    exact .ite ((local_extractData _ _).bind fun x => (local_parseData hhi fw _ x).bind fun _ => ih _)
      (.pure ())

theorem local_readBody (hhi : hi ≤ 2 ^ 64) (fw : Firmware) (cfgBuffer : UINT64) (cfgSize : UINTN)
    (header : MdbcHeader) : Local lo hi (readBody fw cfgBuffer cfgSize header) :=
  (local_verifyHeader hhi _ _ _).bind fun _ => local_readRecords hhi fw _ _ _

theorem MdbcHeader.decode_moved {m m' : Mem} {a a' : Nat}
    (h : ∀ i < 24, m (a + i) = m' (a' + i)) : MdbcHeader.decode m a = MdbcHeader.decode m' a' := by
  have field : ∀ off n, off + n ≤ 24 → loadLE m n (a + off) = loadLE m' n (a' + off) := by
    intro off n inside
    apply loadLE_moved
    intro i hi
    rw [Nat.add_assoc, Nat.add_assoc, h _ (by omega)]
  rw [MdbcHeader.decode, MdbcHeader.decode]
  congr 1
  · apply List.map_congr_left
    intro i hi
    exact h i (Nat.lt_trans (List.mem_range.mp hi) (by decide))
  · exact field 4 4 (by omega)
  · exact h 8 (by omega)
  · exact field 16 8 (by omega)

theorem local_readConfig (hhi : hi ≤ 2 ^ 64) (fw : Firmware) (cfgBuffer : UINT64)
    (cfgSize : UINTN) : Local lo hi (readConfig fw cfgBuffer cfgSize) := by
  refine Local.read (fun m => MdbcHeader.decode m cfgBuffer.toNat)
    (f := readBody fw cfgBuffer cfgSize) ?_ fun m => local_readBody hhi fw _ _ _
  intro _ m m' h
  exact MdbcHeader.decode_moved fun i hi => h _ (by omega) (by omega)

end Local

/-! ## Files that the result is a function of -/

/-- The header at the start of a file. -/
def headerOf (file : List Byte) : MdbcHeader := MdbcHeader.decode (fun i => file.getD i 0) 0

/-- A file is all that `read_config` looks at: it has a header, an accepted header has
    its data offset inside the file, and if the checksum is right, the scan of the
    records ends inside the file, where each BOOT_DISK record has 16 bytes from its data
    to the end. -/
structure SelfContained (file : List Byte) : Prop where
  header : 24 ≤ file.length
  offset : (headerOf file).Known → (headerOf file).dataOffset.toNat ≤ file.length
  records : (headerOf file).Known →
    crc32 (file.drop (headerOf file).dataOffset.toNat) 0xFFFFFFFF = (headerOf file).crc32 →
    (scan (file.drop (headerOf file).dataOffset.toNat)).2 ≠ .outside ∧
      DisksFit (scan (file.drop (headerOf file).dataOffset.toNat)).1

/-- The ends of two runs that began with the trace `base`: they left the same
    configuration, and all they wrote, such as the path, is the same. -/
structure SameConfig (base : List Event) (s t : Machine ConfigVars) : Prop where
  cfg : s.vars.cfg = t.vars.cfg
  written : ∀ evs, s.trace = evs ++ base → ∀ a n, Event.store a n ∈ evs →
    slice s.mem a n = slice t.mem a n

/-- The run of `read_config` from `s` reads only the file in the buffer, and with any
    other memory around the file it ends alike. -/
structure DependsOnFile (fw : Firmware) (cfgBuffer : UINT64) (file : List Byte)
    (s : Machine ConfigVars) : Prop where
  inside : ∀ evs, (after (readConfig fw cfgBuffer (fileSize file)) s).trace = evs ++ s.trace →
    StaysInside cfgBuffer.toNat (cfgBuffer.toNat + file.length) evs
  same : ∀ m : Mem, (∀ x, cfgBuffer.toNat ≤ x → x < cfgBuffer.toNat + file.length → s.mem x = m x) →
    EndsAlike (SameConfig s.trace) (readConfig fw cfgBuffer (fileSize file) s)
      (readConfig fw cfgBuffer (fileSize file) { s with mem := m })

section DependsOnFile

variable {fw : Firmware} {s : Machine ConfigVars} {cfgBuffer : UINT64} {file : List Byte}

theorem EndsAlike.mono {α : Type} {R R' : Machine ConfigVars → Machine ConfigVars → Prop}
    {x y : EStateM.Result Stop (Machine ConfigVars) α} (h : EndsAlike R x y)
    (mono : ∀ s t, R s t → R' s t) : EndsAlike R' x y := by
  cases h with
  | ok a h => exact .ok a (mono _ _ h)
  | error e h => exact .error e (mono _ _ h)

theorem Alike.sameConfig {lo hi : Nat} {base : List Event} {t : Machine ConfigVars}
    (h : Alike lo hi base s t) : SameConfig base s t where
  cfg := congrArg ConfigVars.cfg h.vars
  written := by
    intro evs hevs a n hstore
    apply slice_congr
    intro i hi
    exact h.written evs hevs a n hstore _ (by omega) (by omega)

/-- Reads inside the file make the result a function of the file. -/
theorem dependsOnFile_of_inside (below : cfgBuffer.toNat + file.length ≤ 2 ^ 52)
    (inside : ∀ evs, (after (readConfig fw cfgBuffer (fileSize file)) s).trace = evs ++ s.trace →
      StaysInside cfgBuffer.toNat (cfgBuffer.toNat + file.length) evs) :
    DependsOnFile fw cfgBuffer file s where
  inside := inside
  same := by
    intro m agree
    have alike : Alike cfgBuffer.toNat (cfgBuffer.toNat + file.length) s.trace s
        { s with mem := m } := by
      refine ⟨rfl, rfl, agree, fun evs hevs a n hstore => ?_⟩
      obtain rfl : evs = [] := List.append_left_eq_self.mp hevs.symm
      cases hstore
    have ends := (local_readConfig (by omega) fw cfgBuffer (fileSize file)).agrees s.trace s _ alike
      inside ⟨[], rfl⟩
    exact ends.mono fun _ _ h => h.sameConfig

/-- The header that is copied is the header of the file. -/
theorem HoldsFile.headerAt_eq (h : HoldsFile s cfgBuffer file) (long : 24 ≤ file.length) :
    headerAt s.mem cfgBuffer = headerOf file :=
  MdbcHeader.decode_moved fun _ hi => h.contents.getD_eq (by omega)

/-- The header is always copied. -/
theorem header_copied (fw : Firmware) (s : Machine ConfigVars) (cfgBuffer : UINT64)
    (cfgSize : UINTN) : ∃ evs, (after (readConfig fw cfgBuffer cfgSize) s).trace = evs ++ s.trace ∧
      Event.load cfgBuffer.toNat 24 ∈ evs := by
  have body : Local 0 0 (readBody fw cfgBuffer cfgSize (headerAt s.mem cfgBuffer)) :=
    local_readBody (Nat.zero_le _) _ _ _ _
  obtain ⟨evs, trace⟩ := body.adds (s.emits [.load cfgBuffer.toNat 24])
  refine ⟨evs ++ [.load cfgBuffer.toNat 24], ?_, by simp⟩
  rw [List.append_assoc]
  exact trace

/-- The checksum of a known header is always computed. -/
theorem checksum_read (fw : Firmware) (s : Machine ConfigVars) (cfgBuffer : UINT64)
    (cfgSize : UINTN) (known : (headerAt s.mem cfgBuffer).Known) :
    ∃ evs, (after (readConfig fw cfgBuffer cfgSize) s).trace = evs ++ s.trace ∧
      Event.load (crcStart s.mem cfgBuffer) (crcLength s.mem cfgBuffer cfgSize) ∈ evs := by
  have records : ∀ stop ptr fuel, Local 0 0 (readRecords fw stop ptr fuel) := by
    intro stop ptr fuel
    exact local_readRecords (Nat.zero_le _) _ _ _ _
  have spec := verifyHeader_spec (s.emits [.load cfgBuffer.toNat 24]) cfgBuffer cfgSize
  rw [after, readConfig_eq_readBody, readBody]
  cases hrun : verifyHeader (headerAt s.mem cfgBuffer) cfgBuffer cfgSize
      (s.emits [.load cfgBuffer.toNat 24]) with
  | ok _ t =>
    -- the sum was right, and the records come behind it
    obtain ⟨_, rfl⟩ := wp_ok spec hrun
    obtain ⟨evs, trace⟩ := (records (cfgBuffer + cfgSize).toNat
      (cfgBuffer + (headerAt s.mem cfgBuffer).dataOffset).toNat _).adds
      ((s.emits [.load cfgBuffer.toNat 24]).emits
        [.load (crcStart s.mem cfgBuffer) (crcLength s.mem cfgBuffer cfgSize)])
    refine ⟨evs ++ [.load (crcStart s.mem cfgBuffer) (crcLength s.mem cfgBuffer cfgSize),
      .load cfgBuffer.toNat 24], ?_, by simp⟩
    rw [bind_of_ok hrun, List.append_assoc]
    exact trace
  | error e t =>
    rw [bind_of_error hrun]
    obtain ⟨code, status, _, ⟨unknown, _⟩ | ⟨_, rfl⟩⟩ := wp_error spec hrun
    · exact absurd known unknown
    · exact ⟨[.load (crcStart s.mem cfgBuffer) (crcLength s.mem cfgBuffer cfgSize),
        .load cfgBuffer.toNat 24], rfl, by simp⟩

/-- A data offset past the end makes the checksum leave the file. -/
theorem crc_outside (h : HoldsFile s cfgBuffer file)
    (beyond : file.length < (headerAt s.mem cfgBuffer).dataOffset.toNat) :
    ¬(cfgBuffer.toNat ≤ crcStart s.mem cfgBuffer ∧
      crcStart s.mem cfgBuffer + crcLength s.mem cfgBuffer (fileSize file) ≤
        cfgBuffer.toNat + file.length) := by
  have below := h.below
  have := (headerAt s.mem cfgBuffer).dataOffset.isLt
  rw [crcStart, crcLength, BitVec.toNat_add, BitVec.toNat_sub, h.size_toNat]
  omega

/-- Where the header is that of the file and its offset is inside, the checksum is that
    of the rest of the file. -/
theorem headerStatus_file (h : HoldsFile s cfgBuffer file) (long : 24 ≤ file.length)
    (offset : (headerOf file).dataOffset.toNat ≤ file.length) :
    headerStatus s.mem cfgBuffer (fileSize file) = .ok () ↔ (headerOf file).Known ∧
      crc32 (file.drop (headerOf file).dataOffset.toNat) 0xFFFFFFFF = (headerOf file).crc32 := by
  have header := h.headerAt_eq long
  rw [headerStatus_eq_ok, crcStart, crcLength, header, h.crcBytes offset]

/-- The two reads of the header stay inside the file. -/
theorem headerRead_inside (h : HoldsFile s cfgBuffer file) (long : 24 ≤ file.length)
    (offset : (headerAt s.mem cfgBuffer).dataOffset.toNat ≤ file.length) :
    StaysInside cfgBuffer.toNat (cfgBuffer.toNat + file.length)
      [.load (crcStart s.mem cfgBuffer) (crcLength s.mem cfgBuffer (fileSize file)),
        .load cfgBuffer.toNat 24] := by
  rw [staysInside_cons_load, staysInside_cons_load, crcStart, crcLength, h.start_toNat offset,
    h.length_toNat offset]
  exact ⟨⟨by omega, by omega⟩, ⟨by omega, by omega⟩, .nil⟩

/-- All that was read between `s` and `t` lies between `lo` and `hi`. -/
def LoadedInside (lo hi : Nat) (s t : Machine ConfigVars) : Prop :=
  ∃ evs, t.trace = evs ++ s.trace ∧ StaysInside lo hi evs

theorem inside_of_selfContained (hfw : fw.SoundPool) (h : HoldsFile s cfgBuffer file)
    (self : SelfContained file) :
    LoadedInside cfgBuffer.toNat (cfgBuffer.toNat + file.length) s
      (after (readConfig fw cfgBuffer (fileSize file)) s) := by
  have long := self.header
  have header := h.headerAt_eq long
  by_cases known : (headerOf file).Known
  · have offset := self.offset known
    have first := headerRead_inside h long (by rwa [header])
    have run := readConfig_spec hfw h (by rwa [header])
    -- what the header reads, and then the records
    have both : ∀ {t : Machine ConfigVars} {evs : List Event},
        t.trace = evs ++ (headerRead s cfgBuffer (fileSize file)).trace →
        StaysInside cfgBuffer.toNat (cfgBuffer.toNat + file.length) evs →
        LoadedInside cfgBuffer.toNat (cfgBuffer.toNat + file.length) s t := by
      intro t evs trace within
      refine ⟨evs ++ _, ?_, staysInside_append.mpr ⟨within, first⟩⟩
      rw [trace, List.append_assoc]
      rfl
    apply wp_after run
    · rintro _ s' ⟨status, _, took⟩
      obtain ⟨_, sum⟩ := (headerStatus_file h long offset).mp status
      obtain ⟨_, fit⟩ := self.records known sum
      rw [header] at took
      obtain ⟨evs, trace, _, within⟩ := took.events
      exact both trace (within.mpr fit)
    · rintro e s' (rejected | ⟨status, failed⟩)
      · rcases rejected.state with ⟨unknown, _⟩ | ⟨_, rfl⟩
        · exact absurd (header ▸ known) unknown
        · exact both (List.nil_append _).symm .nil
      · obtain ⟨_, sum⟩ := (headerStatus_file h long offset).mp status
        obtain ⟨ends, fit⟩ := self.records known sum
        rw [header] at failed
        generalize scan (file.drop (headerOf file).dataOffset.toNat) = result at failed ends fit
        cases failed with
        | rejected took status =>
          obtain ⟨evs, trace, _, within⟩ := took.events
          exact both trace (within.mpr fit)
        | outside took beyond status => exact absurd rfl ends
        | @refused _ _ _ _ n code _ took isPath status state =>
          obtain ⟨evs, trace, _, within⟩ := took.events
          have fit' := within.mpr fun t ht => fit t (List.mem_append_left _ ht)
          subst state
          have trace' : (Event.allocatePool n (.error code) :: _) =
              (Event.allocatePool n (.error code) :: evs) ++ _ := congrArg (_ :: ·) trace
          refine both trace' ?_
          intro a k hload
          exact fit' a k (by simpa using hload)
  · have run : wp (readConfig fw cfgBuffer (fileSize file)) (fun _ _ => False)
        (fun e s' => HeaderRejected s cfgBuffer (fileSize file) e s') s := by
      refine wp_readConfig (fun _ _ rejected => rejected) fun accepted => ?_
      exact absurd (header ▸ (headerStatus_eq_ok.mp accepted).1) known
    apply wp_after run
    · exact fun _ _ hno => hno.elim
    · intro e s' rejected
      rcases rejected.state with ⟨_, rfl⟩ | ⟨known', _⟩
      · refine ⟨[.load cfgBuffer.toNat 24], rfl, ?_⟩
        rw [staysInside_cons_load]
        exact ⟨⟨by omega, by omega⟩, .nil⟩
      · exact absurd (header ▸ known') known

theorem selfContained_of_inside (hfw : fw.SoundPool) (h : HoldsFile s cfgBuffer file)
    (granted : Granted (readConfig fw cfgBuffer (fileSize file)) s)
    (inside : ∀ evs, (after (readConfig fw cfgBuffer (fileSize file)) s).trace = evs ++ s.trace →
      StaysInside cfgBuffer.toNat (cfgBuffer.toNat + file.length) evs) : SelfContained file := by
  obtain ⟨evs, trace, copied⟩ := header_copied fw s cfgBuffer (fileSize file)
  have long : 24 ≤ file.length := by
    have := inside evs trace _ _ copied
    omega
  have header := h.headerAt_eq long
  -- a checksum from beyond the end would be read there
  have offset : (headerOf file).Known → (headerOf file).dataOffset.toNat ≤ file.length := by
    intro known
    obtain ⟨evs, trace, read⟩ := checksum_read fw s cfgBuffer (fileSize file) (header ▸ known)
    by_contra beyond
    refine crc_outside h ?_ (inside evs trace _ _ read)
    rw [header]
    omega
  refine ⟨long, offset, fun known sum => ?_⟩
  have status := (headerStatus_file h long (offset known)).mpr ⟨known, sum⟩
  have run := readConfig_spec hfw h (by rw [header]; exact offset known)
  rw [header] at run
  cases hrun : readConfig fw cfgBuffer (fileSize file) s with
  | ok _ s' =>
    obtain ⟨_, done, took⟩ := wp_ok run hrun
    obtain ⟨evs, trace, _, within⟩ := took.events
    rw [after_of_ok hrun] at inside
    have whole := inside (evs ++ _) (by rw [trace, List.append_assoc]; rfl)
    exact ⟨by rw [done]; decide, within.mp (staysInside_append.mp whole).1⟩
  | error e s' =>
    rw [after_of_error hrun] at inside
    rw [Granted, after_of_error hrun] at granted
    rcases wp_error run hrun with rejected | ⟨_, failed⟩
    · obtain ⟨code, wrong, _⟩ := rejected.status
      rw [status] at wrong
      cases wrong
    · generalize scan (file.drop (headerOf file).dataOffset.toNat) = result at failed
      cases failed with
      | rejected took _ =>
        obtain ⟨evs, trace, _, within⟩ := took.events
        have whole := inside (evs ++ _) (by rw [trace, List.append_assoc]; rfl)
        exact ⟨fun wrong => (by cases wrong), within.mp (staysInside_append.mp whole).1⟩
      | outside took beyond _ =>
        obtain ⟨evs, trace, _, _⟩ := took.events
        -- this read is one outside the file
        obtain ⟨evs', rfl, _, notInside⟩ := beyond
        have whole := inside (evs' ++ (evs ++ _)) (by
          rw [Machine.emits_trace, trace, List.append_assoc, List.append_assoc]
          rfl)
        exact absurd (staysInside_append.mp whole).1 notInside
      | refused took isPath _ state =>
        -- no copy was refused
        rw [state, Machine.emits_trace, List.singleton_append, refusals, took.refusals_eq,
          refusals_headerRead] at granted
        omega

/-- If the firmware refuses nothing, `read_config` depends only on the file exactly if
    the file is self-contained.  That is enough whatever the firmware answers. -/
theorem readsFile_iff (hfw : fw.SoundPool) (h : HoldsFile s cfgBuffer file) :
    (SelfContained file → DependsOnFile fw cfgBuffer file s) ∧
      (Granted (readConfig fw cfgBuffer (fileSize file)) s →
        (DependsOnFile fw cfgBuffer file s ↔ SelfContained file)) := by
  have enough : SelfContained file → DependsOnFile fw cfgBuffer file s := by
    intro self
    obtain ⟨evs, trace, within⟩ := inside_of_selfContained hfw h self
    apply dependsOnFile_of_inside h.below
    intro evs' trace'
    obtain rfl : evs' = evs := List.append_cancel_right (trace'.symm.trans trace)
    exact within
  exact ⟨enough, fun granted => ⟨fun depends => selfContained_of_inside hfw h granted depends.inside,
    enough⟩⟩

end DependsOnFile

/-- A file that ends inside the magic number. -/
def shortConfig : List Byte := mdbcMagic.take 3

/-- The byte behind the file decides with which error it is refused. -/
theorem short_header_read_beyond :
    (∀ x, 0x1000 ≤ x → x < 0x1003 →
      (configMachine shortConfig).mem x = (configMachine mdbcMagic).mem x) ∧
    stopOf (readConfig (Firmware.bump (2 ^ 52)) 0x1000 3) (configMachine shortConfig) =
      some (.efi .unsupported) ∧
    stopOf (readConfig (Firmware.bump (2 ^ 52)) 0x1000 3)
        { configMachine shortConfig with mem := (configMachine mdbcMagic).mem } =
      some (.efi .incompatibleVersion) := by
  refine ⟨?_, by decide +kernel, by decide +kernel⟩
  intro x hx hx'
  obtain rfl | rfl | rfl : x = 0x1000 ∨ x = 0x1001 ∨ x = 0x1002 := by omega
  all_goals rfl

theorem readsFile_iff_sample :
    DependsOnFile (Firmware.bump (2 ^ 52)) 0x1000 sampleConfig (configMachine sampleConfig) :=
  (readsFile_iff (Firmware.bump_soundPool _ (by decide))
    (configMachine_holds (by decide +kernel))).1
    ⟨by decide +kernel, fun _ => by decide +kernel, fun _ _ => by decide +kernel⟩

end MidnightOS.Nyxboot
