import MidnightOS.Nyxboot.Efi

/-! # The boot partition (`fs.c`)

`find_filesystem_for_guid` asks for the device path of each handle and walks it, node by
node.  The paths lie in memory; the handles are a list, as `LocateHandleBuffer` returns
them in a pool buffer.
-/

namespace MidnightOS.Nyxboot

open MidnightOS.Lib

/-! ## The source -/

def EfiError.notFound : EfiError := efierr 14

/-- The protocols that the search asks for. -/
inductive FsProtocol where
  | devicePath
  | simpleFileSystem
deriving DecidableEq

/-- What `LocateHandleBuffer` returns: a pool buffer and the handles in it. -/
structure HandleBuffer where
  buffer : UINT64
  handles : List UINT64

inductive FsCall where
  | locateHandleBuffer (answer : Except EfiError HandleBuffer)
  | handleProtocol (handle : UINT64) (protocol : FsProtocol) (answer : Except EfiError UINT64)
  | freePool (buffer : UINT64)

/-- How the firmware answers.  `handleProtocol` is given the index of the handle in the
buffer too: a handle may be there twice, and is asked for a protocol once for each index. -/
structure FsServices where
  locateHandleBuffer : Except EfiError HandleBuffer
  handleProtocol : (i : Nat) → (handle : UINT64) → FsProtocol → Except EfiError UINT64

/-- `*handle` and `*filesystem`, and the calls so far, newest first. -/
structure FsVars where
  handle : UINT64
  filesystem : UINT64
  calls : List FsCall

abbrev FsM := Efi FsVars

/-- The words of a GUID that `CompareGuid` looks at. -/
def guidWords (m : Mem) (a i : Nat) : UINT32 := loadLE m 4 (a + 4 * i)

/-- `NullGuid` -/
def nullGuid (_ : Nat) : UINT32 := 0

/-- `RtCompareGuid` -/
def compareGuid (g1 g2 : Nat → UINT32) : UINT32 :=
  (g1 0 - g2 0) ||| (g1 1 - g2 1) ||| (g1 2 - g2 2) ||| (g1 3 - g2 3)

/-- `DevicePathType(node)` -/
def devicePathType (m : Mem) (node : Nat) : UINT8 := m node &&& 0x7F

/-- `DevicePathSubType(node)` -/
def devicePathSubType (m : Mem) (node : Nat) : UINT8 := m (node + 1)

/-- `DevicePathNodeLength(node)` -/
def devicePathNodeLength (m : Mem) (node : Nat) : UINT32 :=
  (m (node + 2)).setWidth 32 ||| (m (node + 3)).setWidth 32 <<< 8

/-- `IsDevicePathEnd(node)` -/
def isDevicePathEnd (m : Mem) (node : Nat) : Bool :=
  devicePathType m node = 0x7F ∧ devicePathSubType m node = 0xFF

/-- `MEDIA_DEVICE_PATH` and `MEDIA_HARDDRIVE_DP` -/
def isHarddriveNode (m : Mem) (node : Nat) : Bool :=
  devicePathType m node = 0x04 ∧ devicePathSubType m node = 0x01

/-- `hdp->SignatureType` -/
def signatureType (m : Mem) (node : Nat) : UINT8 := m (node + 41)

/-- `hdp->Signature` -/
def signature (node : Nat) : Nat := node + 24

/-- The loop of `match_node_guid`, `none` if it does not end. -/
def matchNodeLoop (m : Mem) (guid : Nat) : (fuel : Nat) → (node : Nat) → Option Bool
  | 0, _ => none
  | fuel + 1, node =>
    if isDevicePathEnd m node then
      some false
    else
      let next := node + (devicePathNodeLength m node).toNat
      if isHarddriveNode m node then
        if signatureType m node ≠ 0x02 then
          matchNodeLoop m guid fuel next
        else if compareGuid (guidWords m (signature node)) (guidWords m guid) = 0 then
          some true
        else
          matchNodeLoop m guid fuel next
      else
        matchNodeLoop m guid fuel next

def matchNodeGuid (m : Mem) (dp guid : Nat) : Option Bool := matchNodeLoop m guid (2 ^ 64) dp

def recordFsCall (c : FsCall) : FsM Unit :=
  modify fun s => { s with vars := { s.vars with calls := c :: s.vars.calls } }

/-- `HandleProtocol(handles[i], &protocol, &interface)` -/
def callHandleProtocol (bs : FsServices) (i : Nat) (handle : UINT64) (protocol : FsProtocol) :
    FsM (Except EfiError UINT64) := do
  let answer := bs.handleProtocol i handle protocol
  recordFsCall (.handleProtocol handle protocol answer)
  return answer

/-- A round of the loop of `find_filesystem_for_guid`: did it return? -/
def findRound (bs : FsServices) (guid : Nat) (handles : UINT64) (i : Nat) (handle : UINT64) :
    FsM Bool := do
  match ← callHandleProtocol bs i handle .devicePath with
  | .error _ => return false
  | .ok dp =>
    if dp = 0 then
      return false
    else
      let s ← get
      match matchNodeGuid s.mem dp.toNat guid with
      | none => throw .fault
      | some false => return false
      | some true =>
        match ← callHandleProtocol bs i handle .simpleFileSystem with
        | .error _ => return false
        | .ok sfs =>
          if sfs = 0 then
            return false
          else
            modify fun s => { s with vars := { s.vars with handle, filesystem := sfs } }
            recordFsCall (.freePool handles)
            return true

def findLoop (bs : FsServices) (guid : Nat) (handles : UINT64) : (i : Nat) → List UINT64 → FsM Unit
  | _, [] => do
    recordFsCall (.freePool handles)
    throw (.efi .notFound)
  | i, handle :: rest => do
    let returned ← findRound bs guid handles i handle
    if returned then
      return ()
    else
      findLoop bs guid handles (i + 1) rest

def findFilesystemForGuid (bs : FsServices) (guid handle filesystem : UINT64) : FsM Unit := do
  returnIf (guid = 0) .invalidParameter
  let s ← get
  returnIf (compareGuid (guidWords s.mem guid.toNat) nullGuid = 0) .invalidParameter
  returnIf (handle = 0) .invalidParameter
  returnIf (filesystem = 0) .invalidParameter
  recordFsCall (.locateHandleBuffer bs.locateHandleBuffer)
  match bs.locateHandleBuffer with
  | .error e => throw (.efi e)
  | .ok found => findLoop bs guid.toNat found.buffer 0 found.handles

/-! ## Device paths -/

/-- The nodes of a path, up to its end-entire node. -/
inductive PathNodes (m : Mem) : Nat → List Nat → Prop where
  | finish {node : Nat} (inside : node < 2 ^ 64) (ended : isDevicePathEnd m node = true) :
      PathNodes m node []
  | more {node : Nat} {nodes : List Nat} (inside : node < 2 ^ 64)
      (continues : isDevicePathEnd m node = false) (nonzero : devicePathNodeLength m node ≠ 0)
      (rest : PathNodes m (node + (devicePathNodeLength m node).toNat) nodes) :
      PathNodes m node (node :: nodes)

/-- A hard drive node with a GUID for its signature, the one at `guid`. -/
structure CarriesGuid (m : Mem) (guid node : Nat) : Prop where
  harddrive : isHarddriveNode m node = true
  guidType : signatureType m node = 0x02
  same : slice m (signature node) 16 = slice m guid 16

section Guids

variable {m : Mem}

theorem compareGuid_eq_zero {g1 g2 : Nat → UINT32} :
    compareGuid g1 g2 = 0 ↔ ∀ i < 4, g1 i = g2 i := by
  have word : ∀ x y : UINT32, x - y = 0#32 ↔ x = y := by
    intro x y
    constructor
    · intro zero
      rw [← BitVec.sub_add_cancel x y, zero, BitVec.zero_add]
    · intro same
      rw [same, BitVec.sub_self]
  simp only [compareGuid, BitVec.ofNat_eq_ofNat, BitVec.or_eq_zero_iff, word]
  constructor
  · rintro ⟨⟨⟨first, second⟩, third⟩, fourth⟩ i hi
    match i, hi with
    | 0, _ => exact first
    | 1, _ => exact second
    | 2, _ => exact third
    | 3, _ => exact fourth
  · intro all
    exact ⟨⟨⟨all 0 (by omega), all 1 (by omega)⟩, all 2 (by omega)⟩, all 3 (by omega)⟩

/-- Four equal words are sixteen equal bytes. -/
theorem guidWords_eq_iff {m' : Mem} {a a' : Nat} :
    (∀ i < 4, guidWords m a i = guidWords m' a' i) ↔ slice m a 16 = slice m' a' 16 := by
  constructor
  · intro words
    apply List.map_congr_left
    intro i mem
    have hi : i < 16 := List.mem_range.mp mem
    have byte := bytes_of_loadLE (words (i / 4) (by omega)) (i % 4) (by omega)
    have split : 4 * (i / 4) + i % 4 = i := Nat.div_add_mod i 4
    rwa [Nat.add_assoc, Nat.add_assoc, split] at byte
  · intro bytes i hi
    apply loadLE_moved
    intro j hj
    have byte := List.map_inj_left.mp bytes (4 * i + j) (List.mem_range.mpr (by omega))
    rw [Nat.add_assoc, Nat.add_assoc]
    exact byte

theorem compareGuid_eq_zero_iff {a a' : Nat} :
    compareGuid (guidWords m a) (guidWords m a') = 0 ↔ slice m a 16 = slice m a' 16 := by
  rw [compareGuid_eq_zero, guidWords_eq_iff]

theorem compareGuid_nullGuid_iff {a : Nat} :
    compareGuid (guidWords m a) nullGuid = 0 ↔ slice m a 16 = List.replicate 16 0 := by
  have zero : nullGuid = guidWords (fun _ => 0) 0 := by
    funext i
    have load : loadLE (fun _ => 0) 4 (0 + 4 * i) = 0 := loadLE_zero_of_bytes fun _ _ => rfl
    exact load.symm
  rw [zero, compareGuid_eq_zero, guidWords_eq_iff]
  rfl

end Guids

section Path

variable {m : Mem} {guid node fuel : Nat} {nodes : List Nat}

theorem PathNodes.length_lt (h : PathNodes m node nodes) : node + nodes.length < 2 ^ 64 := by
  induction h with
  | finish inside ended => exact inside
  | more inside continues nonzero rest ih =>
    have positive : 0 < (devicePathNodeLength m _).toNat :=
      Nat.pos_of_ne_zero fun zero => nonzero (BitVec.eq_of_toNat_eq zero)
    rw [List.length_cons]
    omega

/-- The loop leaves a node that does not carry the GUID behind. -/
theorem matchNodeLoop_next (continues : isDevicePathEnd m node = false)
    (other : ¬CarriesGuid m guid node) :
    matchNodeLoop m guid (fuel + 1) node =
      matchNodeLoop m guid fuel (node + (devicePathNodeLength m node).toNat) := by
  rw [matchNodeLoop, if_neg (by simp [continues])]
  by_cases harddrive : isHarddriveNode m node = true
  · by_cases guidType : signatureType m node = 0x02
    · have different : ¬compareGuid (guidWords m (signature node)) (guidWords m guid) = 0 := by
        rw [compareGuid_eq_zero_iff]
        intro same
        exact other ⟨harddrive, guidType, same⟩
      simp only [if_pos harddrive, ne_eq, guidType, not_true_eq_false, if_false, if_neg different]
    · simp only [if_pos harddrive, ne_eq, guidType, not_false_eq_true, if_true]
  · simp only [if_neg harddrive]

theorem matchNodeLoop_here (continues : isDevicePathEnd m node = false)
    (carries : CarriesGuid m guid node) : matchNodeLoop m guid (fuel + 1) node = some true := by
  have same := compareGuid_eq_zero_iff.mpr carries.same
  simp only [matchNodeLoop, continues, carries.harddrive, carries.guidType, same, if_true,
    ne_eq, not_true_eq_false, if_false, Bool.false_eq_true]

theorem matchNodeLoop_path (h : PathNodes m node nodes) (enough : nodes.length < fuel) :
    ∃ found, matchNodeLoop m guid fuel node = some found ∧
      (found = true ↔ ∃ n ∈ nodes, CarriesGuid m guid n) := by
  induction h generalizing fuel with
  | finish inside ended =>
    obtain ⟨fuel, rfl⟩ := Nat.exists_eq_add_one_of_ne_zero (Nat.ne_of_gt enough)
    exact ⟨false, by rw [matchNodeLoop, if_pos ended], by simp⟩
  | @more node nodes inside continues nonzero rest ih =>
    obtain ⟨fuel, rfl⟩ := Nat.exists_eq_add_one_of_ne_zero (Nat.ne_of_gt (Nat.zero_lt_of_lt enough))
    by_cases carries : CarriesGuid m guid node
    · exact ⟨true, matchNodeLoop_here continues carries, by simp [carries]⟩
    · rw [matchNodeLoop_next continues carries]
      have shorter : nodes.length < fuel := Nat.lt_of_succ_lt_succ enough
      obtain ⟨found, loop, iff⟩ := ih shorter
      exact ⟨found, loop, by simp [iff, carries]⟩

theorem matchNodeGuid_path (guid : Nat) (h : PathNodes m node nodes) :
    ∃ found, matchNodeGuid m node guid = some found ∧
      (found = true ↔ ∃ n ∈ nodes, CarriesGuid m guid n) :=
  matchNodeLoop_path h (by have := h.length_lt; omega)

end Path

/-! ## The search -/

/-- The handle at index `i` has the GUID in its device path, and `fs` is its file system. -/
def IsMatch (bs : FsServices) (m : Mem) (guid i : Nat) (handle fs : UINT64) : Prop :=
  ∃ dp nodes, bs.handleProtocol i handle .devicePath = .ok dp ∧ dp ≠ 0 ∧
    PathNodes m dp.toNat nodes ∧ (∃ node ∈ nodes, CarriesGuid m guid node) ∧
    bs.handleProtocol i handle .simpleFileSystem = .ok fs ∧ fs ≠ 0

/-- None of the first `k` of `hs`, which are at the indices from `i` on, is a match. -/
def NoMatch (bs : FsServices) (m : Mem) (guid i : Nat) (hs : List UINT64) (k : Nat) : Prop :=
  ∀ j < k, ∀ handle, hs[j]? = some handle → ∀ fs, ¬IsMatch bs m guid (i + j) handle fs

/-- The device path that the handle at index `i` has, if it has one, comes to an end. -/
def WellFormedPath (bs : FsServices) (m : Mem) (i : Nat) (handle : UINT64) : Prop :=
  ∀ dp, bs.handleProtocol i handle .devicePath = .ok dp → dp ≠ 0 →
    ∃ nodes, PathNodes m dp.toNat nodes

/-- The buffers that were freed, newest first. -/
def freedBuffers : List FsCall → List UINT64
  | [] => []
  | .freePool buffer :: calls => buffer :: freedBuffers calls
  | _ :: calls => freedBuffers calls

/-- Nothing was found and nothing given back so far. -/
structure Unchanged (s s' : Machine FsVars) : Prop where
  mem : s'.mem = s.mem
  handle : s'.vars.handle = s.vars.handle
  filesystem : s'.vars.filesystem = s.vars.filesystem
  freed : freedBuffers s'.vars.calls = freedBuffers s.vars.calls

/-- `handle` and `fs` are returned, and the buffer of the handles is given back. -/
structure Returned (handles handle fs : UINT64) (s s' : Machine FsVars) : Prop where
  mem : s'.mem = s.mem
  handle : s'.vars.handle = handle
  filesystem : s'.vars.filesystem = fs
  freed : freedBuffers s'.vars.calls = handles :: freedBuffers s.vars.calls

section Search

variable {bs : FsServices} {guid i : Nat} {handles handle : UINT64} {s : Machine FsVars}
  {E : Stop → Machine FsVars → Prop}

theorem wp_recordFsCall {c : FsCall} {Q : PUnit → Machine FsVars → Prop} :
    wp (recordFsCall c) Q E s ↔
      Q () { s with vars := { s.vars with calls := c :: s.vars.calls } } := Iff.rfl

theorem wp_callHandleProtocol {protocol : FsProtocol}
    {Q : Except EfiError UINT64 → Machine FsVars → Prop} :
    wp (callHandleProtocol bs i handle protocol) Q E s ↔
      Q (bs.handleProtocol i handle protocol) { s with vars := { s.vars with
        calls := .handleProtocol handle protocol (bs.handleProtocol i handle protocol) ::
          s.vars.calls } } := Iff.rfl

/-- What a round leaves: it returned a match, or there is none at its index. -/
def RoundEnds (bs : FsServices) (guid : Nat) (handles : UINT64) (i : Nat) (handle : UINT64)
    (s : Machine FsVars) (returned : Bool) (s' : Machine FsVars) : Prop :=
  if returned then
    ∃ fs, IsMatch bs s.mem guid i handle fs ∧ Returned handles handle fs s s'
  else
    (∀ fs, ¬IsMatch bs s.mem guid i handle fs) ∧ Unchanged s s'

theorem not_isMatch_of_path {e : EfiError}
    (path : bs.handleProtocol i handle .devicePath = .error e) (m : Mem) (fs : UINT64) :
    ¬IsMatch bs m guid i handle fs := by
  rintro ⟨dp, nodes, answer, -⟩
  rw [path] at answer
  cases answer

theorem not_isMatch_of_null (path : bs.handleProtocol i handle .devicePath = .ok 0) (m : Mem)
    (fs : UINT64) : ¬IsMatch bs m guid i handle fs := by
  rintro ⟨dp, nodes, answer, nonnull, -⟩
  rw [path] at answer
  cases answer
  exact nonnull rfl

/-- A walk that ends without a match has seen all nodes of the path. -/
theorem not_isMatch_of_walked {m : Mem} {dp : UINT64}
    (path : bs.handleProtocol i handle .devicePath = .ok dp)
    (walked : matchNodeGuid m dp.toNat guid = some false) (fs : UINT64) :
    ¬IsMatch bs m guid i handle fs := by
  rintro ⟨dp', nodes, answer, -, walk, carries, -⟩
  rw [path] at answer
  cases answer
  obtain ⟨found, walked', iff⟩ := matchNodeGuid_path guid walk
  rw [walked] at walked'
  cases walked'
  cases iff.mpr carries

theorem not_isMatch_of_filesystem {m : Mem} {answer : Except EfiError UINT64}
    (obtained : bs.handleProtocol i handle .simpleFileSystem = answer)
    (none : ∀ fs, answer = .ok fs → fs = 0) (fs : UINT64) : ¬IsMatch bs m guid i handle fs := by
  rintro ⟨dp, nodes, -, -, -, -, ok, nonnull⟩
  exact nonnull (none fs (obtained.symm.trans ok))

theorem findRound_spec (wellFormed : WellFormedPath bs s.mem i handle) :
    wp (findRound bs guid handles i handle) (RoundEnds bs guid handles i handle s) E s := by
  simp only [findRound, wp_bind, wp_callHandleProtocol]
  cases path : bs.handleProtocol i handle .devicePath with
  | error e => exact ⟨not_isMatch_of_path path s.mem, rfl, rfl, rfl, rfl⟩
  | ok dp =>
    by_cases null : dp = 0
    · simp only [if_pos null]
      rw [null] at path
      exact ⟨not_isMatch_of_null path s.mem, rfl, rfl, rfl, rfl⟩
    · obtain ⟨nodes, walk⟩ := wellFormed dp path null
      obtain ⟨found, walked, iff⟩ := matchNodeGuid_path guid walk
      simp only [if_neg null, wp_bind, wp_get, walked]
      cases found with
      | false => exact ⟨not_isMatch_of_walked path walked, rfl, rfl, rfl, rfl⟩
      | true =>
        simp only [wp_bind, wp_callHandleProtocol]
        cases obtained : bs.handleProtocol i handle .simpleFileSystem with
        | error e =>
          refine ⟨not_isMatch_of_filesystem obtained ?_, rfl, rfl, rfl, rfl⟩
          intro fs wrong
          cases wrong
        | ok sfs =>
          -- the path carries the GUID, but without a file system it is no match
          by_cases nofs : sfs = 0
          · simp only [if_pos nofs]
            refine ⟨not_isMatch_of_filesystem obtained ?_, rfl, rfl, rfl, rfl⟩
            intro fs same
            cases same
            exact nofs
          · simp only [if_neg nofs]
            exact ⟨sfs, ⟨dp, nodes, path, null, walk, iff.mp rfl, obtained, nofs⟩,
              rfl, rfl, rfl, rfl⟩

theorem NoMatch.cons {m : Mem} {rest : List UINT64} {k : Nat}
    (here : ∀ fs, ¬IsMatch bs m guid i handle fs) (later : NoMatch bs m guid (i + 1) rest k) :
    NoMatch bs m guid i (handle :: rest) (k + 1) := by
  intro j below h at' fs
  cases j with
  | zero =>
    rw [List.getElem?_cons_zero, Option.some.injEq] at at'
    rw [← at']
    exact here fs
  | succ j =>
    rw [← Nat.succ_add_eq_add_succ]
    exact later j (Nat.lt_of_succ_lt_succ below) h at' fs

theorem Returned.after {handle fs : UINT64} {t s' : Machine FsVars}
    (back : Returned handles handle fs t s') (same : Unchanged s t) :
    Returned handles handle fs s s' where
  mem := back.mem.trans same.mem
  handle := back.handle
  filesystem := back.filesystem
  freed := by rw [back.freed, same.freed]

/-- The loop stops at the first match, from index `i` on. -/
theorem findLoop_spec {rest : List UINT64}
    (wellFormed : ∀ k h, rest[k]? = some h → WellFormedPath bs s.mem (i + k) h) :
    wp (findLoop bs guid handles i rest)
      (fun _ s' => ∃ k h fs, rest[k]? = some h ∧ IsMatch bs s.mem guid (i + k) h fs ∧
        NoMatch bs s.mem guid i rest k ∧ Returned handles h fs s s')
      (fun stop s' => stop = .efi .notFound ∧ NoMatch bs s.mem guid i rest rest.length ∧
        Returned handles s.vars.handle s.vars.filesystem s s') s := by
  induction rest generalizing i s with
  | nil =>
    simp only [findLoop, wp_bind, wp_recordFsCall, wp_throw]
    refine ⟨trivial, ?_, rfl, rfl, rfl, rfl⟩
    intro j below
    exact absurd below (Nat.not_lt_zero j)
  | cons handle rest ih =>
    simp only [findLoop, wp_bind]
    refine wp_mono (findRound_spec (wellFormed 0 handle rfl)) ?_ (fun _ _ h => h)
    intro returned t ends
    cases returned with
    | true =>
      obtain ⟨fs, isMatch, back⟩ := ends
      refine ⟨0, handle, fs, rfl, isMatch, ?_, back⟩
      intro j below
      exact absurd below (Nat.not_lt_zero j)
    | false =>
      -- no match here, and nothing changed: the rest is searched from the next index
      obtain ⟨here, same⟩ := ends
      have shift : ∀ k, i + 1 + k = i + (k + 1) := fun k => by omega
      have later : ∀ k h, rest[k]? = some h → WellFormedPath bs t.mem (i + 1 + k) h := by
        intro k h at'
        rw [same.mem, shift]
        exact wellFormed (k + 1) h at'
      simp only [Bool.false_eq_true, if_false]
      refine wp_mono (ih later) ?_ ?_
      · rintro _ s' ⟨k, h, fs, at', isMatch, before, back⟩
        rw [same.mem] at isMatch before
        rw [shift] at isMatch
        exact ⟨k + 1, h, fs, at', isMatch, before.cons here, back.after same⟩
      · rintro stop s' ⟨notFound, before, back⟩
        rw [same.mem] at before
        rw [same.handle, same.filesystem] at back
        exact ⟨notFound, before.cons here, back.after same⟩

/-- What the caller passes, and what the firmware is taken to answer: pointers that are not
null, a GUID that is not the null GUID, and device paths that come to an end. -/
structure SearchArgs (bs : FsServices) (found : HandleBuffer) (guid handle filesystem : UINT64)
    (m : Mem) : Prop where
  guid_ne : guid ≠ 0
  guid_nonnull : slice m guid.toNat 16 ≠ List.replicate 16 0
  handle_ne : handle ≠ 0
  filesystem_ne : filesystem ≠ 0
  located : bs.locateHandleBuffer = .ok found
  wellFormed : ∀ i h, found.handles[i]? = some h → WellFormedPath bs m i h

theorem findFilesystemForGuid_spec {found : HandleBuffer} {guid handle filesystem : UINT64}
    (args : SearchArgs bs found guid handle filesystem s.mem) :
    wp (findFilesystemForGuid bs guid handle filesystem)
      (fun _ s' => ∃ i h fs, found.handles[i]? = some h ∧
        IsMatch bs s.mem guid.toNat i h fs ∧ NoMatch bs s.mem guid.toNat 0 found.handles i ∧
        Returned found.buffer h fs s s')
      (fun stop s' => stop = .efi .notFound ∧
        NoMatch bs s.mem guid.toNat 0 found.handles found.handles.length ∧
        Returned found.buffer s.vars.handle s.vars.filesystem s s') s := by
  have nonnull : ¬compareGuid (guidWords s.mem guid.toNat) nullGuid = 0 := by
    rw [compareGuid_nullGuid_iff]
    exact args.guid_nonnull
  simp only [findFilesystemForGuid, wp_bind, wp_returnIf, wp_get, wp_recordFsCall]
  refine ⟨fun null => absurd null args.guid_ne, fun _ => ⟨fun null => absurd null nonnull, fun _ =>
    ⟨fun null => absurd null args.handle_ne, fun _ =>
      ⟨fun null => absurd null args.filesystem_ne, fun _ => ?_⟩⟩⟩⟩
  -- the tests of the arguments pass, and the handles are there
  rw [args.located]
  have later : ∀ k h, found.handles[k]? = some h → WellFormedPath bs s.mem (0 + k) h := by
    intro k h at'
    rw [Nat.zero_add]
    exact args.wellFormed k h at'
  have same : Unchanged s { s with vars := { s.vars with
      calls := .locateHandleBuffer (.ok found) :: s.vars.calls } } := ⟨rfl, rfl, rfl, rfl⟩
  refine wp_mono (findLoop_spec later) ?_ ?_
  · rintro _ s' ⟨k, h, fs, at', isMatch, before, back⟩
    rw [Nat.zero_add] at isMatch
    exact ⟨k, h, fs, at', isMatch, before, back.after same⟩
  · rintro stop s' ⟨notFound, before, back⟩
    exact ⟨notFound, before, back.after same⟩

theorem NoMatch.not_exists {m : Mem} {hs : List UINT64} (none : NoMatch bs m guid 0 hs hs.length) :
    ¬∃ i h fs, hs[i]? = some h ∧ IsMatch bs m guid i h fs := by
  rintro ⟨i, h, fs, at', isMatch⟩
  have below : i < hs.length := (List.getElem?_eq_some_iff.mp at').1
  have other := none i below h at' fs
  rw [Nat.zero_add] at other
  exact other isMatch

/-- The search returns the first match, or says that there is none, and gives the buffer of the
handles back once. -/
theorem findFilesystemForGuid_first {found : HandleBuffer} {guid handle filesystem : UINT64}
    (args : SearchArgs bs found guid handle filesystem s.mem) :
    ((∃ s', findFilesystemForGuid bs guid handle filesystem s = .ok () s') ↔
        ∃ i h fs, found.handles[i]? = some h ∧ IsMatch bs s.mem guid.toNat i h fs) ∧
      (∀ s', findFilesystemForGuid bs guid handle filesystem s = .ok () s' →
        ∃ i h fs, found.handles[i]? = some h ∧ IsMatch bs s.mem guid.toNat i h fs ∧
          NoMatch bs s.mem guid.toNat 0 found.handles i ∧ Returned found.buffer h fs s s') ∧
      ((∃ s', findFilesystemForGuid bs guid handle filesystem s = .error (.efi .notFound) s') ↔
        ¬∃ i h fs, found.handles[i]? = some h ∧ IsMatch bs s.mem guid.toNat i h fs) ∧
      (∀ stop s', findFilesystemForGuid bs guid handle filesystem s = .error stop s' →
        stop = .efi .notFound ∧
          Returned found.buffer s.vars.handle s.vars.filesystem s s') := by
  have spec := findFilesystemForGuid_spec args
  cases run : findFilesystemForGuid bs guid handle filesystem s with
  | ok _ s' =>
    obtain ⟨i, h, fs, at', isMatch, before, back⟩ := wp_ok spec run
    have exists_match : ∃ i h fs, found.handles[i]? = some h ∧
        IsMatch bs s.mem guid.toNat i h fs := ⟨i, h, fs, at', isMatch⟩
    refine ⟨iff_of_true ⟨s', rfl⟩ exists_match, ?_, iff_of_false ?_ (not_not_intro exists_match), ?_⟩
    · intro t same
      cases same
      exact ⟨i, h, fs, at', isMatch, before, back⟩
    · rintro ⟨t, wrong⟩
      cases wrong
    · intro stop t wrong
      cases wrong
  | error stop s' =>
    obtain ⟨notFound, none, back⟩ := wp_error spec run
    refine ⟨iff_of_false ?_ none.not_exists, ?_,
      iff_of_true ⟨s', by rw [notFound]⟩ none.not_exists, ?_⟩
    · rintro ⟨t, wrong⟩
      cases wrong
    · intro t wrong
      cases wrong
    · intro stop' t same
      cases same
      exact ⟨notFound, back⟩

end Search

/-! ## Two disks -/

/-- At 0x100 a hard drive node with the signature type of an MBR disk, at 0x200 one with that of
a GUID disk, both with a signature of ones; the GUID at 0x300 is all ones. -/
def twoDisksMemory : Mem := fun a =>
  if a = 0x100 ∨ a = 0x200 then 0x04
  else if a = 0x101 ∨ a = 0x201 then 0x01
  else if a = 0x102 ∨ a = 0x202 then 42
  else if 0x118 ≤ a ∧ a < 0x128 ∨ 0x218 ≤ a ∧ a < 0x228 ∨ 0x300 ≤ a ∧ a < 0x310 then 0xFF
  else if a = 0x129 then 0x01
  else if a = 0x229 then 0x02
  else if a = 0x12A ∨ a = 0x22A then 0x7F
  else if a = 0x12B ∨ a = 0x22B then 0xFF
  else 0

def twoDisks : FsServices where
  locateHandleBuffer := .ok ⟨0x8000, [1, 2]⟩
  handleProtocol
    | _, handle, .devicePath => .ok (handle * 0x100)
    | _, handle, .simpleFileSystem => .ok (handle + 0x5000)

theorem pathNodes_twoDisks {a : Nat} (disk : a = 0x100 ∨ a = 0x200) :
    PathNodes twoDisksMemory a [a] := by
  cases disk with
  | inl mbr =>
    rw [mbr]
    exact .more (by decide) (by decide) (by decide) (.finish (by decide) (by decide))
  | inr gpt =>
    rw [gpt]
    exact .more (by decide) (by decide) (by decide) (.finish (by decide) (by decide))

def twoDisksMachine : Machine FsVars := ⟨twoDisksMemory, [], ⟨0, 0, []⟩⟩

theorem searchArgs_twoDisks :
    SearchArgs twoDisks ⟨0x8000, [1, 2]⟩ 0x300 0x10 0x18 twoDisksMachine.mem where
  guid_ne := by decide
  guid_nonnull := by decide
  handle_ne := by decide
  filesystem_ne := by decide
  located := rfl
  wellFormed i h at' dp answer _ := by
    have path : h * 0x100 = dp := Except.ok.inj answer
    have mem : h ∈ ([1, 2] : List UINT64) := List.mem_of_getElem? at'
    rw [← path]
    simp only [List.mem_cons, List.not_mem_nil, or_false] at mem
    cases mem with
    | inl first =>
      rw [first]
      exact ⟨[0x100], pathNodes_twoDisks (.inl rfl)⟩
    | inr second =>
      rw [second]
      exact ⟨[0x200], pathNodes_twoDisks (.inr rfl)⟩

theorem findFilesystemForGuid_first_two_disks :
    SearchArgs twoDisks ⟨0x8000, [1, 2]⟩ 0x300 0x10 0x18 twoDisksMachine.mem ∧
      ∃ s' i h fs, findFilesystemForGuid twoDisks 0x300 0x10 0x18 twoDisksMachine = .ok () s' ∧
        s'.vars.handle = 2 ∧ [1, 2][i]? = some h ∧
        IsMatch twoDisks twoDisksMachine.mem 0x300 i h fs ∧
        Returned 0x8000 h fs twoDisksMachine s' := by
  have run := eq_ok_of_succeeds (x := findFilesystemForGuid twoDisks 0x300 0x10 0x18)
    (s := twoDisksMachine) (by decide +kernel)
  obtain ⟨-, first, -⟩ := findFilesystemForGuid_first searchArgs_twoDisks
  obtain ⟨i, h, fs, at', isMatch, -, back⟩ := first _ run
  exact ⟨searchArgs_twoDisks, _, i, h, fs, run, by decide +kernel, at', isMatch, back⟩

end MidnightOS.Nyxboot
