import Mathlib.Data.List.TakeWhile
import MidnightOS.Nyxboot.Config

/-! # The format of the configuration file

The data region of a configuration file is a concatenation of records.  `nextRecord`
takes the first one off some bytes, `scan` all of them, up to the first that is not a
BOOT_DISK or BOOT_PATH record.  Nothing here is about memory: the functions say what
the bytes of a file mean, and `Config` what the loader makes of them.
-/

namespace MidnightOS.Nyxboot

open MidnightOS.Lib

/-! ## Records -/

/-- A record: a name, which has no zero byte, and at most 65535 bytes of data. -/
structure ConfigRecord where
  name : List Byte
  data : List Byte
  name_ne : ∀ b ∈ name, b ≠ 0
  size_lt : data.length < 2 ^ 16

/-- What a record takes in a file. -/
def ConfigRecord.encode (r : ConfigRecord) : List Byte :=
  r.name ++ 0x00 :: (leBytes 2 (BitVec.ofNat 16 r.data.length) ++ (r.data ++ [0x00, 0x0A]))

/-- How some bytes start: with a name that has no end among them, with something that
    is not a record, or with a record. -/
inductive NextRecord where
  | outside
  | broken
  | record (r : ConfigRecord) (rest : List Byte)

theorem length_take_size_lt (bytes : List Byte) (size : BitVec 16) :
    (bytes.take size.toNat).length < 2 ^ 16 := by
  rw [List.length_take]
  have := size.isLt
  omega

/-- The rest of a record, after its name and the terminator. -/
def recordBody (name : List Byte) (name_ne : ∀ b ∈ name, b ≠ 0) : List Byte → NextRecord
  | lo :: hi :: body =>
      let size : BitVec 16 := hi ++ lo
      match body.drop size.toNat with
      | first :: second :: rest =>
          if first = 0x00 ∧ second = 0x0A then
            .record ⟨name, body.take size.toNat, name_ne, length_take_size_lt body size⟩ rest
          else .broken
      | _ => .broken
  | _ => .broken

theorem takeWhile_ne (bytes : List Byte) : ∀ b ∈ bytes.takeWhile (· ≠ 0), b ≠ 0 := by
  intro b hb
  simpa using List.mem_takeWhile_imp hb

def nextRecord (bytes : List Byte) : NextRecord :=
  match bytes.dropWhile (· ≠ 0) with
  | [] => .outside
  | _ :: tail => recordBody (bytes.takeWhile (· ≠ 0)) (takeWhile_ne bytes) tail

/-! ## How bytes start -/

section Starts

variable {bytes rest : List Byte} {r : ConfigRecord}

theorem append_high_low (size : BitVec 16) :
    ∃ hi lo : Byte, size = hi ++ lo ∧ leBytes 2 size = [lo, hi] := by
  refine ⟨size.extractLsb' 8 8, size.extractLsb' 0 8, ?_, rfl⟩
  apply BitVec.eq_of_getLsbD_eq
  intro i h
  rw [BitVec.getLsbD_append, BitVec.getLsbD_extractLsb', BitVec.getLsbD_extractLsb']
  by_cases low : i < 8
  · simp [low]
  · simp [low, (by omega : i - 8 < 8), Nat.add_sub_cancel' (by omega : 8 ≤ i)]

theorem leBytes_two (hi lo : Byte) : leBytes 2 (hi ++ lo : BitVec 16) = [lo, hi] := by
  have low : (hi ++ lo : BitVec 16).extractLsb' 0 8 = lo := by
    apply BitVec.eq_of_getLsbD_eq
    intro i h
    rw [BitVec.getLsbD_extractLsb', Nat.zero_add, BitVec.getLsbD_append]
    simp [h]
  have high : (hi ++ lo : BitVec 16).extractLsb' 8 8 = hi := by
    apply BitVec.eq_of_getLsbD_eq
    intro i h
    rw [BitVec.getLsbD_extractLsb', BitVec.getLsbD_append]
    simp [h]
  change [(hi ++ lo : BitVec 16).extractLsb' 0 8, (hi ++ lo : BitVec 16).extractLsb' 8 8] = [lo, hi]
  rw [low, high]

/-- The ways bytes can start, with the pieces they are made of. -/
inductive Starts : List Byte → NextRecord → Prop where
  | outside {bytes : List Byte} (unterminated : ∀ b ∈ bytes, b ≠ 0) : Starts bytes .outside
  | noSize {name tail : List Byte} (name_ne : ∀ b ∈ name, b ≠ 0) (short : tail.length < 2) :
      Starts (name ++ 0 :: tail) .broken
  | noData {name body : List Byte} {size : BitVec 16} (name_ne : ∀ b ∈ name, b ≠ 0)
      (short : body.length < size.toNat + 2) :
      Starts (name ++ 0 :: (leBytes 2 size ++ body)) .broken
  | noTrailer {name data rest : List Byte} {first second : Byte} (name_ne : ∀ b ∈ name, b ≠ 0)
      (size_lt : data.length < 2 ^ 16) (wrong : ¬(first = 0x00 ∧ second = 0x0A)) :
      Starts (name ++ 0 :: (leBytes 2 (BitVec.ofNat 16 data.length) ++
        (data ++ first :: second :: rest))) .broken
  | record {r : ConfigRecord} {rest : List Byte} : Starts (r.encode ++ rest) (.record r rest)

theorem starts_recordBody {name : List Byte} (name_ne : ∀ b ∈ name, b ≠ 0) (tail : List Byte) :
    Starts (name ++ 0 :: tail) (recordBody name name_ne tail) := by
  match tail with
  | [] => exact .noSize name_ne (by simp)
  | [lo] => exact .noSize name_ne (by simp)
  | lo :: hi :: body =>
    have sized : lo :: hi :: body = leBytes 2 (hi ++ lo : BitVec 16) ++ body := by
      rw [leBytes_two]
      rfl
    have taken := List.take_append_drop (hi ++ lo : BitVec 16).toNat body
    rw [recordBody]
    generalize (hi ++ lo : BitVec 16) = size at sized taken ⊢
    rw [sized]
    match hbody : body.drop size.toNat with
    | [] =>
      have := List.drop_eq_nil_iff.mp hbody
      exact .noData name_ne (by omega)
    | [first] =>
      have lengths := congrArg List.length hbody
      rw [List.length_drop, List.length_singleton] at lengths
      exact .noData name_ne (by omega)
    | first :: second :: rest =>
      have lengths := congrArg List.length hbody
      rw [List.length_drop, List.length_cons, List.length_cons] at lengths
      have size_lt := length_take_size_lt body size
      -- all of the data is there, so `size` is its length
      have size_eq : size = BitVec.ofNat 16 (body.take size.toNat).length := by
        rw [List.length_take_of_le (by omega), BitVec.ofNat_toNat, BitVec.setWidth_eq]
      rw [hbody] at taken
      dsimp only
      -- only the trailer tells a record from a broken one
      by_cases trailer : first = 0x00 ∧ second = 0x0A
      · rw [if_pos trailer]
        rw [trailer.1, trailer.2] at taken
        have record : Starts (ConfigRecord.encode ⟨name, body.take size.toNat, name_ne, size_lt⟩ ++ rest)
            (.record ⟨name, body.take size.toNat, name_ne, size_lt⟩ rest) := .record
        simp only [ConfigRecord.encode, ← size_eq, List.append_assoc, List.cons_append,
          List.nil_append, taken] at record
        exact record
      · rw [if_neg trailer]
        have broken : Starts (name ++ 0 :: (leBytes 2 (BitVec.ofNat 16 (body.take size.toNat).length) ++
            (body.take size.toNat ++ first :: second :: rest))) .broken :=
          .noTrailer name_ne size_lt trailer
        rwa [← size_eq, taken] at broken

theorem starts_nextRecord (bytes : List Byte) : Starts bytes (nextRecord bytes) := by
  have whole := List.takeWhile_append_dropWhile (p := fun b : Byte => decide (b ≠ 0)) (l := bytes)
  unfold nextRecord
  split
  · next hdrop =>
    rw [hdrop, List.append_nil] at whole
    exact .outside (whole ▸ takeWhile_ne bytes)
  · next zero tail hdrop =>
    have hzero : zero = 0 := by
      have head := List.head?_dropWhile_not (fun b : Byte => decide (b ≠ 0)) bytes
      rw [hdrop] at head
      simpa using head
    rw [hdrop, hzero] at whole
    have body := starts_recordBody (takeWhile_ne bytes) tail
    rwa [whole] at body

theorem nextRecord_name {name : List Byte} (name_ne : ∀ b ∈ name, b ≠ 0) (tail : List Byte) :
    nextRecord (name ++ 0 :: tail) = recordBody name name_ne tail := by
  have nonzero : ∀ b ∈ name, decide (b ≠ 0) = true := by simpa using name_ne
  have taken : (name ++ 0 :: tail).takeWhile (fun b : Byte => decide (b ≠ 0)) = name := by
    rw [List.takeWhile_append_of_pos nonzero]
    simp
  have dropped : (name ++ 0 :: tail).dropWhile (fun b : Byte => decide (b ≠ 0)) = 0 :: tail := by
    rw [List.dropWhile_append_of_pos nonzero]
    simp
  rw [nextRecord]
  split
  · next h => rw [dropped] at h; cases h
  · next zero tail' h =>
    rw [dropped] at h
    cases h
    congr 1

/-- Parsing undoes encoding: the record, and what follows it. -/
@[simp] theorem nextRecord_encode (r : ConfigRecord) (rest : List Byte) :
    nextRecord (r.encode ++ rest) = .record r rest := by
  obtain ⟨hi, lo, size, bytes⟩ := append_high_low (BitVec.ofNat 16 r.data.length)
  have toNat : (hi ++ lo : BitVec 16).toNat = r.data.length := by
    rw [← size, BitVec.toNat_ofNat, Nat.mod_eq_of_lt r.size_lt]
  have whole : r.encode ++ rest = r.name ++ 0 :: (lo :: hi :: (r.data ++ 0x00 :: 0x0A :: rest)) := by
    simp [ConfigRecord.encode, bytes]
  rw [whole, nextRecord_name r.name_ne, recordBody]
  simp only [toNat, List.drop_left, List.take_left, and_self, if_true]

end Starts

theorem ConfigRecord.length_encode (r : ConfigRecord) :
    r.encode.length = r.name.length + r.data.length + 5 := by
  simp only [ConfigRecord.encode, List.length_append, List.length_cons, length_leBytes,
    List.length_nil]
  omega

/-- A concatenation of records is one in one way. -/
theorem flatMap_encode_injective {rs rs' : List ConfigRecord}
    (h : rs.flatMap ConfigRecord.encode = rs'.flatMap ConfigRecord.encode) : rs = rs' := by
  induction rs generalizing rs' with
  | nil =>
    cases rs' with
    | nil => rfl
    | cons r' rs' =>
      have := congrArg List.length h
      rw [List.flatMap_cons, List.length_append, r'.length_encode, List.flatMap_nil,
        List.length_nil] at this
      omega
  | cons r rs ih =>
    cases rs' with
    | nil =>
      have := congrArg List.length h
      rw [List.flatMap_cons, List.length_append, r.length_encode, List.flatMap_nil,
        List.length_nil] at this
      omega
    | cons r' rs' =>
      rw [List.flatMap_cons, List.flatMap_cons] at h
      -- reading the first record back gives both heads and both tails
      have next := congrArg nextRecord h
      rw [nextRecord_encode, nextRecord_encode] at next
      injection next with head tail
      rw [head, ih tail]

/-! ## All records -/

/-- How the scan of a data region ends. -/
inductive ScanEnd where
  | done
  | rejected (e : EfiError)
  | outside
deriving DecidableEq

/-- A record that was taken, and the number of bytes from its data to the end of the
    file. -/
structure TakenRecord where
  record : ConfigRecord
  room : Nat

/-- The options a data region sets, and how that ends. -/
def scanWith : (fuel : Nat) → List Byte → List TakenRecord × ScanEnd
  | 0, _ => ([], .done)
  | fuel + 1, bytes =>
      if bytes.isEmpty then ([], .done)
      else match nextRecord bytes with
        | .outside => ([], .outside)
        | .broken => ([], .rejected .compromisedData)
        | .record r rest =>
            if r.name = bootDisk ∨ r.name = bootPath then
              (⟨r, r.data.length + 2 + rest.length⟩ :: (scanWith fuel rest).1, (scanWith fuel rest).2)
            else ([], .rejected .invalidParameter)

def scan (bytes : List Byte) : List TakenRecord × ScanEnd := scanWith bytes.length bytes

/-- The data of the BOOT_PATH records, in their order. -/
def pathsOf (taken : List TakenRecord) : List (List Byte) :=
  (taken.filter fun t => t.record.name = bootPath).map fun t => t.record.data

/-- The data of the BOOT_DISK records, in their order. -/
def disksOf (taken : List TakenRecord) : List (List Byte) :=
  (taken.filter fun t => t.record.name = bootDisk).map fun t => t.record.data

section Scan

variable {fuel : Nat} {bytes : List Byte}

theorem scanWith_nil (fuel : Nat) : scanWith fuel [] = ([], .done) := by
  cases fuel with
  | zero => rfl
  | succ fuel => rfl

/-- A region that is scanned to its end is the concatenation of the records taken. -/
theorem scanWith_done (enough : bytes.length ≤ fuel) (done : (scanWith fuel bytes).2 = .done) :
    bytes = ((scanWith fuel bytes).1.map (·.record)).flatMap ConfigRecord.encode := by
  induction fuel generalizing bytes with
  | zero =>
    obtain rfl := List.eq_nil_of_length_eq_zero (Nat.le_zero.mp enough)
    rfl
  | succ fuel ih =>
    cases hbytes : bytes with
    | nil => rfl
    | cons b tail =>
      rw [← hbytes]
      -- a scan that ends well took records only
      have starts := starts_nextRecord bytes
      unfold scanWith at done ⊢
      rw [if_neg (by simp [hbytes])] at done ⊢
      cases hnext : nextRecord bytes with
      | outside => simp [hnext] at done
      | broken => simp [hnext] at done
      | record r rest =>
        simp only [hnext] at done starts ⊢
        cases starts with
        | record =>
          split at done
          · next known =>
            rw [List.length_append, r.length_encode] at enough
            rw [if_pos known]
            simp only [List.map_cons, List.flatMap_cons]
            rw [← ih (by omega) done]
          · cases done

/-- Known records, one after another, are scanned to the end. -/
theorem scanWith_flatMap {rs : List ConfigRecord}
    (known : ∀ r ∈ rs, r.name = bootDisk ∨ r.name = bootPath)
    (enough : (rs.flatMap ConfigRecord.encode).length ≤ fuel) :
    (scanWith fuel (rs.flatMap ConfigRecord.encode)).2 = .done := by
  induction rs generalizing fuel with
  | nil => rw [List.flatMap_nil, scanWith_nil]
  | cons r rs ih =>
    rw [List.forall_mem_cons] at known
    rw [List.flatMap_cons] at enough ⊢
    have long := r.length_encode
    rw [List.length_append] at enough
    cases fuel with
    | zero => omega
    | succ fuel =>
      have nonempty : (r.encode ++ rs.flatMap ConfigRecord.encode).isEmpty = false := by
        cases h : r.encode with
        | nil => rw [h] at long; simp at long
        | cons b tail => rfl
      unfold scanWith
      rw [nonempty, nextRecord_encode]
      simp only [Bool.false_eq_true, if_false, if_pos known.1]
      exact ih known.2 (by omega)

/-- The records that are taken from a concatenation of known records. -/
theorem scan_flatMap {rs : List ConfigRecord}
    (known : ∀ r ∈ rs, r.name = bootDisk ∨ r.name = bootPath) :
    (scan (rs.flatMap ConfigRecord.encode)).2 = .done ∧
      (scan (rs.flatMap ConfigRecord.encode)).1.map (·.record) = rs := by
  have done := scanWith_flatMap known (Nat.le_refl _)
  exact ⟨done, flatMap_encode_injective (scanWith_done (Nat.le_refl _) done).symm⟩

theorem scan_done (done : (scan bytes).2 = .done) :
    bytes = ((scan bytes).1.map (·.record)).flatMap ConfigRecord.encode :=
  scanWith_done (Nat.le_refl _) done

end Scan

end MidnightOS.Nyxboot
