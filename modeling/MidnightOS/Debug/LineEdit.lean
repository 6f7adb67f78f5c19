import MidnightOS.Debug.Command

/-! # Editing a line

`dbg_getcmd` terminates a line that it sees the end of.  A line that fills the buffer first is
left without a terminator, and its reader does not look at `*size`.
-/

namespace MidnightOS.Debug

open MidnightOS.Lib

/-! ## Edited lines -/

/-- What one key does to the characters that were kept: BS and DEL delete the last one. -/
def editKey (kept : List Byte) (c : Byte) : List Byte :=
  if c = 8 ∨ c = 127 then kept.dropLast else kept ++ [c]

def endsLine (c : Byte) : Bool := c = 10 ∨ c = 13

/-- The keys before the first LF or CR. -/
def firstLine (keys : List Byte) : List Byte := keys.takeWhile fun c => !endsLine c

/-- The characters that are kept of a line, behind those of `kept`. -/
def edit (kept line : List Byte) : List Byte := line.foldl editKey kept

def edited (line : List Byte) : List Byte := edit [] line

/-- The characters that are kept when there are `n` of them, if that comes before the end of
the line. -/
def filledBy (n : Nat) : (keys kept : List Byte) → Option (List Byte)
  | [], kept => if kept.length < n then none else some kept
  | c :: keys, kept =>
    if kept.length < n then
      if endsLine c then none else filledBy n keys (editKey kept c)
    else
      some kept

theorem firstLine_end {c : Byte} (h : endsLine c = true) (keys : List Byte) :
    firstLine (c :: keys) = [] := by
  simp [firstLine, h]

theorem firstLine_cons {c : Byte} (h : endsLine c = false) (keys : List Byte) :
    firstLine (c :: keys) = c :: firstLine keys := by
  simp [firstLine, h]

theorem edit_cons (kept : List Byte) (c : Byte) (line : List Byte) :
    edit kept (c :: line) = edit (editKey kept c) line := rfl

theorem endsLine_deleting {c : Byte} (h : c = 8 ∨ c = 127) : endsLine c = false := by
  cases h with
  | inl hbs =>
    rw [hbs]
    rfl
  | inr hdel =>
    rw [hdel]
    rfl

/-! ## The buffer -/

section Buffer

variable {cmd kept : List Byte}

theorem prefix_dropLast (h : kept <+: cmd) : kept.dropLast <+: cmd :=
  (List.dropLast_prefix kept).trans h

theorem prefix_set (h : kept <+: cmd) (hroom : kept.length < cmd.length) (c : Byte) :
    kept ++ [c] <+: cmd.set kept.length c := by
  obtain ⟨rest, rfl⟩ := h
  cases rest with
  | nil => simp at hroom
  | cons old rest =>
    refine ⟨rest, ?_⟩
    simp

end Buffer

/-- What a run of the loop leaves for the keys: a line that it saw the end of with its
terminator, or as many characters as fit. -/
structure EditsTo (size : Nat) (keys kept : List Byte) (typed : Typed) : Prop where
  size_le : typed.size ≤ size
  ended : filledBy size keys kept = none →
    (edit kept (firstLine keys)).length < size ∧
      edit kept (firstLine keys) ++ [0] <+: typed.cmd
  filled : ∀ full, filledBy size keys kept = some full → full.length = size ∧ full <+: typed.cmd

theorem getcmdLoop_full {size : Nat} {cmd kept : List Byte} (hfull : ¬kept.length < size)
    (hle : kept.length ≤ size) (hkept : kept <+: cmd) (keys keys' echo : List Byte) :
    EditsTo size keys kept ⟨cmd, kept.length, echo, keys'⟩ where
  size_le := hle
  ended hnone := by
    cases keys with
    | nil => simp [filledBy, hfull] at hnone
    | cons c keys => simp [filledBy, hfull] at hnone
  filled full hsome := by
    have hsame : kept = full := by
      cases keys with
      | nil => simpa [filledBy, hfull] using hsome
      | cons c keys => simpa [filledBy, hfull] using hsome
    rw [← hsame]
    exact ⟨by omega, hkept⟩

/-- A key that does not end the line, and then the rest of the keys. -/
theorem EditsTo.key {size : Nat} {keys kept : List Byte} {c : Byte} {typed : Typed}
    (hroom : kept.length < size) (hend : endsLine c = false)
    (h : EditsTo size keys (editKey kept c) typed) : EditsTo size (c :: keys) kept typed where
  size_le := h.size_le
  ended hnone := by
    rw [filledBy, if_pos hroom, if_neg (by simp [hend])] at hnone
    rw [firstLine_cons hend, edit_cons]
    exact h.ended hnone
  filled full hsome := by
    rw [filledBy, if_pos hroom, if_neg (by simp [hend])] at hsome
    exact h.filled full hsome

/-- The kept characters are at the front of the buffer, and there are `i` of them. -/
theorem getcmdLoop_edits {size : Nat} {keys cmd kept echo : List Byte} {typed : Typed}
    (hkept : kept <+: cmd) (hle : kept.length ≤ size) (hcmd : size ≤ cmd.length)
    (h : getcmdLoop size keys cmd kept.length echo = some typed) :
    EditsTo size keys kept typed := by
  induction keys generalizing cmd kept echo with
  | nil =>
    rw [getcmdLoop] at h
    by_cases hroom : kept.length < size
    · rw [if_pos hroom] at h
      cases h
    · rw [if_neg hroom] at h
      cases h
      exact getcmdLoop_full hroom hle hkept [] [] echo
  | cons c keys ih =>
    rw [getcmdLoop] at h
    by_cases hroom : kept.length < size
    · rw [if_pos hroom] at h
      by_cases hdel : c = 8 ∨ c = 127
      · apply EditsTo.key hroom (endsLine_deleting hdel)
        -- BS or DEL: the index goes one back, the cell keeps its character
        have hshorter : editKey kept c = kept.dropLast := if_pos hdel
        rw [hshorter]
        rw [if_pos hdel] at h
        by_cases hpos : 0 < kept.length
        · rw [if_pos hpos, ← List.length_dropLast] at h
          exact ih (prefix_dropLast hkept) (by simp; omega) hcmd h
        · -- at the left edge there is nothing to delete
          rw [if_neg hpos] at h
          have hnil : kept = [] := List.eq_nil_of_length_eq_zero (by omega)
          rw [hnil] at h
          rw [hnil]
          have hempty : ([] : List Byte) <+: cmd := List.nil_prefix
          exact ih hempty (Nat.zero_le _) hcmd h
      · rw [if_neg hdel] at h
        have hlonger : editKey kept c = kept ++ [c] := if_neg hdel
        have hset := prefix_set hkept (by omega) c
        by_cases hend : c = 10 ∨ c = 13
        · have hends : endsLine c = true := decide_eq_true hend
          simp only [if_pos hend, Option.some.injEq] at h
          rw [← h]
          refine ⟨by simp; omega, fun _ => ?_, fun full hsome => ?_⟩
          · rw [firstLine_end hends]
            refine ⟨hroom, ?_⟩
            rw [List.set_set]
            exact prefix_set hkept (by omega) 0
          · simp [filledBy, hroom, hends] at hsome
        · have hends : endsLine c = false := decide_eq_false hend
          simp only [if_neg hend] at h
          apply EditsTo.key hroom hends
          rw [hlonger]
          apply ih hset (by simp; omega) (by simpa using hcmd)
          rw [List.length_append]
          exact h
    · rw [if_neg hroom] at h
      cases h
      exact getcmdLoop_full hroom hle hkept (c :: keys) (c :: keys) echo

theorem dbgGetcmd_edits {keys cmd : List Byte} {size : Nat} {typed : Typed}
    (hcmd : size ≤ cmd.length) (h : dbgGetcmd keys cmd size = some typed) :
    EditsTo size keys [] typed :=
  getcmdLoop_edits List.nil_prefix (Nat.zero_le _) hcmd h

/-! ## Terminated lines -/

/-- The line as far as it fits with a terminator. -/
def fitting (n : Nat) (keys : List Byte) : List Byte := (edited (firstLine keys)).take (n - 1)

/-- A buffer with the string that was typed, and a size within the capacity `n`. -/
def LineKept (n : Nat) (keys : List Byte) (typed : Typed) : Prop :=
  typed.size ≤ n ∧ ∃ k, k < n ∧ typed.cmd[k]? = some 0 ∧ typed.cmd.take k = fitting n keys

theorem getElem?_of_begins {kept cmd : List Byte} (h : kept <+: cmd) {k : Nat}
    (hk : k < kept.length) : cmd[k]? = kept[k]? := by
  obtain ⟨rest, rfl⟩ := h
  exact List.getElem?_append_left hk

theorem take_of_begins {kept cmd : List Byte} (h : kept <+: cmd) {k : Nat}
    (hk : k ≤ kept.length) : cmd.take k = kept.take k := by
  obtain ⟨rest, rfl⟩ := h
  exact List.take_append_of_le_length hk

/-- The terminator is behind the line, so its place is known. -/
theorem lineKept_iff {n : Nat} {keys : List Byte} {typed : Typed} (hn : 1 ≤ n)
    (hsize : typed.size ≤ n) :
    LineKept n keys typed ↔ fitting n keys ++ [0] <+: typed.cmd := by
  have hfits : (fitting n keys).length ≤ n - 1 := List.length_take_le _ _
  constructor
  · intro h
    obtain ⟨-, k, hk, hnul, htake⟩ := h
    have hsplit : typed.cmd.take k ++ [0] = typed.cmd.take (k + 1) := by
      simp [List.take_add_one, hnul]
    rw [← htake, hsplit]
    exact List.take_prefix _ _
  · intro h
    refine ⟨hsize, (fitting n keys).length, by omega, ?_, ?_⟩
    · rw [getElem?_of_begins h (by simp)]
      simp
    · rw [take_of_begins h (by simp)]
      simp

/-- A line that fills the buffer is kept only where the characters that fill it contain the
line as it is finally edited and, behind it, a NUL that was typed. -/
theorem lineKept_iff_not_filled {keys cmd : List Byte} {n : Nat} {typed : Typed} (hn : 1 ≤ n)
    (hcmd : n ≤ cmd.length) (h : dbgGetcmd keys cmd n = some typed) :
    LineKept n keys typed ↔
      ∀ full, filledBy n keys [] = some full → fitting n keys ++ [0] <+: full := by
  have hedits := dbgGetcmd_edits hcmd h
  rw [lineKept_iff hn hedits.size_le]
  cases hfilled : filledBy n keys [] with
  | none =>
    -- the end of the line was seen, and its terminator written
    obtain ⟨hshort, hline⟩ := hedits.ended hfilled
    have hfits : fitting n keys = edit [] (firstLine keys) := by
      apply List.take_of_length_le
      rw [edited]
      omega
    rw [hfits]
    exact iff_of_true hline fun _ wrong => by cases wrong
  | some full =>
    -- the buffer holds the characters that filled it, and nothing else
    obtain ⟨hlength, hfull⟩ := hedits.filled full hfilled
    have hfits : (fitting n keys).length ≤ n - 1 := List.length_take_le _ _
    have hle : (fitting n keys ++ [0]).length ≤ full.length := by
      rw [List.length_append, List.length_singleton]
      omega
    simp only [Option.some.injEq, forall_eq']
    constructor
    · intro hline
      exact List.prefix_of_prefix_length_le hline hfull hle
    · intro hline
      exact hline.trans hfull

/-- Two letters, the second one deleted, and a third. -/
theorem lineKept_iff_not_filled_deleted :
    (1 ≤ 4 ∧ 4 ≤ ([0, 0, 0, 0] : List Byte).length ∧
        dbgGetcmd [97, 98, 8, 99, 13] [0, 0, 0, 0] 4 =
          some ⟨[97, 99, 0, 0], 3, [97, 98, 8, 32, 8, 99, 10], []⟩) ∧
      (LineKept 4 [97, 98, 8, 99, 13] ⟨[97, 99, 0, 0], 3, [97, 98, 8, 32, 8, 99, 10], []⟩ ↔
        ∀ full, filledBy 4 [97, 98, 8, 99, 13] [] = some full →
          fitting 4 [97, 98, 8, 99, 13] ++ [0] <+: full) :=
  have room : 4 ≤ ([0, 0, 0, 0] : List Byte).length := by decide
  ⟨by decide, lineKept_iff_not_filled (by decide) room (by decide)⟩

/-- Keys that neither delete nor end the line are stored and echoed as they are. -/
theorem getcmdLoop_plain {keys : List Byte}
    (hkeys : ∀ c ∈ keys, ¬(c = 8 ∨ c = 127) ∧ ¬(c = 10 ∨ c = 13)) {size : Nat}
    (kept echo more : List Byte) {old : List Byte} (hold : old.length = keys.length)
    (rest : List Byte) (hroom : kept.length + keys.length ≤ size) :
    getcmdLoop size (keys ++ more) (kept ++ (old ++ rest)) kept.length echo =
      getcmdLoop size more (kept ++ (keys ++ rest)) (kept.length + keys.length) (echo ++ keys) := by
  induction keys generalizing kept echo old with
  | nil =>
    rw [List.length_eq_zero_iff.mp hold, List.append_nil]
    rfl
  | cons c keys ih =>
    rw [List.forall_mem_cons] at hkeys
    obtain ⟨⟨hdelete, hend⟩, hkeys⟩ := hkeys
    obtain ⟨cell, old, rfl⟩ := List.exists_cons_of_length_eq_add_one hold
    have hlength : old.length = keys.length := by simpa using hold
    rw [List.length_cons] at hroom
    have hset : (kept ++ (cell :: old ++ rest)).set kept.length c =
        kept ++ [c] ++ (old ++ rest) := by
      simp
    have hnext := ih hkeys (kept ++ [c]) (echo ++ [c]) hlength (by simp; omega)
    have hreturn : c ≠ 13 := fun h => hend (.inr h)
    rw [List.cons_append, getcmdLoop, if_pos (by omega), if_neg hdelete, if_neg hend, hset,
      if_neg hreturn]
    simp only [List.length_append, List.length_singleton, List.append_assoc,
      List.singleton_append] at hnext ⊢
    rw [hnext, List.length_cons, Nat.add_comm keys.length 1, ← Nat.add_assoc]
    rfl

/-- A line that is ended by the return key, in a buffer that was cleared. -/
theorem dbgGetcmd_line {line : List Byte}
    (hline : ∀ c ∈ line, ¬(c = 8 ∨ c = 127) ∧ ¬(c = 10 ∨ c = 13)) (n : Nat) :
    dbgGetcmd (line ++ [13]) (List.replicate (line.length + (n + 1)) 0) (line.length + (n + 1)) =
      some ⟨line ++ List.replicate (n + 1) 0, line.length + 1, line ++ [10], []⟩ := by
  have hroom : ([] : List Byte).length + line.length ≤ line.length + (n + 1) := by
    rw [List.length_nil]
    omega
  have hcleared : (List.replicate line.length (0 : Byte)).length = line.length :=
    List.length_replicate
  have hkept := getcmdLoop_plain hline [] [] [13] hcleared (List.replicate (n + 1) 0) hroom
  rw [List.replicate_append_replicate, List.nil_append, List.nil_append, List.nil_append,
    List.length_nil, Nat.zero_add] at hkept
  rw [dbgGetcmd, hkept, getcmdLoop, if_pos (by omega)]
  simp [List.replicate_succ]

/-- The 256 letters that fill the debugger's buffer are left without a terminator. -/
theorem full_line_not_terminated :
    ∃ typed, dbgGetcmd (List.replicate 256 97) (List.replicate 256 0) 256 = some typed ∧
      ¬LineKept 256 (List.replicate 256 97) typed := by
  have hletters : ∀ c ∈ List.replicate 256 (97 : Byte),
      ¬(c = 8 ∨ c = 127) ∧ ¬(c = 10 ∨ c = 13) := by
    intro c hc
    rw [List.eq_of_mem_replicate hc]
    decide
  have hlength (c : Byte) : (List.replicate 256 c).length = 256 := List.length_replicate
  have hroom : ([] : List Byte).length + (List.replicate 256 (97 : Byte)).length ≤ 256 := by
    rw [hlength, List.length_nil]
  have htyped := getcmdLoop_plain hletters [] [] [] ((hlength 0).trans (hlength 97).symm) [] hroom
  rw [List.length_nil, hlength, List.append_nil, List.append_nil, getcmdLoop] at htyped
  refine ⟨⟨List.replicate 256 97, 256, List.replicate 256 97, []⟩, htyped, ?_⟩
  intro h
  obtain ⟨-, k, -, hnul, -⟩ := h
  have hletter : (0 : Byte) = 97 := List.eq_of_mem_replicate (List.mem_of_getElem? hnul)
  exact absurd hletter (by decide)

end MidnightOS.Debug
