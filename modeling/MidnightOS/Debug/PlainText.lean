import MidnightOS.Debug.DbgMsg
import MidnightOS.Lib.Agreement

/-! # Messages whose text is in their arguments

The hexadecimal routines overwrite what they return, up to the NUL, with one
exception: `u8_to_hstr` stores two digits and a NUL behind six cells that nothing
ever writes.  As long as these are empty, a message of `%c`, `%s`, `%b`, `%x` and
`%lx` is the same whatever was printed before.
-/

namespace MidnightOS.Debug

open MidnightOS.Lib

/-! ## What is left of the earlier contents -/

/-- The cell is written by one of the stores. -/
def Written (i : Fin 128) (stores : List Store) : Prop := ∃ store ∈ stores, store.1 = (i.val : Int)

theorem makeStores_unwritten {i : Fin 128} {stores : List Store} {buff buff' : StrBuff}
    (h : makeStores stores buff = .ok buff') (hi : ¬Written i stores) : buff' i = buff i := by
  induction stores generalizing buff with
  | nil => cases h; rfl
  | cons store stores ih =>
    rw [makeStores] at h
    split at h
    · rename_i hin
      have hrest : ¬Written i stores := fun hw => hi (by
        obtain ⟨other, hmem, heq⟩ := hw
        exact ⟨other, List.mem_cons_of_mem _ hmem, heq⟩)
      have hne : i ≠ ⟨store.1.toNat, by omega⟩ := by
        intro heq
        apply hi
        refine ⟨store, List.mem_cons_self, ?_⟩
        rw [heq]
        simp only
        omega
      rw [ih h hrest, Function.update_of_ne hne]
    · cases h

/-- Cells that are written, or were equal before, are equal afterwards. -/
theorem makeStores_cell_eq {i : Fin 128} {stores : List Store} {buff₁ buff₂ buff₁' buff₂' : StrBuff}
    (h₁ : makeStores stores buff₁ = .ok buff₁') (h₂ : makeStores stores buff₂ = .ok buff₂')
    (h : Written i stores ∨ buff₁ i = buff₂ i) : buff₁' i = buff₂' i := by
  induction stores generalizing buff₁ buff₂ with
  | nil =>
    cases h₁
    cases h₂
    cases h with
    | inl hw => obtain ⟨_, hmem, _⟩ := hw; cases hmem
    | inr heq => exact heq
  | cons store stores ih =>
    rw [makeStores] at h₁ h₂
    split at h₁
    · rename_i hin
      rw [dif_pos hin] at h₂
      -- after this store: written here, still to be written, or equal before
      apply ih h₁ h₂
      by_cases hi : store.1 = (i.val : Int)
      · have hcell : (⟨store.1.toNat, by omega⟩ : Fin 128) = i := Fin.ext (by simp only; omega)
        right
        rw [hcell, Function.update_self, Function.update_self]
      · have hcell : i ≠ ⟨store.1.toNat, by omega⟩ := by
          intro heq
          rw [heq] at hi
          simp only at hi
          omega
        cases h with
        | inl hw =>
          obtain ⟨other, hmem, heq⟩ := hw
          cases hmem with
          | head => exact absurd heq hi
          | tail _ hmem => exact .inl ⟨other, hmem, heq⟩
        | inr heq =>
          right
          rw [Function.update_of_ne hcell, Function.update_of_ne hcell, heq]
    · cases h₁

/-- Texts are equal when the cells up to a NUL are. -/
theorem textOf_eq_of_cells {str₁ str₂ : Chars} {k : Nat} (h : ∀ i ≤ k, str₁[i]? = str₂[i]?)
    (hnul : str₁[k]? = some 0) : textOf str₁ = textOf str₂ := by
  induction k generalizing str₁ str₂ with
  | zero =>
    have hsecond := h 0 (Nat.le_refl 0)
    cases str₁ with
    | nil => cases hnul
    | cons c₁ str₁ =>
      cases str₂ with
      | nil => cases hsecond
      | cons c₂ str₂ =>
        -- both strings end here
        have hc₁ : c₁ = 0 := Option.some.inj hnul
        have hc₂ : c₁ = c₂ := Option.some.inj hsecond
        rw [← hc₂, hc₁]
        rfl
  | succ k ih =>
    have hfirst := h 0 (Nat.zero_le _)
    cases str₁ with
    | nil => cases hnul
    | cons c₁ str₁ =>
      cases str₂ with
      | nil => cases hfirst
      | cons c₂ str₂ =>
        have hc : c₁ = c₂ := Option.some.inj hfirst
        have hrest : textOf str₁ = textOf str₂ :=
          ih (fun i hi => h (i + 1) (Nat.succ_le_succ hi)) hnul
        rw [← hc]
        by_cases hzero : c₁ = 0
        · rw [hzero]
          rfl
        · rw [textOf_cons hzero, textOf_cons hzero, hrest]

/-! ## Plain directives -/

/-- The cell behind the digits of `u8_to_hstr` is empty. -/
def Clean (buffs : StrBuffs) : Prop := buffs .toH8 2 = 0

theorem clean_update {buffs : StrBuffs} {name : StrBuffName} {buff : StrBuff}
    (h : Clean buffs) (hbuff : name = .toH8 → buff 2 = 0) :
    Clean (Function.update buffs name buff) := by
  unfold Clean at h ⊢
  by_cases hname : name = .toH8
  · subst name
    rw [Function.update_self]
    exact hbuff rfl
  · rw [Function.update_of_ne (Ne.symm hname)]
    exact h

/-- A routine whose text does not depend on what is in its buffer. -/
def Steady (routine : BuffM Chars) : Prop :=
  ∃ text : List Byte, text.length ≤ 128 ∧ ∀ buffs, Clean buffs → ∃ buffs', Clean buffs' ∧
    returned routine buffs = some (text, buffs')

theorem makeStores_last {stores : List Store} {last : Int} {buff buff' : StrBuff}
    (h : makeStores (stores ++ [(last, 0)]) buff = .ok buff') {i : Fin 128}
    (hi : (i.val : Int) = last) : buff' i = 0 := by
  induction stores generalizing buff with
  | nil =>
    rw [List.nil_append, makeStores] at h
    split at h
    · cases h
      have hcell : (⟨last.toNat, by omega⟩ : Fin 128) = i := Fin.ext (by simp only; omega)
      rw [hcell, Function.update_self]
    · cases h
  | cons store stores ih =>
    rw [List.cons_append, makeStores] at h
    split at h
    · exact ih h
    · cases h

theorem written_hexStores {i : Fin 128} {digits terminator v : Nat} :
    Written i (hexStores digits terminator v) ↔ i.val < digits ∨ i.val = terminator := by
  unfold Written hexStores
  constructor
  · intro h
    obtain ⟨store, hmem, heq⟩ := h
    rw [List.mem_append, List.mem_map, List.mem_singleton] at hmem
    cases hmem with
    | inl hdigit =>
      -- digit `j` goes to the cell `digits - 1 - j`
      obtain ⟨j, hj, hstore⟩ := hdigit
      rw [List.mem_range] at hj
      rw [← hstore] at heq
      simp only at heq
      omega
    | inr hlast =>
      rw [hlast] at heq
      simp only at heq
      omega
  · intro h
    cases h with
    | inl hdigit =>
      refine ⟨_, List.mem_append_left _ (List.mem_map_of_mem
        (List.mem_range.mpr (show digits - 1 - i.val < digits by omega))), ?_⟩
      simp only
      omega
    | inr hlast =>
      refine ⟨_, List.mem_append_right _ List.mem_cons_self, ?_⟩
      simp only
      omega

/-- `u64_to_hstr` and `u32_to_hstr` write a NUL right behind the digits; behind those of
`u8_to_hstr` there is the cell that is never written. -/
theorem steady_hex {name : StrBuffName} {digits terminator : Nat}
    (h : terminator = digits ∧ name ≠ .toH8 ∨ name = .toH8 ∧ digits = 2 ∧ terminator = 8)
    (hdigits : digits < 128) (v : Nat) :
    Steady (convert name (some (hexStores digits terminator v))) := by
  have hterminator : terminator < 128 := by omega
  have hstores : ∀ buffs : StrBuffs, ∃ buff',
      makeStores (hexStores digits terminator v) (buffs name) = .ok buff' ∧ 0 ∈ List.ofFn buff' :=
    fun buffs => makeStores_terminated (buffs name)
      (hexStores_inBuffer (Nat.le_of_lt hdigits) hterminator v)
  -- The cell behind the digits is empty.
  have hbehind : ∀ buffs buff', Clean buffs →
      makeStores (hexStores digits terminator v) (buffs name) = .ok buff' →
      buff' ⟨digits, hdigits⟩ = 0 := by
    intro buffs buff' hclean hrun
    cases h with
    | inl hright => exact makeStores_last hrun (by simp only; omega)
    | inr hbyte =>
      obtain ⟨rfl, rfl, rfl⟩ := hbyte
      rw [makeStores_unwritten hrun (by rw [written_hexStores]; simp)]
      exact hclean
  obtain ⟨buff₀, hrun₀, _⟩ := hstores fun _ _ => 0
  refine ⟨textOf (List.ofFn buff₀), ?_, ?_⟩
  · have := (textOf_isPrefixOf (List.ofFn buff₀)).length_le
    rwa [List.length_ofFn] at this
  · intro buffs hclean
    obtain ⟨buff', hrun, hnul⟩ := hstores buffs
    refine ⟨Function.update buffs name buff', clean_update hclean ?_, ?_⟩
    · intro hname
      cases h with
      | inl hright => exact absurd hname hright.2
      | inr hbyte =>
        obtain ⟨rfl, rfl, rfl⟩ := hbyte
        exact hbehind buffs buff' hclean hrun
    · have htext : textOf (List.ofFn buff') = textOf (List.ofFn buff₀) := by
        refine textOf_eq_of_cells (k := digits) ?_ ?_
        · intro i hi
          rw [List.getElem?_ofFn, List.getElem?_ofFn, dif_pos (by omega), dif_pos (by omega)]
          congr 1
          apply makeStores_cell_eq hrun hrun₀
          rw [written_hexStores]
          simp only
          cases h with
          | inl hright => omega
          | inr hbyte =>
            obtain ⟨rfl, rfl, rfl⟩ := hbyte
            by_cases htwo : i = 2
            · subst i
              right
              exact hclean
            · omega
        · rw [List.getElem?_ofFn, dif_pos hdigits, hbehind buffs buff' hclean hrun]
      have hconvert : convert name (some (hexStores digits terminator v)) buffs =
          .ok (List.ofFn buff') (Function.update buffs name buff') := by
        rw [convert, get_bind]
        simp only [hrun]
        rfl
      simp only [returned, hconvert, if_pos hnul, htext]

theorem steady_u64ToHstr (v : BitVec 64) : Steady (u64ToHstr v) :=
  steady_hex (.inl ⟨rfl, by decide⟩) (by omega) _

theorem steady_u32ToHstr (v : BitVec 32) : Steady (u32ToHstr v) :=
  steady_hex (.inl ⟨rfl, by decide⟩) (by omega) _

theorem steady_u8ToHstr (v : BitVec 8) : Steady (u8ToHstr v) :=
  steady_hex (.inr ⟨rfl, rfl, rfl⟩) (by omega) _

/-! ## Plain messages -/

/-- The directives without a decimal number. -/
def Directive.plain : Directive → Bool
  | .c => true
  | .s => true
  | .b => true
  | .x => true
  | .lx => true
  | .d => false
  | .ld => false
  | .u => false
  | .lu => false

/-- A bound for the text of an argument. -/
def Arg.weight : Arg → Nat
  | .int _ => 128
  | .long _ => 128
  | .string str => str.chars.length

theorem Directive.plain_text {directive : Directive} {arg : Arg} (hplain : directive.plain = true)
    (htakes : directive.takes arg = true) :
    ∃ text : List Byte, text.length ≤ arg.weight ∧ ∀ buffs, Clean buffs → ∃ buffs', Clean buffs' ∧
      directive.text arg buffs = some (text, buffs') := by
  cases directive <;> cases arg <;> try cases htakes
  case c.int num => exact ⟨[num.setWidth 8], by simp [Arg.weight], fun buffs h => ⟨buffs, h, rfl⟩⟩
  case s.string str => exact ⟨str.chars, Nat.le_refl _, fun buffs h => ⟨buffs, h, rfl⟩⟩
  case d.int num => cases hplain
  case ld.long num => cases hplain
  case u.int num => cases hplain
  case lu.long num => cases hplain
  case b.int num => exact steady_u8ToHstr _
  case x.int num => exact steady_u32ToHstr _
  case lx.long num => exact steady_u64ToHstr _

/-- The characters of a format that are sent as they are. -/
def literals : List Piece → Nat
  | [] => 0
  | .char _ :: rest => 1 + literals rest
  | .verbatim chars :: rest => chars.length + literals rest
  | .directive _ :: rest => literals rest

def weights : List Arg → Nat
  | [] => 0
  | arg :: args => arg.weight + weights args

/-- The text of a plain message, and that it leaves the cell empty that has to be. -/
theorem plain_render {parts : List Piece} {args : List Arg}
    (hplain : (directives parts).all Directive.plain = true)
    (hmatch : Matching (directives parts) args) :
    ∃ out : List Byte, out.length ≤ literals parts + weights args ∧
      ∀ buffs, Clean buffs → ∃ buffs', Clean buffs' ∧
        render parts args buffs = some (out, buffs') := by
  induction parts generalizing args with
  | nil => exact ⟨[], Nat.zero_le _, fun buffs h => ⟨buffs, h, rfl⟩⟩
  | cons piece rest ih =>
    cases piece with
    | char c =>
      obtain ⟨out, hlength, hout⟩ := ih hplain hmatch
      refine ⟨[c] ++ out, ?_, ?_⟩
      · simp only [literals, List.length_append, List.length_singleton]
        omega
      · intro buffs hclean
        obtain ⟨buffs', hclean', hrender⟩ := hout buffs hclean
        exact ⟨buffs', hclean', by rw [render, hrender]; rfl⟩
    | verbatim chars =>
      obtain ⟨out, hlength, hout⟩ := ih hplain hmatch
      refine ⟨chars ++ out, ?_, ?_⟩
      · simp only [literals, List.length_append]
        omega
      · intro buffs hclean
        obtain ⟨buffs', hclean', hrender⟩ := hout buffs hclean
        exact ⟨buffs', hclean', by rw [render, hrender]; rfl⟩
    | directive directive =>
      cases args with
      | nil => exact absurd hmatch id
      | cons arg args =>
        rw [directives, List.all_cons, Bool.and_eq_true] at hplain
        -- the text does not depend on the buffers, if these are clean
        obtain ⟨text, htextLength, htext⟩ := Directive.plain_text hplain.1 hmatch.1
        obtain ⟨out, hlength, hout⟩ := ih hplain.2 hmatch.2
        refine ⟨text ++ out, ?_, ?_⟩
        · simp only [literals, weights, List.length_append]
          omega
        · intro buffs hclean
          obtain ⟨buffs', hclean', htext'⟩ := htext buffs hclean
          obtain ⟨buffs'', hclean'', hrender⟩ := hout buffs' hclean'
          exact ⟨buffs'', hclean'', by rw [render, htext', Option.bind_some, hrender]; rfl⟩

variable {σ : Type}

/-- States of the file that differ in their buffers only. -/
structure Alike (s t : DbgIo σ) : Prop where
  sinks : s.sinks = t.sinks
  sent : s.sent = t.sent
  clean : Clean s.buffs
  clean' : Clean t.buffs

theorem dbgMsg_plain {fmt : CString} {args : List Arg}
    (hplain : (directives (pieces fmt)).all Directive.plain = true)
    (hmatch : Matching (directives (pieces fmt)) args)
    (hfits : literals (pieces fmt) + weights args < 2 ^ 64) :
    Agree Alike (dbgMsg fmt args : DbgM σ Nat) (dbgMsg fmt args) := by
  obtain ⟨out, hlength, hout⟩ := plain_render hplain hmatch
  intro s t h
  obtain ⟨buffs, hclean, hs⟩ := hout s.buffs h.clean
  obtain ⟨buffs', hclean', ht⟩ := hout t.buffs h.clean'
  rw [dbgMsg_spec hs (by omega), dbgMsg_spec ht (by omega)]
  refine .ok out.length ⟨h.sinks, ?_, hclean, hclean'⟩
  simp only [DbgIo.send, h.sinks, h.sent]

end MidnightOS.Debug
