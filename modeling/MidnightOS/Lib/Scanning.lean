import Mathlib.Computability.Language

/-! # Scanners

A scanner cuts a text into lexemes.  At each place the rules of its start condition
compete: the rule with the longest match wins, and of several the one given first.
The matches are found by derivatives; the specification speaks of languages only.
-/

namespace MidnightOS.Lib

section Patterns

variable {α : Type}

/-- A regular expression over classes of letters. -/
inductive Pattern (α : Type) where
  | never
  | empty
  | one (p : α → Bool)
  | seq (p q : Pattern α)
  | alt (p q : Pattern α)
  | star (p : Pattern α)

namespace Pattern

def language : Pattern α → Language α
  | .never => 0
  | .empty => 1
  | .one p => {w | ∃ a, p a = true ∧ w = [a]}
  | .seq p q => p.language * q.language
  | .alt p q => p.language + q.language
  | .star p => KStar.kstar p.language

/-- One or more. -/
def plus (p : Pattern α) : Pattern α := .seq p (.star p)

def nullable : Pattern α → Bool
  | .never => false
  | .empty => true
  | .one _ => false
  | .seq p q => p.nullable && q.nullable
  | .alt p q => p.nullable || q.nullable
  | .star _ => true

/-- What is left to match after the letter. -/
def deriv (a : α) : Pattern α → Pattern α
  | .never => .never
  | .empty => .never
  | .one p => if p a then .empty else .never
  | .seq p q =>
    if p.nullable then .alt (.seq (p.deriv a) q) (q.deriv a) else .seq (p.deriv a) q
  | .alt p q => .alt (p.deriv a) (q.deriv a)
  | .star p => .seq (p.deriv a) (.star p)

theorem mem_one {p : α → Bool} {w : List α} :
    w ∈ (Pattern.one p).language ↔ ∃ a, p a = true ∧ w = [a] := Iff.rfl

theorem nullable_iff (p : Pattern α) : p.nullable = true ↔ [] ∈ p.language := by
  induction p with
  | never => simp [nullable, language, Language.notMem_zero]
  | empty => simp [nullable, language]
  | one p => simp [nullable, mem_one]
  | seq p q ihp ihq => simp [nullable, language, ihp, ihq, Language.mem_mul]
  | alt p q ihp ihq => simp [nullable, language, ihp, ihq, Language.mem_add]
  | star p _ => simp [nullable, language, Language.nil_mem_kstar]

theorem cons_mem_mul {l m : Language α} {a : α} {w : List α} :
    a :: w ∈ l * m ↔ (∃ u v, a :: u ∈ l ∧ v ∈ m ∧ u ++ v = w) ∨ [] ∈ l ∧ a :: w ∈ m := by
  rw [Language.mem_mul]
  constructor
  · rintro ⟨u, hu, v, hv, huv⟩
    cases u with
    | nil => exact .inr ⟨hu, by simpa [← huv] using hv⟩
    | cons b u =>
      obtain ⟨rfl, rfl⟩ := List.cons.inj huv
      exact .inl ⟨u, v, hu, hv, rfl⟩
  · rintro (⟨u, v, hu, hv, rfl⟩ | ⟨hnil, hw⟩)
    · exact ⟨a :: u, hu, v, hv, rfl⟩
    · exact ⟨[], hnil, a :: w, hw, rfl⟩

theorem cons_mem_kstar {l : Language α} {a : α} {w : List α} :
    a :: w ∈ (KStar.kstar l : Language α) ↔
      ∃ u v, a :: u ∈ l ∧ v ∈ (KStar.kstar l : Language α) ∧ u ++ v = w := by
  constructor
  · intro h
    obtain ⟨words, hw, hwords⟩ := Language.mem_kstar_iff_exists_nonempty.mp h
    cases words with
    | nil => simp at hw
    | cons word words =>
      obtain ⟨hword, hne⟩ := hwords word (by simp)
      cases word with
      | nil => exact absurd rfl hne
      | cons b u =>
        obtain ⟨rfl, rfl⟩ := List.cons.inj hw
        exact ⟨u, words.flatten, hword,
          Language.join_mem_kstar fun y hy => (hwords y (by simp [hy])).1, rfl⟩
  · rintro ⟨u, v, hu, hv, rfl⟩
    obtain ⟨words, rfl, hwords⟩ := hv
    exact ⟨(a :: u) :: words, rfl, by simpa using ⟨hu, hwords⟩⟩

theorem mem_deriv (p : Pattern α) (a : α) (w : List α) :
    w ∈ (p.deriv a).language ↔ a :: w ∈ p.language := by
  induction p generalizing w with
  | never => simp [deriv, language, Language.notMem_zero]
  | empty => simp [deriv, language, Language.notMem_zero]
  | one p =>
    rw [mem_one]
    by_cases ha : p a = true
    · simp [deriv, ha, language]
    · simp [deriv, ha, language, Language.notMem_zero]
  | seq p q ihp ihq =>
    have hseq : w ∈ (Pattern.seq (p.deriv a) q).language ↔
        ∃ u v, a :: u ∈ p.language ∧ v ∈ q.language ∧ u ++ v = w := by
      simp only [language, Language.mem_mul, ihp]
      grind
    rw [language, cons_mem_mul, ← nullable_iff, ← ihq, ← hseq, deriv]
    by_cases hnull : p.nullable = true
    · simp [hnull, language, Language.mem_add]
    · simp [hnull]
  | alt p q ihp ihq => simp [deriv, language, Language.mem_add, ihp, ihq]
  | star p ih =>
    simp only [deriv, language, Language.mem_mul, ih, cons_mem_kstar]
    grind

theorem mem_seq_one {p : α → Bool} {q : Pattern α} {w : List α} :
    w ∈ (Pattern.seq (.one p) q).language ↔ ∃ a v, p a = true ∧ v ∈ q.language ∧ w = a :: v := by
  rw [language, Language.mem_mul]
  constructor
  · rintro ⟨u, ⟨a, ha, rfl⟩, v, hv, rfl⟩
    exact ⟨a, v, ha, hv, rfl⟩
  · rintro ⟨a, v, ha, hv, rfl⟩
    exact ⟨[a], ⟨a, ha, rfl⟩, v, hv, rfl⟩

theorem mem_star_one {p : α → Bool} {w : List α} :
    w ∈ (Pattern.star (.one p)).language ↔ ∀ a ∈ w, p a = true := by
  induction w with
  | nil => exact iff_of_true (Language.nil_mem_kstar _) (by simp)
  | cons a w ih =>
    rw [← mem_deriv, deriv, deriv]
    by_cases ha : p a = true
    · have hrest : w ∈ (Pattern.seq .empty (.star (.one p))).language ↔
          w ∈ (Pattern.star (.one p)).language := by
        rw [language, language, one_mul]
      rw [if_pos ha, hrest, ih]
      simp [ha]
    · simp [ha, language]

theorem mem_plus_one {p : α → Bool} {w : List α} :
    w ∈ (Pattern.one p).plus.language ↔ w ≠ [] ∧ ∀ a ∈ w, p a = true := by
  rw [plus, mem_seq_one]
  constructor
  · rintro ⟨a, v, ha, hv, rfl⟩
    exact ⟨by simp, by simpa [ha] using mem_star_one.mp hv⟩
  · rintro ⟨hne, hall⟩
    cases w with
    | nil => exact absurd rfl hne
    | cons a v =>
      rw [List.forall_mem_cons] at hall
      exact ⟨a, v, hall.1, mem_star_one.mpr hall.2, rfl⟩

/-- How many letters at the front of the text the longest match takes. -/
def longest : Pattern α → List α → Option Nat
  | p, [] => if p.nullable then some 0 else none
  | p, a :: text =>
    match (p.deriv a).longest text with
    | some n => some (n + 1)
    | none => if p.nullable then some 0 else none

theorem longest_some {p : Pattern α} {text : List α} {n : Nat} (h : p.longest text = some n) :
    n ≤ text.length ∧ text.take n ∈ p.language := by
  induction text generalizing p n with
  | nil =>
    simp only [longest, Option.ite_none_right_eq_some, Option.some.injEq] at h
    obtain ⟨hnull, rfl⟩ := h
    exact ⟨Nat.zero_le _, (nullable_iff p).mp hnull⟩
  | cons a text ih =>
    rw [longest] at h
    cases hrest : (p.deriv a).longest text with
    | some m =>
      rw [hrest] at h
      cases h
      obtain ⟨hle, hmem⟩ := ih hrest
      exact ⟨Nat.succ_le_succ hle, (mem_deriv p a _).mp hmem⟩
    | none =>
      simp only [hrest, Option.ite_none_right_eq_some, Option.some.injEq] at h
      obtain ⟨hnull, rfl⟩ := h
      exact ⟨Nat.zero_le _, (nullable_iff p).mp hnull⟩

/-- No match is longer than the one that is found, and there is one if there is any. -/
theorem longest_of_mem {p : Pattern α} {text w : List α} (hw : w <+: text)
    (hmem : w ∈ p.language) : ∃ n, p.longest text = some n ∧ w.length ≤ n := by
  induction text generalizing p w with
  | nil =>
    cases List.prefix_nil.mp hw
    exact ⟨0, by simp [longest, (nullable_iff p).mpr hmem], Nat.le_refl _⟩
  | cons a text ih =>
    rw [longest]
    cases w with
    | nil =>
      cases (p.deriv a).longest text with
      | some m => exact ⟨m + 1, rfl, Nat.zero_le _⟩
      | none => exact ⟨0, by simp [(nullable_iff p).mpr hmem], Nat.le_refl _⟩
    | cons b w =>
      obtain ⟨rfl, hrest⟩ := List.cons_prefix_cons.mp hw
      obtain ⟨n, hn, hle⟩ := ih hrest ((mem_deriv p b w).mpr hmem)
      exact ⟨n + 1, by rw [hn], Nat.succ_le_succ hle⟩

end Pattern

/-- A run of letters of a class does not go past the first letter outside it. -/
theorem length_le_of_class {p : α → Bool} {lexeme rest w : List α}
    (hrest : ∀ a ∈ rest.head?, p a = false) (hw : w <+: lexeme ++ rest)
    (hall : ∀ a ∈ w, p a = true) : w.length ≤ lexeme.length := by
  induction lexeme generalizing w with
  | nil =>
    cases w with
    | nil => simp
    | cons a w =>
      cases rest with
      | nil => simp at hw
      | cons b rest =>
        obtain ⟨rfl, -⟩ := List.cons_prefix_cons.mp hw
        have hin := hall a (by simp)
        have hout := hrest a (by simp)
        rw [hin] at hout
        cases hout
  | cons b lexeme ih =>
    cases w with
    | nil => simp
    | cons a w =>
      obtain ⟨rfl, hrestw⟩ := List.cons_prefix_cons.mp hw
      exact Nat.succ_le_succ (ih hrestw fun c hc => hall c (by simp [hc]))

end Patterns

section Rules

variable {α S T : Type}

/-- A rule: what it matches, the start condition it begins, and the token it returns for a
lexeme, if it returns one. -/
structure Rule (α S T : Type) where
  pattern : Pattern α
  begins : Option S
  token : List α → Option T

/-- Of the matching rules, the rule for the front of the text with its lexeme. -/
structure Chosen (rules : List (Rule α S T)) (text : List α) (rule : Rule α S T)
    (lexeme : List α) : Prop where
  nonempty : lexeme ≠ []
  taken : lexeme <+: text
  matched : lexeme ∈ rule.pattern.language
  longest : ∀ other ∈ rules, ∀ w, w <+: text → w ∈ other.pattern.language →
    w.length ≤ lexeme.length
  first : ∃ before after, rules = before ++ rule :: after ∧
    ∀ earlier ∈ before, lexeme ∉ earlier.pattern.language

theorem Chosen.mem {rules : List (Rule α S T)} {text lexeme : List α} {rule : Rule α S T}
    (h : Chosen rules text rule lexeme) : rule ∈ rules := by
  obtain ⟨before, after, rfl, -⟩ := h.first
  simp

/-- The rule with the longest match, and the length of this match.  A rule matches at least one
letter. -/
def munch : List (Rule α S T) → List α → Option (Rule α S T × Nat)
  | [], _ => none
  | rule :: rules, text =>
    match rule.pattern.longest text, munch rules text with
    | some (n + 1), some (other, m) => if m ≤ n + 1 then some (rule, n + 1) else some (other, m)
    | some (n + 1), none => some (rule, n + 1)
    | _, best => best

/-- What is chosen is at least as long as any match. -/
theorem munch_of_mem {rules : List (Rule α S T)} {rule : Rule α S T} (hrule : rule ∈ rules)
    {text w : List α} (hne : w ≠ []) (hw : w <+: text) (hmem : w ∈ rule.pattern.language) :
    ∃ best n, munch rules text = some (best, n) ∧ w.length ≤ n := by
  induction rules with
  | nil => simp at hrule
  | cons head rules ih =>
    rw [munch]
    have hpos : 0 < w.length := List.length_pos_iff.mpr hne
    rcases List.mem_cons.mp hrule with rfl | htail
    · obtain ⟨n, hn, hle⟩ := Pattern.longest_of_mem hw hmem
      cases n with
      | zero => omega
      | succ n =>
        cases hrest : munch rules text with
        | none => exact ⟨rule, n + 1, by rw [hn], hle⟩
        | some best =>
          obtain ⟨other, m⟩ := best
          by_cases hm : m ≤ n + 1
          · exact ⟨rule, n + 1, by simp [hn, hm], hle⟩
          · exact ⟨other, m, by simp [hn, hm], by omega⟩
    · obtain ⟨other, m, hm, hle⟩ := ih htail
      rw [hm]
      cases hn : head.pattern.longest text with
      | none => exact ⟨other, m, rfl, hle⟩
      | some n =>
        cases n with
        | zero => exact ⟨other, m, rfl, hle⟩
        | succ n =>
          by_cases hle' : m ≤ n + 1
          · exact ⟨head, n + 1, by simp [hle'], by omega⟩
          · exact ⟨other, m, by simp [hle'], hle⟩

/-- The rule is the first with a match of this length. -/
theorem munch_some {rules : List (Rule α S T)} {text : List α} {rule : Rule α S T} {n : Nat}
    (h : munch rules text = some (rule, n)) :
    0 < n ∧ n ≤ text.length ∧ text.take n ∈ rule.pattern.language ∧
      ∃ before after, rules = before ++ rule :: after ∧
        ∀ earlier ∈ before, text.take n ∉ earlier.pattern.language := by
  induction rules generalizing rule n with
  | nil => cases h
  | cons head rules ih =>
    -- the head does not match as far as a later rule that wins
    have later : ∀ {other m}, munch rules text = some (other, m) →
        (∀ k, head.pattern.longest text = some k → k < m) →
        0 < m ∧ m ≤ text.length ∧ text.take m ∈ other.pattern.language ∧
          ∃ before after, head :: rules = before ++ other :: after ∧
            ∀ earlier ∈ before, text.take m ∉ earlier.pattern.language := by
      intro other m hm hshort
      obtain ⟨hpos, hle, hmem, before, after, rfl, hfirst⟩ := ih hm
      refine ⟨hpos, hle, hmem, head :: before, after, rfl, ?_⟩
      intro earlier hearlier hmatch
      rcases List.mem_cons.mp hearlier with rfl | htail
      · obtain ⟨k, hk, hlek⟩ := Pattern.longest_of_mem (List.take_prefix m text) hmatch
        have hlt := hshort k hk
        rw [List.length_take_of_le hle] at hlek
        omega
      · exact hfirst earlier htail hmatch
    have this_one : ∀ {k}, head.pattern.longest text = some (k + 1) →
        0 < k + 1 ∧ k + 1 ≤ text.length ∧ text.take (k + 1) ∈ head.pattern.language ∧
          ∃ before after, head :: rules = before ++ head :: after ∧
            ∀ earlier ∈ before, text.take (k + 1) ∉ earlier.pattern.language := by
      intro k hk
      obtain ⟨hle, hmem⟩ := Pattern.longest_some hk
      exact ⟨Nat.succ_pos k, hle, hmem, [], rules, rfl, by simp⟩
    rw [munch] at h
    cases hhead : head.pattern.longest text with
    | none =>
      rw [hhead] at h
      exact later h (by simp [hhead])
    | some k =>
      cases k with
      | zero =>
        rw [hhead] at h
        refine later h fun k hk => ?_
        have hpos := (ih h).1
        rw [hhead] at hk
        cases hk
        exact hpos
      | succ k =>
        cases hrest : munch rules text with
        | none =>
          rw [hhead, hrest] at h
          cases h
          exact this_one hhead
        | some best =>
          obtain ⟨other, m⟩ := best
          simp only [hhead, hrest] at h
          by_cases hm : m ≤ k + 1
          · rw [if_pos hm] at h
            cases h
            exact this_one hhead
          · rw [if_neg hm] at h
            cases h
            refine later hrest fun j hj => ?_
            rw [hhead] at hj
            cases hj
            omega

theorem chosen_of_munch {rules : List (Rule α S T)} {text : List α} {rule : Rule α S T} {n : Nat}
    (h : munch rules text = some (rule, n)) : Chosen rules text rule (text.take n) := by
  obtain ⟨hpos, hle, hmem, hfirst⟩ := munch_some h
  refine ⟨?_, List.take_prefix n text, hmem, ?_, hfirst⟩
  · intro hnil
    have hlen := congrArg List.length hnil
    rw [List.length_take_of_le hle, List.length_nil] at hlen
    omega
  · intro other hother w hw hwmem
    cases w with
    | nil => simp
    | cons a w =>
      obtain ⟨best, m, hm, hlen⟩ := munch_of_mem hother (by simp) hw hwmem
      rw [h] at hm
      cases hm
      rwa [List.length_take_of_le hle]

/-- The chosen lexeme, and the text after it. -/
theorem chosen_split {rules : List (Rule α S T)} {text : List α} {best : Rule α S T × Nat}
    (h : munch rules text = some best) :
    ∃ rule lexeme rest, text = lexeme ++ rest ∧ Chosen rules (lexeme ++ rest) rule lexeme := by
  obtain ⟨rule, n⟩ := best
  have hsplit := List.take_append_drop n text
  exact ⟨rule, text.take n, text.drop n, hsplit.symm, hsplit.symm ▸ chosen_of_munch h⟩

theorem Chosen.munch {rules : List (Rule α S T)} {text : List α} {rule : Rule α S T}
    {lexeme : List α} (h : Chosen rules text rule lexeme) :
    Lib.munch rules text = some (rule, lexeme.length) := by
  obtain ⟨before, after, rfl, hfirst⟩ := h.first
  have hrule : rule ∈ before ++ rule :: after := by simp
  obtain ⟨best, n, hn, hle⟩ := munch_of_mem hrule h.nonempty h.taken h.matched
  obtain ⟨hpos, hlen, hmem, before', after', hsplit, hfirst'⟩ := munch_some hn
  have hbest : best ∈ before ++ rule :: after := by simp [hsplit]
  have hle' := h.longest best hbest _ (List.take_prefix n text) hmem
  rw [List.length_take_of_le hlen] at hle'
  have heq : n = lexeme.length := Nat.le_antisymm hle' hle
  subst heq
  have htake : text.take lexeme.length = lexeme := (List.prefix_iff_eq_take.mp h.taken).symm
  rw [htake] at hmem hfirst'
  -- neither rule stands before the other one
  rcases List.append_eq_append_iff.mp hsplit with ⟨gap, hbefore, hafter⟩ | ⟨gap, hbefore, hafter⟩
  · cases gap with
    | nil =>
      cases hafter
      exact hn
    | cons x gap =>
      cases hafter
      exact absurd h.matched (hfirst' rule (by simp [hbefore]))
  · cases gap with
    | nil =>
      cases hafter
      exact hn
    | cons x gap =>
      cases hafter
      exact absurd hmem (hfirst best (by simp [hbefore]))

end Rules

section Lexers

variable {α S T : Type}

/-- The rules that are active under each start condition. -/
structure Lexer (α S T : Type) where
  rules : S → List (Rule α S T)

/-- A token as it is returned, and what the scanner goes on with. -/
structure Returned (α S T : Type) where
  token : T
  start : S
  rest : List α

/-- What the action of a rule returns, with the text after the lexeme. -/
def Rule.returned (rule : Rule α S T) (start : S) (lexeme rest : List α) :
    List (Returned α S T) :=
  ((rule.token lexeme).map fun token => ⟨token, rule.begins.getD start, rest⟩).toList

namespace Lexer

/-- The tokens of a text of which `skip` letters belong to a lexeme already taken.  A letter that
no rule takes is passed over. -/
def scanFrom (lexer : Lexer α S T) : (skip : Nat) → S → List α → List (Returned α S T)
  | _, _, [] => []
  | skip + 1, start, _ :: text => lexer.scanFrom skip start text
  | 0, start, a :: text =>
    match munch (lexer.rules start) (a :: text) with
    | none => lexer.scanFrom 0 start text
    | some (rule, n) =>
      rule.returned start ((a :: text).take n) ((a :: text).drop n) ++
        lexer.scanFrom (n - 1) (rule.begins.getD start) text

def scan (lexer : Lexer α S T) (start : S) (text : List α) : List (Returned α S T) :=
  lexer.scanFrom 0 start text

/-- The text is cut into lexemes, each with the rule that is chosen for it. -/
inductive Reads (lexer : Lexer α S T) : S → List α → List (Returned α S T) → Prop
  | done (start : S) : Reads lexer start [] []
  | lexeme {start : S} {rule : Rule α S T} {lexeme rest : List α}
      {later : List (Returned α S T)}
      (chosen : Chosen (lexer.rules start) (lexeme ++ rest) rule lexeme)
      (reads : Reads lexer (rule.begins.getD start) rest later) :
      Reads lexer start (lexeme ++ rest) (rule.returned start lexeme rest ++ later)
  | passed {start : S} {a : α} {rest : List α} {later : List (Returned α S T)}
      (nothing : ∀ rule lexeme, ¬Chosen (lexer.rules start) (a :: rest) rule lexeme)
      (reads : Reads lexer start rest later) : Reads lexer start (a :: rest) later

variable {lexer : Lexer α S T}

theorem scanFrom_eq (skip : Nat) (start : S) (text : List α) :
    lexer.scanFrom skip start text = lexer.scan start (text.drop skip) := by
  induction text generalizing skip with
  | nil => cases skip <;> simp [scan, scanFrom]
  | cons a text ih =>
    cases skip with
    | zero => rfl
    | succ skip => rw [scanFrom, ih, List.drop_succ_cons]

@[simp] theorem scan_nil (start : S) : lexer.scan start [] = [] := rfl

theorem scan_chosen {start : S} {rule : Rule α S T} {lexeme rest : List α}
    (h : Chosen (lexer.rules start) (lexeme ++ rest) rule lexeme) :
    lexer.scan start (lexeme ++ rest) =
      rule.returned start lexeme rest ++ lexer.scan (rule.begins.getD start) rest := by
  have hmunch := h.munch
  cases lexeme with
  | nil => exact absurd rfl h.nonempty
  | cons a lexeme =>
    rw [List.cons_append] at hmunch ⊢
    rw [scan, scanFrom, hmunch]
    simp [scanFrom_eq]

theorem scan_passed {start : S} {a : α} {rest : List α}
    (h : munch (lexer.rules start) (a :: rest) = none) :
    lexer.scan start (a :: rest) = lexer.scan start rest := by
  rw [scan, scanFrom, h]
  rfl

theorem Reads.scan_eq {start : S} {text : List α} {tokens : List (Returned α S T)}
    (h : lexer.Reads start text tokens) : lexer.scan start text = tokens := by
  induction h with
  | done => rfl
  | lexeme chosen _ ih => rw [scan_chosen chosen, ih]
  | @passed start a rest _ nothing _ ih =>
    rw [scan_passed, ih]
    cases hmunch : munch (lexer.rules start) (a :: rest) with
    | none => rfl
    | some best => exact absurd (chosen_of_munch (n := best.2) hmunch) (nothing _ _)

/-- The scanner's result is the only one that the rules allow. -/
theorem reads_iff (start : S) (text : List α) (tokens : List (Returned α S T)) :
    lexer.Reads start text tokens ↔ lexer.scan start text = tokens := by
  refine ⟨Reads.scan_eq, ?_⟩
  rintro rfl
  induction hlen : text.length using Nat.strong_induction_on generalizing start text with
  | _ length ih =>
    subst hlen
    cases text with
    | nil => exact .done start
    | cons a text =>
      cases hmunch : munch (lexer.rules start) (a :: text) with
      | none =>
        rw [scan_passed hmunch]
        refine .passed (fun rule lexeme h => ?_) (ih _ (by simp) _ _ rfl)
        have hsome := h.munch
        rw [hmunch] at hsome
        cases hsome
      | some best =>
        obtain ⟨rule, lexeme, rest, htext, chosen⟩ := chosen_split hmunch
        have hpos := List.length_pos_iff.mpr chosen.nonempty
        rw [htext, scan_chosen chosen]
        refine .lexeme chosen (ih _ ?_ _ _ rfl)
        rw [htext, List.length_append]
        omega

end Lexer

end Lexers

end MidnightOS.Lib
