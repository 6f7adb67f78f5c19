import MidnightOS.Lib.Scanning
import Mathlib.Data.String.Basic

/-! # The scanner (`mbuild/lexer.l`)

The rules in their order, with the lexemes that each of them wins.  The entries of a
list have a start condition of their own, which knows no comments.
-/

namespace MidnightOS.Mbuild

open MidnightOS.Lib

inductive Start where
  | initial
  | list
deriving DecidableEq

inductive Token where
  | ident (sval : String)
  | listIdent (sval : String)
  | op (sval : String)
  | lparen
  | rparen
  | comma
  | semicolon
deriving DecidableEq

/-! ## The classes -/

/-- `.` -/
def isAny (c : Char) : Bool := c ≠ '\n'

/-- `[ \t\r\n]` -/
def isBlank (c : Char) : Bool := c = ' ' ∨ c = '\t' ∨ c = '\r' ∨ c = '\n'

/-- `[a-zA-Z0-9_\-]` -/
def isIdentChar (c : Char) : Bool := c.isAlphanum ∨ c = '_' ∨ c = '-'

/-- `[a-zA-Z0-9_\.\/\-]` -/
def isListChar (c : Char) : Bool := c.isAlphanum ∨ c = '_' ∨ c = '.' ∨ c = '/' ∨ c = '-'

/-! ## The rules -/

abbrev ScanRule := Rule Char Start Token

def letter (c : Char) : Pattern Char := .one (· = c)

/-- A rule whose action returns nothing. -/
def ignoring (pattern : Pattern Char) : ScanRule := ⟨pattern, none, fun _ => none⟩

/-- A rule for the character, which is its own token. -/
def single (c : Char) (begins : Option Start) (token : Token) : ScanRule :=
  ⟨letter c, begins, fun _ => some token⟩

/-- A rule whose token has the lexeme. -/
def word (pattern : Pattern Char) (token : String → Token) : ScanRule :=
  ⟨pattern, none, fun yytext => some (token (String.ofList yytext))⟩

def commentRule : ScanRule := ignoring (.seq (letter '#') (.star (.one isAny)))
def blankRule : ScanRule := ignoring (.one isBlank)
def opRule : ScanRule := word (.seq (letter '.') (.plus (.one Char.isLower))) .op
def lparenRule : ScanRule := single '(' (some .list) .lparen
def semicolonRule : ScanRule := single ';' none .semicolon
def identRule : ScanRule := word (.plus (.one isIdentChar)) .ident
/-- `Unexpected token` -/
def unexpectedRule : ScanRule := ignoring (.one isAny)
def newlineRule : ScanRule := ignoring (letter '\n')
def rparenRule : ScanRule := single ')' (some .initial) .rparen
def commaRule : ScanRule := single ',' none .comma
def listIdentRule : ScanRule := word (.plus (.one isListChar)) .listIdent

def lexer : Lexer Char Start Token where
  rules
    | .initial =>
      [commentRule, blankRule, opRule, lparenRule, semicolonRule, identRule, unexpectedRule]
    | .list => [newlineRule, blankRule, rparenRule, commaRule, listIdentRule, unexpectedRule]

/-- What `yylex` returns, call after call. -/
def yylex (start : Start) (text : List Char) : List (Returned Char Start Token) :=
  lexer.scan start text

/-- The text is cut into lexemes, and each is what the rules choose: no character is left to the
default rule. -/
inductive Cut : Start → List Char → List (Returned Char Start Token) → Prop
  | done (start : Start) : Cut start [] []
  | lexeme {start : Start} {rule : ScanRule} {yytext rest : List Char}
      {later : List (Returned Char Start Token)}
      (chosen : Chosen (lexer.rules start) (yytext ++ rest) rule yytext)
      (cut : Cut (rule.begins.getD start) rest later) :
      Cut start (yytext ++ rest) (rule.returned start yytext rest ++ later)

/-! ## What the rules match -/

theorem mem_letter {c : Char} {w : List Char} : w ∈ (letter c).language ↔ w = [c] := by
  simp [letter, Pattern.mem_one]

@[simp] theorem mem_comment {w : List Char} :
    w ∈ commentRule.pattern.language ↔ ∃ v, w = '#' :: v ∧ ∀ a ∈ v, isAny a = true := by
  simp only [commentRule, ignoring, letter, Pattern.mem_seq_one, Pattern.mem_star_one,
    decide_eq_true_eq]
  grind

@[simp] theorem mem_op {w : List Char} :
    w ∈ opRule.pattern.language ↔ ∃ v, w = '.' :: v ∧ v ≠ [] ∧ ∀ a ∈ v, a.isLower = true := by
  simp only [opRule, word, letter, Pattern.mem_seq_one, Pattern.mem_plus_one, decide_eq_true_eq]
  grind

@[simp] theorem mem_blank {w : List Char} :
    w ∈ blankRule.pattern.language ↔ ∃ a, isBlank a = true ∧ w = [a] := Pattern.mem_one

@[simp] theorem mem_lparen {w : List Char} : w ∈ lparenRule.pattern.language ↔ w = ['('] :=
  mem_letter

@[simp] theorem mem_semicolon {w : List Char} : w ∈ semicolonRule.pattern.language ↔ w = [';'] :=
  mem_letter

@[simp] theorem mem_ident {w : List Char} :
    w ∈ identRule.pattern.language ↔ w ≠ [] ∧ ∀ a ∈ w, isIdentChar a = true :=
  Pattern.mem_plus_one

@[simp] theorem mem_unexpected {w : List Char} :
    w ∈ unexpectedRule.pattern.language ↔ ∃ a, isAny a = true ∧ w = [a] := Pattern.mem_one

@[simp] theorem mem_newline {w : List Char} : w ∈ newlineRule.pattern.language ↔ w = ['\n'] :=
  mem_letter

@[simp] theorem mem_rparen {w : List Char} : w ∈ rparenRule.pattern.language ↔ w = [')'] :=
  mem_letter

@[simp] theorem mem_comma {w : List Char} : w ∈ commaRule.pattern.language ↔ w = [','] :=
  mem_letter

@[simp] theorem mem_listIdent {w : List Char} :
    w ∈ listIdentRule.pattern.language ↔ w ≠ [] ∧ ∀ a ∈ w, isListChar a = true :=
  Pattern.mem_plus_one

/-! ## Which rule wins -/

section Winners

variable {rest : List Char}

/-- Every character is taken by some rule. -/
theorem lexer_total (start : Start) (c : Char) (text : List Char) :
    ∃ best, munch (lexer.rules start) (c :: text) = some best := by
  have hone : [c] <+: c :: text := ⟨text, rfl⟩
  by_cases hnewline : c = '\n'
  · have hblank : [c] ∈ blankRule.pattern.language :=
      mem_blank.mpr ⟨c, by simp [isBlank, hnewline], rfl⟩
    have hrule : blankRule ∈ lexer.rules start := by cases start <;> simp [lexer]
    obtain ⟨best, n, h, -⟩ := munch_of_mem hrule (by simp) hone hblank
    exact ⟨_, h⟩
  · have hany : [c] ∈ unexpectedRule.pattern.language :=
      mem_unexpected.mpr ⟨c, by simp [isAny, hnewline], rfl⟩
    have hrule : unexpectedRule ∈ lexer.rules start := by cases start <;> simp [lexer]
    obtain ⟨best, n, h, -⟩ := munch_of_mem hrule (by simp) hone hany
    exact ⟨_, h⟩

theorem cut_iff (start : Start) (text : List Char) (tokens : List (Returned Char Start Token)) :
    Cut start text tokens ↔ yylex start text = tokens := by
  rw [yylex, ← Lexer.reads_iff]
  constructor
  · intro h
    induction h with
    | done start => exact .done start
    | lexeme chosen _ ih => exact .lexeme chosen ih
  · intro h
    induction h with
    | done start => exact .done start
    | lexeme chosen _ ih => exact .lexeme chosen ih
    | @passed start c rest _ nothing _ _ =>
      obtain ⟨best, h⟩ := lexer_total start c rest
      exact absurd (chosen_of_munch (n := best.2) h) (nothing _ _)

/-- What the rules outside a list can take of a text. -/
theorem initial_takes {rule : ScanRule} (hrule : rule ∈ lexer.rules .initial) {c : Char}
    {text w : List Char} (hw : w <+: c :: text) (h : w ∈ rule.pattern.language) :
    w = [c] ∨ (c = '#' ∧ ∀ a ∈ w, isAny a = true) ∨
      (c = '.' ∧ ∃ v, w = '.' :: v ∧ ∀ a ∈ v, a.isLower = true) ∨ ∀ a ∈ w, isIdentChar a = true := by
  have hhead : ∀ a v, w = a :: v → a = c := by
    rintro a v rfl
    exact (List.cons_prefix_cons.mp hw).1
  simp only [lexer, List.mem_cons, List.not_mem_nil, or_false] at hrule
  rcases hrule with rfl | rfl | rfl | rfl | rfl | rfl | rfl
  · obtain ⟨v, rfl, hall⟩ := mem_comment.mp h
    exact .inr (.inl ⟨(hhead _ _ rfl).symm, List.forall_mem_cons.mpr ⟨rfl, hall⟩⟩)
  · obtain ⟨a, -, rfl⟩ := mem_blank.mp h
    exact .inl (by rw [hhead a [] rfl])
  · obtain ⟨v, rfl, -, hall⟩ := mem_op.mp h
    exact .inr (.inr (.inl ⟨(hhead _ _ rfl).symm, v, rfl, hall⟩))
  · obtain rfl := mem_lparen.mp h
    exact .inl (by rw [hhead _ [] rfl])
  · obtain rfl := mem_semicolon.mp h
    exact .inl (by rw [hhead _ [] rfl])
  · exact .inr (.inr (.inr (mem_ident.mp h).2))
  · obtain ⟨a, -, rfl⟩ := mem_unexpected.mp h
    exact .inl (by rw [hhead a [] rfl])

/-- What the rules inside a list can take of a text. -/
theorem list_takes {rule : ScanRule} (hrule : rule ∈ lexer.rules .list) {c : Char}
    {text w : List Char} (hw : w <+: c :: text) (h : w ∈ rule.pattern.language) :
    w = [c] ∨ ∀ a ∈ w, isListChar a = true := by
  have hhead : ∀ a v, w = a :: v → a = c := by
    rintro a v rfl
    exact (List.cons_prefix_cons.mp hw).1
  simp only [lexer, List.mem_cons, List.not_mem_nil, or_false] at hrule
  rcases hrule with rfl | rfl | rfl | rfl | rfl | rfl
  · obtain rfl := mem_newline.mp h
    exact .inl (by rw [hhead _ [] rfl])
  · obtain ⟨a, -, rfl⟩ := mem_blank.mp h
    exact .inl (by rw [hhead a [] rfl])
  · obtain rfl := mem_rparen.mp h
    exact .inl (by rw [hhead _ [] rfl])
  · obtain rfl := mem_comma.mp h
    exact .inl (by rw [hhead _ [] rfl])
  · exact .inr (mem_listIdent.mp h).2
  · obtain ⟨a, -, rfl⟩ := mem_unexpected.mp h
    exact .inl (by rw [hhead a [] rfl])

/-- A character outside the class stops it at once. -/
theorem length_of_outside {p : Char → Bool} {c : Char} {text w : List Char} (hc : p c = false)
    (hw : w <+: c :: text) (hall : ∀ a ∈ w, p a = true) : w.length ≤ 0 :=
  length_le_of_class (by simpa using hc) (show w <+: [] ++ c :: text from hw) hall

/-- Outside a list, a character that starts no comment, operation or word stands alone. -/
theorem initial_single {c : Char} (hcomment : c ≠ '#') (hident : isIdentChar c = false)
    (hop : c = '.' → ∀ a ∈ rest.head?, a.isLower = false) {rule : ScanRule}
    (hrule : rule ∈ lexer.rules .initial) {w : List Char} (hw : w <+: c :: rest)
    (h : w ∈ rule.pattern.language) : w.length ≤ 1 := by
  rcases initial_takes hrule hw h with rfl | ⟨hc, -⟩ | ⟨hc, v, rfl, hall⟩ | hall
  · exact Nat.le_refl 1
  · exact absurd hc hcomment
  · have hv : v <+: [] ++ rest := (List.cons_prefix_cons.mp hw).2
    exact Nat.succ_le_succ (length_le_of_class (hop hc) hv hall)
  · exact (length_of_outside hident hw hall).trans (Nat.zero_le 1)

theorem list_single {c : Char} (hchar : isListChar c = false) {rule : ScanRule}
    (hrule : rule ∈ lexer.rules .list) {w : List Char} (hw : w <+: c :: rest)
    (h : w ∈ rule.pattern.language) : w.length ≤ 1 := by
  rcases list_takes hrule hw h with rfl | hall
  · exact Nat.le_refl 1
  · exact (length_of_outside hchar hw hall).trans (Nat.zero_le 1)

theorem comment_chosen {body : List Char} (hbody : ∀ a ∈ body, a ≠ '\n')
    (hrest : ∀ a ∈ rest.head?, a = '\n') :
    Chosen (lexer.rules .initial) ('#' :: body ++ rest) commentRule ('#' :: body) where
  nonempty := by simp
  taken := List.prefix_append _ _
  matched := mem_comment.mpr ⟨body, rfl, fun a ha => by simp [isAny, hbody a ha]⟩
  longest := by
    intro other hother w hw h
    rcases initial_takes hother hw h with rfl | ⟨-, hall⟩ | ⟨hdot, -⟩ | hall
    · simp
    · exact length_le_of_class (fun a ha => by simp [isAny, hrest a ha]) hw hall
    · cases hdot
    · exact (length_of_outside rfl hw hall).trans (Nat.zero_le _)
  first := ⟨[], _, rfl, by simp⟩

theorem blank_chosen {c : Char} (hc : isBlank c = true) :
    Chosen (lexer.rules .initial) ([c] ++ rest) blankRule [c] where
  nonempty := by simp
  taken := List.prefix_append _ _
  matched := mem_blank.mpr ⟨c, hc, rfl⟩
  longest := by
    intro other hother w hw h
    simp only [isBlank, decide_eq_true_eq] at hc
    rcases hc with rfl | rfl | rfl | rfl <;>
      exact initial_single (by decide) (by decide) (by simp) hother hw h
  first := by
    refine ⟨[commentRule], _, rfl, ?_⟩
    rintro earlier hearlier
    have hne : c ≠ '#' := by
      rintro rfl
      cases hc
    simp_all

theorem op_chosen {w : List Char} (hne : w ≠ []) (hw : ∀ a ∈ w, a.isLower = true)
    (hrest : ∀ a ∈ rest.head?, a.isLower = false) :
    Chosen (lexer.rules .initial) ('.' :: w ++ rest) opRule ('.' :: w) where
  nonempty := by simp
  taken := List.prefix_append _ _
  matched := mem_op.mpr ⟨w, rfl, hne, hw⟩
  longest := by
    intro other hother v hv h
    rcases initial_takes hother hv h with rfl | ⟨hc, -⟩ | ⟨-, u, rfl, hall⟩ | hall
    · simp
    · cases hc
    · exact Nat.succ_le_succ
        (length_le_of_class hrest (List.cons_prefix_cons.mp hv).2 hall)
    · exact (length_of_outside rfl hv hall).trans (Nat.zero_le _)
  first := ⟨[commentRule, blankRule], _, rfl, by simp [isBlank, hne]⟩

theorem lparen_chosen : Chosen (lexer.rules .initial) (['('] ++ rest) lparenRule ['('] where
  nonempty := by simp
  taken := List.prefix_append _ _
  matched := mem_lparen.mpr rfl
  longest _ hother _ hw h := initial_single (by decide) (by decide) (by simp) hother hw h
  first := ⟨[commentRule, blankRule, opRule], _, rfl, by simp [isBlank]⟩

theorem semicolon_chosen :
    Chosen (lexer.rules .initial) ([';'] ++ rest) semicolonRule [';'] where
  nonempty := by simp
  taken := List.prefix_append _ _
  matched := mem_semicolon.mpr rfl
  longest _ hother _ hw h := initial_single (by decide) (by decide) (by simp) hother hw h
  first := ⟨[commentRule, blankRule, opRule, lparenRule], _, rfl, by simp [isBlank]⟩

theorem ident_chosen {w : List Char} (hne : w ≠ []) (hw : ∀ a ∈ w, isIdentChar a = true)
    (hrest : ∀ a ∈ rest.head?, isIdentChar a = false) :
    Chosen (lexer.rules .initial) (w ++ rest) identRule w where
  nonempty := hne
  taken := List.prefix_append _ _
  matched := mem_ident.mpr ⟨hne, hw⟩
  longest := by
    intro other hother v hv h
    obtain ⟨c, u, rfl⟩ := List.exists_cons_of_ne_nil hne
    have hc := hw c (by simp)
    rcases initial_takes hother hv h with rfl | ⟨rfl, -⟩ | ⟨rfl, -⟩ | hall
    · simp
    · cases hc
    · cases hc
    · exact length_le_of_class hrest hv hall
  first := by
    refine ⟨[commentRule, blankRule, opRule, lparenRule, semicolonRule], _, rfl, ?_⟩
    obtain ⟨c, u, rfl⟩ := List.exists_cons_of_ne_nil hne
    have hc := hw c (by simp)
    have hother : ∀ d, isIdentChar d = false → c ≠ d := by
      rintro d hd rfl
      rw [hc] at hd
      cases hd
    simp [isBlank, hother '#' rfl, hother ' ' rfl, hother '\t' rfl, hother '\r' rfl,
      hother '\n' rfl, hother '.' rfl, hother '(' rfl, hother ';' rfl]

/-- A character that no other rule takes. -/
theorem unexpected_chosen {c : Char} (hcomment : c ≠ '#') (hblank : isBlank c = false)
    (hlparen : c ≠ '(') (hsemicolon : c ≠ ';') (hident : isIdentChar c = false)
    (hop : c = '.' → ∀ a ∈ rest.head?, a.isLower = false) :
    Chosen (lexer.rules .initial) ([c] ++ rest) unexpectedRule [c] where
  nonempty := by simp
  taken := List.prefix_append _ _
  matched := by
    refine mem_unexpected.mpr ⟨c, ?_, rfl⟩
    rw [isAny, decide_eq_true_eq]
    rintro rfl
    cases hblank
  longest _ hother _ hw h := initial_single hcomment hident hop hother hw h
  first := by
    refine ⟨[commentRule, blankRule, opRule, lparenRule, semicolonRule, identRule], [], rfl, ?_⟩
    simp [hcomment, hblank, hlparen, hsemicolon, hident]

theorem listBlank_chosen (rest : List Char) {c : Char} (hc : isBlank c = true) :
    ∃ rule, Chosen (lexer.rules .list) ([c] ++ rest) rule [c] ∧
      rule.returned .list [c] rest = [] ∧ rule.begins = none := by
  have hsingle : ∀ other ∈ lexer.rules .list, ∀ w, w <+: [c] ++ rest →
      w ∈ other.pattern.language → w.length ≤ 1 := by
    intro other hother w hw h
    simp only [isBlank, decide_eq_true_eq] at hc
    rcases hc with rfl | rfl | rfl | rfl <;> exact list_single (by decide) hother hw h
  by_cases hnewline : c = '\n'
  · subst hnewline
    exact ⟨newlineRule, ⟨by simp, List.prefix_append _ _, mem_newline.mpr rfl, hsingle,
      [], _, rfl, by simp⟩, rfl, rfl⟩
  · exact ⟨blankRule, ⟨by simp, List.prefix_append _ _, mem_blank.mpr ⟨c, hc, rfl⟩, hsingle,
      [newlineRule], _, rfl, by simp [hnewline]⟩, rfl, rfl⟩

theorem rparen_chosen : Chosen (lexer.rules .list) ([')'] ++ rest) rparenRule [')'] where
  nonempty := by simp
  taken := List.prefix_append _ _
  matched := mem_rparen.mpr rfl
  longest _ hother _ hw h := list_single (by decide) hother hw h
  first := ⟨[newlineRule, blankRule], _, rfl, by simp [isBlank]⟩

theorem comma_chosen : Chosen (lexer.rules .list) ([','] ++ rest) commaRule [','] where
  nonempty := by simp
  taken := List.prefix_append _ _
  matched := mem_comma.mpr rfl
  longest _ hother _ hw h := list_single (by decide) hother hw h
  first := ⟨[newlineRule, blankRule, rparenRule], _, rfl, by simp [isBlank]⟩

theorem listIdent_chosen {w : List Char} (hne : w ≠ []) (hw : ∀ a ∈ w, isListChar a = true)
    (hrest : ∀ a ∈ rest.head?, isListChar a = false) :
    Chosen (lexer.rules .list) (w ++ rest) listIdentRule w where
  nonempty := hne
  taken := List.prefix_append _ _
  matched := mem_listIdent.mpr ⟨hne, hw⟩
  longest := by
    intro other hother v hv h
    obtain ⟨c, u, rfl⟩ := List.exists_cons_of_ne_nil hne
    rcases list_takes hother hv h with rfl | hall
    · simp
    · exact length_le_of_class hrest hv hall
  first := by
    refine ⟨[newlineRule, blankRule, rparenRule, commaRule], _, rfl, ?_⟩
    obtain ⟨c, u, rfl⟩ := List.exists_cons_of_ne_nil hne
    have hc := hw c (by simp)
    have hother : ∀ d, isListChar d = false → c ≠ d := by
      rintro d hd rfl
      rw [hc] at hd
      cases hd
    simp [isBlank, hother ' ' rfl, hother '\t' rfl, hother '\r' rfl, hother '\n' rfl,
      hother ')' rfl, hother ',' rfl]

theorem listUnexpected_chosen {c : Char} (hblank : isBlank c = false)
    (hchar : isListChar c = false) (hrparen : c ≠ ')') (hcomma : c ≠ ',') :
    Chosen (lexer.rules .list) ([c] ++ rest) unexpectedRule [c] where
  nonempty := by simp
  taken := List.prefix_append _ _
  matched := by
    refine mem_unexpected.mpr ⟨c, ?_, rfl⟩
    rw [isAny, decide_eq_true_eq]
    rintro rfl
    cases hblank
  longest _ hother _ hw h := list_single hchar hother hw h
  first := by
    refine ⟨[newlineRule, blankRule, rparenRule, commaRule, listIdentRule], [], rfl, ?_⟩
    have hnewline : c ≠ '\n' := by
      rintro rfl
      cases hblank
    simp [hnewline, hblank, hchar, hrparen, hcomma]

/-! ## One call after the other -/

theorem yylex_comment {body : List Char} (hbody : ∀ a ∈ body, a ≠ '\n')
    (hrest : ∀ a ∈ rest.head?, a = '\n') :
    yylex .initial ('#' :: body ++ rest) = yylex .initial rest :=
  Lexer.scan_chosen (comment_chosen hbody hrest)

theorem yylex_blank {start : Start} {c : Char} (hc : isBlank c = true) :
    yylex start (c :: rest) = yylex start rest := by
  cases start with
  | initial => exact Lexer.scan_chosen (blank_chosen hc)
  | list =>
    obtain ⟨rule, chosen, hreturned, hbegins⟩ := listBlank_chosen rest hc
    have h := Lexer.scan_chosen chosen
    rwa [hreturned, hbegins] at h

theorem yylex_op {w : List Char} (hne : w ≠ []) (hw : ∀ a ∈ w, a.isLower = true)
    (hrest : ∀ a ∈ rest.head?, a.isLower = false) :
    yylex .initial ('.' :: w ++ rest) =
      ⟨.op (String.ofList ('.' :: w)), .initial, rest⟩ :: yylex .initial rest :=
  Lexer.scan_chosen (op_chosen hne hw hrest)

theorem yylex_lparen : yylex .initial ('(' :: rest) = ⟨.lparen, .list, rest⟩ :: yylex .list rest :=
  Lexer.scan_chosen lparen_chosen

theorem yylex_semicolon :
    yylex .initial (';' :: rest) = ⟨.semicolon, .initial, rest⟩ :: yylex .initial rest :=
  Lexer.scan_chosen semicolon_chosen

theorem yylex_ident {w : List Char} (hne : w ≠ []) (hw : ∀ a ∈ w, isIdentChar a = true)
    (hrest : ∀ a ∈ rest.head?, isIdentChar a = false) :
    yylex .initial (w ++ rest) =
      ⟨.ident (String.ofList w), .initial, rest⟩ :: yylex .initial rest :=
  Lexer.scan_chosen (ident_chosen hne hw hrest)

theorem yylex_rparen :
    yylex .list (')' :: rest) = ⟨.rparen, .initial, rest⟩ :: yylex .initial rest :=
  Lexer.scan_chosen rparen_chosen

theorem yylex_comma : yylex .list (',' :: rest) = ⟨.comma, .list, rest⟩ :: yylex .list rest :=
  Lexer.scan_chosen comma_chosen

theorem yylex_listIdent {w : List Char} (hne : w ≠ []) (hw : ∀ a ∈ w, isListChar a = true)
    (hrest : ∀ a ∈ rest.head?, isListChar a = false) :
    yylex .list (w ++ rest) =
      ⟨.listIdent (String.ofList w), .list, rest⟩ :: yylex .list rest :=
  Lexer.scan_chosen (listIdent_chosen hne hw hrest)

end Winners

end MidnightOS.Mbuild
