import MidnightOS.Mbuild.Parsing

/-! # Files as they are written

Between its words a file may hold blanks, comments and characters that the scanner
does not know; in a list there are no comments.  However statements are laid out, they
are read back, and every statement that is read can be written.
-/

namespace MidnightOS.Mbuild

open MidnightOS.Lib

/-! ## Words -/

def IsWord (p : Char → Bool) (w : List Char) : Prop := w ≠ [] ∧ ∀ c ∈ w, p c = true

def Token.WellFormed : Token → Prop
  | .ident sval => IsWord isIdentChar sval.toList
  | .listIdent sval => IsWord isListChar sval.toList
  | .op sval => ∃ w, sval.toList = '.' :: w ∧ IsWord Char.isLower w
  | _ => True

/-- The words of the statement are words of the scanner. -/
structure Statement.WellFormed (stmt : Statement) : Prop where
  ident : IsWord isIdentChar stmt.ident.toList
  op : ∀ sval ∈ stmt.op, ∃ w, sval.toList = '.' :: w ∧ IsWord Char.isLower w
  list : ∀ value ∈ stmt.list, IsWord isListChar value.toList
  qualifiers : ∀ value ∈ stmt.qualifiers, IsWord isIdentChar value.toList

/-- The lexeme of a rule is a word of its kind. -/
theorem rule_wellFormed {start : Start} {rule : ScanRule} (hrule : rule ∈ lexer.rules start)
    {yytext : List Char} (hmatch : yytext ∈ rule.pattern.language) {t : Token}
    (ht : rule.token yytext = some t) : t.WellFormed := by
  cases start with
  | initial =>
    simp only [lexer, List.mem_cons, List.not_mem_nil, or_false] at hrule
    rcases hrule with rfl | rfl | rfl | rfl | rfl | rfl | rfl
    · cases ht
    · cases ht
    · cases ht
      obtain ⟨w, rfl, hne, hall⟩ := mem_op.mp hmatch
      exact ⟨w, by simp, hne, hall⟩
    · cases ht
      trivial
    · cases ht
      trivial
    · cases ht
      rw [mem_ident] at hmatch
      simpa [Token.WellFormed, IsWord] using hmatch
    · cases ht
  | list =>
    simp only [lexer, List.mem_cons, List.not_mem_nil, or_false] at hrule
    rcases hrule with rfl | rfl | rfl | rfl | rfl | rfl
    · cases ht
    · cases ht
    · cases ht
      trivial
    · cases ht
      trivial
    · cases ht
      rw [mem_listIdent] at hmatch
      simpa [Token.WellFormed, IsWord] using hmatch
    · cases ht

theorem Cut.wellFormed {start : Start} {text : List Char}
    {tokens : List (Returned Char Start Token)} (h : Cut start text tokens) :
    ∀ last ∈ tokens, last.token.WellFormed := by
  induction h with
  | done => simp
  | @lexeme start rule yytext rest later chosen _ ih =>
    intro last hlast
    rcases List.mem_append.mp hlast with hhere | hlater
    · simp only [Rule.returned, Option.mem_toList, Option.map_eq_some_iff] at hhere
      obtain ⟨t, ht, rfl⟩ := hhere
      exact rule_wellFormed chosen.mem chosen.matched ht
    · exact ih last hlater

theorem mem_listTokens {values : List String} {value : String} (h : value ∈ values) :
    .listIdent value ∈ listTokens values := by
  induction values with
  | nil => simp at h
  | cons head values ih =>
    cases values with
    | nil => simpa [listTokens] using h
    | cons second values =>
      rw [listTokens]
      · rcases List.mem_cons.mp h with rfl | htail
        · simp
        · simp [ih htail]
      · simp

theorem Statement.wellFormed_of_tokens {stmt : Statement}
    (h : ∀ t ∈ stmt.tokens, t.WellFormed) : stmt.WellFormed where
  ident := h (.ident stmt.ident) (by simp [Statement.tokens, headTokens])
  op := by
    intro sval hsval
    exact h (.op sval) (by simp [Statement.tokens, headTokens, Option.mem_def.mp hsval])
  list value hvalue := h (.listIdent value) (by simp [Statement.tokens, mem_listTokens hvalue])
  qualifiers value hvalue := h (.ident value) (by simp [Statement.tokens, hvalue])

/-- Every statement of a file is made of words, also if the file is refused. -/
theorem yyparse_wellFormed (ahead : ReadAhead) (held : Option Held) (text : List Char) :
    ∀ stmt ∈ (yyparse ahead held text).statements, stmt.WellFormed := by
  have hcut := Cut.wellFormed ((cut_iff (lexInput held text).1 (lexInput held text).2 _).mpr rfl)
  -- the statements are among the tokens that were read
  have hread : ∀ {tokens : List (Returned Char Start Token)} {r : Reading} {stmts : List Statement},
      (∀ last ∈ tokens, last.token.WellFormed) →
      Reading.idle.run (tokens.map Returned.token) = some (r, stmts) →
      ∀ stmt ∈ stmts, stmt.WellFormed := by
    intro tokens r stmts htokens hrun stmt hstmt
    have heq := Reading.run_tokens hrun
    refine Statement.wellFormed_of_tokens fun t ht => ?_
    have hmem : t ∈ tokens.map Returned.token := by
      rw [Reading.tokens, List.nil_append] at heq
      rw [heq]
      exact List.mem_append_left _ (List.mem_flatMap.mpr ⟨stmt, hstmt, ht⟩)
    obtain ⟨last, hlast, rfl⟩ := List.mem_map.mp hmem
    exact htokens last hlast
  cases yyparse_yields ahead held text with
  | accepted more run result =>
    rw [result.2]
    exact hread hcut run
  | unfinished r more hopen run result =>
    rw [result]
    exact hread hcut run
  | refused before last after r more split run wrong result =>
    rw [result]
    exact hread (fun x hx => hcut x (by simp [split, hx])) run

/-! ## What stands between the words -/

/-- A character that is passed over with a message. -/
def isStray : Start → Char → Bool
  | .initial, c => !isBlank c && !isIdentChar c && c ≠ '#' && c ≠ '.' && c ≠ '(' && c ≠ ';'
  | .list, c => !isBlank c && !isListChar c && c ≠ ')' && c ≠ ','

inductive Gap : Start → List Char → Prop
  | nil (start : Start) : Gap start []
  | blank {start : Start} {c : Char} {g : List Char} (hc : isBlank c = true) (gap : Gap start g) :
      Gap start (c :: g)
  | stray {start : Start} {c : Char} {g : List Char} (hc : isStray start c = true)
      (gap : Gap start g) : Gap start (c :: g)
  | comment {body g : List Char} (hbody : ∀ c ∈ body, c ≠ '\n') (gap : Gap .initial g) :
      Gap .initial ('#' :: body ++ '\n' :: g)

theorem yylex_stray {start : Start} {c : Char} (hc : isStray start c = true) (rest : List Char) :
    yylex start (c :: rest) = yylex start rest := by
  cases start with
  | initial =>
    simp only [isStray, Bool.and_eq_true, Bool.not_eq_true', decide_eq_true_eq] at hc
    obtain ⟨⟨⟨⟨⟨hblank, hident⟩, hcomment⟩, hdot⟩, hlparen⟩, hsemicolon⟩ := hc
    exact Lexer.scan_chosen (unexpected_chosen hcomment hblank hlparen hsemicolon hident
      fun h => absurd h hdot)
  | list =>
    simp only [isStray, Bool.and_eq_true, Bool.not_eq_true', decide_eq_true_eq] at hc
    obtain ⟨⟨⟨hblank, hchar⟩, hrparen⟩, hcomma⟩ := hc
    exact Lexer.scan_chosen (listUnexpected_chosen hblank hchar hrparen hcomma)

theorem yylex_gap {start : Start} {g : List Char} (h : Gap start g) (rest : List Char) :
    yylex start (g ++ rest) = yylex start rest := by
  induction h with
  | nil => rfl
  | blank hc _ ih => rw [List.cons_append, yylex_blank hc, ih]
  | stray hc _ ih => rw [List.cons_append, yylex_stray hc, ih]
  | @comment body g hbody _ ih =>
    have htext : '#' :: body ++ '\n' :: g ++ rest = '#' :: body ++ '\n' :: (g ++ rest) := by simp
    rw [htext, yylex_comment hbody (by simp), yylex_blank rfl, ih]

/-- A gap does not go on with a word. -/
theorem Gap.head_initial {g : List Char} (h : Gap .initial g) :
    ∀ c ∈ g.head?, isIdentChar c = false := by
  cases h with
  | nil => simp
  | @blank _ c g hc _ =>
    intro a ha
    obtain rfl : c = a := by simpa using ha
    simp only [isBlank, decide_eq_true_eq] at hc
    rcases hc with rfl | rfl | rfl | rfl <;> rfl
  | stray hc _ => simp_all [isStray]
  | comment => simp [isIdentChar]

theorem Gap.head_list {g : List Char} (h : Gap .list g) :
    ∀ c ∈ g.head?, isListChar c = false := by
  cases h with
  | nil => simp
  | @blank _ c g hc _ =>
    intro a ha
    obtain rfl : c = a := by simpa using ha
    simp only [isBlank, decide_eq_true_eq] at hc
    rcases hc with rfl | rfl | rfl | rfl <;> rfl
  | stray hc _ => simp_all [isStray]

/-- What follows a word ends it. -/
theorem head_append {p : Char → Bool} {g rest : List Char} {c : Char}
    (hg : ∀ a ∈ g.head?, p a = false) (hc : p c = false) :
    ∀ a ∈ (g ++ c :: rest).head?, p a = false := by
  cases g with
  | nil => simpa using hc
  | cons a g => simpa using hg

/-! ## Written statements -/

/-- Between the name of the list and its `(`. -/
inductive WrittenOp : Option String → List Char → Prop
  | none {g : List Char} (gap : Gap .initial g) : WrittenOp none g
  | op {before w after : List Char} (gapBefore : Gap .initial before)
      (hw : IsWord Char.isLower w) (gapAfter : Gap .initial after) :
      WrittenOp (some (String.ofList ('.' :: w))) (before ++ '.' :: w ++ after)

inductive WrittenEntries : List String → List Char → Prop
  | last {before after : List Char} {value : String} (gapBefore : Gap .list before)
      (hvalue : IsWord isListChar value.toList) (gapAfter : Gap .list after) :
      WrittenEntries [value] (before ++ value.toList ++ after)
  | next {before after rest : List Char} {value : String} {values : List String}
      (gapBefore : Gap .list before) (hvalue : IsWord isListChar value.toList)
      (gapAfter : Gap .list after) (entries : WrittenEntries values rest) :
      WrittenEntries (value :: values) (before ++ value.toList ++ after ++ ',' :: rest)

/-- Between `(` and `)`. -/
inductive WrittenList : List String → List Char → Prop
  | empty {g : List Char} (gap : Gap .list g) : WrittenList [] g
  | entries {values : List String} {text : List Char} (entries : WrittenEntries values text) :
      WrittenList values text

/-- Between `)` and `;`. -/
inductive WrittenQualifiers : List String → List Char → Prop
  | nil {g : List Char} (gap : Gap .initial g) : WrittenQualifiers [] g
  | next {g rest : List Char} {value : String} {values : List String} (gap : Gap .initial g)
      (hvalue : IsWord isIdentChar value.toList) (qualifiers : WrittenQualifiers values rest)
      (apart : ∀ c ∈ rest.head?, isIdentChar c = false) :
      WrittenQualifiers (value :: values) (g ++ value.toList ++ rest)

inductive WrittenStatement : Statement → List Char → Prop
  | statement {ident : String} {op : Option String} {list qualifiers : List String}
      {opText listText qualifierText : List Char} (hident : IsWord isIdentChar ident.toList)
      (hop : WrittenOp op opText) (hlist : WrittenList list listText)
      (hqualifiers : WrittenQualifiers qualifiers qualifierText) :
      WrittenStatement ⟨ident, op, list, qualifiers⟩
        (ident.toList ++ opText ++ '(' :: listText ++ ')' :: qualifierText ++ [';'])

/-- A file; its last comment need not end. -/
inductive WrittenFile : List Statement → List Char → Prop
  | nil {g : List Char} (gap : Gap .initial g) : WrittenFile [] g
  | comment {g body : List Char} (gap : Gap .initial g) (hbody : ∀ c ∈ body, c ≠ '\n') :
      WrittenFile [] (g ++ '#' :: body)
  | next {g text rest : List Char} {stmt : Statement} {stmts : List Statement}
      (gap : Gap .initial g) (statement : WrittenStatement stmt text)
      (file : WrittenFile stmts rest) : WrittenFile (stmt :: stmts) (g ++ text ++ rest)

/-! ## Reading them back -/

def lexTokens (start : Start) (text : List Char) : List Token :=
  (yylex start text).map Returned.token

theorem lexTokens_gap {start : Start} {g : List Char} (h : Gap start g) (rest : List Char) :
    lexTokens start (g ++ rest) = lexTokens start rest := by
  rw [lexTokens, yylex_gap h, lexTokens]

theorem lexTokens_ident {value : String} (hvalue : IsWord isIdentChar value.toList)
    {rest : List Char} (hrest : ∀ c ∈ rest.head?, isIdentChar c = false) :
    lexTokens .initial (value.toList ++ rest) = .ident value :: lexTokens .initial rest := by
  rw [lexTokens, yylex_ident hvalue.1 hvalue.2 hrest]
  simp [lexTokens]

theorem lexTokens_listIdent {value : String} (hvalue : IsWord isListChar value.toList)
    {rest : List Char} (hrest : ∀ c ∈ rest.head?, isListChar c = false) :
    lexTokens .list (value.toList ++ rest) = .listIdent value :: lexTokens .list rest := by
  rw [lexTokens, yylex_listIdent hvalue.1 hvalue.2 hrest]
  simp [lexTokens]

theorem lexTokens_lparen (rest : List Char) :
    lexTokens .initial ('(' :: rest) = .lparen :: lexTokens .list rest := by
  rw [lexTokens, yylex_lparen]
  rfl

theorem lexTokens_rparen (rest : List Char) :
    lexTokens .list (')' :: rest) = .rparen :: lexTokens .initial rest := by
  rw [lexTokens, yylex_rparen]
  rfl

theorem lexTokens_comma (rest : List Char) :
    lexTokens .list (',' :: rest) = .comma :: lexTokens .list rest := by
  rw [lexTokens, yylex_comma]
  rfl

theorem lexTokens_semicolon (rest : List Char) :
    lexTokens .initial (';' :: rest) = .semicolon :: lexTokens .initial rest := by
  rw [lexTokens, yylex_semicolon]
  rfl

theorem isIdentChar_of_isLower {c : Char} (h : c.isLower = true) : isIdentChar c = true := by
  have alpha : c.isAlpha = true := by
    change (c.isUpper || c.isLower) = true
    rw [h, Bool.or_true]
  simp [isIdentChar, Char.isAlphanum, alpha]

/-- The operation ends the name before it, and what follows ends the operation. -/
theorem WrittenOp.tokens {op : Option String} {text : List Char} (h : WrittenOp op text)
    (rest : List Char) :
    (∀ c ∈ (text ++ '(' :: rest).head?, isIdentChar c = false) ∧
      lexTokens .initial (text ++ '(' :: rest) =
        (op.map Token.op).toList ++ .lparen :: lexTokens .list rest := by
  cases h with
  | none gap =>
    refine ⟨head_append gap.head_initial rfl, ?_⟩
    rw [lexTokens_gap gap, lexTokens_lparen]
    rfl
  | @op before w after gapBefore hw gapAfter =>
    have htext : before ++ '.' :: w ++ after ++ '(' :: rest =
        before ++ '.' :: (w ++ (after ++ '(' :: rest)) := by simp
    have hends : ∀ c ∈ (after ++ '(' :: rest).head?, c.isLower = false := by
      intro c hc
      have hident := head_append gapAfter.head_initial rfl c hc
      by_contra hlower
      rw [isIdentChar_of_isLower (by simpa using hlower)] at hident
      cases hident
    rw [htext]
    refine ⟨head_append gapBefore.head_initial rfl, ?_⟩
    rw [lexTokens_gap gapBefore, lexTokens, ← List.cons_append, yylex_op hw.1 hw.2 hends,
      List.map_cons]
    change _ :: lexTokens .initial (after ++ '(' :: rest) = _
    rw [lexTokens_gap gapAfter, lexTokens_lparen]
    rfl

theorem WrittenEntries.tokens {values : List String} {text : List Char}
    (h : WrittenEntries values text) (rest : List Char) :
    lexTokens .list (text ++ ')' :: rest) =
      listTokens values ++ .rparen :: lexTokens .initial rest := by
  induction h with
  | @last before after value gapBefore hvalue gapAfter =>
    have htext : before ++ value.toList ++ after ++ ')' :: rest =
        before ++ (value.toList ++ (after ++ ')' :: rest)) := by simp
    rw [htext, lexTokens_gap gapBefore,
      lexTokens_listIdent hvalue (head_append gapAfter.head_list rfl), lexTokens_gap gapAfter,
      lexTokens_rparen]
    rfl
  | @next before after later value values gapBefore hvalue gapAfter entries ih =>
    have htext : before ++ value.toList ++ after ++ ',' :: later ++ ')' :: rest =
        before ++ (value.toList ++ (after ++ ',' :: (later ++ ')' :: rest))) := by simp
    have hvalues : listTokens (value :: values) =
        .listIdent value :: .comma :: listTokens values := by
      cases entries <;> rfl
    rw [htext, lexTokens_gap gapBefore,
      lexTokens_listIdent hvalue (head_append gapAfter.head_list rfl), lexTokens_gap gapAfter,
      lexTokens_comma, ih, hvalues]
    rfl

theorem WrittenList.tokens {values : List String} {text : List Char} (h : WrittenList values text)
    (rest : List Char) :
    lexTokens .list (text ++ ')' :: rest) =
      listTokens values ++ .rparen :: lexTokens .initial rest := by
  cases h with
  | empty gap =>
    rw [lexTokens_gap gap, lexTokens_rparen]
    rfl
  | entries entries => exact entries.tokens rest

theorem WrittenQualifiers.tokens {values : List String} {text : List Char}
    (h : WrittenQualifiers values text) (rest : List Char) :
    lexTokens .initial (text ++ ';' :: rest) =
      values.map .ident ++ .semicolon :: lexTokens .initial rest := by
  induction h with
  | nil gap =>
    rw [lexTokens_gap gap, lexTokens_semicolon]
    rfl
  | @next g later value values gap hvalue _ apart ih =>
    have htext : g ++ value.toList ++ later ++ ';' :: rest =
        g ++ (value.toList ++ (later ++ ';' :: rest)) := by simp
    rw [htext, lexTokens_gap gap, lexTokens_ident hvalue (head_append apart rfl), ih]
    rfl

theorem WrittenStatement.tokens {stmt : Statement} {text : List Char}
    (h : WrittenStatement stmt text) (rest : List Char) :
    lexTokens .initial (text ++ rest) = stmt.tokens ++ lexTokens .initial rest := by
  cases h with
  | @statement ident op list qualifiers opText listText qualifierText hident hop hlist hqualifiers =>
    have htext : ident.toList ++ opText ++ '(' :: listText ++ ')' :: qualifierText ++ [';'] ++ rest =
        ident.toList ++ (opText ++ '(' :: (listText ++ ')' :: (qualifierText ++ ';' :: rest))) := by
      simp
    obtain ⟨hends, htokens⟩ := hop.tokens (listText ++ ')' :: (qualifierText ++ ';' :: rest))
    rw [htext, lexTokens_ident hident hends, htokens, hlist.tokens, hqualifiers.tokens]
    simp [Statement.tokens, headTokens]

theorem WrittenFile.tokens {stmts : List Statement} {text : List Char}
    (h : WrittenFile stmts text) : lexTokens .initial text = stmts.flatMap Statement.tokens := by
  induction h with
  | @nil g gap =>
    have hgap := lexTokens_gap gap []
    rw [List.append_nil] at hgap
    rw [hgap]
    rfl
  | @comment g body gap hbody =>
    have hline : yylex .initial ('#' :: body ++ []) = yylex .initial [] :=
      yylex_comment hbody (by simp)
    rw [List.append_nil] at hline
    rw [lexTokens_gap gap, lexTokens, hline]
    rfl
  | next gap statement _ ih =>
    rw [List.append_assoc, lexTokens_gap gap, statement.tokens, ih]
    rfl

/-- However the statements are laid out, the file is accepted and they are what it holds. -/
theorem yyparse_written (ahead : ReadAhead) {stmts : List Statement} {text : List Char}
    (h : WrittenFile stmts text) :
    (yyparse ahead none text).accepted = true ∧ (yyparse ahead none text).statements = stmts := by
  rw [yyparse_accepts_program]
  exact isProgram_iff.mpr h.tokens

/-- A list that continues on the next line, with a comment behind it. -/
theorem yyparse_written_comment :
    (yyparse .all none "kernel.add (main.c,\n  lib/str.c) # sources\n;".toList).accepted = true ∧
      (yyparse .all none "kernel.add (main.c,\n  lib/str.c) # sources\n;".toList).statements =
        [⟨"kernel", some ".add", ["main.c", "lib/str.c"], []⟩] := by
  have hop : WrittenOp (some ".add") ([] ++ '.' :: "add".toList ++ [' ']) :=
    .op (.nil _) ⟨by decide, by simp⟩ (.blank rfl (.nil _))
  have hlist : WrittenEntries ["main.c", "lib/str.c"]
      ([] ++ "main.c".toList ++ [] ++ ',' :: (['\n', ' ', ' '] ++ "lib/str.c".toList ++ [])) :=
    .next (.nil _) ⟨by decide, by simp [isListChar]⟩ (.nil _)
      (.last (.blank rfl (.blank rfl (.blank rfl (.nil _)))) ⟨by decide, by simp [isListChar]⟩
        (.nil _))
  have hqualifiers : WrittenQualifiers [] (' ' :: '#' :: " sources".toList ++ '\n' :: []) :=
    .nil (.blank rfl (.comment (by simp) (.nil _)))
  have hident : IsWord isIdentChar "kernel".toList := ⟨by decide, by simp [isIdentChar]⟩
  exact yyparse_written .all
    (.next (.nil _) (.statement hident hop (.entries hlist) hqualifiers) (.nil (.nil _)))

/-! ## Writing them -/

def printOp : Option String → List Char
  | none => []
  | some sval => ' ' :: sval.toList ++ [' ']

def printEntries : List String → List Char
  | [] => []
  | [value] => value.toList
  | value :: values => value.toList ++ ',' :: printEntries values

def printQualifiers : List String → List Char
  | [] => []
  | value :: values => ' ' :: value.toList ++ printQualifiers values

def Statement.print (stmt : Statement) : List Char :=
  stmt.ident.toList ++ printOp stmt.op ++ '(' :: printEntries stmt.list ++ ')' ::
    printQualifiers stmt.qualifiers ++ [';']

def printFile (stmts : List Statement) : List Char :=
  stmts.flatMap Statement.print

theorem written_printOp {op : Option String}
    (h : ∀ sval ∈ op, ∃ w, sval.toList = '.' :: w ∧ IsWord Char.isLower w) :
    WrittenOp op (printOp op) := by
  cases op with
  | none => exact .none (.nil _)
  | some sval =>
    obtain ⟨w, hsval, hw⟩ := h sval rfl
    obtain rfl : String.ofList ('.' :: w) = sval := by rw [← hsval, String.ofList_toList]
    have hblank : Gap .initial [' '] := .blank rfl (.nil _)
    simpa [printOp] using WrittenOp.op hblank hw hblank

theorem written_printEntries {values : List String} (hne : values ≠ [])
    (h : ∀ value ∈ values, IsWord isListChar value.toList) :
    WrittenEntries values (printEntries values) := by
  induction values with
  | nil => exact absurd rfl hne
  | cons value values ih =>
    have hvalue := h value (by simp)
    cases values with
    | nil => simpa [printEntries] using WrittenEntries.last (.nil _) hvalue (.nil _)
    | cons second values =>
      have hrest := ih (by simp) fun x hx => h x (by simp [hx])
      simpa [printEntries] using WrittenEntries.next (.nil _) hvalue (.nil _) hrest

theorem written_printQualifiers {values : List String}
    (h : ∀ value ∈ values, IsWord isIdentChar value.toList) :
    WrittenQualifiers values (printQualifiers values) := by
  induction values with
  | nil => exact .nil (.nil _)
  | cons value values ih =>
    have hrest := ih fun x hx => h x (by simp [hx])
    have hblank : Gap .initial [' '] := .blank rfl (.nil _)
    refine .next hblank (h value (by simp)) hrest ?_
    cases values with
    | nil => simp [printQualifiers]
    | cons second values =>
      simp [printQualifiers]
      rfl

theorem written_print {stmt : Statement} (h : stmt.WellFormed) :
    WrittenStatement stmt stmt.print := by
  refine .statement h.ident (written_printOp h.op) ?_ (written_printQualifiers h.qualifiers)
  cases hlist : stmt.list with
  | nil => exact .empty (.nil _)
  | cons value values =>
    exact .entries (written_printEntries (by simp) fun x hx => h.list x (by simpa [hlist] using hx))

theorem written_printFile {stmts : List Statement} (h : ∀ stmt ∈ stmts, stmt.WellFormed) :
    WrittenFile stmts (printFile stmts) := by
  induction stmts with
  | nil => exact .nil (.nil _)
  | cons stmt stmts ih =>
    have hrest := ih fun x hx => h x (by simp [hx])
    change WrittenFile _ ([] ++ stmt.print ++ printFile stmts)
    exact .next (.nil .initial) (written_print (h stmt (by simp))) hrest

/-- Whatever was read, written out it is read again. -/
theorem yyparse_reprint (ahead : ReadAhead) (held : Option Held) (text : List Char) :
    (yyparse ahead none (printFile (yyparse ahead held text).statements)).accepted = true ∧
      (yyparse ahead none (printFile (yyparse ahead held text).statements)).statements =
        (yyparse ahead held text).statements := by
  rw [yyparse_accepts_program]
  exact isProgram_iff.mpr (written_printFile (yyparse_wellFormed ahead held text)).tokens

end MidnightOS.Mbuild
