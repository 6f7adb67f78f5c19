import MidnightOS.Mbuild.Grammar

/-! # What the parser takes

The automaton follows a reading of the open statement.  A program is the tokens of
its statements one after the other, so the first token that fits no reading is the
first that no program goes on with.
-/

namespace MidnightOS.Mbuild

open MidnightOS.Lib

/-! ## The tokens of a program -/

def listTokens : List String → List Token
  | [] => []
  | [value] => [.listIdent value]
  | value :: values => .listIdent value :: .comma :: listTokens values

def headTokens (ident : String) (op : Option String) : List Token :=
  .ident ident :: (op.map Token.op).toList ++ [.lparen]

def Statement.tokens (stmt : Statement) : List Token :=
  headTokens stmt.ident stmt.op ++ listTokens stmt.list ++ [.rparen] ++
    stmt.qualifiers.map .ident ++ [.semicolon]

/-- The entries before another one. -/
def itemTokens (values : List String) : List Token :=
  values.flatMap fun value => [.listIdent value, .comma]

theorem listTokens_concat (values : List String) (value : String) :
    listTokens (values ++ [value]) = itemTokens values ++ [.listIdent value] := by
  induction values with
  | nil => rfl
  | cons head values ih =>
    cases values with
    | nil => rfl
    | cons second values =>
      rw [List.cons_append, List.cons_append, listTokens, ← List.cons_append, ih]
      · simp [itemTokens]
      · simp

theorem itemTokens_concat (values : List String) (value : String) :
    itemTokens (values ++ [value]) = itemTokens values ++ [.listIdent value, .comma] := by
  simp [itemTokens]

theorem IsListItems.tokens {ts : List Token} {values : List String} (h : IsListItems ts values) :
    values ≠ [] ∧ ts = listTokens values := by
  induction h with
  | first sval => exact ⟨by simp, rfl⟩
  | @next ts values _ sval ih =>
    obtain ⟨hne, rfl⟩ := ih
    refine ⟨by simp, ?_⟩
    obtain ⟨front, last, rfl⟩ := (List.eq_nil_or_concat' values).resolve_left hne
    rw [listTokens_concat (front ++ [last]), listTokens_concat, itemTokens_concat]
    simp

theorem isListItems_tokens {values : List String} (hne : values ≠ []) :
    IsListItems (listTokens values) values := by
  induction values using List.reverseRecOn with
  | nil => exact absurd rfl hne
  | append_singleton values value ih =>
    cases values using List.reverseRecOn with
    | nil => exact .first value
    | append_singleton values last =>
      have h := (ih (by simp)).next value
      rw [listTokens_concat] at h
      rw [listTokens_concat, itemTokens_concat]
      simpa using h

theorem isList_iff {ts : List Token} {values : List String} :
    IsList ts values ↔ ts = listTokens values := by
  constructor
  · rintro (_ | ⟨items⟩)
    · rfl
    · exact items.tokens.2
  · rintro rfl
    cases values with
    | nil => exact .empty
    | cons value values => exact .items (isListItems_tokens (by simp))

theorem IsQualifierListItems.tokens {ts : List Token} {values : List String}
    (h : IsQualifierListItems ts values) : ts = values.map .ident := by
  induction h with
  | first sval => rfl
  | next _ sval ih => simp [ih]

theorem isQualifierList_iff {ts : List Token} {values : List String} :
    IsQualifierList ts values ↔ ts = values.map .ident := by
  constructor
  · rintro (_ | ⟨items⟩)
    · rfl
    · exact items.tokens
  · rintro rfl
    induction values using List.reverseRecOn with
    | nil => exact .empty
    | append_singleton values value ih =>
      rw [List.map_append]
      cases hlist : values.map Token.ident with
      | nil =>
        obtain rfl := List.map_eq_nil_iff.mp hlist
        exact .items (.first value)
      | cons t ts =>
        rw [hlist] at ih
        cases ih with
        | items items => exact .items (items.next value)

theorem isOp_iff {ts : List Token} {op : Option String} :
    IsOp ts op ↔ ts = (op.map Token.op).toList := by
  constructor
  · rintro (_ | _) <;> rfl
  · rintro rfl
    cases op with
    | none => exact .empty
    | some sval => exact .op sval

theorem isStatement_iff {ts : List Token} {stmt : Statement} :
    IsStatement ts stmt ↔ ts = stmt.tokens := by
  constructor
  · rintro ⟨ident, hop, hlist, hqualifiers⟩
    rw [isOp_iff.mp hop, isList_iff.mp hlist, isQualifierList_iff.mp hqualifiers]
    rfl
  · rintro rfl
    exact .statement stmt.ident (isOp_iff.mpr rfl) (isList_iff.mpr rfl)
      (isQualifierList_iff.mpr rfl)

/-- A program is nothing but its statements. -/
theorem isProgram_iff {ts : List Token} {stmts : List Statement} :
    IsProgram ts stmts ↔ ts = stmts.flatMap Statement.tokens := by
  constructor
  · intro h
    induction h with
    | empty => rfl
    | statement _ next ih => simp [ih, isStatement_iff.mp next]
  · rintro rfl
    induction stmts using List.reverseRecOn with
    | nil => exact .empty
    | append_singleton stmts stmt ih =>
      rw [List.flatMap_append, List.flatMap_singleton]
      exact ih.statement (isStatement_iff.mpr rfl)

/-! ## Reading a statement -/

/-- What has been read of the open statement.  An entry or a qualifier is the last one. -/
inductive Reading where
  | idle
  | ident (name : String)
  | op (name sval : String)
  | lparen (name : String) (oper : Option String)
  | entry (name : String) (oper : Option String) (values : List String) (last : String)
  | comma (name : String) (oper : Option String) (values : List String) (last : String)
  | rparen (name : String) (oper : Option String) (list : List String)
  | qualifier (name : String) (oper : Option String) (list qualifiers : List String) (last : String)

def Reading.tokens : Reading → List Token
  | .idle => []
  | .ident name => [.ident name]
  | .op name sval => [.ident name, .op sval]
  | .lparen name oper => headTokens name oper
  | .entry name oper values last => headTokens name oper ++ itemTokens values ++ [.listIdent last]
  | .comma name oper values last =>
    headTokens name oper ++ itemTokens values ++ [.listIdent last, .comma]
  | .rparen name oper list => headTokens name oper ++ listTokens list ++ [.rparen]
  | .qualifier name oper list qualifiers last =>
    headTokens name oper ++ listTokens list ++ [.rparen] ++ (qualifiers ++ [last]).map .ident

/-- The reading after a token, and the statement that it completes. -/
def Reading.next : Reading → Token → Option (Reading × List Statement)
  | .idle, .ident name => some (.ident name, [])
  | .ident name, .op sval => some (.op name sval, [])
  | .ident name, .lparen => some (.lparen name none, [])
  | .op name sval, .lparen => some (.lparen name (some sval), [])
  | .lparen name oper, .listIdent sval => some (.entry name oper [] sval, [])
  | .lparen name oper, .rparen => some (.rparen name oper [], [])
  | .entry name oper values last, .comma => some (.comma name oper values last, [])
  | .entry name oper values last, .rparen => some (.rparen name oper (values ++ [last]), [])
  | .comma name oper values last, .listIdent sval =>
    some (.entry name oper (values ++ [last]) sval, [])
  | .rparen name oper list, .ident sval => some (.qualifier name oper list [] sval, [])
  | .rparen name oper list, .semicolon => some (.idle, [⟨name, oper, list, []⟩])
  | .qualifier name oper list qualifiers last, .ident sval =>
    some (.qualifier name oper list (qualifiers ++ [last]) sval, [])
  | .qualifier name oper list qualifiers last, .semicolon =>
    some (.idle, [⟨name, oper, list, qualifiers ++ [last]⟩])
  | _, _ => none

/-- The reading after the tokens, and the statements that they complete. -/
def Reading.run : Reading → List Token → Option (Reading × List Statement)
  | r, [] => some (r, [])
  | r, t :: ts =>
    match r.next t with
    | none => none
    | some (r', completed) => (r'.run ts).map fun result => (result.1, completed ++ result.2)

/-- The tokens that complete the statement. -/
def Reading.completion : Reading → List Token
  | .idle => []
  | .ident _ => [.lparen, .rparen, .semicolon]
  | .op _ _ => [.lparen, .rparen, .semicolon]
  | .lparen _ _ => [.rparen, .semicolon]
  | .entry _ _ _ _ => [.rparen, .semicolon]
  | .comma _ _ _ last => [.listIdent last, .rparen, .semicolon]
  | .rparen _ _ _ => [.semicolon]
  | .qualifier _ _ _ _ _ => [.semicolon]

namespace Reading

theorem run_cons {r r' : Reading} {t : Token} {completed : List Statement}
    (h : r.next t = some (r', completed)) (ts : List Token) :
    r.run (t :: ts) = (r'.run ts).map fun result => (result.1, completed ++ result.2) := by
  rw [run, h]

theorem run_append (r : Reading) (ts us : List Token) :
    r.run (ts ++ us) = (r.run ts).bind fun result =>
      (result.1.run us).map fun later => (later.1, result.2 ++ later.2) := by
  induction ts generalizing r with
  | nil => simp [run]
  | cons t ts ih =>
    rw [List.cons_append]
    cases hnext : r.next t with
    | none => simp [run, hnext]
    | some result =>
      obtain ⟨r', completed⟩ := result
      rw [run_cons hnext, run_cons hnext, ih]
      cases r'.run ts with
      | none => rfl
      | some middle =>
        cases hus : middle.1.run us with
        | none => simp [hus]
        | some later => simp [hus]

/-- What was read are the tokens of the statements and those of the reading. -/
theorem next_tokens {r r' : Reading} {t : Token} {completed : List Statement}
    (h : r.next t = some (r', completed)) :
    r.tokens ++ [t] = completed.flatMap Statement.tokens ++ r'.tokens := by
  unfold next at h
  split at h <;> cases h <;>
    simp [tokens, Statement.tokens, headTokens, listTokens_concat, listTokens, itemTokens]

theorem run_tokens {r r' : Reading} {ts : List Token} {stmts : List Statement}
    (h : r.run ts = some (r', stmts)) :
    r.tokens ++ ts = stmts.flatMap Statement.tokens ++ r'.tokens := by
  induction ts generalizing r stmts with
  | nil =>
    cases h
    simp
  | cons t ts ih =>
    cases hnext : r.next t with
    | none => simp [run, hnext] at h
    | some result =>
      obtain ⟨middle, completed⟩ := result
      rw [run_cons hnext] at h
      obtain ⟨⟨last, later⟩, hlater, hresult⟩ := Option.map_eq_some_iff.mp h
      cases hresult
      rw [List.append_cons, next_tokens hnext, List.append_assoc, ih hlater]
      simp

/-- Every reading is completed by its completion. -/
theorem run_completion (r : Reading) : ∃ stmts, r.run r.completion = some (.idle, stmts) := by
  cases r <;> exact ⟨_, rfl⟩

theorem run_list (name : String) (oper : Option String) (values : List String) (last : String) :
    (lparen name oper).run (listTokens (values ++ [last])) = some (.entry name oper values last, []) := by
  induction values using List.reverseRecOn generalizing last with
  | nil => rfl
  | append_singleton values value ih =>
    have hsplit : listTokens (values ++ [value] ++ [last]) =
        listTokens (values ++ [value]) ++ [.comma, .listIdent last] := by
      rw [listTokens_concat, listTokens_concat, itemTokens_concat]
      simp
    rw [hsplit, run_append, ih]
    rfl

theorem run_qualifiers (name : String) (oper : Option String) (list qualifiers : List String)
    (last : String) :
    (rparen name oper list).run ((qualifiers ++ [last]).map .ident) =
      some (.qualifier name oper list qualifiers last, []) := by
  induction qualifiers using List.reverseRecOn generalizing last with
  | nil => rfl
  | append_singleton qualifiers value ih =>
    rw [List.map_append, run_append, ih]
    rfl

/-- A statement is read from its first token to its last. -/
theorem run_statement (stmt : Statement) : idle.run stmt.tokens = some (.idle, [stmt]) := by
  obtain ⟨name, oper, list, qualifiers⟩ := stmt
  have hhead : idle.run (headTokens name oper) = some (.lparen name oper, []) := by
    cases oper <;> rfl
  have hlist : (lparen name oper).run (listTokens list ++ [.rparen]) =
      some (.rparen name oper list, []) := by
    cases list using List.reverseRecOn with
    | nil => rfl
    | append_singleton values last =>
      rw [run_append, run_list]
      rfl
  have hqualifiers : (rparen name oper list).run (qualifiers.map .ident ++ [.semicolon]) =
      some (.idle, [⟨name, oper, list, qualifiers⟩]) := by
    cases qualifiers using List.reverseRecOn with
    | nil => rfl
    | append_singleton qualifiers last =>
      rw [run_append, run_qualifiers]
      rfl
  rw [Statement.tokens, List.append_assoc _ (qualifiers.map _), List.append_assoc (headTokens _ _),
    run_append, run_append, hhead]
  simp [hlist, hqualifiers]

theorem run_statements (stmts : List Statement) :
    idle.run (stmts.flatMap Statement.tokens) = some (.idle, stmts) := by
  induction stmts with
  | nil => rfl
  | cons stmt stmts ih => simp [run_append, run_statement, ih]

end Reading

/-! ## Programs and their beginnings -/

theorem isProgram_iff_run {ts : List Token} {stmts : List Statement} :
    IsProgram ts stmts ↔ Reading.idle.run ts = some (.idle, stmts) := by
  rw [isProgram_iff]
  constructor
  · rintro rfl
    exact Reading.run_statements stmts
  · intro h
    simpa [Reading.tokens] using Reading.run_tokens h

/-- Some program goes on with the tokens. -/
def Viable (ts : List Token) : Prop := ∃ us stmts, IsProgram (ts ++ us) stmts

theorem viable_iff_run {ts : List Token} :
    Viable ts ↔ ∃ r stmts, Reading.idle.run ts = some (r, stmts) := by
  constructor
  · rintro ⟨us, stmts, h⟩
    rw [isProgram_iff_run, Reading.run_append] at h
    obtain ⟨⟨r, stmts⟩, hrun, -⟩ := Option.bind_eq_some_iff.mp h
    exact ⟨r, stmts, hrun⟩
  · rintro ⟨r, stmts, hrun⟩
    obtain ⟨later, hlater⟩ := r.run_completion
    refine ⟨r.completion, stmts ++ later, ?_⟩
    rw [isProgram_iff_run, Reading.run_append, hrun]
    simp [hlater]

/-! ## The automaton follows the reading -/

def idleStack : List (LrState × Value) := [(.program, .unset), (.start, .unset)]

def openStack (name : String) (oper : Option String) : List (LrState × Value) :=
  (.lparen, .unset) :: (.op, .ival oper) :: (.ident, .sval name) :: idleStack

def closedStack (name : String) (oper : Option String) (list : List String) :
    List (LrState × Value) :=
  (.rparen, .unset) :: (.list, .list list) :: openStack name oper

/-- The stack after a token, with the reading and the statements that are complete.  The node of
the last one is inserted before the next token is asked for. -/
inductive Shows : Parse → Reading → List Statement → Prop
  | begin : Shows .begin .idle []
  | semicolon (stmts : List Statement) (stmt : Statement) :
      Shows ⟨(.semicolon, .unset) :: (.qualifierList, .list stmt.qualifiers) ::
        closedStack stmt.ident stmt.op stmt.list, stmts⟩ .idle (stmts ++ [stmt])
  | ident (stmts : List Statement) (name : String) :
      Shows ⟨(.ident, .sval name) :: idleStack, stmts⟩ (.ident name) stmts
  | op (stmts : List Statement) (name sval : String) :
      Shows ⟨(.opToken, .sval sval) :: (.ident, .sval name) :: idleStack, stmts⟩ (.op name sval) stmts
  | lparen (stmts : List Statement) (name : String) (oper : Option String) :
      Shows ⟨openStack name oper, stmts⟩ (.lparen name oper) stmts
  | listIdent (stmts : List Statement) (name : String) (oper : Option String) (last : String) :
      Shows ⟨(.listIdent, .sval last) :: openStack name oper, stmts⟩ (.entry name oper [] last) stmts
  | nextListIdent (stmts : List Statement) (name : String) (oper : Option String)
      (values : List String) (last : String) :
      Shows ⟨(.nextListIdent, .sval last) :: (.comma, .unset) :: (.listItems, .list values) ::
        openStack name oper, stmts⟩ (.entry name oper values last) stmts
  | comma (stmts : List Statement) (name : String) (oper : Option String)
      (values : List String) (last : String) :
      Shows ⟨(.comma, .unset) :: (.listItems, .list (values ++ [last])) :: openStack name oper,
        stmts⟩ (.comma name oper values last) stmts
  | rparen (stmts : List Statement) (name : String) (oper : Option String) (list : List String) :
      Shows ⟨closedStack name oper list, stmts⟩ (.rparen name oper list) stmts
  | qualifier (stmts : List Statement) (name : String) (oper : Option String) (list : List String)
      (last : String) :
      Shows ⟨(.qualifier, .sval last) :: closedStack name oper list, stmts⟩
        (.qualifier name oper list [] last) stmts
  | nextQualifier (stmts : List Statement) (name : String) (oper : Option String)
      (list qualifiers : List String) (last : String) :
      Shows ⟨(.nextQualifier, .sval last) :: (.qualifierItems, .list qualifiers) ::
        closedStack name oper list, stmts⟩ (.qualifier name oper list qualifiers last) stmts

/-- A token that the reading goes on with is shifted. -/
theorem Shows.shifted {p : Parse} {r r' : Reading} {stmts completed : List Statement} {t : Token}
    (h : Shows p r stmts) (hnext : r.next t = some (r', completed)) :
    ∃ p', p.feed (some t) maxFeed = .shifted p' ∧ Shows p' r' (stmts ++ completed) := by
  unfold Reading.next at hnext
  split at hnext
  case h_14 => cases hnext
  case h_11 name oper list =>
    cases hnext
    cases h
    exact ⟨_, rfl, .semicolon stmts ⟨name, oper, list, []⟩⟩
  case h_13 name oper list qualifiers last =>
    cases hnext
    cases h with
    | qualifier => exact ⟨_, rfl, .semicolon stmts ⟨name, oper, list, [last]⟩⟩
    | nextQualifier => exact ⟨_, rfl, .semicolon stmts ⟨name, oper, list, qualifiers ++ [last]⟩⟩
  all_goals
    cases hnext
    rw [List.append_nil]
    cases h
  case h_1.refl.begin => exact ⟨_, rfl, .ident _ _⟩
  case h_1.refl.semicolon => exact ⟨_, rfl, .ident _ _⟩
  case h_2.refl.ident => exact ⟨_, rfl, .op _ _ _⟩
  case h_3.refl.ident => exact ⟨_, rfl, .lparen _ _ none⟩
  case h_4.refl.op => exact ⟨_, rfl, .lparen _ _ (some _)⟩
  case h_5.refl.lparen => exact ⟨_, rfl, .listIdent _ _ _ _⟩
  case h_6.refl.lparen => exact ⟨_, rfl, .rparen _ _ _ _⟩
  case h_7.refl.listIdent => exact ⟨_, rfl, .comma _ _ _ [] _⟩
  case h_7.refl.nextListIdent => exact ⟨_, rfl, .comma _ _ _ _ _⟩
  case h_8.refl.listIdent => exact ⟨_, rfl, .rparen _ _ _ _⟩
  case h_8.refl.nextListIdent => exact ⟨_, rfl, .rparen _ _ _ _⟩
  case h_9.refl.comma => exact ⟨_, rfl, .nextListIdent _ _ _ _ _⟩
  case h_10.refl.rparen => exact ⟨_, rfl, .qualifier _ _ _ _ _⟩
  case h_12.refl.qualifier => exact ⟨_, rfl, .nextQualifier _ _ _ _ _ _⟩
  case h_12.refl.nextQualifier => exact ⟨_, rfl, .nextQualifier _ _ _ _ _ _⟩

/-- A token that fits no reading is refused, with the complete statements inserted. -/
theorem Shows.refused {p : Parse} {r : Reading} {stmts : List Statement} {t : Token}
    (h : Shows p r stmts) (hnext : r.next t = none) :
    ∃ p', p.feed (some t) maxFeed = .refused p' ∧ p'.statements = stmts := by
  cases h <;> cases t <;> first | exact ⟨_, rfl, rfl⟩ | cases hnext

theorem Shows.accepted {p : Parse} {stmts : List Statement} (h : Shows p .idle stmts) :
    ∃ p', p.feed none maxFeed = .accepted p' ∧ p'.statements = stmts := by
  cases h with
  | begin => exact ⟨_, rfl, rfl⟩
  | semicolon => exact ⟨_, rfl, rfl⟩

theorem Shows.unfinished {p : Parse} {r : Reading} {stmts : List Statement} (h : Shows p r stmts)
    (hopen : r ≠ .idle) : ∃ p', p.feed none maxFeed = .refused p' ∧ p'.statements = stmts := by
  cases h <;> first | exact absurd rfl hopen | exact ⟨_, rfl, rfl⟩

/-- What a parse yields, by the reading of its tokens. -/
inductive Yields (left : Returned Char Start Token → Held) (start : Start) (r : Reading)
    (stmts : List Statement) (tokens : List (Returned Char Start Token)) (parsed : Parsed Held) :
    Prop
  | accepted (more : List Statement)
      (run : r.run (tokens.map Returned.token) = some (.idle, more))
      (result : parsed.accepted = true ∧ parsed.statements = stmts ++ more)
  | unfinished (r' : Reading) (more : List Statement) (hopen : r' ≠ .idle)
      (run : r.run (tokens.map Returned.token) = some (r', more))
      (result : parsed =
        ⟨stmts ++ more, false, ⟨(tokens.map Returned.start).getLastD start, [], false⟩⟩)
  | refused (before : List (Returned Char Start Token)) (last : Returned Char Start Token)
      (after : List (Returned Char Start Token)) (r' : Reading) (more : List Statement)
      (split : tokens = before ++ last :: after)
      (run : r.run (before.map Returned.token) = some (r', more))
      (wrong : r'.next last.token = none)
      (result : parsed = ⟨stmts ++ more, false, left last⟩)

theorem Parse.consume_yields (left : Returned Char Start Token → Held) (start : Start) {p : Parse}
    {r : Reading} {stmts : List Statement} (h : Shows p r stmts)
    (tokens : List (Returned Char Start Token)) :
    Yields left start r stmts tokens (p.consume left start tokens) := by
  induction tokens generalizing start p r stmts with
  | nil =>
    by_cases hopen : r = .idle
    · subst hopen
      obtain ⟨p', hfeed, hstmts⟩ := h.accepted
      refine .accepted [] rfl ?_
      simp [consume, hfeed, hstmts]
    · obtain ⟨p', hfeed, hstmts⟩ := h.unfinished hopen
      refine .unfinished r [] hopen rfl ?_
      simp [consume, hfeed, hstmts]
  | cons last tokens ih =>
    cases hnext : r.next last.token with
    | none =>
      obtain ⟨p', hfeed, hstmts⟩ := h.refused hnext
      refine .refused [] last tokens r [] rfl rfl hnext ?_
      simp [consume, hfeed, hstmts]
    | some result =>
      obtain ⟨r', completed⟩ := result
      obtain ⟨p', hfeed, hshows⟩ := h.shifted hnext
      have hrun := Reading.run_cons hnext
      have hconsume : p.consume left start (last :: tokens) = p'.consume left last.start tokens := by
        rw [consume, hfeed]
      rw [hconsume]
      cases ih last.start hshows with
      | accepted more run result =>
        exact .accepted (completed ++ more) (by simp [hrun, run]) (by simp [result])
      | unfinished r'' more hopen run result =>
        refine .unfinished r'' (completed ++ more) hopen (by simp [hrun, run]) ?_
        rw [result, List.map_cons, List.getLastD_cons, List.append_assoc]
      | refused before wrong after r'' more split run hwrong result =>
        exact .refused (last :: before) wrong after r'' (completed ++ more) (by simp [split])
          (by simp [hrun, run]) hwrong (by simp [result])

/-! ## What `yyparse` takes of a text -/

theorem yyparse_yields (ahead : ReadAhead) (held : Option Held) (text : List Char) :
    Yields (ahead.left (lexInput held text).2) (lexInput held text).1 .idle []
      (yylex (lexInput held text).1 (lexInput held text).2) (yyparse ahead held text) :=
  Parse.consume_yields _ _ .begin _

theorem yyparse_accepts_program (ahead : ReadAhead) (held : Option Held) (text : List Char)
    (stmts : List Statement) :
    ((yyparse ahead held text).accepted = true ∧ (yyparse ahead held text).statements = stmts) ↔
      IsProgram ((yylex (lexInput held text).1 (lexInput held text).2).map Returned.token) stmts := by
  rw [isProgram_iff_run]
  cases yyparse_yields ahead held text with
  | accepted more run result =>
    rw [run, result.1, result.2]
    simp
  | unfinished r more hopen run result =>
    rw [run, result]
    simp [hopen]
  | refused before last after r more split run wrong result =>
    rw [split, List.map_append, Reading.run_append, run, result]
    simp [Reading.run, wrong]

/-- A text is accepted exactly if its lexemes are a program, and this program is what is built. -/
theorem yyparse_accepts_iff (ahead : ReadAhead) (held : Option Held) (text : List Char)
    (stmts : List Statement) :
    ((yyparse ahead held text).accepted = true ∧ (yyparse ahead held text).statements = stmts) ↔
      ∃ tokens, Cut (lexInput held text).1 (lexInput held text).2 tokens ∧
        IsProgram (tokens.map Returned.token) stmts := by
  rw [yyparse_accepts_program]
  simp only [cut_iff, exists_eq_left']

/-- Of a text that is refused, the complete statements at its front are built.  The scanner stops
behind the first token that no program goes on with, or at the end, where it keeps the start
condition of the last token and nothing else. -/
theorem yyparse_refused (ahead : ReadAhead) (held : Option Held) (text : List Char)
    (h : (yyparse ahead held text).accepted = false) :
    ∃ passed later, Cut (lexInput held text).1 (lexInput held text).2 (passed ++ later) ∧
      Viable (passed.map Returned.token) ∧
      (∃ whole pending, passed.map Returned.token = whole ++ pending ∧
        IsProgram whole (yyparse ahead held text).statements ∧
        ∀ us stmts, us <+: passed.map Returned.token → IsProgram us stmts → us <+: whole) ∧
      (later = [] ∧ (∀ stmts, ¬IsProgram (passed.map Returned.token) stmts) ∧
          (yyparse ahead held text).left =
            ⟨(passed.map Returned.start).getLastD (lexInput held text).1, [], false⟩ ∨
        ∃ last after, later = last :: after ∧ ¬Viable ((passed ++ [last]).map Returned.token) ∧
          (yyparse ahead held text).left = ahead.left (lexInput held text).2 last) := by
  have hwhole : ∀ {ts : List Token} {r : Reading} {stmts : List Statement},
      Reading.idle.run ts = some (r, stmts) → ∃ whole pending, ts = whole ++ pending ∧
        IsProgram whole stmts ∧ ∀ us stmts', us <+: ts → IsProgram us stmts' → us <+: whole := by
    intro ts r stmts hrun
    refine ⟨_, r.tokens, ?_, isProgram_iff.mpr rfl, ?_⟩
    · simpa [Reading.tokens] using Reading.run_tokens hrun
    · rintro us stmts' ⟨rest, rfl⟩ hprogram
      rw [Reading.run_append, isProgram_iff_run.mp hprogram] at hrun
      obtain ⟨later, -, hlater⟩ := Option.map_eq_some_iff.mp hrun
      cases hlater
      rw [isProgram_iff.mp hprogram, List.flatMap_append]
      exact List.prefix_append _ _
  cases yyparse_yields ahead held text with
  | accepted more run result =>
    rw [result.1] at h
    cases h
  | unfinished r more hopen run result =>
    rw [result]
    refine ⟨_, [], (cut_iff _ _ _).mpr (List.append_nil _).symm, viable_iff_run.mpr ⟨r, more, run⟩,
      hwhole run, .inl ⟨rfl, fun stmts hprogram => hopen ?_, rfl⟩⟩
    rw [isProgram_iff_run, run] at hprogram
    cases hprogram
    rfl
  | refused before last after r more split run wrong result =>
    rw [result]
    refine ⟨before, last :: after, (cut_iff _ _ _).mpr split, viable_iff_run.mpr ⟨r, more, run⟩,
      hwhole run, .inr ⟨last, after, rfl, fun hviable => ?_, rfl⟩⟩
    obtain ⟨r', stmts, hrun⟩ := viable_iff_run.mp hviable
    rw [List.map_append, Reading.run_append, run] at hrun
    simp [Reading.run, wrong] at hrun

/-- `a(b); c d` -/
theorem yyparse_refused_ident :
    ∃ passed later, Cut .initial "a(b); c d".toList (passed ++ later) ∧
      Viable (passed.map Returned.token) ∧
      (∃ whole pending, passed.map Returned.token = whole ++ pending ∧
        IsProgram whole (yyparse .all none "a(b); c d".toList).statements ∧
        ∀ us stmts, us <+: passed.map Returned.token → IsProgram us stmts → us <+: whole) ∧
      (later = [] ∧ (∀ stmts, ¬IsProgram (passed.map Returned.token) stmts) ∧
          (yyparse .all none "a(b); c d".toList).left =
            ⟨(passed.map Returned.start).getLastD .initial, [], false⟩ ∨
        ∃ last after, later = last :: after ∧ ¬Viable ((passed ++ [last]).map Returned.token) ∧
          (yyparse .all none "a(b); c d".toList).left =
            ReadAhead.all.left "a(b); c d".toList last) :=
  yyparse_refused .all none "a(b); c d".toList (by decide)

end MidnightOS.Mbuild
