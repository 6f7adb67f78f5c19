import MidnightOS.Mbuild.Scanner
import MidnightOS.Mbuild.Eval

/-! # The grammar (`mbuild/parser.y`)

The productions as relations between tokens and semantic values, and the parser that
`bison` makes of them: the states of its automaton are named after the items they go
on with.  A reduction that looks at no token is done before the next one is read, so
the node of a statement is inserted as soon as its `;` is there.
-/

namespace MidnightOS.Mbuild

open MidnightOS.Lib

/-! ## The productions -/

inductive IsOp : List Token → Option String → Prop
  | empty : IsOp [] none
  | op (sval : String) : IsOp [.op sval] (some sval)

inductive IsListItems : List Token → List String → Prop
  | first (sval : String) : IsListItems [.listIdent sval] [sval]
  | next {ts : List Token} {values : List String} (items : IsListItems ts values)
      (sval : String) : IsListItems (ts ++ [.comma, .listIdent sval]) (values ++ [sval])

inductive IsList : List Token → List String → Prop
  | empty : IsList [] []
  | items {ts : List Token} {values : List String} (items : IsListItems ts values) :
      IsList ts values

inductive IsQualifierListItems : List Token → List String → Prop
  | first (sval : String) : IsQualifierListItems [.ident sval] [sval]
  | next {ts : List Token} {values : List String} (items : IsQualifierListItems ts values)
      (sval : String) : IsQualifierListItems (ts ++ [.ident sval]) (values ++ [sval])

inductive IsQualifierList : List Token → List String → Prop
  | empty : IsQualifierList [] []
  | items {ts : List Token} {values : List String} (items : IsQualifierListItems ts values) :
      IsQualifierList ts values

inductive IsStatement : List Token → Statement → Prop
  | statement (ident : String) {opTokens listTokens qualifierTokens : List Token}
      {op : Option String} {list qualifiers : List String} (hop : IsOp opTokens op)
      (hlist : IsList listTokens list) (hqualifiers : IsQualifierList qualifierTokens qualifiers) :
      IsStatement
        (.ident ident :: opTokens ++ [.lparen] ++ listTokens ++ [.rparen] ++ qualifierTokens ++
          [.semicolon])
        ⟨ident, op, list, qualifiers⟩

inductive IsProgram : List Token → List Statement → Prop
  | empty : IsProgram [] []
  | statement {ts us : List Token} {stmts : List Statement} {stmt : Statement}
      (program : IsProgram ts stmts) (next : IsStatement us stmt) :
      IsProgram (ts ++ us) (stmts ++ [stmt])

/-! ## The automaton -/

/-- `YYSTYPE`; the operation is not decoded yet. -/
inductive Value where
  | unset
  | ival (op : Option String)
  | sval (sval : String)
  | list (values : List String)

def Value.toString : Value → String
  | .sval word => word
  | _ => ""

def Value.toOp : Value → Option String
  | .ival op => op
  | _ => none

def Value.toList : Value → List String
  | .list values => values
  | _ => []

def Token.value : Token → Value
  | .ident word => .sval word
  | .listIdent word => .sval word
  | .op word => .sval word
  | _ => .unset

inductive Nonterminal where
  | program
  | statement
  | op
  | list
  | listItems
  | qualifierList
  | qualifierListItems

inductive Production where
  | programEmpty
  | programStatement
  | statement
  | opEmpty
  | opToken
  | listEmpty
  | list
  | listItemsFirst
  | listItemsNext
  | qualifierListEmpty
  | qualifierList
  | qualifierListItemsFirst
  | qualifierListItemsNext

def Production.lhs : Production → Nonterminal
  | .programEmpty => .program
  | .programStatement => .program
  | .statement => .statement
  | .opEmpty => .op
  | .opToken => .op
  | .listEmpty => .list
  | .list => .list
  | .listItemsFirst => .listItems
  | .listItemsNext => .listItems
  | .qualifierListEmpty => .qualifierList
  | .qualifierList => .qualifierList
  | .qualifierListItemsFirst => .qualifierListItems
  | .qualifierListItemsNext => .qualifierListItems

def Production.length : Production → Nat
  | .programEmpty => 0
  | .programStatement => 2
  | .statement => 7
  | .opEmpty => 0
  | .opToken => 1
  | .listEmpty => 0
  | .list => 1
  | .listItemsFirst => 1
  | .listItemsNext => 3
  | .qualifierListEmpty => 0
  | .qualifierList => 1
  | .qualifierListItemsFirst => 1
  | .qualifierListItemsNext => 2

/-- `$$`, from `$1` and the values after it. -/
def Production.action : Production → List Value → Value
  | .opEmpty, [] => .ival none
  | .opToken, [op] => .ival (some op.toString)
  | .listEmpty, [] => .list []
  | .list, [items] => items
  | .listItemsFirst, [word] => .list [word.toString]
  | .listItemsNext, [items, _, word] => .list (items.toList ++ [word.toString])
  | .qualifierListEmpty, [] => .list []
  | .qualifierList, [items] => items
  | .qualifierListItemsFirst, [word] => .list [word.toString]
  | .qualifierListItemsNext, [items, word] => .list (items.toList ++ [word.toString])
  | _, _ => .unset

/-- What the action gives to `ast_insert_node`. -/
def Production.inserts : Production → List Value → Option Statement
  | .statement, [name, op, _, items, _, qualifiers, _] =>
    some ⟨name.toString, op.toOp, items.toList, qualifiers.toList⟩
  | _, _ => none

/-- The states, each after the symbol that it has just passed. -/
inductive LrState where
  /-- `program: . program statement` -/
  | start
  /-- `program: program . statement` -/
  | program
  /-- `program: program statement .` -/
  | statement
  /-- `statement: T_IDENT . op '(' list ')' qualifier_list ';'` -/
  | ident
  /-- `op: T_OP .` -/
  | opToken
  /-- `statement: T_IDENT op . '(' list ')' qualifier_list ';'` -/
  | op
  /-- `statement: T_IDENT op '(' . list ')' qualifier_list ';'` -/
  | lparen
  /-- `list_items: T_LIST_IDENT .` -/
  | listIdent
  /-- `list: list_items .`, `list_items: list_items . ',' T_LIST_IDENT` -/
  | listItems
  /-- `list_items: list_items ',' . T_LIST_IDENT` -/
  | comma
  /-- `list_items: list_items ',' T_LIST_IDENT .` -/
  | nextListIdent
  /-- `statement: T_IDENT op '(' list . ')' qualifier_list ';'` -/
  | list
  /-- `statement: T_IDENT op '(' list ')' . qualifier_list ';'` -/
  | rparen
  /-- `qualifier_list_items: T_IDENT .` -/
  | qualifier
  /-- `qualifier_list: qualifier_list_items .`,
  `qualifier_list_items: qualifier_list_items . T_IDENT` -/
  | qualifierItems
  /-- `qualifier_list_items: qualifier_list_items T_IDENT .` -/
  | nextQualifier
  /-- `statement: T_IDENT op '(' list ')' qualifier_list . ';'` -/
  | qualifierList
  /-- `statement: T_IDENT op '(' list ')' qualifier_list ';' .` -/
  | semicolon

inductive Action where
  | shift (next : LrState)
  | reduce (production : Production)
  | accept
  | error

/-- What is done at the next token, which is none at the end of the file.  A reduction that is
right for some tokens is done for all that are not shifted. -/
def LrState.action : LrState → Option Token → Action
  | .start, _ => .reduce .programEmpty
  | .program, some (.ident _) => .shift .ident
  | .program, none => .accept
  | .program, _ => .error
  | .statement, _ => .reduce .programStatement
  | .ident, some (.op _) => .shift .opToken
  | .ident, _ => .reduce .opEmpty
  | .opToken, _ => .reduce .opToken
  | .op, some .lparen => .shift .lparen
  | .op, _ => .error
  | .lparen, some (.listIdent _) => .shift .listIdent
  | .lparen, _ => .reduce .listEmpty
  | .listIdent, _ => .reduce .listItemsFirst
  | .listItems, some .comma => .shift .comma
  | .listItems, _ => .reduce .list
  | .comma, some (.listIdent _) => .shift .nextListIdent
  | .comma, _ => .error
  | .nextListIdent, _ => .reduce .listItemsNext
  | .list, some .rparen => .shift .rparen
  | .list, _ => .error
  | .rparen, some (.ident _) => .shift .qualifier
  | .rparen, _ => .reduce .qualifierListEmpty
  | .qualifier, _ => .reduce .qualifierListItemsFirst
  | .qualifierItems, some (.ident _) => .shift .nextQualifier
  | .qualifierItems, _ => .reduce .qualifierList
  | .nextQualifier, _ => .reduce .qualifierListItemsNext
  | .qualifierList, some .semicolon => .shift .semicolon
  | .qualifierList, _ => .error
  | .semicolon, _ => .reduce .statement

def LrState.goto : LrState → Nonterminal → Option LrState
  | .start, .program => some .program
  | .program, .statement => some .statement
  | .ident, .op => some .op
  | .lparen, .list => some .list
  | .lparen, .listItems => some .listItems
  | .rparen, .qualifierList => some .qualifierList
  | .rparen, .qualifierListItems => some .qualifierItems
  | _, _ => none

/-! ## The driver -/

/-- The stack, top first, and the statements whose nodes are inserted. -/
structure Parse where
  stack : List (LrState × Value)
  statements : List Statement

def Parse.begin : Parse := ⟨[(.start, .unset)], []⟩

def Parse.state (p : Parse) : Option LrState := p.stack.head?.map Prod.fst

def Parse.reduce (p : Parse) (production : Production) : Option Parse := do
  let values := ((p.stack.take production.length).map Prod.snd).reverse
  let below := p.stack.drop production.length
  let (state, _) ← below.head?
  let next ← state.goto production.lhs
  let statements := match production.inserts values with
    | some stmt => p.statements ++ [stmt]
    | none => p.statements
  pure ⟨(next, production.action values) :: below, statements⟩

inductive Outcome where
  | shifted (p : Parse)
  | accepted (p : Parse)
  | refused (p : Parse)
  /-- no state to go on with -/
  | stuck

/-- The reductions before a token and what becomes of it.  At most `reductions` are followed. -/
def Parse.feed (token : Option Token) : (reductions : Nat) → Parse → Outcome
  | 0, _ => .stuck
  | reductions + 1, p =>
    match p.state.map (LrState.action · token) with
    | some (.shift next) =>
      .shifted { p with stack := (next, (token.map Token.value).getD .unset) :: p.stack }
    | some (.reduce production) =>
      match p.reduce production with
      | some p => p.feed token reductions
      | none => .stuck
    | some .accept => .accepted p
    | some .error => .refused p
    | none => .stuck

/-- No more than two reductions stand between two tokens. -/
def maxFeed : Nat := 3

/-! ## `yyparse` -/

/-- A scanner that was stopped: its start condition, the rest of its buffer, and whether it saw
the end of the file. -/
structure Held where
  start : Start
  text : List Char
  ended : Bool

/-- The scanner reads a file in blocks: of the text after a token it holds a part. -/
structure ReadAhead where
  held : (text rest : List Char) → List Char × Bool
  held_prefix : ∀ text rest, (held text rest).1 <+: rest
  ended : ∀ text rest, (held text rest).2 = true → rest = []

def ReadAhead.all : ReadAhead where
  held _ rest := (rest, false)
  held_prefix _ rest := List.prefix_refl rest
  ended _ _ h := by cases h

def ReadAhead.left (ahead : ReadAhead) (text : List Char) (last : Returned Char Start Token) :
    Held :=
  ⟨last.start, (ahead.held text last.rest).1, (ahead.held text last.rest).2⟩

/-- The start condition and the text of the next call of `yyparse`.  The buffer is read on before
the new file. -/
def lexInput : Option Held → List Char → Start × List Char
  | none, text => (.initial, text)
  | some held, text => (held.start, if held.ended then [] else held.text ++ text)

def Parse.consume (left : Returned Char Start Token → Held) :
    Start → Parse → List (Returned Char Start Token) → Parsed Held
  | start, p, [] =>
    match p.feed none maxFeed with
    | .accepted p => ⟨p.statements, true, ⟨start, [], false⟩⟩
    | .refused p => ⟨p.statements, false, ⟨start, [], false⟩⟩
    | _ => ⟨p.statements, false, ⟨start, [], false⟩⟩
  | _, p, last :: tokens =>
    match p.feed (some last.token) maxFeed with
    | .shifted p => p.consume left last.start tokens
    | .refused p => ⟨p.statements, false, left last⟩
    | _ => ⟨p.statements, false, left last⟩

def yyparse (ahead : ReadAhead) (held : Option Held) (text : List Char) : Parsed Held :=
  let (start, input) := lexInput held text
  Parse.begin.consume (ahead.left input) start (yylex start input)

def mbuildParser (ahead : ReadAhead) : Parser (List Char) Held := ⟨yyparse ahead⟩

end MidnightOS.Mbuild
