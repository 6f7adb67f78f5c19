import MidnightOS.Lib.FallibleState
import Mathlib.Data.List.Perm.Basic
import Mathlib.Data.String.Basic

/-! # The object tree generator (`mbuild/ast.c`, `mbuild/eval.cc`)

The statements of an `mbuild` file change lists of paths, and every directory in a
list is included in turn.  The generated scanner and parser are a parameter: the
statements they take from a file and whether they accept it.  `ast_free` does not
reset `ast`, so the next file finds a pointer to freed nodes; whatever follows it has
no meaning.
-/

namespace MidnightOS.Mbuild

open MidnightOS.Lib

abbrev Path := String

/-! ## Statements -/

inductive Op where
  | invalid
  | add
  | set
  | remove
deriving DecidableEq

def astDecodeOp (opStr : String) : Op :=
  if opStr = ".add" then .add
  else if opStr = ".set" then .set
  else if opStr = ".remove" then .remove
  else .invalid

/-- A statement as the grammar reduces it. -/
structure Statement where
  ident : String
  op : Option String
  list : List String
  qualifiers : List String

structure AstNode where
  ident : String
  op : Op
  list : List String
  qualifiers : List String

def Statement.node (stmt : Statement) : AstNode :=
  ⟨stmt.ident, (stmt.op.map astDecodeOp).getD .add, stmt.list, stmt.qualifiers⟩

/-- What `ast` points to.  It is null where the list is empty. -/
inductive Ast where
  | live (nodes : List AstNode)
  | freed

/-- A parse of a file: the statements up to its end or its first error, and what a scanner that
stopped at an error still holds. -/
structure Parsed (Left : Type) where
  statements : List Statement
  accepted : Bool
  left : Left

/-- The generated parser.  It starts afresh after a file that it accepted. -/
structure Parser (Text Left : Type) where
  yyparse : Option Left → Text → Parsed Left

/-! ## Files and lists -/

/-- The directories, their `mbuild` files and `weakly_canonical`.  Paths with one canonical form
are one directory. -/
structure FileSystem (Text : Type) where
  isDirectory : Path → Bool
  mbuild : Path → Option Text
  weaklyCanonical : Path → Path
  mbuild_canonical : ∀ p q, weaklyCanonical p = weaklyCanonical q → mbuild p = mbuild q

/-- `dir / e` -/
def joinPath (dir e : Path) : Path :=
  if e.toList.head? = some '/' ∨ dir = "" then e
  else if dir.toList.getLast? = some '/' then dir ++ e
  else dir ++ "/" ++ e

/-- A `std::set` of paths, in its order. -/
abbrev PathSet := List Path

def PathSet.insert (e : Path) : PathSet → PathSet
  | [] => [e]
  | x :: xs => if e < x then e :: x :: xs else if e = x then x :: xs else x :: PathSet.insert e xs

def PathSet.erase (e : Path) (data : PathSet) : PathSet := data.filter (· ≠ e)

/-- `g_lists`, with one entry for each name. -/
abbrev Lists := List (String × PathSet)

/-- `g_lists[ident]`, changed. -/
def Lists.update (ident : String) (f : PathSet → PathSet) : Lists → Lists
  | [] => [(ident, f [])]
  | (name, data) :: lists =>
    if name = ident then (name, f data) :: lists else (name, data) :: Lists.update ident f lists

/-- `g_lists[ident].data`, if there is such a list. -/
def Lists.data (name : String) (lists : Lists) : PathSet :=
  ((lists.find? fun entry => entry.1 = name).map Prod.snd).getD []

/-- One operation on each entry. -/
def Lists.each (ident : String) (f : Path → PathSet → PathSet) (entries : List Path)
    (lists : Lists) : Lists :=
  entries.foldl (fun lists e => lists.update ident (f e)) lists

/-! ## Evaluation -/

inductive Status where
  | success
  | failure
deriving DecidableEq

/-- Why a run has no result. -/
inductive Fault where
  /-- a use of the nodes that `ast_free` freed -/
  | freed
  /-- calls nested deeper than the model follows them -/
  | depth
deriving DecidableEq

/-- What is seen of a run: a warning, or that the statements of a file were all applied. -/
inductive Event where
  | warned (dir : Path)
  | evaluated (dir : Path)
deriving DecidableEq

structure State (Left : Type) where
  ast : Ast
  left : Option Left
  lists : Lists
  visited : List Path
  log : List Event

abbrev EvalM (Left : Type) := EStateM Fault (State Left)

/-- The order in which the entries of `g_lists` are visited: it may differ from one state to the
next. -/
structure Order (Left : Type) where
  visit : State Left → List String
  perm : ∀ s, (visit s).Perm (s.lists.map Prod.fst)

section Evaluation

variable {Text Left : Type}

def logEvent (event : Event) : EvalM Left Unit := modify fun s => { s with log := s.log ++ [event] }

def astInsertNode (stmt : Statement) : EvalM Left Unit := do
  let s ← get
  match s.ast with
  | .live nodes => set { s with ast := .live (nodes ++ [stmt.node]) }
  | .freed => throw .freed

def insertNodes : List Statement → EvalM Left Unit
  | [] => pure ()
  | stmt :: stmts => do
    astInsertNode stmt
    insertNodes stmts

/-- `for (n = ast; n; n = n->next)` starts at these nodes. -/
def astNodes : EvalM Left (List AstNode) := do
  let s ← get
  match s.ast with
  | .live nodes => pure nodes
  | .freed => throw .freed

/-- The pointer is kept. -/
def astFree : EvalM Left Unit := do
  let s ← get
  match s.ast with
  | .live [] => pure ()
  | .live (_ :: _) => set { s with ast := .freed }
  | .freed => throw .freed

/-- The actions of a parse, and `yyparse() != 0`. -/
def Parsed.run (parsed : Parsed Left) : EvalM Left Status := do
  insertNodes parsed.statements
  modify fun s => { s with left := if parsed.accepted then none else some parsed.left }
  pure (if parsed.accepted then .success else .failure)

def parse (fs : FileSystem Text) (parser : Parser Text Left) (dir : Path) : EvalM Left Status :=
  if fs.isDirectory dir then
    match fs.mbuild dir with
    | none => pure .failure
    | some text => do
      let s ← get
      (parser.yyparse s.left text).run
  else
    pure .failure

/-- What a node does to the lists, if its operation is known. -/
def nodeLists (fs : FileSystem Text) (dir : Path) (node : AstNode) (lists : Lists) : Option Lists :=
  let entries := node.list.map fun e => fs.weaklyCanonical (joinPath dir e)
  match node.op with
  | .add => some (lists.each node.ident PathSet.insert entries)
  | .set => some ((lists.update node.ident fun _ => []).each node.ident PathSet.insert entries)
  | .remove => some (lists.each node.ident PathSet.erase entries)
  | .invalid => none

def evalNode (fs : FileSystem Text) (dir : Path) (node : AstNode) : EvalM Left Status := do
  let s ← get
  match nodeLists fs dir node s.lists with
  | some lists =>
    set { s with lists }
    pure .success
  | none => pure .failure

def evalNodes (fs : FileSystem Text) (dir : Path) : List AstNode → EvalM Left Status
  | [] => pure .success
  | node :: nodes => do
    match ← evalNode fs dir node with
    | .success => evalNodes fs dir nodes
    | .failure => pure .failure

def warnMissing (fs : FileSystem Text) (e : Path) : EvalM Left Unit :=
  if (fs.mbuild e).isNone then logEvent (.warned e) else pure ()

/-- `resolve_include` on the copied list, where `enter` is `eval_internal`. -/
def resolveInclude (fs : FileSystem Text) (enter : Path → EvalM Left Status) :
    PathSet → EvalM Left Status
  | [] => pure .success
  | e :: data =>
    if fs.isDirectory e then do
      -- the warning does not skip the directory
      warnMissing fs e
      let s ← get
      if s.visited.contains e then
        resolveInclude fs enter data
      else
        set { s with visited := e :: s.visited }
        match ← enter e with
        | .success => resolveInclude fs enter data
        | .failure => pure .failure
    else
      resolveInclude fs enter data

/-- The loop over `g_lists`, which ignores what `resolve_include` returns. -/
def resolveLists (fs : FileSystem Text) (enter : Path → EvalM Left Status) :
    List String → EvalM Left Unit
  | [] => pure ()
  | name :: names => do
    let s ← get
    let _ ← resolveInclude fs enter (s.lists.data name)
    resolveLists fs enter names

/-- `eval_internal`, with its calls nested at most `depth` deep. -/
def evalInternal (fs : FileSystem Text) (parser : Parser Text Left) (order : Order Left) :
    (depth : Nat) → (dir : Path) → EvalM Left Status
  | 0, _ => throw .depth
  | depth + 1, dir => do
    match ← parse fs parser dir with
    | .failure => pure .failure
    | .success =>
      let nodes ← astNodes
      match ← evalNodes fs dir nodes with
      | .failure => pure .failure
      | .success =>
        astFree
        logEvent (.evaluated dir)
        -- no entry is added meanwhile: the walk does not get past the parse of another file
        let s ← get
        resolveLists fs (evalInternal fs parser order depth) (order.visit s)
        pure .success

/-- The state before `main`. -/
def State.initial : State Left := ⟨.live [], none, [], [], []⟩

/-- The lists without their directories. -/
def Lists.files (fs : FileSystem Text) (lists : Lists) : Lists :=
  lists.map fun entry => (entry.1, entry.2.filter fun e => ¬fs.isDirectory e)

def eval (fs : FileSystem Text) (parser : Parser Text Left) (order : Order Left) (depth : Nat)
    (dir : Path) : EvalM Left Status := do
  match ← evalInternal fs parser order depth dir with
  | .failure => pure .failure
  | .success =>
    modify fun s => { s with lists := s.lists.files fs }
    pure .success

end Evaluation

end MidnightOS.Mbuild
