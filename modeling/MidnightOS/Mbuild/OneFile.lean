import MidnightOS.Mbuild.Eval

/-! # One file, and the loop after it

A call of `eval_internal` reads the file of a directory and then goes over the lists.
What reading it does depends on what `ast` points to: into an empty tree a file is
parsed as it stands, while behind freed nodes it is refused at once or not read at all.
-/

namespace MidnightOS.Mbuild

open MidnightOS.Lib

variable {Text Left : Type} {fs : FileSystem Text} {parser : Parser Text Left}

/-! ## The two parts of a call -/

/-- `eval_internal` up to `ast_free`. -/
def readFile (fs : FileSystem Text) (parser : Parser Text Left) (dir : Path) :
    EvalM Left Status := do
  match ← parse fs parser dir with
  | .failure => pure .failure
  | .success =>
    let nodes ← astNodes
    match ← evalNodes fs dir nodes with
    | .failure => pure .failure
    | .success =>
      astFree
      logEvent (.evaluated dir)
      pure .success

/-- `eval_internal`, where `file` reads a file and `names` are the lists that the loop comes to. -/
def evalOver (fs : FileSystem Text) (file : Path → EvalM Left Status)
    (names : State Left → List String) : (depth : Nat) → (dir : Path) → EvalM Left Status
  | 0, _ => throw .depth
  | depth + 1, dir => do
    match ← file dir with
    | .failure => pure .failure
    | .success =>
      let s ← get
      resolveLists fs (evalOver fs file names depth) (names s)
      pure .success

theorem evalInternal_eq (fs : FileSystem Text) (parser : Parser Text Left) (order : Order Left)
    (depth : Nat) :
    evalInternal fs parser order depth = evalOver fs (readFile fs parser) order.visit depth := by
  induction depth with
  | zero => rfl
  | succ depth ih =>
    funext dir
    -- both sides leave the file by the same three exits
    rw [evalInternal, evalOver, ih, readFile, bind_assoc]
    congr 1
    funext parsed
    cases parsed with
    | failure => rfl
    | success =>
      dsimp only
      rw [bind_assoc]
      congr 1
      funext nodes
      rw [bind_assoc]
      congr 1
      funext applied
      cases applied with
      | failure => rfl
      | success => simp only [bind_assoc, pure_bind]

section Loop

variable {file : Path → EvalM Left Status} {names : State Left → List String}

theorem evalOver_success {dir : Path} {s t : State Left} (h : file dir s = .ok .success t)
    (depth : Nat) :
    evalOver fs file names (depth + 1) dir s =
      (do
        resolveLists fs (evalOver fs file names depth) (names t)
        pure .success : EvalM Left Status) t := by
  rw [evalOver, bind_of_ok h]
  rfl

theorem evalOver_failure {dir : Path} {s t : State Left} (h : file dir s = .ok .failure t)
    (depth : Nat) : evalOver fs file names (depth + 1) dir s = .ok .failure t := by
  rw [evalOver, bind_of_ok h]
  rfl

theorem evalOver_error {dir : Path} {s t : State Left} {fault : Fault}
    (h : file dir s = .error fault t) (depth : Nat) :
    evalOver fs file names (depth + 1) dir s = .error fault t := by
  rw [evalOver, bind_of_error h]

/-- What the loop meets is ignored: a call succeeds once its own file is read. -/
theorem status_of_file {dir : Path} {s s' t : State Left} {depth : Nat} {status : Status}
    (h : file dir s = .ok .success t)
    (hrun : evalOver fs file names (depth + 1) dir s = .ok status s') : status = .success := by
  rw [evalOver_success h] at hrun
  obtain ⟨_, _, _, hreturn⟩ := bind_eq_ok.mp hrun
  cases hreturn
  rfl

end Loop

/-! ## A file that starts with an empty tree -/

theorem parse_notDirectory {dir : Path} (h : ¬fs.isDirectory dir = true) (s : State Left) :
    parse fs parser dir s = .ok .failure s := by
  rw [parse, if_neg h]
  rfl

theorem parse_missing {dir : Path} (h : fs.mbuild dir = none) (s : State Left) :
    parse fs parser dir s = .ok .failure s := by
  by_cases hdir : fs.isDirectory dir = true
  · rw [parse, if_pos hdir, h]
    rfl
  · exact parse_notDirectory hdir s

theorem parse_file (parser : Parser Text Left) {dir : Path} (hdir : fs.isDirectory dir = true)
    {text : Text} (h : fs.mbuild dir = some text) (s : State Left) :
    parse fs parser dir s = (parser.yyparse s.left text).run s := by
  rw [parse, if_pos hdir, h]
  rfl

theorem insertNodes_live {nodes : List AstNode} (stmts : List Statement) {s : State Left}
    (h : s.ast = .live nodes) :
    insertNodes stmts s = .ok () { s with ast := .live (nodes ++ stmts.map Statement.node) } := by
  induction stmts generalizing nodes s with
  | nil =>
    rw [List.map_nil, List.append_nil, ← h]
    rfl
  | cons stmt stmts ih =>
    have hfirst : astInsertNode stmt s = .ok () { s with ast := .live (nodes ++ [stmt.node]) } := by
      rw [astInsertNode, get_bind, h]
      rfl
    rw [insertNodes, bind_of_ok hfirst, ih rfl, List.append_assoc]
    rfl

/-- The lists after the statements of one file, if every operation is known. -/
def nodesLists (fs : FileSystem Text) (dir : Path) : List AstNode → Lists → Option Lists
  | [], lists => some lists
  | node :: nodes, lists => (nodeLists fs dir node lists).bind (nodesLists fs dir nodes)

theorem evalNode_some {fs : FileSystem Text} {dir : Path} {node : AstNode} {lists : Lists}
    {s : State Left} (h : nodeLists fs dir node s.lists = some lists) :
    evalNode fs dir node s = .ok .success { s with lists } := by
  rw [evalNode, get_bind, h]
  rfl

theorem evalNode_none {dir : Path} {node : AstNode} {s : State Left}
    (h : nodeLists fs dir node s.lists = none) : evalNode fs dir node s = .ok .failure s := by
  rw [evalNode, get_bind, h]
  rfl

theorem evalNodes_some {fs : FileSystem Text} {dir : Path} {nodes : List AstNode} {lists : Lists}
    {s : State Left} (h : nodesLists fs dir nodes s.lists = some lists) :
    evalNodes fs dir nodes s = .ok .success { s with lists } := by
  induction nodes generalizing s with
  | nil =>
    cases h
    rfl
  | cons node nodes ih =>
    rw [nodesLists, Option.bind_eq_some_iff] at h
    obtain ⟨between, hnode, hrest⟩ := h
    rw [evalNodes, bind_of_ok (evalNode_some hnode)]
    exact ih hrest

theorem evalNodes_none {dir : Path} {nodes : List AstNode} {s : State Left}
    (h : nodesLists fs dir nodes s.lists = none) :
    ∃ s', evalNodes fs dir nodes s = .ok .failure s' := by
  induction nodes generalizing s with
  | nil => cases h
  | cons node nodes ih =>
    cases hnode : nodeLists fs dir node s.lists with
    | none => exact ⟨s, by rw [evalNodes, bind_of_ok (evalNode_none hnode)]; rfl⟩
    | some between =>
      rw [nodesLists, hnode, Option.bind_some] at h
      obtain ⟨s', hrest⟩ := ih (s := { s with lists := between }) h
      exact ⟨s', by rw [evalNodes, bind_of_ok (evalNode_some hnode)]; exact hrest⟩

/-- What the first file leaves of its nodes. -/
def astAfter (nodes : List AstNode) : Ast :=
  if nodes.isEmpty then .live [] else .freed

theorem astFree_live {nodes : List AstNode} {s : State Left} (h : s.ast = .live nodes) :
    astFree s = .ok () { s with ast := astAfter nodes } := by
  obtain ⟨ast, left, lists, visited, log⟩ := s
  cases h
  cases nodes with
  | nil => rfl
  | cons node nodes => rfl

/-- The lists after the file of a directory, if it is accepted and every operation is known. -/
def fileLists (fs : FileSystem Text) (parser : Parser Text Left) (dir : Path)
    (left : Option Left) (lists : Lists) : Option Lists :=
  if fs.isDirectory dir then
    (fs.mbuild dir).bind fun text =>
      if (parser.yyparse left text).accepted then
        nodesLists fs dir ((parser.yyparse left text).statements.map Statement.node) lists
      else
        none
  else
    none

/-- The actions of a parse, from an empty tree. -/
theorem Parsed.run_live (parsed : Parsed Left) {s : State Left} (h : s.ast = .live []) :
    parsed.run s = .ok (if parsed.accepted then .success else .failure)
      { s with
        ast := .live (parsed.statements.map Statement.node),
        left := if parsed.accepted then none else some parsed.left } := by
  rw [Parsed.run, bind_of_ok (insertNodes_live parsed.statements h)]
  rfl

theorem readFile_accepted {dir : Path} {lists : Lists} {s : State Left} (hast : s.ast = .live [])
    (h : fileLists fs parser dir s.left s.lists = some lists) :
    ∃ nodes, nodesLists fs dir nodes s.lists = some lists ∧
      readFile fs parser dir s = .ok .success
        { s with
          ast := astAfter nodes, left := none, lists, log := s.log ++ [.evaluated dir] } := by
  unfold fileLists at h
  split_ifs at h with hdir
  obtain ⟨text, hfile, h⟩ := Option.bind_eq_some_iff.mp h
  split_ifs at h with haccepted
  let nodes := (parser.yyparse s.left text).statements.map Statement.node
  let parsed : State Left := { s with ast := .live nodes, left := none }
  refine ⟨nodes, h, ?_⟩
  have hparse : parse fs parser dir s = .ok .success parsed := by
    rw [parse_file parser hdir hfile, Parsed.run_live _ hast, haccepted]
    rfl
  have hnodes : (astNodes : EvalM Left (List AstNode)) parsed = .ok nodes parsed := rfl
  have heval : evalNodes fs dir nodes parsed = .ok .success { parsed with lists } :=
    evalNodes_some h
  have hfree : astFree { parsed with lists } =
      .ok () { parsed with ast := astAfter nodes, lists } :=
    astFree_live rfl
  rw [readFile, bind_of_ok hparse]
  dsimp only
  rw [bind_of_ok hnodes, bind_of_ok heval]
  dsimp only
  rw [bind_of_ok hfree]
  rfl

theorem readFile_none {dir : Path} {s : State Left} (hast : s.ast = .live [])
    (h : fileLists fs parser dir s.left s.lists = none) :
    ∃ s', readFile fs parser dir s = .ok .failure s' := by
  cases hfile : fs.mbuild dir with
  | none => exact ⟨s, by rw [readFile, bind_of_ok (parse_missing hfile s)]; rfl⟩
  | some text =>
    by_cases hdir : fs.isDirectory dir = true
    · have hparse := parse_file parser hdir hfile s
      rw [Parsed.run_live _ hast] at hparse
      rw [fileLists, if_pos hdir, hfile, Option.bind_some] at h
      cases haccepted : (parser.yyparse s.left text).accepted with
      | false =>
        rw [haccepted] at hparse
        exact ⟨_, by rw [readFile, bind_of_ok hparse]; rfl⟩
      | true =>
        rw [haccepted] at hparse h
        rw [if_pos rfl] at h
        let nodes := (parser.yyparse s.left text).statements.map Statement.node
        let parsed : State Left := { s with ast := .live nodes, left := none }
        have hsuccess : parse fs parser dir s = .ok .success parsed := hparse
        have hnodes : (astNodes : EvalM Left (List AstNode)) parsed = .ok nodes parsed := rfl
        -- parsed, but an operation is not known
        obtain ⟨s', heval⟩ := evalNodes_none (s := parsed) h
        refine ⟨s', ?_⟩
        rw [readFile, bind_of_ok hsuccess]
        dsimp only
        rw [bind_of_ok hnodes, bind_of_ok heval]
        rfl
    · exact ⟨s, by rw [readFile, bind_of_ok (parse_notDirectory hdir s)]; rfl⟩

/-! ## A file behind freed nodes -/

theorem insertNodes_freed {stmt : Statement} {stmts : List Statement} {s : State Left}
    (h : s.ast = .freed) : insertNodes (stmt :: stmts) s = .error .freed s := by
  have hfirst : astInsertNode stmt s = .error .freed s := by
    rw [astInsertNode, get_bind, h]
    rfl
  rw [insertNodes, bind_of_error hfirst]

/-- The parser refuses a file before it has taken a statement from it. -/
def Parsed.refused (parsed : Parsed Left) : Prop := parsed.statements = [] ∧ parsed.accepted = false

instance (parsed : Parsed Left) : Decidable parsed.refused :=
  match h : parsed.statements.isEmpty, hacc : parsed.accepted with
  | true, false => .isTrue ⟨List.isEmpty_iff.mp h, hacc⟩
  | false, _ => .isFalse fun hrefused => by simp [hrefused.1] at h
  | _, true => .isFalse fun hrefused => by simp [hrefused.2] at hacc

theorem Parsed.run_refused {parsed : Parsed Left} (h : parsed.refused) (s : State Left) :
    parsed.run s = .ok .failure { s with left := some parsed.left } := by
  rw [Parsed.run, h.1, h.2]
  rfl

theorem readFile_missing {dir : Path} (h : fs.mbuild dir = none) (s : State Left) :
    readFile fs parser dir s = .ok .failure s := by
  rw [readFile, bind_of_ok (parse_missing h s)]
  rfl

theorem readFile_refused {dir : Path} (hdir : fs.isDirectory dir = true) {text : Text}
    (h : fs.mbuild dir = some text) {s : State Left}
    (hrefused : (parser.yyparse s.left text).refused) :
    readFile fs parser dir s =
      .ok .failure { s with left := some (parser.yyparse s.left text).left } := by
  have hparse := (parse_file parser hdir h s).trans (Parsed.run_refused hrefused s)
  rw [readFile, bind_of_ok hparse]
  rfl

/-- Every other file is taken in through the freed nodes. -/
theorem readFile_freed {dir : Path} (hdir : fs.isDirectory dir = true) {text : Text}
    (h : fs.mbuild dir = some text) {s : State Left} (hfreed : s.ast = .freed)
    (hrefused : ¬(parser.yyparse s.left text).refused) :
    ∃ s', readFile fs parser dir s = .error .freed s' := by
  have hparse := parse_file parser hdir h s
  cases hstmts : (parser.yyparse s.left text).statements with
  | cons stmt stmts =>
    rw [Parsed.run, hstmts, bind_of_error (insertNodes_freed hfreed)] at hparse
    exact ⟨s, by rw [readFile, bind_of_error hparse]⟩
  | nil =>
    have haccepted : (parser.yyparse s.left text).accepted = true := by
      by_contra hnot
      exact hrefused ⟨hstmts, Bool.eq_false_iff.mpr hnot⟩
    rw [Parsed.run, hstmts, haccepted] at hparse
    -- accepted without a statement: the nodes of the earlier file are evaluated again
    have hparsed : parse fs parser dir s = .ok .success { s with left := none } := hparse
    have hnodes : (astNodes : EvalM Left (List AstNode)) { s with left := none } =
        .error .freed { s with left := none } := by
      rw [astNodes, get_bind, hfreed]
      rfl
    refine ⟨{ s with left := none }, ?_⟩
    rw [readFile, bind_of_ok hparsed]
    dsimp only
    rw [bind_of_error hnodes]

/-- Behind freed nodes no file is applied. -/
theorem readFile_not_success {dir : Path} {s s' : State Left} (hfreed : s.ast = .freed) :
    readFile fs parser dir s ≠ .ok .success s' := by
  intro hrun
  cases hfile : fs.mbuild dir with
  | none =>
    rw [readFile_missing hfile] at hrun
    cases hrun
  | some text =>
    by_cases hdir : fs.isDirectory dir = true
    · by_cases hrefused : (parser.yyparse s.left text).refused
      · rw [readFile_refused hdir hfile hrefused] at hrun
        cases hrun
      · obtain ⟨t, hread⟩ := readFile_freed hdir hfile hfreed hrefused
        rw [hread] at hrun
        cases hrun
    · rw [readFile, bind_of_ok (parse_notDirectory hdir s)] at hrun
      cases hrun

end MidnightOS.Mbuild
