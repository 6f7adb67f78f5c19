import MidnightOS.Mbuild.ListContents
import MidnightOS.Mbuild.ListOrder
import Mathlib.Data.List.Sort

/-! # The makefile (`mbuild/emit.cc`, `mbuild/main.cc`)

The documentation of the operations speaks of lists, while `ListState` is a set: what
is written of a list is in the order of its paths, each once.
-/

namespace MidnightOS.Mbuild

open MidnightOS.Lib

variable {Text Left : Type} {fs : FileSystem Text} {parser : Parser Text Left}

/-! ## What is written -/

structure MakeLine where
  ident : String
  contents : List Path

def MakeLine.text (row : MakeLine) : String :=
  row.ident ++ " := " ++ String.join (row.contents.map fun e => e ++ " ") ++ "\n"

/-- The entries of `g_lists` by name, as they come. -/
def makefileLines (names : List String) (lists : Lists) : List MakeLine :=
  names.map fun name => ⟨name, lists.data name⟩

def emitMakefile (names : List String) (lists : Lists) : String :=
  String.join ((makefileLines names lists).map MakeLine.text)

/-- The makefile that `main` writes, if it does. -/
def mbuildMain (fs : FileSystem Text) (parser : Parser Text Left) (order : Order Left)
    (depth : Nat) (inPath : Path) : EvalM Left (Option String) := do
  match ← eval fs parser order depth inPath with
  | .failure => pure none
  | .success =>
    let s ← get
    pure (some (emitMakefile (order.visit s) s.lists))

/-! ## What is documented -/

/-- The entries of a statement, directories aside. -/
def AstNode.files (fs : FileSystem Text) (dir : Path) (node : AstNode) : List Path :=
  (node.entries fs dir).filter fun e => !fs.isDirectory e

/-- What an operation is said to do to a list. -/
def Op.onList (op : Op) (entries contents : List Path) : List Path :=
  match op with
  | .add => contents ++ entries
  | .set => entries
  | .remove => contents.filter (· ∉ entries)
  | .invalid => contents

def AstNode.onList (fs : FileSystem Text) (dir : Path) (name : String) (contents : List Path)
    (node : AstNode) : List Path :=
  if node.ident = name then node.op.onList (node.files fs dir) contents else contents

/-- The list that the documentation gives for a name. -/
def documented (fs : FileSystem Text) (dir : Path) (name : String) (nodes : List AstNode) :
    List Path :=
  nodes.foldl (AstNode.onList fs dir name) []

/-! ## The entries that last -/

/-- A statement takes an entry out of the list of the name. -/
def AstNode.drops (fs : FileSystem Text) (dir : Path) (name : String) (e : Path) (node : AstNode) :
    Bool :=
  node.ident = name ∧ (node.op = .set ∨ node.op = .remove ∧ e ∈ node.files fs dir)

/-- The entries that a statement puts in the list of the name. -/
def AstNode.puts (fs : FileSystem Text) (dir : Path) (name : String) (node : AstNode) : List Path :=
  if node.ident = name ∧ (node.op = .add ∨ node.op = .set) then node.files fs dir else []

/-- The entries that no later statement takes out again, as they were put in. -/
def lasting (fs : FileSystem Text) (dir : Path) (name : String) : List AstNode → List Path
  | [] => []
  | node :: nodes =>
    (node.puts fs dir name).filter (fun e => !nodes.any (AstNode.drops fs dir name e)) ++
      lasting fs dir name nodes

/-- Each statement filters what was there, and appends what it puts in. -/
theorem AstNode.onList_eq (fs : FileSystem Text) (dir : Path) (name : String)
    (contents : List Path) (node : AstNode) :
    node.onList fs dir name contents =
      contents.filter (fun e => !node.drops fs dir name e) ++ node.puts fs dir name := by
  unfold AstNode.onList AstNode.drops AstNode.puts
  by_cases hname : node.ident = name
  · cases hop : node.op with
    | invalid => simp [hname, Op.onList]
    | add => simp [hname, Op.onList]
    | set => simp [hname, Op.onList]
    | remove => simp [hname, Op.onList]
  · simp [hname]

theorem documented_eq_lasting (fs : FileSystem Text) (dir : Path) (name : String)
    (nodes : List AstNode) : documented fs dir name nodes = lasting fs dir name nodes := by
  suffices h : ∀ contents : List Path,
      nodes.foldl (AstNode.onList fs dir name) contents =
        contents.filter (fun e => !nodes.any (AstNode.drops fs dir name e)) ++
          lasting fs dir name nodes from h []
  induction nodes with
  | nil => simp [lasting]
  | cons node nodes ih =>
    intro contents
    rw [List.foldl_cons, AstNode.onList_eq, ih, lasting, List.filter_append, List.filter_filter,
      List.append_assoc]
    congr 1
    refine List.filter_congr fun e _ => ?_
    simp [Bool.and_comm]

/-! ## The same entries -/

theorem AstNode.mem_files {dir : Path} {node : AstNode} {e : Path} :
    e ∈ node.files fs dir ↔ e ∈ node.entries fs dir ∧ fs.isDirectory e = false := by
  simp [AstNode.files]

theorem onSet_mem_iff {op : Op} {dir : Path} {node : AstNode} {data : PathSet}
    {contents : List Path} {e : Path} (he : fs.isDirectory e = false)
    (h : e ∈ data ↔ e ∈ contents) :
    e ∈ op.onSet (node.entries fs dir) data ↔ e ∈ op.onList (node.files fs dir) contents := by
  have hentry : e ∈ node.entries fs dir ↔ e ∈ node.files fs dir := by
    rw [AstNode.mem_files]
    exact (and_iff_left he).symm
  cases op with
  | invalid => exact h
  | add =>
    rw [Op.onSet, Op.onList, mem_insertAll, List.mem_append, h, hentry, or_comm]
  | set =>
    rw [Op.onSet, Op.onList, mem_insertAll, hentry]
    exact or_iff_left List.not_mem_nil
  | remove =>
    rw [Op.onSet, Op.onList, mem_eraseAll, List.mem_filter, h, hentry, decide_eq_true_iff]

/-- The set has the files of the list that is documented. -/
theorem nodesLists_mem_iff {dir : Path} {nodes : List AstNode} {lists : Lists} (name : String)
    (h : nodesLists fs dir nodes [] = some lists) {e : Path} (he : fs.isDirectory e = false) :
    e ∈ lists.data name ↔ e ∈ documented fs dir name nodes := by
  suffices hfold : ∀ (before : Lists) (contents : List Path),
      nodesLists fs dir nodes before = some lists →
      (e ∈ before.data name ↔ e ∈ contents) →
      (e ∈ lists.data name ↔ e ∈ nodes.foldl (AstNode.onList fs dir name) contents) from
    hfold [] [] h Iff.rfl
  clear h
  induction nodes with
  | nil =>
    intro before contents h hbefore
    cases h
    exact hbefore
  | cons node nodes ih =>
    intro before contents h hbefore
    rw [nodesLists, Option.bind_eq_some_iff] at h
    obtain ⟨between, hnode, hrest⟩ := h
    refine ih between _ hrest ?_
    rw [nodeLists_data hnode, AstNode.onList]
    by_cases hname : node.ident = name
    · rw [if_pos hname, if_pos hname]
      exact onSet_mem_iff he hbefore
    · rw [if_neg hname, if_neg hname]
      exact hbefore

theorem lasting_files {dir : Path} {name : String} {nodes : List AstNode} {e : Path}
    (h : e ∈ lasting fs dir name nodes) : fs.isDirectory e = false := by
  induction nodes with
  | nil => cases h
  | cons node nodes ih =>
    rw [lasting, List.mem_append, List.mem_filter] at h
    cases h with
    | inr hrest => exact ih hrest
    | inl hput =>
      have hfile := hput.1
      unfold AstNode.puts at hfile
      split_ifs at hfile with hop
      · exact (AstNode.mem_files.mp hfile).2
      · cases hfile

theorem Lists.data_files (fs : FileSystem Text) (name : String) (lists : Lists) :
    (lists.files fs).data name = (lists.data name).filter fun e => ¬fs.isDirectory e := by
  induction lists with
  | nil => rfl
  | cons entry lists ih =>
    change Lists.data name ((entry.1, _) :: Lists.files fs lists) = _
    rw [Lists.data_cons, Lists.data_cons, ih]
    dsimp only
    split_ifs with hname
    · rfl
    · rfl

theorem written_mem_iff {dir : Path} {nodes : List AstNode} {lists : Lists} {name : String}
    (h : nodesLists fs dir nodes [] = some lists) {e : Path} :
    e ∈ (lists.files fs).data name ↔ e ∈ lasting fs dir name nodes := by
  rw [Lists.data_files, List.mem_filter, ← documented_eq_lasting]
  constructor
  · rintro ⟨he, hfile⟩
    exact (nodesLists_mem_iff name h (by simpa using hfile)).mp he
  · intro he
    have hfile := lasting_files (documented_eq_lasting fs dir name nodes ▸ he)
    exact ⟨(nodesLists_mem_iff name h hfile).mpr he, by simpa using hfile⟩

/-- What is written for a name is what is documented exactly when that is in the order of its
paths. -/
theorem written_eq_iff {dir : Path} {nodes : List AstNode} {lists : Lists} (name : String)
    (h : nodesLists fs dir nodes [] = some lists) :
    (lists.files fs).data name = documented fs dir name nodes ↔
      (lasting fs dir name nodes).Pairwise (· < ·) := by
  have hsorted : ((lists.files fs).data name).Pairwise (· < ·) := by
    rw [Lists.data_files]
    exact (nodesLists_sorted h name List.Pairwise.nil).filter _
  rw [documented_eq_lasting]
  constructor
  · intro heq
    rw [← heq]
    exact hsorted
  · exact fun hlasting => hsorted.eq_of_mem_iff hlasting fun e => written_mem_iff h

/-! ## The makefile of a run -/

/-- Without a file to include, `main` writes the lists of the file of the root. -/
theorem mbuildMain_writes (order : Order Left) {root : Path} {lists : Lists}
    (hlists : rootLists fs parser root = some lists)
    (hmissing : ∀ name, ∀ d ∈ lists.data name, fs.isDirectory d = true → fs.mbuild d = none)
    (depth : Nat) :
    ∃ s, mbuildMain fs parser order (depth + 2) root .initial =
        .ok (some (emitMakefile (order.visit s) s.lists)) s ∧
      s.lists = lists.files fs := by
  obtain ⟨_, s, _, _, hrun, hstored, -, -⟩ := evalInternal_onlyWarns order hlists hmissing depth
  have heval : eval fs parser order (depth + 2) root .initial =
      .ok .success { s with lists := s.lists.files fs } := by
    rw [eval, bind_of_ok hrun]
    rfl
  exact ⟨_, by rw [mbuildMain, bind_of_ok heval]; rfl, congrArg (Lists.files fs) hstored⟩

/-- `main` writes a makefile, and for every list in it what is documented. -/
def EmitsDocumented (fs : FileSystem Text) (parser : Parser Text Left) (order : Order Left)
    (depth : Nat) (root : Path) (stmts : List Statement) : Prop :=
  ∃ s, mbuildMain fs parser order depth root .initial =
      .ok (some (emitMakefile (order.visit s) s.lists)) s ∧
    ∀ row ∈ makefileLines (order.visit s) s.lists,
      row.contents = documented fs root row.ident (stmts.map Statement.node)

/-- The makefile has the documented contents exactly when of every list the entries that last come
in the order of their paths, each once. -/
theorem emits_documented_iff {root : Path} {text : Text} {stmts : List Statement} {left : Left}
    (hdir : fs.isDirectory root = true) (hfile : fs.mbuild root = some text)
    (hparse : parser.yyparse none text = ⟨stmts, true, left⟩)
    (hops : ∀ stmt ∈ stmts, stmt.node.op ≠ .invalid)
    (hmissing : ∀ stmt ∈ stmts, ∀ e ∈ stmt.node.entries fs root, fs.isDirectory e = true →
      fs.mbuild e = none)
    (order : Order Left) (depth : Nat) :
    EmitsDocumented fs parser order (depth + 2) root stmts ↔
      ∀ name, (lasting fs root name (stmts.map Statement.node)).Pairwise (· < ·) := by
  have hknown : ∀ node ∈ stmts.map Statement.node, node.op ≠ .invalid :=
    List.forall_mem_map.mpr hops
  obtain ⟨lists, hnodes⟩ := nodesLists_known fs root [] hknown
  have hlists : rootLists fs parser root = some lists := by
    rw [rootLists, if_pos hdir, hfile, Option.bind_some, hparse]
    exact hnodes
  have hinclude : ∀ name, ∀ d ∈ lists.data name, fs.isDirectory d = true → fs.mbuild d = none := by
    intro name d hd
    obtain ⟨node, hnode, hentry⟩ :=
      (nodesLists_entry hnodes hd).resolve_left List.not_mem_nil
    obtain ⟨stmt, hstmt, rfl⟩ := List.mem_map.mp hnode
    exact hmissing stmt hstmt d hentry
  obtain ⟨s, hrun, hfinal⟩ := mbuildMain_writes order hlists hinclude depth
  constructor
  · rintro ⟨t, hother, hrows⟩ name
    obtain rfl : s = t := (EStateM.Result.ok.inj (hrun.symm.trans hother)).2
    by_cases hname : name ∈ order.visit s
    · rw [← written_eq_iff name hnodes, ← hfinal]
      exact hrows ⟨name, s.lists.data name⟩ (List.mem_map.mpr ⟨name, hname, rfl⟩)
    · -- a name without a line has no entry at all
      have hempty : lasting fs root name (stmts.map Statement.node) = [] := by
        refine List.eq_nil_iff_forall_not_mem.mpr fun e he => ?_
        rw [← written_mem_iff hnodes, ← hfinal] at he
        exact hname ((order.perm s).mem_iff.mpr (name_of_data he))
      rw [hempty]
      exact List.Pairwise.nil
  · intro hlasting
    refine ⟨s, hrun, fun row hrow => ?_⟩
    obtain ⟨name, _, rfl⟩ := List.mem_map.mp hrow
    rw [hfinal]
    exact (written_eq_iff name hnodes).mpr (hlasting name)

/-! ### Two objects -/

/-- Objects of `/r`, with the statements that add them. -/
def objectTree (stmts : List Statement) : FileSystem (List Statement) where
  isDirectory p := p = "/r"
  mbuild p := if p = "/r" then some stmts else none
  weaklyCanonical p := p
  mbuild_canonical p q h := by rw [h]

def objectStatements (first second : String) : List Statement :=
  [⟨"obj", none, [first], []⟩, ⟨"obj", some ".add", [second], []⟩]

/-- Added in the order of their names, two objects are written so. -/
theorem emits_documented_in_order :
    EmitsDocumented (objectTree (objectStatements "a.o" "b.o")) plainParser storedOrder 2 "/r"
      (objectStatements "a.o" "b.o") := by
  let stmts := objectStatements "a.o" "b.o"
  have hdir : (objectTree stmts).isDirectory "/r" = true := by decide +kernel
  have hfile : (objectTree stmts).mbuild "/r" = some stmts := rfl
  have hparse : plainParser.yyparse none stmts = ⟨stmts, true, ()⟩ := rfl
  have hops : ∀ stmt ∈ stmts, stmt.node.op ≠ .invalid := by decide +kernel
  have hobjects : ∀ stmt ∈ stmts, ∀ e ∈ stmt.node.entries (objectTree stmts) "/r",
      (objectTree stmts).isDirectory e = false := by
    decide +kernel
  refine (emits_documented_iff hdir hfile hparse hops
    (fun stmt hstmt e he hdir => ?_) storedOrder 0).mpr fun name => ?_
  · rw [hobjects stmt hstmt e he] at hdir
    cases hdir
  · by_cases hname : "obj" = name
    · have hlasting : lasting (objectTree stmts) "/r" "obj" (stmts.map Statement.node) =
          ["/r/a.o", "/r/b.o"] := by
        decide +kernel
      rw [← hname, hlasting]
      decide +kernel
    · have hnothing : lasting (objectTree stmts) "/r" name (stmts.map Statement.node) = [] := by
        simp [stmts, objectStatements, lasting, Statement.node, AstNode.puts, hname]
      rw [hnothing]
      exact List.Pairwise.nil

/-- `/r/b.o` is put in front of `/r/a.o`, and written behind it. -/
theorem emits_sorted :
    ¬EmitsDocumented (objectTree (objectStatements "b.o" "a.o")) plainParser storedOrder 2 "/r"
      (objectStatements "b.o" "a.o") := by
  rintro ⟨s, hrun, hrows⟩
  have hnames : storedOrder.visit s = ["obj"] := by
    rw [← after_of_ok hrun]
    decide +kernel
  have hdata : s.lists.data "obj" = ["/r/a.o", "/r/b.o"] := by
    rw [← after_of_ok hrun]
    decide +kernel
  have hrow := hrows ⟨"obj", s.lists.data "obj"⟩ (by rw [makefileLines, hnames]; exact .head _)
  rw [hdata] at hrow
  revert hrow
  decide +kernel

end MidnightOS.Mbuild
