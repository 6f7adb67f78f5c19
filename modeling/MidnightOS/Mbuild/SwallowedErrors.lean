import MidnightOS.Mbuild.Calls
import MidnightOS.Mbuild.ListContents
import MidnightOS.Mbuild.ListOrder

/-! # Errors in included files

The loop over the lists ignores what `resolve_include` returns.  A file that the parser
refuses at once ends its list and nothing else; the status of `eval` is that of the
file of the root.
-/

namespace MidnightOS.Mbuild

open MidnightOS.Lib

variable {Text Left : Type} {fs : FileSystem Text} {parser : Parser Text Left}

/-- The file fails to parse, or has an operation that is not known. -/
def Parsed.inError (parsed : Parsed Left) : Prop :=
  parsed.accepted = false ∨ ∃ stmt ∈ parsed.statements, stmt.node.op = .invalid

/-- The directory has a file, and it is in error. -/
def FileInError (fs : FileSystem Text) (parser : Parser Text Left) (left : Option Left)
    (dir : Path) : Prop :=
  fs.isDirectory dir = true ∧ ∃ text, fs.mbuild dir = some text ∧ (parser.yyparse left text).inError

def Call.InError (fs : FileSystem Text) (parser : Parser Text Left) (call : Call Left) : Prop :=
  FileInError fs parser call.entered.left call.dir

/-- The run has a result, and fails if a file that a call of it reads is in error.  A run that comes
to the freed nodes goes on in the code, but reports nothing. -/
def ErrorsReported (fs : FileSystem Text) (parser : Parser Text Left) (order : Order Left)
    (depth : Nat) (root : Path) : Prop :=
  ∃ status s, eval fs parser order depth root .initial = .ok status s ∧
    ((∃ call ∈ evalCalls fs parser order depth root, call.InError fs parser) → status = .failure)

/-- The first directory with a file that the loop comes to: a new directory without one ends its
list. -/
def firstFile (fs : FileSystem Text) : List Path → List PathSet → Option Path
  | _, [] => none
  | visited, data :: rest =>
    match data.find? (isNew fs visited) with
    | none => firstFile fs visited rest
    | some e => if (fs.mbuild e).isSome then some e else firstFile fs (e :: visited) rest

/-! ## The file of the root -/

theorem root_not_in_error {root : Path} {lists : Lists}
    (h : rootLists fs parser root = some lists) : ¬FileInError fs parser none root := by
  rintro ⟨hdir, text, hfile, herror⟩
  rw [rootLists, if_pos hdir, hfile, Option.bind_some] at h
  split_ifs at h with haccepted
  cases herror with
  | inl hnot => exact absurd haccepted (hnot ▸ Bool.false_ne_true)
  | inr hop =>
    obtain ⟨stmt, hstmt, hinvalid⟩ := hop
    exact ops_known h stmt.node (List.mem_map_of_mem hstmt) hinvalid

/-! ## The calls of the loop -/

section Loop

variable (parser : Parser Text Left) (visit : State Left → List String) (depth : Nat)

theorem evalOver_freed {dir : Path} {s : State Left} (hfreed : s.ast = .freed) :
    evalOver fs (readFile fs parser) visit (depth + 1) dir s = readFile fs parser dir s := by
  cases hread : readFile fs parser dir s with
  | error fault t => exact evalOver_error hread depth
  | ok status t =>
    cases status with
    | failure => exact evalOver_failure hread depth
    | success => exact absurd hread (readFile_not_success hfreed)

theorem calls_freed {dir : Path} {s : State Left} (hfreed : s.ast = .freed) :
    (enterOver fs (readFile fs parser) visit (depth + 1)).calls dir s = [⟨dir, s⟩] := by
  rw [enterOver]
  dsimp only
  cases hread : readFile fs parser dir s with
  | error fault t => rfl
  | ok status t =>
    cases status with
    | failure => rfl
    | success => exact absurd hread (readFile_not_success hfreed)

/-- Behind freed nodes a list makes one call, for its first new directory. -/
theorem include_freed {data : PathSet} {s : State Left} (hfreed : s.ast = .freed) {e : Path}
    (h : data.find? (isNew fs s.visited) = some e) :
    ∃ log,
      includeCalls fs (enterOver fs (readFile fs parser) visit (depth + 1)) data s =
          [⟨e, s.visit e log⟩] ∧
        resolveInclude fs (evalOver fs (readFile fs parser) visit (depth + 1)) data s =
          readFile fs parser e (s.visit e log) := by
  obtain ⟨log, rest, _, hcalls, hrun⟩ :=
    include_first (enterOver fs (readFile fs parser) visit (depth + 1)) h
  have hentered : (s.visit e log).ast = .freed := hfreed
  refine ⟨log, ?_⟩
  rw [enterOver_run] at hcalls hrun
  rw [calls_freed parser visit depth hentered, evalOver_freed parser visit depth hentered] at hcalls
  rw [hcalls, hrun, bind_apply, evalOver_freed parser visit depth hentered]
  cases hread : readFile fs parser e (s.visit e log) with
  | error fault t => exact ⟨rfl, rfl⟩
  | ok status t =>
    cases status with
    | failure => exact ⟨rfl, rfl⟩
    | success => exact absurd hread (readFile_not_success hentered)

theorem loopCalls_nil (names : List String) {s : State Left} {name : String}
    (h : (s.lists.data name).find? (isNew fs s.visited) = none) :
    ∃ log, loopCalls fs (enterOver fs (readFile fs parser) visit (depth + 1)) (name :: names) s =
      loopCalls fs (enterOver fs (readFile fs parser) visit (depth + 1)) names { s with log } := by
  obtain ⟨hcalls, log, hrun⟩ :=
    include_nothing (enterOver fs (readFile fs parser) visit (depth + 1)) h
  exact ⟨log, by rw [loopCalls, hcalls, hrun, List.nil_append]⟩

theorem loopCalls_cons (names : List String) {s : State Left} (hfreed : s.ast = .freed)
    {name : String} {e : Path} (h : (s.lists.data name).find? (isNew fs s.visited) = some e) :
    ∃ log,
      loopCalls fs (enterOver fs (readFile fs parser) visit (depth + 1)) (name :: names) s =
        ⟨e, s.visit e log⟩ :: match readFile fs parser e (s.visit e log) with
          | .ok _ s' => loopCalls fs (enterOver fs (readFile fs parser) visit (depth + 1)) names s'
          | .error _ _ => [] := by
  obtain ⟨log, hcalls, hrun⟩ := include_freed parser visit depth hfreed h
  refine ⟨log, ?_⟩
  rw [loopCalls, hcalls, enterOver_run, hrun]
  rfl

/-- The first file that the loop comes to is called for, with what the scanner holds. -/
theorem firstFile_called {names : List String} {s : State Left} (hfreed : s.ast = .freed) {d : Path}
    (h : firstFile fs s.visited (names.map s.lists.data) = some d) :
    ∃ call ∈ loopCalls fs (enterOver fs (readFile fs parser) visit (depth + 1)) names s,
      call.dir = d ∧ call.entered.left = s.left := by
  induction names generalizing s with
  | nil => cases h
  | cons name names ih =>
    rw [List.map_cons, firstFile] at h
    cases hfind : (s.lists.data name).find? (isNew fs s.visited) with
    | none =>
      obtain ⟨log, hcalls⟩ := loopCalls_nil parser visit depth names hfind
      rw [hfind] at h
      rw [hcalls]
      exact ih (s := { s with log }) hfreed h
    | some e =>
      obtain ⟨log, hcalls⟩ := loopCalls_cons parser visit depth names hfreed hfind
      rw [hfind] at h
      dsimp only at h
      split_ifs at h with hfile
      · cases h
        exact ⟨_, hcalls ▸ List.mem_cons_self, rfl, rfl⟩
      · -- without a file: only this list ends
        rw [readFile_missing (Option.not_isSome_iff_eq_none.mp hfile)] at hcalls
        obtain ⟨call, hcall, hdir, hleft⟩ := ih (s := s.visit e log) hfreed h
        exact ⟨call, hcalls ▸ List.mem_cons_of_mem _ hcall, hdir, hleft⟩

theorem firstFile_listed {lists : Lists} {names : List String} {visited : List Path} {d : Path}
    (h : firstFile fs visited (names.map lists.data) = some d) :
    Listed lists d ∧ fs.isDirectory d = true ∧ ∃ text, fs.mbuild d = some text := by
  induction names generalizing visited with
  | nil => cases h
  | cons name names ih =>
    rw [List.map_cons, firstFile] at h
    cases hfind : (lists.data name).find? (isNew fs visited) with
    | none =>
      rw [hfind] at h
      exact ih h
    | some e =>
      rw [hfind] at h
      dsimp only at h
      split_ifs at h with hfile
      · cases h
        exact ⟨listed_of_data (List.mem_of_find?_eq_some hfind),
          (isNew_iff.mp (List.find?_some hfind)).1, Option.isSome_iff_exists.mp hfile⟩
      · exact ih h

/-- No call of a loop that comes to no file is in error. -/
theorem noFile_no_error {names : List String} {s : State Left} (hfreed : s.ast = .freed)
    (h : firstFile fs s.visited (names.map s.lists.data) = none) {call : Call Left}
    (hcall : call ∈ loopCalls fs (enterOver fs (readFile fs parser) visit (depth + 1)) names s) :
    ¬call.InError fs parser := by
  induction names generalizing s with
  | nil => cases hcall
  | cons name names ih =>
    rw [List.map_cons, firstFile] at h
    cases hfind : (s.lists.data name).find? (isNew fs s.visited) with
    | none =>
      obtain ⟨log, hcalls⟩ := loopCalls_nil parser visit depth names hfind
      rw [hcalls] at hcall
      rw [hfind] at h
      exact ih (s := { s with log }) hfreed h hcall
    | some e =>
      obtain ⟨log, hcalls⟩ := loopCalls_cons parser visit depth names hfreed hfind
      rw [hfind] at h
      dsimp only at h
      split_ifs at h with hsome
      have hfile := Option.not_isSome_iff_eq_none.mp hsome
      rw [hcalls, readFile_missing hfile] at hcall
      cases hcall with
      | head =>
        -- a call without a file is not in error
        rintro ⟨_, text, htext, _⟩
        rw [hfile] at htext
        cases htext
      | tail _ hrest => exact ih (s := s.visit e log) hfreed h hrest

end Loop

/-! ## The walk -/

/-- What the walk over a list does depends on its first new directory. -/
theorem walkList_find (data : PathSet) (seen : Seen Left) :
    walkList fs parser seen data = match data.find? (isNew fs seen.visited) with
      | none => some seen
      | some e => match fs.mbuild e with
        | none => some { seen with visited := e :: seen.visited }
        | some text =>
          if (parser.yyparse seen.left text).refused then
            some ⟨e :: seen.visited, some (parser.yyparse seen.left text).left⟩
          else
            none := by
  induction data with
  | nil => rfl
  | cons e data ih =>
    by_cases hnew : isNew fs seen.visited e = true
    · have hfirst : fs.isDirectory e = true ∧ seen.visited.contains e = false := by
        simpa [isNew] using hnew
      rw [List.find?_cons_of_pos hnew, walkList]
      exact if_pos hfirst
    · have hold : ¬(fs.isDirectory e = true ∧ seen.visited.contains e = false) := by
        simpa [isNew] using hnew
      rw [List.find?_cons_of_neg hnew, walkList, if_neg hold]
      exact ih

/-- A first file that is not refused is taken in. -/
theorem walkLists_taken {rest : List PathSet} {visited : List Path} {left : Option Left} {d : Path}
    (h : firstFile fs visited rest = some d) {text : Text} (hfile : fs.mbuild d = some text)
    (htaken : ¬(parser.yyparse left text).refused) :
    walkLists fs parser ⟨visited, left⟩ rest = none := by
  induction rest generalizing visited with
  | nil => cases h
  | cons data rest ih =>
    rw [firstFile] at h
    rw [walkLists, walkList_find]
    dsimp only
    cases hfind : data.find? (isNew fs visited) with
    | none =>
      rw [hfind] at h
      exact ih h
    | some e =>
      rw [hfind] at h
      dsimp only at h
      split_ifs at h with hsome
      · cases h
        simp only [hfile, if_neg htaken, Option.bind_none]
      · simp only [Option.not_isSome_iff_eq_none.mp hsome, Option.bind_some]
        exact ih h

/-- Without a file the walk comes to its end. -/
theorem walkLists_noFile (parser : Parser Text Left) {rest : List PathSet} {visited : List Path}
    (left : Option Left) (h : firstFile fs visited rest = none) :
    ∃ seen, walkLists fs parser ⟨visited, left⟩ rest = some seen := by
  induction rest generalizing visited with
  | nil => exact ⟨_, rfl⟩
  | cons data rest ih =>
    rw [firstFile] at h
    rw [walkLists, walkList_find]
    dsimp only
    cases hfind : data.find? (isNew fs visited) with
    | none =>
      rw [hfind] at h
      exact ih h
    | some e =>
      rw [hfind] at h
      dsimp only at h
      split_ifs at h with hsome
      simp only [Option.not_isSome_iff_eq_none.mp hsome, Option.bind_some]
      exact ih h

/-! ## The status of a run -/

theorem eval_not_failure (order : Order Left) {root : Path} {lists : Lists}
    (h : rootLists fs parser root = some lists) (depth : Nat) (s : State Left) :
    eval fs parser order (depth + 1) root .initial ≠ .ok .failure s := by
  intro hrun
  obtain ⟨nodes, _, hread⟩ := readFile_accepted (s := .initial) rfl h
  obtain ⟨status, s', hinternal, hrest⟩ := bind_eq_ok.mp hrun
  rw [evalInternal_eq] at hinternal
  cases status_of_file hread hinternal
  obtain ⟨_, _, _, hreturn⟩ := bind_eq_ok.mp hrest
  cases hreturn

/-- With a statement in the file of the root, its nodes are freed before the loop. -/
theorem rootState_freed {nodes : List AstNode} {root : Path} {lists : Lists}
    (hnodes : nodesLists fs root nodes [] = some lists) (hlists : lists ≠ []) :
    (rootState nodes root lists : State Left).ast = .freed := by
  cases nodes with
  | nil =>
    cases hnodes
    exact absurd rfl hlists
  | cons node nodes => rfl

/-- A first file that is refused is called for, and the status stays that of the root. -/
theorem not_reported_of_refused {root : Path} {lists : Lists}
    (hlists : rootLists fs parser root = some lists) {names : List String}
    (hnames : names.Perm (lists.map Prod.fst)) {d : Path}
    (hfirst : firstFile fs [] (names.map lists.data) = some d)
    (herror : FileInError fs parser none d) (depth : Nat) :
    ¬ErrorsReported fs parser (namedOrder names) (depth + 2) root := by
  rintro ⟨status, s, hrun, hreported⟩
  obtain ⟨nodes, hnodes, hcalls⟩ := evalCalls_accepted (namedOrder names) hlists
  have hvisit : (namedOrder names).visit (rootState nodes root lists : State Left) = names :=
    if_pos hnames
  have hfreed : (rootState nodes root lists : State Left).ast = .freed := by
    refine rootState_freed hnodes fun hempty => ?_
    rw [hempty] at hnames
    rw [List.perm_nil.mp hnames] at hfirst
    cases hfirst
  obtain ⟨call, hcall, hdir, hleft⟩ := firstFile_called parser
    (namedOrder names).visit depth hfreed hfirst
  have hinerror : call.InError fs parser := by
    rw [Call.InError, hdir, hleft]
    exact herror
  have hmem : call ∈ evalCalls fs parser (namedOrder names) (depth + 2) root := by
    rw [hcalls, hvisit]
    exact List.mem_cons_of_mem _ hcall
  rw [hreported ⟨call, hmem, hinerror⟩] at hrun
  exact eval_not_failure (namedOrder names) hlists (depth + 1) s hrun

/-- A first file that is not refused at once leads to the freed nodes. -/
theorem not_reported_of_taken {root : Path} {lists : Lists}
    (hlists : rootLists fs parser root = some lists) {names : List String}
    (hnames : names.Perm (lists.map Prod.fst)) {d : Path}
    (hfirst : firstFile fs [] (names.map lists.data) = some d) {text : Text}
    (hfile : fs.mbuild d = some text) (htaken : ¬(parser.yyparse none text).refused)
    (depth : Nat) : ¬ErrorsReported fs parser (namedOrder names) (depth + 2) root := by
  rintro ⟨status, s, hrun, _⟩
  obtain ⟨nodes, hends⟩ := evalInternal_ends (namedOrder names) hlists
  have hvisit : (namedOrder names).visit (rootState nodes root lists : State Left) = names :=
    if_pos hnames
  have hend := hends depth
  rw [hvisit, walkLists_taken hfirst hfile htaken] at hend
  obtain ⟨t, hfreed⟩ := hend
  rw [eval, bind_of_error hfreed] at hrun
  cases hrun

/-- Where the loop comes to no file, the run has a result, and no call of it is in error. -/
theorem reported_of_noFile (order : Order Left) {root : Path} {lists : Lists}
    (hlists : rootLists fs parser root = some lists)
    (hnone : ∀ names : List String, names.Perm (lists.map Prod.fst) →
      firstFile fs [] (names.map lists.data) = none) (depth : Nat) :
    ErrorsReported fs parser order (depth + 2) root := by
  obtain ⟨nodes, hnodes, hcalls⟩ := evalCalls_accepted order hlists
  obtain ⟨nodes', hends⟩ := evalInternal_ends order hlists
  have hend := hends depth
  obtain ⟨seen, hwalk⟩ := walkLists_noFile parser none
    (hnone _ (order.perm (rootState nodes' root lists : State Left)))
  rw [hwalk] at hend
  obtain ⟨s, hrun, _⟩ := hend
  refine ⟨.success, _, by rw [eval, bind_of_ok hrun]; rfl, ?_⟩
  rintro ⟨call, hcall, herror⟩
  have hnames := order.perm (rootState nodes root lists)
  rw [hcalls] at hcall
  cases hcall with
  | head => exact absurd herror (root_not_in_error hlists)
  | tail _ hcall =>
    by_cases hempty : lists = []
    · cases hempty
      rw [List.perm_nil.mp hnames] at hcall
      cases hcall
    · have hfreed : (rootState nodes root lists : State Left).ast = .freed :=
        rootState_freed hnodes hempty
      exact absurd herror
        (noFile_no_error parser order.visit depth hfreed (hnone _ hnames) hcall)

/-- `eval` reports every error, in every order of the lists, exactly when the file of the root is
refused, or the loop never comes to a directory with a file. -/
theorem errors_reported_iff (fs : FileSystem Text) (parser : Parser Text Left) (root : Path)
    (depth : Nat) :
    (∀ order : Order Left, ErrorsReported fs parser order (depth + 2) root) ↔
      ∀ lists, rootLists fs parser root = some lists →
        ∀ names : List String, names.Perm (lists.map Prod.fst) →
          firstFile fs [] (names.map lists.data) = none := by
  constructor
  · intro hall lists hlists names hnames
    cases hfirst : firstFile fs [] (names.map lists.data) with
    | none => rfl
    | some d =>
      exfalso
      obtain ⟨_, hdir, text, hfile⟩ := firstFile_listed hfirst
      by_cases hrefused : (parser.yyparse none text).refused
      · exact not_reported_of_refused hlists hnames hfirst ⟨hdir, text, hfile, .inl hrefused.2⟩
          depth (hall _)
      · exact not_reported_of_taken hlists hnames hfirst hfile hrefused depth (hall _)
  · intro hnone order
    cases hlists : rootLists fs parser root with
    | none =>
      obtain ⟨s, hrun⟩ := eval_refusedRoot order hlists depth
      exact ⟨.failure, s, hrun, fun _ => rfl⟩
    | some lists => exact reported_of_noFile order hlists (hnone lists hlists) depth

/-! ### A file that is refused at once -/

/-- A file without statements to parse is a syntax error. -/
def strictParser : Parser (Option (List Statement)) Unit :=
  ⟨fun _ text => match text with
    | some stmts => ⟨stmts, true, ()⟩
    | none => ⟨[], false, ()⟩⟩

def brokenFile (p : Path) : Option (Option (List Statement)) :=
  if p = "/r" then some (some [⟨"obj", none, ["x/"], []⟩])
  else if p = "/r/x" then some none
  else none

def brokenTree : FileSystem (Option (List Statement)) where
  isDirectory p := p = "/r" ∨ p = "/r/x"
  mbuild p := brokenFile (rivalCanonical p)
  weaklyCanonical := rivalCanonical
  mbuild_canonical p q h := by rw [h]

/-- The file of `/r/x` cannot be parsed, and `eval` succeeds. -/
theorem refused_file_swallowed :
    ¬∀ order : Order Unit, ErrorsReported brokenTree strictParser order 2 "/r" := by
  intro h
  have hcalled : ∃ call ∈ evalCalls brokenTree strictParser storedOrder 2 "/r",
      call.dir = "/r/x" := by
    decide +kernel
  obtain ⟨call, hcall, hdir⟩ := hcalled
  have herror : call.InError brokenTree strictParser := by
    rw [Call.InError, hdir]
    have hfile : brokenTree.mbuild "/r/x" = some none := by
      simp [brokenTree, brokenFile, rivalCanonical]
    exact ⟨by decide +kernel, none, hfile, .inl rfl⟩
  obtain ⟨status, s, hrun, hreported⟩ := h storedOrder
  have hresult : resultOf (eval brokenTree strictParser storedOrder 2 "/r") .initial =
      some .success := by
    decide +kernel
  rw [eq_ok_of_resultOf hresult] at hrun
  cases hrun
  cases hreported ⟨call, hcall, herror⟩

end MidnightOS.Mbuild
