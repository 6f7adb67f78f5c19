import MidnightOS.Mbuild.Walk
import MidnightOS.Mbuild.ListContents
import Mathlib.Data.List.Count

/-! # Included directories

A run of `eval` follows the walk over the lists of the first file.  No other file is
ever evaluated, so the lists stay as the first file built them.
-/

namespace MidnightOS.Mbuild

open MidnightOS.Lib

variable {Text Left : Type} {fs : FileSystem Text} {parser : Parser Text Left}

/-! ## The run from the root -/

/-- `d` is an element of a list. -/
def Listed (lists : Lists) (d : Path) : Prop := ∃ entry ∈ lists, d ∈ entry.2

theorem listed_of_data {lists : Lists} {name : String} {d : Path} (h : d ∈ lists.data name) :
    Listed lists d := by
  unfold Lists.data at h
  cases hfind : lists.find? fun entry => entry.1 = name with
  | none =>
    rw [hfind] at h
    cases h
  | some entry =>
    rw [hfind] at h
    exact ⟨entry, List.mem_of_find?_eq_some hfind, h⟩

theorem resolveLists_ends (order : Order Left) (depth : Nat) (names : List String) {s : State Left}
    (hfreed : s.ast = .freed) :
    Ends fs (Listed s.lists) s (walkLists fs parser ⟨s.visited, s.left⟩ (names.map s.lists.data))
      (resolveLists fs (evalInternal fs parser order (depth + 1)) names s) := by
  suffices h : ∀ lists : Lists, s.lists = lists →
      Ends fs (Listed lists) s (walkLists fs parser ⟨s.visited, s.left⟩ (names.map lists.data))
        (resolveLists fs (evalInternal fs parser order (depth + 1)) names s) from h _ rfl
  -- the lists stay the same from one name to the next
  intro lists hlists
  induction names generalizing s with
  | nil =>
    exact .ok _ ⟨rfl, ⟨[], (List.append_nil _).symm⟩, fun d hd hnew => absurd hd hnew,
      fun d hd hnew => absurd hd hnew⟩
  | cons name names ih =>
    have hdata : ∀ e ∈ lists.data name, Listed lists e := fun e he => listed_of_data he
    have hfirst := resolveInclude_ends fs parser order depth hdata hfreed
    rw [List.map_cons, walkLists, resolveLists, get_bind, hlists]
    cases hwalk : walkList fs parser ⟨s.visited, s.left⟩ (lists.data name) with
    | none =>
      rw [hwalk] at hfirst
      obtain ⟨s', hrun⟩ := hfirst.of_none
      rw [bind_of_error hrun]
      exact .freed s'
    | some seen =>
      rw [hwalk] at hfirst
      -- the rest of the lists is walked from what this one left
      obtain ⟨a, s', hrun, hwalked⟩ := hfirst.of_some
      rw [bind_of_ok hrun, Option.bind_some]
      have hast : s'.ast = .freed := by
        rw [hwalked.state]
        exact hfreed
      have hlists' : s'.lists = lists := by
        rw [hwalked.state]
        exact hlists
      have hvisited : s'.visited = seen.visited := by rw [hwalked.state]
      have hleft : s'.left = seen.left := by rw [hwalked.state]
      have hrest := ih hast hlists'
      rw [hvisited, hleft] at hrest
      exact hrest.after hwalked

/-- The state in which the walk over the lists of the root starts. -/
def rootState (nodes : List AstNode) (root : Path) (lists : Lists) : State Left :=
  ⟨astAfter nodes, none, lists, [], [.evaluated root]⟩

theorem evalInternal_accepted (order : Order Left) {root : Path} {lists : Lists}
    (h : rootLists fs parser root = some lists) :
    ∃ nodes, nodesLists fs root nodes [] = some lists ∧ ∀ depth,
      evalInternal fs parser order (depth + 1) root .initial =
        (do
          resolveLists fs (evalInternal fs parser order depth)
            (order.visit (rootState nodes root lists))
          pure .success : EvalM Left Status) (rootState nodes root lists) := by
  obtain ⟨nodes, hnodes, hread⟩ := readFile_accepted (s := .initial) rfl h
  refine ⟨nodes, hnodes, fun depth => ?_⟩
  rw [evalInternal_eq, evalInternal_eq, evalOver_success hread]
  rfl

theorem evalInternal_refusedRoot (order : Order Left) {root : Path}
    (h : rootLists fs parser root = none) (depth : Nat) :
    ∃ s', evalInternal fs parser order (depth + 1) root .initial = .ok .failure s' := by
  obtain ⟨s', hread⟩ := readFile_none (s := .initial) rfl h
  exact ⟨s', by rw [evalInternal_eq, evalOver_failure hread]⟩

/-- The run of the root follows the walk over its lists. -/
theorem evalInternal_ends (order : Order Left) {root : Path} {lists : Lists}
    (h : rootLists fs parser root = some lists) :
    ∃ nodes, ∀ depth,
      match walkLists fs parser ⟨[], none⟩
        ((order.visit (rootState nodes root lists)).map lists.data) with
      | some seen => ∃ s',
        evalInternal fs parser order (depth + 2) root .initial = .ok .success s' ∧
          Walked fs (Listed lists) (rootState nodes root lists) s' seen
      | none => ∃ s', evalInternal fs parser order (depth + 2) root .initial = .error .freed s' := by
  obtain ⟨nodes, hnodes, hrun⟩ := evalInternal_accepted order h
  refine ⟨nodes, fun depth => ?_⟩
  rw [hrun]
  have hends : Ends fs (Listed lists) (rootState nodes root lists)
      (walkLists fs parser ⟨[], none⟩ ((order.visit (rootState nodes root lists)).map lists.data))
      (resolveLists fs (evalInternal fs parser order (depth + 1))
        (order.visit (rootState nodes root lists)) (rootState nodes root lists)) := by
    cases nodes with
    | nil =>
      -- no statement, no list
      cases hnodes
      have hvisit := List.perm_nil.mp (order.perm (rootState [] root []))
      rw [hvisit]
      exact .ok _ ⟨rfl, ⟨[], rfl⟩, fun d hd => absurd hd List.not_mem_nil,
        fun d hd => absurd hd List.not_mem_nil⟩
    | cons node nodes =>
      have hfreed : (rootState (node :: nodes) root lists : State Left).ast = .freed := rfl
      exact resolveLists_ends order depth _ hfreed
  cases hwalk : walkLists fs parser ⟨[], none⟩
      ((order.visit (rootState nodes root lists)).map lists.data) with
  | none =>
    rw [hwalk] at hends
    obtain ⟨s', hresult⟩ := hends.of_none
    exact ⟨s', bind_of_error hresult⟩
  | some seen =>
    rw [hwalk] at hends
    obtain ⟨a, s', hresult, hwalked⟩ := hends.of_some
    exact ⟨s', bind_of_ok hresult, hwalked⟩

/-! ## Each directory once -/

def Event.evaluates (fs : FileSystem Text) (d : Path) : Event → Bool
  | .evaluated p => fs.weaklyCanonical p = fs.weaklyCanonical d
  | .warned _ => false

/-- How often the file of a directory was evaluated. -/
def evaluations (fs : FileSystem Text) (s : State Left) (d : Path) : Nat :=
  s.log.countP (Event.evaluates fs d)

/-- Every directory was included once.  One without a file was skipped, with a warning in each
list that it is an element of, and none because of it. -/
structure IncludedOnce (fs : FileSystem Text) (root : Path) (s : State Left) : Prop where
  once : ∀ d, (d = root ∨ Listed s.lists d ∧ fs.isDirectory d = true) →
    (fs.mbuild d).isSome = true → evaluations fs s d = 1
  reached : ∀ d, Listed s.lists d → fs.isDirectory d = true → (fs.mbuild d).isSome = true →
    d ∈ s.visited
  skipped : ∀ d, fs.isDirectory d = true → fs.mbuild d = none →
    .evaluated d ∉ s.log ∧
      (s.lists.map fun entry => entry.2.count d).sum ≤ s.log.count (.warned d)

theorem rootLists_accepted {root : Path} {lists : Lists}
    (h : rootLists fs parser root = some lists) :
    ∃ text, fs.mbuild root = some text ∧ (parser.yyparse none text).accepted = true := by
  unfold rootLists at h
  by_cases hdir : fs.isDirectory root = true
  · rw [if_pos hdir, Option.bind_eq_some_iff] at h
    obtain ⟨text, hfile, h⟩ := h
    refine ⟨text, hfile, ?_⟩
    by_contra hnot
    rw [if_neg hnot] at h
    cases h
  · rw [if_neg hdir] at h
    cases h

/-- With nothing but warnings after the root, only its file was evaluated. -/
theorem evaluations_eq {root : Path} {s : State Left} {dirs : List Path}
    (h : s.log = .evaluated root :: dirs.map Event.warned) (d : Path) :
    evaluations fs s d = if fs.weaklyCanonical root = fs.weaklyCanonical d then 1 else 0 := by
  have hwarnings : (dirs.map Event.warned).countP (Event.evaluates fs d) = 0 := by
    rw [List.countP_eq_zero]
    intro event hevent
    obtain ⟨dir, _, rfl⟩ := List.mem_map.mp hevent
    exact Bool.false_ne_true
  rw [evaluations, h, List.countP_cons, hwarnings]
  simp [Event.evaluates]

/-- The first file that a walk comes to decides how it goes on. -/
theorem walkList_first {data : PathSet} {visited : List Path} {seen : Seen Left}
    (h : walkList fs parser ⟨visited, none⟩ data = some seen)
    (hvisited : ∀ e ∈ visited, fs.mbuild e = none) :
    (seen.left = none ∧ ∀ e ∈ seen.visited, fs.mbuild e = none) ∨
      ∃ e ∈ seen.visited, ∃ text, fs.mbuild e = some text ∧ (parser.yyparse none text).refused := by
  induction data with
  | nil =>
    cases h
    exact .inl ⟨rfl, hvisited⟩
  | cons e data ih =>
    rw [walkList] at h
    split_ifs at h with hnew
    · cases hfile : fs.mbuild e with
      | none =>
        simp only [hfile] at h
        cases h
        exact .inl ⟨rfl, List.forall_mem_cons.mpr ⟨hfile, hvisited⟩⟩
      | some text =>
        simp only [hfile] at h
        by_cases hrefused : (parser.yyparse none text).refused
        · rw [if_pos hrefused] at h
          cases h
          -- the walk ends at a file that is refused at once
          exact .inr ⟨e, List.mem_cons_self, text, hfile, hrefused⟩
        · rw [if_neg hrefused] at h
          cases h
    · exact ih h

theorem walkList_visited {data : PathSet} {before seen : Seen Left}
    (h : walkList fs parser before data = some seen) : ∀ e ∈ before.visited, e ∈ seen.visited := by
  induction data generalizing before with
  | nil =>
    cases h
    exact fun e he => he
  | cons d data ih =>
    rw [walkList] at h
    split_ifs at h with hnew
    · cases hfile : fs.mbuild d with
      | none =>
        simp only [hfile] at h
        cases h
        exact fun e he => List.mem_cons_of_mem d he
      | some text =>
        simp only [hfile] at h
        split_ifs at h
        cases h
        exact fun e he => List.mem_cons_of_mem d he
    · exact ih h

theorem walkLists_visited {rest : List PathSet} {before seen : Seen Left}
    (h : walkLists fs parser before rest = some seen) : ∀ e ∈ before.visited, e ∈ seen.visited := by
  induction rest generalizing before with
  | nil =>
    cases h
    exact fun e he => he
  | cons data rest ih =>
    rw [walkLists, Option.bind_eq_some_iff] at h
    obtain ⟨between, hfirst, hrest⟩ := h
    exact fun e he => ih hrest e (walkList_visited hfirst e he)

theorem walkLists_first {rest : List PathSet} {visited : List Path} {seen : Seen Left}
    (h : walkLists fs parser ⟨visited, none⟩ rest = some seen)
    (hvisited : ∀ e ∈ visited, fs.mbuild e = none) :
    (∀ e ∈ seen.visited, fs.mbuild e = none) ∨
      ∃ e ∈ seen.visited, ∃ text, fs.mbuild e = some text ∧ (parser.yyparse none text).refused := by
  induction rest generalizing visited with
  | nil =>
    cases h
    exact .inl hvisited
  | cons data rest ih =>
    rw [walkLists, Option.bind_eq_some_iff] at h
    obtain ⟨between, hfirst, hrest⟩ := h
    cases walkList_first hfirst hvisited with
    | inl hnone =>
      obtain ⟨between, left⟩ := between
      obtain ⟨hleft, hmissing⟩ := hnone
      cases hleft
      exact ih hrest hmissing
    | inr hfile =>
      obtain ⟨e, he, htext⟩ := hfile
      exact .inr ⟨e, walkLists_visited hrest e he, htext⟩

/-- The entries in the order in which they are stored. -/
def storedOrder : Order Left := ⟨fun s => s.lists.map Prod.fst, fun _ => .refl _⟩

/-- An order that visits the entries by these names, where they are the names. -/
def namedOrder (names : List String) : Order Left where
  visit s := if names.Perm (s.lists.map Prod.fst) then names else s.lists.map Prod.fst
  perm s := by
    by_cases h : names.Perm (s.lists.map Prod.fst)
    · rw [if_pos h]
      exact h
    · rw [if_neg h]

/-- A directory with a file in a list is not included, or the run has no result. -/
theorem missing_of_includedOnce {root : Path} {lists : Lists}
    (hlists : rootLists fs parser root = some lists) {order : Order Left} {depth : Nat}
    {status : Status} {s : State Left}
    (hrun : evalInternal fs parser order (depth + 2) root .initial = .ok status s)
    (hincluded : status = .success → IncludedOnce fs root s) {d : Path} (hd : Listed lists d)
    (hdir : fs.isDirectory d = true) : fs.mbuild d = none := by
  by_contra hfile
  obtain ⟨nodes, hends⟩ := evalInternal_ends order hlists
  have hend := hends depth
  cases hwalk : walkLists fs parser ⟨[], none⟩
      ((order.visit (rootState nodes root lists : State Left)).map lists.data) with
  | none =>
    rw [hwalk] at hend
    obtain ⟨s', hfreed⟩ := hend
    rw [hfreed] at hrun
    cases hrun
  | some seen =>
    rw [hwalk] at hend
    obtain ⟨s', hok, hwalked⟩ := hend
    rw [hok] at hrun
    cases hrun
    have honce := hincluded rfl
    have hstored : s.lists = lists := by rw [hwalked.state]; rfl
    have hseen : s.visited = seen.visited := by rw [hwalked.state]
    have hisSome : (fs.mbuild d).isSome = true := by
      rwa [Option.isSome_iff_ne_none]
    have hreached := honce.reached d (hstored ▸ hd) hdir hisSome
    rw [hseen] at hreached
    cases walkLists_first hwalk (fun e he => absurd he List.not_mem_nil) with
    | inl hmissing => exact hfile (hmissing d hreached)
    | inr hrefused =>
      -- that file was not evaluated, so it is that of the root, which is not refused
      obtain ⟨e, he, text, htext, hrefused⟩ := hrefused
      obtain ⟨hlisted, hedir⟩ := hwalked.listed e he List.not_mem_nil
      have hone := honce.once e (.inr ⟨hstored ▸ hlisted, hedir⟩) (by rw [htext]; rfl)
      obtain ⟨dirs, hlog⟩ := hwalked.warnings
      rw [evaluations_eq hlog] at hone
      have hcanonical : fs.weaklyCanonical root = fs.weaklyCanonical e := by
        by_contra hother
        rw [if_neg hother] at hone
        cases hone
      obtain ⟨text', htext', haccepted⟩ := rootLists_accepted hlists
      rw [fs.mbuild_canonical root e hcanonical, htext] at htext'
      cases htext'
      rw [hrefused.2] at haccepted
      cases haccepted

/-! ## Directories without a file -/

/-- The directories up to the first that was not visited before. -/
def upToNew (visited : List Path) : List Path → List Path
  | [] => []
  | e :: dirs => if visited.contains e then e :: upToNew visited dirs else [e]

theorem upToNew_sublist (visited dirs : List Path) : (upToNew visited dirs).Sublist dirs := by
  induction dirs with
  | nil => exact .slnil
  | cons e dirs ih =>
    rw [upToNew]
    split_ifs with hvisited
    · exact ih.cons_cons e
    · exact (List.nil_sublist dirs).cons_cons e

theorem upToNew_single (visited : List Path) {dirs : List Path} (h : dirs.length ≤ 1) :
    upToNew visited dirs = dirs := by
  cases dirs with
  | nil => rfl
  | cons e rest =>
    obtain rfl : rest = [] := List.length_eq_zero_iff.mp (Nat.le_zero.mp (Nat.le_of_succ_le_succ h))
    rw [upToNew]
    split_ifs with hvisited
    · rfl
    · rfl

/-- What is warned about on the way through lists of directories without a file. -/
inductive Warned (fs : FileSystem Text) : List Path → List PathSet → List Path → Prop where
  | nil (visited : List Path) : Warned fs visited [] []
  | cons {visited visited' : List Path} {data : PathSet} {rest : List PathSet} {dirs : List Path}
    (h : Warned fs visited' rest dirs) :
    Warned fs visited (data :: rest) (upToNew visited (data.filter fs.isDirectory) ++ dirs)

theorem Warned.count_le {visited : List Path} {rest : List PathSet} {dirs : List Path}
    (h : Warned fs visited rest dirs) (d : Path) :
    dirs.count d ≤ (rest.map (List.count d)).sum := by
  induction h with
  | nil => exact Nat.le_refl 0
  | cons h ih =>
    rw [List.count_append, List.map_cons, List.sum_cons]
    exact Nat.add_le_add (((upToNew_sublist _ _).trans List.filter_sublist).count_le d) ih

/-- Where a list has one directory at most, every element is warned about. -/
theorem Warned.count_eq {visited : List Path} {rest : List PathSet} {dirs : List Path}
    (h : Warned fs visited rest dirs)
    (hsingle : ∀ data ∈ rest, (data.filter fs.isDirectory).length ≤ 1) {d : Path}
    (hd : fs.isDirectory d = true) : dirs.count d = (rest.map (List.count d)).sum := by
  induction h with
  | nil => rfl
  | cons h ih =>
    rw [List.forall_mem_cons] at hsingle
    rw [List.count_append, List.map_cons, List.sum_cons, ih hsingle.2, upToNew_single _ hsingle.1,
      List.count_filter hd]

/-- The second directory of the first list is not. -/
theorem Warned.count_lt {data : PathSet} {rest : List PathSet} {dirs : List Path}
    (h : Warned fs [] (data :: rest) dirs) {first second : Path} {later : List Path}
    (hdata : data.filter fs.isDirectory = first :: second :: later) :
    dirs.count second < ((data :: rest).map (List.count second)).sum := by
  cases h with
  | cons h =>
    have hd : fs.isDirectory second = true :=
      List.of_mem_filter (a := second) (l := data) (by rw [hdata]; simp)
    rw [List.count_append, List.map_cons, List.sum_cons, ← List.count_filter (l := data) hd, hdata]
    refine Nat.add_lt_add_of_lt_of_le ?_ (h.count_le second)
    have hfirst : upToNew [] (first :: second :: later) = [first] := rfl
    rw [hfirst, List.count_cons (l := second :: later), List.count_cons_self, List.count_cons,
      List.count_nil]
    omega

section Missing

variable {enter : Path → EvalM Left Status}

theorem resolveInclude_missing (henter : ∀ e s, fs.mbuild e = none → enter e s = .ok .failure s)
    (data : PathSet) (s : State Left)
    (hmissing : ∀ e ∈ data, fs.isDirectory e = true → fs.mbuild e = none) :
    ∃ status visited, resolveInclude fs enter data s = .ok status { s with
      visited
      log := s.log ++ (upToNew s.visited (data.filter fs.isDirectory)).map Event.warned } := by
  induction data generalizing s with
  | nil =>
    refine ⟨.success, s.visited, ?_⟩
    rw [List.filter_nil, upToNew, List.map_nil, List.append_nil]
    rfl
  | cons e data ih =>
    rw [List.forall_mem_cons] at hmissing
    by_cases he : fs.isDirectory e = true
    · have hnone := hmissing.1 he
      have hwarn : s.warn fs e = { s with log := s.log ++ [.warned e] } := by
        rw [State.warn, hnone]
        rfl
      rw [List.filter_cons_of_pos he, upToNew]
      cases hvisited : s.visited.contains e with
      | true =>
        obtain ⟨status, visited, hrun⟩ := ih (s.warn fs e) hmissing.2
        refine ⟨status, visited, ?_⟩
        rw [resolveInclude_visited he data hvisited, hrun, hwarn, if_pos rfl, List.map_cons,
          List.append_assoc]
        rfl
      | false =>
        -- entering it fails, and that ends the list
        refine ⟨.failure, e :: s.visited, ?_⟩
        rw [resolveInclude_new he data hvisited rfl, bind_of_ok (henter _ _ hnone), hwarn,
          if_neg Bool.false_ne_true]
        rfl
    · rw [List.filter_cons_of_neg he, resolveInclude, if_neg he]
      exact ih s hmissing.2

theorem resolveLists_missing (henter : ∀ e s, fs.mbuild e = none → enter e s = .ok .failure s)
    (names : List String) (s : State Left)
    (hmissing : ∀ name ∈ names, ∀ e ∈ s.lists.data name, fs.isDirectory e = true →
      fs.mbuild e = none) :
    ∃ visited dirs, resolveLists fs enter names s =
        .ok () { s with visited, log := s.log ++ dirs.map Event.warned } ∧
      Warned fs s.visited (names.map s.lists.data) dirs := by
  induction names generalizing s with
  | nil =>
    refine ⟨s.visited, [], ?_, .nil s.visited⟩
    rw [List.map_nil, List.append_nil]
    rfl
  | cons name names ih =>
    rw [List.forall_mem_cons] at hmissing
    obtain ⟨status, visited, hfirst⟩ := resolveInclude_missing henter _ s hmissing.1
    obtain ⟨visited', dirs, hrest, hwarned⟩ := ih { s with
      visited
      log := s.log ++
        (upToNew s.visited ((s.lists.data name).filter fs.isDirectory)).map Event.warned } hmissing.2
    refine ⟨visited', _, ?_, .cons hwarned⟩
    rw [resolveLists, get_bind, bind_of_ok hfirst, hrest, List.map_append, List.append_assoc]

end Missing

/-- The run of a root that lists only directories without a file. -/
theorem evalInternal_onlyWarns (order : Order Left) {root : Path} {lists : Lists}
    (hlists : rootLists fs parser root = some lists)
    (hmissing : ∀ name, ∀ d ∈ lists.data name, fs.isDirectory d = true → fs.mbuild d = none)
    (depth : Nat) :
    ∃ nodes s dirs, nodesLists fs root nodes [] = some lists ∧
      evalInternal fs parser order (depth + 2) root .initial = .ok .success s ∧ s.lists = lists ∧
      s.log = .evaluated root :: dirs.map Event.warned ∧
      Warned fs [] ((order.visit (rootState nodes root lists)).map lists.data) dirs := by
  obtain ⟨nodes, hnodes, hstart⟩ := evalInternal_accepted order hlists
  have henter : ∀ e (t : State Left), fs.mbuild e = none →
      evalInternal fs parser order (depth + 1) e t = .ok .failure t :=
    fun e t hnone => evalInternal_missing hnone depth t
  obtain ⟨visited, dirs, hrun, hwarned⟩ := resolveLists_missing henter
    (order.visit (rootState nodes root lists)) (rootState nodes root lists)
    (fun name _ => hmissing name)
  exact ⟨nodes, _, dirs, hnodes, (hstart (depth + 1)).trans (bind_of_ok hrun), rfl, rfl, hwarned⟩

theorem count_warned (root : Path) (dirs : List Path) (d : Path) :
    (Event.evaluated root :: dirs.map Event.warned).count (.warned d) = dirs.count d := by
  have hinjective : Function.Injective Event.warned := fun p q h => by
    injection h
  rw [List.count_cons_of_ne (fun h => by cases h), List.count_map_of_injective _ _ hinjective]

/-- With nothing to include, and one directory in a list at most, the loop warns about each. -/
theorem includedOnce_of_missing {root : Path} {lists : Lists}
    (hlists : rootLists fs parser root = some lists)
    (hmissing : ∀ d, Listed lists d → fs.isDirectory d = true → fs.mbuild d = none)
    (hsingle : ∀ entry ∈ lists, (entry.2.filter fs.isDirectory).length ≤ 1)
    (order : Order Left) (depth : Nat) :
    ∃ s, evalInternal fs parser order (depth + 2) root .initial = .ok .success s ∧
      IncludedOnce fs root s := by
  obtain ⟨nodes, s, dirs, hnodes, hrun, hstored, hlog, hwarned⟩ :=
    evalInternal_onlyWarns order hlists (fun _ d hd => hmissing d (listed_of_data hd)) depth
  have hnodup := (nodesLists_names hnodes).2 List.nodup_nil
  have hnames := order.perm (rootState nodes root lists)
  refine ⟨s, hrun, ?_, ?_, ?_⟩
  · intro d hd hfile
    cases hd with
    | inl hroot => rw [hroot, evaluations_eq hlog, if_pos rfl]
    | inr hlisted =>
      rw [hstored] at hlisted
      rw [hmissing d hlisted.1 hlisted.2] at hfile
      cases hfile
  · intro d hd hdir hfile
    rw [hstored] at hd
    rw [hmissing d hd hdir] at hfile
    cases hfile
  · -- warned about in every list; the root is not, and has a file
    intro d hdir hnone
    rw [hlog, hstored]
    constructor
    · intro hevaluated
      have heq : d = root := by simpa using hevaluated
      obtain ⟨text, htext, _⟩ := rootLists_accepted hlists
      rw [heq, htext] at hnone
      cases hnone
    · have hone : ∀ data ∈ (order.visit (rootState nodes root lists)).map lists.data,
          (data.filter fs.isDirectory).length ≤ 1 := by
        intro data hdata
        obtain ⟨name, hname, rfl⟩ := List.mem_map.mp hdata
        obtain ⟨entry, hentry, rfl⟩ := List.mem_map.mp (hnames.mem_iff.mp hname)
        rw [Lists.data_of_mem hnodup hentry]
        exact hsingle entry hentry
      rw [count_warned, hwarned.count_eq hone hdir, List.map_map,
        ← Lists.sum_data hnodup hnames (List.count d)]
      exact Nat.le_refl _

/-- Of two directories without a file in the list that is walked first, the second gets no
warning there. -/
theorem single_of_includedOnce {root : Path} {lists : Lists}
    (hlists : rootLists fs parser root = some lists)
    (hmissing : ∀ d, Listed lists d → fs.isDirectory d = true → fs.mbuild d = none)
    {entry : String × PathSet} (hentry : entry ∈ lists) {depth : Nat}
    (hall : ∀ order : Order Left, ∃ status s,
      evalInternal fs parser order (depth + 2) root .initial = .ok status s ∧
        (status = .success → IncludedOnce fs root s)) :
    (entry.2.filter fs.isDirectory).length ≤ 1 := by
  -- the names, that of the list first
  have hnames := (List.perm_cons_erase (List.mem_map_of_mem (f := Prod.fst) hentry)).symm
  obtain ⟨status, s, hok, hincluded⟩ :=
    hall (namedOrder (entry.1 :: (lists.map Prod.fst).erase entry.1))
  obtain ⟨nodes, t, dirs, hnodes, hrun, hstored, hlog, hwarned⟩ := evalInternal_onlyWarns
    (namedOrder (entry.1 :: (lists.map Prod.fst).erase entry.1)) hlists
    (fun _ d hd => hmissing d (listed_of_data hd)) depth
  cases hok.symm.trans hrun
  have hnodup := (nodesLists_names hnodes).2 List.nodup_nil
  have hvisit : (namedOrder (entry.1 :: (lists.map Prod.fst).erase entry.1)).visit
      (rootState nodes root lists : State Left) = _ := if_pos hnames
  rw [hvisit, List.map_cons, Lists.data_of_mem hnodup hentry] at hwarned
  match hdirs : entry.2.filter fs.isDirectory with
  | [] => exact Nat.zero_le 1
  | [d] => exact Nat.le_refl 1
  | first :: second :: later =>
    have hmem : second ∈ entry.2.filter fs.isDirectory := by
      rw [hdirs]
      simp
    obtain ⟨hlist, hdir⟩ := List.mem_filter.mp hmem
    have hfew := hwarned.count_lt hdirs
    have hskipped := ((hincluded rfl).skipped second hdir (hmissing second ⟨entry, hentry, hlist⟩ hdir)).2
    rw [hlog, hstored, count_warned, ← Lists.sum_data hnodup hnames (List.count second), List.map_cons,
      Lists.data_of_mem hnodup hentry] at hskipped
    rw [List.map_cons, List.map_map] at hfew
    exact absurd hskipped (Nat.not_le_of_lt hfew)

/-- `eval` includes every directory once, in every order of the lists, exactly when there is none
to include and none that keeps another of its list from being looked at: when the file of the root
is refused, or puts no directory with an `mbuild` file in a list, and no two directories in one. -/
theorem includes_once_iff (fs : FileSystem Text) (parser : Parser Text Left) (root : Path)
    (depth : Nat) :
    (∀ order : Order Left, ∃ status s,
      evalInternal fs parser order (depth + 2) root .initial = .ok status s ∧
        (status = .success → IncludedOnce fs root s)) ↔
      ∀ lists, rootLists fs parser root = some lists →
        (∀ d, Listed lists d → fs.isDirectory d = true → fs.mbuild d = none) ∧
          ∀ entry ∈ lists, (entry.2.filter fs.isDirectory).length ≤ 1 := by
  constructor
  · intro hall lists hlists
    have hmissing : ∀ d, Listed lists d → fs.isDirectory d = true → fs.mbuild d = none := by
      intro d hd hdir
      obtain ⟨status, s, hrun, hincluded⟩ := hall storedOrder
      exact missing_of_includedOnce hlists hrun hincluded hd hdir
    exact ⟨hmissing, fun entry hentry => single_of_includedOnce hlists hmissing hentry hall⟩
  · intro hcondition order
    cases hlists : rootLists fs parser root with
    | none =>
      obtain ⟨s, hrun⟩ := evalInternal_refusedRoot order hlists (depth + 1)
      exact ⟨.failure, s, hrun, fun h => by cases h⟩
    | some lists =>
      obtain ⟨hmissing, hsingle⟩ := hcondition lists hlists
      obtain ⟨s, hrun, hincluded⟩ := includedOnce_of_missing hlists hmissing hsingle order depth
      exact ⟨.success, s, hrun, fun _ => hincluded⟩

/-! ### A directory without a file, in front of one with a file -/

def sampleCanonical (p : Path) : Path :=
  if p = "/r/a/" then "/r/a" else if p = "/r/b/" then "/r/b" else p

/-- The statements of the files, already parsed. -/
def sampleFile (p : Path) : Option (List Statement) :=
  if p = "/r" then some [⟨"obj", none, ["a/", "b/"], []⟩]
  else if p = "/r/b" then some [⟨"obj", none, ["b.o"], []⟩]
  else none

def sampleTree : FileSystem (List Statement) where
  isDirectory p := p = "/r" ∨ p = "/r/a" ∨ p = "/r/b"
  mbuild p := sampleFile (sampleCanonical p)
  weaklyCanonical := sampleCanonical
  mbuild_canonical p q h := by rw [h]

def plainParser : Parser (List Statement) Unit := ⟨fun _ text => ⟨text, true, ()⟩⟩

/-- `/r/b` is never included. -/
theorem missing_directory_ends_list :
    ¬∀ order : Order Unit, ∃ status s,
      evalInternal sampleTree plainParser order 2 "/r" .initial = .ok status s ∧
        (status = .success → IncludedOnce sampleTree "/r" s) := by
  intro h
  obtain ⟨status, s, hrun, hincluded⟩ := h storedOrder
  have hresult : resultOf (evalInternal sampleTree plainParser storedOrder 2 "/r") .initial =
      some .success := by
    decide +kernel
  rw [eq_ok_of_resultOf hresult] at hrun
  cases hrun
  have hlisted : Listed (after (evalInternal sampleTree plainParser storedOrder 2 "/r")
      .initial).lists "/r/b" :=
    ⟨("obj", ["/r/a", "/r/b"]), by decide +kernel, by decide⟩
  have hone := (hincluded rfl).once "/r/b" (.inr ⟨hlisted, by decide +kernel⟩) (by decide +kernel)
  exact absurd hone (by decide +kernel)

end MidnightOS.Mbuild
