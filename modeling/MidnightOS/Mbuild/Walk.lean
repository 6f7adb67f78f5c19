import MidnightOS.Mbuild.OneFile

/-! # The walk over the lists of the first file

After the first file with a statement, `ast` points to freed nodes.  A directory
without an `mbuild` file ends the walk of its list, and so does one whose file the
parser refuses at once; any other file is taken in through the freed nodes.
-/

namespace MidnightOS.Mbuild

open MidnightOS.Lib

variable {Text Left : Type} {fs : FileSystem Text} {parser : Parser Text Left} {order : Order Left}

/-! ## The calls of the walk -/

/-- The lists that the file of the root builds, if it is accepted. -/
def rootLists (fs : FileSystem Text) (parser : Parser Text Left) (root : Path) : Option Lists :=
  if fs.isDirectory root then
    (fs.mbuild root).bind fun text =>
      if (parser.yyparse none text).accepted then
        nodesLists fs root ((parser.yyparse none text).statements.map Statement.node) []
      else
        none
  else
    none

theorem evalInternal_missing {dir : Path} (h : fs.mbuild dir = none) (depth : Nat) (s : State Left) :
    evalInternal fs parser order (depth + 1) dir s = .ok .failure s := by
  rw [evalInternal_eq, evalOver_failure (readFile_missing h s)]

theorem evalInternal_refused (order : Order Left) {dir : Path} (hdir : fs.isDirectory dir = true)
    {text : Text} (h : fs.mbuild dir = some text) {s : State Left}
    (hrefused : (parser.yyparse s.left text).refused) (depth : Nat) :
    evalInternal fs parser order (depth + 1) dir s =
      .ok .failure { s with left := some (parser.yyparse s.left text).left } := by
  rw [evalInternal_eq, evalOver_failure (readFile_refused hdir h hrefused)]

theorem evalInternal_freed (order : Order Left) {dir : Path} (hdir : fs.isDirectory dir = true)
    {text : Text} (h : fs.mbuild dir = some text) {s : State Left} (hfreed : s.ast = .freed)
    (hrefused : ¬(parser.yyparse s.left text).refused) (depth : Nat) :
    ∃ s', evalInternal fs parser order (depth + 1) dir s = .error .freed s' := by
  obtain ⟨s', hread⟩ := readFile_freed hdir h hfreed hrefused
  exact ⟨s', by rw [evalInternal_eq, evalOver_error hread]⟩

/-! ## The walk -/

/-- `visitedDirs`, and what the scanner still holds. -/
structure Seen (Left : Type) where
  visited : List Path
  left : Option Left

/-- The walk over one list: none where it comes to a file that is taken in. -/
def walkList (fs : FileSystem Text) (parser : Parser Text Left) :
    Seen Left → PathSet → Option (Seen Left)
  | seen, [] => some seen
  | seen, e :: data =>
    if fs.isDirectory e = true ∧ seen.visited.contains e = false then
      match fs.mbuild e with
      | none => some { seen with visited := e :: seen.visited }
      | some text =>
        if (parser.yyparse seen.left text).refused then
          some ⟨e :: seen.visited, some (parser.yyparse seen.left text).left⟩
        else
          none
    else
      walkList fs parser seen data

def walkLists (fs : FileSystem Text) (parser : Parser Text Left) :
    Seen Left → List PathSet → Option (Seen Left)
  | seen, [] => some seen
  | seen, data :: rest => (walkList fs parser seen data).bind fun seen => walkLists fs parser seen rest

/-- From `s` to `s'`, directories were visited, and those without a file warned about. -/
structure Walked (fs : FileSystem Text) (listed : Path → Prop) (s s' : State Left)
    (seen : Seen Left) : Prop where
  state : s' = { s with visited := seen.visited, left := seen.left, log := s'.log }
  warnings : ∃ dirs : List Path, s'.log = s.log ++ dirs.map Event.warned
  warned : ∀ d ∈ seen.visited, d ∉ s.visited → fs.mbuild d = none → .warned d ∈ s'.log
  listed : ∀ d ∈ seen.visited, d ∉ s.visited → listed d ∧ fs.isDirectory d = true

theorem Walked.trans {listed : Path → Prop} {s s' s'' : State Left} {seen seen' : Seen Left}
    (h : Walked fs listed s s' seen) (h' : Walked fs listed s' s'' seen') :
    Walked fs listed s s'' seen' := by
  have hvisited : s'.visited = seen.visited := by rw [h.state]
  obtain ⟨dirs, hlog⟩ := h.warnings
  obtain ⟨dirs', hlog'⟩ := h'.warnings
  refine ⟨?_, ⟨dirs ++ dirs', by rw [hlog', hlog, List.map_append, List.append_assoc]⟩, ?_, ?_⟩
  · conv_lhs => rw [h'.state, h.state]
  · intro d hd hnew hmissing
    by_cases hold : d ∈ seen.visited
    · rw [hlog']
      exact List.mem_append_left _ (h.warned d hold hnew hmissing)
    · exact h'.warned d hd (hvisited ▸ hold) hmissing
  · intro d hd hnew
    by_cases hold : d ∈ seen.visited
    · exact h.listed d hold hnew
    · exact h'.listed d hd (hvisited ▸ hold)

/-- The warning in front of a directory. -/
def State.warn (s : State Left) (fs : FileSystem Text) (e : Path) : State Left :=
  if (fs.mbuild e).isNone then { s with log := s.log ++ [.warned e] } else s

theorem warnMissing_eq (e : Path) (s : State Left) : warnMissing fs e s = .ok () (s.warn fs e) := by
  unfold warnMissing State.warn
  by_cases h : (fs.mbuild e).isNone = true
  · rw [if_pos h, if_pos h]
    rfl
  · rw [if_neg h, if_neg h]
    rfl

theorem State.warn_visited (s : State Left) (e : Path) : (s.warn fs e).visited = s.visited := by
  unfold State.warn
  by_cases h : (fs.mbuild e).isNone = true
  · rw [if_pos h]
  · rw [if_neg h]

theorem State.warn_left (fs : FileSystem Text) (s : State Left) (e : Path) : (s.warn fs e).left = s.left := by
  unfold State.warn
  by_cases h : (fs.mbuild e).isNone = true
  · rw [if_pos h]
  · rw [if_neg h]

theorem State.warn_walked (fs : FileSystem Text) (listed : Path → Prop) (s : State Left) (e : Path) :
    Walked fs listed s (s.warn fs e) ⟨s.visited, s.left⟩ := by
  have hvisited : ∀ d ∈ (Seen.mk s.visited s.left).visited, d ∉ s.visited → False :=
    fun d hd hnew => hnew hd
  unfold State.warn
  by_cases h : (fs.mbuild e).isNone = true
  · rw [if_pos h]
    exact ⟨rfl, ⟨[e], rfl⟩, fun d hd hnew => (hvisited d hd hnew).elim,
      fun d hd hnew => (hvisited d hd hnew).elim⟩
  · rw [if_neg h]
    exact ⟨rfl, ⟨[], (List.append_nil _).symm⟩, fun d hd hnew => (hvisited d hd hnew).elim,
      fun d hd hnew => (hvisited d hd hnew).elim⟩

theorem resolveInclude_visited {enter : Path → EvalM Left Status} {e : Path}
    (he : fs.isDirectory e = true) (data : PathSet) {s : State Left}
    (hvisited : s.visited.contains e = true) :
    resolveInclude fs enter (e :: data) s = resolveInclude fs enter data (s.warn fs e) := by
  rw [resolveInclude, if_pos he, bind_of_ok (warnMissing_eq e s), get_bind, s.warn_visited,
    if_pos hvisited]

theorem resolveInclude_new {enter : Path → EvalM Left Status} {e : Path}
    (he : fs.isDirectory e = true) (data : PathSet) {s s' : State Left}
    (hvisited : s.visited.contains e = false)
    (hs' : s' = { s.warn fs e with visited := e :: s.visited, left := s.left }) :
    resolveInclude fs enter (e :: data) s =
      (enter e >>= fun status => match status with
        | .success => resolveInclude fs enter data
        | .failure => pure .failure : EvalM Left Status) s' := by
  rw [resolveInclude, if_pos he, bind_of_ok (warnMissing_eq e s), get_bind, s.warn_visited, hvisited,
    if_neg Bool.false_ne_true, hs', ← s.warn_left fs e]
  rfl

theorem State.visit_walked {listed : Path → Prop} (s : State Left) {e : Path} (he : listed e)
    (hdir : fs.isDirectory e = true) (left : Option Left) :
    Walked fs listed s { s.warn fs e with visited := e :: s.visited, left }
      ⟨e :: s.visited, left⟩ := by
  have hwarn := State.warn_walked fs listed s e
  refine ⟨?_, hwarn.warnings, ?_, ?_⟩
  · rw [hwarn.state]
  · intro d hd hnew hmissing
    cases hd with
    | head => simp [State.warn, hmissing]
    | tail _ hold => exact absurd hold hnew
  · intro d hd hnew
    cases hd with
    | head => exact ⟨he, hdir⟩
    | tail _ hold => exact absurd hold hnew

theorem State.warn_file (s : State Left) {e : Path} {text : Text} (h : fs.mbuild e = some text) :
    s.warn fs e = s := by
  rw [State.warn, h]
  rfl

/-- How a run ends that follows the walk: with what was seen, or at the freed nodes. -/
inductive Ends {α : Type} (fs : FileSystem Text) (listed : Path → Prop) (s : State Left) :
    Option (Seen Left) → EStateM.Result Fault (State Left) α → Prop where
  | ok (a : α) {s' : State Left} {seen : Seen Left} (h : Walked fs listed s s' seen) :
    Ends fs listed s (some seen) (.ok a s')
  | freed (s' : State Left) : Ends fs listed s none (.error .freed s')

theorem Ends.of_some {α : Type} {listed : Path → Prop} {s : State Left} {seen : Seen Left}
    {result : EStateM.Result Fault (State Left) α} (h : Ends fs listed s (some seen) result) :
    ∃ a s', result = .ok a s' ∧ Walked fs listed s s' seen := by
  cases h with
  | ok a hwalked => exact ⟨a, _, rfl, hwalked⟩

theorem Ends.of_none {α : Type} {listed : Path → Prop} {s : State Left}
    {result : EStateM.Result Fault (State Left) α} (h : Ends fs listed s none result) :
    ∃ s', result = .error .freed s' := by
  cases h with
  | freed s' => exact ⟨s', rfl⟩

theorem Ends.after {α : Type} {listed : Path → Prop} {s s' : State Left} {seen : Seen Left}
    {walk : Option (Seen Left)} {result : EStateM.Result Fault (State Left) α}
    (h : Walked fs listed s s' seen) (hends : Ends fs listed s' walk result) :
    Ends fs listed s walk result := by
  cases hends with
  | ok a hwalked => exact .ok a (h.trans hwalked)
  | freed s'' => exact .freed s''

theorem resolveInclude_ends (fs : FileSystem Text) (parser : Parser Text Left) (order : Order Left)
    (depth : Nat) {listed : Path → Prop} {data : PathSet}
    (hlisted : ∀ e ∈ data, listed e) {s : State Left} (hfreed : s.ast = .freed) :
    Ends fs listed s (walkList fs parser ⟨s.visited, s.left⟩ data)
      (resolveInclude fs (evalInternal fs parser order (depth + 1)) data s) := by
  induction data generalizing s with
  | nil =>
    exact .ok _ ⟨rfl, ⟨[], (List.append_nil _).symm⟩, fun d hd hnew => absurd hd hnew,
      fun d hd hnew => absurd hd hnew⟩
  | cons e data ih =>
    have hrest : ∀ other ∈ data, listed other :=
      fun other hother => hlisted other (List.mem_cons_of_mem _ hother)
    by_cases he : fs.isDirectory e = true
    · cases hvisited : s.visited.contains e with
      | true =>
        -- seen before: skipped, with a warning if it has no file
        have hwarn := State.warn_walked fs listed s e
        have hast : (s.warn fs e).ast = .freed := by
          rw [hwarn.state]
          exact hfreed
        have hskip : ¬(fs.isDirectory e = true ∧ s.visited.contains e = false) :=
          fun hnew => absurd hvisited (hnew.2 ▸ Bool.false_ne_true)
        rw [walkList, if_neg hskip, resolveInclude_visited he data hvisited]
        have hwalk := ih hrest hast
        rw [s.warn_visited, s.warn_left fs] at hwalk
        exact hwalk.after hwarn
      | false =>
        -- a new directory is visited before its file is looked for
        have hvisit := State.visit_walked s (hlisted e List.mem_cons_self) he
        rw [walkList, if_pos ⟨he, hvisited⟩, resolveInclude_new he data hvisited rfl]
        cases hfile : fs.mbuild e with
        | none =>
          rw [bind_of_ok (evalInternal_missing hfile depth _)]
          exact .ok _ (hvisit s.left)
        | some text =>
          have hwarn := s.warn_file hfile
          rw [hwarn] at hvisit ⊢
          by_cases hrefused : (parser.yyparse s.left text).refused
          · dsimp only
            rw [if_pos hrefused]
            have hrun := evalInternal_refused order (s := { s with visited := e :: s.visited }) he
              hfile hrefused depth
            rw [bind_of_ok hrun]
            exact .ok _ (hvisit _)
          · dsimp only
            rw [if_neg hrefused]
            -- the parser inserts a statement behind freed nodes
            obtain ⟨s', hrun⟩ := evalInternal_freed order
              (s := { s with visited := e :: s.visited }) he hfile hfreed hrefused depth
            rw [bind_of_error hrun]
            exact .freed s'
    · rw [walkList, if_neg (fun h => he h.1), resolveInclude, if_neg he]
      exact ih hrest hfreed

end MidnightOS.Mbuild
