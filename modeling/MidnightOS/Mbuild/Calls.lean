import MidnightOS.Mbuild.Inclusion
import MidnightOS.Mbuild.ListContents

/-! # The calls of a run

A run gives the list of its calls of `eval_internal`, each with the state in which it is
entered.  As long as none succeeds, a list has one call at most: that for its first
directory which was not visited before.
-/

namespace MidnightOS.Mbuild

open MidnightOS.Lib

variable {Text Left : Type} {fs : FileSystem Text} {parser : Parser Text Left}

/-- A call of `eval_internal`. -/
structure Call (Left : Type) where
  dir : Path
  entered : State Left

/-- What a call for each directory does, and the calls it makes, itself first. -/
structure Enter (Left : Type) where
  run : Path → EvalM Left Status
  calls : Path → State Left → List (Call Left)

/-- The calls of `resolve_include` on the copied list. -/
def includeCalls (fs : FileSystem Text) (enter : Enter Left) :
    PathSet → State Left → List (Call Left)
  | [], _ => []
  | e :: data, s =>
    if fs.isDirectory e then
      if s.visited.contains e then
        includeCalls fs enter data (s.warn fs e)
      else
        let entered := { s.warn fs e with visited := e :: s.visited }
        enter.calls e entered ++
          match enter.run e entered with
          | .ok .success s' => includeCalls fs enter data s'
          | .ok .failure _ | .error _ _ => []
    else
      includeCalls fs enter data s

/-- The calls of the loop over `g_lists`. -/
def loopCalls (fs : FileSystem Text) (enter : Enter Left) :
    List String → State Left → List (Call Left)
  | [], _ => []
  | name :: names, s =>
    includeCalls fs enter (s.lists.data name) s ++
      match resolveInclude fs enter.run (s.lists.data name) s with
      | .ok _ s' => loopCalls fs enter names s'
      | .error _ _ => []

/-- `evalOver`, with its calls. -/
def enterOver (fs : FileSystem Text) (file : Path → EvalM Left Status)
    (names : State Left → List String) : (depth : Nat) → Enter Left
  | 0 => ⟨evalOver fs file names 0, fun _ _ => []⟩
  | depth + 1 =>
    { run := evalOver fs file names (depth + 1)
      calls dir s := ⟨dir, s⟩ :: match file dir s with
        | .ok .success s' => loopCalls fs (enterOver fs file names depth) (names s') s'
        | .ok .failure _ | .error _ _ => [] }

/-- The calls of `eval`. -/
def evalCalls (fs : FileSystem Text) (parser : Parser Text Left) (order : Order Left) (depth : Nat)
    (root : Path) : List (Call Left) :=
  (enterOver fs (readFile fs parser) order.visit depth).calls root .initial

theorem enterOver_run {file : Path → EvalM Left Status} {names : State Left → List String}
    (depth : Nat) : (enterOver fs file names depth).run = evalOver fs file names depth := by
  cases depth with
  | zero => rfl
  | succ depth => rfl

/-! ## The first new directory -/

def isNew (fs : FileSystem Text) (visited : List Path) (e : Path) : Bool :=
  fs.isDirectory e && !visited.contains e

theorem isNew_iff {visited : List Path} {e : Path} :
    isNew fs visited e = true ↔ fs.isDirectory e = true ∧ e ∉ visited := by
  simp [isNew]

variable (enter : Enter Left)

/-- A list without a new directory makes no call. -/
theorem include_nothing {data : PathSet} {s : State Left}
    (h : data.find? (isNew fs s.visited) = none) :
    includeCalls fs enter data s = [] ∧
      ∃ log, resolveInclude fs enter.run data s = .ok .success { s with log } := by
  induction data generalizing s with
  | nil => exact ⟨rfl, s.log, rfl⟩
  | cons e data ih =>
    have hold : ¬isNew fs s.visited e = true := by
      intro hnew
      rw [List.find?_cons_of_pos hnew] at h
      cases h
    rw [List.find?_cons_of_neg hold] at h
    by_cases he : fs.isDirectory e = true
    · -- seen before: at most a warning
      have hvisited : s.visited.contains e = true := by simpa [isNew, he] using hold
      have hrest : data.find? (isNew fs (s.warn fs e).visited) = none := by
        rw [s.warn_visited]
        exact h
      have hwarn := State.warn_walked fs (fun _ => True) s e
      obtain ⟨hcalls, log, hrun⟩ := ih hrest
      refine ⟨?_, log, ?_⟩
      · rw [includeCalls, if_pos he, if_pos hvisited, hcalls]
      · rw [resolveInclude_visited he data hvisited, hrun, hwarn.state]
    · obtain ⟨hcalls, log, hrun⟩ := ih h
      refine ⟨?_, log, ?_⟩
      · rw [includeCalls, if_neg he, hcalls]
      · rw [resolveInclude, if_neg he, hrun]

/-- The state in which a directory is entered. -/
def State.visit (s : State Left) (e : Path) (log : List Event) : State Left :=
  { s with visited := e :: s.visited, log }

/-- A list with a new directory calls for its first one, and for the rest if that succeeds. -/
theorem include_first {data : PathSet} {s : State Left} {e : Path}
    (h : data.find? (isNew fs s.visited) = some e) :
    ∃ log rest, e :: rest <:+ data ∧
      (includeCalls fs enter data s =
        enter.calls e (s.visit e log) ++
          match enter.run e (s.visit e log) with
          | .ok .success s' => includeCalls fs enter rest s'
          | .ok .failure _ | .error _ _ => []) ∧
      resolveInclude fs enter.run data s =
        (enter.run e >>= fun status => match status with
          | .success => resolveInclude fs enter.run rest
          | .failure => pure .failure : EvalM Left Status) (s.visit e log) := by
  induction data generalizing s with
  | nil => cases h
  | cons d data ih =>
    by_cases hnew : isNew fs s.visited d = true
    · rw [List.find?_cons_of_pos hnew] at h
      cases h
      have hwarn := State.warn_walked fs (fun _ => True) s e
      simp only [isNew, Bool.and_eq_true, Bool.not_eq_true'] at hnew
      refine ⟨(s.warn fs e).log, data, List.suffix_refl _, ?_, ?_⟩
      · rw [includeCalls, if_pos hnew.1, hnew.2, if_neg Bool.false_ne_true]
        dsimp only
        rw [hwarn.state]
        rfl
      · refine resolveInclude_new hnew.1 data hnew.2 ?_
        rw [hwarn.state]
        rfl
    · -- skipped, so that the rest of the list has the same first one
      rw [List.find?_cons_of_neg hnew] at h
      by_cases hd : fs.isDirectory d = true
      · have hvisited : s.visited.contains d = true := by simpa [isNew, hd] using hnew
        have hwarn := State.warn_walked fs (fun _ => True) s d
        have hrest : data.find? (isNew fs (s.warn fs d).visited) = some e := by
          rw [s.warn_visited]
          exact h
        obtain ⟨log, rest, hsuffix, hcalls, hrun⟩ := ih hrest
        refine ⟨log, rest, hsuffix.trans (List.suffix_cons d data), ?_, ?_⟩
        · rw [includeCalls, if_pos hd, if_pos hvisited, hcalls, hwarn.state]
          rfl
        · rw [resolveInclude_visited hd data hvisited, hrun, hwarn.state]
          rfl
      · obtain ⟨log, rest, hsuffix, hcalls, hrun⟩ := ih h
        refine ⟨log, rest, hsuffix.trans (List.suffix_cons d data), ?_, ?_⟩
        · rw [includeCalls, if_neg hd, hcalls]
        · rw [resolveInclude, if_neg hd, hrun]

/-! ## The calls from the root -/

theorem evalCalls_accepted (order : Order Left) {root : Path} {lists : Lists}
    (h : rootLists fs parser root = some lists) :
    ∃ nodes, nodesLists fs root nodes [] = some lists ∧ ∀ depth,
      evalCalls fs parser order (depth + 1) root =
        ⟨root, .initial⟩ ::
          loopCalls fs (enterOver fs (readFile fs parser) order.visit depth)
            (order.visit (rootState nodes root lists)) (rootState nodes root lists) := by
  obtain ⟨nodes, hnodes, hread⟩ := readFile_accepted (s := .initial) rfl h
  refine ⟨nodes, hnodes, fun depth => ?_⟩
  rw [evalCalls, enterOver]
  dsimp only
  rw [hread]
  rfl

theorem evalCalls_refused (order : Order Left) {root : Path}
    (h : rootLists fs parser root = none) (depth : Nat) :
    evalCalls fs parser order (depth + 1) root = [⟨root, .initial⟩] := by
  obtain ⟨s', hread⟩ := readFile_none (s := .initial) rfl h
  rw [evalCalls, enterOver]
  dsimp only
  rw [hread]

end MidnightOS.Mbuild
