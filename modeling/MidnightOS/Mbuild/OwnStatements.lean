import MidnightOS.Mbuild.Calls
import MidnightOS.Mbuild.ListOrder

/-! # The statements that a call applies

`ast_free` leaves `ast` as it was.  The file of the root is parsed into an empty tree;
every later call finds the freed nodes of the first.
-/

namespace MidnightOS.Mbuild

open MidnightOS.Lib

variable {Text Left : Type} {fs : FileSystem Text} {parser : Parser Text Left}

/-- A call finds no earlier node, and applies to the lists the statements of its own file. -/
structure Call.ReadsOwn (fs : FileSystem Text) (parser : Parser Text Left) (call : Call Left) :
    Prop where
  empty : call.entered.ast = .live []
  applies : ∀ s', readFile fs parser call.dir call.entered = .ok .success s' →
    fileLists fs parser call.dir call.entered.left call.entered.lists = some s'.lists

theorem Call.readsOwn_of_empty {call : Call Left} (h : call.entered.ast = .live []) :
    call.ReadsOwn fs parser := by
  refine ⟨h, fun s' hrun => ?_⟩
  cases hlists : fileLists fs parser call.dir call.entered.left call.entered.lists with
  | none =>
    obtain ⟨t, hread⟩ := readFile_none h hlists
    rw [hread] at hrun
    cases hrun
  | some lists =>
    obtain ⟨nodes, _, hread⟩ := readFile_accepted h hlists
    rw [hread] at hrun
    cases hrun
    rfl

/-! ## The calls of the loop -/

variable {enter : Enter Left}

theorem loopCalls_nothing {names : List String} {s : State Left}
    (h : ∀ name ∈ names, ∀ d ∈ s.lists.data name, fs.isDirectory d = false) :
    loopCalls fs enter names s = [] := by
  induction names generalizing s with
  | nil => rfl
  | cons name names ih =>
    rw [List.forall_mem_cons] at h
    have hnone : (s.lists.data name).find? (isNew fs s.visited) = none := by
      refine List.find?_eq_none.mpr fun d hd hnew => ?_
      have hdir := h.1 d hd
      rw [(isNew_iff.mp hnew).1] at hdir
      cases hdir
    obtain ⟨hcalls, log, hrun⟩ := include_nothing enter hnone
    rw [loopCalls, hcalls, hrun]
    exact ih (s := { s with log }) h.2

/-- The first call of the loop is entered with the tree that the file of the root left. -/
theorem loopCalls_first (enter : Enter Left) (henter : ∀ e s, ⟨e, s⟩ ∈ enter.calls e s)
    {names : List String} {s : State Left} (hvisited : s.visited = []) {name : String}
    (hname : name ∈ names) {d : Path} (hd : d ∈ s.lists.data name)
    (hdir : fs.isDirectory d = true) :
    ∃ call ∈ loopCalls fs enter names s, call.entered.ast = s.ast := by
  induction names generalizing s with
  | nil => cases hname
  | cons head names ih =>
    cases hfind : (s.lists.data head).find? (isNew fs s.visited) with
    | some e =>
      obtain ⟨log, rest, _, hcalls, _⟩ := include_first enter hfind
      refine ⟨⟨e, s.visit e log⟩, ?_, rfl⟩
      rw [loopCalls, hcalls]
      exact List.mem_append_left _ (List.mem_append_left _ (henter e _))
    | none =>
      -- nothing is visited yet, so a list without a new directory has none
      have hother : name ∈ names := by
        refine (List.mem_cons.mp hname).resolve_left fun heq => ?_
        have hold := List.find?_eq_none.mp hfind d (heq ▸ hd)
        exact hold (isNew_iff.mpr ⟨hdir, hvisited ▸ List.not_mem_nil⟩)
      obtain ⟨hcalls, log, hrun⟩ := include_nothing enter hfind
      rw [loopCalls, hcalls, hrun]
      exact ih (s := { s with log }) hvisited hother hd

/-- Every call of `eval_internal` applies the statements of its own file exactly when there is only
the one for the root: when the file of the root is refused, or puts no directory in a list. -/
theorem reads_own_iff (fs : FileSystem Text) (parser : Parser Text Left) (order : Order Left)
    (root : Path) (depth : Nat) :
    (∀ call ∈ evalCalls fs parser order (depth + 2) root, call.ReadsOwn fs parser) ↔
      ∀ lists, rootLists fs parser root = some lists → ∀ name, ∀ d ∈ lists.data name,
        fs.isDirectory d = false := by
  have hroot : Call.ReadsOwn fs parser ⟨root, .initial⟩ := Call.readsOwn_of_empty rfl
  constructor
  · intro hall lists hlists name d hd
    obtain ⟨nodes, hnodes, hcalls⟩ := evalCalls_accepted order hlists
    rw [hcalls] at hall
    by_contra hdir
    have hname := (order.perm (rootState nodes root lists)).mem_iff.mpr (name_of_data hd)
    obtain ⟨call, hcall, hast⟩ := loopCalls_first
      (enterOver fs (readFile fs parser) order.visit (depth + 1))
      (fun _ _ => List.mem_cons_self) (s := rootState nodes root lists) rfl hname hd
      (Bool.eq_true_of_not_eq_false hdir)
    have hempty := (hall call (List.mem_cons_of_mem _ hcall)).empty
    rw [hast] at hempty
    cases nodes with
    | nil =>
      -- no statement, no list
      cases hnodes
      cases hd
    | cons node nodes => cases hempty
  · intro hnone
    cases hlists : rootLists fs parser root with
    | none =>
      rw [evalCalls_refused order hlists]
      exact List.forall_mem_singleton.mpr hroot
    | some lists =>
      obtain ⟨nodes, _, hcalls⟩ := evalCalls_accepted order hlists
      have hnothing : ∀ name ∈ order.visit (rootState nodes root lists),
          ∀ d ∈ (rootState nodes root lists : State Left).lists.data name,
            fs.isDirectory d = false :=
        fun name _ => hnone lists hlists name
      rw [hcalls, loopCalls_nothing hnothing]
      exact List.forall_mem_singleton.mpr hroot

deriving instance DecidableEq for AstNode, Ast

/-- The parser comes to the file of `/r/x` with the nodes of `/r` freed. -/
theorem freed_nodes_found :
    ¬∀ call ∈ evalCalls rivalTree plainParser storedOrder 2 "/r",
      call.ReadsOwn rivalTree plainParser := by
  intro h
  have hfound : ∃ call ∈ evalCalls rivalTree plainParser storedOrder 2 "/r",
      call.dir = "/r/x" ∧ call.entered.ast = .freed := by
    decide +kernel
  obtain ⟨call, hcall, _, hfreed⟩ := hfound
  have hempty := (h call hcall).empty
  rw [hfreed] at hempty
  cases hempty

end MidnightOS.Mbuild
