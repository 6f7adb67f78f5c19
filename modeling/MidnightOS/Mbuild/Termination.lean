import MidnightOS.Mbuild.Calls
import MidnightOS.Mbuild.ListContents
import Mathlib.Data.Set.Card

/-! # The calls come to an end

Every directory that is entered from a list was not visited before, and then is.  The
lists hold canonical paths only, so with finitely many of them directories there are
finitely many calls, whatever the files put in the lists.
-/

namespace MidnightOS.Mbuild

open MidnightOS.Lib

variable {Text Left : Type} {fs : FileSystem Text}

/-- The directories that can be in a list. -/
def directories (fs : FileSystem Text) : Set Path :=
  {d | d ∈ Set.range fs.weaklyCanonical ∧ fs.isDirectory d = true}

/-- How many directories are still to be visited. -/
noncomputable def unvisited (fs : FileSystem Text) (s : State Left) : Nat :=
  (directories fs \ {d | d ∈ s.visited}).ncard

def Canonical (fs : FileSystem Text) (lists : Lists) : Prop :=
  ∀ name, ∀ e ∈ lists.data name, e ∈ Set.range fs.weaklyCanonical

/-- A run puts only canonical paths in the lists, leaves `visitedDirs` as it is, and does not stop
at the depth. -/
def Stays {α : Type} (fs : FileSystem Text) (x : EvalM Left α) : Prop :=
  ∀ s, Canonical fs s.lists →
    wp x (fun _ s' => Canonical fs s'.lists ∧ s'.visited = s.visited)
      (fun fault _ => fault ≠ .depth) s

/-- What holds of reading a file, whatever is found behind `ast`. -/
def ReadsFiles (fs : FileSystem Text) (file : Path → EvalM Left Status) : Prop :=
  ∀ dir, Stays fs (file dir)

/-! ## The calls of the loop -/

/-- A run makes so many calls, and the directories visited by it make up for all but the rest. -/
def Bounded {α : Type} (fs : FileSystem Text) (bound : Nat) (calls : List (Call Left))
    (x : EvalM Left α) (s : State Left) : Prop :=
  wp x (fun _ s' => Canonical fs s'.lists ∧ calls.length + unvisited fs s' ≤ bound)
    (fun fault _ => fault ≠ .depth ∧ calls.length ≤ bound) s

theorem unvisited_visit (hfin : (directories fs).Finite) {s : State Left} {e : Path}
    (he : e ∈ directories fs) (hnew : e ∉ s.visited) (log : List Event) :
    unvisited fs (s.visit e log) + 1 = unvisited fs s := by
  have hmem : e ∈ directories fs \ {d | d ∈ s.visited} := ⟨he, hnew⟩
  have hset : directories fs \ {d | d ∈ (s.visit e log).visited} =
      (directories fs \ {d | d ∈ s.visited}) \ {e} := by
    ext d
    simp only [State.visit, Set.mem_sdiff, Set.mem_ofPred_eq, List.mem_cons,
      Set.mem_singleton_iff, not_or]
    exact ⟨fun h => ⟨⟨h.1, h.2.2⟩, h.2.1⟩, fun h => ⟨h.1.1, h.2, h.1.2⟩⟩
  rw [unvisited, hset, unvisited]
  exact Set.ncard_sdiff_singleton_add_one hmem (hfin.sdiff)

/-- After some calls, a run that is bounded by what they left to visit. -/
theorem Bounded.append {α : Type} {x : EvalM Left α} {t : State Left} {bound : Nat}
    {calls rest : List (Call Left)} (h : Bounded fs (unvisited fs t) rest x t)
    (hcalls : calls.length + unvisited fs t ≤ bound) : Bounded fs bound (calls ++ rest) x t := by
  refine wp_mono h (fun _ s' hs' => ⟨hs'.1, ?_⟩) (fun _ _ hs' => ⟨hs'.1, ?_⟩)
  · have hrest := hs'.2
    rw [List.length_append]
    omega
  · have hrest := hs'.2
    rw [List.length_append]
    omega

section Loop

variable {enter : Enter Left} {depth : Nat}

theorem include_bounded (hfin : (directories fs).Finite)
    (henter : ∀ e s, Canonical fs s.lists → unvisited fs s < depth →
      Bounded fs (unvisited fs s + 1) (enter.calls e s) (enter.run e) s)
    {data : PathSet} (hdata : ∀ e ∈ data, e ∈ Set.range fs.weaklyCanonical) {s : State Left}
    (hcanonical : Canonical fs s.lists) (hdepth : unvisited fs s ≤ depth) :
    Bounded fs (unvisited fs s) (includeCalls fs enter data s) (resolveInclude fs enter.run data)
      s := by
  induction hlength : data.length using Nat.strong_induction_on generalizing data s with
  | _ length ih =>
    cases hfind : data.find? (isNew fs s.visited) with
    | none =>
      obtain ⟨hcalls, log, hrun⟩ := include_nothing enter hfind
      rw [Bounded, wp, hcalls, hrun]
      exact ⟨hcanonical, Nat.le_of_eq (Nat.zero_add _)⟩
    | some e =>
      have hnew := isNew_iff.mp (List.find?_some hfind)
      obtain ⟨log, rest, hsuffix, hcalls, hrun⟩ := include_first enter hfind
      have he := hdata e (hsuffix.subset List.mem_cons_self)
      have hless := unvisited_visit hfin ⟨he, hnew.1⟩ hnew.2 log
      have hcall := henter e (s.visit e log) hcanonical (by omega)
      rw [Bounded, wp] at hcall
      rw [Bounded, wp, hcalls, hrun, bind_apply]
      cases hresult : enter.run e (s.visit e log) with
      | error fault t =>
        rw [hresult, hless] at hcall
        dsimp only
        rw [List.append_nil]
        exact hcall
      | ok status t =>
        rw [hresult, hless] at hcall
        cases status with
        | failure =>
          dsimp only
          rw [List.append_nil]
          exact hcall
        | success =>
          -- the rest of the list, with what the call has left to visit
          have hshorter : rest.length < length := by
            have hle := hsuffix.length_le
            rw [List.length_cons, hlength] at hle
            exact hle
          have hrest := ih rest.length hshorter
            (fun d hd => hdata d (hsuffix.subset (List.mem_cons_of_mem e hd))) hcall.1
            (by have hleft := hcall.2; omega) rfl
          exact hrest.append hcall.2

theorem loop_bounded (enter : Enter Left) (hfin : (directories fs).Finite)
    (henter : ∀ e s, Canonical fs s.lists → unvisited fs s < depth →
      Bounded fs (unvisited fs s + 1) (enter.calls e s) (enter.run e) s)
    (names : List String) {s : State Left} (hcanonical : Canonical fs s.lists)
    (hdepth : unvisited fs s ≤ depth) :
    Bounded fs (unvisited fs s) (loopCalls fs enter names s) (resolveLists fs enter.run names) s := by
  induction names generalizing s with
  | nil => exact ⟨hcanonical, Nat.le_of_eq (Nat.zero_add _)⟩
  | cons name names ih =>
    have hfirst := include_bounded hfin henter (hcanonical name) hcanonical hdepth
    rw [Bounded, wp] at hfirst
    rw [Bounded, wp, resolveLists, get_bind, bind_apply, loopCalls]
    cases hrun : resolveInclude fs enter.run (s.lists.data name) s with
    | error fault t =>
      rw [hrun] at hfirst
      dsimp only
      rw [List.append_nil]
      exact hfirst
    | ok status t =>
      rw [hrun] at hfirst
      have hrest := ih hfirst.1 (by have hleft := hfirst.2; omega)
      exact hrest.append hfirst.2

theorem over_bounded (hfin : (directories fs).Finite) {file : Path → EvalM Left Status}
    (hfile : ReadsFiles fs file) (names : State Left → List String) {depth : Nat} (dir : Path)
    {s : State Left} (hcanonical : Canonical fs s.lists) (hdepth : unvisited fs s < depth) :
    Bounded fs (unvisited fs s + 1) ((enterOver fs file names depth).calls dir s)
      (evalOver fs file names depth dir) s := by
  induction depth generalizing dir s with
  | zero => exact absurd hdepth (Nat.not_lt_zero _)
  | succ depth ih =>
    have hread := hfile dir s hcanonical
    rw [wp] at hread
    cases hrun : file dir s with
    | error fault t =>
      rw [hrun] at hread
      rw [Bounded, wp, enterOver, evalOver_error hrun]
      dsimp only
      rw [hrun]
      exact ⟨hread, Nat.le_add_left 1 _⟩
    | ok status t =>
      rw [hrun] at hread
      obtain ⟨hlists, hvisited⟩ := hread
      have hunvisited : unvisited fs t = unvisited fs s := by
        rw [unvisited, hvisited, unvisited]
      have hself : [(⟨dir, s⟩ : Call Left)].length + unvisited fs t ≤ unvisited fs s + 1 := by
        rw [hunvisited, List.length_singleton, Nat.add_comm]
      cases status with
      | failure =>
        rw [Bounded, wp, enterOver, evalOver_failure hrun]
        dsimp only
        rw [hrun]
        exact ⟨hlists, hself⟩
      | success =>
        -- the loop has the depth that is left, and as many directories to visit
        have hloop := loop_bounded (enterOver fs file names depth) hfin
          (fun e s hcanonical hdepth => by
            rw [enterOver_run]
            exact ih e hcanonical hdepth) (names t) hlists (by omega)
        rw [enterOver_run] at hloop
        have hcalls := hloop.append hself
        rw [Bounded, wp] at hcalls
        rw [Bounded, wp, enterOver, evalOver_success hrun, bind_apply]
        dsimp only
        rw [hrun]
        cases hrest : resolveLists fs (evalOver fs file names depth) (names t) t with
        | error fault t' =>
          rw [hrest] at hcalls
          exact hcalls
        | ok _ t' =>
          rw [hrest] at hcalls
          exact hcalls

end Loop

/-! ## The file of a directory -/

section Stays

variable {α β : Type}

theorem Stays.pure (a : α) : Stays fs (pure a : EvalM Left α) := fun _ h => ⟨h, rfl⟩

theorem Stays.bind {x : EvalM Left α} {f : α → EvalM Left β} (hx : Stays fs x)
    (hf : ∀ a, Stays fs (f a)) : Stays fs (x >>= f) := by
  intro s h
  rw [wp_bind]
  refine wp_mono (hx s h) (fun a t ht => ?_) (fun _ _ he => he)
  refine wp_mono (hf a t ht.1) (fun _ u hu => ⟨hu.1, hu.2.trans ht.2⟩) (fun _ _ he => he)

theorem astInsertNode_stays (stmt : Statement) :
    Stays fs (astInsertNode stmt : EvalM Left Unit) := by
  intro s h
  rw [astInsertNode, wp, get_bind]
  cases s.ast with
  | live nodes => exact ⟨h, rfl⟩
  | freed => exact Fault.noConfusion

theorem insertNodes_stays (stmts : List Statement) :
    Stays fs (insertNodes stmts : EvalM Left Unit) := by
  induction stmts with
  | nil => exact Stays.pure ()
  | cons stmt stmts ih => exact (astInsertNode_stays stmt).bind fun _ => ih

theorem Parsed.run_stays (parsed : Parsed Left) : Stays fs parsed.run := by
  have hleft : Stays fs (modify fun s : State Left =>
      { s with left := if parsed.accepted then none else some parsed.left }) :=
    fun _ h => ⟨h, rfl⟩
  exact (insertNodes_stays parsed.statements).bind fun _ => hleft.bind fun _ => Stays.pure _

theorem parse_stays (parser : Parser Text Left) (dir : Path) :
    Stays fs (parse fs parser dir) := by
  unfold parse
  split_ifs with hdir
  · cases fs.mbuild dir with
    | none => exact Stays.pure _
    | some text => exact fun s => (parser.yyparse s.left text).run_stays s
  · exact Stays.pure _

theorem astNodes_stays : Stays fs (astNodes : EvalM Left (List AstNode)) := by
  intro s h
  rw [astNodes, wp, get_bind]
  cases s.ast with
  | live nodes => exact ⟨h, rfl⟩
  | freed => exact Fault.noConfusion

theorem astFree_stays : Stays fs (astFree : EvalM Left Unit) := by
  intro s h
  rw [astFree, wp, get_bind]
  cases s.ast with
  | live nodes =>
    cases nodes with
    | nil => exact ⟨h, rfl⟩
    | cons node nodes => exact ⟨h, rfl⟩
  | freed => exact Fault.noConfusion

/-- A statement puts only canonical paths in a list. -/
theorem nodeLists_canonical {dir : Path} {node : AstNode} {lists lists' : Lists}
    (h : nodeLists fs dir node lists = some lists') (hcanonical : Canonical fs lists) :
    Canonical fs lists' := by
  intro name e he
  rw [nodeLists_data h] at he
  split_ifs at he with hname
  · cases Op.mem_onSet he with
    | inl hentry =>
      obtain ⟨written, _, rfl⟩ := List.mem_map.mp hentry
      exact ⟨_, rfl⟩
    | inr hold => exact hcanonical name e hold
  · exact hcanonical name e he

theorem evalNodes_stays (dir : Path) (nodes : List AstNode) :
    Stays fs (evalNodes fs dir nodes : EvalM Left Status) := by
  induction nodes with
  | nil => exact Stays.pure _
  | cons node nodes ih =>
    have hnode : Stays fs (evalNode fs dir node : EvalM Left Status) := by
      intro s h
      rw [evalNode, wp, get_bind]
      cases hlists : nodeLists fs dir node s.lists with
      | none => exact ⟨h, rfl⟩
      | some lists => exact ⟨nodeLists_canonical hlists h, rfl⟩
    refine hnode.bind fun status => ?_
    cases status with
    | success => exact ih
    | failure => exact Stays.pure _

theorem readFile_reads (fs : FileSystem Text) (parser : Parser Text Left) :
    ReadsFiles fs (readFile fs parser) := by
  intro dir
  refine (parse_stays parser dir).bind fun parsed => ?_
  cases parsed with
  | failure => exact Stays.pure _
  | success =>
    refine astNodes_stays.bind fun nodes => (evalNodes_stays dir nodes).bind fun applied => ?_
    cases applied with
    | failure => exact Stays.pure _
    | success =>
      have hlog : Stays fs (logEvent (.evaluated dir) : EvalM Left Unit) := fun _ h => ⟨h, rfl⟩
      exact astFree_stays.bind fun _ => hlog.bind fun _ => Stays.pure _

end Stays

/-! ## The calls of a run -/

/-- With finitely many directories `eval` makes finitely many calls of `eval_internal`.  So does
its recursion when the freed nodes make of a file whatever they may, and the loop comes to any
lists. -/
theorem mbuild_terminates (fs : FileSystem Text) (hfin : (directories fs).Finite) :
    ∃ bound, ∀ root depth, bound ≤ depth →
      (∀ (parser : Parser Text Left) (order : Order Left),
        (evalCalls fs parser order depth root).length ≤ bound ∧
          ∀ s, eval fs parser order depth root .initial ≠ .error .depth s) ∧
      ∀ (file : Path → EvalM Left Status) (names : State Left → List String), ReadsFiles fs file →
        ((enterOver fs file names depth).calls root .initial).length ≤ bound ∧
          ∀ s, evalOver fs file names depth root .initial ≠ .error .depth s := by
  refine ⟨(directories fs).ncard + 1, fun root depth hdepth => ?_⟩
  have hover : ∀ (file : Path → EvalM Left Status) (names : State Left → List String),
      ReadsFiles fs file →
        ((enterOver fs file names depth).calls root .initial).length ≤ (directories fs).ncard + 1 ∧
          ∀ s, evalOver fs file names depth root .initial ≠ .error .depth s := by
    intro file names hfile
    have hcanonical : Canonical fs (State.initial : State Left).lists :=
      fun name e he => absurd he List.not_mem_nil
    have hunvisited : unvisited fs (State.initial : State Left) = (directories fs).ncard := by
      have hnone : {d | d ∈ (State.initial : State Left).visited} = (∅ : Set Path) :=
        Set.eq_empty_of_forall_notMem fun d hd => List.not_mem_nil hd
      rw [unvisited, hnone, Set.sdiff_empty]
    have hbounded := over_bounded hfin hfile names root hcanonical
      (by rw [hunvisited]; exact hdepth)
    rw [Bounded, wp, hunvisited] at hbounded
    cases hrun : evalOver fs file names depth root .initial with
    | ok status t =>
      rw [hrun] at hbounded
      exact ⟨(Nat.le_add_right _ _).trans hbounded.2, fun s h => by cases h⟩
    | error fault t =>
      rw [hrun] at hbounded
      refine ⟨hbounded.2, fun s h => ?_⟩
      cases h
      exact hbounded.1 rfl
  refine ⟨fun parser order => ?_, hover⟩
  obtain ⟨hcalls, hrun⟩ := hover (readFile fs parser) order.visit (readFile_reads fs parser)
  refine ⟨hcalls, fun s heval => ?_⟩
  -- clearing the directories at the end makes no call
  rw [eval, evalInternal_eq, bind_apply] at heval
  cases hresult : evalOver fs (readFile fs parser) order.visit depth root .initial with
  | error fault t =>
    rw [hresult] at heval
    cases heval
    exact hrun s hresult
  | ok status t =>
    rw [hresult] at heval
    cases status with
    | failure => cases heval
    | success => cases heval

/-! ### A root that includes itself -/

def cyclicCanonical (p : Path) : Path :=
  if p = "/r/./" then "/r" else if p = "/r/x/" then "/r/x" else if p = "/r/x/../" then "/r" else p

def cyclicFile (p : Path) : Option (List Statement) :=
  if p = "/r" then some [⟨"obj", none, ["./", "x/"], []⟩]
  else if p = "/r/x" then some [⟨"obj", none, ["../"], []⟩]
  else none

def cyclicTree : FileSystem (List Statement) where
  isDirectory p := p = "/r" ∨ p = "/r/x"
  mbuild p := cyclicFile (cyclicCanonical p)
  weaklyCanonical := cyclicCanonical
  mbuild_canonical p q h := by rw [h]

theorem mbuild_terminates_cyclic :
    ∃ bound, ∀ depth, bound ≤ depth →
      (evalCalls cyclicTree plainParser storedOrder depth "/r").length ≤ bound ∧
        ∀ s, eval cyclicTree plainParser storedOrder depth "/r" .initial ≠ .error .depth s := by
  have hfin : (directories cyclicTree).Finite := by
    refine (Set.toFinite {"/r", "/r/x"}).subset fun d hd => ?_
    simpa [cyclicTree] using hd.2
  obtain ⟨bound, hbound⟩ := mbuild_terminates cyclicTree hfin
  exact ⟨bound, fun depth hdepth => (hbound "/r" depth hdepth).1 plainParser storedOrder⟩

end MidnightOS.Mbuild
