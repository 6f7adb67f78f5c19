import MidnightOS.Mbuild.Inclusion
import Mathlib.Data.List.Perm.Basic

/-! # The order of the lists

`g_lists` is a hash map, and `eval_internal` visits its entries as they come.  As long
as no order leads to another file the order is without effect; a second file is taken
in through freed nodes, and then the run has no result to compare.
-/

namespace MidnightOS.Mbuild

open MidnightOS.Lib

variable {Text Left : Type} {fs : FileSystem Text} {parser : Parser Text Left}

/-- Two runs, with the lists visited in any orders, have results, and if both succeed every list
has the same contents. -/
def OrderIndependent (fs : FileSystem Text) (parser : Parser Text Left) (depth : Nat)
    (root : Path) : Prop :=
  ∀ order order' : Order Left, ∃ status s status' s',
    eval fs parser order depth root .initial = .ok status s ∧
      eval fs parser order' depth root .initial = .ok status' s' ∧
      (status = .success → status' = .success → ∀ name, s.lists.data name = s'.lists.data name)

/-- The walk in this order comes to no file that is taken in. -/
def Undisturbed (fs : FileSystem Text) (parser : Parser Text Left) (lists : Lists)
    (names : List String) : Prop :=
  (walkLists fs parser ⟨[], none⟩ (names.map lists.data)).isSome = true

theorem eval_refusedRoot (order : Order Left) {root : Path}
    (h : rootLists fs parser root = none) (depth : Nat) :
    ∃ s, eval fs parser order (depth + 2) root .initial = .ok .failure s := by
  obtain ⟨s, hrun⟩ := evalInternal_refusedRoot order h (depth + 1)
  exact ⟨s, by rw [eval, bind_of_ok hrun]; rfl⟩

/-- The lists of an undisturbed run are those of the first file. -/
theorem eval_undisturbed (order : Order Left) {root : Path} {lists : Lists}
    (hlists : rootLists fs parser root = some lists)
    (h : ∀ names, names.Perm (lists.map Prod.fst) → Undisturbed fs parser lists names)
    (depth : Nat) :
    ∃ s, eval fs parser order (depth + 2) root .initial = .ok .success s ∧
      s.lists = lists.files fs := by
  obtain ⟨nodes, hends⟩ := evalInternal_ends order hlists
  have hend := hends depth
  obtain ⟨seen, hwalk⟩ := Option.isSome_iff_exists.mp
    (h _ (order.perm (rootState nodes root lists)))
  rw [hwalk] at hend
  obtain ⟨s, hok, hwalked⟩ := hend
  refine ⟨{ s with lists := s.lists.files fs }, by rw [eval, bind_of_ok hok]; rfl, ?_⟩
  rw [hwalked.state]
  rfl

theorem undisturbed_of_run {root : Path} {lists : Lists}
    (hlists : rootLists fs parser root = some lists) {names : List String}
    (hnames : names.Perm (lists.map Prod.fst)) {depth : Nat} {status : Status} {s : State Left}
    (hrun : eval fs parser (namedOrder names) (depth + 2) root .initial = .ok status s) :
    Undisturbed fs parser lists names := by
  obtain ⟨nodes, hends⟩ := evalInternal_ends (namedOrder names) hlists
  have hend := hends depth
  have hvisit : (namedOrder names).visit (rootState nodes root lists : State Left) = names :=
    if_pos hnames
  rw [hvisit] at hend
  unfold Undisturbed
  cases hwalk : walkLists fs parser ⟨[], none⟩ (names.map lists.data) with
  | some seen => rfl
  | none =>
    rw [hwalk] at hend
    obtain ⟨s', hfreed⟩ := hend
    rw [eval, bind_of_error hfreed] at hrun
    cases hrun

/-- The lists do not depend on the order exactly when the file of the root is refused, or no order
of its lists leads to another file that is taken in. -/
theorem order_independent_iff (fs : FileSystem Text) (parser : Parser Text Left) (root : Path)
    (depth : Nat) :
    OrderIndependent fs parser (depth + 2) root ↔
      ∀ lists, rootLists fs parser root = some lists →
        ∀ names, names.Perm (lists.map Prod.fst) → Undisturbed fs parser lists names := by
  constructor
  · intro h lists hlists names hnames
    obtain ⟨status, s, _, _, hrun, _⟩ := h (namedOrder names) (namedOrder names)
    exact undisturbed_of_run hlists hnames hrun
  · intro h order order'
    cases hlists : rootLists fs parser root with
    | none =>
      obtain ⟨s, hrun⟩ := eval_refusedRoot order hlists depth
      obtain ⟨s', hrun'⟩ := eval_refusedRoot order' hlists depth
      exact ⟨.failure, s, .failure, s', hrun, hrun', fun h => by cases h⟩
    | some lists =>
      obtain ⟨s, hrun, hfinal⟩ := eval_undisturbed order hlists (h lists hlists) depth
      obtain ⟨s', hrun', hfinal'⟩ := eval_undisturbed order' hlists (h lists hlists) depth
      refine ⟨.success, s, .success, s', hrun, hrun', fun _ _ name => ?_⟩
      rw [hfinal, hfinal']

/-! ### Two files that set the same list -/

/-- The canonical form of a directory in the tree below. -/
def rivalCanonical (p : Path) : Path :=
  if p = "/r/x/" then "/r/x" else if p = "/r/y/" then "/r/y" else p

def rivalFile (p : Path) : Option (List Statement) :=
  if p = "/r" then some [⟨"first", none, ["x/"], []⟩, ⟨"second", none, ["y/"], []⟩]
  else if p = "/r/x" then some [⟨"obj", some ".set", ["x.o"], []⟩]
  else if p = "/r/y" then some [⟨"obj", some ".set", ["y.o"], []⟩]
  else none

def rivalTree : FileSystem (List Statement) where
  isDirectory p := p = "/r" ∨ p = "/r/x" ∨ p = "/r/y"
  mbuild p := rivalFile (rivalCanonical p)
  weaklyCanonical := rivalCanonical
  mbuild_canonical p q h := by rw [h]

theorem rival_files_not_independent : ¬OrderIndependent rivalTree plainParser 2 "/r" := by
  intro h
  obtain ⟨status, s, _, _, hrun, _⟩ := h storedOrder storedOrder
  have hstop : stopOf (eval rivalTree plainParser storedOrder 2 "/r") .initial = some .freed := by
    decide +kernel
  rw [eq_error_of_stopOf hstop] at hrun
  cases hrun

end MidnightOS.Mbuild
