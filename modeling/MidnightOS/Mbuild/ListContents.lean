import MidnightOS.Mbuild.OneFile
import Mathlib.Data.List.Nodup
import Mathlib.Algebra.Order.Ring.Nat

/-! # The contents of the lists

What a statement does to the set that one name stands for, and to the names.
-/

namespace MidnightOS.Mbuild

open MidnightOS.Lib

variable {Text Left : Type} {fs : FileSystem Text}

/-! ## One list -/

theorem Lists.data_cons (name : String) (entry : String × PathSet) (lists : Lists) :
    Lists.data name (entry :: lists) = if entry.1 = name then entry.2 else lists.data name := by
  unfold Lists.data
  by_cases h : entry.1 = name
  · rw [List.find?_cons_of_pos (by simpa using h), if_pos h]
    rfl
  · rw [List.find?_cons_of_neg (by simpa using h), if_neg h]

@[simp] theorem Lists.data_update (name ident : String) (f : PathSet → PathSet) (lists : Lists) :
    (lists.update ident f).data name =
      if ident = name then f (lists.data name) else lists.data name := by
  induction lists with
  | nil =>
    rw [Lists.update, Lists.data_cons]
    rfl
  | cons entry lists ih =>
    obtain ⟨other, data⟩ := entry
    rw [Lists.update]
    by_cases hother : other = ident
    · rw [if_pos hother, Lists.data_cons, Lists.data_cons, hother]
      by_cases hname : ident = name
      · rw [if_pos hname, if_pos hname, if_pos hname]
      · rw [if_neg hname, if_neg hname, if_neg hname]
    · rw [if_neg hother, Lists.data_cons, Lists.data_cons, ih]
      by_cases hname : other = name
      · rw [if_pos hname, if_pos hname, if_neg fun h => hother (hname.trans h.symm)]
      · rw [if_neg hname, if_neg hname]

@[simp] theorem Lists.data_each (name ident : String) (f : Path → PathSet → PathSet)
    (entries : List Path) (lists : Lists) :
    (lists.each ident f entries).data name =
      if ident = name then entries.foldl (fun data e => f e data) (lists.data name)
      else lists.data name := by
  unfold Lists.each
  induction entries generalizing lists with
  | nil => simp
  | cons e entries ih =>
    rw [List.foldl_cons, ih, Lists.data_update, List.foldl_cons]
    by_cases hname : ident = name
    · rw [if_pos hname, if_pos hname, if_pos hname]
    · rw [if_neg hname, if_neg hname, if_neg hname]

theorem name_of_data {lists : Lists} {name : String} {d : Path} (h : d ∈ lists.data name) :
    name ∈ lists.map Prod.fst := by
  unfold Lists.data at h
  cases hfind : lists.find? fun entry => entry.1 = name with
  | none =>
    rw [hfind] at h
    cases h
  | some entry =>
    have hname : entry.1 = name := by simpa using List.find?_some hfind
    exact List.mem_map.mpr ⟨entry, List.mem_of_find?_eq_some hfind, hname⟩

/-! ## One statement -/

/-- The paths that the entries of a statement stand for. -/
def AstNode.entries (fs : FileSystem Text) (dir : Path) (node : AstNode) : List Path :=
  node.list.map fun e => fs.weaklyCanonical (joinPath dir e)

/-- What an operation does to the set of its name. -/
def Op.onSet (op : Op) (entries : List Path) (data : PathSet) : PathSet :=
  match op with
  | .add => entries.foldl (fun data e => PathSet.insert e data) data
  | .set => entries.foldl (fun data e => PathSet.insert e data) []
  | .remove => entries.foldl (fun data e => PathSet.erase e data) data
  | .invalid => data

theorem nodeLists_data {dir : Path} {node : AstNode} {lists lists' : Lists}
    (h : nodeLists fs dir node lists = some lists') (name : String) :
    lists'.data name =
      if node.ident = name then node.op.onSet (node.entries fs dir) (lists.data name)
      else lists.data name := by
  unfold nodeLists at h
  cases hop : node.op with
  | invalid =>
    rw [hop] at h
    cases h
  | add =>
    rw [hop] at h
    cases h
    exact Lists.data_each name _ _ _ _
  | remove =>
    rw [hop] at h
    cases h
    exact Lists.data_each name _ _ _ _
  | set =>
    rw [hop] at h
    cases h
    rw [Lists.data_each, Lists.data_update]
    by_cases hname : node.ident = name
    · rw [if_pos hname, if_pos hname, if_pos hname]
      rfl
    · rw [if_neg hname, if_neg hname, if_neg hname]

/-! ## Members -/

@[simp] theorem PathSet.mem_insert {x e : Path} {data : PathSet} :
    x ∈ data.insert e ↔ x = e ∨ x ∈ data := by
  induction data with
  | nil => simp [PathSet.insert]
  | cons y data ih =>
    rw [PathSet.insert]
    split_ifs with hless heq
    · rw [List.mem_cons]
    · simp [heq]
    · rw [List.mem_cons, ih, List.mem_cons]
      tauto

@[simp] theorem PathSet.mem_erase {x e : Path} {data : PathSet} :
    x ∈ data.erase e ↔ x ∈ data ∧ x ≠ e := by
  simp [PathSet.erase]

theorem mem_insertAll {x : Path} {entries : List Path} {data : PathSet} :
    x ∈ entries.foldl (fun data e => PathSet.insert e data) data ↔ x ∈ entries ∨ x ∈ data := by
  induction entries generalizing data with
  | nil => simp
  | cons e entries ih =>
    rw [List.foldl_cons, ih, PathSet.mem_insert, List.mem_cons]
    tauto

theorem mem_eraseAll {x : Path} {entries : List Path} {data : PathSet} :
    x ∈ entries.foldl (fun data e => PathSet.erase e data) data ↔ x ∈ data ∧ x ∉ entries := by
  induction entries generalizing data with
  | nil => simp
  | cons e entries ih =>
    rw [List.foldl_cons, ih, PathSet.mem_erase, List.mem_cons]
    tauto

theorem Op.mem_onSet {op : Op} {entries : List Path} {data : PathSet} {x : Path}
    (h : x ∈ op.onSet entries data) : x ∈ entries ∨ x ∈ data := by
  cases op with
  | invalid => exact .inr h
  | add => exact mem_insertAll.mp h
  | set => exact .inl ((mem_insertAll.mp h).resolve_right List.not_mem_nil)
  | remove => exact .inr (mem_eraseAll.mp h).1

/-! ## Order -/

theorem PathSet.insert_sorted (e : Path) {data : PathSet} (h : data.Pairwise (· < ·)) :
    (data.insert e).Pairwise (· < ·) := by
  induction data with
  | nil => exact List.pairwise_singleton _ e
  | cons x data ih =>
    obtain ⟨hx, hdata⟩ := List.pairwise_cons.mp h
    rw [PathSet.insert]
    split_ifs with hless heq
    · refine List.pairwise_cons.mpr ⟨List.forall_mem_cons.mpr ⟨hless, fun y hy => ?_⟩, h⟩
      exact hless.trans (hx y hy)
    · exact h
    · refine List.pairwise_cons.mpr ⟨fun y hy => ?_, ih hdata⟩
      cases PathSet.mem_insert.mp hy with
      | inl hnew => exact hnew ▸ lt_of_le_of_ne (not_lt.mp hless) (Ne.symm heq)
      | inr hold => exact hx y hold

theorem insertAll_sorted (entries : List Path) {data : PathSet} (h : data.Pairwise (· < ·)) :
    (entries.foldl (fun data e => PathSet.insert e data) data).Pairwise (· < ·) := by
  induction entries generalizing data with
  | nil => exact h
  | cons e entries ih => exact ih (PathSet.insert_sorted e h)

theorem eraseAll_sorted (entries : List Path) {data : PathSet} (h : data.Pairwise (· < ·)) :
    (entries.foldl (fun data e => PathSet.erase e data) data).Pairwise (· < ·) := by
  induction entries generalizing data with
  | nil => exact h
  | cons e entries ih => exact ih (h.filter _)

theorem Op.onSet_sorted (op : Op) (entries : List Path) {data : PathSet}
    (h : data.Pairwise (· < ·)) : (op.onSet entries data).Pairwise (· < ·) := by
  cases op with
  | invalid => exact h
  | add => exact insertAll_sorted entries h
  | set => exact insertAll_sorted entries List.Pairwise.nil
  | remove => exact eraseAll_sorted entries h

/-- Every list stays in the order of its paths. -/
theorem nodesLists_sorted {dir : Path} {nodes : List AstNode} {lists lists' : Lists}
    (h : nodesLists fs dir nodes lists = some lists') (name : String)
    (hsorted : (lists.data name).Pairwise (· < ·)) : (lists'.data name).Pairwise (· < ·) := by
  induction nodes generalizing lists with
  | nil =>
    cases h
    exact hsorted
  | cons node nodes ih =>
    rw [nodesLists, Option.bind_eq_some_iff] at h
    obtain ⟨between, hnode, hrest⟩ := h
    refine ih hrest ?_
    rw [nodeLists_data hnode]
    split_ifs with hname
    · exact node.op.onSet_sorted _ hsorted
    · exact hsorted

/-! ## All statements -/

theorem nodeLists_eq_none {dir : Path} {node : AstNode} {lists : Lists} :
    nodeLists fs dir node lists = none ↔ node.op = .invalid := by
  unfold nodeLists
  cases node.op with
  | invalid => exact iff_of_true rfl rfl
  | add => exact iff_of_false (fun h => by cases h) (fun h => by cases h)
  | set => exact iff_of_false (fun h => by cases h) (fun h => by cases h)
  | remove => exact iff_of_false (fun h => by cases h) (fun h => by cases h)

theorem ops_known {dir : Path} {nodes : List AstNode} {lists lists' : Lists}
    (h : nodesLists fs dir nodes lists = some lists') : ∀ node ∈ nodes, node.op ≠ .invalid := by
  induction nodes generalizing lists with
  | nil => exact fun node hnode => absurd hnode List.not_mem_nil
  | cons node nodes ih =>
    rw [nodesLists, Option.bind_eq_some_iff] at h
    obtain ⟨between, hnode, hrest⟩ := h
    refine List.forall_mem_cons.mpr ⟨fun hinvalid => ?_, ih hrest⟩
    rw [nodeLists_eq_none.mpr hinvalid] at hnode
    cases hnode

theorem nodesLists_known (fs : FileSystem Text) (dir : Path) {nodes : List AstNode} (lists : Lists)
    (h : ∀ node ∈ nodes, node.op ≠ .invalid) :
    ∃ lists', nodesLists fs dir nodes lists = some lists' := by
  induction nodes generalizing lists with
  | nil => exact ⟨lists, rfl⟩
  | cons node nodes ih =>
    rw [List.forall_mem_cons] at h
    have hsome : nodeLists fs dir node lists ≠ none := fun hnone => h.1 (nodeLists_eq_none.mp hnone)
    obtain ⟨between, hnode⟩ := Option.ne_none_iff_exists'.mp hsome
    rw [nodesLists, hnode, Option.bind_some]
    exact ih between h.2

/-- A path in a list was written by a statement. -/
theorem nodesLists_entry {dir : Path} {nodes : List AstNode} {lists lists' : Lists}
    (h : nodesLists fs dir nodes lists = some lists') {name : String} {e : Path}
    (he : e ∈ lists'.data name) :
    e ∈ lists.data name ∨ ∃ node ∈ nodes, e ∈ node.entries fs dir := by
  induction nodes generalizing lists with
  | nil =>
    cases h
    exact .inl he
  | cons node nodes ih =>
    rw [nodesLists, Option.bind_eq_some_iff] at h
    obtain ⟨between, hnode, hrest⟩ := h
    cases ih hrest with
    | inr hlater =>
      obtain ⟨later, hlater, hentry⟩ := hlater
      exact .inr ⟨later, List.mem_cons_of_mem _ hlater, hentry⟩
    | inl hbetween =>
      rw [nodeLists_data hnode] at hbetween
      split_ifs at hbetween with hname
      · cases Op.mem_onSet hbetween with
        | inl hentry => exact .inr ⟨node, List.mem_cons_self, hentry⟩
        | inr hbefore => exact .inl hbefore
      · exact .inl hbetween

/-! ## Their names -/

theorem Lists.update_names (ident : String) (f : PathSet → PathSet) (lists : Lists) :
    (lists.update ident f).map Prod.fst =
      if ident ∈ lists.map Prod.fst then lists.map Prod.fst else lists.map Prod.fst ++ [ident] := by
  induction lists with
  | nil => rfl
  | cons entry lists ih =>
    obtain ⟨name, data⟩ := entry
    rw [Lists.update]
    by_cases hname : name = ident
    · simp [hname]
    · rw [if_neg hname, List.map_cons, ih]
      by_cases hmem : ident ∈ lists.map Prod.fst
      · simp [hmem]
      · simp [hmem, Ne.symm hname]

/-- Names to which one is added are each there once. -/
structure AddsName (ident : String) (before after : List String) : Prop where
  mem_iff : ∀ name, name ∈ after ↔ name ∈ before ∨ name = ident
  nodup : before.Nodup → after.Nodup

theorem Lists.update_adds (ident : String) (f : PathSet → PathSet) (lists : Lists) :
    AddsName ident (lists.map Prod.fst) ((lists.update ident f).map Prod.fst) := by
  rw [Lists.update_names]
  by_cases hmem : ident ∈ lists.map Prod.fst
  · rw [if_pos hmem]
    exact ⟨fun name => ⟨.inl, fun h => h.elim id fun heq => heq ▸ hmem⟩, id⟩
  · rw [if_neg hmem]
    refine ⟨fun name => by simp, fun h => ?_⟩
    rw [List.nodup_append]
    exact ⟨h, List.nodup_singleton ident, fun a ha b hb => by
      rintro rfl
      exact hmem (List.mem_singleton.mp hb ▸ ha)⟩

theorem AddsName.again {ident : String} {before middle after : List String}
    (h : AddsName ident before middle) (h' : AddsName ident middle after) :
    AddsName ident before after where
  mem_iff name := by
    rw [h'.mem_iff, h.mem_iff]
    tauto
  nodup hnodup := h'.nodup (h.nodup hnodup)

theorem Lists.each_adds (ident : String) (f : Path → PathSet → PathSet) {entries : List Path}
    (hne : entries ≠ []) (lists : Lists) :
    AddsName ident (lists.map Prod.fst) ((lists.each ident f entries).map Prod.fst) := by
  induction entries generalizing lists with
  | nil => exact absurd rfl hne
  | cons e entries ih =>
    have hfirst := Lists.update_adds ident (f e) lists
    cases entries with
    | nil => exact hfirst
    | cons e' entries => exact hfirst.again (ih (by simp) _)

/-- A statement names its list, unless it neither empties it nor has entries. -/
def AstNode.touches (node : AstNode) : Prop := node.op = .set ∨ node.list ≠ []

theorem nodeLists_names {dir : Path} {node : AstNode} {lists lists' : Lists}
    (h : nodeLists fs dir node lists = some lists') :
    (node.touches → AddsName node.ident (lists.map Prod.fst) (lists'.map Prod.fst)) ∧
      (¬node.touches → lists' = lists) := by
  unfold nodeLists at h
  unfold AstNode.touches
  by_cases hlist : node.list = []
  · cases hop : node.op with
    | invalid => simp [hop] at h
    | add =>
      rw [hop, hlist] at h
      cases h
      exact ⟨by simp [hlist], fun _ => rfl⟩
    | remove =>
      rw [hop, hlist] at h
      cases h
      exact ⟨by simp [hlist], fun _ => rfl⟩
    | set =>
      rw [hop, hlist] at h
      cases h
      exact ⟨fun _ => Lists.update_adds _ _ _, by simp⟩
  · have hne : (node.list.map fun e => fs.weaklyCanonical (joinPath dir e)) ≠ [] := by simpa using hlist
    refine ⟨fun _ => ?_, fun hnot => absurd (.inr hlist) hnot⟩
    cases hop : node.op with
    | invalid => simp [hop] at h
    | add =>
      rw [hop] at h
      cases h
      exact Lists.each_adds _ _ hne _
    | remove =>
      rw [hop] at h
      cases h
      exact Lists.each_adds _ _ hne _
    | set =>
      rw [hop] at h
      cases h
      exact (Lists.update_adds _ _ _).again (Lists.each_adds _ _ hne _)

/-- The names of the lists are those of the statements that touch one, each once. -/
theorem nodesLists_names {dir : Path} {nodes : List AstNode} {lists lists' : Lists}
    (h : nodesLists fs dir nodes lists = some lists') :
    (∀ name, name ∈ lists'.map Prod.fst ↔
        name ∈ lists.map Prod.fst ∨ ∃ node ∈ nodes, node.ident = name ∧ node.touches) ∧
      ((lists.map Prod.fst).Nodup → (lists'.map Prod.fst).Nodup) := by
  induction nodes generalizing lists with
  | nil =>
    cases h
    simp
  | cons node nodes ih =>
    rw [nodesLists, Option.bind_eq_some_iff] at h
    obtain ⟨between, hnode, hrest⟩ := h
    obtain ⟨hmem, hnodup⟩ := ih hrest
    obtain ⟨hadds, hkeeps⟩ := nodeLists_names hnode
    by_cases htouches : node.touches
    · have hadds := hadds htouches
      refine ⟨fun name => ?_, fun h => hnodup (hadds.nodup h)⟩
      rw [hmem, hadds.mem_iff]
      constructor
      · rintro ((hbefore | rfl) | ⟨other, hother, hname⟩)
        · exact .inl hbefore
        · exact .inr ⟨node, by simp, rfl, htouches⟩
        · exact .inr ⟨other, by simp [hother], hname⟩
      · rintro (hbefore | ⟨other, hother, rfl, hother'⟩)
        · exact .inl (.inl hbefore)
        · rcases List.mem_cons.mp hother with rfl | hlater
          · exact .inl (.inr rfl)
          · exact .inr ⟨other, hlater, rfl, hother'⟩
    · obtain rfl := hkeeps htouches
      refine ⟨fun name => ?_, hnodup⟩
      rw [hmem]
      constructor
      · rintro (hbefore | ⟨other, hother, hname⟩)
        · exact .inl hbefore
        · exact .inr ⟨other, by simp [hother], hname⟩
      · rintro (hbefore | ⟨other, hother, rfl, hother'⟩)
        · exact .inl hbefore
        · rcases List.mem_cons.mp hother with rfl | hlater
          · exact absurd hother' htouches
          · exact .inr ⟨other, hlater, rfl, hother'⟩

/-! ## All lists -/

theorem Lists.data_of_mem {lists : Lists} (hnodup : (lists.map Prod.fst).Nodup)
    {entry : String × PathSet} (h : entry ∈ lists) : lists.data entry.1 = entry.2 := by
  induction lists with
  | nil => cases h
  | cons other lists ih =>
    rw [List.map_cons, List.nodup_cons] at hnodup
    rw [Lists.data_cons]
    cases h with
    | head => rw [if_pos rfl]
    | tail _ h =>
      -- a later entry has another name
      have hother : other.1 ≠ entry.1 := fun hname => hnodup.1 (hname ▸ List.mem_map_of_mem h)
      rw [if_neg hother, ih hnodup.2 h]

/-- A sum over the lists, in any order of their names. -/
theorem Lists.sum_data {lists : Lists} (hnodup : (lists.map Prod.fst).Nodup) {names : List String}
    (hnames : names.Perm (lists.map Prod.fst)) (f : PathSet → Nat) :
    (names.map fun name => f (lists.data name)).sum = (lists.map fun entry => f entry.2).sum := by
  rw [(hnames.map _).sum_nat, List.map_map]
  refine congrArg List.sum (List.map_congr_left fun entry hentry => ?_)
  exact congrArg f (Lists.data_of_mem hnodup hentry)


end MidnightOS.Mbuild
