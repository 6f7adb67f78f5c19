import MidnightOS.Nyxboot.PageTables

/-! # What mapping a page does to the tables

`Tables` is the invariant of the page tables, and `TableRun` is what any run of
the mapping code may do: obtain single pages that become tables, and write to
the table pages only.  Each function of the source has one lemma saying that it
makes such a run, whether it succeeds or fails, and what it does to the walks.

`pageMap` is the abstract view: the frame each of the `2 ^ 36` virtual pages is
mapped to.  On it a successful `memMapPage` is `PageMap.set`.
-/

namespace MidnightOS.Nyxboot

open MidnightOS.Lib MidnightOS.Lib.HeapTrie

variable {σ : Type}

/-! ## The invariant -/

/-- The tables in the frames `live` form a trie below the table in frame `root`,
    and all of them are in use. -/
structure Tables (s : Machine σ) (root : Nat) (live : List Nat) : Prop where
  trie : IsTrie entryFrame tableEntry (slots s.mem) root 3 live
  held : ∀ f, f = root ∨ f ∈ live → ∀ x, x / 4096 = f → InUse s.trace x

/-- The frames of the page runs obtained. -/
def obtainedFrames (evs : List Event) : List Nat :=
  (obtainedRuns evs).map fun r => r.1.toNat / 4096

theorem obtainedFrames_append (evs evs' : List Event) :
    obtainedFrames (evs ++ evs') = obtainedFrames evs ++ obtainedFrames evs' := by
  rw [obtainedFrames, obtainedRuns_append, List.map_append]
  rfl

/-- A run from `s` to `s'` of code that maps pages below `root`: it did `evs`,
    obtained single aligned pages not in use before, which are tables now, freed
    nothing, and wrote inside table pages only. -/
structure TableRun (root : Nat) (live : List Nat) (s s' : Machine σ) (evs : List Event) : Prop where
  trace : s'.trace = evs ++ s.trace
  vars : s'.vars = s.vars
  single : ∀ r ∈ obtainedRuns evs, r.2 = 1 ∧ r.1.toNat % 4096 = 0
  freed : freedRuns evs = []
  kept : ∀ x, InUse s.trace x → InUse s'.trace x
  fresh : ∀ f ∈ obtainedFrames evs, ∀ x, x / 4096 = f → ¬InUse s.trace x
  stores : ∀ a n, Event.store a n ∈ evs →
    ∃ f ∈ root :: (obtainedFrames evs ++ live), 4096 * f ≤ a ∧ a + n ≤ 4096 * f + 4096
  frame : ∀ x, x / 4096 ∉ root :: (obtainedFrames evs ++ live) → s'.mem x = s.mem x
  tables : Tables s' root (obtainedFrames evs ++ live)

theorem TableRun.refl {root : Nat} {live : List Nat} {s : Machine σ} (t : Tables s root live) :
    TableRun root live s s [] :=
  ⟨rfl, rfl, by simp [obtainedRuns], rfl, fun _ h => h, by simp [obtainedFrames, obtainedRuns],
    by simp, fun _ _ => rfl, t⟩

theorem TableRun.trans {root : Nat} {live : List Nat} {s t u : Machine σ} {evs evs' : List Event}
    (h : TableRun root live s t evs) (h' : TableRun root (obtainedFrames evs ++ live) t u evs') :
    TableRun root live s u (evs' ++ evs) := by
  -- the tables at the end: those of the second part, the first part, and before
  have hframes : obtainedFrames (evs' ++ evs) ++ live =
      obtainedFrames evs' ++ (obtainedFrames evs ++ live) := by
    rw [obtainedFrames_append, List.append_assoc]
  have hweaken : ∀ f, f ∈ root :: (obtainedFrames evs ++ live) →
      f ∈ root :: (obtainedFrames evs' ++ (obtainedFrames evs ++ live)) := by
    intro f hf
    rcases List.mem_cons.mp hf with rfl | hf
    · exact List.mem_cons_self
    · exact List.mem_cons_of_mem _ (List.mem_append_right _ hf)
  refine ⟨?_, ?_, ?_, ?_, fun x hx => h'.kept x (h.kept x hx), ?_, ?_, ?_, ?_⟩
  · rw [h'.trace, h.trace, List.append_assoc]
  · rw [h'.vars, h.vars]
  · intro r hr
    rw [obtainedRuns_append, List.mem_append] at hr
    exact hr.elim (h'.single r) (h.single r)
  · rw [freedRuns_append, h'.freed, h.freed, List.append_nil]
  · intro f hf x hx huse
    rw [obtainedFrames_append, List.mem_append] at hf
    cases hf with
    | inl hf => exact h'.fresh f hf x hx (h.kept x huse)
    | inr hf => exact h.fresh f hf x hx huse
  · intro a n hmem
    rw [hframes]
    rcases List.mem_append.mp hmem with hmem | hmem
    · exact h'.stores a n hmem
    · obtain ⟨f, hf, hb⟩ := h.stores a n hmem
      exact ⟨f, hweaken f hf, hb⟩
  · intro x hx
    rw [hframes] at hx
    rw [h'.frame x hx, h.frame x (fun hf => hx (hweaken _ hf))]
  · rw [hframes]; exact h'.tables

/-- What was in use and no table keeps its contents. -/
theorem TableRun.mem_eq {root : Nat} {live : List Nat} {s s' : Machine σ} {evs : List Event}
    (h : TableRun root live s s' evs) {x : Nat} (huse : InUse s.trace x)
    (hx : x / 4096 ∉ root :: live) : s'.mem x = s.mem x := by
  refine h.frame x fun hmem => ?_
  cases List.mem_cons.mp hmem with
  | inl heq => exact hx (List.mem_cons.mpr (Or.inl heq))
  | inr hmem =>
    cases List.mem_append.mp hmem with
    | inl hnew => exact h.fresh _ hnew x rfl huse
    | inr hold => exact hx (List.mem_cons_of_mem _ hold)

/-- A load changes nothing. -/
theorem TableRun.load {root : Nat} {live : List Nat} {s : Machine σ} (t : Tables s root live)
    (a n : Nat) : TableRun root live s (s.emit (.load a n)) [.load a n] :=
  ⟨rfl, rfl, by simp [obtainedRuns], rfl, fun _ h => h, by simp [obtainedFrames, obtainedRuns],
    by simp, fun _ _ => rfl, ⟨t.trie, t.held⟩⟩

/-- A refused page changes nothing. -/
theorem TableRun.refused {root : Nat} {live : List Nat} {s : Machine σ} (t : Tables s root live)
    (n : UINTN) (e : EfiError) :
    TableRun root live s (s.emit (.allocatePages n (.error e))) [.allocatePages n (.error e)] :=
  ⟨rfl, rfl, by simp [obtainedRuns], rfl, fun _ h => h, by simp [obtainedFrames, obtainedRuns],
    by simp, fun _ _ => rfl, ⟨t.trie, t.held⟩⟩

/-! ## Memory in use -/

/-- A page handed out as a single page. -/
theorem single_page {fw : Firmware} (hfw : fw.SoundPages) {h : List Event} {a : UINT64}
    (hok : fw.allocatePages h 1 = .ok a) :
    a.toNat = 4096 * (a.toNat / 4096) ∧ a.toNat / 4096 < 2 ^ 40 ∧
      ∀ x, x / 4096 = a.toNat / 4096 → ¬InUse h x := by
  have haligned := hfw.aligned h 1 a hok
  have hbelow := hfw.below h 1 a hok
  have hone : (1 : UINTN).toNat = 1 := rfl
  rw [hone] at hbelow
  refine ⟨by omega, by omega, fun x hx => hfw.fresh h 1 a hok x ?_ ?_⟩
  · omega
  · rw [hone]; omega

theorem inUse_allocatePages {h : List Event} {n : UINTN} {a : UINT64} {x : Nat} :
    InUse (.allocatePages n (.ok a) :: h) x ↔
      (a.toNat ≤ x ∧ x < a.toNat + 4096 * n.toNat) ∨ InUse h x := by
  simp only [InUse, PagesHeld, poolBuffers, or_assoc]

/-- A page that is not in use is not a table. -/
theorem Tables.not_table {s : Machine σ} {root f : Nat} {live : List Nat}
    (t : Tables s root live) (hf : ∀ x, x / 4096 = f → ¬InUse s.trace x) :
    f ≠ root ∧ f ∉ live := by
  have hx : 4096 * f / 4096 = f := by omega
  exact ⟨fun h => hf _ hx (t.held f (Or.inl h) _ hx), fun h => hf _ hx (t.held f (Or.inr h) _ hx)⟩

/-! ## Adding a table -/

/-- Memory after `memAddTable` put the page `newPage` into slot `i` of table `a`. -/
def withTable (m : Mem) (a : Nat) (i : Fin 512) (b : Nat) : Mem :=
  fill (storeLE m 8 (4096 * a + 8 * i) (tableEntry b)) (4096 * b) 0x1000 0

theorem slots_withTable (m : Mem) (a b c : Nat) (i j : Fin 512) :
    slots (withTable m a i b) c j =
      if c = b then 0 else if c = a ∧ j = i then tableEntry b else slots m c j := by
  rw [withTable, slots_fill, slots_storeLE]

theorem withTable_linked (m : Mem) {a b : Nat} (i : Fin 512) (hab : a ≠ b) :
    IsTrie.Linked entryFrame tableEntry (slots m) (slots (withTable m a i b)) a i b := by
  refine ⟨?_, fun j => ?_, fun c j hcb hca => ?_⟩
  · rw [slots_withTable, if_neg hab, if_pos ⟨rfl, rfl⟩]
  · rw [slots_withTable, if_pos rfl]; rfl
  · rw [slots_withTable, if_neg hcb, if_neg hca]

theorem withTable_of_outside (m : Mem) {a b x : Nat} (i : Fin 512) (ha : x / 4096 ≠ a)
    (hb : x / 4096 ≠ b) : withTable m a i b x = m x := by
  have hi := i.isLt
  rw [withTable, fill_of_outside (by omega), storeLE_of_outside (by omega)]

section Specs

variable {fw : Firmware} {root a b : Nat} {live : List Nat} {s : Machine σ} {table index : UINT64}
  {p : List (Fin 512)} {i : Fin 512}

theorem Tables.page (t : Tables s root live) (hp : walk entryFrame (slots s.mem) root p = some a)
    (hlen : p.length ≤ 3) : a ∈ root :: live := by
  rcases t.trie.reached hlen hp with rfl | h
  · exact List.mem_cons_self
  · exact List.mem_cons_of_mem _ h

/-- The state after a table was added. -/
theorem TableRun.addTable (t : Tables s root live)
    (hp : walk entryFrame (slots s.mem) root p = some a) (hlen : p.length < 3)
    (habsent : entryFrame (slots s.mem a i) = none) {newPage : UINT64}
    (hpage : newPage.toNat = 4096 * b) (hb : b < 2 ^ 40)
    (hunused : ∀ x, x / 4096 = b → ¬InUse s.trace x) :
    TableRun root live s
      ⟨withTable s.mem a i b, .store (4096 * b) 0x1000 :: .store (4096 * a + 8 * i) 8 ::
        .allocatePages 1 (.ok newPage) :: s.trace, s.vars⟩
      [.store (4096 * b) 0x1000, .store (4096 * a + 8 * i) 8, .allocatePages 1 (.ok newPage)] := by
  obtain ⟨hbroot, hblive⟩ := t.not_table hunused
  have ha := t.page hp (by omega)
  have hab : a ≠ b := by
    rintro rfl
    rcases List.mem_cons.mp ha with h | h
    · exact hbroot h
    · exact hblive h
  have hframes : obtainedFrames [.store (4096 * b) 0x1000, .store (4096 * a + 8 * i) 8,
      .allocatePages 1 (.ok newPage)] = [b] := by
    simp only [obtainedFrames, obtainedRuns, List.map_cons, List.map_nil, hpage]
    congr 1
    omega
  refine ⟨rfl, rfl, ?_, rfl, ?_, ?_, ?_, ?_, ?_, ?_⟩
  · intro r hr
    obtain rfl := List.mem_singleton.mp hr
    exact ⟨rfl, by simp only; omega⟩
  · intro x hx
    exact inUse_allocatePages.mpr (Or.inr hx)
  · intro f hf x hx
    rw [hframes] at hf
    obtain rfl := List.mem_singleton.mp hf
    exact hunused x hx
  · intro x n hmem
    have hi := i.isLt
    rw [hframes]
    simp only [List.mem_cons, Event.store.injEq, reduceCtorEq, List.not_mem_nil, or_false] at hmem
    rcases hmem with ⟨rfl, rfl⟩ | ⟨rfl, rfl⟩
    · exact ⟨b, by simp, by omega, by omega⟩
    · refine ⟨a, ?_, by omega, by omega⟩
      rcases List.mem_cons.mp ha with h | h
      · simp [h]
      · simp [h]
  · intro x hx
    rw [hframes] at hx
    refine withTable_of_outside s.mem i ?_ ?_
    · rintro rfl
      rcases List.mem_cons.mp ha with h | h
      · exact hx (List.mem_cons.mpr (Or.inl h))
      · exact hx (List.mem_cons_of_mem _ (List.mem_append_right _ h))
    · rintro rfl
      exact hx (List.mem_cons_of_mem _ (List.mem_append_left _ (List.mem_singleton.mpr rfl)))
  · rw [hframes]
    exact t.trie.link (entryFrame_tableEntry hb) hp (by omega) habsent hbroot hblive
      (withTable_linked s.mem i hab)
  · rw [hframes]
    intro f hf x hx
    show InUse (.allocatePages 1 (.ok newPage) :: s.trace) x
    rw [inUse_allocatePages, show (1 : UINTN).toNat = 1 from rfl]
    rcases hf with rfl | hf
    · exact Or.inr (t.held f (Or.inl rfl) x hx)
    · rcases List.mem_append.mp hf with hf | hf
      · obtain rfl := List.mem_singleton.mp hf
        exact Or.inl (by omega)
      · exact Or.inr (t.held f (Or.inr hf) x hx)

/-- The walks from `root` once there is a table `b` at the end of `p ++ [i]`. -/
def WalksExtended (p : List (Fin 512)) (i : Fin 512) (b root : Nat) (m m' : Mem) : Prop :=
  ∀ q : List (Fin 512), q.length ≤ 4 → walk entryFrame (slots m') root q =
    if q = p ++ [i] then some b else walk entryFrame (slots m) root q

theorem memAddTable_spec (hfw : fw.SoundPages) (t : Tables s root live)
    (hp : walk entryFrame (slots s.mem) root p = some a) (hlen : p.length < 3)
    (htable : table.toNat = 4096 * a) (hindex : index.toNat = i)
    (habsent : entryFrame (slots s.mem a i) = none) :
    wp (memAddTable fw table index)
      (fun _ s' => ∃ evs b, TableRun root live s s' evs ∧
        WalksExtended p i b root s.mem s'.mem ∧ slots s'.mem a i = tableEntry b ∧ b < 2 ^ 40)
      (fun e s' => e ≠ .fault ∧ ∃ evs, TableRun root live s s' evs ∧ s'.mem = s.mem) s := by
  simp only [memAddTable, wp_bind, wp_allocatePages, wp_storeWord, wp_zeroMem]
  refine ⟨fun newPage hok => ?_, fun e _ => ⟨(fun he => by cases he), _, TableRun.refused t 1 e, rfl⟩⟩
  obtain ⟨hpage, hb, hunused⟩ := single_page hfw hok
  generalize newPage.toNat / 4096 = b at hpage hb hunused
  obtain ⟨hbroot, hblive⟩ := t.not_table hunused
  -- the table above is in use, the new page was not
  have hab : a ≠ b := by
    rintro rfl
    rcases t.trie.reached (by omega) hp with h | h
    · exact hbroot h
    · exact hblive h
  have hslot : slotAddr table index = 4096 * a + 8 * (i : Nat) := by rw [slotAddr, htable, hindex]
  have hlinked := withTable_linked s.mem i hab
  rw [hslot, hpage, or_pageWsp_eq_tableEntry hpage]
  exact ⟨_, b, TableRun.addTable t hp hlen habsent hpage hb hunused,
    fun q hq => t.trie.walk_linked (entryFrame_tableEntry hb) hp (by omega) habsent hbroot hblive
      hlinked hq, hlinked.slot, hb⟩

/-- Looking up the next table: it is the one at the end of `p ++ [i]`, which is
    added if need be. -/
theorem memNextTable_spec (hfw : fw.SoundPages) (t : Tables s root live)
    (hp : walk entryFrame (slots s.mem) root p = some a) (hlen : p.length < 3)
    (htable : table.toNat = 4096 * a) (hindex : index.toNat = i) :
    wp (memNextTable fw table index)
      (fun next s' => ∃ evs b, TableRun root live s s' evs ∧ next.toNat = 4096 * b ∧
        WalksExtended p i b root s.mem s'.mem)
      (fun e s' => e ≠ .fault ∧ ∃ evs, TableRun root live s s' evs ∧ s'.mem = s.mem) s := by
  have hload : ∀ m : Mem, loadLE m 8 (slotAddr table index) = slots m a i :=
    fun m => loadLE_slotAddr htable hindex
  have hfirst := TableRun.load t (slotAddr table index) 8
  simp only [memNextTable, wp_bind, wp_loadWord, wp_ite, wp_pure, hload]
  refine ⟨fun habsent => ?_, fun hpresent => ?_⟩
  · refine wp_mono (memAddTable_spec hfw hfirst.tables hp hlen htable hindex
      ((entryFrame_eq_none_iff _).mpr habsent)) ?_ ?_
    · rintro _ s' ⟨evs, b, hrun, hwalks, hslot, hb⟩
      have hadded := hfirst.trans hrun
      exact ⟨_, b, hadded.trans (TableRun.load hadded.tables _ _), by rw [hslot, tableAddr_tableEntry hb], hwalks⟩
    · rintro e s' ⟨he, evs, hrun, hmem⟩
      exact ⟨he, _, hfirst.trans hrun, hmem⟩
  · obtain ⟨b, hb⟩ : ∃ b, entryFrame (slots s.mem a i) = some b := by
      cases h : entryFrame (slots s.mem a i) with
      | none => exact absurd ((entryFrame_eq_none_iff _).mp h) hpresent
      | some b => exact ⟨b, rfl⟩
    have hentry := t.trie.canonical p a i b hlen hp hb
    refine ⟨_, b, hfirst.trans (TableRun.load hfirst.tables _ _), ?_, fun q _ => ?_⟩
    · rw [Machine.emit_mem, hentry, tableAddr_tableEntry (entryFrame_lt hb)]
    · split
      · next heq => rw [heq, ← hb, ← walk_snoc hp]; rfl
      · rfl

/-! ## Mapping a page -/

/-- Following one more level. -/
theorem WalksExtended.walk_snoc {m m' : Mem} (h : WalksExtended p i b root m m')
    (hlen : p.length ≤ 3) : walk entryFrame (slots m') root (p ++ [i]) = some b := by
  rw [h _ (by rw [length_snoc]; omega), if_pos rfl]

/-- Adding tables above the leaves does not change the translation of any page. -/
theorem WalksExtended.pageMap_eq {m m' : Mem} (h : WalksExtended p i b root m m')
    (hlen : p.length < 3) : pageMap m' root = pageMap m root := by
  funext n
  rw [pageMap, pageMap, h _ (by simp [slotPath]), if_neg]
  intro heq
  have := congrArg List.length heq
  rw [length_snoc] at this
  simp only [slotPath, List.length_cons, List.length_nil] at this
  omega

/-- Writing the leaf entry of the page with number `n`. -/
theorem TableRun.setLeaf (t : Tables s root live) {n : Nat} {w : UINT64}
    (hp : walk entryFrame (slots s.mem) root p = some a) (hpath : slotPath n = p ++ [i])
    (hw : entryFrame w = some b) :
    TableRun root live s
        ⟨storeLE s.mem 8 (4096 * a + 8 * i) w, .store (4096 * a + 8 * i) 8 :: s.trace, s.vars⟩
        [.store (4096 * a + 8 * i) 8] ∧
      pageMap (storeLE s.mem 8 (4096 * a + 8 * i) w) root = (pageMap s.mem root).set n b := by
  have hlen : p.length = 3 := by
    have := congrArg List.length hpath
    rw [length_snoc] at this
    simp only [slotPath, List.length_cons, List.length_nil] at this
    omega
  have ha := t.page hp (by omega)
  have hi := i.isLt
  have hslot : slots (storeLE s.mem 8 (4096 * a + 8 * i) w) a i = w := by
    rw [slots_storeLE, if_pos ⟨rfl, rfl⟩]
  have hframe : ∀ c j, ¬(c = a ∧ j = i) →
      slots (storeLE s.mem 8 (4096 * a + 8 * i) w) c j = slots s.mem c j := by
    intro c j hcj
    rw [slots_storeLE, if_neg hcj]
  refine ⟨⟨rfl, rfl, by simp [obtainedRuns], rfl, fun _ h => h,
    by simp [obtainedFrames, obtainedRuns], ?_, ?_, ⟨?_, t.held⟩⟩, ?_⟩
  · intro x k hmem
    obtain ⟨rfl, rfl⟩ := Event.store.inj (List.mem_singleton.mp hmem)
    exact ⟨a, ha, by omega, by omega⟩
  · intro x hx
    refine storeLE_of_outside ?_
    have : x / 4096 ≠ a := by rintro rfl; exact hx ha
    omega
  · exact t.trie.setLeaf hp hlen hframe
  · funext k
    rw [pageMap, t.trie.walk_setLeaf hp hlen hslot hframe (by simp [slotPath]), hw, PageMap.set,
      ← hpath, pageMap]
    simp only [slotPath_eq_iff]

theorem memMapPage_spec (hfw : fw.SoundPages) {pml4 : UINT64} (hroot : pml4.toNat = 4096 * root)
    (t : Tables s root live) (vaddr paddr : UINT64) :
    wp (memMapPage fw pml4 vaddr paddr)
      (fun _ s' => ∃ evs, TableRun root live s s' evs ∧ pageMap s'.mem root =
        (pageMap s.mem root).set (vaddr.toNat / 4096) (leafFrame paddr) ∧
        vaddr.toNat % 4096 = 0 ∧ paddr.toNat % 4096 = 0)
      (fun e s' => e ≠ .fault ∧ ∃ evs, TableRun root live s s' evs ∧
        pageMap s'.mem root = pageMap s.mem root) s := by
  have hrefused : ∀ e : EfiError, Stop.efi e ≠ .fault ∧
      ∃ evs, TableRun root live s s evs ∧ pageMap s.mem root = pageMap s.mem root :=
    fun e => ⟨(fun he => by cases he), _, TableRun.refl t, rfl⟩
  simp only [memMapPage, wp_bind]
  rw [wp_returnIf, wp_returnIf, wp_returnIf, aligned_iff, aligned_iff, not_not, not_not]
  refine ⟨fun _ => hrefused _, fun _ => ⟨fun _ => hrefused _, fun hv =>
    ⟨fun _ => hrefused _, fun hpaddr => ?_⟩⟩⟩
  -- the three levels above the leaf
  refine wp_mono (memNextTable_spec (p := []) (i := ⟨_, Nat.mod_lt _ (by decide)⟩) hfw t rfl
    (by simp) hroot (pml4Entry_toNat vaddr)) ?_ ?_
  swap
  · rintro e s' ⟨he, evs, hrun, hmem⟩
    exact ⟨he, evs, hrun, by rw [hmem]⟩
  rintro pdpt s₁ ⟨evs₁, b₁, hrun₁, hb₁, hwalks₁⟩
  have hmap₁ := hwalks₁.pageMap_eq (by simp)
  refine wp_mono (memNextTable_spec (i := ⟨_, Nat.mod_lt _ (by decide)⟩) hfw hrun₁.tables
    (hwalks₁.walk_snoc (by simp)) (by simp) hb₁ (pdptEntry_toNat vaddr)) ?_ ?_
  swap
  · rintro e s' ⟨he, evs, hrun, hmem⟩
    exact ⟨he, _, hrun₁.trans hrun, by rw [hmem, hmap₁]⟩
  rintro pd s₂ ⟨evs₂, b₂, hrun₂, hb₂, hwalks₂⟩
  have hrun₁₂ := hrun₁.trans hrun₂
  have hmap₂ := hwalks₂.pageMap_eq (by simp)
  refine wp_mono (memNextTable_spec (i := ⟨_, Nat.mod_lt _ (by decide)⟩) hfw hrun₁₂.tables
    (hwalks₂.walk_snoc (by simp)) (by simp) hb₂ (pdEntry_toNat vaddr)) ?_ ?_
  swap
  · rintro e s' ⟨he, evs, hrun, hmem⟩
    exact ⟨he, _, hrun₁₂.trans hrun, by rw [hmem, hmap₂, hmap₁]⟩
  rintro pt s₃ ⟨evs₃, b₃, hrun₃, hb₃, hwalks₃⟩
  have hrun₁₂₃ := hrun₁₂.trans hrun₃
  have hmap₃ := hwalks₃.pageMap_eq (by simp)
  -- the leaf
  have hslot : slotAddr pt (ptEntry vaddr) = 4096 * b₃ + 8 * (vaddr.toNat / 4096 % 512) := by
    rw [slotAddr, hb₃, ptEntry_toNat]
  obtain ⟨hrun, hmap⟩ := TableRun.setLeaf (i := ⟨_, Nat.mod_lt _ (by decide)⟩) hrun₁₂₃.tables
    (n := vaddr.toNat / 4096) (hwalks₃.walk_snoc (by simp)) rfl (entryFrame_leaf hpaddr)
  rw [wp_storeWord, hslot]
  exact ⟨_, hrun₁₂₃.trans hrun, by rw [hmap, hmap₃, hmap₂, hmap₁], hv, hpaddr⟩

end Specs

end MidnightOS.Nyxboot
