import Mathlib.Data.List.FinRange
import MidnightOS.Nyxboot.MapCalls

/-! # Freeing the page tables

`memFreeTables` only reads and frees, so it is determined by the events it
emits.  These are the visits of a post-order traversal of the trie, and the
traversal releases each table once.
-/

namespace MidnightOS.Nyxboot

open MidnightOS.Lib MidnightOS.Lib.HeapTrie

variable {σ : Type}

/-! ## Programs that only emit events -/

/-- On memory `m`, `x` does `evs`, oldest first, and changes nothing. -/
def Emits (x : Efi σ Unit) (m : Mem) (evs : List Event) : Prop :=
  ∀ s : Machine σ, s.mem = m → x s = .ok () { s with trace := evs.reverse ++ s.trace }

theorem Emits.pure (m : Mem) : Emits (pure () : Efi σ Unit) m [] := fun _ _ => rfl

theorem Emits.bind {x : Efi σ Unit} {f : Unit → Efi σ Unit} {m : Mem} {evs evs' : List Event}
    (hx : Emits x m evs) (hf : Emits (f ()) m evs') : Emits (x >>= f) m (evs ++ evs') := by
  intro s hs
  refine (bind_of_ok (hx s hs)).trans ((hf ⟨s.mem, evs.reverse ++ s.trace, s.vars⟩ hs).trans ?_)
  rw [List.reverse_append, List.append_assoc]

theorem Emits.freePages (m : Mem) (p : UINT64) (n : UINTN) :
    Emits (freePages p n : Efi σ Unit) m [.freePages p n] := fun _ _ => rfl

theorem Emits.loadWord_bind {f : UINT64 → Efi σ Unit} {m : Mem} {addr : Nat} {evs : List Event}
    (hf : Emits (f (loadLE m 8 addr)) m evs) :
    Emits (loadWord addr >>= f) m (.load addr 8 :: evs) := by
  intro s hs
  have hload : loadWord addr s = .ok (loadLE m 8 addr) (s.emit (.load addr 8)) := by
    rw [← hs]
    rfl
  refine (bind_of_ok hload).trans ((hf (s.emit (.load addr 8)) hs).trans ?_)
  rw [List.reverse_cons, List.append_assoc]
  rfl

theorem Emits.forUp {f : Nat → Efi σ Unit} {m : Mem} {g : Nat → List Event} (i n : Nat)
    (hf : ∀ k, i ≤ k → k < i + n → Emits (f k) m (g k)) :
    Emits (forUp f i n) m ((List.range' i n).flatMap g) := by
  induction n generalizing i with
  | zero => exact Emits.pure m
  | succ n ih =>
    rw [List.range'_succ, List.flatMap_cons]
    exact (hf i (by omega) (by omega)).bind (ih (i + 1) fun k h h' => hf k (by omega) (by omega))

/-! ## The events of `memFreeTables` -/

/-- The page with frame number `f`. -/
def framePage (f : Nat) : UINT64 := BitVec.ofNat 64 (4096 * f)

def visitEvent : Visit (Fin 512) Nat → Event
  | .read f i => .load (4096 * f + 8 * i) 8
  | .release f => .freePages (framePage f) 1

/-- A round reads its entry, and goes down where there is a table. -/
theorem presentRound_emits {visit : UINT64 → Efi σ Unit} {m : Mem} {d a : Nat} {table : UINT64}
    (htable : table.toNat = 4096 * a)
    (hvisit : ∀ b, b < 2 ^ 40 → Emits (visit (framePage b)) m
      ((traversal entryFrame (slots m) (List.finRange 512) d b ++ [Visit.release b]).map visitEvent))
    (i : Fin 512) :
    Emits (do
      let entry ← loadWord (slotAddr table (BitVec.ofNat 64 i))
      if entry &&& pagePresent = 0 then Pure.pure () else visit (entry &&& addressMask)) m
      ((slotVisits entryFrame (slots m) (List.finRange 512) d a i).map visitEvent) := by
  have hi := i.isLt
  have hindex : (BitVec.ofNat 64 (i : Nat)).toNat = i := by
    rw [BitVec.toNat_ofNat]
    omega
  have haddr : slotAddr table (BitVec.ofNat 64 (i : Nat)) = 4096 * a + 8 * i := by
    rw [slotAddr, htable, hindex]
  rw [slotVisits, List.map_cons, haddr]
  refine Emits.loadWord_bind ?_
  rw [show loadLE m 8 (4096 * a + 8 * (i : Nat)) = slots m a i from rfl]
  cases hb : entryFrame (slots m a i) with
  | none =>
    rw [if_pos ((entryFrame_eq_none_iff _).mp hb)]
    exact Emits.pure m
  | some b =>
    have hpresent : ¬slots m a i &&& pagePresent = 0 := by
      rw [← entryFrame_eq_none_iff, hb]
      exact Option.some_ne_none b
    have hframe : slots m a i &&& addressMask = framePage b := by
      have h := presentAddr_eq (slots m a i)
      rw [presentAddr, if_neg hpresent, hb, Option.map_some] at h
      exact Option.some.inj h
    rw [if_neg hpresent, hframe]
    exact hvisit b (entryFrame_lt hb)

/-- One level: where `visit` emits the visits below a table, so does the loop
    over the entries of the table above. -/
theorem forEachPresent_emits {visit : UINT64 → Efi σ Unit} {m : Mem} {d a : Nat} {table : UINT64}
    (htable : table.toNat = 4096 * a)
    (hvisit : ∀ b, b < 2 ^ 40 → Emits (visit (framePage b)) m
      ((traversal entryFrame (slots m) (List.finRange 512) d b ++ [Visit.release b]).map visitEvent)) :
    Emits (forEachPresent table visit) m
      ((traversal entryFrame (slots m) (List.finRange 512) (d + 1) a).map visitEvent) := by
  -- the slots as the numbers that the loop counts through
  have hlist : (List.finRange 512).flatMap (fun i =>
        (slotVisits entryFrame (slots m) (List.finRange 512) d a i).map visitEvent) =
      (List.range' 0 512).flatMap fun k => if h : k < 512 then
        (slotVisits entryFrame (slots m) (List.finRange 512) d a ⟨k, h⟩).map visitEvent else [] := by
    rw [← List.range_eq_range', ← List.map_coe_finRange_eq_range, List.flatMap_map]
    congr 1
    funext i
    rw [dif_pos i.isLt]
  rw [traversal_succ, List.map_flatMap, hlist]
  refine Emits.forUp 0 512 fun k _ hk => ?_
  have hk' : k < 512 := by omega
  rw [dif_pos hk']
  exact presentRound_emits htable hvisit ⟨k, hk'⟩

/-- `memFreeTables` is the traversal of the tables below `pml4`. -/
theorem memFreeTables_emits {m : Mem} {root : Nat} {pml4 : UINT64}
    (hroot : pml4.toNat = 4096 * root) :
    Emits (memFreeTables pml4 : Efi σ Unit) m
      ((traversal entryFrame (slots m) (List.finRange 512) 3 root).map visitEvent) := by
  refine forEachPresent_emits hroot fun pdpt hpdpt => ?_
  rw [List.map_append]
  refine Emits.bind (forEachPresent_emits (ofNat_frame_toNat hpdpt) fun pd hpd => ?_)
    (Emits.freePages m _ 1)
  rw [List.map_append]
  refine Emits.bind (forEachPresent_emits (ofNat_frame_toNat hpd) fun pt _ => ?_)
    (Emits.freePages m _ 1)
  exact Emits.freePages m _ 1

/-! ## Every page obtained is freed once -/

/-- No page is read after it was freed.  Newer events come first. -/
def NoUseAfterFree (evs : List Event) : Prop :=
  evs.Pairwise fun later earlier => ∀ p n, earlier = .freePages p n →
    ∀ a k, later = .load a k → a + k ≤ p.toNat ∨ p.toNat + 4096 * n.toNat ≤ a

theorem freedRuns_reverse (evs : List Event) : freedRuns evs.reverse = (freedRuns evs).reverse := by
  induction evs using freedRuns.induct with
  | case1 => rfl
  | case2 a n evs ih =>
    simp only [List.reverse_cons, freedRuns_append, ih, freedRuns]
  | case3 ev evs hev ih =>
    rw [List.reverse_cons, freedRuns_append, ih, freedRuns.eq_3 ev _ hev, freedRuns.eq_3 ev _ hev]
    exact List.append_nil _

theorem freedRuns_visits (vs : List (Visit (Fin 512) Nat)) :
    freedRuns (vs.map visitEvent) = (released vs).map fun f => (framePage f, 1) := by
  induction vs with
  | nil => rfl
  | cons v vs ih =>
    cases v with
    | read f i => exact ih
    | release f => exact congrArg _ ih

theorem noUseAfterFree_visits {vs : List (Visit (Fin 512) Nat)} (h : vs.Pairwise Visit.Before)
    (hbelow : ∀ f, Visit.release f ∈ vs → f < 2 ^ 40) :
    NoUseAfterFree (vs.map visitEvent).reverse := by
  rw [NoUseAfterFree, List.pairwise_reverse, List.pairwise_map]
  refine List.Pairwise.imp_of_mem ?_ h
  intro v v' hv _ hbefore p n hp a k ha
  cases v with
  | read => cases hp
  | release f =>
    cases v' with
    | release => cases ha
    | read f' i =>
      obtain ⟨rfl, rfl⟩ := Event.freePages.inj hp
      obtain ⟨rfl, rfl⟩ := Event.load.inj ha
      have hne : f' ≠ f := by
        rintro rfl
        exact (hbefore f' rfl).2 i rfl
      have hi := i.isLt
      rw [framePage, ofNat_frame_toNat (hbelow f hv), show (1 : UINTN).toNat = 1 from rfl]
      omega

/-- The page runs a `TableRun` obtained are the pages of its tables. -/
theorem TableRun.obtainedRuns_eq {root : Nat} {live : List Nat} {s s' : Machine σ}
    {evs : List Event} (h : TableRun root live s s' evs) :
    obtainedRuns evs = (obtainedFrames evs).map fun f => (framePage f, 1) := by
  rw [obtainedFrames, List.map_map]
  symm
  refine (List.map_congr_left (g := id) fun r hr => ?_).trans (List.map_id _)
  obtain ⟨hone, haligned⟩ := h.single r hr
  refine Prod.ext (BitVec.eq_of_toNat_eq ?_) hone.symm
  have hlt := r.1.isLt
  simp only [Function.comp_apply, framePage, BitVec.toNat_ofNat, id]
  omega

/-- A table that is reached has a 40-bit frame number. -/
theorem walk_lt {m : Mem} {root b : Nat} {p : List (Fin 512)} (hne : p ≠ [])
    (hp : walk entryFrame (slots m) root p = some b) : b < 2 ^ 40 := by
  obtain rfl | ⟨q, i, rfl⟩ := List.eq_nil_or_concat p
  · exact absurd rfl hne
  · rw [List.concat_eq_append] at hp
    obtain ⟨c, _, hb⟩ := walk_snoc_inv hp
    exact entryFrame_lt hb

/-- After any calls, `mem_free_tables` frees each page they obtained once, frees
    no other page, writes nothing, and does not read a page it has freed. -/
theorem memFreeTables_frees_each_once {fw : Firmware} (hfw : fw.SoundPages) {s : Machine σ}
    {pml4 : UINT64} (hz : ZeroedPml4 s pml4) (calls : List MapCall) :
    let t := runCalls fw pml4 calls s
    ∃ evs t' fevs, t.trace = evs ++ s.trace ∧ memFreeTables pml4 t = .ok () t' ∧
      t'.trace = fevs ++ t.trace ∧ t'.mem = t.mem ∧ freedRuns evs = [] ∧
      (freedRuns fevs).Perm (obtainedRuns evs) ∧ (freedRuns fevs).Nodup ∧
      (∀ r ∈ freedRuns fevs, r.2 = 1 ∧ r.1 ≠ pml4) ∧ NoUseAfterFree fevs := by
  intro t
  have hroot := hz.frame
  obtain ⟨evs, hrun⟩ := runCalls_tableRun hfw hroot hz.tables calls
  have htrie := hrun.tables.trie
  rw [List.append_nil] at htrie
  have hslots : ∀ i : Fin 512, i ∈ List.finRange 512 := List.mem_finRange
  -- the traversal releases the live tables, each once, children first
  have hperm := htrie.released_perm hslots (List.nodup_finRange 512)
  have hordered := traversal_ordered hslots (List.nodup_finRange 512) htrie.unique
  generalize hvs : traversal entryFrame (slots t.mem) (List.finRange 512) 3 (pml4.toNat / 4096) = vs
    at hperm hordered
  have hfreed : (freedRuns (vs.map visitEvent).reverse).Perm (obtainedRuns evs) := by
    rw [freedRuns_reverse, freedRuns_visits, hrun.obtainedRuns_eq]
    exact (List.reverse_perm _).trans (hperm.map _)
  have hnodup : (obtainedRuns evs).Nodup := List.Nodup.of_map _ htrie.nodup
  refine ⟨evs, _, _, hrun.trace, memFreeTables_emits hroot t rfl, rfl, rfl, hrun.freed, ?_⟩
  rw [hvs]
  refine ⟨hfreed, hfreed.nodup_iff.mpr hnodup, fun r hr => ?_,
    noUseAfterFree_visits hordered fun f hf => ?_⟩
  · -- what is freed was obtained by the calls, so it is a page and not the root
    have hmem := hfreed.mem_iff.mp hr
    refine ⟨(hrun.single r hmem).1, fun heq => htrie.root_not_mem ?_⟩
    rw [← heq]
    exact List.mem_map_of_mem hmem
  · rw [← hvs, release_mem_iff hslots] at hf
    obtain ⟨p, hne, _, hp⟩ := hf
    exact walk_lt hne hp

/-- Two pages that share two of their three tables: the four tables come back. -/
theorem memFreeTables_frees_each_once_bump :
    ∃ t', memFreeTables 0x1000#64 (runCalls (Firmware.bump (2 ^ 20)) 0x1000#64
      [.page 0 0x7000#64, .page 0x200000#64 0x8000#64] bareMachine) = .ok () t' := by
  obtain ⟨_, t', _, _, hfree, _⟩ := memFreeTables_frees_each_once
    (Firmware.bump_soundPages (2 ^ 20) (by decide)) bareMachine_zeroedPml4
    [.page 0 0x7000#64, .page 0x200000#64 0x8000#64]
  exact ⟨t', hfree⟩

end MidnightOS.Nyxboot
