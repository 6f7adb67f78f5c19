import MidnightOS.Nyxboot.MainParts

/-! # The labels of `efi_main`

`efi_main` unwinds through its labels: what was obtained last is freed first.  Each label
is entered with what it has to free, and leaves all else that was held.
-/

namespace MidnightOS.Nyxboot

open MidnightOS.Lib MidnightOS.Lib.HeapTrie

/-! ## The labels -/

/-- What the loaded program and its configuration hold. -/
def MainVars.held (vars : MainVars) : Multiset Resource :=
  .pool vars.config.cfg.bootBinPath ::ₘ vars.elf.info.held

/-- The program was loaded at `s₀`.  Since then `held` was obtained, and the firmware was not
left. -/
structure Running (s₀ : Machine MainVars) (held : Multiset Resource) (s : Machine MainVars) : Prop where
  sections : HasSections s.vars.elf.info
  settles : Settles s₀.vars.held s₀.trace s.trace (s.vars.held + held)
  stays : ∀ c ∈ s.vars.handover.calls, ¬c.IsExit
  vars : s.vars = { s₀.vars with handover := s.vars.handover }

/-- A return: the program is given back and `held` is left, and the firmware was not left. -/
def Returns (s₀ : Machine MainVars) (held : Multiset Resource) (stop : Stop) (s : Machine MainVars) :
    Prop :=
  ∀ e, stop = .efi e → Settles s₀.vars.held s₀.trace s.trace held ∧
    (∀ c ∈ s.vars.handover.calls, ¬c.IsExit) ∧
    s.vars = { s₀.vars with elf := s.vars.elf, handover := s.vars.handover }

section Labels

variable {α : Type} {p : Platform} {held held' : Multiset Resource} {e : EfiError}
  {s₀ s s' : Machine MainVars} {pml4 : UINT64} {Q : α → Machine MainVars → Prop}

/-- Nothing was obtained yet. -/
theorem Running.start (sections : HasSections s.vars.elf.info)
    (stays : ∀ c ∈ s.vars.handover.calls, ¬c.IsExit) : Running s 0 s := by
  refine ⟨sections, ?_, stays, rfl⟩
  rw [add_zero]
  exact .refl _ _

/-- A part that does not touch the variables. -/
theorem Running.step (running : Running s₀ held s) (vars : s'.vars = s.vars)
    (settles : Settles s₀.vars.held s₀.trace s'.trace (s.vars.held + held')) :
    Running s₀ held' s' := by
  refine ⟨?_, ?_, ?_, ?_⟩
  · rw [vars]
    exact running.sections
  · rwa [vars]
  · rw [vars]
    exact running.stays
  · rw [vars]
    exact running.vars

/-- Calls that do not leave the firmware. -/
theorem Running.resume {t : Machine HandoverVars} {evs : List BootCall} (running : Running s₀ held s)
    (calls : t.vars.calls = evs ++ s.vars.handover.calls) (trace : t.trace = s.trace)
    (stays : ∀ c ∈ evs, ¬c.IsExit)
    (settles : Settles s₀.vars.held s₀.trace (poolEvents evs ++ s.trace) (s.vars.held + held')) :
    Running s₀ held' (s.resume t) := by
  refine ⟨running.sections, ?_, ?_, ?_⟩
  · rw [Machine.resume_trace calls, trace]
    exact settles
  · rw [Machine.resume_vars, calls]
    exact List.forall_mem_append.mpr ⟨stays, running.stays⟩
  · rw [Machine.resume_vars, running.vars]

theorem errFreeLoadedBin_returns (running : Running s₀ held s) :
    wp (errFreeLoadedBin e) Q (Returns s₀ held) s := by
  simp only [errFreeLoadedBin, freeConfig, wp_bind, wp_inElf, wp_get, wp_freePool, wp_throw]
  have all : Settles s₀.vars.held s₀.trace s.trace (s.vars.elf.info.held +
      (.pool s.vars.config.cfg.bootBinPath ::ₘ held)) := by
    rw [Multiset.add_cons, ← Multiset.cons_add]
    exact running.settles
  refine wp_mono (unload_holds (s := ⟨s.mem, s.trace, s.vars.elf⟩) running.sections all) ?_
    (fun _ _ h => h.elim)
  rintro _ t left _ -
  refine ⟨left.free _ rfl, running.stays, ?_⟩
  rw [Machine.emit_vars, running.vars]

theorem errFreeMap_returns
    (running : Running s₀ (.pool s.vars.handover.memMap.descs ::ₘ held) s) :
    wp (errFreeMap p e) Q (Returns s₀ held) s := by
  simp only [errFreeMap, wp_bind, wp_inHandover, efiFreeMemmap, wp_get, wp_callFreePool,
    wp_setMemMap]
  have stays : ∀ c ∈ [BootCall.freePool s.vars.handover.memMap.descs], ¬c.IsExit := by
    simp [BootCall.IsExit]
  refine errFreeLoadedBin_returns (running.resume rfl rfl stays ?_)
  have settles := running.settles
  rw [Multiset.add_cons] at settles
  exact settles.free (.freePool s.vars.handover.memMap.descs) rfl

theorem errFreePageTables_returns {frames : List Nat}
    (hroot : pml4.toNat = 4096 * (pml4.toNat / 4096))
    (trie : IsTrie entryFrame tableEntry (slots s.mem) (pml4.toNat / 4096) 3 frames)
    (running : Running s₀ ((frames.map frameResource : Multiset Resource) +
      (.pages pml4 1 ::ₘ .pool s.vars.handover.memMap.descs ::ₘ held)) s) :
    wp (errFreePageTables p pml4 e) Q (Returns s₀ held) s := by
  simp only [errFreePageTables, wp_bind, wp_freePages]
  have all := running.settles
  rw [add_left_comm] at all
  refine wp_mono (memFreeTables_holds hroot trie all) ?_ (fun _ _ h => h.elim)
  rintro _ t ⟨left, vars⟩
  rw [Multiset.add_cons] at left
  have freed := left.free (.freePages pml4 1) rfl
  have same : (t.emit (.freePages pml4 1)).vars.handover = s.vars.handover := by
    rw [Machine.emit_vars, vars]
  refine errFreeMap_returns (running.step vars ?_)
  rw [same]
  exact freed

end Labels

end MidnightOS.Nyxboot
