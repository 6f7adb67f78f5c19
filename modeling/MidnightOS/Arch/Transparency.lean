import MidnightOS.Arch.Entry
import MidnightOS.Lib.BitFields

/-! # What the entry code does to the interrupted program

The saved block is followed word by word: the pushes build it, the handler leaves it
alone, and the pops take it apart in the opposite order, down to the hardware frame.
What `iret` does there depends on its operand size.
-/

namespace MidnightOS.Arch

open MidnightOS.Lib

variable {platform : Platform} {callee : Cpu → Cpu}

/-! ## One instruction -/

@[simp] theorem Cpu.set_mem (s : Cpu) (r : Reg) (v : U64) : (s.set r v).mem = s.mem := rfl

theorem Cpu.set_same (s : Cpu) (r : Reg) (v : U64) : (s.set r v).gpr r = v := by
  simp [Cpu.set]

theorem Cpu.set_other (s : Cpu) {r r' : Reg} (h : r' ≠ r) (v : U64) :
    (s.set r v).gpr r' = s.gpr r' := by
  simp [Cpu.set, h]

theorem Cpu.pushWord_rsp (s : Cpu) (w : U64) : (s.pushWord w).gpr .rsp = s.gpr .rsp - 8 :=
  s.set_same .rsp (s.gpr .rsp - 8)

theorem Cpu.pushWord_other (s : Cpu) (w : U64) {r : Reg} (h : r ≠ .rsp) :
    (s.pushWord w).gpr r = s.gpr r := s.set_other h (s.gpr .rsp - 8)

theorem Cpu.pushWord_mem (s : Cpu) (w : U64) :
    (s.pushWord w).mem = storeAt s.mem (s.gpr .rsp - 8) w := rfl

theorem run_append (code code' : List Instr) (s : Cpu) :
    run platform callee (code ++ code') s = run platform callee code' (run platform callee code s) :=
  List.foldl_append

theorem run_cons (instr : Instr) (code : List Instr) (s : Cpu) :
    run platform callee (instr :: code) s = run platform callee code (exec platform callee s instr) :=
  rfl

/-! ## Pushes -/

/-- From `s` to `s'`, `n` words were pushed, and the stack is `ws` now. -/
structure Pushed (s s' : Cpu) (n : Nat) (ws : List U64) : Prop where
  rsp : s.gpr .rsp = behind (s'.gpr .rsp) (8 * n)
  others : ∀ r ≠ .rsp, s'.gpr r = s.gpr r
  words : WordsAt s'.mem (s'.gpr .rsp) ws

theorem pushWord_pushed {s : Cpu} {ws : List U64} (h : WordsAt s.mem (s.gpr .rsp) ws)
    (hroom : 8 + 8 * ws.length ≤ 2 ^ 64) (w : U64) : Pushed s (s.pushWord w) 1 (w :: ws) := by
  refine ⟨?_, fun r hr => s.pushWord_other w hr, ?_⟩
  · rw [s.pushWord_rsp]
    simp [behind]
  · rw [s.pushWord_rsp]
    exact h.push hroom w

theorem Pushed.trans {s s' s'' : Cpu} {n n' : Nat} {ws ws' : List U64} (h : Pushed s s' n ws)
    (h' : Pushed s' s'' n' ws') : Pushed s s'' (n' + n) ws' := by
  refine ⟨?_, fun r hr => (h'.others r hr).trans (h.others r hr), h'.words⟩
  rw [h.rsp, h'.rsp, behind_behind, Nat.mul_add]

/-- A row of pushes leaves the registers on the stack, the last one first. -/
theorem run_pushes (platform : Platform) (callee : Cpu → Cpu) {regs : List Reg}
    (hregs : .rsp ∉ regs) {s : Cpu} {ws : List U64}
    (h : WordsAt s.mem (s.gpr .rsp) ws) (hroom : 8 * regs.length + 8 * ws.length ≤ 2 ^ 64) :
    Pushed s (run platform callee (regs.map .push) s) regs.length
      ((regs.map s.gpr).reverse ++ ws) := by
  induction regs generalizing s ws with
  | nil => exact ⟨(behind_zero _).symm, fun _ _ => rfl, h⟩
  | cons r regs ih =>
    rw [List.mem_cons, not_or] at hregs
    rw [List.length_cons] at hroom
    have hfirst := pushWord_pushed h (by omega) (s.gpr r)
    have hrest := ih hregs.2 hfirst.words (by rw [List.length_cons]; omega)
    have hsame : regs.map (s.pushWord (s.gpr r)).gpr = regs.map s.gpr := by
      apply List.map_congr_left
      intro r' hr'
      exact hfirst.others r' fun heq => hregs.2 (heq ▸ hr')
    rw [hsame] at hrest
    rw [List.map_cons, run_cons, List.map_cons, List.reverse_cons, List.append_assoc,
      List.singleton_append]
    exact hfirst.trans hrest

/-! ## Pops -/

/-- A row of pops finds the words of the stack in its registers. -/
theorem run_pops (platform : Platform) (callee : Cpu → Cpu) {regs : List Reg}
    (hregs : .rsp ∉ regs) {s : Cpu} {g : Reg → U64} {ws : List U64}
    (h : WordsAt s.mem (s.gpr .rsp) (regs.map g ++ ws)) :
    let s' := run platform callee (regs.map .pop) s
    s'.mem = s.mem ∧ s'.gpr .rsp = behind (s.gpr .rsp) (8 * regs.length) ∧
      ∀ r ≠ .rsp, s'.gpr r = if r ∈ regs then g r else s.gpr r := by
  induction regs generalizing s with
  | nil => exact ⟨rfl, (behind_zero _).symm, fun r _ => by simp [run]⟩
  | cons first regs ih =>
    rw [List.mem_cons, not_or] at hregs
    rw [List.map_cons, List.cons_append] at h
    have hword : loadAt s.mem 8 (s.gpr .rsp) = g first := h.1
    let s₁ := exec platform callee s (.pop first)
    have hrsp : s₁.gpr .rsp = behind (s.gpr .rsp) 8 :=
      (Cpu.set_other _ hregs.1 _).trans (Cpu.set_same _ _ _)
    have hwords : WordsAt s₁.mem (s₁.gpr .rsp) (regs.map g ++ ws) := by
      rw [hrsp]
      exact h.2
    -- the other registers are popped from the words above
    obtain ⟨hmem, hend, hothers⟩ := ih hregs.2 hwords
    refine ⟨hmem, ?_, fun r hr => ?_⟩
    · rw [List.map_cons, run_cons, List.length_cons, hend, hrsp, behind_behind,
        show 8 + 8 * regs.length = 8 * (regs.length + 1) by omega]
    · rw [List.map_cons, run_cons, hothers r hr]
      by_cases hfirst : r = first
      · subst r
        have hpopped : s₁.gpr first = g first := (Cpu.set_same _ _ _).trans hword
        simp [hpopped]
      · -- a register that is not popped first, and not `rsp`
        have hkept : s₁.gpr r = s.gpr r :=
          (Cpu.set_other _ hfirst _).trans (Cpu.set_other _ hr _)
        simp [hkept, hfirst]

/-! ## The saved block -/

/-- The hardware frame. -/
def Program.frame (p : Program) : List U64 :=
  [p.rip, p.cs.setWidth 64, p.rflags, p.gpr .rsp, p.ss.setWidth 64]

/-- The registers of `p`, with the stack at its frame. -/
structure Interrupted (p : Program) (a : U64) (s : Cpu) : Prop where
  gpr : s.gpr = Function.update p.gpr .rsp a
  frame : WordsAt s.mem a p.frame

theorem interrupt_interrupted (p : Program) (top flags : U64) (mem : WordMem) :
    Interrupted p (top - 40) (interrupt p top flags mem) := by
  let s : Cpu := ⟨Function.update p.gpr .rsp top, flags, mem⟩
  have hempty : WordsAt s.mem (s.gpr .rsp) [] := trivial
  have hss := pushWord_pushed hempty (by simp) (p.ss.setWidth 64)
  have hrsp := pushWord_pushed hss.words (by simp) (p.gpr .rsp)
  have hrflags := pushWord_pushed hrsp.words (by simp) p.rflags
  have hcs := pushWord_pushed hrflags.words (by simp) (p.cs.setWidth 64)
  have hrip := pushWord_pushed hcs.words (by simp) p.rip
  have hall := (((hss.trans hrsp).trans hrflags).trans hcs).trans hrip
  have hfinal : (interrupt p top flags mem).gpr .rsp = top - 40 := by
    have htop : s.gpr .rsp = top := by simp [s]
    have hend : top = behind ((interrupt p top flags mem).gpr .rsp) 40 := htop.symm.trans hall.rsp
    generalize (interrupt p top flags mem).gpr .rsp = final at hend ⊢
    simp [hend, behind]
  refine ⟨funext fun r => ?_, ?_⟩
  · by_cases hr : r = .rsp
    · rw [hr, Function.update_self, hfinal]
    · rw [Function.update_of_ne hr]
      exact (hall.others r hr).trans (Function.update_of_ne hr _ _)
  · rw [← hfinal]
    exact hall.words

/-- The registers that are pushed after `rsp`. -/
def savedRegs : List Reg :=
  [.rbp, .r15, .r14, .r13, .r12, .r11, .r10, .r9, .r8, .rdi, .rsi, .rdx, .rcx, .rbx, .rax]

theorem pushRegs_eq : pushRegs = .push .rsp :: savedRegs.map .push := rfl

theorem mem_savedRegs (r : Reg) : r ∈ savedRegs ↔ r ≠ .rsp := by
  cases r <;> decide

/-- The words of an `int_info` whose frame is at `a`: what was pushed for `rsp` is where the
stack was by then. -/
def block (p : Program) (a : U64) : List U64 :=
  savedRegs.reverse.map p.gpr ++ (a - 8) :: 0 :: p.frame

theorem block_length (p : Program) (a : U64) : (block p a).length = 22 := rfl

/-- The entry code has saved `p` at `base`. -/
structure Saved (p : Program) (a base : U64) (s : Cpu) : Prop where
  below : a = behind base 136
  rbx : s.gpr .rbx = base
  words : WordsAt s.mem base (block p a)

/-- The part between the pushes and the call. -/
def alignStack : List Instr :=
  [.mov .rdi .rsp, .mov .rbx .rsp, .alu .and .rsp (-16), .alu .sub .rsp 8]

theorem alignStack_run (platform : Platform) (callee : Cpu → Cpu) (s : Cpu) :
    let s' := run platform callee alignStack s
    s'.gpr .rdi = s.gpr .rsp ∧ s'.gpr .rbx = s.gpr .rsp ∧
      s'.gpr .rsp = (s.gpr .rsp &&& -16) - 8 ∧ s'.mem = s.mem := by
  simp [alignStack, run, exec, Cpu.set, AluOp.result]

theorem entryBefore_eq : entryBefore 0 = .pushImm 0 :: pushRegs ++ alignStack := rfl

theorem frame_length (p : Program) : p.frame.length = 5 := rfl

theorem entryBefore_run (platform : Platform) (callee : Cpu → Cpu) {p : Program} {a : U64} {s : Cpu}
    (h : Interrupted p a s) :
    ∃ base, Saved p a base (run platform callee (entryBefore 0) s) ∧
      (run platform callee (entryBefore 0) s).gpr .rdi = base ∧
      (run platform callee (entryBefore 0) s).gpr .rsp = (base &&& -16) - 8 := by
  have hrsp : s.gpr .rsp = a := by rw [h.gpr, Function.update_self]
  have hwords : WordsAt s.mem (s.gpr .rsp) p.frame := by
    rw [hrsp]
    exact h.frame
  -- the dummy code, then `rsp`, then the other registers
  have hcode := pushWord_pushed hwords (by rw [frame_length]; decide) 0
  have hcodeRsp : (s.pushWord 0).gpr .rsp = a - 8 := by rw [s.pushWord_rsp, hrsp]
  have hstack := pushWord_pushed hcode.words (by rw [List.length_cons, frame_length]; decide) (a - 8)
  let s₁ := (s.pushWord 0).pushWord (a - 8)
  have hrest : Pushed s₁ (run platform callee (savedRegs.map .push) s₁) savedRegs.length _ :=
    run_pushes platform callee (by decide) hstack.words
      (by rw [List.length_cons, List.length_cons, frame_length]; decide)
  have hpushed := (hcode.trans hstack).trans hrest
  have hregs : savedRegs.map s₁.gpr = savedRegs.map p.gpr := by
    apply List.map_congr_left
    intro r hr
    have hne := (mem_savedRegs r).mp hr
    rw [(hcode.trans hstack).others r hne, h.gpr, Function.update_of_ne hne]
  have hrun : run platform callee pushRegs (s.pushWord 0) =
      run platform callee (savedRegs.map .push) s₁ := by
    rw [pushRegs_eq, run_cons, exec, hcodeRsp]
  rw [entryBefore_eq, run_append, run_cons, exec, hrun]
  obtain ⟨hrdi, hrbx, halign, hmem⟩ := alignStack_run platform callee
    (run platform callee (savedRegs.map .push) s₁)
  refine ⟨_, ⟨?_, hrbx, ?_⟩, hrdi, halign⟩
  · rw [← hrsp]
    exact hpushed.rsp
  · rw [hmem, block, List.map_reverse, ← hregs]
    exact hpushed.words

/-! ## The handler -/

/-- The stack is aligned below the block: what the call pushes does not touch it. -/
theorem aligned_below (base : U64) :
    ∃ gap < 16, base = behind ((base &&& -16) - 16) (16 + gap) := by
  have hmask : ((-16 : U64)).toNat = fieldMask 4 60 := by decide
  have haligned := toNat_and_fieldMask (w := base) 4 60 hmask
  refine ⟨base.toNat % 16, Nat.mod_lt _ (by omega), ?_⟩
  unfold behind
  apply BitVec.eq_of_toNat_eq
  have hlt := base.isLt
  rw [BitVec.toNat_add, BitVec.toNat_sub, haligned, BitVec.toNat_ofNat]
  have hsixteen : ((16 : U64)).toNat = 16 := rfl
  rw [hsixteen]
  omega

/-- The push of the return address. -/
theorem Saved.call {p : Program} {a base : U64} {s : Cpu} (h : Saved p a base s)
    (hrsp : s.gpr .rsp = (base &&& -16) - 8) (w : U64) : Saved p a base (s.pushWord w) := by
  obtain ⟨gap, hgap, hbase⟩ := aligned_below base
  have hsub : (base &&& -16) - 8 - 8 = (base &&& -16) - 16 := by bv_omega
  refine ⟨h.below, ?_, ?_⟩
  · rw [s.pushWord_other w (by decide)]
    exact h.rbx
  · rw [s.pushWord_mem, hrsp, hsub]
    refine h.words.store (8 + gap) ?_ ?_ w
    · rw [← Nat.add_assoc]
      exact hbase
    · rw [block_length]
      omega

theorem atCall_saved (platform : Platform) {p : Program} {a : U64} {s : Cpu}
    (h : Interrupted p a s) :
    ∃ base, Saved p a base (atCall platform 0 s) ∧ (atCall platform 0 s).gpr .rdi = base ∧
      (atCall platform 0 s).gpr .rsp = (base &&& -16) - 16 := by
  obtain ⟨base, hsaved, hrdi, hrsp⟩ := entryBefore_run platform id h
  refine ⟨base, hsaved.call hrsp _, ?_, ?_⟩
  · rw [atCall, Cpu.pushWord_other _ _ (by decide)]
    exact hrdi
  · rw [atCall, Cpu.pushWord_rsp, hrsp]
    bv_omega

/-- The words of the block as a handler leaves them. -/
theorem Saved.handled {p : Program} {a base : U64} {s s' : Cpu} (h : Saved p a base s)
    (hrdi : s.gpr .rdi = base) (hreturns : Returns s s') :
    Saved { p with rflags := loadAt s'.mem 8 (behind base 152) } a base s' := by
  have hinfo := hreturns.info
  rw [hrdi] at hinfo
  refine ⟨h.below, (hreturns.saved .rbx (by decide)).trans h.rbx, ?_⟩
  -- the block in front of the flags, and behind them
  let front := savedRegs.reverse.map p.gpr ++ [a - 8, 0, p.rip, p.cs.setWidth 64]
  have hfront : front.length = 19 := rfl
  have hwords : WordsAt s.mem base (front ++ p.rflags :: [p.gpr .rsp, p.ss.setWidth 64]) := h.words
  rw [wordsAt_append, hfront] at hwords
  have hsplit : block { p with rflags := loadAt s'.mem 8 (behind base 152) } a =
      front ++ loadAt s'.mem 8 (behind base 152) :: [p.gpr .rsp, p.ss.setWidth 64] := rfl
  rw [hsplit, wordsAt_append, hfront]
  refine ⟨hwords.1.congr fun k hk => ?_, rfl, ?_⟩
  · rw [hfront] at hk
    exact hinfo k (by omega) (by omega)
  · refine hwords.2.2.congr fun k hk => ?_
    rw [behind_behind, behind_behind]
    rw [List.length_cons, List.length_singleton] at hk
    exact hinfo _ (by omega) (by omega)

/-! ## Back to the frame -/

theorem entryAfter_eq : entryAfter 0 =
    .mov .rsp .rbx :: (savedRegs.reverse.map .pop ++ [.pop .rsp, .alu .add .rsp 8]) := rfl

theorem dropCode_run (platform : Platform) (callee : Cpu → Cpu) (s : Cpu) :
    let s' := run platform callee [.pop .rsp, .alu .add .rsp 8] s
    s'.gpr .rsp = loadAt s.mem 8 (s.gpr .rsp) + 8 ∧ (∀ r ≠ .rsp, s'.gpr r = s.gpr r) ∧
      s'.mem = s.mem := by
  refine ⟨?_, fun r hr => ?_, rfl⟩
  · simp [run, exec, Cpu.set, AluOp.result]
  · simp [run, exec, Cpu.set, hr]

/-- The pops bring the registers back and leave the stack at the frame. -/
theorem Saved.entryAfter_run {p : Program} {a base : U64} {s : Cpu} (h : Saved p a base s)
    (platform : Platform) (callee : Cpu → Cpu) :
    Interrupted p a (run platform callee (entryAfter 0) s) := by
  -- `mov rsp, rbx` goes back to the saved registers
  have hwords : WordsAt (s.set .rsp base).mem ((s.set .rsp base).gpr .rsp)
      (savedRegs.reverse.map p.gpr ++ (a - 8) :: 0 :: p.frame) := by
    rw [Cpu.set_same]
    exact h.words
  obtain ⟨hmem, hrsp, hothers⟩ := run_pops platform callee (by decide) hwords
  have hrun : run platform callee (entryAfter 0) s =
      run platform callee [.pop .rsp, .alu .add .rsp 8]
        (run platform callee (savedRegs.reverse.map .pop) (s.set .rsp base)) := by
    rw [entryAfter_eq, run_cons, exec, h.rbx, run_append]
  obtain ⟨hend, hkept, hmem'⟩ := dropCode_run platform callee
    (run platform callee (savedRegs.reverse.map .pop) (s.set .rsp base))
  have hlength : (savedRegs.reverse).length = 15 := rfl
  have hwordsLength : (savedRegs.reverse.map p.gpr).length = 15 := rfl
  rw [wordsAt_append, hwordsLength] at hwords
  rw [Cpu.set_same] at hwords hrsp
  rw [hlength] at hrsp
  rw [← hrun] at hend hkept hmem'
  refine ⟨funext fun r => ?_, ?_⟩
  · by_cases hr : r = .rsp
    · rw [hr, Function.update_self, hend, hmem, hrsp, hwords.2.1]
      bv_omega
    · have hsaved : r ∈ savedRegs.reverse := by
        rw [List.mem_reverse]
        exact (mem_savedRegs r).mpr hr
      rw [Function.update_of_ne hr, hkept r hr, hothers r hr, if_pos hsaved]
  · rw [hmem', hmem, h.below]
    have hframe := hwords.2.2.2
    rw [behind_behind, behind_behind] at hframe
    exact hframe

/-- The entry code before its last instruction: the interrupted registers and the frame, with
what the handler made of the flags. -/
theorem atIret_interrupted (platform : Platform) (handler : Handler) {p : Program} {a : U64}
    {s : Cpu} (h : Interrupted p a s) :
    Interrupted { p with rflags := handledFlags platform handler s } a
      (atIret platform handler.run 0 s) := by
  obtain ⟨base, hsaved, hrdi, hrsp⟩ := atCall_saved platform h
  have hreturns := handler.returns (atCall platform 0 s) (by rw [hrdi]; exact hrsp)
  have hafter := (hsaved.handled hrdi hreturns).entryAfter_run platform handler.run
  rw [handledFlags, hrdi]
  exact hafter

/-! ## What the handler is shown -/

theorem IntInfo.load_block {m : WordMem} {p : Program} {a base : U64}
    (h : WordsAt m base (block p a)) :
    IntInfo.load m base = ⟨{ p.regs with rsp := a - 8 },
      ⟨0, p.rip, p.cs.setWidth 64, p.rflags, p.gpr .rsp, p.ss.setWidth 64⟩⟩ := by
  have hword : ∀ i w, (block p a)[i]? = some w → loadAt m 8 (behind base (8 * i)) = w :=
    fun i w hi => h.get hi
  unfold IntInfo.load
  simp only [hword 0 _ rfl, hword 1 _ rfl, hword 2 _ rfl, hword 3 _ rfl, hword 4 _ rfl,
    hword 5 _ rfl, hword 6 _ rfl, hword 7 _ rfl, hword 8 _ rfl, hword 9 _ rfl, hword 10 _ rfl,
    hword 11 _ rfl, hword 12 _ rfl, hword 13 _ rfl, hword 14 _ rfl, hword 15 _ rfl, hword 16 _ rfl,
    hword 17 _ rfl, hword 18 _ rfl, hword 19 _ rfl, hword 20 _ rfl, hword 21 _ rfl]
  rfl

/-- Every field is right but the saved `rsp`, which is that of the entry code. -/
theorem shows_iff (platform : Platform) {p : Program} {a : U64} {s : Cpu} (h : Interrupted p a s) :
    Shows (IntInfo.load (atCall platform 0 s).mem ((atCall platform 0 s).gpr .rdi)) p ↔
      p.gpr .rsp = a - 8 := by
  obtain ⟨base, hsaved, hrdi, _⟩ := atCall_saved platform h
  rw [hrdi, IntInfo.load_block hsaved.words]
  constructor
  · intro hshows
    exact (congrArg GpRegs.rsp hshows.regs).symm
  · intro hrsp
    refine ⟨?_, rfl, rfl, rfl, rfl, rfl⟩
    rw [← hrsp]
    rfl

/-! ## The return -/

theorem Interrupted.rsp {p : Program} {a : U64} {s : Cpu} (h : Interrupted p a s) :
    s.gpr .rsp = a := by
  rw [h.gpr, Function.update_self]

theorem Interrupted.slot_qword {p : Program} {a : U64} {s : Cpu} (h : Interrupted p a s) {i : Nat}
    {w : U64} (hi : p.frame[i]? = some w) : slot .qword s i = w := by
  rw [slot, h.rsp]
  exact h.frame.get hi

/-- With a 64-bit operand size the program goes on. -/
theorem iretq_resumes {platform : Platform} {p : Program} {a : U64} {s : Cpu}
    (h : Interrupted p a s) (hnull : isNull p.cs = false) (hcs : platform.codeSegment p.cs = true)
    (hss : platform.stackSegment p.ss = true) (hrip : canonical p.rip = true) :
    iret platform .qword s =
      .ok { p with rflags := platform.loadFlags .qword p.rflags s.rflags } := by
  have hcs' : (slot .qword s 1).setWidth 16 = p.cs := by
    rw [h.slot_qword (i := 1) rfl]
    simp
  have hss' : (slot .qword s 4).setWidth 16 = p.ss := by
    rw [h.slot_qword (i := 4) rfl]
    simp
  unfold iret
  simp only [hcs', hss', h.slot_qword (i := 0) rfl, h.slot_qword (i := 2) rfl,
    h.slot_qword (i := 3) rfl]
  simp [hnull, hcs, hss, hrip, h.gpr]

/-- With a 32-bit operand size the upper half of the address becomes the selector: either it is
null, or the address is not that of the program. -/
theorem iretd_elsewhere {platform : Platform} {p p' : Program} {a : U64} {s : Cpu}
    (h : Interrupted p a s) (hrun : iret platform .dword s = .ok p') : p'.rip ≠ p.rip := by
  have hword : loadAt s.mem 8 (s.gpr .rsp) = p.rip := by
    have := h.slot_qword (i := 0) rfl
    rwa [slot, Nat.mul_zero, behind_zero] at this
  have hlow : slot .dword s 0 = (p.rip.setWidth 32).setWidth 64 := by
    rw [slot, Nat.mul_zero, behind_zero, loadAt_low, hword]
  have hhigh : slot .dword s 1 = (p.rip.extractLsb' 32 32).setWidth 64 := by
    rw [slot, Nat.mul_one, loadAt_high, hword]
  unfold iret at hrun
  simp only [hlow, hhigh] at hrun
  split_ifs at hrun with hgp hss
  cases hrun
  intro heq
  -- if the low half were all of `rip`, the upper half, popped as `cs`, would be 0
  have hsmall : p.rip.toNat < 2 ^ 32 := by
    have := congrArg BitVec.toNat heq
    simp only [BitVec.toNat_setWidth] at this
    omega
  have hzero : p.rip.extractLsb' 32 32 = 0 := by
    apply BitVec.eq_of_toNat_eq
    rw [BitVec.extractLsb'_toNat, Nat.shiftRight_eq_div_pow, Nat.div_eq_of_lt hsmall]
    rfl
  rw [hzero] at hgp
  exact hgp (.inl rfl)

/-! ## Transparency -/

/-- With a 64-bit `iret` the program is resumed as it was, but for the flags that the handler
left. -/
theorem entry_iretq_resumes (platform : Platform) (handler : Handler) (p : Program)
    (top flags : U64) (mem : WordMem) (hnull : isNull p.cs = false)
    (hcs : platform.codeSegment p.cs = true) (hss : platform.stackSegment p.ss = true)
    (hrip : canonical p.rip = true) :
    let s := interrupt p top flags mem
    let s' := atIret platform handler.run 0 s
    iret platform .qword s' =
      .ok { p with rflags :=
              platform.loadFlags .qword (handledFlags platform handler s) s'.rflags } :=
  iretq_resumes (atIret_interrupted platform handler (interrupt_interrupted p top flags mem))
    hnull hcs hss hrip

/-- The entry code of an exception without an error code is transparent to no program. -/
theorem entry_never_transparent (platform : Platform) (handler : Handler) (p : Program)
    (top flags : U64) (mem : WordMem) :
    ¬Transparent platform handler p (interrupt p top flags mem) := by
  intro h
  have hinterrupted := interrupt_interrupted p top flags mem
  have hresumes := h.resumes
  exact iretd_elsewhere (atIret_interrupted platform handler hinterrupted) hresumes rfl

/-- The segments of the kernel, and all flags. -/
def flatPlatform : Platform :=
  ⟨fun _ _ _ flags => flags, 0xFFFFFFFF80000100, (· = 0x08), (· = 0x10), fun _ popped _ => popped⟩

theorem ret_returns (s : Cpu) : Returns s (s.set .rsp (s.gpr .rsp + 8)) := by
  refine ⟨s.set_same _ _, fun r hr => s.set_other ?_ _, fun _ _ _ => rfl⟩
  intro heq
  rw [heq] at hr
  exact absurd hr (by decide)

/-- A handler that returns at once. -/
def idleHandler : Handler := ⟨fun s => s.set .rsp (s.gpr .rsp + 8), fun s _ => ret_returns s⟩

/-- A breakpoint in the kernel. -/
def kernelProgram : Program :=
  ⟨fun _ => 0xFFFFFFFF80010000, 0xFFFFFFFF80001234, 0x08, 0x202, 0x10⟩

/-- `iret` takes the upper half of the address for the selector. -/
theorem breakpoint_not_resumed :
    ¬Transparent flatPlatform idleHandler kernelProgram
      (interrupt kernelProgram 0xFFFFFFFF80010000 0x2 fun _ => 0) := by
  intro h
  have hgp : entry flatPlatform idleHandler.run 0
      (interrupt kernelProgram 0xFFFFFFFF80010000 0x2 fun _ => 0) = .error .gp := by
    rfl
  rw [h.resumes] at hgp
  cases hgp

end MidnightOS.Arch
