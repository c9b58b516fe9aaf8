import Ucore.Lib.Riscv

namespace Ucore.Trap

open Lib.Riscv

def ra : Reg := 1
def sp : Reg := 2
def s0 : Reg := 8
def s1 : Reg := 9
def a0 : Reg := 10
def a1 : Reg := 11
def s2 : Reg := 18
def s3 : Reg := 19
def s4 : Reg := 20

-- struct trapframe; the general registers by their numbers
@[ext] structure TrapFrame where
  gpr : Reg → Word
  status : Word
  epc : Word
  tval : Word
  cause : Word

-- The trapframe in memory: the general registers, and the four others behind them
def frameAt (mem : Word → Word) (b : Word) : TrapFrame where
  gpr r := mem (slot b r)
  status := mem (slot b 32)
  epc := mem (slot b 33)
  tval := mem (slot b 34)
  cause := mem (slot b 35)

def FRAME : Word := 288

-- The registers but sp, with their places in the trapframe
def general : List (Reg × Nat) :=
  [1, 3, 4, 5, 6, 7, 8, 9, 10, 11, 12, 13, 14, 15, 16, 17, 18, 19, 20, 21, 22, 23, 24, 25, 26, 27, 28, 29, 30,
    31].map fun r => (r, r.val)

-- SAVE_ALL; the branch is that to _save_context.
def saveAll : List Instr :=
  [.csrrw sp .sscratch sp, .bnez sp 1, .csrr sp .sscratch, .addi sp sp (-FRAME)] ++
    (stores ((0, 0) :: general) sp ++
      ([.csrrw s0 .sscratch 0, .csrr s1 .sstatus, .csrr s2 .sepc, .csrr s3 .stval, .csrr s4 .scause] ++
        stores [(s0, 2), (s1, 32), (s2, 33), (s3, 34), (s4, 35)] sp))

-- RESTORE_ALL; the branch is that to _restore_context.
def restoreAll : List Instr :=
  loads [(s1, 32), (s2, 33)] sp ++
    ([.andi s0 s1 SPP, .bnez s0 2, .addi s0 sp FRAME, csrw .sscratch s0, csrw .sstatus s1, csrw .sepc s2] ++
      (loads general sp ++ [.ld sp (8 * 2) sp]))

-- __alltraps up to the call of trap, whose argument is the trapframe
def alltraps : List Instr := saveAll ++ [mv a0 sp]

-- __trapret up to its sret
def trapret : List Instr := restoreAll

variable {h : Hart} {i : List Instr} {b a : Word} {r : Reg} {k : Nat} {f : TrapFrame}

-- Where the trapframe goes: below sscratch for a trap from user mode, else below sp
def trapTop (h : Hart) : Word := if h.csr .sscratch = 0 then h.x sp else h.csr .sscratch

-- What a trap saves of a hart
def TrapFrame.of (h : Hart) : TrapFrame where
  gpr := h.reg
  status := h.csr .sstatus
  epc := h.csr .sepc
  tval := h.csr .stval
  cause := h.csr .scause

-- Memory outside of the trapframe at `b`
def Outside (b a : Word) : Prop := ∀ k < 36, a ≠ slot b k

theorem sp_ne : sp ≠ 0 := by decide

theorem general_mem : ∀ r : Reg, r ≠ 0 → r ≠ sp → (r, r.val) ∈ general := by decide

-- The first instructions of SAVE_ALL, with any room for the trapframe
theorem run_entry (room : Word) :
    Hart.run 0 ([.csrrw sp .sscratch sp, .bnez sp 1, .csrr sp .sscratch, .addi sp sp room] ++ i) h =
      Hart.run 0 i ((h.set sp (trapTop h + room)).setCsr .sscratch (h.x sp)) := by
  have hsp : h.reg sp = h.x sp := Hart.reg_of_ne sp_ne
  simp only [List.cons_append, List.nil_append, Hart.run_csrrw, Hart.run_bnez, Hart.setCsr_reg,
    Hart.set_reg sp_ne, if_true, hsp]
  unfold trapTop
  by_cases hzero : h.csr .sscratch = 0
  · simp only [if_pos hzero, Hart.run_csrr, Hart.run_addi, Hart.set_reg sp_ne, if_true, Hart.setCsr_csr,
      Function.update_self]
    simp only [Hart.set, Hart.setCsr, Function.update_idem]
  · simp only [if_neg hzero, Hart.run_skip, Hart.run_addi, Hart.setCsr_reg, Hart.set_reg sp_ne, if_true]
    simp only [Hart.set, Hart.setCsr, Function.update_idem]

def special : List (Reg × Nat) := [(s0, 2), (s1, 32), (s2, 33), (s3, 34), (s4, 35)]

theorem special_slot : ∀ p ∈ special, p.2 < 36 := by decide

theorem small {l : List (Reg × Nat)} (h : ∀ p ∈ l, p.2 < 36) : ∀ p ∈ l, p.2 < 2305843009213693952 :=
  fun p hp => Nat.lt_trans (h p hp) (by decide)

theorem all_slot : ∀ p ∈ ((0, 0) :: general : List (Reg × Nat)), p.2 < 36 := by decide

theorem all_mem : ∀ r : Reg, r ≠ sp → (r, r.val) ∈ ((0, 0) :: general : List (Reg × Nat)) := by decide

-- The words of a trapframe, and its assignment to the memory at `b`
def TrapFrame.word (f : TrapFrame) (k : Nat) : Word :=
  if hk : k < 32 then f.gpr ⟨k, hk⟩
  else if k = 32 then f.status else if k = 33 then f.epc else if k = 34 then f.tval else f.cause

def putFrame (mem : Word → Word) (b : Word) (f : TrapFrame) : Word → Word := fill mem b 36 f.word

theorem putFrame_outside {mem : Word → Word} (ha : Outside b a) : putFrame mem b f a = mem a := fill_other ha

theorem frameAt_words {mem : Word → Word} (hmem : ∀ k < 36, mem (slot b k) = f.word k) : frameAt mem b = f := by
  refine TrapFrame.ext (funext fun r => ?_) ?_ ?_ ?_ ?_
  · refine (hmem r.val (Nat.lt_trans r.isLt (by decide))).trans ?_
    rw [TrapFrame.word, dif_pos r.isLt]
  · exact hmem 32 (by decide)
  · exact hmem 33 (by decide)
  · exact hmem 34 (by decide)
  · exact hmem 35 (by decide)

theorem frameAt_putFrame {mem : Word → Word} : frameAt (putFrame mem b f) b = f :=
  frameAt_words fun _ hk => fill_slot (by decide) hk

-- What the two blocks of stores leave behind
theorem frame_stored {x x' : Reg → Word} {mem : Word → Word} :
    frameAt (stored x' b special (stored x b ((0, 0) :: general) mem)) b =
      ⟨Function.update x sp (x' s0), x' s1, x' s2, x' s3, x' s4⟩ := by
  have hspecial : ∀ p ∈ special, stored x' b special (stored x b ((0, 0) :: general) mem) (slot b p.2) = x' p.1 :=
    fun p hp => stored_slot (by decide) (small special_slot) hp
  refine TrapFrame.ext (funext fun r => ?_) (hspecial (s1, 32) (by decide)) (hspecial (s2, 33) (by decide))
    (hspecial (s3, 34) (by decide)) (hspecial (s4, 35) (by decide))
  show _ = Function.update x sp (x' s0) r
  by_cases hr : r = sp
  · rw [hr, Function.update_self]
    exact hspecial (s0, 2) (by decide)
  · rw [Function.update_of_ne hr]
    have hother : ∀ p ∈ special, slot b r.val ≠ slot b p.2 := by
      intro p hp he
      have hslot : ∀ r : Reg, r ≠ sp → ∀ p ∈ special, r.val ≠ p.2 := by decide
      exact hslot r hr p hp (slot_inj (Nat.lt_trans r.isLt (by decide)) (small special_slot p hp) he)
    exact (stored_other hother).trans (stored_slot (p := (r, r.val)) (by decide) (small all_slot) (all_mem r hr))

theorem stored_outside {l : List (Reg × Nat)} {x : Reg → Word} {mem : Word → Word} (ha : Outside b a)
    (hl : ∀ p ∈ l, p.2 < 36) : stored x b l mem a = mem a :=
  stored_other fun p hp => ha p.2 (hl p hp)

-- The registers behind the reads of the csrs
def readCsrs (x : Reg → Word) (csr : Csr → Word) : Reg → Word :=
  assign x [(s0, csr .sscratch), (s1, csr .sstatus), (s2, csr .sepc), (s3, csr .stval), (s4, csr .scause)]

theorem readCsrs_sp (x : Reg → Word) (csr : Csr → Word) : readCsrs x csr sp = x sp := by
  apply assign_other
  show sp ∉ [s0, s1, s2, s3, s4]
  decide

theorem readCsrs_mem (x : Reg → Word) (csr : Csr → Word) : readCsrs x csr s0 = csr .sscratch ∧
    readCsrs x csr s1 = csr .sstatus ∧ readCsrs x csr s2 = csr .sepc ∧ readCsrs x csr s3 = csr .stval ∧
    readCsrs x csr s4 = csr .scause := by
  have hnodup : ([s0, s1, s2, s3, s4] : List Reg).Nodup := by decide
  have hmem : ∀ p ∈ [(s0, csr .sscratch), (s1, csr .sstatus), (s2, csr .sepc), (s3, csr .stval), (s4, csr .scause)],
      readCsrs x csr p.1 = p.2 := fun p hp => assign_mem hnodup hp
  exact ⟨hmem (s0, _) (by simp), hmem (s1, _) (by simp), hmem (s2, _) (by simp), hmem (s3, _) (by simp),
    hmem (s4, _) (by simp)⟩

theorem run_csrs : Hart.run 0 ([.csrrw s0 .sscratch 0, .csrr s1 .sstatus, .csrr s2 .sepc, .csrr s3 .stval,
      .csrr s4 .scause] ++ i) h =
    Hart.run 0 i { h with x := readCsrs h.x h.csr, csr := Function.update h.csr .sscratch 0 } := by
  simp only [List.cons_append, List.nil_append, Hart.run_csrrw, Hart.run_csrr, Hart.setCsr_csr, Hart.set_csr]
  rw [Function.update_of_ne (by decide), Function.update_of_ne (by decide), Function.update_of_ne (by decide),
    Function.update_of_ne (by decide)]
  rfl

-- The stores and the reads of SAVE_ALL, on a hart whose sp is at the new trapframe
theorem run_frame (hsp : h.x sp = b) (hal : b.toNat % 8 = 0) :
    ∃ mem, Hart.run 0 (stores ((0, 0) :: general) sp ++
      ([.csrrw s0 .sscratch 0, .csrr s1 .sstatus, .csrr s2 .sepc, .csrr s3 .stval, .csrr s4 .scause] ++
        (stores special sp ++ i))) h =
    Hart.run 0 i { h with x := readCsrs h.x h.csr, csr := Function.update h.csr .sscratch 0, mem := mem } ∧
    frameAt mem b = ⟨Function.update h.reg sp (h.csr .sscratch), h.csr .sstatus, h.csr .sepc, h.csr .stval,
      h.csr .scause⟩ ∧
    ∀ a, Outside b a → mem a = h.mem a := by
  have hreg : h.reg sp = b := (Hart.reg_of_ne sp_ne).trans hsp
  have hal₁ : (h.reg sp).toNat % 8 = 0 := by
    rw [hreg]
    exact hal
  have hreg₂ : ∀ mem, Hart.reg { h with
      x := readCsrs h.x h.csr
      csr := Function.update h.csr .sscratch 0
      mem := mem } sp = b := fun _ => (Hart.reg_of_ne sp_ne).trans ((readCsrs_sp h.x h.csr).trans hsp)
  have hal₂ : ∀ mem, (Hart.reg { h with
      x := readCsrs h.x h.csr
      csr := Function.update h.csr .sscratch 0
      mem := mem } sp).toNat % 8 = 0 := by
    intro mem
    rw [hreg₂]
    exact hal
  rw [run_stores hal₁, run_csrs, run_stores (hal₂ _), hreg, hreg₂]
  refine ⟨_, rfl, ?_, fun a ha => ?_⟩
  · obtain ⟨h₀, h₁, h₂, h₃, h₄⟩ := readCsrs_mem h.x h.csr
    rw [frame_stored, Hart.reg_of_ne (by decide), Hart.reg_of_ne (by decide), Hart.reg_of_ne (by decide),
      Hart.reg_of_ne (by decide), Hart.reg_of_ne (by decide)]
    show TrapFrame.mk (Function.update h.reg sp (readCsrs h.x h.csr s0)) (readCsrs h.x h.csr s1)
      (readCsrs h.x h.csr s2) (readCsrs h.x h.csr s3) (readCsrs h.x h.csr s4) = _
    rw [h₀, h₁, h₂, h₃, h₄]
  · exact (stored_outside ha special_slot).trans (stored_outside ha all_slot)

-- SAVE_ALL
theorem run_saveAll (hal : (trapTop h - FRAME).toNat % 8 = 0) :
    ∃ x mem, Hart.run 0 (saveAll ++ i) h =
        Hart.run 0 i { h with x := x, csr := Function.update h.csr .sscratch 0, mem := mem } ∧
      x sp = trapTop h - FRAME ∧ frameAt mem (trapTop h - FRAME) = .of h ∧
      ∀ a, Outside (trapTop h - FRAME) a → mem a = h.mem a := by
  have hentry := run_entry (h := h) (i := stores ((0, 0) :: general) sp ++
    ([.csrrw s0 .sscratch 0, .csrr s1 .sstatus, .csrr s2 .sepc, .csrr s3 .stval, .csrr s4 .scause] ++
      (stores special sp ++ i))) (-FRAME)
  rw [← BitVec.sub_eq_add_neg] at hentry
  generalize trapTop h - FRAME = b at hal hentry ⊢
  have hsp : ((h.set sp b).setCsr .sscratch (h.x sp)).x sp = b := by
    rw [Hart.setCsr_x, Hart.set_x, Function.update_self]
  obtain ⟨mem, hrun, hframe, hother⟩ := run_frame (i := i) hsp hal
  refine ⟨readCsrs (Function.update h.x sp b) (Function.update h.csr .sscratch (h.x sp)), mem, ?_, ?_, ?_, hother⟩
  · rw [saveAll, List.append_assoc, List.append_assoc, List.append_assoc, ← special, hentry, hrun]
    simp only [Hart.setCsr_x, Hart.set_x, Hart.setCsr_csr, Hart.set_csr, Function.update_idem]
    rfl
  · rw [readCsrs_sp, Function.update_self]
  · have hgpr : Function.update ((h.set sp b).setCsr .sscratch (h.x sp)).reg sp (h.x sp) = h.reg := by
      funext r
      rw [Function.update_apply, Hart.setCsr_reg, Hart.set_reg sp_ne]
      split_ifs with hr
      · rw [hr, Hart.reg_of_ne sp_ne]
      · rfl
    rw [hframe, Hart.setCsr_csr, Hart.set_csr, Function.update_self, hgpr, Function.update_of_ne (by decide),
      Function.update_of_ne (by decide), Function.update_of_ne (by decide), Function.update_of_ne (by decide)]
    rfl

-- The middle part of RESTORE_ALL: a return to user mode leaves the stack in sscratch.
theorem run_status (room : Word) :
    ∃ x csr, Hart.run 0 ([.andi s0 s1 SPP, .bnez s0 2, .addi s0 sp room, csrw .sscratch s0, csrw .sstatus s1,
        csrw .sepc s2] ++ i) h = Hart.run 0 i { h with x := x, csr := csr } ∧ x sp = h.x sp ∧
      csr .sstatus = h.x s1 ∧ csr .sepc = h.x s2 ∧
      csr .sscratch = if h.x s1 &&& SPP = 0 then h.x sp + room else h.csr .sscratch := by
  have h0 : s0 ≠ 0 := by decide
  have hs1 : h.reg s1 = h.x s1 := Hart.reg_of_ne (by decide)
  have hs2 : h.reg s2 = h.x s2 := Hart.reg_of_ne (by decide)
  have hsp : h.reg sp = h.x sp := Hart.reg_of_ne sp_ne
  simp only [csrw, List.cons_append, List.nil_append, Hart.run_andi, Hart.run_bnez, Hart.set_reg h0, if_true, hs1]
  by_cases hspp : h.x s1 &&& SPP = 0
  · simp only [if_pos hspp, Hart.run_addi, Hart.run_csrrw]
    refine ⟨_, _, rfl, ?_, ?_, ?_, ?_⟩ <;> simp [Hart.reg, s0, s1, s2, sp]
  · simp only [if_neg hspp, Hart.run_skip, Hart.run_csrrw]
    refine ⟨_, _, rfl, ?_, ?_, ?_, ?_⟩ <;> simp [Hart.reg, s0, s1, s2, sp]

-- RESTORE_ALL of the trapframe at sp
theorem run_restoreAll (hsp : h.x sp = b) (hal : b.toNat % 8 = 0) (hf : frameAt h.mem b = f) :
    ∃ x csr, Hart.run 0 restoreAll h = some { h with x := x, csr := csr } ∧ (∀ r, r ≠ 0 → x r = f.gpr r) ∧
      csr .sstatus = f.status ∧ csr .sepc = f.epc ∧
      csr .sscratch = if f.status &&& SPP = 0 then b + FRAME else h.csr .sscratch := by
  have hreg : h.reg sp = b := (Hart.reg_of_ne sp_ne).trans hsp
  -- status and epc
  have hnodup : (([(s1, 32), (s2, 33)] : List (Reg × Nat)).map Prod.fst).Nodup := by decide
  have hpair : ∀ p ∈ ([(s1, 32), (s2, 33)] : List (Reg × Nat)), loaded h.mem b [(s1, 32), (s2, 33)] h.x p.1 =
      h.mem (slot b p.2) := fun p hp => loaded_reg hnodup hp
  have hs1 : loaded h.mem b [(s1, 32), (s2, 33)] h.x s1 = h.mem (slot b 32) := hpair (s1, 32) (by decide)
  have hs2 : loaded h.mem b [(s1, 32), (s2, 33)] h.x s2 = h.mem (slot b 33) := hpair (s2, 33) (by decide)
  have hsp₁ : loaded h.mem b [(s1, 32), (s2, 33)] h.x sp = b := by
    rw [loaded_other (by decide), hsp]
  rw [restoreAll, run_loads (by rw [hreg]; exact hal) (by decide) (by decide), hreg]
  generalize loaded h.mem b [(s1, 32), (s2, 33)] h.x = x₁ at hs1 hs2 hsp₁
  obtain ⟨x₂, csr, hrun, hsp₂, hstatus, hepc, hscratch⟩ :=
    run_status (h := { h with x := x₁ }) (i := loads general sp ++ [.ld sp (8 * 2) sp]) FRAME
  have hsp₂ : x₂ sp = b := hsp₂.trans hsp₁
  have hreg₂ : Hart.reg { h with x := x₂, csr := csr } sp = b := (Hart.reg_of_ne sp_ne).trans hsp₂
  rw [hrun, run_loads (by exact hreg₂.symm ▸ hal) (by decide) (by decide), hreg₂]
  -- the general registers, and sp as the last one
  have hgeneral : ∀ r, r ≠ 0 → r ≠ sp → loaded h.mem b general x₂ r = h.mem (slot b r) := fun r hr hne =>
    loaded_reg (p := (r, r.val)) (by decide) (general_mem r hr hne)
  have hsp₃ : loaded h.mem b general x₂ sp = b := by
    rw [loaded_other (by decide), hsp₂]
  generalize loaded h.mem b general x₂ = x₃ at hgeneral hsp₃
  have hreg₃ : Hart.reg { h with x := x₃, csr := csr } sp = b := (Hart.reg_of_ne sp_ne).trans hsp₃
  rw [Hart.run_ld (by rw [hreg₃]; exact slot_aligned hal 2), hreg₃, Hart.run_nil]
  have hgpr : ∀ r, h.mem (slot b r.val) = f.gpr r := fun r => congrFun (congrArg TrapFrame.gpr hf) r
  have hst : h.mem (slot b 32) = f.status := congrArg TrapFrame.status hf
  have hep : h.mem (slot b 33) = f.epc := congrArg TrapFrame.epc hf
  refine ⟨Function.update x₃ sp (h.mem (slot b 2)), csr, rfl, fun r hr => ?_, ?_, ?_, ?_⟩
  · by_cases hne : r = sp
    · rw [hne, Function.update_self]
      exact hgpr sp
    · rw [Function.update_of_ne hne, hgeneral r hr hne, hgpr]
  · exact hstatus.trans (hs1.trans hst)
  · exact hepc.trans (hs2.trans hep)
  · refine hscratch.trans ?_
    simp only [hs1, hsp₁, hst]

end Ucore.Trap
