import Ucore.Trap.Start

namespace Ucore.Trap

open Lib.Riscv

def USTACKTOP : Word := 0x80000000

-- The trapframe of kernel_thread; its code is at `entry`.
def threadFrame (entry fn arg sstatus : Word) : TrapFrame where
  gpr := Function.update (Function.update (fun _ => 0) s0 fn) s1 arg
  status := (sstatus ||| SPP ||| SPIE) &&& ~~~SIE
  epc := entry
  tval := 0
  cause := 0

-- kernel_thread_entry up to the call of the function
def kernelThreadEntry : List Instr := [mv a0 s1]

-- The trapframe that load_icode makes of the one with the given status
def icodeFrame (sstatus entry : Word) : TrapFrame where
  gpr := Function.update (fun _ => 0) sp USTACKTOP
  status := (sstatus ||| SPIE) &&& ~~~SPP
  epc := entry
  tval := 0
  cause := 0

-- The assembly of kernel_execve, with lw for each of its arguments
def lw (w : Word) : Word := (w.setWidth 32).signExtend 64

structure Execve (name len binary size : Word) (gpr : Reg → Word) : Prop where
  number : gpr a0 = 4
  name : gpr a1 = lw name
  len : gpr a2 = lw len
  binary : gpr a3 = lw binary
  size : gpr a4 = lw size
  ebreak : gpr a7 = 10

-- kernel_execve_ret
def kernelExecveRet : List Instr := .addi a1 a1 (-FRAME) :: (copyDown a0 a1 s1 36 ++ mv sp a1 :: trapret)

variable {P : Type} {ctx : P → Word} {own : P → Word → Prop} {p c t : P} {mm : Bool}
  {forkret kstack b w entry fn arg sstatus name len binary size : Word} {f tf : TrapFrame}
  {h h₁ h₂ h₃ : Hart} {mem : Word → Word}

-- In C the addresses of the kernel and small numbers are the same after lw.
theorem lw_eq (hw : w.toNat < 2147483648 ∨ 18446744071562067968 ≤ w.toNat) : lw w = w := by
  apply BitVec.eq_of_toInt_eq
  have hlt := w.isLt
  rw [lw, BitVec.toInt_signExtend_of_le (by decide), BitVec.toInt_eq_toNat_bmod, BitVec.toInt_eq_toNat_bmod,
    BitVec.toNat_setWidth]
  simp only [Int.bmod_def]
  omega

theorem threadFrame_mode (entry fn arg sstatus : Word) :
    previous (threadFrame entry fn arg sstatus).status = .supervisor := by
  have hbit : (threadFrame entry fn arg sstatus).status.getLsbD 8 = true := by
    simp [threadFrame, SPP, SPIE, SIE]
  rw [previous_eq, hbit]
  rfl

theorem icodeFrame_mode (sstatus entry : Word) : previous (icodeFrame sstatus entry).status = .user := by
  have hbit : (icodeFrame sstatus entry).status.getLsbD 8 = false := by
    simp [icodeFrame, SPP, SPIE]
  rw [previous_eq, hbit]
  rfl

theorem childFrame_sp (kstack : Word) (tf : TrapFrame) : (childFrame kstack 0 tf).gpr sp = topFrame kstack := by
  unfold childFrame
  simp only [Function.update_self, if_true]

theorem threadFrame_interrupts (entry fn arg sstatus : Word) :
    (leaveStatus (threadFrame entry fn arg sstatus).status).getLsbD 1 = true := by
  rw [leaveStatus_bit _ _ (by decide), if_pos rfl]
  simp [threadFrame, SPP, SPIE, SIE]

theorem icodeFrame_interrupts (sstatus entry : Word) : (leaveStatus (icodeFrame sstatus entry).status).getLsbD 1 = true := by
  rw [leaveStatus_bit _ _ (by decide), if_pos rfl]
  simp [icodeFrame, SPP, SPIE]

-- A new kernel thread calls its function with its argument, on its own stack, with the
-- interrupts on, and is ready for them.
theorem kernel_thread_starts (hfirst : First ctx own c p t h h₁ h₂) (hown : Owners ctx own)
    (hst : Stack ctx own c kstack) (hpc : p ≠ c)
    (hmem : h.mem = copyThread forkret (ctx c) kstack 0 (threadFrame entry fn arg sstatus) mem)
    (hact : Activity kstack.toNat (kstack.toNat + 8192) (topFrame kstack)
      (childFrame kstack 0 (threadFrame entry fn arg sstatus)) (childFrame kstack 0 (threadFrame entry fn arg sstatus))
      h₂ h₃)
    (harg : h₃.x a0 = topFrame kstack) :
    h₂.x ra = forkret ∧ ∃ h₄ h₅, Hart.run 0 forkrets h₃ = some h₄ ∧ h₄.sret.pc = entry ∧
      Hart.run 0 kernelThreadEntry h₄.sret = some h₅ ∧ h₅.x s0 = fn ∧ h₅.x a0 = arg ∧ h₅.mode = .supervisor ∧
      (h₅.csr .sstatus).getLsbD 1 = true ∧ h₅.x sp = topFrame kstack ∧
      Ready kstack.toNat (kstack.toNat + 8192) h₅ := by
  obtain ⟨hra, _, _⟩ := hfirst.begins hown hst hpc hmem
  obtain ⟨h₄, hrun, hres, hscratch⟩ := hfirst.starts hown hst hpc hmem hact harg
  have hmode : previous (childFrame kstack 0 (threadFrame entry fn arg sstatus)).status = .supervisor :=
    threadFrame_mode entry fn arg sstatus
  have htop := hst.topFrame
  have hal := hst.aligned
  have hmv : Hart.run 0 kernelThreadEntry h₄.sret = some (h₄.sret.set a0 (h₄.sret.reg s1)) := by
    rw [kernelThreadEntry, Hart.run_mv, Hart.run_nil]
  have hreg : ∀ r, r ≠ a0 → (h₄.sret.set a0 (h₄.sret.reg s1)).x r = h₄.sret.x r := fun r hr =>
    Function.update_of_ne hr _ _
  have hsp : (h₄.sret.set a0 (h₄.sret.reg s1)).x sp = topFrame kstack := by
    rw [hreg sp (by decide), hres.reg sp sp_ne, childFrame_sp]
  have hzero : (h₄.sret.set a0 (h₄.sret.reg s1)).csr .sscratch = 0 := by
    rw [Hart.set_csr, hscratch, hmode, if_neg (by decide)]
  have htrap : trapTop (h₄.sret.set a0 (h₄.sret.reg s1)) = topFrame kstack := (if_pos hzero).trans hsp
  refine ⟨hra, h₄, _, hrun, hres.pc, hmv, ?_, ?_, hres.mode.trans hmode, ?_, hsp, ?_⟩
  · rw [hreg s0 (by decide), hres.reg s0 (by decide)]
    rfl
  · rw [Hart.set_x, Function.update_self, Hart.reg_of_ne (by decide), hres.reg s1 (by decide)]
    rfl
  · rw [Hart.set_csr, hres.status]
    exact threadFrame_interrupts entry fn arg sstatus
  · refine ⟨fun hno => ?_, fun _ => hzero, ?_, ?_, ?_⟩
    · rw [Hart.set_mode, hres.mode, hmode] at hno
      cases hno
    · rw [htrap, htop]
      omega
    · rw [htrap, htop]
      omega
    · rw [htrap, htop]
      omega

-- kernel_execve_ret, also where the two trapframes overlap
theorem run_kernelExecveRet (hsrc : h.x a0 = b) (hdst : h.x a1 = w) (hal : b.toNat % 8 = 0) (halw : w.toNat % 8 = 0)
    (hroom : 288 ≤ w.toNat) (hle : b.toNat + 288 ≤ w.toNat) (hf : frameAt h.mem b = f) :
    ∃ h', Hart.run 0 kernelExecveRet h = some h' ∧ Resumed f h'.sret ∧
      h'.sret.csr .sscratch = if previous f.status = .user then w else h.csr .sscratch := by
  have hsub := sub_FRAME hroom
  have hlt := w.isLt
  have hentry : Hart.run 0 kernelExecveRet h =
      Hart.run 0 (copyDown a0 a1 s1 36 ++ mv sp a1 :: trapret) (h.set a1 (w - FRAME)) := by
    rw [kernelExecveRet, Hart.run_addi, Hart.reg_of_ne (by decide), hdst, ← BitVec.sub_eq_add_neg]
  have hs : (h.set a1 (w - FRAME)).reg a0 = b := by
    rw [Hart.set_reg (by decide), if_neg (by decide), Hart.reg_of_ne (by decide), hsrc]
  have hd : (h.set a1 (w - FRAME)).reg a1 = w - FRAME := by
    rw [Hart.set_reg (by decide), if_pos rfl]
  have ha0 : a0 ≠ s1 := by decide
  have ha1 : a1 ≠ s1 := by decide
  have hs1 : s1 ≠ 0 := by decide
  obtain ⟨h₁, hrun, hreg, hcsr, _, _, hcopy, _⟩ := run_copyDown (n := 36) ha0 ha1 hs1 hs hd hal (by omega) (by omega)
    (by omega)
  have hframe : frameAt h₁.mem (w - FRAME) = f := by
    rw [← hf]
    exact TrapFrame.ext (funext fun r => hcopy r.val (Nat.lt_trans r.isLt (by decide))) (hcopy 32 (by decide))
      (hcopy 33 (by decide)) (hcopy 34 (by decide)) (hcopy 35 (by decide))
  have hend : h₁.x a1 = w - FRAME := by
    rw [hreg a1 ha1, Hart.set_x, Function.update_self]
  have hmv : Hart.run 0 (mv sp a1 :: trapret) h₁ = Hart.run 0 trapret (h₁.set sp (w - FRAME)) := by
    rw [Hart.run_mv, Hart.reg_of_ne (by decide), hend]
  have hsp : (h₁.set sp (w - FRAME)).x sp = w - FRAME := by rw [Hart.set_x, Function.update_self]
  obtain ⟨h', hrestore, hres, _, hscratch⟩ := run_trapret hsp (by omega) hframe
  refine ⟨h', hentry.trans (hrun.trans (hmv.trans hrestore)), hres, ?_⟩
  rw [hscratch, BitVec.sub_add_cancel, Hart.set_csr, hcsr, Hart.set_csr]

theorem trapDispatch_execve (hcause : tf.cause = CAUSE_BREAKPOINT) (hexec : Execve name len binary size tf.gpr)
    (hname : 18446744071562067968 ≤ name.toNat) (hbinary : 18446744071562067968 ≤ binary.toNat)
    (hlen : len.toNat < 2147483648) (hsize : size.toNat < 2147483648) :
    trapDispatch mm tf = .execve (.exec name len binary size) (skipped tf) := by
  have hsys : syscall (skipped tf) = some (.exec name len binary size) := by
    rw [syscall_of_num (f := skipped tf) hexec.number (by decide) (by decide)]
    show some (Call.exec (tf.gpr a1) (tf.gpr a2) (tf.gpr a3) (tf.gpr a4)) = _
    rw [hexec.name, hexec.len, hexec.binary, hexec.size, lw_eq (Or.inr hname), lw_eq (Or.inl hlen),
      lw_eq (Or.inr hbinary), lw_eq (Or.inl hsize)]
  unfold trapDispatch exceptionHandler
  rw [hcause, if_neg (by decide), if_pos rfl, if_pos hexec.ebreak]
  unfold enterSyscall
  rw [hsys]
  exact if_pos rfl

-- kernel_execve, from its ebreak in a kernel thread to the user program: the kernel is
-- asked for do_execve with the arguments that were given, and when the handler leaves the
-- trapframe of load_icode, the program begins at its entry in user mode, with its stack
-- pointer and the result as the only registers that are not 0. Nothing is left on the
-- kernel stack, and the process is ready for interrupts.
theorem kernel_execve_starts (mm : Bool) (tval sstatus entry : Word) (ret : BitVec 32)
    (hk : InKernel kstack.toNat (topFrame kstack) h) (hst : Stack ctx own c kstack)
    (hroom : kstack.toNat + 288 ≤ (h.x sp).toNat) (hexec : Execve name len binary size h.x)
    (hname : 18446744071562067968 ≤ name.toNat) (hbinary : 18446744071562067968 ≤ binary.toNat)
    (hlen : len.toNat < 2147483648) (hsize : size.toNat < 2147483648) :
    ∃ h₁, Hart.run 0 alltraps (h.trap CAUSE_BREAKPOINT tval) = some h₁ ∧
      trapDispatch mm (frameAt h₁.mem (h₁.x sp)) =
        .execve (.exec name len binary size) (skipped (.of (h.trap CAUSE_BREAKPOINT tval))) ∧
      InKernel kstack.toNat (h₁.x sp) h₁ ∧ (h₁.x sp).toNat + 288 ≤ kstack.toNat + 8192 ∧
      ∀ h₂, Activity kstack.toNat (kstack.toNat + 8192) (h₁.x sp) (.of (h.trap CAUSE_BREAKPOINT tval))
          (answer (icodeFrame sstatus entry) ret) h₁ h₂ →
        h₂.x a0 = h₁.x sp → h₂.x a1 = kstack + KSTACKSIZE →
        ∃ h₃, Hart.run 0 kernelExecveRet h₂ = some h₃ ∧ h₃.sret.pc = entry ∧ h₃.sret.mode = .user ∧
          (∀ r, r ≠ 0 → h₃.sret.x r = if r = a0 then ret.signExtend 64 else if r = sp then USTACKTOP else 0) ∧
          (h₃.sret.csr .sstatus).getLsbD 1 = true ∧ Ready kstack.toNat (kstack.toNat + 8192) h₃.sret := by
  have htop := hst.topFrame
  have hend := hst.top
  have hfits := hst.fits
  have hal := hst.aligned
  have hready : Ready kstack.toNat (kstack.toNat + 8192) h := by
    have htrap : trapTop h = h.x sp := if_pos hk.scratch
    have hhigh := hk.high
    have hals := hk.aligned
    refine ⟨fun hno => ?_, fun _ => hk.scratch, ?_, ?_, ?_⟩
    · rw [hk.mode] at hno
      cases hno
    · rw [htrap]
      exact hroom
    · rw [htrap]
      omega
    · rw [htrap]
      exact hals
  obtain ⟨h₁, hsave, _, hsp, hframe, hk₁, htop₁, _⟩ := hready.enter CAUSE_BREAKPOINT tval
  refine ⟨h₁, hsave, ?_, hk₁, htop₁, fun h₂ hact harg hstack => ?_⟩
  · rw [hframe]
    have hreg : ∀ r, r ≠ 0 → (TrapFrame.of (h.trap CAUSE_BREAKPOINT tval)).gpr r = h.x r := fun r hr => of_trap_gpr hr
    have hexec' : Execve name len binary size (TrapFrame.of (h.trap CAUSE_BREAKPOINT tval)).gpr :=
      ⟨(hreg a0 (by decide)).trans hexec.number, (hreg a1 (by decide)).trans hexec.name,
        (hreg a2 (by decide)).trans hexec.len, (hreg a3 (by decide)).trans hexec.binary,
        (hreg a4 (by decide)).trans hexec.size, (hreg a7 (by decide)).trans hexec.ebreak⟩
    exact trapDispatch_execve rfl hexec' hname hbinary hlen hsize
  · obtain ⟨_, hf₂, _⟩ := hact.spec hk₁ hframe htop₁ hfits
    obtain ⟨h₃, hrun, hres, hscratch⟩ := run_kernelExecveRet harg hstack hk₁.aligned (by omega) (by omega) (by omega) hf₂
    have hmode : previous (answer (icodeFrame sstatus entry) ret).status = .user := icodeFrame_mode sstatus entry
    rw [if_pos hmode] at hscratch
    have huser : h₃.sret.mode = .user := hres.mode.trans hmode
    have hne : h₃.sret.csr .sscratch ≠ 0 := fun hno => by
      have hzero := congrArg BitVec.toNat (hscratch.symm.trans hno)
      rw [hend] at hzero
      simp only [BitVec.ofNat_eq_ofNat, BitVec.toNat_zero] at hzero
      omega
    have htrap : trapTop h₃.sret = kstack + KSTACKSIZE := (if_neg hne).trans hscratch
    refine ⟨h₃, hrun, hres.pc, huser, fun r hr => ?_, ?_, ?_⟩
    · rw [hres.reg r hr]
      show Function.update (Function.update (fun _ : Reg => (0 : Word)) sp USTACKTOP) a0 (ret.signExtend 64) r = _
      rw [Function.update_apply, Function.update_apply]
    · rw [hres.status]
      exact icodeFrame_interrupts sstatus entry
    · refine ⟨fun _ => by rw [hscratch, hend], fun hno => ?_, ?_, ?_, ?_⟩
      · rw [huser] at hno
        cases hno
      · rw [htrap, hend]
        omega
      · exact Nat.le_of_eq ((congrArg BitVec.toNat htrap).trans hend)
      · rw [htrap, hend]
        omega

-- A hart that runs kernel code with the given registers and memory
def kernelHart (x : Reg → Word) (mem : Word → Word) : Hart where
  x := x
  csr _ := 0
  mem := mem
  mode := .supervisor
  pc := 0x80200000

theorem kernel_thread_starts_next : ∃ h₃ h₄ h₅ : Hart, Hart.run 0 forkrets h₃ = some h₄ ∧ h₄.sret.pc = 0x90 ∧
    Hart.run 0 kernelThreadEntry h₄.sret = some h₅ ∧ h₅.x s0 = 0xa0 ∧ h₅.x a0 = 7 ∧
    Ready 65536 (65536 + 8192) h₅ := by
  generalize hh : kernelHart (fun _ => 0)
    (copyThread 0x80 (twoContexts true) 65536 0 (threadFrame 0x90 0xa0 7 0) fun _ => 0) = h
  have hmem : h.mem = copyThread 0x80 (twoContexts true) 65536 0 (threadFrame 0x90 0xa0 7 0) fun _ => 0 := by
    rw [← hh]
    rfl
  have hkernel : h.mode = .supervisor ∧ h.csr .sscratch = 0 := by
    rw [← hh]
    exact ⟨rfl, rfl⟩
  obtain ⟨h₂, hfirst⟩ := first_next hkernel.1 hkernel.2
  obtain ⟨_, hk₂, hframe⟩ := hfirst.begins twoContexts_owners childStack (by decide) hmem
  obtain ⟨_, h₄, h₅, hrun, hpc, hentry, hfn, harg, _, _, _, hready⟩ := kernel_thread_starts hfirst twoContexts_owners
    childStack (by decide) hmem (.code ⟨hk₂.set (by decide), fun _ _ _ => rfl⟩ hframe .done) (set_arg h₂ _)
  exact ⟨_, h₄, h₅, hrun, hpc, hentry, hfn, harg, hready⟩

-- The arguments of an execve in the registers, with the stack pointer below the trapframe
def execveRegs : Reg → Word :=
  assign (fun _ => 0) [(sp, 73440), (a0, 4), (a1, 0xffffffffc0210000), (a2, 5), (a3, 0xffffffffc0220000), (a4, 100), (a7, 10)]

theorem kernel_execve_starts_hello : ∃ h₁ h₂ h₃ : Hart,
    Hart.run 0 alltraps ((kernelHart execveRegs fun _ => 0).trap CAUSE_BREAKPOINT 0) = some h₁ ∧
    trapDispatch false (frameAt h₁.mem (h₁.x sp)) =
      .execve (.exec 0xffffffffc0210000 5 0xffffffffc0220000 100)
        (skipped (.of ((kernelHart execveRegs fun _ => 0).trap CAUSE_BREAKPOINT 0))) ∧
    Hart.run 0 kernelExecveRet h₂ = some h₃ ∧ h₃.sret.pc = 0x800020 ∧ h₃.sret.mode = .user ∧
    Ready 65536 (65536 + 8192) h₃.sret := by
  have hk : InKernel (65536 : Word).toNat (topFrame 65536) (kernelHart execveRegs fun _ => 0) :=
    ⟨rfl, rfl, by decide, by decide, by decide⟩
  have hexec : Execve 0xffffffffc0210000 5 0xffffffffc0220000 100 (kernelHart execveRegs fun _ => 0).x :=
    ⟨by decide, by decide, by decide, by decide, by decide, by decide⟩
  obtain ⟨h₁, hsave, hdispatch, hk₁, htop, hall⟩ := kernel_execve_starts false 0 0 0x800020 0 hk childStack (by decide)
    hexec (by decide) (by decide) (by decide) (by decide)
  obtain ⟨h₂, hcode, hframe, hsp⟩ := code_putFrame hk₁ htop (by decide) (answer (icodeFrame 0 0x800020) 0)
  have hset : Code (65536 : Word).toNat ((65536 : Word).toNat + 8192) (h₁.x sp) h₂
      ((h₂.set a1 (65536 + KSTACKSIZE)).set a0 (h₁.x sp)) :=
    ⟨(hcode.kernel.set (by decide)).set (by decide), fun _ _ _ => rfl⟩
  have ha1 : ((h₂.set a1 (65536 + KSTACKSIZE)).set a0 (h₁.x sp)).x a1 = 65536 + KSTACKSIZE := by
    rw [Hart.set_x, Function.update_of_ne (by decide), Hart.set_x, Function.update_self]
  obtain ⟨h₃, hrun, hpc, hmode, _, _, hready⟩ := hall _ (.code hcode hframe (.code hset hframe .done)) (set_arg _ _) ha1
  exact ⟨h₁, _, h₃, hsave, hdispatch, hrun, hpc, hmode, hready⟩

end Ucore.Trap
