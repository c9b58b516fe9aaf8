import Ucore.Trap.Nesting

namespace Ucore.Trap

open Lib.Riscv

def a2 : Reg := 12
def a3 : Reg := 13
def a4 : Reg := 14
def a7 : Reg := 17

def IRQ_S_TIMER : Word := 5

def CAUSE_BREAKPOINT : Word := 0x3
def CAUSE_MISALIGNED_STORE : Word := 0x6
def CAUSE_USER_ECALL : Word := 0x8
def CAUSE_SUPERVISOR_ECALL : Word := 0x9
def CAUSE_FETCH_PAGE_FAULT : Word := 0xc
def CAUSE_LOAD_PAGE_FAULT : Word := 0xd
def CAUSE_STORE_PAGE_FAULT : Word := 0xf

-- The call of a do_ function by the one of `sys_` that is in syscalls[]
inductive Call
  | exit (error_code : BitVec 32)
  | fork (stack : Word)
  | wait (pid : BitVec 32) (store : Word)
  | exec (name len binary size : Word)
  | yield
  | kill (pid : BitVec 32)
  | getpid
  | putc (c : BitVec 32)
  | pgdir
  deriving DecidableEq, Repr

-- The entries of syscalls[] that are not NULL; `arg` are the arguments from a1 on.
def syscalls (tf : TrapFrame) (arg : Nat → Word) : Nat → Option Call
  | 1 => some (.exit ((arg 0).setWidth 32))
  | 2 => some (.fork (tf.gpr sp))
  | 3 => some (.wait ((arg 0).setWidth 32) (arg 1))
  | 4 => some (.exec (arg 0) (arg 1) (arg 2) (arg 3))
  | 10 => some .yield
  | 12 => some (.kill ((arg 0).setWidth 32))
  | 18 => some .getpid
  | 30 => some (.putc ((arg 0).setWidth 32))
  | 31 => some .pgdir
  | _ => none

def NUM_SYSCALLS : Nat := 32

-- The register of argument `i`
def argReg (i : Nat) : Reg := Fin.ofNat 32 (11 + i)

-- syscall up to the call; there is none for an undefined number, and the kernel panics.
def syscall (tf : TrapFrame) : Option Call :=
  let num : BitVec 32 := (tf.gpr a0).setWidth 32
  if 0 ≤ num.toInt ∧ num.toNat < NUM_SYSCALLS then syscalls tf (fun i => tf.gpr (argReg i)) num.toNat else none

-- The result of the call in the trapframe
def answer (tf : TrapFrame) (ret : BitVec 32) : TrapFrame :=
  { tf with gpr := Function.update tf.gpr a0 (ret.signExtend 64) }

-- What a handler does: it returns and leaves the trapframe alone, it does a call and puts
-- its result in the trapframe (and goes on at kernel_execve_ret), it gives the fault at
-- `addr` to do_pgfault, or it panics.
inductive Effect
  | pass
  | tick
  | call (c : Call) (tf : TrapFrame)
  | execve (c : Call) (tf : TrapFrame)
  | fault (write : Bool) (addr : Word)
  | panic (msg : String)

-- The trapframe behind the ecall
def skipped (tf : TrapFrame) : TrapFrame := { tf with epc := tf.epc + 4 }

def UNDEFINED_SYSCALL : String := "undefined syscall %d, pid = %d, name = %s.\n"

-- tf->epc += 4 and syscall(); an exec by ebreak ends in kernel_execve_ret.
def enterSyscall (execve : Bool) (tf : TrapFrame) : Effect :=
  match syscall (skipped tf) with
  | some c => if execve then .execve c (skipped tf) else .call c (skipped tf)
  | none => .panic UNDEFINED_SYSCALL

def trapInKernel (tf : TrapFrame) : Bool := tf.status &&& SPP ≠ 0

-- All interrupts but that of the timer are only reported.
def interruptHandler (tf : TrapFrame) : Effect :=
  if (tf.cause <<< 1) >>> 1 = IRQ_S_TIMER then .tick else .pass

-- exception_handler; the causes that are not named are only reported. `mm` tells whether
-- the process has an mm.
def exceptionHandler (mm : Bool) (tf : TrapFrame) : Effect :=
  if tf.cause = CAUSE_BREAKPOINT then if tf.gpr a7 = 10 then enterSyscall true tf else .pass
  else if tf.cause = CAUSE_MISALIGNED_STORE then .panic "AMO address misaligned\n"
  else if tf.cause = CAUSE_USER_ECALL ∨ tf.cause = CAUSE_SUPERVISOR_ECALL then enterSyscall false tf
  else if tf.cause = CAUSE_FETCH_PAGE_FAULT ∨ tf.cause = CAUSE_LOAD_PAGE_FAULT ∨ tf.cause = CAUSE_STORE_PAGE_FAULT then
    if trapInKernel tf then .panic "kernel page fault.\n"
    else if mm then .fault (tf.cause = CAUSE_STORE_PAGE_FAULT) tf.tval
    else .panic "no mm for current process.\n"
  else .pass

def trapDispatch (mm : Bool) (tf : TrapFrame) : Effect :=
  if tf.cause.toInt < 0 then interruptHandler tf else exceptionHandler mm tf

-- The functions of user/libs/syscall.c
inductive Request
  | exit (error_code : BitVec 32)
  | fork
  | wait (pid : BitVec 32) (store : Word)
  | yield
  | kill (pid : BitVec 32)
  | getpid
  | putc (c : BitVec 32)
  | pgdir
  deriving DecidableEq, Repr

def Request.num : Request → Word
  | .exit _ => 1
  | .fork => 2
  | .wait _ _ => 3
  | .yield => 10
  | .kill _ => 12
  | .getpid => 18
  | .putc _ => 30
  | .pgdir => 31

-- Their arguments; an int is converted to int64_t.
def Request.args : Request → List Word
  | .exit error_code => [error_code.signExtend 64]
  | .wait pid store => [pid.signExtend 64, store]
  | .kill pid => [pid.signExtend 64]
  | .putc c => [c.signExtend 64]
  | .fork | .yield | .getpid | .pgdir => []

-- What they ask for, from a process with the stack pointer `stack`
def Request.call (stack : Word) : Request → Call
  | .exit error_code => .exit error_code
  | .fork => .fork stack
  | .wait pid store => .wait pid store
  | .yield => .yield
  | .kill pid => .kill pid
  | .getpid => .getpid
  | .putc c => .putc c
  | .pgdir => .pgdir

variable {lo hi n k m i : Nat} {h h' h₁ h₂ h₃ h₄ : Hart} {f tf : TrapFrame} {req : Request} {base r : Reg} {w : Word}
  {ret x : BitVec 32}

-- A number that is in syscalls[]
theorem syscall_of_num {num : Word} (hnum : f.gpr a0 = num) (hpos : 0 ≤ (num.setWidth 32).toInt)
    (hlt : (num.setWidth 32).toNat < NUM_SYSCALLS) :
    syscall f = syscalls f (fun i => f.gpr (argReg i)) (num.setWidth 32).toNat := by
  unfold syscall
  rw [hnum]
  exact if_pos ⟨hpos, hlt⟩

theorem of_trap_gpr {cause tval : Word} (hr : r ≠ 0) : (TrapFrame.of (h.trap cause tval)).gpr r = h.x r := if_neg hr

-- A process behind the ecall of the hart `h`, with the result `w`; its traps use the
-- kernel stack below `scratch`.
structure Returned (h : Hart) (w scratch : Word) (h' : Hart) : Prop where
  reg : ∀ r, r ≠ 0 → h'.x r = if r = a0 then w else h.x r
  pc : h'.pc = h.pc + 4
  mode : h'.mode = h.mode
  scratch : h'.csr .sscratch = scratch
  status : h'.csr .sstatus = (h.csr .sstatus ||| SPIE) &&& ~~~SPP

theorem Resumed.returned {cause tval : Word} (hres : Resumed (answer (skipped (.of (h.trap cause tval))) ret) h')
    (hscratch : h'.csr .sscratch = w) : Returned h (ret.signExtend 64) w h' := by
  refine ⟨fun r hr => ?_, hres.pc, hres.mode.trans (previous_enter _ _), hscratch, hres.status.trans (leave_enter _ _)⟩
  rw [hres.reg r hr]
  show Function.update h.reg a0 _ r = _
  rw [Function.update_apply, Hart.reg_of_ne hr]

-- A handler that assigns its trapframe
theorem code_putFrame {b : Word} (hk : InKernel lo b h) (htop : b.toNat + 288 ≤ hi) (hfits : hi < 18446744073709551616)
    (f : TrapFrame) : ∃ h', Code lo hi b h h' ∧ frameAt h'.mem b = f ∧ h'.x sp = h.x sp := by
  refine ⟨{ h with mem := putFrame h.mem b f }, ⟨⟨hk.mode, hk.scratch, hk.low, hk.high, hk.aligned⟩, fun a hlo _ => ?_⟩,
    frameAt_putFrame, rfl⟩
  exact putFrame_outside (outside_of (by omega) (Or.inr hlo))

end Ucore.Trap
