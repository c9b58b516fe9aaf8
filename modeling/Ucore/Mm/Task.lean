import Ucore.Mm.Load

namespace Ucore.Mm

open Lib

def PROC_NAME_LEN : Nat := 15
def KSTACKSIZE : Nat := KSTACKPAGE * PGSIZE
def SIZEOF_TRAPFRAME : Nat := 288
def MAX_PROCESS : Int := 4096

-- The process that runs: idleproc and initproc must not exit.
inductive Current
  | idleproc
  | initproc
  | other
  deriving DecidableEq, Repr

-- setup_kstack
def setupKstack : M (Option Nat) := do
  match ← allocPages KSTACKPAGE with
  | none => pure none
  | some page => do
      let kva ← page2kva page
      pure (some kva)

-- put_kstack
def putKstack (kstack : Nat) : M Unit := do
  let page ← kva2page kstack
  freePages page KSTACKPAGE

-- lock_mm and unlock_mm
def lockMm (mm : MmStruct) : M MmStruct :=
  if mm.mmLock then Prog.halt .hang else pure { mm with mmLock := true }

def unlockMm (mm : MmStruct) : M MmStruct :=
  if mm.mmLock then pure { mm with mmLock := false }
  else Prog.halt (.panic "Unlock failed.\n")

-- copy_mm without CLONE_VM: its result, the mm of the child, and that of the parent
def copyMm (oldmm : Option MmStruct) : M (Int × Option MmStruct × Option MmStruct) := do
  match oldmm with
  | none => pure (0, none, none)
  | some oldmm =>
      match ← mmCreate with
      | none => pure (-E_NO_MEM, none, some oldmm)
      | some mm =>
          match ← setupPgdir mm with
          | none => do
              mmDestroy mm
              pure (-E_NO_MEM, none, some oldmm)
          | some mm => do
              let oldmm ← lockMm oldmm
              let (ret, mm) ← dupMmap mm oldmm
              let oldmm ← unlockMm oldmm
              if ret ≠ 0 then do
                teardown mm
                pure (ret, none, some oldmm)
              else pure (0, some { mm with mmCount := mm.mmCount + 1 }, some oldmm)

-- copy_thread; without a user stack, sp is the address of the trapframe
def copyThread (kstack stack : Nat) (tf : TrapFrame) : TrapFrame :=
  let sp := if stack = 0 then KERNEL_MAP + kstack * PGSIZE + KSTACKSIZE - SIZEOF_TRAPFRAME else stack
  { tf with gpr := Function.update (Function.update tf.gpr REG_A0 0) REG_SP sp }

-- The memory side of do_fork: its result, which is 0 in the place of the pid, the task of
-- the child if there is one, and that of the parent.
def doFork (nrProcess : Int) (parent : Task) (stack : Nat) : M (Int × Option Task × Task) := do
  if nrProcess ≥ MAX_PROCESS then pure (-E_NO_FREE_PROC, none, parent)
  else if ← kmalloc then
    match ← setupKstack with
    | none => pure (-E_NO_MEM, none, parent)
    | some kstack => do
        let (ret, mm, oldmm) ← copyMm parent.mm
        let parent := { parent with mm := oldmm }
        if ret ≠ 0 then do
          putKstack kstack
          pure (-E_NO_MEM, none, parent)
        else
          pure (0, some ⟨some kstack, mm, mm.map MmStruct.pgdir, copyThread kstack stack parent.tf, false⟩,
            parent)
  else pure (-E_NO_MEM, none, parent)

-- The release of the mm in do_exit and do_execve.
def dropMm (task : Task) : M Task := do
  match task.mm with
  | none => pure task
  | some mm => do
      let mm := { mm with mmCount := mm.mmCount - 1 }
      if mm.mmCount = 0 then teardown mm
      pure { task with mm := none }

-- The memory side of do_exit.
def doExit (current : Current) (task : Task) : M Task := do
  match current with
  | .idleproc => Prog.halt (.panic "idleproc exit.\n")
  | .initproc => Prog.halt (.panic "initproc exit.\n")
  | .other => do
      let task ← dropMm task
      pure { task with zombie := true }

-- The walk of the MMU: the entry for `addr` in the last level. The tables of the kernel
-- have no large pages below the upper half.
def walk (mem : Nat → Words) (npage pgdir addr : Nat) : Option Nat :=
  if addr ≥ 2 ^ 38 then none
  else
    let pde1 := mem pgdir (PDX1 addr)
    if pde1 &&& PTE_V = 0 ∨ pde1 &&& (PTE_R ||| PTE_W ||| PTE_X) ≠ 0 then none
    else if PPN (PTE_ADDR pde1) < nbase ∨ PPN (PTE_ADDR pde1) ≥ npage then none
    else
      let pde0 := mem (PPN (PTE_ADDR pde1) - nbase) (PDX0 addr)
      if pde0 &&& PTE_V = 0 ∨ pde0 &&& (PTE_R ||| PTE_W ||| PTE_X) ≠ 0 then none
      else if PPN (PTE_ADDR pde0) < nbase ∨ PPN (PTE_ADDR pde0) ≥ npage then none
      else some (mem (PPN (PTE_ADDR pde0) - nbase) (PTX addr))

-- The page that an access to `addr` with the permissions `bits` reaches.
def translate (vm : VM) (pgdir addr bits : Nat) : Option Nat :=
  match walk vm.mem vm.npage pgdir addr with
  | none => none
  | some pte =>
      if pte &&& PTE_V = 0 ∨ pte &&& bits ≠ bits then none
      else if PPN (PTE_ADDR pte) < nbase ∨ PPN (PTE_ADDR pte) ≥ vm.npage then none
      else some (PPN (PTE_ADDR pte) - nbase)

-- An instruction that reads or writes memory: on a page fault it is repeated if
-- do_pgfault returns 0. The result is the page accessed, or none if the process is to
-- be killed.
def access (write : Bool) (addr : Nat) : Nat → MmStruct → M (Option Nat × MmStruct)
  | 0, _ => Prog.halt .hang
  | fuel + 1, mm => do
      let vm ← Prog.get
      match translate vm mm.pgdir addr (PTE_U ||| PTE_R ||| if write then PTE_W else 0) with
      | some page => pure (some page, mm)
      | none => do
          let (ret, mm) ← doPgfault mm (if write then PF_WRITE else 0) addr
          if ret ≠ 0 then pure (none, mm) else access write addr fuel mm

def userLoad (mm : MmStruct) (addr : Nat) : M (Option Nat × MmStruct) := do
  match ← access false addr 3 mm with
  | (none, mm) => pure (none, mm)
  | (some page, mm) => do
      let vm ← Prog.get
      pure (some ((vm.mem page).byte (addr % PGSIZE)), mm)

def userStore (mm : MmStruct) (addr value : Nat) : M (Option Unit × MmStruct) := do
  match ← access true addr 3 mm with
  | (none, mm) => pure (none, mm)
  | (some page, mm) => do
      writeBytes page (addr % PGSIZE) 1 fun _ => value
      pure (some (), mm)

-- The copy of the name in do_execve, by kernel code that runs on the page table of the
-- process and may access its pages.
def readName (mm : MmStruct) (addr : Nat) : Nat → M Unit
  | 0 => pure ()
  | len + 1 => do
      let vm ← Prog.get
      match translate vm mm.pgdir addr PTE_R with
      | none => Prog.halt (.panic "kernel page fault.\n")
      | some _ => readName mm (addr + 1) len

-- The store of a number into the memory of the process by do_wait, byte by byte
def storeBytes (mm : MmStruct) (addr value : Nat) : Nat → M Unit
  | 0 => pure ()
  | n + 1 => do
      let vm ← Prog.get
      match translate vm mm.pgdir addr PTE_W with
      | none => Prog.halt (.panic "kernel page fault.\n")
      | some page => do
          writeBytes page (addr % PGSIZE) 1 fun _ => value % 256
          storeBytes mm (addr + 1) (value / 256) n

-- The memory side of do_execve.
def doExecve (current : Current) (task : Task) (name len : Nat) (img : Image) : M (Int × Task) := do
  let (ok, mm) ← userMemCheck task.mm name len false
  let task := { task with mm := mm }
  if !ok then pure (-E_INVAL, task)
  else do
    match task.mm with
    | none => pure ()
    | some mm => readName mm name (min len PROC_NAME_LEN)
    let task ← dropMm task
    let (ret, task) ← loadIcode img task
    if ret ≠ 0 then do
      let task ← doExit current task
      pure (ret, task)
    else pure (0, task)

end Ucore.Mm
