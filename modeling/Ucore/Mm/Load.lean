import Ucore.Mm.Vmm

namespace Ucore.Mm

open Lib

def ELF_MAGIC : Nat := 0x464C457F
def ELF_PT_LOAD : Nat := 1
def ELF_PF_X : Nat := 1
def ELF_PF_W : Nat := 2
def ELF_PF_R : Nat := 4
def SIZEOF_PROGHDR : Nat := 56

-- The kernel addresses that the last entry of boot_page_table_sv39 maps, up to 2^64
def KERNEL_MAP : Nat := 0xFFFFFFFFC0000000

-- An image as load_icode gets it: the pointer, the size, and the bytes that are read at
-- the addresses of the kernel. It does not lie in the pages that load_icode writes.
structure Image where
  binary : Nat
  size : Nat
  byte : Nat → Nat

-- struct trapframe; the general registers by their numbers
structure TrapFrame where
  gpr : Nat → Nat
  status : Nat
  epc : Nat
  tval : Nat
  cause : Nat

def SSTATUS_SPIE : Nat := 0x00000020
def SSTATUS_SPP : Nat := 0x00000100

-- the number of sp
def REG_SP : Nat := 2
def REG_A0 : Nat := 10

-- A difference of two 64-bit numbers
def sub64 (a b : Nat) : Nat := u64 (a + 18446744073709551616 - b)

-- A read of the image, while the active page table maps nothing below KERNEL_MAP.
def readImage (img : Image) (addr len : Nat) : M (Nat → Nat) := do
  Prog.note (.read addr len)
  if len = 0 ∨ (KERNEL_MAP ≤ addr ∧ addr + len ≤ 18446744073709551616) then
    pure fun k => img.byte (addr + k) % 256
  else Prog.halt (.panic "kernel page fault.\n")

-- A number of `n` bytes, the lowest first
def littleEndian (g : Nat → Nat) : Nat → Nat
  | 0 => 0
  | n + 1 => littleEndian g n + g n * 256 ^ n

def readField (img : Image) (addr n : Nat) : M Nat := do
  let g ← readImage img (u64 addr) n
  pure (littleEndian g n)

-- setup_pgdir
def setupPgdir (mm : MmStruct) : M (Option MmStruct) := do
  match ← allocPages 1 with
  | none => pure none
  | some page => do
      let pgdir ← page2kva page
      writePage pgdir bootPageTable
      pure (some { mm with pgdir := pgdir })

-- put_pgdir
def putPgdir (mm : MmStruct) : M Unit := do
  let page ← kva2page mm.pgdir
  freePages page 1

-- exit_mmap, put_pgdir and mm_destroy of an mm without users
def teardown (mm : MmStruct) : M Unit := do
  exitMmap mm
  putPgdir mm
  mmDestroy mm

-- `size` in the loops below, with `la` the address behind the page
def partSize (off la stop : Nat) : Nat :=
  if stop < la then sub64 (sub64 PGSIZE off) (sub64 la stop) else sub64 PGSIZE off

-- memcpy of a part of the image into a page, or memset to 0
def fillPart (img : Image) (src : Option Nat) (page off size : Nat) : M Unit := do
  let kva ← page2kva page
  match src with
  | some addr => do
      let g ← readImage img addr size
      writeBytes kva off size g
  | none => writeBytes kva off size fun _ => 0

-- The two loops of load_icode that allocate pages, from `start` to `stop`: that of (3.6.1)
-- copies from `src`, that of (3.6.2) clears. The result has `start`, `la` and `page` behind
-- the loop. Each step takes a page from the allocator.
def fillPages (img : Image) (pgdir perm stop : Nat) :
    Nat → Option Nat → Nat → Nat → Nat → M (Option (Nat × Nat × Nat))
  | 0, _, _, _, _ => Prog.halt .hang
  | fuel + 1, src, start, la, page =>
      if start < stop then do
        match ← pgdirAllocPage pgdir la perm with
        | none => pure none
        | some page => do
            let off := sub64 start la
            let la := u64 (la + PGSIZE)
            let size := partSize off la stop
            fillPart img src page off size
            fillPages img pgdir perm stop fuel (src.map fun addr => u64 (addr + size))
              (u64 (start + size)) la page
      else pure (some (start, la, page))

-- (3.6.2) for the rest of the last page of the file part; the result is `start`.
def clearRest (img : Image) (stop start la page : Nat) : M Nat := do
  let off := sub64 (start + PGSIZE) la
  let size := partSize off la stop
  fillPart img none page off size
  let start := u64 (start + size)
  assertM ((stop < la ∧ start = stop) ∨ (stop ≥ la ∧ start = la))
    "(end < la && start == end) || (end >= la && start == la)"
  pure start

def segFlags (pFlags : Nat) : Nat :=
  (if pFlags &&& ELF_PF_X ≠ 0 then VM_EXEC else 0) |||
    (if pFlags &&& ELF_PF_W ≠ 0 then VM_WRITE else 0) |||
    (if pFlags &&& ELF_PF_R ≠ 0 then VM_READ else 0)

def segPerm (vmFlags : Nat) : Nat :=
  PTE_U ||| PTE_V ||| (if vmFlags &&& VM_READ ≠ 0 then PTE_R else 0) |||
    (if vmFlags &&& VM_WRITE ≠ 0 then PTE_W ||| PTE_R else 0) |||
    (if vmFlags &&& VM_EXEC ≠ 0 then PTE_X else 0)

-- (3.6): the pages of one segment, whose bytes are at `src`
def loadPages (img : Image) (pgdir perm va filesz memsz src : Nat) : M Int := do
  let vm ← Prog.get
  let fuel := vm.area.npages + 1
  match ← fillPages img pgdir perm (u64 (va + filesz)) fuel (some src) va (ROUNDDOWN va PGSIZE) 0 with
  | none => pure (-E_NO_MEM)
  | some (start, la, page) => do
      let stop := u64 (va + memsz)
      if start < la ∧ start = stop then pure 0
      else do
        let start ← if start < la then clearRest img stop start la page else pure start
        match ← fillPages img pgdir perm stop fuel none start la page with
        | none => pure (-E_NO_MEM)
        | some _ => pure 0

-- (3.4) to (3.6), for the program header at `ph`
def loadSegment (img : Image) (mm : MmStruct) (ph : Nat) : M (Int × MmStruct) := do
  let type ← readField img ph 4
  if type ≠ ELF_PT_LOAD then pure (0, mm)
  else do
    let filesz ← readField img (ph + 32) 8
    let memsz ← readField img (ph + 40) 8
    if filesz > memsz then pure (-E_INVAL_ELF, mm)
    else do
      let flags ← readField img (ph + 4) 4
      let va ← readField img (ph + 16) 8
      let vmFlags := segFlags flags
      let (ret, mm) ← mmMap mm va memsz vmFlags
      if ret ≠ 0 then pure (ret, mm)
      else do
        Prog.note (.segment va memsz)
        let offset ← readField img (ph + 8) 8
        let ret ← loadPages img mm.pgdir (segPerm vmFlags) va filesz memsz (u64 (img.binary + offset))
        pure (ret, mm)

def loadSegments (img : Image) : Nat → Nat → MmStruct → M (Int × MmStruct)
  | 0, _, mm => pure (0, mm)
  | n + 1, ph, mm => do
      let (ret, mm) ← loadSegment img mm ph
      if ret ≠ 0 then pure (ret, mm) else loadSegments img n (u64 (ph + SIZEOF_PROGHDR)) mm

-- How often the loop over the program headers runs: `ph_end` can wrap around.
def headerCount (ph num : Nat) : Nat :=
  if ph + num * SIZEOF_PROGHDR < 18446744073709551616 then num else 0

-- (4): one page of the user stack, `i` pages below its top
def stackPage (pgdir i : Nat) : M Unit := do
  let page ← pgdirAllocPage pgdir (USTACKTOP - i * PGSIZE) PTE_USER
  assertM page.isSome "pgdir_alloc_page(mm->pgdir, USTACKTOP - PGSIZE, PTE_USER) != NULL"

def userStack (mm : MmStruct) : M (Int × MmStruct) := do
  let (ret, mm) ← mmMap mm (USTACKTOP - USTACKSIZE) USTACKSIZE (VM_READ ||| VM_WRITE ||| VM_STACK)
  if ret ≠ 0 then pure (ret, mm)
  else do
    stackPage mm.pgdir 1
    stackPage mm.pgdir 2
    stackPage mm.pgdir 3
    stackPage mm.pgdir 4
    pure (0, mm)

-- (3.3) to (4), with the program headers at `ph`
def loadImage (img : Image) (mm : MmStruct) (ph : Nat) : M (Int × MmStruct) := do
  let num ← readField img (img.binary + 56) 2
  let (ret, mm) ← loadSegments img (headerCount ph num) ph mm
  if ret ≠ 0 then pure (ret, mm) else userStack mm

-- (6): the trapframe for the user environment
def userFrame (tf : TrapFrame) (entry : Nat) : TrapFrame where
  gpr := Function.update (fun _ => 0) REG_SP USTACKTOP
  status := clearBit (tf.status ||| SSTATUS_SPIE) SSTATUS_SPP
  epc := entry
  tval := 0
  cause := 0

-- The memory of a process: its kernel stack (none for that of the boot), its mm, the root
-- table it runs on (none for boot_pgdir), and its trapframe. A zombie has called do_exit.
structure Task where
  kstack : Option Nat
  mm : Option MmStruct
  pgdir : Option Nat
  tf : TrapFrame
  zombie : Bool

-- load_icode
def loadIcode (img : Image) (task : Task) : M (Int × Task) := do
  if task.mm.isSome then Prog.halt (.panic "load_icode: current->mm must be empty.\n")
  else
    match ← mmCreate with
    | none => pure (-E_NO_MEM, task)
    | some mm =>
        match ← setupPgdir mm with
        | none => do
            mmDestroy mm
            pure (-E_NO_MEM, task)
        | some mm => do
            let phoff ← readField img (img.binary + 32) 8
            let magic ← readField img img.binary 4
            if magic ≠ ELF_MAGIC then do
              putPgdir mm
              mmDestroy mm
              pure (-E_INVAL_ELF, task)
            else do
              let (ret, mm) ← loadImage img mm (u64 (img.binary + phoff))
              if ret ≠ 0 then do
                teardown mm
                pure (ret, task)
              else do
                let entry ← readField img (img.binary + 24) 8
                pure (0, { task with
                  mm := some { mm with mmCount := mm.mmCount + 1 }
                  pgdir := some mm.pgdir
                  tf := userFrame task.tf entry })

end Ucore.Mm
