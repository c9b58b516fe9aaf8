import Ucore.Mm.Pmm

namespace Ucore.Mm

open Lib

def VM_READ : Nat := 0x00000001
def VM_WRITE : Nat := 0x00000002
def VM_EXEC : Nat := 0x00000004
def VM_STACK : Nat := 0x00000008

def PF_WRITE : Nat := 0x2

structure VmaStruct where
  vmStart : Nat
  vmEnd : Nat
  vmFlags : Nat
  deriving DecidableEq, Repr

-- mm_struct; `pgdir` is the page that holds the root table.
structure MmStruct where
  mmapList : List VmaStruct
  mmapCache : Option VmaStruct
  pgdir : Nat
  mapCount : Nat
  mmCount : Int
  mmLock : Bool
  deriving DecidableEq, Repr

-- mm_create
def mmCreate : M (Option MmStruct) := do
  if ← kmalloc then
    pure (some ⟨[], none, 0, 0, 0, false⟩)
  else pure none

-- vma_create
def vmaCreate (vmStart vmEnd vmFlags : Nat) : M (Option VmaStruct) := do
  if ← kmalloc then pure (some ⟨vmStart, vmEnd, vmFlags⟩) else pure none

def VmaStruct.contains (vma : VmaStruct) (addr : Nat) : Bool := vma.vmStart ≤ addr ∧ addr < vma.vmEnd

-- find_vma; the vma found becomes the cached one
def findVma (mm : MmStruct) (addr : Nat) : Option VmaStruct × MmStruct :=
  let vma := match mm.mmapCache with
    | some vma => if vma.contains addr then some vma else mm.mmapList.find? (·.contains addr)
    | none => mm.mmapList.find? (·.contains addr)
  match vma with
  | some vma => (some vma, { mm with mmapCache := some vma })
  | none => (none, mm)

-- check_vma_overlap
def checkVmaOverlap (prev next : VmaStruct) : M Unit := do
  assertM (prev.vmStart < prev.vmEnd) "prev->vm_start < prev->vm_end"
  assertM (prev.vmEnd ≤ next.vmStart) "prev->vm_end <= next->vm_start"
  assertM (next.vmStart < next.vmEnd) "next->vm_start < next->vm_end"

-- insert_vma_struct: behind the vmas up to the first that starts above it
def insertVmaStruct (mm : MmStruct) (vma : VmaStruct) : M MmStruct := do
  assertM (vma.vmStart < vma.vmEnd) "vma->vm_start < vma->vm_end"
  let before := mm.mmapList.takeWhile fun prev => !(prev.vmStart > vma.vmStart)
  let behind := mm.mmapList.drop before.length
  match before.getLast? with
  | some prev => checkVmaOverlap prev vma
  | none => pure ()
  match behind.head? with
  | some next => checkVmaOverlap vma next
  | none => pure ()
  pure { mm with mmapList := before ++ vma :: behind, mapCount := mm.mapCount + 1 }

-- mm_destroy: the vmas and the mm go back to kfree
def mmDestroy (mm : MmStruct) : M Unit :=
  assertM (mm.mmCount = 0) "mm_count(mm) == 0"

-- mm_map
def mmMap (mm : MmStruct) (addr len vmFlags : Nat) : M (Int × MmStruct) := do
  let start := ROUNDDOWN addr PGSIZE
  let stop := ROUNDUP (u64 (addr + len)) PGSIZE
  if !USER_ACCESS start stop then pure (-E_INVAL, mm)
  else
    let (found, mm) := findVma mm start
    if found.any fun vma => stop > vma.vmStart then pure (-E_INVAL, mm)
    else
      match ← vmaCreate start stop vmFlags with
      | none => pure (-E_NO_MEM, mm)
      | some vma => do
          let mm ← insertVmaStruct mm vma
          pure (0, mm)

-- The loop of dup_mmap over the vmas of `src`, from the last to the first.
def dupLoop (dst : MmStruct) (src : Nat) : List VmaStruct → M (Int × MmStruct)
  | [] => pure (0, dst)
  | vma :: rest => do
      match ← vmaCreate vma.vmStart vma.vmEnd vma.vmFlags with
      | none => pure (-E_NO_MEM, dst)
      | some nvma => do
          let dst ← insertVmaStruct dst nvma
          let ret ← copyRange dst.pgdir src vma.vmStart vma.vmEnd
          if ret ≠ 0 then pure (-E_NO_MEM, dst) else dupLoop dst src rest

-- dup_mmap
def dupMmap (dst src : MmStruct) : M (Int × MmStruct) := dupLoop dst src.pgdir src.mmapList.reverse

-- The two loops of exit_mmap.
def unmapAll (pgdir : Nat) : List VmaStruct → M Unit
  | [] => pure ()
  | vma :: rest => do
      unmapRange pgdir vma.vmStart vma.vmEnd
      unmapAll pgdir rest

def exitAll (pgdir : Nat) : List VmaStruct → M Unit
  | [] => pure ()
  | vma :: rest => do
      exitRange pgdir vma.vmStart vma.vmEnd
      exitAll pgdir rest

-- exit_mmap
def exitMmap (mm : MmStruct) : M Unit := do
  assertM (mm.mmCount = 0) "mm != NULL && mm_count(mm) == 0"
  unmapAll mm.pgdir mm.mmapList
  exitAll mm.pgdir mm.mmapList

-- lock and unlock of a page; no other process runs while the lock is held, so that a lock
-- that is taken twice is never released
def lockPage (page : Nat) : M Unit := do
  let p ← derefPage page
  if p.pageLock then Prog.halt .hang
  else storePage page fun p => { p with pageLock := true }

def unlockPage (page : Nat) : M Unit := do
  let p ← derefPage page
  if p.pageLock then storePage page fun p => { p with pageLock := false }
  else Prog.halt (.panic "Unlock failed.\n")

-- Whether an entry of the page table is that of a present copy-on-write page.
def cowEntry (ptep : Option (Nat × Nat)) : M Bool := do
  match ptep with
  | none => pure false
  | some ptep => do
      let pte ← readWord ptep.1 ptep.2
      pure (pte &&& PTE_V ≠ 0 ∧ pte &&& PTE_COW ≠ 0)

-- `*ptep = (*ptep & ~PTE_COW) | PTE_W`, with the fence behind it
def restoreWrite (pgdir la : Nat) (ptep : Nat × Nat) : M Unit := do
  let pte ← readWord ptep.1 ptep.2
  setPte pgdir la ptep (clearBit pte PTE_COW ||| PTE_W)
  tlbInvalidate la

-- Steps 9 and 10 of do_pgfault, with the lock of `page` held: a page that others map is
-- copied, one that nobody else maps becomes writable. (The source reads the reference
-- count twice before it allocates, with nothing in between.)
def pgfaultCow (pgdir la page : Nat) (ptep : Nat × Nat) : M Int := do
  let pte ← readWord ptep.1 ptep.2
  let perm := clearBit ((pte &&& PTE_PERM) ||| PTE_W) PTE_COW
  let ref ← pageRef page
  if ref > 1 then
    match ← allocPages 1 with
    | none => do
        unlockPage page
        pure (-E_NO_MEM)
    | some npage => do
        let dst ← page2kva npage
        let src ← page2kva page
        let vm ← Prog.get
        writePage dst (vm.mem src)
        let ref ← pageRef page
        if ref > 1 then do
          let ret ← pageInsert pgdir npage la perm
          if ret ≠ 0 then do
            freePages npage 1
            unlockPage page
            pure ret
          else
            match ← getPte pgdir la false with
            | none => do
                unlockPage page
                pure (-E_INVAL)
            | some ptep => do
                let pte ← readWord ptep.1 ptep.2
                if pte &&& PTE_V ≠ 0 ∧ pte &&& PTE_W ≠ 0 ∧ pte &&& PTE_COW = 0 then do
                  let mappedPage ← pte2page pte
                  unlockPage page
                  if mappedPage = npage then pure 0 else pure (-E_INVAL)
                else do
                  unlockPage page
                  pure (-E_INVAL)
        else do
          freePages npage 1
          restoreWrite pgdir la ptep
          unlockPage page
          pure 0
  else do
    restoreWrite pgdir la ptep
    unlockPage page
    pure 0

-- Steps 7 and 8 of do_pgfault: the lock of the page is taken and the entry read again.
def pgfaultLocked (pgdir la page : Nat) : M Int := do
  lockPage page
  let ptep ← getPte pgdir la false
  if !(← cowEntry ptep) then do
    unlockPage page
    pure (-E_INVAL)
  else
    match ptep with
    | none => pure (-E_INVAL)
    | some ptep => do
        let pte ← readWord ptep.1 ptep.2
        let currentPage ← pte2page pte
        if currentPage ≠ page then do
          unlockPage page
          lockPage currentPage
          let ptep ← getPte pgdir la false
          if !(← cowEntry ptep) then do
            unlockPage currentPage
            pure (-E_INVAL)
          else
            match ptep with
            | none => pure (-E_INVAL)
            | some ptep => do
                let pte ← readWord ptep.1 ptep.2
                let page ← pte2page pte
                if page ≠ currentPage then do
                  unlockPage currentPage
                  pure (-E_NO_MEM)
                else pgfaultCow pgdir la page ptep
        else pgfaultCow pgdir la page ptep

-- do_pgfault
def doPgfault (mm : MmStruct) (errorCode addr : Nat) : M (Int × MmStruct) := do
  let (vma, mm) := findVma mm addr
  match vma with
  | none => pure (-E_INVAL, mm)
  | some vma =>
      if vma.vmStart > addr then pure (-E_INVAL, mm)
      else do
        let la := ROUNDDOWN addr PGSIZE
        match ← getPte mm.pgdir la false with
        | none => pure (-E_INVAL, mm)
        | some ptep => do
            let pte ← readWord ptep.1 ptep.2
            if pte &&& PTE_V = 0 then pure (-E_INVAL, mm)
            else if pte &&& PTE_COW = 0 then pure (-E_INVAL, mm)
            else if errorCode &&& PF_WRITE = 0 then pure (-E_INVAL, mm)
            else if vma.vmFlags &&& VM_WRITE = 0 then pure (-E_INVAL, mm)
            else do
              let page ← pte2page pte
              let ret ← pgfaultLocked mm.pgdir la page
              pure (ret, mm)

-- The loop of user_mem_check. Each step leaves a vma behind.
def memCheckLoop (write : Bool) (stop : Nat) : Nat → MmStruct → Nat → M (Bool × MmStruct)
  | 0, _, _ => Prog.halt .hang
  | fuel + 1, mm, start =>
      if start < stop then
        let (vma, mm) := findVma mm start
        match vma with
        | none => pure (false, mm)
        | some vma =>
            if start < vma.vmStart then pure (false, mm)
            else if vma.vmFlags &&& (if write then VM_WRITE else VM_READ) = 0 then pure (false, mm)
            else if write ∧ vma.vmFlags &&& VM_STACK ≠ 0 ∧ start < vma.vmStart + PGSIZE then
              pure (false, mm)
            else memCheckLoop write stop fuel mm vma.vmEnd
      else pure (true, mm)

def KMEMSIZE : Nat := 0x7E00000

def KERN_ACCESS (start stop : Nat) : Bool :=
  Pmm.KERNBASE ≤ start ∧ start < stop ∧ stop ≤ Pmm.KERNBASE + KMEMSIZE

-- user_mem_check
def userMemCheck (mm : Option MmStruct) (addr len : Nat) (write : Bool) : M (Bool × Option MmStruct) := do
  let stop := u64 (addr + len)
  match mm with
  | none => pure (KERN_ACCESS addr stop, none)
  | some mm =>
      if !USER_ACCESS addr stop then pure (false, some mm)
      else do
        let (ok, mm) ← memCheckLoop write stop (len + 1) mm addr
        pure (ok, some mm)

end Ucore.Mm
