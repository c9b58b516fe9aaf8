import Ucore.Lib.Prog
import Ucore.Pmm.Theorems

namespace Ucore.Mm

open Lib Pmm

def PGSIZE : Nat := 4096
def NPTEENTRY : Nat := 512
def NPDEENTRY : Nat := 512
def PTSIZE : Nat := PGSIZE * NPTEENTRY
def PDSIZE : Nat := PTSIZE * NPDEENTRY

def PTXSHIFT : Nat := 12
def PDX0SHIFT : Nat := 21
def PDX1SHIFT : Nat := 30
def PTE_PPN_SHIFT : Nat := 10

def PTE_V : Nat := 0x001
def PTE_R : Nat := 0x002
def PTE_W : Nat := 0x004
def PTE_X : Nat := 0x008
def PTE_U : Nat := 0x010
def PTE_G : Nat := 0x020
def PTE_A : Nat := 0x040
def PTE_D : Nat := 0x080
def PTE_SOFT : Nat := 0x300
def PTE_COW : Nat := 0x100
def PTE_USER : Nat := PTE_R ||| PTE_W ||| PTE_X ||| PTE_U ||| PTE_V

def USERTOP : Nat := 0x80000000
def USERBASE : Nat := 0x00200000
def USTACKTOP : Nat := USERTOP
def USTACKPAGE : Nat := 256
def USTACKSIZE : Nat := USTACKPAGE * PGSIZE
def KSTACKPAGE : Nat := 2

-- DRAM_BASE / PGSIZE
def nbase : Nat := 0x80000

def u64 (x : Nat) : Nat := x % 18446744073709551616

def ROUNDDOWN (a n : Nat) : Nat := a - a % n
def ROUNDUP (a n : Nat) : Nat := ROUNDDOWN (u64 (a + n - 1)) n

def PDX1 (la : Nat) : Nat := (la >>> PDX1SHIFT) &&& 0x1FF
def PDX0 (la : Nat) : Nat := (la >>> PDX0SHIFT) &&& 0x1FF
def PTX (la : Nat) : Nat := (la >>> PTXSHIFT) &&& 0x1FF
def PPN (la : Nat) : Nat := la >>> PTXSHIFT
def PTE_ADDR (pte : Nat) : Nat :=
  u64 ((pte >>> PTE_PPN_SHIFT <<< PTE_PPN_SHIFT) <<< (PTXSHIFT - PTE_PPN_SHIFT))

def USER_ACCESS (start stop : Nat) : Bool := USERBASE ≤ start ∧ start < stop ∧ stop ≤ USERTOP

def pteCreate (ppn type : Nat) : Nat := (ppn <<< PTE_PPN_SHIFT) ||| PTE_V ||| type

-- The words of a page.
abbrev Words := Nat → Nat

def Words.zero : Words := fun _ => 0

-- boot_page_table_sv39: the last entry maps the kernel.
def bootPageTable : Words := fun i => if i = 511 then (0x80000 <<< 10) ||| 0xcf else 0

def Words.byte (w : Words) (off : Nat) : Nat := w (off / 8) / 256 ^ (off % 8) % 256

def Words.ofBytes (g : Nat → Nat) : Words := fun i =>
  g (8 * i) + 256 * (g (8 * i + 1) + 256 * (g (8 * i + 2) + 256 * (g (8 * i + 3) +
    256 * (g (8 * i + 4) + 256 * (g (8 * i + 5) + 256 * (g (8 * i + 6) + 256 * g (8 * i + 7)))))))

-- `size` bytes of the page from `off` on, as memcpy and memset write them.
def Words.write (w : Words) (off size : Nat) (g : Nat → Nat) : Words :=
  .ofBytes fun o => if off ≤ o ∧ o < off + size then g (o - off) % 256 else w.byte o

-- The memory system: the page descriptors, the contents of the pages by page index, and
-- the heap pages of kmalloc. `room` tells which of the next calls of kmalloc find room
-- in those; where it ends they all do.
structure VM where
  area : FreeArea
  mem : Nat → Words
  heap : List Nat
  room : List Bool

-- What one sees of a run beside its result.
inductive Obs
  -- default_free_pages adds a block behind the last member of its list
  | tail
  -- alloc_pages returns NULL
  | noMem
  -- load_icode reads the image
  | read (addr len : Nat)
  -- load_icode has a vma for a segment
  | segment (va memsz : Nat)
  -- the entry for `la` in the tables of `pgdir` is overwritten
  | pte (pgdir la old : Nat)
  -- sfence.vma
  | fence (la : Nat)
  deriving DecidableEq, Repr

abbrev M := Prog Halt VM Obs

def VM.npage (vm : VM) : Nat := vm.area.npages + nbase

-- A call of the allocator.
def callPmm {α : Type} (f : FreeArea → Except Halt (α × FreeArea)) : M α := do
  let vm ← Prog.get
  match f vm.area with
  | .error h => Prog.halt h
  | .ok (a, area) => do
      Prog.modify fun vm => { vm with area := area }
      pure a

-- alloc_pages
def allocPages (n : Nat) : M (Option Nat) := do
  let page ← callPmm fun area => defaultAllocPages area n
  if page = none then Prog.note .noMem
  pure page

-- free_pages
def freePages (base n : Nat) : M Unit := do
  let vm ← Prog.get
  if ¬InOrder vm.area.members base then Prog.note .tail
  callPmm fun area => (defaultFreePages area base n).map fun area => ((), area)

def derefPage (page : Nat) : M Page :=
  callPmm fun area => (area.deref page).map fun p => (p, area)

def storePage (page : Nat) (f : Page → Page) : M Unit :=
  callPmm fun area => (area.store page f).map fun area => ((), area)

def setPageRef (page : Nat) (val : Int) : M Unit := storePage page fun p => { p with ref := val }
def pageRefInc (page : Nat) : M Unit := storePage page fun p => { p with ref := p.ref + 1 }
def pageRefDec (page : Nat) : M Unit := storePage page fun p => { p with ref := p.ref - 1 }

def pageRef (page : Nat) : M Int := do
  let p ← derefPage page
  pure p.ref

def page2ppn (page : Nat) : Nat := page + nbase

-- KADDR of the page `ppn`; what lies below the DRAM is not mapped.
def KADDR (ppn : Nat) : M Nat := do
  let vm ← Prog.get
  if ppn ≥ vm.npage then Prog.halt (.panic "KADDR called with invalid pa")
  else if ppn < nbase then Prog.halt .wild
  else pure (ppn - nbase)

def page2kva (page : Nat) : M Nat := KADDR (page2ppn page)

-- pa2page, of the page `ppn`
def pa2page (ppn : Nat) : M Nat := do
  let vm ← Prog.get
  if ppn ≥ vm.npage then Prog.halt (.panic "pa2page called with invalid pa")
  else if ppn < nbase then Prog.halt .wild
  else pure (ppn - nbase)

-- kva2page, of a kernel address in the page with index `kva`
def kva2page (kva : Nat) : M Nat := pa2page (kva + nbase)

def pte2page (pte : Nat) : M Nat := do
  if pte &&& PTE_V = 0 then Prog.halt (.panic "pte2page called with invalid pte")
  else pa2page (PPN (PTE_ADDR pte))

def pde2page (pde : Nat) : M Nat := pa2page (PPN (PTE_ADDR pde))

def readWord (page i : Nat) : M Nat := do
  let vm ← Prog.get
  pure (vm.mem page i)

def writePage (page : Nat) (w : Words) : M Unit :=
  Prog.modify fun vm => { vm with mem := Function.update vm.mem page w }

def writeWord (page i value : Nat) : M Unit :=
  Prog.modify fun vm =>
    { vm with mem := Function.update vm.mem page (Function.update (vm.mem page) i value) }

-- A write of the entry for `la`, and tlb_invalidate
def setPte (pgdir la : Nat) (ptep : Nat × Nat) (pte : Nat) : M Unit := do
  let old ← readWord ptep.1 ptep.2
  Prog.note (.pte pgdir la old)
  writeWord ptep.1 ptep.2 pte

def tlbInvalidate (la : Nat) : M Unit := Prog.note (.fence la)

-- memcpy and memset of `size` bytes from `off` on in a page; what they write elsewhere is
-- not followed.
def writeBytes (page off size : Nat) (g : Nat → Nat) : M Unit :=
  if size = 0 ∨ off + size ≤ PGSIZE then
    Prog.modify fun vm =>
      { vm with mem := Function.update vm.mem page ((vm.mem page).write off size g) }
  else Prog.halt .wild

def assertM (holds : Bool) (text : String) : M Unit :=
  if holds then pure () else Prog.halt (.panic ("assertion failed: " ++ text))

-- kmalloc of an object smaller than a page: slob_alloc takes one more page when no block
-- is large enough; slob_free gives none back.
def kmalloc : M Bool := do
  let vm ← Prog.get
  Prog.modify fun vm => { vm with room := vm.room.tail }
  if vm.room.headD true then pure true
  else
    match ← allocPages 1 with
    | none => pure false
    | some page => do
        Prog.modify fun vm => { vm with heap := page :: vm.heap }
        pure true

end Ucore.Mm
