import Ucore.Mm.Struct

namespace Ucore.Mm

open Lib

-- One level of get_pte: the kernel address of the table that entry `i` of `table` points
-- to. If there is none and `create` is set, a page is allocated for it.
def nextTable (table i : Nat) (create : Bool) : M (Option Nat) := do
  let pde ← readWord table i
  if pde &&& PTE_V ≠ 0 then do
    let kva ← KADDR (PPN (PTE_ADDR pde))
    pure (some kva)
  else if !create then pure none
  else
    match ← allocPages 1 with
    | none => pure none
    | some page => do
        setPageRef page 1
        let kva ← page2kva page
        writePage kva .zero
        writeWord table i (pteCreate (page2ppn page) (PTE_U ||| PTE_V))
        let pde ← readWord table i
        let kva ← KADDR (PPN (PTE_ADDR pde))
        pure (some kva)

-- get_pte; an entry is given by its page and its index
def getPte (pgdir la : Nat) (create : Bool) : M (Option (Nat × Nat)) := do
  match ← nextTable pgdir (PDX1 la) create with
  | none => pure none
  | some pd0 =>
      match ← nextTable pd0 (PDX0 la) create with
      | none => pure none
      | some pt => pure (some (pt, PTX la))

-- get_page: the page mapped at `la` and, as `ptep_store`, its entry
def getPage (pgdir la : Nat) : M (Option Nat × Option (Nat × Nat)) := do
  match ← getPte pgdir la false with
  | none => pure (none, none)
  | some ptep => do
      let pte ← readWord ptep.1 ptep.2
      if pte &&& PTE_V ≠ 0 then do
        let page ← pte2page pte
        pure (some page, some ptep)
      else pure (none, some ptep)

-- page_remove_pte
def pageRemovePte (pgdir la : Nat) (ptep : Nat × Nat) : M Unit := do
  let pte ← readWord ptep.1 ptep.2
  if pte &&& PTE_V ≠ 0 then do
    let page ← pte2page pte
    pageRefDec page
    let ref ← pageRef page
    if ref = 0 then freePages page 1
    setPte pgdir la ptep 0
    tlbInvalidate la

-- page_remove
def pageRemove (pgdir la : Nat) : M Unit := do
  match ← getPte pgdir la false with
  | none => pure ()
  | some ptep => pageRemovePte pgdir la ptep

-- page_insert
def pageInsert (pgdir page la perm : Nat) : M Int := do
  match ← getPte pgdir la true with
  | none => pure (-E_NO_MEM)
  | some ptep => do
      pageRefInc page
      let pte ← readWord ptep.1 ptep.2
      if pte &&& PTE_V ≠ 0 then do
        let p ← pte2page pte
        if p = page then pageRefDec page else pageRemovePte pgdir la ptep
      setPte pgdir la ptep (pteCreate (page2ppn page) (PTE_V ||| perm))
      tlbInvalidate la
      pure 0

-- pgdir_alloc_page
def pgdirAllocPage (pgdir la perm : Nat) : M (Option Nat) := do
  match ← allocPages 1 with
  | none => pure none
  | some page => do
      let ret ← pageInsert pgdir page la perm
      if ret ≠ 0 then do
        freePages page 1
        pure none
      else do
        let ref ← pageRef page
        assertM (ref = 1) "page_ref(page) == 1"
        pure (some page)

-- The checks on the range in front of the three loops below; with them no address in
-- these loops exceeds 64 bits.
def checkRange (start stop : Nat) : M Unit := do
  assertM (start % PGSIZE = 0 ∧ stop % PGSIZE = 0) "start % PGSIZE == 0 && end % PGSIZE == 0"
  assertM (USER_ACCESS start stop) "USER_ACCESS(start, end)"

-- The loop of unmap_range. It makes at most one step for each page of the range.
def unmapLoop (pgdir stop : Nat) : Nat → Nat → M Unit
  | 0, _ => Prog.halt .hang
  | fuel + 1, start => do
      let next ← match ← getPte pgdir start false with
        | none => pure (ROUNDDOWN (start + PTSIZE) PTSIZE)
        | some ptep => do
            let pte ← readWord ptep.1 ptep.2
            if pte ≠ 0 then pageRemovePte pgdir start ptep
            pure (start + PGSIZE)
      if next ≠ 0 ∧ next < stop then unmapLoop pgdir stop fuel next

-- unmap_range
def unmapRange (pgdir start stop : Nat) : M Unit := do
  checkRange start stop
  unmapLoop pgdir stop ((stop - start) / PGSIZE + 1) start

-- The loop over the page tables of the level 0 directory `pd0`; the result is `free_pd0`.
def exitTables (pd0 d1start stop : Nat) : Nat → Nat → Bool → M Bool
  | 0, _, _ => Prog.halt .hang
  | fuel + 1, d0start, freePd0 => do
      let pde0 ← readWord pd0 (PDX0 d0start)
      let freePd0 ← if pde0 &&& PTE_V ≠ 0 then do
          let page ← pde2page pde0
          let pt ← page2kva page
          let vm ← Prog.get
          let freePt := (List.range NPTEENTRY).all fun i => vm.mem pt i &&& PTE_V = 0
          if freePt then do
            let page ← pde2page pde0
            freePages page 1
            writeWord pd0 (PDX0 d0start) 0
          pure freePd0
        else pure false
      let d0start := d0start + PTSIZE
      if d0start ≠ 0 ∧ d0start < d1start + PDSIZE ∧ d0start < stop then
        exitTables pd0 d1start stop fuel d0start freePd0
      else pure freePd0

-- The loop over the level 0 directories.
def exitDirs (pgdir stop : Nat) : Nat → Nat → Nat → M Unit
  | 0, _, _ => Prog.halt .hang
  | fuel + 1, d1start, d0start => do
      let pde1 ← readWord pgdir (PDX1 d1start)
      if pde1 &&& PTE_V ≠ 0 then do
        let page ← pde2page pde1
        let pd0 ← page2kva page
        let freePd0 ← exitTables pd0 d1start stop NPDEENTRY d0start true
        if freePd0 then do
          let page ← pde2page pde1
          freePages page 1
          writeWord pgdir (PDX1 d1start) 0
      let d1start := d1start + PDSIZE
      if d1start ≠ 0 ∧ d1start < stop then exitDirs pgdir stop fuel d1start d1start

-- exit_range
def exitRange (pgdir start stop : Nat) : M Unit := do
  checkRange start stop
  exitDirs pgdir stop (stop / PDSIZE + 1) (ROUNDDOWN start PDSIZE) (ROUNDDOWN start PTSIZE)

-- The permission bits of an entry that copy_range and do_pgfault take over.
def PTE_PERM : Nat := PTE_R ||| PTE_W ||| PTE_X ||| PTE_U ||| PTE_G ||| PTE_A ||| PTE_D ||| PTE_SOFT

-- `perm & ~bit`
def clearBit (perm bit : Nat) : Nat := perm ^^^ (perm &&& bit)

-- One page of copy_range: the page of a writable entry is shared copy-on-write, with the
-- entry of the parent downgraded as well, that of another entry is shared as it is.
def copyPage (dst src la : Nat) (ptep : Nat × Nat) : M Int := do
  let pte ← readWord ptep.1 ptep.2
  if pte &&& PTE_V ≠ 0 then
    match ← getPte dst la true with
    | none => pure (-E_NO_MEM)
    | some _ => do
        let pte ← readWord ptep.1 ptep.2
        let page ← pte2page pte
        let perm := pte &&& PTE_PERM
        if perm &&& PTE_W ≠ 0 then do
          let cowPerm := clearBit perm PTE_W ||| PTE_COW
          let ret ← pageInsert dst page la cowPerm
          if ret ≠ 0 then pure ret
          else do
            setPte src la ptep (pteCreate (page2ppn page) (cowPerm ||| PTE_V))
            tlbInvalidate la
            pure 0
        else pageInsert dst page la perm
  else pure 0

-- The loop of copy_range.
def copyLoop (dst src stop : Nat) : Nat → Nat → M Int
  | 0, _ => Prog.halt .hang
  | fuel + 1, start => do
      match ← getPte src start false with
      | none =>
          let next := ROUNDDOWN (start + PTSIZE) PTSIZE
          if next ≠ 0 ∧ next < stop then copyLoop dst src stop fuel next else pure 0
      | some ptep => do
          let ret ← copyPage dst src start ptep
          if ret ≠ 0 then pure ret
          else
            let next := start + PGSIZE
            if next ≠ 0 ∧ next < stop then copyLoop dst src stop fuel next else pure 0

-- copy_range
def copyRange (dst src start stop : Nat) : M Int := do
  checkRange start stop
  copyLoop dst src stop ((stop - start) / PGSIZE + 1) start

end Ucore.Mm
