import Ucore.Basic
import Mathlib.Algebra.BigOperators.Group.List.Basic

namespace Ucore.Slob

-- Addresses; address 0 is the NULL pointer.
def NULL : Nat := 0

def PAGE_SIZE : Nat := 4096
def SLOB_UNIT : Nat := 16
def SLOB_UNITS (size : Nat) : Nat := (size + SLOB_UNIT - 1) / SLOB_UNIT

-- sizeof(bigblock_t)
def SIZEOF_BIGBLOCK : Nat := 24

-- The heap: the memory in units of 16 bytes, `lo` with the word at the address of a unit
-- and `hi` with the word 8 bytes behind it, the static `arena`, and what alloc_pages does.
-- It has handed out the runs of 2^order pages in `out`, and `supply` has what it is
-- going to propose.
structure Heap where
  lo : Nat → Nat
  hi : Nat → Nat
  arena : Nat
  slobfree : Nat
  bigblocks : Nat
  out : List (Nat × Nat)
  supply : List (Option Nat)

namespace Heap

-- The fields of a slob_t. (`units` is an int; the pages that the kernel maps have less
-- than 2^31 units.)
def units (s : Heap) (a : Nat) : Nat := s.lo a
def next (s : Heap) (a : Nat) : Nat := s.hi a

def setUnits (s : Heap) (a v : Nat) : Heap := { s with lo := Function.update s.lo a v }
def setNext (s : Heap) (a v : Nat) : Heap := { s with hi := Function.update s.hi a v }

-- The fields of a bigblock_t, which lies in a block of slob_alloc and overwrites its header
def order (s : Heap) (bb : Nat) : Nat := s.lo bb
def pages (s : Heap) (bb : Nat) : Nat := s.hi bb
def bigNext (s : Heap) (bb : Nat) : Nat := s.lo (bb + SLOB_UNIT)

def setOrder (s : Heap) (bb v : Nat) : Heap := { s with lo := Function.update s.lo bb v }
def setPages (s : Heap) (bb v : Nat) : Heap := { s with hi := Function.update s.hi bb v }
def setBigNext (s : Heap) (bb v : Nat) : Heap :=
  { s with lo := Function.update s.lo (bb + SLOB_UNIT) v }

-- A bound on the number of free blocks
def limit (s : Heap) : Nat := (s.out.map fun r => 256 * 2 ^ r.2).sum + 2

-- A run of 2^order pages that alloc_pages can hand out: above the arena (the kernel image
-- and the array `pages` lie below all of them), and none of them handed out already.
def Grants (s : Heap) (page order : Nat) : Prop :=
  page % PAGE_SIZE = 0 ∧ s.arena + SLOB_UNIT < page ∧
    page + PAGE_SIZE * 2 ^ order ≤ 18446744073709551616 ∧
    ∀ r ∈ s.out, r.1 + PAGE_SIZE * 2 ^ r.2 ≤ page ∨ page + PAGE_SIZE * 2 ^ order ≤ r.1

instance (s : Heap) (page order : Nat) : Decidable (s.Grants page order) :=
  inferInstanceAs (Decidable (_ ∧ _ ∧ _ ∧ _))

end Heap

-- __slob_get_free_pages
def slobGetFreePages (s : Heap) (order : Nat) : Nat × Heap :=
  match s.supply with
  | some page :: rest =>
      if s.Grants page order then
        (page, { s with supply := rest, out := (page, order) :: s.out })
      else (NULL, { s with supply := rest })
  | none :: rest => (NULL, { s with supply := rest })
  | [] => (NULL, s)

-- __slob_free_pages
def slobFreePages (s : Heap) (kva order : Nat) : Heap :=
  { s with out := s.out.erase (kva, order) }

-- The search of slob_free for the entry to put `b` behind. A search that makes more steps
-- than there are entries does not end.
def freeSearch (s : Heap) (b : Nat) : Nat → Nat → Except Halt Nat
  | 0, _ => .error .hang
  | fuel + 1, cur =>
      if b > cur ∧ b < s.next cur then .ok cur
      else if cur ≥ s.next cur ∧ (b > cur ∨ b < s.next cur) then .ok cur
      else freeSearch s b fuel (s.next cur)

-- The merges of slob_free: `b` with the entry behind it, the entry `cur` with `b`.
def linkNext (s : Heap) (b cur : Nat) : Heap :=
  if b + s.units b * SLOB_UNIT = s.next cur then
    let s := s.setUnits b (s.units b + s.units (s.next cur))
    s.setNext b (s.next (s.next cur))
  else s.setNext b (s.next cur)

def linkPrev (s : Heap) (b cur : Nat) : Heap :=
  if cur + s.units cur * SLOB_UNIT = b then
    let s := s.setUnits cur (s.units cur + s.units b)
    s.setNext cur (s.next b)
  else s.setNext cur b

-- slob_free
def slobFree (s : Heap) (b size : Nat) : Except Halt Heap :=
  if b = NULL then .ok s
  else do
    let s := if size ≠ 0 then s.setUnits b (SLOB_UNITS size) else s
    let cur ← freeSearch s b s.limit s.slobfree
    let s := linkPrev (linkNext s b cur) b cur
    pure { s with slobfree := cur }

-- A block of slob_alloc: all of `cur`, or the first `units` units of it.
def take (s : Heap) (prev cur units : Nat) : Heap :=
  let s :=
    if s.units cur = units then s.setNext prev (s.next cur)
    else
      let s := s.setNext prev (cur + units * SLOB_UNIT)
      let s := s.setUnits (s.next prev) (s.units cur - units)
      let s := s.setNext (s.next prev) (s.next cur)
      s.setUnits cur units
  { s with slobfree := prev }

-- The loop of slob_alloc, for `align` = 0 as all its callers have it.
def allocLoop (size : Nat) : Nat → Heap → Nat → Nat → Except Halt (Nat × Heap)
  | 0, _, _, _ => .error .hang
  | fuel + 1, s, prev, cur =>
      if s.units cur ≥ SLOB_UNITS size then .ok (cur, take s prev cur (SLOB_UNITS size))
      else if cur = s.slobfree then
        if size = PAGE_SIZE then .ok (NULL, s)
        else
          match slobGetFreePages s 0 with
          | (page, s) =>
              if page = NULL then .ok (NULL, s)
              else do
                let s ← slobFree s page PAGE_SIZE
                allocLoop size fuel s s.slobfree (s.next s.slobfree)
      else allocLoop size fuel s cur (s.next cur)

-- slob_alloc
def slobAlloc (s : Heap) (size : Nat) : Except Halt (Nat × Heap) := do
  assert (size + SLOB_UNIT < PAGE_SIZE) "(size + SLOB_UNIT) < PAGE_SIZE"
  allocLoop size (2 * s.limit + 512) s s.slobfree (s.next s.slobfree)

-- find_order, whose argument is an int
def findOrder : Nat → Int → Nat
  | 0, _ => 0
  | fuel + 1, size => if size > 4096 then findOrder fuel (size >>> (1 : Nat)) + 1 else 0

def toInt (size : Nat) : Int := (BitVec.ofNat 32 size).toInt

-- The pages of a big block, whose entry of `bigblocks` is `bb`
def kmallocPages (s : Heap) (bb size : Nat) : Except Halt (Nat × Heap) :=
  let s := s.setOrder bb (findOrder 32 (toInt size))
  match slobGetFreePages s (s.order bb) with
  | (pages, s) =>
      let s := s.setPages bb pages
      if s.pages bb ≠ NULL then
        let s := s.setBigNext bb s.bigblocks
        .ok (s.pages bb, { s with bigblocks := bb })
      else do
        let s ← slobFree s bb SIZEOF_BIGBLOCK
        pure (NULL, s)

-- kmalloc and __kmalloc
def kmalloc (s : Heap) (size : Nat) : Except Halt (Nat × Heap) :=
  if size < PAGE_SIZE - SLOB_UNIT then do
    let (m, s) ← slobAlloc s (size + SLOB_UNIT)
    pure (if m ≠ NULL then m + SLOB_UNIT else NULL, s)
  else do
    let (bb, s) ← slobAlloc s SIZEOF_BIGBLOCK
    if bb = NULL then pure (NULL, s) else kmallocPages s bb size

-- The loop of kfree over the big blocks: the entry for `block`, and the entry before it,
-- if there is one.
def bigSearch (s : Heap) (block : Nat) : Nat → Option Nat → Nat → Except Halt (Option (Option Nat × Nat))
  | 0, _, _ => .error .hang
  | fuel + 1, last, bb =>
      if bb = NULL then .ok none
      else if s.pages bb = block then .ok (some (last, bb))
      else bigSearch s block fuel (some bb) (s.bigNext bb)

-- `*last = bb->next`
def setLast (s : Heap) (last : Option Nat) (v : Nat) : Heap :=
  match last with
  | none => { s with bigblocks := v }
  | some bb => s.setBigNext bb v

-- kfree
def kfree (s : Heap) (block : Nat) : Except Halt Heap :=
  if block = NULL then .ok s
  else do
    let found ← if block % PAGE_SIZE = 0 then bigSearch s block (s.out.length + 1) none s.bigblocks
      else .ok none
    match found with
    | some (last, bb) =>
        let s := setLast s last (s.bigNext bb)
        let s := slobFreePages s block (s.order bb)
        slobFree s bb SIZEOF_BIGBLOCK
    | none => slobFree s (block - SLOB_UNIT) 0

end Ucore.Slob
