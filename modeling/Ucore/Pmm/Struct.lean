import Ucore.Basic

namespace Ucore.Pmm

def KERNBASE : Nat := 0xFFFFFFFFC0200000
def SIZEOF_PAGE : Nat := 72

-- struct Page, as far as the kernel reads it: the bits of `flags` are two fields
-- (PG_reserved and PG_property), `page_link` is in the links of the state.
structure Page where
  ref : Int
  reserved : Bool
  pgProperty : Bool
  property : Nat
  pageLock : Bool
  deriving DecidableEq

-- A list_entry: the head `free_list` of the free area or the `page_link` of a page.
inductive Entry
  | freeList
  | pageLink (page : Nat)
  deriving DecidableEq, Repr

-- The array `pages` (a struct Page pointer is an index into it), the list entries and
-- `nr_free`. The array lies above KERNBASE in a 64-bit address space.
structure FreeArea where
  pages : Nat → Page
  npages : Nat
  fits : KERNBASE + SIZEOF_PAGE * npages ≤ 18446744073709551616
  next : Entry → Entry
  prev : Entry → Entry
  nrFree : Nat

-- Conversion to `unsigned int`.
def toUint (x : Nat) : Nat := x % 4294967296

namespace FreeArea

def deref (s : FreeArea) (p : Nat) : Except Halt Page :=
  if p < s.npages then .ok (s.pages p) else .error .wild

def modify (s : FreeArea) (p : Nat) (f : Page → Page) : FreeArea :=
  { s with pages := Function.update s.pages p (f (s.pages p)) }

def store (s : FreeArea) (p : Nat) (f : Page → Page) : Except Halt FreeArea :=
  if p < s.npages then .ok (s.modify p f) else .error .wild

variable {s : FreeArea} {p q : Nat} {f : Page → Page}

theorem deref_eq (h : p < s.npages) : s.deref p = .ok (s.pages p) := by
  simp [deref, h]

theorem store_eq (f : Page → Page) (h : p < s.npages) : s.store p f = .ok (s.modify p f) := by
  simp [store, h]

@[simp] theorem modify_self : (s.modify p f).pages p = f (s.pages p) := by
  simp [modify]

@[simp] theorem modify_of_ne (h : q ≠ p) : (s.modify p f).pages q = s.pages q := by
  simp [modify, h]

theorem modify_apply :
    (s.modify p f).pages q = if q = p then f (s.pages q) else s.pages q := by
  by_cases h : q = p
  · subst h
    simp
  · simp [h]

@[simp] theorem modify_npages : (s.modify p f).npages = s.npages := by simp only [modify]
@[simp] theorem modify_next : (s.modify p f).next = s.next := by simp only [modify]
@[simp] theorem modify_prev : (s.modify p f).prev = s.prev := by simp only [modify]
@[simp] theorem modify_nrFree : (s.modify p f).nrFree = s.nrFree := by simp only [modify]

end FreeArea

-- list_init
def listInit (s : FreeArea) (elm : Entry) : FreeArea :=
  { s with
    prev := Function.update s.prev elm elm
    next := Function.update s.next elm elm }

-- __list_add, with its four stores in the order in which they are made
def listInsert (s : FreeArea) (elm prev next : Entry) : FreeArea :=
  { s with
    prev := Function.update (Function.update s.prev next elm) elm prev
    next := Function.update (Function.update s.next prev elm) elm next }

-- list_add and list_add_after
def listAdd (s : FreeArea) (listelm elm : Entry) : FreeArea :=
  listInsert s elm listelm (s.next listelm)

def listAddBefore (s : FreeArea) (listelm elm : Entry) : FreeArea :=
  listInsert s elm (s.prev listelm) listelm

-- list_del: __list_del of the two neighbours
def listDel (s : FreeArea) (listelm : Entry) : FreeArea :=
  let prev := s.prev listelm
  let next := s.next listelm
  { s with
    next := Function.update s.next prev next
    prev := Function.update s.prev next prev }

-- list_empty
def listEmpty (s : FreeArea) (list : Entry) : Bool := s.next list = list

-- default_init
def defaultInit (s : FreeArea) : FreeArea :=
  { listInit s .freeList with nrFree := 0 }

-- The loop over the pages of a block: each is checked and written.
def initBlock (ok : Page → Bool) (text : String) (f : Page → Page) (s : FreeArea) (p : Nat) :
    Nat → Except Halt FreeArea
  | 0 => .ok s
  | n + 1 => do
      let page ← s.deref p
      assert (ok page) text
      let s ← s.store p f
      initBlock ok text f s (p + 1) n

-- The loop that puts `base` into the free list, in default_init_memmap and in
-- default_free_pages. There is no break behind the list_add; a scan that makes more
-- steps than there are entries is in a cycle that it does not change.
def insertLoop (base : Nat) : Nat → FreeArea → Entry → Except Halt FreeArea
  | 0, _, _ => .error .hang
  | fuel + 1, s, le =>
      match s.next le with
      | .freeList => .ok s
      | .pageLink page =>
          let le := Entry.pageLink page
          if base < page then
            .ok (listAddBefore s le (.pageLink base))
          else if s.next le = .freeList then
            insertLoop base fuel (listAdd s le (.pageLink base)) le
          else
            insertLoop base fuel s le

def insertBlock (s : FreeArea) (base : Nat) : Except Halt FreeArea :=
  if listEmpty s .freeList then
    .ok (listAdd s .freeList (.pageLink base))
  else
    insertLoop base (s.npages + 3) s .freeList

-- `base->property = n; SetPageProperty(base); nr_free += n;`
def setHead (s : FreeArea) (base n : Nat) : Except Halt FreeArea := do
  let s ← s.store base fun page => { page with property := toUint n, pgProperty := true }
  pure { s with nrFree := toUint (s.nrFree + n) }

-- default_init_memmap
def defaultInitMemmap (s : FreeArea) (base n : Nat) : Except Halt FreeArea := do
  assert (n > 0) "n > 0"
  let s ← initBlock (fun page => page.reserved) "PageReserved(p)"
    (fun page => { page with
      reserved := false, pgProperty := false, property := 0, ref := 0, pageLock := false })
    s base n
  let s ← setHead s base n
  insertBlock s base

-- The search of default_alloc_pages: the first block of at least `n` pages.
def findBlock (s : FreeArea) (n : Nat) : Nat → Entry → Except Halt (Option Nat)
  | 0, _ => .error .hang
  | fuel + 1, le =>
      match s.next le with
      | .freeList => .ok none
      | .pageLink p => do
          let page ← s.deref p
          if page.property ≥ n then pure (some p) else findBlock s n fuel (.pageLink p)

-- default_alloc_pages
def defaultAllocPages (s : FreeArea) (n : Nat) : Except Halt (Option Nat × FreeArea) := do
  assert (n > 0) "n > 0"
  if n > s.nrFree then
    pure (none, s)
  else
    match ← findBlock s n (s.npages + 1) .freeList with
    | none => pure (none, s)
    | some page =>
        let prev := s.prev (.pageLink page)
        let s := listDel s (.pageLink page)
        let block ← s.deref page
        let s ← if block.property > n then do
            let p := page + n
            let s ← s.store p fun q =>
              { q with property := toUint (block.property - n), pgProperty := true }
            pure (listAdd s prev (.pageLink p))
          else pure s
        let s := { s with nrFree := toUint (s.nrFree + 4294967296 - n) }
        let s ← s.store page fun q => { q with pgProperty := false }
        pure (some page, s)

-- The merge of `base` with the block before it; the head of the block it is part of then.
def mergePrev (s : FreeArea) (base : Nat) : Except Halt (Nat × FreeArea) :=
  match s.prev (.pageLink base) with
  | .freeList => pure (base, s)
  | .pageLink p => do
      let page ← s.deref p
      if p + page.property = base then
        let block ← s.deref base
        let s ← s.store p fun q => { q with property := toUint (q.property + block.property) }
        let s ← s.store base fun q => { q with pgProperty := false }
        pure (p, listDel s (.pageLink base))
      else pure (base, s)

-- The merge of `base` with the block behind it.
def mergeNext (s : FreeArea) (base : Nat) : Except Halt FreeArea :=
  match s.next (.pageLink base) with
  | .freeList => pure s
  | .pageLink p => do
      let block ← s.deref base
      if base + block.property = p then
        let page ← s.deref p
        let s ← s.store base fun q => { q with property := toUint (q.property + page.property) }
        let s ← s.store p fun q => { q with pgProperty := false }
        pure (listDel s (.pageLink p))
      else pure s

-- default_free_pages
def defaultFreePages (s : FreeArea) (base n : Nat) : Except Halt FreeArea := do
  assert (n > 0) "n > 0"
  let s ← initBlock (fun page => !page.reserved && !page.pgProperty)
    "!PageReserved(p) && !PageProperty(p)"
    (fun page => { page with reserved := false, pgProperty := false, ref := 0, pageLock := false })
    s base n
  let s ← setHead s base n
  let s ← insertBlock s base
  let (base, s) ← mergePrev s base
  mergeNext s base

end Ucore.Pmm
