import Ucore.Mm.Struct

namespace Ucore.Mm.PageInit

open Lib Pmm

def PHYSICAL_MEMORY_OFFSET : Nat := 0xFFFFFFFF40000000
def KMEMSIZE : Nat := 0x7E00000
def KERNTOP : Nat := KERNBASE + KMEMSIZE
def DRAM_BASE : Nat := 0x80000000
def PGSHIFT : Nat := 12

-- The difference of two 64-bit words
def sub64 (x y : Nat) : Nat := u64 (x + (18446744073709551616 - y))

-- The globals of pmm.c: a struct Page pointer is an index into the array at `pages`.
structure Globals where
  npage : Nat
  pages : Nat
  vaPaOffset : Nat

section Macros

variable (g : Globals)

def PADDR (kva : Nat) : Except Halt Nat :=
  if kva < KERNBASE then .error (.panic "PADDR called with invalid kva")
  else .ok (sub64 kva g.vaPaOffset)

def KADDR (pa : Nat) : Except Halt Nat :=
  if PPN pa ≥ g.npage then .error (.panic "KADDR called with invalid pa")
  else .ok (u64 (pa + g.vaPaOffset))

def page2ppn (page : Nat) : Nat := u64 (page + nbase)

def page2pa (page : Nat) : Nat := u64 (page2ppn page <<< PGSHIFT)

def pa2page (pa : Nat) : Except Halt Nat :=
  if PPN pa ≥ g.npage then .error (.panic "pa2page called with invalid pa")
  else .ok (sub64 (PPN pa) nbase)

def page2kva (page : Nat) : Except Halt Nat := KADDR g (page2pa page)

def kva2page (kva : Nat) : Except Halt Nat := do
  let pa ← PADDR g kva
  pa2page g pa

end Macros

-- The loop of SetPageReserved over the first `n` entries of the array
def reservePages (s : FreeArea) (n : Nat) : Except Halt FreeArea :=
  initBlock (fun _ => true) "" (fun page => { page with reserved := true }) s 0 n

-- `init_memmap(pa2page(mem_begin), (mem_end - mem_begin) / PGSIZE)`, and what it was called with
def initMemmap (g : Globals) (memBegin memEnd : Nat) (s : FreeArea) :
    Except Halt (Globals × FreeArea × Option (Nat × Nat)) := do
  let page ← pa2page g memBegin
  let n := sub64 memEnd memBegin / PGSIZE
  let s ← defaultInitMemmap s page n
  pure (g, s, some (page, n))

-- page_init, with the address of the symbol `end` and the report of the device tree. The
-- last component is the call of init_memmap that it makes.
def pageInit (endSym memBegin memSize : Nat) (s : FreeArea) :
    Except Halt (Globals × FreeArea × Option (Nat × Nat)) := do
  if memSize = 0 then .error (.panic "DTB memory info not available")
  else
    let memEnd := u64 (memBegin + memSize)
    let maxpa := if memEnd > KERNTOP then KERNTOP else memEnd
    let g : Globals :=
      { npage := maxpa / PGSIZE
        pages := ROUNDUP endSym PGSIZE
        vaPaOffset := PHYSICAL_MEMORY_OFFSET }
    let s ← reservePages s (sub64 g.npage nbase)
    let freemem ← PADDR g (u64 (g.pages + SIZEOF_PAGE * sub64 g.npage nbase))
    let memBegin := ROUNDUP freemem PGSIZE
    let memEnd := ROUNDDOWN memEnd PGSIZE
    if freemem < memEnd then initMemmap g memBegin memEnd s else pure (g, s, none)

-- A page that the allocator can use: behind the array, in the memory, in the array, and
-- with a kernel address that leads back to it.
structure Usable (g : Globals) (memSize page : Nat) : Prop where
  behind : g.pages + SIZEOF_PAGE * (g.npage - nbase) ≤ page2pa page + PHYSICAL_MEMORY_OFFSET
  inside : page2pa page + PGSIZE ≤ DRAM_BASE + memSize
  index : page < g.npage - nbase
  mapped : ∃ kva, page2kva g page = .ok kva ∧ KERNBASE ≤ kva ∧ kva2page g kva = .ok page

-- page_init returns, and hands out nothing but usable pages.
def Sound (endSym memSize : Nat) (s : FreeArea) : Prop :=
  ∃ g s' handed, pageInit endSym DRAM_BASE memSize (defaultInit s) = .ok (g, s', handed) ∧
    ∀ base n, handed = some (base, n) → ∀ page, base ≤ page → page < base + n → Usable g memSize page

-- The physical addresses at which the array of the pages ends, and the last whole page
def arrayEnd (endSym memSize : Nat) : Nat :=
  ROUNDUP endSym PGSIZE + SIZEOF_PAGE * (memSize / PGSIZE) - PHYSICAL_MEMORY_OFFSET

def lastEnd (memSize : Nat) : Nat := DRAM_BASE + memSize / PGSIZE * PGSIZE

-- The addresses from here on have no place behind the offset.
def TOP : Nat := 18446744073709551616 - PHYSICAL_MEMORY_OFFSET

-- There is a whole page behind the array and the memory ends below `TOP`, or the array
-- ends in the part of the memory that is no whole page, and below `TOP`.
def Clear (endSym memSize : Nat) : Prop :=
  (arrayEnd endSym memSize + PGSIZE ≤ lastEnd memSize ∧ lastEnd memSize ≤ TOP) ∨
    (lastEnd memSize ≤ arrayEnd endSym memSize ∧ arrayEnd endSym memSize < TOP)

instance (endSym memSize : Nat) : Decidable (Clear endSym memSize) :=
  inferInstanceAs (Decidable (_ ∨ _))

variable {s t : FreeArea} {g : Globals} {n p endSym memSize : Nat}

theorem PPN_eq (pa : Nat) : PPN pa = pa / 4096 := Nat.shiftRight_eq_div_pow pa 12

theorem page2pa_eq (h : p + nbase < 4503599627370496) : page2pa p = (p + nbase) * 4096 := by
  unfold page2pa page2ppn u64 PGSHIFT
  rw [Nat.shiftLeft_eq]
  omega

theorem defaultInit_eq (hnext : t.next .freeList = .freeList) (hprev : t.prev .freeList = .freeList)
    (hnr : t.nrFree = 0) : defaultInit t = t := by
  have hn : Function.update t.next .freeList .freeList = t.next := by
    rw [Function.update_eq_self_iff, hnext]
  have hp : Function.update t.prev .freeList .freeList = t.prev := by
    rw [Function.update_eq_self_iff, hprev]
  simp only [defaultInit, listInit, hn, hp, ← hnr]

theorem reservePages_spec (h : n ≤ s.npages) :
    ∃ t, reservePages (defaultInit s) n = .ok (defaultInit t) ∧ t.npages = s.npages ∧
      ∀ p, p < n → (t.pages p).reserved = true := by
  have hbound : 0 + n ≤ (defaultInit s).npages := by
    rw [Nat.zero_add]
    exact h
  have hblock := @initBlock_spec (defaultInit s) 0 n (fun _ => true)
    "" (fun page => { page with reserved := true }) hbound fun _ _ _ => rfl
  obtain ⟨t, ht, hnp, hnext, hprev, hnr, hpages⟩ := hblock
  have hlist : t.next .freeList = .freeList ∧ t.prev .freeList = .freeList ∧ t.nrFree = 0 := by
    rw [hnext, hprev, hnr]
    simp [defaultInit, listInit]
  have hself := defaultInit_eq hlist.1 hlist.2.1 hlist.2.2
  refine ⟨t, by rw [hself]; exact ht, hnp, fun p hp => ?_⟩
  rw [hpages p, if_pos (by omega)]

theorem initBlock_wild {ok : Page → Bool} {text : String} {f : Page → Page} {base : Nat}
    (hok : ∀ p, ok p = true) (hb : base ≤ s.npages) (h : s.npages < base + n) :
    initBlock ok text f s base n = .error .wild := by
  induction n generalizing base s with
  | zero => omega
  | succ n ih =>
      by_cases hlt : base < s.npages
      · simp only [initBlock, FreeArea.deref_eq hlt, ok_bind, hok, assert_true, FreeArea.store_eq f hlt]
        apply ih
        · rw [FreeArea.modify_npages]
          omega
        · rw [FreeArea.modify_npages]
          omega
      · simp [initBlock, FreeArea.deref, hlt]

theorem ROUNDUP_bounds {a : Nat} (h : a ≤ 18446744073709547520) :
    ROUNDUP a PGSIZE % 4096 = 0 ∧ a ≤ ROUNDUP a PGSIZE ∧ ROUNDUP a PGSIZE < a + 4096 := by
  unfold ROUNDUP ROUNDDOWN u64 PGSIZE
  omega

variable {P N F : Nat}

theorem pageInit_eq (hpages : ROUNDUP endSym PGSIZE = P) (hbase : KERNBASE ≤ P) (hsize : memSize ≠ 0)
    (hmax : DRAM_BASE + memSize ≤ KERNTOP) (hN : memSize / PGSIZE = N)
    (hF : F + PHYSICAL_MEMORY_OFFSET = P + SIZEOF_PAGE * N)
    (htop : P + SIZEOF_PAGE * N < 18446744073709551616) (ht : reservePages s N = .ok t) :
    pageInit endSym DRAM_BASE memSize s =
      if F < lastEnd memSize then
        initMemmap ⟨nbase + N, P, PHYSICAL_MEMORY_OFFSET⟩ (ROUNDUP F PGSIZE) (lastEnd memSize) t
      else .ok (⟨nbase + N, P, PHYSICAL_MEMORY_OFFSET⟩, t, none) := by
  have hend : u64 (DRAM_BASE + memSize) = DRAM_BASE + memSize := by
    unfold KERNTOP KERNBASE KMEMSIZE DRAM_BASE u64 at *
    omega
  have hnpage : (DRAM_BASE + memSize) / PGSIZE = nbase + N := by
    unfold DRAM_BASE nbase PGSIZE at *
    omega
  have hcount : sub64 (nbase + N) nbase = N := by
    unfold sub64 u64 nbase SIZEOF_PAGE at *
    omega
  have harray : u64 (P + SIZEOF_PAGE * N) = P + SIZEOF_PAGE * N := by
    unfold u64
    omega
  have hlow : ¬P + SIZEOF_PAGE * N < KERNBASE := by omega
  have haddr : PADDR ⟨nbase + N, P, PHYSICAL_MEMORY_OFFSET⟩ (P + SIZEOF_PAGE * N) = .ok F := by
    have hsub : sub64 (P + SIZEOF_PAGE * N) PHYSICAL_MEMORY_OFFSET = F := by
      unfold sub64 u64 PHYSICAL_MEMORY_OFFSET at *
      omega
    unfold PADDR
    rw [if_neg hlow, hsub]
  have hlast : ROUNDDOWN (DRAM_BASE + memSize) PGSIZE = lastEnd memSize := by
    unfold ROUNDDOWN lastEnd DRAM_BASE PGSIZE
    omega
  unfold pageInit
  rw [if_neg hsize]
  simp only [hend, if_neg (not_lt.mpr hmax), hnpage, hcount, hpages, ht, ok_bind, harray, haddr, hlast,
    pure_eq_ok]

-- The number of entries that page_init counts
def entries (memSize : Nat) : Nat :=
  let memEnd := u64 (DRAM_BASE + memSize)
  sub64 ((if memEnd > KERNTOP then KERNTOP else memEnd) / PGSIZE) nbase

-- The memory has no place for an array of as many entries.
theorem pageInit_wild (endSym : Nat) (s : FreeArea) (hsize : memSize ≠ 0) (hmany : s.npages < entries memSize) :
    pageInit endSym DRAM_BASE memSize s = .error .wild := by
  have hwild : reservePages s (entries memSize) = .error .wild :=
    initBlock_wild (fun _ => rfl) (Nat.zero_le _) (by omega)
  unfold entries at hwild
  simp only at hwild
  simp only [pageInit, if_neg hsize, hwild, error_bind]

theorem entries_eq (hmax : DRAM_BASE + memSize ≤ KERNTOP) : entries memSize = memSize / PGSIZE := by
  have hend : u64 (DRAM_BASE + memSize) = DRAM_BASE + memSize := by
    unfold KERNTOP KERNBASE KMEMSIZE DRAM_BASE u64 at *
    omega
  unfold entries
  simp only [hend, if_neg (not_lt.mpr hmax)]
  unfold sub64 u64 DRAM_BASE nbase PGSIZE KERNTOP KERNBASE KMEMSIZE at *
  omega

-- The clamp, or a sum that wraps around, leaves more entries than addresses.
theorem entries_many (hmax : KERNTOP < DRAM_BASE + memSize) (hlt : memSize < 18446744073709551616) :
    1073741824 < entries memSize := by
  have hcases : u64 (DRAM_BASE + memSize) > KERNTOP ∨ u64 (DRAM_BASE + memSize) < DRAM_BASE := by
    unfold u64 DRAM_BASE KERNTOP KERNBASE KMEMSIZE at *
    omega
  have hvalue : DRAM_BASE < KERNTOP := by decide
  unfold entries
  rcases hcases with hover | hwrap
  · simp only [if_pos hover]
    decide
  · simp only [if_neg (show ¬u64 (DRAM_BASE + memSize) > KERNTOP by omega)]
    generalize u64 (DRAM_BASE + memSize) = memEnd at hwrap
    unfold sub64 u64 DRAM_BASE nbase PGSIZE at *
    omega

-- The array ends at the address 2^64, which is 0.
theorem pageInit_top (hpages : ROUNDUP endSym PGSIZE = P) (hsize : memSize ≠ 0)
    (hmax : DRAM_BASE + memSize ≤ KERNTOP) (htop : P + SIZEOF_PAGE * (memSize / PGSIZE) = 18446744073709551616)
    (ht : reservePages s (memSize / PGSIZE) = .ok t) :
    pageInit endSym DRAM_BASE memSize s = .error (.panic "PADDR called with invalid kva") := by
  have hcount := entries_eq hmax
  unfold entries at hcount
  simp only at hcount
  have hzero : u64 (P + SIZEOF_PAGE * (memSize / PGSIZE)) = 0 := by
    rw [htop]
    rfl
  have hlow : 0 < KERNBASE := by decide
  unfold pageInit
  rw [if_neg hsize]
  simp only [hcount, hpages, ht, ok_bind, hzero, PADDR, if_pos hlow, error_bind]

-- What page_init is given: the image ends above KERNBASE, and it and the array of the
-- pages fit into the memory. There are as many entries as the addresses behind `pages`
-- have place for.
structure Report (endSym memSize : Nat) (s : FreeArea) : Prop where
  above : KERNBASE ≤ endSym
  below : endSym ≤ 18446744073709547520
  size : memSize < 18446744073709551616
  fits : ROUNDUP endSym PGSIZE + SIZEOF_PAGE * (memSize / PGSIZE) ≤
    DRAM_BASE + memSize + PHYSICAL_MEMORY_OFFSET
  room : s.npages = (18446744073709551616 - ROUNDUP endSym PGSIZE) / SIZEOF_PAGE

-- A page below `TOP` has a kernel address, and it leads back.
theorem usable (hF : F + PHYSICAL_MEMORY_OFFSET = P + SIZEOF_PAGE * N) (hbase : KERNBASE ≤ P)
    (hlo : F ≤ (p + nbase) * 4096) (hhi : p < N) (hN : memSize / PGSIZE = N) (htop : lastEnd memSize ≤ TOP) :
    Usable ⟨nbase + N, P, PHYSICAL_MEMORY_OFFSET⟩ memSize p := by
  have hcount : nbase + N - nbase = N := by omega
  have hlast : (p + nbase) * 4096 + 4096 ≤ lastEnd memSize := by
    unfold lastEnd
    rw [hN]
    unfold DRAM_BASE PGSIZE nbase
    omega
  have hlt : (p + nbase) * 4096 + 4096 ≤ 3221225472 := hlast.trans htop
  have hpa : page2pa p = (p + nbase) * 4096 := page2pa_eq (by omega)
  have hppn : PPN ((p + nbase) * 4096) = p + nbase := by
    rw [PPN_eq]
    omega
  have hkva : u64 ((p + nbase) * 4096 + PHYSICAL_MEMORY_OFFSET) =
      (p + nbase) * 4096 + PHYSICAL_MEMORY_OFFSET := by
    unfold u64 PHYSICAL_MEMORY_OFFSET
    omega
  have hback : sub64 ((p + nbase) * 4096 + PHYSICAL_MEMORY_OFFSET) PHYSICAL_MEMORY_OFFSET =
      (p + nbase) * 4096 := by
    unfold sub64 u64 PHYSICAL_MEMORY_OFFSET
    omega
  have hindex : sub64 (p + nbase) nbase = p := by
    unfold sub64 u64 nbase
    omega
  have habove : KERNBASE ≤ (p + nbase) * 4096 + PHYSICAL_MEMORY_OFFSET := by omega
  have hin : ¬p + nbase ≥ nbase + N := by omega
  refine ⟨?_, ?_, ?_, (p + nbase) * 4096 + PHYSICAL_MEMORY_OFFSET, ?_, habove, ?_⟩
  · show P + SIZEOF_PAGE * (nbase + N - nbase) ≤ _
    rw [hcount, hpa, ← hF]
    exact Nat.add_le_add_right hlo _
  · rw [hpa]
    have hmem := Nat.div_mul_le_self memSize PGSIZE
    exact hlast.trans (Nat.add_le_add_left hmem DRAM_BASE)
  · show p < nbase + N - nbase
    rw [hcount]
    exact hhi
  · unfold page2kva KADDR
    rw [hpa, hppn, if_neg hin, hkva]
  · unfold kva2page PADDR pa2page
    rw [if_neg (not_lt.mpr habove), hback, ok_bind, hppn, if_neg hin, hindex]

-- The first whole page behind the array, and the pages from there to the last one
theorem initMemmap_eq (hN : memSize / PGSIZE = N) (hmax : lastEnd memSize ≤ 18446744073709547520)
    (hdram : DRAM_BASE ≤ F) (hF : F + PGSIZE ≤ lastEnd memSize) (va : Nat) :
    ∃ b n, initMemmap ⟨nbase + N, P, va⟩ (ROUNDUP F PGSIZE) (lastEnd memSize) t =
      (do let s ← defaultInitMemmap t b n
          pure (⟨nbase + N, P, va⟩, s, some (b, n))) ∧
      0 < n ∧ b + n = N ∧ F ≤ (b + nbase) * 4096 := by
  have hlast : lastEnd memSize = (nbase + N) * 4096 := by
    unfold lastEnd
    rw [hN]
    unfold DRAM_BASE PGSIZE nbase
    omega
  have hpage : PGSIZE = 4096 := rfl
  have hdram' : DRAM_BASE = nbase * 4096 := rfl
  obtain ⟨hmod, hlo, hhi⟩ := ROUNDUP_bounds (a := F) (by omega)
  generalize ROUNDUP F PGSIZE = B at *
  obtain ⟨b, rfl⟩ : ∃ b, B = (b + nbase) * 4096 := ⟨B / 4096 - nbase, by omega⟩
  refine ⟨b, N - b, ?_, by omega, by omega, hlo⟩
  have hppn : PPN ((b + nbase) * 4096) = b + nbase := by
    rw [PPN_eq]
    omega
  have hin : ¬b + nbase ≥ nbase + N := by omega
  have hindex : sub64 (b + nbase) nbase = b := by
    unfold sub64 u64 nbase
    omega
  have hcount : sub64 ((nbase + N) * 4096) ((b + nbase) * 4096) / PGSIZE = N - b := by
    rw [hpage]
    unfold sub64 u64
    omega
  rw [hlast]
  unfold initMemmap pa2page
  rw [hppn, if_neg hin, ok_bind, hindex]
  simp only [hcount]

-- The array ends in the last whole page: there is no first page behind it.
theorem initMemmap_panic (hN : memSize / PGSIZE = N) (hmax : lastEnd memSize ≤ 18446744073709547520)
    (hlt : F < lastEnd memSize) (hF : lastEnd memSize < F + PGSIZE) (va : Nat) :
    initMemmap ⟨nbase + N, P, va⟩ (ROUNDUP F PGSIZE) (lastEnd memSize) t =
      .error (.panic "pa2page called with invalid pa") := by
  have hlast : lastEnd memSize = (nbase + N) * 4096 := by
    unfold lastEnd
    rw [hN]
    unfold DRAM_BASE PGSIZE nbase
    omega
  have hpage : PGSIZE = 4096 := rfl
  obtain ⟨hmod, hlo, hhi⟩ := ROUNDUP_bounds (a := F) (by omega)
  generalize ROUNDUP F PGSIZE = B at *
  obtain rfl : B = (nbase + N) * 4096 := by omega
  have hppn : PPN ((nbase + N) * 4096) = nbase + N := by
    rw [PPN_eq]
    omega
  unfold initMemmap pa2page
  rw [hppn, if_pos le_rfl]
  rfl

-- The addresses of a report: the array begins at `P`, has `N` entries and ends at `F`.
theorem Report.values (h : Report endSym memSize s) :
    ∃ P N F, ROUNDUP endSym PGSIZE = P ∧ KERNBASE ≤ P ∧ P ≤ 18446744073709551616 ∧
      memSize / PGSIZE = N ∧
      arrayEnd endSym memSize = F ∧ F + PHYSICAL_MEMORY_OFFSET = P + SIZEOF_PAGE * N ∧
      DRAM_BASE ≤ F ∧ F ≤ DRAM_BASE + memSize ∧ memSize ≠ 0 ∧
      s.npages = (18446744073709551616 - P) / SIZEOF_PAGE := by
  obtain ⟨_, hlo, hhi⟩ := ROUNDUP_bounds h.below
  have hbelow := h.below
  have hbase := h.above.trans hlo
  have hfits := h.fits
  have hroom := h.room
  have hdram : KERNBASE = DRAM_BASE + PHYSICAL_MEMORY_OFFSET + 2097152 := rfl
  unfold arrayEnd
  generalize ROUNDUP endSym PGSIZE = P at *
  generalize hN : memSize / PGSIZE = N at *
  refine ⟨P, N, _, rfl, hbase, ?_, rfl, rfl, ?_, ?_, ?_, ?_, hroom⟩
  · omega
  · omega
  · omega
  · omega
  · rintro rfl
    omega

theorem sound_of_clear (h : Report endSym memSize s) (hclear : Clear endSym memSize) :
    Sound endSym memSize s := by
  obtain ⟨P, N, F, hpages, hbase, hplace, hN, hend, hF, hdram, hfits, hsize, hroom⟩ := h.values
  unfold Clear at hclear
  rw [hend] at hclear
  have htop : TOP + PHYSICAL_MEMORY_OFFSET = 18446744073709551616 := rfl
  have hpage : PGSIZE = 4096 := rfl
  have hlast : lastEnd memSize = DRAM_BASE + N * 4096 := by
    unfold lastEnd
    rw [hN, hpage]
  have hmem : memSize < N * 4096 + 4096 := by
    rw [← hN, hpage]
    omega
  have hbelow : F < TOP := by omega
  have hmax : DRAM_BASE + memSize ≤ KERNTOP := by
    have hvalue : TOP + 4096 ≤ KERNTOP := by decide
    omega
  have hentries : N ≤ s.npages := by
    rw [hroom, Nat.le_div_iff_mul_le (by decide), Nat.mul_comm]
    omega
  obtain ⟨t, ht, hnp, hreserved⟩ := reservePages_spec hentries
  have hrun := pageInit_eq hpages hbase hsize hmax hN hF (by omega) ht
  rcases hclear with ⟨hle, hlim⟩ | ⟨hle, _⟩
  · have hvalue : TOP ≤ 18446744073709547520 := by decide
    obtain ⟨b, n, hinit, hn, hsum, hlo⟩ := initMemmap_eq (P := P) (t := defaultInit t) hN
      (hlim.trans hvalue) hdram hle PHYSICAL_MEMORY_OFFSET
    have hbound : b + n ≤ t.npages := by omega
    obtain ⟨u, hu, _⟩ := defaultInitMemmap_spec hn hbound fun p _ hp => hreserved p (by omega)
    refine ⟨⟨nbase + N, P, PHYSICAL_MEMORY_OFFSET⟩, u, some (b, n), ?_,
      fun base m he page hfrom hto => ?_⟩
    · rw [hrun, if_pos (by omega), hinit, hu]
      simp only [ok_bind, pure_eq_ok]
    · obtain ⟨rfl, rfl⟩ := Prod.mk.inj (Option.some.inj he)
      refine usable hF hbase ?_ (by omega) hN hlim
      exact hlo.trans (Nat.mul_le_mul_right 4096 (Nat.add_le_add_right hfrom nbase))
  · refine ⟨⟨nbase + N, P, PHYSICAL_MEMORY_OFFSET⟩, defaultInit t, none, ?_,
      fun base n he => by cases he⟩
    rw [hrun, if_neg (by omega)]

-- Above `TOP` the kernel address of a page wraps around.
theorem not_usable (hp : p + nbase < 4503599627370496) (hlo : TOP ≤ (p + nbase) * 4096)
    (hhi : (p + nbase) * 4096 ≤ KERNTOP) :
    ¬Usable ⟨nbase + N, P, PHYSICAL_MEMORY_OFFSET⟩ memSize p := by
  rintro ⟨_, _, _, kva, hkva, habove, _⟩
  have hwrap : u64 ((p + nbase) * 4096 + PHYSICAL_MEMORY_OFFSET) = (p + nbase) * 4096 - TOP := by
    unfold TOP KERNTOP KERNBASE KMEMSIZE PHYSICAL_MEMORY_OFFSET u64 at *
    omega
  unfold page2kva KADDR at hkva
  rw [page2pa_eq hp] at hkva
  split at hkva
  · cases hkva
  · have hval := Except.ok.inj hkva
    rw [hwrap] at hval
    have hlow : KERNTOP < KERNBASE + TOP := by decide
    omega

theorem clear_of_sound (h : Report endSym memSize s) (hsound : Sound endSym memSize s) :
    Clear endSym memSize := by
  obtain ⟨P, N, F, hpages, hbase, hplace, hN, hend, hF, hdram, hfits, hsize, hroom⟩ := h.values
  obtain ⟨g, u, handed, hrun, husable⟩ := hsound
  unfold Clear
  rw [hend]
  have htop : TOP + PHYSICAL_MEMORY_OFFSET = 18446744073709551616 := rfl
  have hpage : PGSIZE = 4096 := rfl
  have hlast : lastEnd memSize = DRAM_BASE + N * 4096 := by
    unfold lastEnd
    rw [hN, hpage]
  have hentries : s.npages < 1073741824 := by
    rw [hroom, Nat.div_lt_iff_lt_mul (by decide)]
    unfold KERNBASE SIZEOF_PAGE at *
    omega
  -- otherwise there are more entries than addresses
  have hmax : DRAM_BASE + memSize ≤ KERNTOP := by
    by_contra hmax
    have hmany := entries_many (not_le.mp hmax) h.size
    have hwild := pageInit_wild endSym (defaultInit s) hsize (hentries.trans hmany)
    rw [hwild] at hrun
    cases hrun
  have hfew : N ≤ s.npages := by
    by_contra hfew
    have hwild := pageInit_wild endSym (defaultInit s) hsize (by
      rw [entries_eq hmax, hN]
      exact not_le.mp hfew)
    rw [hwild] at hrun
    cases hrun
  obtain ⟨t, ht, _⟩ := reservePages_spec hfew
  have hle : P + SIZEOF_PAGE * N ≤ 18446744073709551616 := by
    rw [hroom, Nat.le_div_iff_mul_le (by decide), Nat.mul_comm] at hfew
    omega
  have hlt : P + SIZEOF_PAGE * N < 18446744073709551616 := by
    refine lt_of_le_of_ne hle fun he => ?_
    rw [pageInit_top hpages hsize hmax (by rw [hN]; exact he) (by rw [hN]; exact ht)] at hrun
    cases hrun
  rw [pageInit_eq hpages hbase hsize hmax hN hF hlt ht] at hrun
  have hvalue : KERNTOP ≤ 18446744073709547520 := by decide
  have hmem := Nat.div_mul_le_self memSize PGSIZE
  rw [hN, hpage] at hmem
  by_cases hin : F < lastEnd memSize
  · rw [if_pos hin] at hrun
    have hpart : F + PGSIZE ≤ lastEnd memSize := by
      by_contra hpart
      rw [initMemmap_panic hN (by omega) hin (not_le.mp hpart)] at hrun
      cases hrun
    refine Or.inl ⟨hpart, ?_⟩
    by_contra hhigh
    obtain ⟨b, n, hinit, hn, hsum, hlo⟩ := initMemmap_eq (P := P) (t := defaultInit t) hN (by omega)
      hdram hpart PHYSICAL_MEMORY_OFFSET
    rw [hinit] at hrun
    obtain ⟨v, _, hrun⟩ := bind_eq_ok.mp hrun
    cases hrun
    have hbase' : DRAM_BASE = nbase * 4096 := rfl
    have htop' : TOP = 786432 * 4096 := rfl
    have hpa : (N - 1 + nbase) * 4096 + 4096 = lastEnd memSize := by omega
    have hend' : lastEnd memSize ≤ KERNTOP := by omega
    refine not_usable ?_ ?_ ?_ (husable b n rfl (N - 1) (by omega) (by omega))
    · omega
    · omega
    · calc
        (N - 1 + nbase) * 4096 ≤ (N - 1 + nbase) * 4096 + 4096 := Nat.le_add_right _ _
        _ = lastEnd memSize := hpa
        _ ≤ KERNTOP := hend'
  · exact Or.inr ⟨by omega, by omega⟩

-- page_init hands out usable pages alone, and does not panic, exactly when the addresses
-- are `Clear`.
theorem page_init_exact (h : Report endSym memSize s) : Sound endSym memSize s ↔ Clear endSym memSize :=
  ⟨clear_of_sound h, sound_of_clear h⟩

-- A kernel of 2 MB, with as many entries as there is place for
def bootArea : FreeArea where
  pages := fun _ => ⟨0, false, false, 0, false⟩
  npages := 14854826
  fits := by decide
  next := id
  prev := id
  nrFree := 0

theorem bootReport (hlo : 4272128 ≤ memSize) (hhi : memSize < 18446744073709551616) :
    Report 0xFFFFFFFFC0400000 memSize bootArea where
  above := by decide
  below := by decide
  size := hhi
  fits := by
    have hround : ROUNDUP 0xFFFFFFFFC0400000 PGSIZE = 0xFFFFFFFFC0400000 := by decide
    rw [hround]
    unfold SIZEOF_PAGE PGSIZE DRAM_BASE PHYSICAL_MEMORY_OFFSET
    omega
  room := by decide

-- The 128 MB of the emulator
theorem page_init_default : Sound 0xFFFFFFFFC0400000 134217728 bootArea :=
  (page_init_exact (bootReport (by decide) (by decide))).mpr (by decide)

-- With 2 GB there are pages whose kernel address is near 0, and with 4172 KB the array ends
-- in the last page.
theorem page_init_wraps :
    ¬(∀ endSym memSize s, Report endSym memSize s → Sound endSym memSize s) ∧
      pageInit 0xFFFFFFFFC0400000 DRAM_BASE 4272128 (defaultInit bootArea) =
        .error (.panic "pa2page called with invalid pa") := by
  constructor
  · intro hall
    have hclear := clear_of_sound (bootReport (by decide) (by decide))
      (hall 0xFFFFFFFFC0400000 0x80000000 bootArea (bootReport (by decide) (by decide)))
    exact absurd hclear (by decide)
  · have hfew : 1043 ≤ bootArea.npages := by decide
    obtain ⟨t, ht, _⟩ := reservePages_spec hfew
    rw [pageInit_eq (P := 0xFFFFFFFFC0400000) (N := 1043) (F := 0x80412558) (by decide) (by decide)
      (by decide) (by decide) (by decide) (by decide) (by decide) ht, if_pos (by decide)]
    exact initMemmap_panic (by decide) (by decide) (by decide) (by decide) _

end Ucore.Mm.PageInit
