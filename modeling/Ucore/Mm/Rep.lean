import Ucore.Lib.Count
import Ucore.Lib.InTurn
import Ucore.Lib.Log
import Ucore.Mm.Tree

namespace Ucore.Mm

open Lib Pmm

-- The frame that page `x.2` of the root `x.1` is mapped to
def frameAt (mem : Nat → Words) (role : Nat → Role) (x : Nat × Nat) : Option Nat :=
  if role x.1 = .root then (leaf mem x.1 x.2).map Leaf.frame else none

-- How many leaves map the frame `f`
def refs (managed : Finset Nat) (mem : Nat → Words) (role : Nat → Role) (f : Nat) : Nat :=
  count (managed ×ˢ Finset.range UPAGES) (frameAt mem role) f

-- The tables, with these uses of the pages
structure Tables (vm : VM) (role : Nat → Role) : Prop where
  tree : Tree vm.mem role
  bound : ∀ {p}, role p ≠ .other → p < vm.area.npages

-- The tables and the free list
structure Base (vm : VM) (managed : Finset Nat) (role : Nat → Role) : Prop where
  tree : Tree vm.mem role
  list : ∃ free l, FreeList vm.area managed free l ∧ ∀ p, role p = .free ↔ p ∈ free
  other : ∀ p, role p = .other ↔ p ∉ managed

-- The memory system with these uses of its pages; `lk` is the frame whose lock is taken.
structure Rep (vm : VM) (managed : Finset Nat) (role : Nat → Role) (lk : Option Nat) : Prop where
  tree : Tree vm.mem role
  list : ∃ free l, FreeList vm.area managed free l ∧ ∀ p, role p = .free ↔ p ∈ free
  other : ∀ p, role p = .other ↔ p ∉ managed
  ref : ∀ f, role f = .frame → (vm.area.pages f).ref = refs managed vm.mem role f
  used : ∀ f, role f = .frame → 0 < refs managed vm.mem role f
  lock : ∀ f, role f = .frame → (vm.area.pages f).pageLock = decide (lk = some f)
  heap : ∀ p, role p = .heap ↔ p ∈ vm.heap

variable {vm : VM} {managed : Finset Nat} {role role' : Nat → Role} {lk : Option Nat}
  {bad : Obs → Prop} {p q r f n : Nat} {lf : Leaf} {α : Type} {E : Halt → Prop}

section Access

variable {Q : Nat → VM → Prop}

@[simp] theorem wp_readWord : Prog.wp bad (readWord p n) vm Q E ↔ Q (vm.mem p n) vm := by
  simp [readWord]

theorem wp_KADDR (h : p < vm.area.npages) : Prog.wp bad (KADDR (page2ppn p)) vm Q E ↔ Q p vm := by
  have hin : p + nbase < vm.npage := Nat.add_lt_add_right h nbase
  simp [KADDR, page2ppn, hin]

theorem wp_page2kva (h : p < vm.area.npages) : Prog.wp bad (page2kva p) vm Q E ↔ Q p vm :=
  wp_KADDR h

theorem wp_pa2page (h : p < vm.area.npages) : Prog.wp bad (pa2page (page2ppn p)) vm Q E ↔ Q p vm := by
  have hin : p + nbase < vm.npage := Nat.add_lt_add_right h nbase
  simp [pa2page, page2ppn, hin]

theorem wp_kva2page (h : p < vm.area.npages) : Prog.wp bad (kva2page p) vm Q E ↔ Q p vm :=
  wp_pa2page h

theorem wp_pte2page (hl : lf.Valid) (hf : lf.frame < vm.area.npages) :
    Prog.wp bad (pte2page lf.pte) vm Q E ↔ Q lf.frame vm := by
  have hv : ¬lf.pte &&& PTE_V = 0 := by
    rw [Leaf.pte_and hl.1 (by decide)]
    exact hl.2
  have hppn := PPN_PTE_ADDR hl.1 (hf.trans (npages_lt _))
  rw [pte2page, if_neg hv, hppn]
  exact wp_pa2page hf

theorem wp_pde2page (h : p < vm.area.npages) :
    Prog.wp bad (pde2page (pde p)) vm Q E ↔ Q p vm := by
  rw [pde2page, PPN_PTE_ADDR_pde (h.trans (npages_lt _))]
  exact wp_pa2page h

theorem wp_KADDR_pde (h : p < vm.area.npages) :
    Prog.wp bad (KADDR (PPN (PTE_ADDR (pde p)))) vm Q E ↔ Q p vm := by
  rw [PPN_PTE_ADDR_pde (h.trans (npages_lt _))]
  exact wp_KADDR h

end Access

section Words

variable {Q : Unit → VM → Prop} {value : Nat} {words : Words}

@[simp] theorem wp_writePage : Prog.wp bad (writePage p words) vm Q E ↔
    Q () { vm with mem := Function.update vm.mem p words } := by
  simp [writePage]

@[simp] theorem wp_writeWord : Prog.wp bad (writeWord p n value) vm Q E ↔
    Q () { vm with mem := Function.update vm.mem p (Function.update (vm.mem p) n value) } := by
  simp [writeWord]

@[simp] theorem wp_setPte {ptep : Nat × Nat} (hq : Q () { vm with
    mem := Function.update vm.mem ptep.1 (Function.update (vm.mem ptep.1) ptep.2 value) }) :
    Prog.wp bad (setPte r n ptep value) vm Q E := by
  simp only [setPte, Prog.wp_bind, wp_readWord, Prog.wp_note, wp_writeWord]
  exact fun _ => hq

theorem wp_tlbInvalidate (hq : Q () vm) : Prog.wp bad (tlbInvalidate n) vm Q E := by
  simp only [tlbInvalidate, Prog.wp_note]
  exact fun _ => hq

end Words

section Allocator

theorem wp_callPmm {f : FreeArea → Except Halt (α × FreeArea)} {Q : α → VM → Prop} {a : α}
    {b : FreeArea} (hf : f vm.area = .ok (a, b)) :
    Prog.wp bad (callPmm f) vm Q E ↔ Q a { vm with area := b } := by
  simp [callPmm, hf]

theorem callPmm_notes {f : FreeArea → Except Halt (α × FreeArea)} {good : Obs → Prop} :
    Prog.Notes good (callPmm f) := by
  refine Prog.Notes.get.bind fun vm => ?_
  cases f vm.area with
  | error e => exact Prog.Notes.halt
  | ok r => exact Prog.Notes.modify.bind fun _ => Prog.Notes.pure

theorem wp_derefPage {Q : Page → VM → Prop} (h : p < vm.area.npages) :
    Prog.wp bad (derefPage p) vm Q E ↔ Q (vm.area.pages p) vm := by
  refine wp_callPmm (b := vm.area) ?_
  rw [FreeArea.deref_eq h]
  rfl

theorem wp_pageRef {Q : Int → VM → Prop} (h : p < vm.area.npages) :
    Prog.wp bad (pageRef p) vm Q E ↔ Q (vm.area.pages p).ref vm := by
  rw [pageRef, Prog.wp_bind, wp_derefPage h, Prog.wp_pure]

theorem wp_storePage {Q : Unit → VM → Prop} {g : Page → Page} (h : p < vm.area.npages) :
    Prog.wp bad (storePage p g) vm Q E ↔ Q () { vm with area := vm.area.modify p g } := by
  refine wp_callPmm ?_
  rw [FreeArea.store_eq g h]
  rfl

variable {free : Finset Nat} {l : List Nat}

theorem wp_allocPages {Q : Option Nat → VM → Prop} (hl : FreeList vm.area managed free l) (hn : 0 < n)
    (hsome : ∀ p area l', Finset.Ico p (p + n) ⊆ free →
      FreeList area managed (free \ Finset.Ico p (p + n)) l' → Unused vm.area area ∅ →
      Q (some p) { vm with area := area })
    (hnone : ¬bad .noMem → (∀ p ∈ l, (vm.area.pages p).property < n) → Q none vm) :
    Prog.wp bad (allocPages n) vm Q E := by
  rw [allocPages, Prog.wp_bind]
  rcases defaultAllocPages_spec (g := ∅) hl hn with ⟨hall, he⟩ | ⟨p, area, l', he, _, _, _, hsub, hl', hu⟩
  · rw [wp_callPmm he]
    simp only [if_true, Prog.wp_bind, Prog.wp_note, Prog.wp_pure]
    exact fun hbad => hnone hbad hall
  · rw [wp_callPmm he]
    simp only [Prog.wp_pure, reduceCtorEq, if_false]
    exact hsome p area l' hsub hl' hu

-- A page fits into the free list when it lies below a member or there is none.
theorem inOrder_iff (hl : FreeList vm.area managed free l) (hp : p ∉ free) :
    InOrder l p ↔ Fits (fun q => q ∈ free) p := by
  constructor
  · rintro (rfl | ⟨q, hq, hlt⟩)
    · left
      intro q hq
      obtain ⟨r, hr, _⟩ := (hl.runs.mem q).mp hq
      cases hr
    · exact Or.inr ⟨q, hl.mem_free hq, hlt⟩
  · rintro (hno | ⟨q, hq, hlt⟩)
    · refine Or.inl (List.eq_nil_iff_forall_not_mem.mpr fun q hq => ?_)
      exact hno q (hl.mem_free hq)
    · obtain ⟨r, hr, hlo, hhi⟩ := (hl.runs.mem q).mp hq
      refine Or.inr ⟨r.1, (mem_blocks.mp hr).1, ?_⟩
      by_contra hle
      exact hp ((hl.runs.mem p).mpr ⟨r, hr, by omega, by omega⟩)

-- free_pages notes nothing but a block behind the last member of the list.
theorem wpl_freePages {Q : Unit → VM → Prop} (hl : FreeList vm.area managed free l)
    (hn : 0 < n) (hsub : Finset.Ico p (p + n) ⊆ managed)
    (hdisj : Disjoint free (Finset.Ico p (p + n))) (hbad : ¬InOrder l p → bad .tail)
    (hq : ∀ area l', InOrder l p → FreeList area managed (free ∪ Finset.Ico p (p + n)) l' →
      Unused vm.area area (Finset.Ico p (p + n)) → Q () { vm with area := area }) :
    Prog.wpl bad (fun o => o ≠ .tail) (freePages p n) vm Q E := by
  have hmembers := hl.members_eq
  refine Prog.wpl_bind (Prog.wpl_get ?_)
  simp only [hmembers]
  by_cases horder : InOrder l p
  · obtain ⟨area, l', he, hl', hu⟩ := defaultFreePages_spec hl hn hsub hdisj horder
    rw [if_neg (not_not.mpr horder)]
    refine Prog.wpl_of_wp callPmm_notes ((wp_callPmm ?_).mpr (hq area l' horder hl' hu))
    rw [he]
    rfl
  · rw [if_pos horder]
    refine Prog.wpl_bind (Prog.wpl_note ?_)
    exact fun hno => absurd (hbad horder) hno

theorem wp_freePages {Q : Unit → VM → Prop} (hbad : bad .tail) (hl : FreeList vm.area managed free l)
    (hn : 0 < n) (hsub : Finset.Ico p (p + n) ⊆ managed)
    (hdisj : Disjoint free (Finset.Ico p (p + n)))
    (hq : ∀ area l', FreeList area managed (free ∪ Finset.Ico p (p + n)) l' →
      Unused vm.area area (Finset.Ico p (p + n)) → Q () { vm with area := area }) :
    Prog.wp bad (freePages p n) vm Q E :=
  (wpl_freePages hl hn hsub hdisj (fun _ => hbad) fun area l' _ => hq area l').1

end Allocator

section Notes

variable {good : Obs → Prop} {value : Nat} {ptep : Nat × Nat}

theorem readWord_notes : Prog.Notes good (readWord p n) := Prog.Notes.get.bind fun _ => Prog.Notes.pure

theorem KADDR_notes : Prog.Notes good (KADDR n) :=
  Prog.Notes.get.bind fun _ => Prog.Notes.ite (fun _ => Prog.Notes.halt) fun _ =>
    Prog.Notes.ite (fun _ => Prog.Notes.halt) fun _ => Prog.Notes.pure

theorem pa2page_notes : Prog.Notes good (pa2page n) :=
  Prog.Notes.get.bind fun _ => Prog.Notes.ite (fun _ => Prog.Notes.halt) fun _ =>
    Prog.Notes.ite (fun _ => Prog.Notes.halt) fun _ => Prog.Notes.pure

theorem page2kva_notes : Prog.Notes good (page2kva p) := KADDR_notes

theorem pde2page_notes : Prog.Notes good (pde2page n) := pa2page_notes

theorem writeWord_notes : Prog.Notes good (writeWord p n value) := Prog.Notes.modify

theorem assertM_notes {holds : Bool} {text : String} : Prog.Notes good (assertM holds text) :=
  Prog.Notes.ite (fun _ => Prog.Notes.pure) fun _ => Prog.Notes.halt

theorem checkRange_notes {start stop : Nat} : Prog.Notes good (checkRange start stop) :=
  assertM_notes.bind fun _ => assertM_notes

theorem pte2page_notes : Prog.Notes good (pte2page n) :=
  Prog.Notes.ite (fun _ => Prog.Notes.halt) fun _ => pa2page_notes

theorem pageRef_notes : Prog.Notes good (pageRef p) := callPmm_notes.bind fun _ => Prog.Notes.pure

theorem storePage_notes {g : Page → Page} : Prog.Notes good (storePage p g) := callPmm_notes

theorem allocPages_notes (h : good .noMem) : Prog.Notes good (allocPages n) :=
  callPmm_notes.bind fun _ => Prog.Notes.ite (fun _ => (Prog.Notes.note h).bind fun _ => Prog.Notes.pure)
    fun _ => Prog.Notes.pure

theorem nextTable_notes {table : Nat} {create : Bool} (h : good .noMem) :
    Prog.Notes good (nextTable table n create) := by
  refine readWord_notes.bind fun pde => Prog.Notes.ite (fun _ => KADDR_notes.bind fun _ => Prog.Notes.pure)
    fun _ => Prog.Notes.ite (fun _ => Prog.Notes.pure) fun _ => (allocPages_notes h).bind fun page => ?_
  cases page with
  | none => exact Prog.Notes.pure
  | some page =>
      exact storePage_notes.bind fun _ => KADDR_notes.bind fun _ => Prog.Notes.modify.bind fun _ =>
        Prog.Notes.modify.bind fun _ => readWord_notes.bind fun _ => KADDR_notes.bind fun _ => Prog.Notes.pure

theorem getPte_notes {create : Bool} (h : good .noMem) : Prog.Notes good (getPte r n create) := by
  refine (nextTable_notes h).bind fun pd0 => ?_
  cases pd0 with
  | none => exact Prog.Notes.pure
  | some pd0 =>
      refine (nextTable_notes h).bind fun pt => ?_
      cases pt <;> exact Prog.Notes.pure

theorem setPte_notes (h : ∀ r la old, good (.pte r la old)) : Prog.Notes good (setPte r n ptep value) :=
  readWord_notes.bind fun _ => (Prog.Notes.note (h _ _ _)).bind fun _ => Prog.Notes.modify

theorem tlbInvalidate_notes (h : ∀ la, good (.fence la)) : Prog.Notes good (tlbInvalidate n) :=
  Prog.Notes.note (h _)

end Notes

theorem frameAt_congr (hroot : ∀ q, role' q = .root ↔ role q = .root) (mem : Nat → Words) :
    frameAt mem role' = frameAt mem role := by
  funext x
  simp only [frameAt, hroot]

namespace Base

theorem mem_managed (h : Base vm managed role) (hp : role p ≠ .other) : p ∈ managed :=
  by_contra fun hno => hp ((h.other p).mpr hno)

theorem bound (h : Base vm managed role) (hp : role p ≠ .other) : p < vm.area.npages := by
  obtain ⟨_, _, hl, _⟩ := h.list
  exact hl.bound p (h.mem_managed hp)

theorem tables (h : Base vm managed role) : Tables vm role := ⟨h.tree, h.bound⟩

-- alloc_page
theorem allocPage (h : Base vm managed role) {Q : Option Nat → VM → Prop}
    (hsome : ∀ p area, role p = .free → (area.pages p).ref = 0 → (area.pages p).pageLock = false →
      Unused vm.area area ∅ → Base { vm with area := area } managed (Function.update role p .held) →
      Q (some p) { vm with area := area })
    (hnone : ¬bad .noMem → (∀ p, role p ≠ .free) → Q none vm) :
    Prog.wp bad (allocPages 1) vm Q E := by
  obtain ⟨free, l, hl, hfree⟩ := h.list
  refine wp_allocPages hl Nat.one_pos (fun p area l' hsub hl' hu => ?_) fun hbad hall => ?_
  · have hp : p ∈ free := hsub (Finset.mem_Ico.mpr ⟨le_rfl, Nat.lt_succ_self p⟩)
    have hrole := (hfree p).mpr hp
    refine hsome p area hrole ?_ ?_ hu ⟨h.tree.rerole (fun q => ?_) fun q => ?_, ⟨_, l', hl', fun q => ?_⟩,
      fun q => ?_⟩
    · rw [hu.ref p (Finset.notMem_empty p)]
      exact hl.ref p hp
    · rw [hu.lock p (Finset.notMem_empty p)]
      exact hl.lock p hp
    · have : (Role.free).isPlain := rfl
      have : (Role.held).isPlain := rfl
      grind [Function.update_apply]
    · grind [Function.update_apply]
    · rw [Finset.mem_sdiff, Finset.mem_Ico, ← hfree q]
      grind [Function.update_apply]
    · have := h.other q
      have := h.other p
      grind [Function.update_apply]
  · refine hnone hbad fun p hp => ?_
    obtain ⟨r, hr, hlo, hhi⟩ := (hl.runs.mem p).mp ((hfree p).mp hp)
    obtain ⟨hmem, hsize⟩ := mem_blocks.mp hr
    have := hall r.1 hmem
    omega

-- free_page, in any order
theorem freePage (h : Base vm managed role) {Q : Unit → VM → Prop} (hp : role p ≠ .free) (hother : role p ≠ .other)
    (hq : ∀ area, Unused vm.area area {p} → (area.pages p).ref = 0 → Q () { vm with area := area }) :
    Prog.wp bad (freePages p 1) vm Q E := by
  obtain ⟨free, l, hl, hfree⟩ := h.list
  have hone : Finset.Ico p (p + 1) = {p} := by
    ext q
    rw [Finset.mem_Ico, Finset.mem_singleton]
    omega
  have hret : ∃ area, defaultFreePages vm.area p 1 = .ok area ∧ Unused vm.area area (Finset.Ico p (p + 1)) ∧
      ∀ q ∈ Finset.Ico p (p + 1), (area.pages q).ref = 0 := by
    apply defaultFreePages_returns hl Nat.one_pos
    · rw [hone]
      exact Finset.singleton_subset_iff.mpr (h.mem_managed hother)
    · rw [hone]
      exact Finset.disjoint_singleton_right.mpr fun hin => hp ((hfree p).mpr hin)
  obtain ⟨area, he, hu, href⟩ := hret
  rw [hone] at hu href
  have hcall : Prog.wp bad (callPmm fun area => (defaultFreePages area p 1).map fun area => ((), area)) vm Q E := by
    rw [wp_callPmm (a := ()) (b := area)]
    · exact hq area hu (href p (Finset.mem_singleton_self p))
    · rw [he]
      rfl
  simp only [freePages, Prog.wp_bind, Prog.wp_get, Prog.wp_ite, Prog.wp_note]
  exact ⟨fun _ _ => hcall, fun _ => hcall⟩

end Base

namespace Rep

theorem base (h : Rep vm managed role lk) : Base vm managed role := ⟨h.tree, h.list, h.other⟩

theorem bound (h : Rep vm managed role lk) (hp : role p ≠ .other) : p < vm.area.npages := h.base.bound hp

theorem mem_managed (h : Rep vm managed role lk) (hp : role p ≠ .other) : p ∈ managed := h.base.mem_managed hp

-- Pages that no table knows change their use.
theorem rerole (h : Rep vm managed role lk) (role' : Nat → Role) (heap : List Nat) {area : FreeArea} {free : Finset Nat}
    {l : List Nat} (hl : FreeList area managed free l) (hfree : ∀ p, role' p = .free ↔ p ∈ free)
    (hsame : ∀ p, role' p = role p ∨ (role p).isPlain ∧ (role' p).isPlain)
    (hother : ∀ p, role' p = .other ↔ role p = .other)
    (hheap : ∀ p, role' p = .heap ↔ p ∈ heap)
    (hpages : ∀ f, role f = .frame → (area.pages f).ref = (vm.area.pages f).ref ∧
      (area.pages f).pageLock = (vm.area.pages f).pageLock) :
    Rep { vm with area := area, heap := heap } managed role' lk := by
  have hkeep : ∀ p, role p = .frame ∨ (role p).isNode ∨ role' p = .frame ∨ (role' p).isNode →
      role' p = role p := by
    intro p hp
    have := hsame p
    unfold Role.isPlain at this
    grind
  have hroot : ∀ q, role' q = .root ↔ role q = .root := by
    intro q
    have : (Role.root).isNode := rfl
    grind
  have hframe : ∀ q, role' q = .frame ↔ role q = .frame := by grind
  have hrefs : ∀ f, refs managed vm.mem role' f = refs managed vm.mem role f := fun f => by
    rw [refs, frameAt_congr hroot]
    rfl
  refine ⟨h.tree.rerole hsame fun p => (hother p).mpr, ⟨free, l, hl, hfree⟩, ?_, ?_, ?_, ?_, hheap⟩
  · exact fun p => (hother p).trans (h.other p)
  · intro f hf
    rw [hrefs, (hpages f ((hframe f).mp hf)).1]
    exact h.ref f ((hframe f).mp hf)
  · intro f hf
    rw [hrefs]
    exact h.used f ((hframe f).mp hf)
  · intro f hf
    rw [(hpages f ((hframe f).mp hf)).2]
    exact h.lock f ((hframe f).mp hf)

-- alloc_page
theorem allocPage (h : Rep vm managed role lk) {Q : Option Nat → VM → Prop}
    (hsome : ∀ p area, role p = .free → (area.pages p).ref = 0 → (area.pages p).pageLock = false →
      Unused vm.area area ∅ → Rep { vm with area := area } managed (Function.update role p .held) lk →
      Q (some p) { vm with area := area })
    (hnone : ¬bad .noMem → (∀ p, role p ≠ .free) → Q none vm) :
    Prog.wp bad (allocPages 1) vm Q E := by
  refine h.base.allocPage (fun p area hp href hlock hu hbase => ?_) hnone
  obtain ⟨free, l, hl, hfree⟩ := hbase.list
  refine hsome p area hp href hlock hu (h.rerole _ _ hl hfree ?_ ?_ ?_ fun f _ => ?_)
  · intro q
    have : (Role.free).isPlain := rfl
    have : (Role.held).isPlain := rfl
    grind [Function.update_apply]
  · grind [Function.update_apply]
  · have := h.heap
    grind [Function.update_apply]
  · exact ⟨hu.ref f (Finset.notMem_empty f), hu.lock f (Finset.notMem_empty f)⟩

-- free_page, of a page that is in use without being a table or a frame
theorem freePage (h : Rep vm managed role lk) {Q : Unit → VM → Prop} (hbad : bad .tail ∨ ∀ q, role q ≠ .free)
    (hplain : (role p).isPlain) (hp : role p ≠ .free) (hother : role p ≠ .other)
    (hheap : role p ≠ .heap)
    (hq : ∀ area, Unused vm.area area {p} →
      Rep { vm with area := area } managed (Function.update role p .free) lk →
      Q () { vm with area := area }) :
    Prog.wp bad (freePages p 1) vm Q E := by
  obtain ⟨free, l, hl, hfree⟩ := h.list
  have hone : Finset.Ico p (p + 1) = {p} := by
    ext q
    rw [Finset.mem_Ico, Finset.mem_singleton]
    omega
  have hmem := h.mem_managed hother
  have hno : p ∉ free := fun hin => hp ((hfree p).mpr hin)
  refine (wpl_freePages hl Nat.one_pos ?_ ?_ (fun horder => hbad.resolve_right fun hall => horder ?_)
    fun area l' _ hl' hu => ?_).1
  · rw [hone]
    exact Finset.singleton_subset_iff.mpr hmem
  · rw [hone]
    exact Finset.disjoint_singleton_right.mpr hno
  · exact (inOrder_iff hl hno).mpr (Or.inl fun q hq => hall q ((hfree q).mpr hq))
  · rw [hone] at hl' hu
    refine hq area hu (h.rerole _ _ hl' ?_ ?_ ?_ ?_ ?_)
    · intro q
      rw [Finset.mem_union, Finset.mem_singleton, ← hfree q]
      grind [Function.update_apply]
    · intro q
      have : (Role.free).isPlain := rfl
      grind [Function.update_apply]
    · grind [Function.update_apply]
    · have := h.heap
      grind [Function.update_apply]
    · intro f hf
      have hne : f ∉ ({p} : Finset Nat) := by
        rw [Finset.mem_singleton]
        rintro rfl
        rw [hf] at hplain
        cases hplain
      exact ⟨hu.ref f hne, hu.lock f hne⟩

end Rep

end Ucore.Mm
