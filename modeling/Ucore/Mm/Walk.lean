import Ucore.Mm.Rep

namespace Ucore.Mm

open Lib Pmm

variable {vm vm' : VM} {managed : Finset Nat} {role role' : Nat → Role} {lk : Option Nat}
  {bad : Obs → Prop} {d i j la p q r t v : Nat} {E : Halt → Prop}

namespace Base

-- The ref and the lock of a page belong to whoever holds it.
theorem store (h : Base vm managed role) (hp : role p ≠ .free) {g : Page → Page}
    (hg : ∃ ref lock, g (vm.area.pages p) = { vm.area.pages p with ref := ref, pageLock := lock }) :
    Base { vm with area := vm.area.modify p g } managed role := by
  obtain ⟨ref, lock, hg⟩ := hg
  obtain ⟨free, l, hl, hfree⟩ := h.list
  have hsame : vm.area.modify p g =
      vm.area.modify p fun q => { q with ref := ref, pageLock := lock } := by
    simp only [FreeArea.modify, hg]
  have hl' : FreeList (vm.area.modify p fun q => { q with ref := ref, pageLock := lock }) managed free l :=
    hl.use fun hin => hp ((hfree p).mpr hin)
  rw [← hsame] at hl'
  exact ⟨h.tree, ⟨free, l, hl', hfree⟩, h.other⟩

-- Other tables, in pages that were held
theorem retree (h : Base vm managed role) {mem : Nat → Words} (htree : Tree mem role')
    (hsame : ∀ p ρ, ρ = .free ∨ ρ = .other → (role' p = ρ ↔ role p = ρ)) :
    Base { vm with mem := mem } managed role' := by
  obtain ⟨free, l, hl, hfree⟩ := h.list
  exact ⟨htree, ⟨free, l, hl, fun p => (hsame p .free (by simp)).trans (hfree p)⟩,
    fun p => (hsame p .other (by simp)).trans (h.other p)⟩

theorem addDir (h : Base vm managed role) {mem : Nat → Words} (a : AddDir vm.mem mem role role' r i p) :
    Base { vm with mem := mem } managed role' := by
  refine h.retree (a.tree h.tree) fun q ρ hρ => ?_
  have := a.role q
  have := a.held
  grind

theorem addTable (h : Base vm managed role) {mem : Nat → Words} (a : AddTable vm.mem mem role role' d j p) :
    Base { vm with mem := mem } managed role' := by
  refine h.retree (a.tree h.tree) fun q ρ hρ => ?_
  have := a.role q
  have := a.held
  grind

end Base

namespace Rep

theorem store (h : Rep vm managed role lk) (hp : role p ≠ .free) (hf : role p ≠ .frame) {g : Page → Page}
    (hg : ∃ ref lock, g (vm.area.pages p) = { vm.area.pages p with ref := ref, pageLock := lock }) :
    Rep { vm with area := vm.area.modify p g } managed role lk := by
  obtain ⟨free, l, hl, hfree⟩ := (h.base.store hp hg).list
  refine h.rerole _ _ hl hfree (fun _ => Or.inl rfl) (fun _ => Iff.rfl) h.heap fun f hfr => ?_
  have hne : f ≠ p := by
    rintro rfl
    exact hf hfr
  rw [FreeArea.modify_of_ne hne]
  exact ⟨rfl, rfl⟩

theorem refs_congr {mem mem' : Nat → Words} (h : ∀ q v, q ∈ managed → v < UPAGES →
    frameAt mem' role' (q, v) = frameAt mem role (q, v)) (f : Nat) :
    refs managed mem' role' f = refs managed mem role f := by
  refine count_congr fun x hx => ?_
  obtain ⟨hq, hv⟩ := Finset.mem_product.mp hx
  rw [h x.1 x.2 hq (Finset.mem_range.mp hv)]

-- A change of the tables that leaves the frames alone.
theorem retree (h : Rep vm managed role lk) {mem : Nat → Words} (htree : Tree mem role')
    (hsame : ∀ p ρ, ρ = .free ∨ ρ = .other ∨ ρ = .heap ∨ ρ = .frame → (role' p = ρ ↔ role p = ρ))
    (hframe : ∀ q v, q ∈ managed → v < UPAGES →
      frameAt mem role' (q, v) = frameAt vm.mem role (q, v)) :
    Rep { vm with mem := mem } managed role' lk := by
  have hf : ∀ f, role' f = .frame ↔ role f = .frame := fun f => hsame f _ (by simp)
  have hrefs : ∀ f, refs managed mem role' f = refs managed vm.mem role f :=
    refs_congr hframe
  obtain ⟨free, l, hl, hfree⟩ := h.list
  refine ⟨htree, ⟨free, l, hl, fun p => ?_⟩, fun p => ?_, fun f hfr => ?_, fun f hfr => ?_,
    fun f hfr => h.lock f ((hf f).mp hfr), fun p => ?_⟩
  · exact (hsame p .free (by simp)).trans (hfree p)
  · exact (hsame p .other (by simp)).trans (h.other p)
  · rw [hrefs]
    exact h.ref f ((hf f).mp hfr)
  · rw [hrefs]
    exact h.used f ((hf f).mp hfr)
  · exact (hsame p .heap (by simp)).trans (h.heap p)

theorem addRoot (h : Rep vm managed role lk) {mem : Nat → Words} (a : AddRoot vm.mem mem role role' p) :
    Rep { vm with mem := mem } managed role' lk := by
  refine h.retree (a.tree h.tree) (fun q ρ hρ => ?_) fun q v _ hv => ?_
  · have := a.role q
    have := a.held
    grind
  · by_cases hp : q = p
    · subst hp
      have hnew : role' q = .root := by rw [a.role, if_pos rfl]
      have hold : role q ≠ .root := by rw [a.held]; simp
      simp only [frameAt, hnew, hold, if_true, if_false, a.leaf_self hv]
      rfl
    · have hroot : role' q = role q := by rw [a.role, if_neg hp]
      simp only [frameAt, hroot]
      split_ifs with hq
      · rw [a.leaf_other h.tree hq hv]
      · rfl

end Rep

-- What get_pte and its callers leave alone: the uses of the pages that are not free, their
-- refs and locks, and the contents of all pages that are no tables; page tables are added
-- below the root `r`.
structure Grow (vm vm' : VM) (role role' : Nat → Role) (r : Nat) : Prop where
  keep : ∀ p, role p ≠ .free → role' p = role p
  new : ∀ p, role p = .free → role' p = .free ∨ (∃ i, role' p = .dir r i) ∨
    ∃ d i j, role' d = .dir r i ∧ role' p = .table d j
  mem : ∀ p, (role' p).isNode = false → vm'.mem p = vm.mem p
  page : ∀ p, role p ≠ .free → (vm'.area.pages p).ref = (vm.area.pages p).ref ∧
    (vm'.area.pages p).pageLock = (vm.area.pages p).pageLock
  leaf : ∀ q v, role q = .root → v < UPAGES → leaf vm'.mem q v = leaf vm.mem q v
  npages : vm'.area.npages = vm.area.npages
  heap : vm'.heap = vm.heap
  room : vm'.room = vm.room

theorem Grow.refl : Grow vm vm role role r :=
  ⟨fun _ _ => rfl, fun _ hp => Or.inl hp, fun _ _ => rfl, fun _ _ => ⟨rfl, rfl⟩, fun _ _ _ _ => rfl,
    rfl, rfl, rfl⟩

theorem Grow.trans {vm'' : VM} {role'' : Nat → Role} (h : Grow vm vm' role role' r)
    (h' : Grow vm' vm'' role' role'' r) : Grow vm vm'' role role'' r := by
  refine ⟨fun p hp => ?_, fun p hp => ?_, fun p hp => ?_, fun p hp => ?_, fun q v hq hv => ?_,
    h'.npages.trans h.npages, h'.heap.trans h.heap, h'.room.trans h.room⟩
  · have := h.keep p
    have := h'.keep p
    grind
  · have h₁ := h.new p hp
    have h₂ := h'.new p
    have h₃ := h'.keep
    grind
  · rw [h'.mem p hp, h.mem p]
    by_cases hfree : role' p = .free
    · rw [hfree]
      rfl
    · rw [← h'.keep p hfree]
      exact hp
  · have h₁ := h.page p hp
    have h₂ := h'.page p (by rw [h.keep p hp]; exact hp)
    exact ⟨h₂.1.trans h₁.1, h₂.2.trans h₁.2⟩
  · have hq' : role' q = .root := (h.keep q (by rw [hq]; simp)).trans hq
    rw [h'.leaf q v hq' hv, h.leaf q v hq hv]

-- The references of the frames are those of before.
theorem Grow.rep (hg : Grow vm vm' role role' r) (h : Rep vm managed role lk) (h' : Base vm' managed role') :
    Rep vm' managed role' lk := by
  have hsame : ∀ q ρ, ρ = .frame ∨ ρ = .heap ∨ ρ = .root → (role' q = ρ ↔ role q = ρ) := by
    intro q ρ hρ
    have hkeep := hg.keep q
    have hnew := hg.new q
    grind
  have hframe : ∀ f, role' f = .frame ↔ role f = .frame := fun f => hsame f _ (by simp)
  have hrefs : ∀ f, refs managed vm'.mem role' f = refs managed vm.mem role f := by
    refine Rep.refs_congr fun q v _ hv => ?_
    simp only [frameAt, hsame q .root (by simp)]
    split_ifs with hq
    · rw [hg.leaf q v hq hv]
    · rfl
  have hpage : ∀ f, role f = .frame → (vm'.area.pages f).ref = (vm.area.pages f).ref ∧
      (vm'.area.pages f).pageLock = (vm.area.pages f).pageLock := fun f hf => hg.page f (by rw [hf]; simp)
  refine ⟨h'.tree, h'.list, h'.other, fun f hf => ?_, fun f hf => ?_, fun f hf => ?_, fun p => ?_⟩
  · rw [hrefs, (hpage f ((hframe f).mp hf)).1]
    exact h.ref f ((hframe f).mp hf)
  · rw [hrefs]
    exact h.used f ((hframe f).mp hf)
  · rw [(hpage f ((hframe f).mp hf)).2]
    exact h.lock f ((hframe f).mp hf)
  · rw [hg.heap, hsame p .heap (by simp)]
    exact h.heap p

section Index

theorem PDX1_eq (h : la < USERTOP) : PDX1 la = dirIx (la / PGSIZE) := by
  unfold PDX1 PDX1SHIFT dirIx PGSIZE
  unfold USERTOP at h
  rw [show (0x1FF : Nat) = 2 ^ 9 - 1 from rfl, Nat.and_two_pow_sub_one_eq_mod, Nat.shiftRight_eq_div_pow]
  omega

theorem PDX0_eq : PDX0 la = tabIx (la / PGSIZE) := by
  unfold PDX0 PDX0SHIFT tabIx PGSIZE
  rw [show (0x1FF : Nat) = 2 ^ 9 - 1 from rfl, Nat.and_two_pow_sub_one_eq_mod, Nat.shiftRight_eq_div_pow]
  omega

theorem PTX_eq : PTX la = pteIx (la / PGSIZE) := by
  unfold PTX PTXSHIFT pteIx PGSIZE
  rw [show (0x1FF : Nat) = 2 ^ 9 - 1 from rfl, Nat.and_two_pow_sub_one_eq_mod, Nat.shiftRight_eq_div_pow]

theorem page_lt (h : la < USERTOP) : la / PGSIZE < UPAGES := by
  unfold USERTOP at h
  unfold PGSIZE UPAGES
  omega

end Index

section NextTable

variable {Q : Option Nat → VM → Prop} {table : Nat} {create : Bool}

theorem wp_nextTable_found (hw : vm.mem table i = pde p) (hp : p < vm.area.npages) (hq : Q (some p) vm) :
    Prog.wp bad (nextTable table i create) vm Q E := by
  simp only [nextTable, Prog.wp_bind, wp_readWord, hw, pde_valid, ne_eq, not_false_eq_true, if_true,
    wp_KADDR_pde hp, Prog.wp_pure]
  exact hq

theorem wp_nextTable_none (hw : vm.mem table i = 0) (hq : Q none vm) :
    Prog.wp bad (nextTable table i false) vm Q E := by
  simp only [nextTable, Prog.wp_bind, wp_readWord, hw, Nat.zero_and, ne_eq, not_true_eq_false, if_false,
    Bool.not_false, if_true, Prog.wp_pure]
  exact hq

-- The memory with a cleared table in the page `p` that entry `i` of `table` points to
def newTable (mem : Nat → Words) (table i p : Nat) : Nat → Words :=
  let mem := Function.update mem p .zero
  Function.update mem table (Function.update (mem table) i (pde p))

theorem wp_nextTable_create (h : Base vm managed role) (hw : vm.mem table i = 0)
    (hsome : ∀ p area, role p = .free → Unused vm.area area {p} →
      Base { vm with area := area } managed (Function.update role p .held) →
      Q (some p) { vm with area := area, mem := newTable vm.mem table i p })
    (hnone : ¬bad .noMem → (∀ p, role p ≠ .free) → Q none vm) :
    Prog.wp bad (nextTable table i true) vm Q E := by
  simp only [nextTable, Prog.wp_bind, wp_readWord, hw, Nat.zero_and, ne_eq, not_true_eq_false, if_false,
    Bool.not_true, Bool.false_eq_true]
  refine h.allocPage (fun p area hp _ _ hu hrep => ?_) fun hbad hall => ?_
  · have hheld : Function.update role p .held p = .held := Function.update_self ..
    have hb : p < area.npages := hrep.bound (by rw [hheld]; simp)
    have hrep' := hrep.store (p := p) (g := fun q => { q with ref := 1 }) (by rw [hheld]; simp)
      ⟨_, _, rfl⟩
    have hu' : Unused vm.area (area.modify p fun q => { q with ref := 1 }) {p} := by
      refine ⟨hu.npages, fun q hq => ?_, fun q hq => ?_⟩ <;>
        rw [FreeArea.modify_of_ne (by simpa using hq)]
      · exact hu.ref q (Finset.notMem_empty q)
      · exact hu.lock q (Finset.notMem_empty q)
    have hq := hsome p _ hp hu' hrep'
    simp only [Prog.wp_bind, setPageRef]
    rw [wp_storePage hb, wp_page2kva hb]
    simp only [wp_writePage, wp_writeWord, wp_readWord, Function.update_self, pteCreate_pde]
    rw [wp_KADDR_pde hb, Prog.wp_pure]
    exact hq
  · simp only [Prog.wp_pure]
    exact hnone hbad hall

end NextTable

section GetPte

variable {Q : Option (Nat × Nat) → VM → Prop}

-- get_pte without `create`
theorem Tables.getPte_find (h : Tables vm role) (hr : role r = .root) (hla : la < USERTOP)
    (hsome : ∀ d t, role d = .dir r (dirIx (la / PGSIZE)) → role t = .table d (tabIx (la / PGSIZE)) →
      Q (some (t, pteIx (la / PGSIZE))) vm)
    (hnone : tabAt vm.mem r (la / PGSIZE) = none → Q none vm) :
    Prog.wp bad (Mm.getPte r la false) vm Q E := by
  have hv := page_lt hla
  simp only [Mm.getPte, Prog.wp_bind, PDX1_eq hla, PDX0_eq, PTX_eq]
  generalize la / PGSIZE = v at *
  have hnot := fun t => h.tree.tabAt_iff (t := t) hr hv
  rcases h.tree.rootEntry hr (show dirIx v < 511 by have := dirIx_lt hv; omega) with h0 | ⟨_, d, hd, hdir⟩
  · refine wp_nextTable_none h0 ?_
    rw [Prog.wp_pure]
    refine hnone (Option.eq_none_iff_forall_ne_some.mpr fun t ht => ?_)
    obtain ⟨d, hd, _⟩ := (hnot t).mp ht
    rw [(h.tree.dirUp hd).2.2] at h0
    exact pde_ne_zero h0
  · refine wp_nextTable_found hd (h.bound (by rw [hdir]; simp)) ?_
    simp only [Prog.wp_bind]
    rcases h.tree.dirEntry hdir (tabIx_lt (v := v)) with h0 | ⟨t, ht, htab⟩
    · refine wp_nextTable_none h0 ?_
      rw [Prog.wp_pure]
      refine hnone (Option.eq_none_iff_forall_ne_some.mpr fun t ht => ?_)
      obtain ⟨d', hd', ht'⟩ := (hnot t).mp ht
      rw [h.tree.dir_unique hd' hdir] at ht'
      rw [(h.tree.tableUp ht').2.2] at h0
      exact pde_ne_zero h0
    · refine wp_nextTable_found ht (h.bound (by rw [htab]; simp)) ?_
      rw [Prog.wp_pure]
      exact hsome d t hdir htab

theorem wp_getPte_find (h : Rep vm managed role lk) (hr : role r = .root) (hla : la < USERTOP)
    (hsome : ∀ d t, role d = .dir r (dirIx (la / PGSIZE)) → role t = .table d (tabIx (la / PGSIZE)) →
      Q (some (t, pteIx (la / PGSIZE))) vm)
    (hnone : tabAt vm.mem r (la / PGSIZE) = none → Q none vm) :
    Prog.wp bad (getPte r la false) vm Q E :=
  h.base.tables.getPte_find hr hla hsome hnone

-- The pages that get_pte adds for page `v` below `r`: a directory and, if `tab`, a table
def Added (role role' : Nat → Role) (r v : Nat) (tab : Prop) : Prop :=
  ∀ p, role p = .free → role' p = .free ∨ role' p = .dir r (dirIx v) ∨
    tab ∧ ∃ d, role' d = .dir r (dirIx v) ∧ role' p = .table d (tabIx v)

-- The page table for page `v` below `r` is not there.
def NoTable (role : Nat → Role) (r v : Nat) : Prop :=
  ∀ d t, role d = .dir r (dirIx v) → role t ≠ .table d (tabIx v)

theorem newTable_self (hne : i ≠ p) (k : Nat) : newTable vm.mem i j p p k = 0 := by
  rw [newTable, Function.update_of_ne (Ne.symm hne), Function.update_self]
  rfl

theorem newTable_entry (hne : i ≠ p) (k : Nat) :
    newTable vm.mem i j p i k = if k = j then pde p else vm.mem i k := by
  rw [newTable, Function.update_self, Function.update_apply, Function.update_of_ne hne]

theorem newTable_rest (hp : q ≠ p) (hi : q ≠ i) : newTable vm.mem i j p q = vm.mem q := by
  rw [newTable, Function.update_of_ne hi, Function.update_of_ne hp]

-- A new directory, and a new page table
theorem Base.growDir {area : FreeArea} (hr : role r = .root) (hi : i < 2)
    (hempty : vm.mem r i = 0) (hp : role p = .free) (hu : Unused vm.area area {p})
    (hbase : Base { vm with area := area } managed (Function.update role p .held)) :
    ∃ role', Base { vm with area := area, mem := newTable vm.mem r i p } managed role' ∧
      Grow vm { vm with area := area, mem := newTable vm.mem r i p } role role' r ∧
      ∀ q, role' q = if q = p then .dir r i else role q := by
  have hne : r ≠ p := by
    rintro rfl
    rw [hr] at hp
    cases hp
  have ha : AddDir vm.mem (newTable vm.mem r i p) (Function.update role p .held)
      (fun q => if q = p then .dir r i else role q) r i p := by
    refine ⟨by rwa [Function.update_of_ne hne], hi, hempty, Function.update_self .., newTable_self hne,
      newTable_entry hne, fun q => newTable_rest, fun q => ?_⟩
    grind [Function.update_apply]
  refine ⟨fun q => if q = p then .dir r i else role q, hbase.addDir ha, ?_, fun q => rfl⟩
  refine ⟨?_, ?_, ?_, ?_, ?_, hu.npages, rfl, rfl⟩
  · grind
  · grind
  · intro q hq
    have : (Role.dir r i).isNode = true := rfl
    have : (Role.root).isNode = true := rfl
    refine newTable_rest ?_ ?_ <;> grind
  · intro q hq
    have hqp : q ∉ ({p} : Finset Nat) := by
      rw [Finset.mem_singleton]
      rintro rfl
      exact hq hp
    exact ⟨hu.ref q hqp, hu.lock q hqp⟩
  · intro q v hq hv
    have hqp : q ≠ p := by
      rintro rfl
      rw [hq] at hp
      cases hp
    exact ha.leaf hbase.tree (by rwa [Function.update_of_ne hqp]) hv

theorem Base.growTable {area : FreeArea} (hd : role d = .dir r i) (hj : j < 512)
    (hempty : vm.mem d j = 0) (hp : role p = .free) (hu : Unused vm.area area {p})
    (hbase : Base { vm with area := area } managed (Function.update role p .held)) :
    ∃ role', Base { vm with area := area, mem := newTable vm.mem d j p } managed role' ∧
      Grow vm { vm with area := area, mem := newTable vm.mem d j p } role role' r ∧
      ∀ q, role' q = if q = p then .table d j else role q := by
  have hne : d ≠ p := by
    rintro rfl
    rw [hd] at hp
    cases hp
  have ha : AddTable vm.mem (newTable vm.mem d j p) (Function.update role p .held)
      (fun q => if q = p then .table d j else role q) d j p := by
    refine ⟨⟨r, i, by rwa [Function.update_of_ne hne]⟩, hj, hempty, Function.update_self ..,
      newTable_self hne, newTable_entry hne, fun q => newTable_rest, fun q => ?_⟩
    grind [Function.update_apply]
  refine ⟨fun q => if q = p then .table d j else role q, hbase.addTable ha, ?_, fun q => rfl⟩
  refine ⟨?_, ?_, ?_, ?_, ?_, hu.npages, rfl, rfl⟩
  · grind
  · grind
  · intro q hq
    have : (Role.table d j).isNode = true := rfl
    have : (Role.dir r i).isNode = true := rfl
    refine newTable_rest ?_ ?_ <;> grind
  · intro q hq
    have hqp : q ∉ ({p} : Finset Nat) := by
      rw [Finset.mem_singleton]
      rintro rfl
      exact hq hp
    exact ⟨hu.ref q hqp, hu.lock q hqp⟩
  · intro q v hq hv
    have hqp : q ≠ p := by
      rintro rfl
      rw [hq] at hp
      cases hp
    exact ha.leaf hbase.tree (by rwa [Function.update_of_ne hqp]) hv

theorem getPte_eq (r la : Nat) (create : Bool) : getPte r la create =
    (nextTable r (PDX1 la) create >>= fun a => a.elim (pure none) fun pd0 =>
      nextTable pd0 (PDX0 la) create >>= fun b => b.elim (pure none) fun pt => pure (some (pt, PTX la))) := by
  unfold getPte
  congr 1
  funext a
  cases a with
  | none => rfl
  | some pd0 =>
      simp only [Option.elim_some]
      congr 1
      funext b
      cases b <;> rfl

-- get_pte with `create`
theorem Base.getPte (h : Base vm managed role) (hr : role r = .root) (hla : la < USERTOP)
    (hsome : ∀ vm' role' d t, Base vm' managed role' → Grow vm vm' role role' r →
      Added role role' r (la / PGSIZE) True → role' d = .dir r (dirIx (la / PGSIZE)) →
      role' t = .table d (tabIx (la / PGSIZE)) → Q (some (t, pteIx (la / PGSIZE))) vm')
    (hnone : ∀ vm' role', ¬bad .noMem → NoTable role r (la / PGSIZE) → Base vm' managed role' →
      Grow vm vm' role role' r → Added role role' r (la / PGSIZE) False → (∀ p, role' p ≠ .free) →
      Q none vm') :
    Prog.wp bad (Mm.getPte r la true) vm Q E := by
  have hv := page_lt hla
  simp only [getPte_eq, Prog.wp_bind, PDX1_eq hla, PDX0_eq, PTX_eq]
  generalize la / PGSIZE = v at *
  -- the second level, below the directory `d`
  have hsecond : ∀ vm₁ role₁ d, Base vm₁ managed role₁ → Grow vm vm₁ role role₁ r →
      Added role role₁ r v False → role₁ d = .dir r (dirIx v) →
      Prog.wp bad (nextTable d (tabIx v) true) vm₁ (fun a vm' => Prog.wp bad
        (a.elim (pure none) fun pt => pure (some (pt, pteIx v))) vm' Q E) E := by
    intro vm₁ role₁ d hbase hg ha hd
    rcases hbase.tree.dirEntry hd (tabIx_lt (v := v)) with h0 | ⟨t, ht, htab⟩
    · refine wp_nextTable_create hbase h0 (fun p area hp hu hbase' => ?_) fun hbad hall => ?_
      · obtain ⟨role₂, hbase₂, hg₂, hrole⟩ := Base.growTable hd tabIx_lt h0 hp hu hbase'
        have hdp : d ≠ p := by
          rintro rfl
          rw [hd] at hp
          cases hp
        have hd₂ : role₂ d = .dir r (dirIx v) := by
          rw [hrole, if_neg hdp]
          exact hd
        have ht₂ : role₂ p = .table d (tabIx v) := by rw [hrole, if_pos rfl]
        rw [Option.elim_some, Prog.wp_pure]
        refine hsome _ role₂ d p hbase₂ (hg.trans hg₂) ?_ hd₂ ht₂
        intro q hq
        have := ha q hq
        grind
      · rw [Option.elim_none, Prog.wp_pure]
        refine hnone vm₁ role₁ hbad (fun d' t hd' ht => ?_) hbase hg ha hall
        have hd₁ := (hg.keep d' (by rw [hd']; simp)).trans hd'
        have ht₁ := (hg.keep t (by rw [ht]; simp)).trans ht
        rw [hbase.tree.dir_unique hd₁ hd] at ht₁
        rw [(hbase.tree.tableUp ht₁).2.2] at h0
        exact pde_ne_zero h0
    · refine wp_nextTable_found ht (hbase.bound (by rw [htab]; simp)) ?_
      rw [Option.elim_some, Prog.wp_pure]
      refine hsome vm₁ role₁ d t hbase hg (fun q hq => ?_) hd htab
      have := ha q hq
      grind
  rcases h.tree.rootEntry hr (show dirIx v < 511 by have := dirIx_lt hv; omega) with h0 | ⟨_, d, hd, hdir⟩
  · refine wp_nextTable_create h h0 (fun p area hp hu hbase => ?_) fun hbad hall => ?_
    · obtain ⟨role₁, hbase₁, hg, hrole⟩ := Base.growDir hr (dirIx_lt hv) h0 hp hu hbase
      rw [Option.elim_some, Prog.wp_bind]
      refine hsecond _ role₁ p hbase₁ hg (fun q hq => ?_) ?_
      · rw [hrole]
        grind
      · rw [hrole, if_pos rfl]
    · rw [Option.elim_none, Prog.wp_pure]
      refine hnone vm role hbad (fun d t hd _ => ?_) h Grow.refl (fun q hq => Or.inl hq) hall
      rw [(h.tree.dirUp hd).2.2] at h0
      exact pde_ne_zero h0
  · refine wp_nextTable_found hd (h.bound (by rw [hdir]; simp)) ?_
    rw [Option.elim_some, Prog.wp_bind]
    exact hsecond vm role d h Grow.refl (fun q hq => Or.inl hq) hdir

theorem wp_getPte (h : Rep vm managed role lk) (hr : role r = .root) (hla : la < USERTOP)
    (hsome : ∀ vm' role' d t, Rep vm' managed role' lk → Grow vm vm' role role' r →
      Added role role' r (la / PGSIZE) True → role' d = .dir r (dirIx (la / PGSIZE)) →
      role' t = .table d (tabIx (la / PGSIZE)) → Q (some (t, pteIx (la / PGSIZE))) vm')
    (hnone : ∀ vm' role', ¬bad .noMem → NoTable role r (la / PGSIZE) → Rep vm' managed role' lk →
      Grow vm vm' role role' r → Added role role' r (la / PGSIZE) False → (∀ p, role' p ≠ .free) →
      Q none vm') :
    Prog.wp bad (getPte r la true) vm Q E :=
  h.base.getPte hr hla (fun vm' role' d t hbase hg => hsome vm' role' d t (hg.rep h hbase) hg)
    fun vm' role' hno hnt hbase hg => hnone vm' role' hno hnt (hg.rep h hbase) hg

end GetPte

end Ucore.Mm
