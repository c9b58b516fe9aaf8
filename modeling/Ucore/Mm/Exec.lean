import Ucore.Mm.Segments

namespace Ucore.Mm

open Lib Pmm

variable {vm vm' : VM} {managed : Finset Nat} {role role' : Nat → Role} {bad : Obs → Prop}
  {i p perm r u v : Nat} {mm mm' : MmStruct} {vmas : List VmaStruct}
  {space : Nat → Option (List VmaStruct)} {img : Image} {task : Task} {W : Nat → Prop} {E : Halt → Prop}

def stackVma : VmaStruct := mapVma (USTACKTOP - USTACKSIZE) USTACKSIZE (VM_READ ||| VM_WRITE ||| VM_STACK)

theorem stackVma_eq : stackVma = ⟨USTACKTOP - USTACKSIZE, USTACKTOP, VM_READ ||| VM_WRITE ||| VM_STACK⟩ := by
  decide

theorem stack_bits : PTE_USER < 1024 ∧ PTE_USER ||| PTE_V = PTE_USER := by decide

theorem stack_perm : PermOk stackVma.vmFlags (PTE_USER ||| PTE_V) := by
  rw [stackVma_eq]
  exact ⟨by decide, by decide, by decide, by decide, by decide, by decide, by decide⟩

theorem stack_covers (hpos : 0 < i) (hi : i ≤ 4) : stackVma.Covers (UPAGES - i) := by
  rw [stackVma_eq]
  unfold VmaStruct.Covers USTACKSIZE USTACKPAGE USTACKTOP USERTOP UPAGES PGSIZE
  simp only
  omega

theorem Inserted.gains (h : Inserted vm vm' role role' r v p perm) (htree : Tree vm.mem role) (hp : role p = .free) :
    Gains vm vm' role role' r := by
  have hkeep : ∀ q, role q ≠ .free → role' q = role q := fun q hq => h.keep_used hp hq
  have hleaf : ∀ q u, role q = .root → q ≠ r → u < UPAGES → Mm.leaf vm'.mem q u = Mm.leaf vm.mem q u :=
    fun q u hq hqr hu => by rw [h.leaf q u hq hu, if_neg fun hqu => hqr hqu.1]
  refine ⟨⟨fun q b hq => (hkeep q (by rw [hq]; simp)).trans hq,
    fun q hq _ => (hkeep q (by rw [hq]; simp)).trans hq, fun q u hq hqr => ?_⟩, hkeep, fun q hq => ?_, hleaf⟩
  · refine view_congr (hleaf q u hq hqr) fun lf hu hlf => ?_
    have hf := htree.leaf_frame hq hu hlf
    exact h.plain (Or.inl (by rw [hf]; simp)) (by rw [hf]; rfl)
  · by_cases hqp : q = p
    · exact Or.inr (Or.inr (Or.inl (hqp ▸ h.page)))
    · refine (h.new q hq hqp).imp_right fun hnode => Or.inr (Or.inr ?_)
      exact hnode.elim .dir fun ⟨_, hd, ht⟩ => .table hd ht

theorem Inserted.extends (h : Inserted vm vm' role role' r v p perm) (htree : Tree vm.mem role) (hp : role p = .free)
    (hr : role r = .root) (hold : Mm.leaf vm.mem r v = none) : Extends vm vm' role role' r W := by
  have hmem : ∀ f, role f = .frame → vm'.mem f = vm.mem f := fun f hf =>
    h.plain (Or.inl (by rw [hf]; simp)) (by rw [hf]; rfl)
  have hfree : ∀ q, role' q = .free → role q = .free := by
    intro q hq
    by_contra hno
    rw [h.keep_used hp hno] at hq
    exact hno hq
  refine ⟨h.gains htree hp, fun u lf hu hlf => ⟨?_, ?_⟩, fun q hq => ⟨hfree q hq, ?_⟩, fun u lf hu hnone hlf => ?_⟩
  · rw [h.leaf r u hr hu, if_neg, hlf]
    rintro ⟨_, rfl⟩
    rw [hold] at hlf
    cases hlf
  · exact hmem _ (htree.leaf_frame hr hu hlf)
  · exact h.mem q (by rw [hq]; rfl)
  · rw [h.leaf r u hr hu] at hlf
    split_ifs at hlf with hqu
    · cases hlf
      exact ⟨hp, fun off _ _ => by rw [h.mem p (by rw [h.page]; rfl)]⟩
    · rw [hnone] at hlf
      cases hlf

-- Where load_icode ends when there is no page for the stack
def stackPanic : Halt :=
  .panic ("assertion failed: " ++ "pgdir_alloc_page(mm->pgdir, USTACKTOP - PGSIZE, PTE_USER) != NULL")

-- The pages of the stack, counted from its top
def stackPages (pgdir : Nat) : List Nat → M Unit
  | [] => pure ()
  | i :: is => do
      stackPage pgdir i
      stackPages pgdir is

theorem wp_stackPages {l : List Nat} {Q : Unit → VM → Prop} (h : Filling vm managed role space mm) (hvma : stackVma ∈ mm.mmapList) (his : ∀ i ∈ l, 0 < i ∧ i ≤ 4)
    (hnodup : l.Nodup) (hnone : ∀ i ∈ l, leaf vm.mem mm.pgdir (UPAGES - i) = none)
    (hmode : bad .noMem ∨ E stackPanic)
    (hq : ∀ vm' role', Filling vm' managed role' space mm → Extends vm vm' role role' mm.pgdir W →
      (∀ i ∈ l, ∃ lf, leaf vm'.mem mm.pgdir (UPAGES - i) = some lf ∧ lf.perm = PTE_USER) → Q () vm') :
    Prog.wp bad (stackPages mm.pgdir l) vm Q E := by
  induction l generalizing vm role with
  | nil =>
      rw [stackPages, Prog.wp_pure]
      exact hq vm role h Extends.refl fun i hi => by cases hi
  | cons i l ih =>
      obtain ⟨hfirst, hnodup⟩ := List.nodup_cons.mp hnodup
      obtain ⟨hpos, hle⟩ := his i List.mem_cons_self
      have hr := h.root
      have hla : USTACKTOP - i * PGSIZE < USERTOP := by
        unfold USTACKTOP USERTOP PGSIZE
        omega
      have hdiv : (USTACKTOP - i * PGSIZE) / PGSIZE = UPAGES - i := by
        unfold USTACKTOP USERTOP PGSIZE UPAGES
        omega
      have hcov := stack_covers hpos hle
      have hold := hnone i List.mem_cons_self
      rw [stackPages, Prog.wp_bind, stackPage, Prog.wp_bind]
      refine wp_pgdirAllocPage h.inv.rep hr hla stack_bits.1 (by rw [hdiv]; exact hold) (by simp)
        (fun vm₁ role₁ f hf hrep₁ hins => ?_) fun vm₁ role₁ hno hrep₁ hgrow _ => ?_
      · rw [hdiv] at hins
        have hinv₁ := hins.inv h.inv hrep₁ hf (Function.update_self ..) hvma hcov stack_perm
        have hext := hins.extends (W := W) h.inv.rep.tree hf hr hold
        refine wp_assertM (fun _ => ?_) fun hno => by cases hno
        refine ih (h.keep hinv₁) (fun j hj => his j (List.mem_cons_of_mem _ hj)) hnodup (fun j hj => ?_)
          fun vm' role' h' hext' hall => hq vm' role' h' (hext.trans hext') fun j hj => ?_
        · have hne : UPAGES - j ≠ UPAGES - i := by
            have hij : j ≠ i := fun he => hfirst (he ▸ hj)
            have hj4 := (his j (List.mem_cons_of_mem _ hj)).2
            unfold UPAGES
            omega
          have hlt : UPAGES - j < UPAGES := by
            have hj0 := (his j (List.mem_cons_of_mem _ hj)).1
            unfold UPAGES
            omega
          rw [hins.leaf _ _ hr hlt, if_neg fun hno => hne hno.2]
          exact hnone j (List.mem_cons_of_mem _ hj)
        · rcases List.mem_cons.mp hj with rfl | hj
          · have hlt : UPAGES - j < UPAGES := by
              unfold UPAGES
              omega
            have hlf : leaf vm₁.mem mm.pgdir (UPAGES - j) = some ⟨f, PTE_USER ||| PTE_V⟩ := by
              rw [hins.leaf _ _ hr hlt, if_pos ⟨rfl, rfl⟩]
            exact ⟨_, (hext'.own _ _ hlt hlf).1, stack_bits.2⟩
          · exact hall j hj
      · refine wp_assertM (fun hsome => by cases hsome) fun _ => ?_
        exact hmode.resolve_left hno

section Stack

variable {Q : Int × MmStruct → VM → Prop}

theorem wp_userStack (h : Filling vm managed role space mm) (hover : Overruns mm.mmapList stackVma → Asserts E)
    (hstack : bad .noMem ∨ E stackPanic)
    (hok : ∀ vm' role' mm', Filling vm' managed role' space mm' → mm'.pgdir = mm.pgdir →
      Extends vm vm' role role' mm.pgdir W → mm'.mmapList.Perm (stackVma :: mm.mmapList) →
      (∀ i, 0 < i → i ≤ 4 → ∃ lf, leaf vm'.mem mm.pgdir (UPAGES - i) = some lf ∧ lf.perm = PTE_USER) →
      Q (0, mm') vm')
    (hfail : ∀ vm' role' ret mm', ret ≠ 0 → (Mappable mm.mmapList stackVma → ¬bad .noMem ∧ ret = -E_NO_MEM) →
      Filling vm' managed role' space mm' → mm'.pgdir = mm.pgdir → Gains vm vm' role role' mm.pgdir →
      Q (ret, mm') vm') :
    Prog.wp bad (userStack mm) vm Q E := by
  rw [userStack, Prog.wp_bind]
  refine h.wp_mmMap (fun vm₁ role₁ mm₁ hmap hpgdir hlist h₁ hheap => ?_) (fun mm₁ hsame hno => ?_)
    (fun vm₁ mm₁ hno hpgdir h₁ hheap => ?_) hover
  · have hvma : stackVma ∈ mm₁.mmapList := by
      rw [hlist]
      exact insertSorted_perm.mem_iff.mpr List.mem_cons_self
    have hpages := wp_stackPages (W := W) (l := [1, 2, 3, 4]) (E := E) h₁ hvma (by decide) (by decide)
      (fun i hi => ?_) hstack (Q := fun _ => Q (0, mm₁)) fun vm' role' h' hext hall => ?_
    · simp only [ne_eq, not_true_eq_false, if_false, Prog.wp_bind, Prog.wp_pure]
      simp only [stackPages, Prog.wp_bind, Prog.wp_pure] at hpages
      exact hpages
    · cases hlf : leaf vm₁.mem mm₁.pgdir (UPAGES - i) with
      | none => rfl
      | some lf =>
          rw [hheap.mem, hpgdir] at hlf
          have hi : 0 < i ∧ i ≤ 4 := (by decide : ∀ i ∈ [1, 2, 3, 4], 0 < i ∧ i ≤ 4) i hi
          have hlt : UPAGES - i < UPAGES := by
            unfold UPAGES
            omega
          have hcov := stack_covers hi.1 hi.2
          obtain ⟨v, hv, hcov', _⟩ := h.spaceOf.leaf _ lf hlt hlf
          exact absurd ⟨hcov'.1.trans_lt hcov.2, hcov.1.trans_lt hcov'.2⟩ (hmap.2 v hv)
    · rw [hpgdir] at hext hall
      refine hok vm' role' mm₁ h' hpgdir ((hheap.extends h.inv.rep.tree).trans hext) ?_ fun i hpos hle => ?_
      · rw [hlist]
        exact insertSorted_perm
      · refine hall i ?_
        have hcases : i = 1 ∨ i = 2 ∨ i = 3 ∨ i = 4 := by omega
        simpa using hcases
  · have hne : (-E_INVAL : Int) ≠ 0 := by decide
    simp only [if_pos hne, Prog.wp_pure]
    exact hfail vm role _ mm₁ hne (fun hmap => absurd hmap hno) (h.same hsame) hsame.pgdir Gains.refl
  · have hne : (-E_NO_MEM : Int) ≠ 0 := by decide
    simp only [if_pos hne, Prog.wp_pure]
    exact hfail vm₁ role _ mm₁ hne (fun _ => ⟨hno, rfl⟩) h₁ hpgdir (hheap.gains h.inv.rep.tree)

end Stack

-- Where the program headers are
def Image.phoff (img : Image) : Nat := u64 (img.binary + imgField img (img.binary + 32) 8)

def Image.phnum (img : Image) : Nat := headerCount img.phoff (imgField img (img.binary + 56) 2)

def Image.segments (img : Image) : List Phdr := Mm.segments img img.phnum img.phoff

-- An image that load_icode accepts
structure Image.Elf (img : Image) : Prop where
  header : KERNEL_MAP ≤ img.binary ∧ img.binary + 64 ≤ 18446744073709551616
  magic : imgField img img.binary 4 = ELF_MAGIC
  loadable : Loadable img [] img.phnum img.phoff
  stack : ∀ g ∈ img.segments, ¬g.region.Meets stackVma

-- The memory that the image describes
structure Image.In (img : Image) (mem : Nat → Words) (mm : MmStruct) : Prop where
  segments : ∀ g ∈ img.segments, g.In img mem mm.pgdir
  vmas : mm.mmapList.Perm (stackVma :: img.segments.map Phdr.region)
  stack : ∀ i, 0 < i → i ≤ 4 → ∃ lf, leaf mem mm.pgdir (UPAGES - i) = some lf ∧ lf.perm = PTE_USER

theorem stack_mappable : USER_ACCESS stackVma.vmStart stackVma.vmEnd = true := by
  rw [stackVma_eq]
  decide

-- What load_icode reads of the image lies in the map of the kernel.
def Image.Mapped (img : Image) : Prop :=
  (KERNEL_MAP ≤ img.binary ∧ img.binary + 64 ≤ 18446744073709551616) ∧
    (imgField img img.binary 4 = ELF_MAGIC → HeadersMapped img img.phnum img.phoff)

theorem header_readable (h : KERNEL_MAP ≤ img.binary ∧ img.binary + 64 ≤ 18446744073709551616) {k n : Nat}
    (hk : k + n ≤ 64) (hn : 0 < n) : Readable (u64 (img.binary + k)) n := by
  unfold Readable u64 KERNEL_MAP at *
  omega

-- Where a panic is admitted if load_icode runs into it
def Image.Passes (img : Image) (bad : Obs → Prop) (E : Halt → Prop) : Prop :=
  ((KERNEL_MAP ≤ img.binary ∧ img.binary + 64 ≤ 18446744073709551616) ∨ E (.panic "kernel page fault.\n")) ∧
    (imgField img img.binary 4 = ELF_MAGIC →
      Mm.Passes bad E img (fun vmas => Overruns vmas stackVma → Asserts E) img.phnum img.phoff []) ∧
    (bad .noMem ∨ E stackPanic)

theorem Image.Elf.passes (h : img.Elf) (hstack : bad .noMem ∨ E stackPanic) : img.Passes bad E := by
  refine ⟨Or.inl h.header, fun _ => h.loadable.passes fun vmas hperm hover => ?_, hstack⟩
  rw [List.append_nil] at hperm
  obtain ⟨_, _, v, hv, hmeet⟩ := hover
  obtain ⟨g, hg, rfl⟩ := List.mem_map.mp (hperm.mem_iff.mp hv)
  exact absurd hmeet (h.stack g hg)

theorem Careless.image (h : Careless bad E img.Mapped) : img.Passes bad E :=
  ⟨h.faults.imp_left And.left, fun hmagic => (h.imp fun hmapped => hmapped.2 hmagic).passes fun _ _ => h.asserts,
    Or.inr (h.asserts _ (by decide))⟩

theorem Image.Passes.read (h : img.Passes bad E) {k n : Nat} (hk : k + n ≤ 64) (hn : 0 < n)
    (hno : ¬Readable (u64 (img.binary + k)) n) : E (.panic "kernel page fault.\n") :=
  h.1.resolve_left fun hin => hno (header_readable hin hk hn)

theorem wp_loadImage {Q : Int × MmStruct → VM → Prop} (h : Filling vm managed role space mm) (hnil : mm.mmapList = [])
    (hmagic : imgField img img.binary 4 = ELF_MAGIC) (hmode : img.Passes bad E)
    (hok : ∀ vm' role' mm', Filling vm' managed role' space mm' → mm'.pgdir = mm.pgdir →
      Extends vm vm' role role' mm.pgdir (fun a => ∃ g ∈ img.segments, g.Has a) → img.In vm'.mem mm' → Q (0, mm') vm')
    (hfail : ∀ vm' role' ret mm', ret ≠ 0 → (img.Elf → ¬bad .noMem ∧ ret = -E_NO_MEM) →
      Filling vm' managed role' space mm' → mm'.pgdir = mm.pgdir → Gains vm vm' role role' mm.pgdir →
      Q (ret, mm') vm') :
    Prog.wp bad (loadImage img mm img.phoff) vm Q E := by
  rw [loadImage, Prog.wp_bind]
  refine wp_readField (by decide) (fun _ => ?_) (hmode.read (k := 56) (by decide) (by decide))
  rw [Prog.wp_bind]
  refine wp_loadSegments (n := img.phnum) h (by rw [hnil]; exact hmode.2.1 hmagic)
    (fun vm₁ role₁ mm₁ h₁ hpgdir hover hext hall hperm => ?_) fun vm' role' ret mm' hne hno h' hpgdir hgain => ?_
  · rw [hnil, List.append_nil] at hperm
    have hmap : img.Elf → Mappable mm₁.mmapList stackVma := by
      refine fun helf => ⟨stack_mappable, fun v hv => ?_⟩
      obtain ⟨g, hg, rfl⟩ := List.mem_map.mp (hperm.mem_iff.mp hv)
      exact helf.stack g hg
    simp only [ne_eq, not_true_eq_false, if_false]
    refine wp_userStack (W := fun a => ∃ g ∈ img.segments, g.Has a) h₁ hover hmode.2.2
      (fun vm' role' mm' h' hp hext' hperm' hstack => ?_) fun vm' role' ret mm' hne hno h' hp hgain => ?_
    · rw [hpgdir] at hp hext' hstack
      refine hok vm' role' mm' h' hp (hext.trans hext') ⟨fun g hg => ?_, ?_, ?_⟩
      · rw [hp]
        exact (hall g hg).extends hext'
      · exact hperm'.trans (List.Perm.cons _ hperm)
      · rw [hp]
        exact hstack
    · rw [hpgdir] at hp hgain
      exact hfail vm' role' ret mm' hne (fun helf => hno (hmap helf)) h' hp (hext.gains.trans hgain)
  · simp only [if_pos hne, Prog.wp_pure]
    refine hfail vm' role' ret mm' hne (fun helf => hno ?_) h' hpgdir hgain
    rw [hnil]
    exact helf.loadable

-- A page of the process was on the free list, and outside of the segments it holds what it held there.
def Image.Leftover (img : Image) (vm vm' : VM) (role : Nat → Role) (r : Nat) : Prop :=
  ∀ u lf, u < UPAGES → leaf vm'.mem r u = some lf → role lf.frame = .free ∧ ∀ off < PGSIZE,
    (¬∃ g ∈ img.segments, g.Has (u * PGSIZE + off)) → (vm'.mem lf.frame).byte off = (vm.mem lf.frame).byte off

-- What was allocated before the first page was taken from the free list as well.
theorem Extends.leftover {vm₁ vm₂ : VM} {role₁ role₂ : Nat → Role}
    (h : Extends vm₂ vm' role₂ role' r (fun a => ∃ g ∈ img.segments, g.Has a)) (hheap : Heaped vm vm₁ role role₁)
    (hnew : NewRoot vm₁ vm₂ role₁ role₂ r) : img.Leftover vm vm' role r := by
  intro u lf hu hlf
  obtain ⟨hfree, hbyte⟩ := h.new u lf hu (hnew.leaf u hu) hlf
  rw [hnew.role] at hfree
  split_ifs at hfree with hr
  refine ⟨hheap.free_of hfree, fun off hoff hno => ?_⟩
  rw [hbyte off hoff hno, hnew.mem _ hr, hheap.mem]

-- An empty mm is torn down without a walk.
theorem teardown_empty (hnil : mm.mmapList = []) (hcount : mm.mmCount = 0) :
    teardown mm = (do
      putPgdir mm
      mmDestroy mm) := by
  have hexit : exitMmap mm = pure () := by
    unfold exitMmap assertM
    rw [hnil, hcount]
    rfl
  rw [teardown, hexit, Prog.pure_bind]

-- A root that was taken in between
theorem Evolves.forget {c : Nat} (h : Evolves vm vm' role role' (· = c)) (hinv : VmInv vm managed role space)
    (hc : space c = none) : Evolves vm vm' role role' fun _ => False := by
  refine h.mono fun q hq hqc => ?_
  rw [hqc, hinv.root, hc] at hq
  cases hq

-- load_icode up to its labels: what it returns and the mm, unless there is none or no root table
def buildImage (img : Image) : M (Option (Int × MmStruct)) := do
  match ← mmCreate with
  | none => pure none
  | some mm =>
      match ← setupPgdir mm with
      | none => pure none
      | some mm => do
          let phoff ← readField img (img.binary + 32) 8
          let magic ← readField img img.binary 4
          if magic ≠ ELF_MAGIC then pure (some (-E_INVAL_ELF, mm))
          else do
            let (ret, mm) ← loadImage img mm (u64 (img.binary + phoff))
            pure (some (ret, mm))

-- How load_icode gives up: nothing was built, or it tears down what was built.
inductive Image.GivesUp (img : Image) (vm vm' : VM) (managed : Finset Nat) (role role' : Nat → Role)
    (space : Nat → Option (List VmaStruct)) (ret : Int) : Prop
  | early (heaped : Heaped vm vm' role role')
  | torn {vm₁ : VM} {role₁ : Nat → Role} {mm : MmStruct} (builds : (buildImage img vm).result = .ok (some (ret, mm), vm₁))
      (filling : Filling vm₁ managed role₁ space mm) (gains : Gains vm vm₁ role role₁ mm.pgdir)
      (torn : TornDown vm₁ vm' role₁ role' mm.pgdir mm.mmapList)

theorem wp_mmCreate {Q : Option MmStruct → VM → Prop} (h : VmInv vm managed role space)
    (hsome : ∀ vm' role', VmInv vm' managed role' space → Heaped vm vm' role role' →
      Q (some ⟨[], none, 0, 0, 0, false⟩) vm')
    (hnone : ∀ vm', ¬bad .noMem → VmInv vm' managed role space → Heaped vm vm' role role → Q none vm') :
    Prog.wp bad mmCreate vm Q E := by
  rw [mmCreate, Prog.wp_bind]
  refine wp_kmalloc h (fun vm' role' h' hheap => ?_) fun vm' hno h' hheap => ?_
  · rw [if_pos rfl, Prog.wp_pure]
    exact hsome vm' role' h' hheap
  · rw [if_neg (by simp), Prog.wp_pure]
    exact hnone vm' hno h' hheap

theorem NewRoot.gains (h : NewRoot vm vm' role role' r)
    (hev : Evolves vm vm' role role' fun _ => False) : Gains vm vm' role role' r := by
  have hne : ∀ q, role q ≠ .free → q ≠ r := by
    rintro q hq rfl
    exact hq h.was
  refine ⟨hev.mono fun _ _ hno => hno.elim, fun q hq => ?_, fun q hq => ?_, fun q u hq hqr hu => ?_⟩
  · rw [h.role, if_neg (hne q hq)]
  · rw [h.role]
    split_ifs with hqr
    · refine Or.inr (Or.inr (Or.inr ?_))
      rw [hqr]
      exact .root (by rw [h.role, if_pos rfl])
    · exact Or.inl hq
  · exact h.other q u hq hu

section Icode

-- A new address space, filled by load_icode
theorem wp_buildImage {Q : Option (Int × MmStruct) → VM → Prop} (h : VmInv vm managed role space)
    (hmode : img.Passes bad E)
    (hok : ∀ vm' role' mm', Filling vm' managed role' space mm' → Gains vm vm' role role' mm'.pgdir →
      img.In vm'.mem mm' → img.Leftover vm vm' role mm'.pgdir → Q (some (0, mm')) vm')
    (hfail : ∀ vm' role' ret mm', ret ≠ 0 → (img.Elf → ¬bad .noMem ∧ ret = -E_NO_MEM) →
      Filling vm' managed role' space mm' → Gains vm vm' role role' mm'.pgdir → Q (some (ret, mm')) vm')
    (hnone : ∀ vm' role', ¬bad .noMem → VmInv vm' managed role' space → Heaped vm vm' role role' → Q none vm') :
    Prog.wp bad (buildImage img) vm Q E := by
  rw [buildImage, Prog.wp_bind]
  refine wp_mmCreate h (fun vm₁ role₁ h₁ hheap => ?_) fun vm₁ hno h₁ hheap => ?_
  · simp only [Prog.wp_bind]
    refine wp_setupPgdir (R := fun _ => False) h₁ (fun vm₂ role₂ c hnew h₂ hev₂ => ?_) fun hno => ?_
    · have hfill : Filling vm₂ managed role₂ space ⟨[], none, c, 0, 0, false⟩ :=
        ⟨h₂, hnew.space_none h₁, fun _ hno => (by cases hno), rfl, rfl⟩
      have hgain₂ : Gains vm vm₂ role role₂ c := (hheap.gains h.rep.tree).trans (hnew.gains hev₂)
      simp only
      rw [Prog.wp_bind]
      refine wp_readField (by decide) (fun _ => ?_) (hmode.read (k := 32) (by decide) (by decide))
      rw [Prog.wp_bind]
      refine wp_readField (by decide) (fun _ => ?_) (hmode.read (k := 0) (by decide) (by decide))
      by_cases hmagic : imgField img img.binary 4 = ELF_MAGIC
      · rw [if_neg (not_not.mpr hmagic), Prog.wp_bind]
        refine wp_loadImage hfill rfl hmagic hmode (fun vm' role' mm' h' hp hext hin => ?_)
          fun vm' role' ret mm' hne hno h' hp hgain => ?_
        · rw [Prog.wp_pure]
          exact hok vm' role' mm' h' (hp ▸ hgain₂.trans hext.gains) hin (hp ▸ hext.leftover hheap hnew)
        · rw [Prog.wp_pure]
          exact hfail vm' role' ret mm' hne hno h' (hp ▸ hgain₂.trans hgain)
      · rw [if_pos hmagic, Prog.wp_pure]
        exact hfail vm₂ role₂ _ _ (by decide) (fun helf => absurd helf.magic hmagic) hfill hgain₂
    · rw [Prog.wp_pure]
      exact hnone vm₁ role₁ hno h₁ hheap
  · rw [Prog.wp_pure]
    exact hnone vm₁ role hno h₁ hheap

-- What load_icode does with what it has built
def finishImage (img : Image) (task : Task) : Option (Int × MmStruct) → M (Int × Task)
  | none => pure (-E_NO_MEM, task)
  | some (ret, mm) =>
      if ret ≠ 0 then do
        teardown mm
        pure (ret, task)
      else do
        let entry ← readField img (img.binary + 24) 8
        pure (0, { task with
          mm := some { mm with mmCount := mm.mmCount + 1 }
          pgdir := some mm.pgdir
          tf := userFrame task.tf entry })

theorem loadIcode_eq (hmm : task.mm = none) : loadIcode img task = buildImage img >>= finishImage img task := by
  have hempty : ∀ pgdir, teardown ⟨[], none, pgdir, 0, 0, false⟩ = _ := fun _ => teardown_empty rfl rfl
  rw [loadIcode, hmm, if_neg (by simp), buildImage, mmCreate, Prog.bind_assoc, Prog.bind_assoc, Prog.bind_assoc]
  congr 1
  funext ok
  cases ok with
  | false => rfl
  | true =>
      simp only [if_true, Prog.pure_bind, setupPgdir, Prog.bind_assoc]
      congr 1
      funext page
      cases page with
      | none => rfl
      | some page =>
          simp only [Prog.pure_bind, Prog.bind_assoc]
          congr 1
          funext pgdir
          congr 1
          funext _
          congr 1
          funext phoff
          congr 1
          funext magic
          by_cases hmagic : magic ≠ ELF_MAGIC
          · have hne : (-E_INVAL_ELF : Int) ≠ 0 := by decide
            simp only [if_pos hmagic, Prog.pure_bind, finishImage, if_pos hne, hempty, Prog.bind_assoc]
          · simp only [if_neg hmagic, Prog.bind_assoc, Prog.pure_bind]
            rfl

variable {Q : Int × Task → VM → Prop}

-- load_icode for a process without an mm
theorem wp_loadIcode (h : VmInv vm managed role space) (hmm : task.mm = none) (hmode : img.Passes bad E)
    (hdrop : ¬(bad .noMem ∧ img.Elf) → bad .tail ∨ (∀ ret vm', ret ≠ 0 → Q (ret, task) vm') ∧ ∀ e, E e)
    (hok : ∀ vm' role' mm', space mm'.pgdir = none → Filling vm' managed role' space mm' →
      Evolves vm vm' role role' (fun _ => False) → img.In vm'.mem mm' → img.Leftover vm vm' role mm'.pgdir →
      Q (0, { task with
        mm := some { mm' with mmCount := mm'.mmCount + 1 }
        pgdir := some mm'.pgdir
        tf := userFrame task.tf (imgField img (img.binary + 24) 8) }) vm')
    (hfail : ∀ vm' role' ret, ret ≠ 0 → (img.Elf → ¬bad .noMem ∧ ret = -E_NO_MEM) → VmInv vm' managed role' space →
      Evolves vm vm' role role' (fun _ => False) → img.GivesUp vm vm' managed role role' space ret → Q (ret, task) vm') :
    Prog.wp bad (loadIcode img task) vm Q E := by
  rw [loadIcode_eq hmm, Prog.wp_bind]
  refine Prog.wp_result (wp_buildImage h hmode (fun vm' role' mm' h' hgain hin hleft _ => ?_)
    (fun vm₁ role₁ ret mm₁ hne hno h₁ hgain hbuilds => ?_) fun vm' role' hno h' hheap _ => ?_)
  · rw [finishImage, if_neg (by simp), Prog.wp_bind]
    refine wp_readField (by decide) (fun _ => ?_) (hmode.read (k := 24) (by decide) (by decide))
    rw [Prog.wp_pure]
    exact hok vm' role' mm' h'.fresh h' (Evolves.forget hgain.evolves h h'.fresh) hin hleft
  · rw [finishImage, if_pos hne, Prog.wp_bind]
    rcases hdrop fun hno' => (hno hno'.2).1 hno'.1 with htail | ⟨hret, hall⟩
    · refine VmInv.teardown h₁.inv htail (Function.update_self ..) h₁.count fun vm' role' hinv hev htorn => ?_
      rw [update_none h₁.fresh] at hinv
      rw [Prog.wp_pure]
      exact hfail vm' role' ret hne hno hinv (Evolves.forget (hgain.evolves.trans hev) h h₁.fresh)
        (.torn hbuilds h₁ hgain htorn)
    · refine Prog.wp_mono Prog.wp_true (fun _ vm' _ => ?_) fun e _ => hall e
      rw [Prog.wp_pure]
      exact hret ret vm' hne
  · rw [finishImage, Prog.wp_pure]
    exact hfail vm' role' _ (by decide) (fun _ => ⟨hno, rfl⟩) h' (hheap.evolves h.rep.tree) (.early hheap)

end Icode

theorem VmaStruct.Ok.covers {vma : VmaStruct} {addr : Nat} (h : vma.Ok) (hin : vma.contains addr = true) :
    vma.Covers (addr / PGSIZE) := by
  obtain ⟨hlo, hhi⟩ := VmaStruct.contains_iff.mp hin
  have hstart := h.start
  have hstop := h.stop
  unfold VmaStruct.Covers PGSIZE at *
  omega

theorem read_bit : ∀ perm < 1024, perm &&& PTE_R ≠ 0 → perm &&& PTE_R = PTE_R :=
  forall_low (by decide +kernel)

-- A page may be read if it is there and its vma allows it.
theorem VmInv.translate_read {addr : Nat} (h : VmInv vm managed role space) (hs : space mm.pgdir = some mm.mmapList)
    (htop : addr < USERTOP) (hallow : mm.Allows false addr) :
    translate vm mm.pgdir addr PTE_R = (leaf vm.mem mm.pgdir (addr / PGSIZE)).map Leaf.frame := by
  have hr := h.root_of hs
  have hspace := h.space _ _ hs
  rw [h.rep.translate_eq hr (by decide), if_pos htop]
  cases hlf : leaf vm.mem mm.pgdir (addr / PGSIZE) with
  | none => rfl
  | some lf =>
      obtain ⟨⟨vma, hvma, hin, hflag⟩, _⟩ := hallow
      obtain ⟨w, hw, hcov, hperm⟩ := hspace.leaf _ lf (page_lt htop) hlf
      obtain rfl := hspace.unique hw hvma hcov ((hspace.ok vma hvma).covers hin)
      have hbit := read_bit lf.perm hperm.low (hperm.read.mpr (Or.inl hflag))
      rw [Option.bind_some, if_pos hbit, Option.map_some]

theorem wp_userMemCheck {addr len : Nat} {write : Bool} {Q : Bool × Option MmStruct → VM → Prop} (h : mm.Sorted)
    (hq : ∀ ok mm', SameMm mm mm' → (ok = true → USER_ACCESS addr (u64 (addr + len)) = true ∧
      ∀ a, addr ≤ a → a < u64 (addr + len) → mm.Allows write a) → Q (ok, some mm') vm) :
    Prog.wp bad (userMemCheck (some mm) addr len write) vm Q E := by
  simp only [userMemCheck, Prog.wp_ite, Prog.wp_pure, Prog.wp_bind]
  refine ⟨fun _ => hq false mm ⟨rfl, rfl, rfl, rfl, rfl, h.cache⟩ fun hno => absurd hno Bool.false_ne_true, fun haccess => ?_⟩
  have hfuel : u64 (addr + len) - addr < len + 1 := by
    unfold u64
    omega
  obtain ⟨ok, mm', hr, hsame, hok⟩ := memCheckLoop_spec vm write h hfuel
  exact Prog.wp_of_ok hr (hq ok mm' hsame fun hyes => ⟨by simpa using haccess, hok.mp hyes⟩)

-- The bytes lie on pages that are there.
def Present (mem : Nat → Words) (r addr n : Nat) : Prop := ∀ k < n, (leaf mem r ((addr + k) / PGSIZE)).isSome

theorem wp_readName {addr n : Nat} {Q : Unit → VM → Prop} (h : VmInv vm managed role space)
    (hs : space mm.pgdir = some mm.mmapList) (hq : Q () vm)
    (hpanic : (∀ k < n, addr + k < USERTOP ∧ mm.Allows false (addr + k)) ∧ Present vm.mem mm.pgdir addr n ∨
      E (.panic "kernel page fault.\n")) :
    Prog.wp bad (readName mm addr n) vm Q E := by
  induction n generalizing addr with
  | zero =>
      rw [readName, Prog.wp_pure]
      exact hq
  | succ n ih =>
      rw [readName, Prog.wp_bind, Prog.wp_get]
      have hnext : ∀ k, addr + 1 + k = addr + (k + 1) := by omega
      have hrest : Prog.wp bad (readName mm (addr + 1) n) vm Q E := ih (hpanic.imp_left fun hall => ⟨fun k hk => ?_, fun k hk => ?_⟩)
      · cases htr : translate vm mm.pgdir addr PTE_R with
        | none =>
            refine Prog.wp_halt.mpr (hpanic.resolve_left fun hall => ?_)
            obtain ⟨htop, hallow⟩ := hall.1 0 (Nat.succ_pos n)
            have hsome := hall.2 0 (Nat.succ_pos n)
            rw [Nat.add_zero] at htop hallow hsome
            rw [h.translate_read hs htop hallow, Option.map_eq_none_iff] at htr
            rw [htr] at hsome
            cases hsome
        | some page => exact hrest
      · rw [hnext]
        exact hall.1 _ (Nat.succ_lt_succ hk)
      · rw [hnext]
        exact hall.2 _ (Nat.succ_lt_succ hk)

-- How do_execve can end: it refuses the name, or the old address space is gone and the
-- process has that of the image, or it has none and is a zombie.
inductive Execs (space : Nat → Option (List VmaStruct)) (task : Task) (img : Image) (good : Prop)
    (mem mem' : Nat → Words) : Int → Task → (Nat → Option (List VmaStruct)) → Prop
  | refused {mm' : Option MmStruct} (same : ∀ mm, task.mm = some mm → ∃ mm₁, mm' = some mm₁ ∧ SameMm mm mm₁)
      (none : task.mm = none → mm' = none) (kept : mem' = mem) :
      Execs space task img good mem mem' (-E_INVAL) { task with mm := mm' } space
  | loaded {mm : MmStruct} (fresh : without space task.mm mm.pgdir = none)
      (owned : Owned (Function.update (without space task.mm) mm.pgdir (some mm.mmapList)) mm) (image : img.In mem' mm) :
      Execs space task img good mem mem' 0
        { task with
          mm := some mm
          pgdir := some mm.pgdir
          tf := userFrame task.tf (imgField img (img.binary + 24) 8) }
        (Function.update (without space task.mm) mm.pgdir (some mm.mmapList))
  | failed {ret : Int} (fails : ret ≠ 0) (bad : ¬good) :
      Execs space task img good mem mem' ret { task with mm := none, zombie := true } (without space task.mm)

section Execve

variable {current : Current} {name len : Nat} {Q : Int × Task → VM → Prop}

theorem wp_doExecve (h : VmInv vm managed role space) (hbad : bad .tail)
    (hpanic : len < 2 ^ 64 ∧ (∀ mm, task.mm = some mm → Present vm.mem mm.pgdir name (min len PROC_NAME_LEN)) ∨
      E (.panic "kernel page fault.\n"))
    (hmode : bad .noMem ∧ img.Elf ∨ Careless bad E img.Mapped) (ho : ∀ mm, task.mm = some mm → Owned space mm)
    (hq : ∀ ret task' vm' role' space', Execs space task img (bad .noMem ∧ img.Elf) vm.mem vm'.mem ret task' space' →
      VmInv vm' managed role' space' →
      Evolves vm vm' role role' (fun q => ∃ mm, task.mm = some mm ∧ q = mm.pgdir) → Q (ret, task') vm') :
    Prog.wp bad (doExecve current task name len img) vm Q E := by
  -- the part behind the checks
  have hload : ∀ task₁ : Task, (∀ mm, task₁.mm = some mm → Owned space mm) →
      without space task₁.mm = without space task.mm →
      (∀ q, (∃ mm, task₁.mm = some mm ∧ q = mm.pgdir) → ∃ mm, task.mm = some mm ∧ q = mm.pgdir) →
      { task₁ with mm := none } = { task with mm := none } →
      Prog.wp bad (do
        let task ← dropMm task₁
        let loaded ← loadIcode img task
        if loaded.1 ≠ 0 then do
          let task ← doExit current loaded.2
          pure (loaded.1, task)
        else pure (0, loaded.2)) vm Q E := by
    intro task₁ ho₁ hwithout hroots hrest
    rw [Prog.wp_bind]
    refine wp_dropMm h hbad ho₁ fun vm₁ role₁ h₁ hev₁ => ?_
    rw [hwithout] at h₁
    have hev₁ := hev₁.mono fun q _ hq => hroots q hq
    rw [hrest, Prog.wp_bind]
    refine wp_loadIcode h₁ rfl (hmode.elim (fun hgood => hgood.2.passes (Or.inl hgood.1)) Careless.image) (fun _ => Or.inl hbad)
      (fun vm' role' mm' hfresh hfill hev hin _ => ?_) fun vm' role' ret hne hno h' hev _ => ?_
    · simp only [ne_eq, not_true_eq_false, if_false, Prog.wp_pure]
      refine hq 0 _ vm' role' _ (Execs.loaded hfresh ⟨Function.update_self .., hfill.cache, ?_, hfill.lock⟩
        ⟨hin.segments, hin.vmas, hin.stack⟩) hfill.inv
        (hev₁.trans (hev.mono fun _ _ hno => hno.elim))
      show mm'.mmCount + 1 = 1
      rw [hfill.count]
      rfl
    · simp only [if_pos hne, Prog.wp_bind]
      have hno : ¬(bad .noMem ∧ img.Elf) := fun hgood => (hno hgood.2).1 hgood.1
      have hcare := hmode.resolve_left hno
      refine wp_doExit h' hbad (fun _ => hcare.asserts) (fun mm hmm => by cases hmm) fun vm'' role'' h'' hev'' => ?_
      rw [Prog.wp_pure]
      refine hq ret _ vm'' role'' _ (Execs.failed hne hno) h'' (hev₁.trans ?_)
      refine (hev.mono fun _ _ hno => hno.elim).trans (hev''.mono fun _ _ hno => ?_)
      obtain ⟨_, ⟨⟩, _⟩ := hno
  rw [doExecve, Prog.wp_bind]
  cases hmm : task.mm with
  | none =>
      have htask : { task with mm := none } = task := by rw [← hmm]
      simp only [userMemCheck, Prog.wp_pure, htask]
      by_cases hkern : KERN_ACCESS name (u64 (name + len)) = true
      · rw [hkern, if_neg (by simp)]
        exact hload task ho rfl (fun _ hq => hq) rfl
      · rw [Bool.eq_false_iff.mpr hkern, if_pos (by simp), Prog.wp_pure]
        refine hq _ _ vm role space ?_ h Evolves.refl
        have href : Execs space task img (bad .noMem ∧ img.Elf) vm.mem vm.mem (-E_INVAL) { task with mm := none } space :=
          Execs.refused (fun mm hno => by rw [hmm] at hno; cases hno) (fun _ => rfl) rfl
        rw [htask] at href
        exact href
  | some mm =>
      have hown := ho mm hmm
      have hspace := h.space _ _ hown.space
      refine wp_userMemCheck ⟨fun vma hvma => (hspace.ok vma hvma).lt, hspace.sorted, hown.cache⟩ fun ok mm₁ hsame hok => ?_
      simp only
      cases ok with
      | false =>
          rw [if_pos (by simp), Prog.wp_pure]
          refine hq _ _ vm role space (Execs.refused (fun mm' hmm' => ?_) (fun hno => ?_) rfl) h Evolves.refl
          · rw [hmm] at hmm'
            cases hmm'
            exact ⟨mm₁, rfl, hsame⟩
          · rw [hmm] at hno
            cases hno
      | true =>
          rw [if_neg (by simp), Prog.wp_bind]
          obtain ⟨haccess, hall⟩ := hok rfl
          obtain ⟨_, hlt, htop⟩ := of_decide_eq_true haccess
          have hs₁ : space mm₁.pgdir = some mm₁.mmapList := (hown.same hsame).space
          refine wp_readName h hs₁ (hload _ (fun mm' hmm' => ?_) ?_ (fun q hq => ?_) rfl)
            (hpanic.imp_left fun hpresent => ⟨fun k hk => ?_, hsame.pgdir ▸ hpresent.2 mm hmm⟩)
          · cases hmm'
            exact hown.same hsame
          · rw [hmm]
            simp only [without, hsame.pgdir]
          · obtain ⟨_, ⟨⟩, rfl⟩ := hq
            exact ⟨mm, hmm, hsame.pgdir⟩
          · have hin : name + k < u64 (name + len) := by
              have hk := hk.trans_le (min_le_left _ _)
              have hlen := hpresent.1
              unfold u64 at hlt ⊢
              omega
            refine ⟨hin.trans_le htop, ?_⟩
            have hallow := hall (name + k) (Nat.le_add_right _ _) hin
            unfold MmStruct.Allows at hallow ⊢
            rw [hsame.mmapList]
            exact hallow

end Execve

end Ucore.Mm
