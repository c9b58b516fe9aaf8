import Ucore.Mm.Spaces

namespace Ucore.Mm

open Lib Pmm

variable {vm vm' : VM} {managed : Finset Nat} {role role' : Nat → Role} {bad : Obs → Prop}
  {addr c f p q r u v value : Nat} {lf : Leaf} {mm mm' : MmStruct} {vmas : List VmaStruct}
  {space : Nat → Option (List VmaStruct)} {E : Halt → Prop}

-- A process has this mm for itself.
structure Owned (space : Nat → Option (List VmaStruct)) (mm : MmStruct) : Prop where
  space : space mm.pgdir = some mm.mmapList
  cache : ∀ vma, mm.mmapCache = some vma → vma ∈ mm.mmapList
  count : mm.mmCount = 1
  lock : mm.mmLock = false

theorem Owned.same (h : Owned space mm) (hs : SameMm mm mm') : Owned space mm' := by
  refine ⟨?_, hs.cache, hs.mmCount.trans h.count, hs.mmLock.trans h.lock⟩
  rw [hs.pgdir, hs.mmapList, h.space]

-- What a leaf grants, seen in the memory of the process
theorem view_some {w : View} (hw : view vm.mem r v = some w) : ∃ lf, v < UPAGES ∧ leaf vm.mem r v = some lf ∧
    w = lf.view vm.mem := by
  unfold view at hw
  split_ifs at hw with hv
  · rw [Option.map_eq_some_iff] at hw
    obtain ⟨lf, hlf, rfl⟩ := hw
    exact ⟨lf, hv, hlf, rfl⟩

theorem view_of_leaf (hv : v < UPAGES) (hlf : leaf vm.mem r v = some lf) :
    view vm.mem r v = some (lf.view vm.mem) := by
  unfold view
  rw [if_pos hv, hlf, Option.map_some]

theorem addr_lt_of_page (h : addr / PGSIZE < UPAGES) : addr < USERTOP := by
  unfold PGSIZE UPAGES at h
  unfold USERTOP
  omega

section Access

-- A load returns a byte of a readable page; else it is refused, and nothing has changed.
theorem wp_userLoad (h : VmInv vm managed role space) (ho : Owned space mm)
    {Q : Option Nat × MmStruct → VM → Prop}
    (hload : ∀ w, view vm.mem mm.pgdir (addr / PGSIZE) = some w → w.readable →
      Q (some (w.words.byte (addr % PGSIZE)), mm) vm)
    (hrefuse : ∀ mm', SameMm mm mm' → (∀ w, view vm.mem mm.pgdir (addr / PGSIZE) = some w → ¬w.readable) →
      Q (none, mm') vm)
    (hfail : ∀ mm', ¬bad .noMem → SameMm mm mm' → Q (none, mm') vm) :
    Prog.wp bad (userLoad mm addr) vm Q E := by
  have hr := h.root_of ho.space
  rw [userLoad, Prog.wp_bind]
  refine wp_access h.rep hr (h.space _ _ ho.space) ho.cache (fun lf hlt hleaf hg => ?_)
    (fun vm' role' mm' lf f hw => by cases hw) (fun mm' hsame hno => ?_) fun mm' hbad hsame => ?_
  · rw [Prog.wp_bind, Prog.wp_get, Prog.wp_pure]
    exact hload (lf.view vm.mem) (view_of_leaf (page_lt hlt) hleaf) hg.1
  · rw [Prog.wp_pure]
    refine hrefuse mm' hsame fun w hw hread => ?_
    obtain ⟨lf, hv, hleaf, rfl⟩ := view_some hw
    exact hno lf (addr_lt_of_page hv) hleaf ⟨hread, fun hno => by cases hno⟩
  · rw [Prog.wp_pure]
    exact hfail mm' hbad hsame

-- What a store leaves: a byte of the page is another one.
structure Stored (vm vm' : VM) (role role' : Nat → Role) (r v off value : Nat) (w : View) : Prop where
  keep : ∀ q, role q ≠ .free → role' q = role q
  page : view vm'.mem r v = some { w with words := w.words.write off 1 fun _ => value }
  rest : ∀ q u, role q = .root → ¬(q = r ∧ u = v) → view vm'.mem q u = view vm.mem q u

theorem Space.readable (h : Space vm.mem r vmas) (hv : v < UPAGES) (hlf : Mm.leaf vm.mem r v = some lf)
    (hw : (lf.view vm.mem).writable) : (lf.view vm.mem).readable := by
  obtain ⟨_, _, _, hperm⟩ := h.leaf v lf hv hlf
  exact hperm.read.mpr (Or.inr (hperm.write.mp hw))

-- The store itself, when the leaf is writable
theorem VmInv.stored (h : VmInv vm managed role space) (hr : role r = .root) (hv : v < UPAGES)
    (hlf : leaf vm.mem r v = some lf) (hw : lf.perm &&& PTE_W ≠ 0) (value off : Nat) :
    VmInv { vm with mem := Function.update vm.mem lf.frame ((vm.mem lf.frame).write off 1 fun _ => value) }
        managed role space ∧
      Stored vm { vm with mem := Function.update vm.mem lf.frame ((vm.mem lf.frame).write off 1 fun _ => value) }
        role role r v off value (lf.view vm.mem) := by
  refine ⟨h.write (h.leaf_frame hr hv hlf), fun _ _ => rfl, ?_, fun q u hq hqu => ?_⟩
  · rw [h.view_written hr hv hlf, view_of_leaf hv hlf]
    rfl
  · exact h.view_write hr hv hlf hw hq hqu

-- A store changes a byte of a writable page of the process, that nobody else sees; else it
-- is refused.
theorem wp_userStore (h : VmInv vm managed role space) (ho : Owned space mm)
    {Q : Option Unit × MmStruct → VM → Prop}
    (hstore : ∀ vm' role' mm' w, view vm.mem mm.pgdir (addr / PGSIZE) = some w → w.writable →
      VmInv vm' managed role' space →
      Stored vm vm' role role' mm.pgdir (addr / PGSIZE) (addr % PGSIZE) value w → SameMm mm mm' →
      Q (some (), mm') vm')
    (hrefuse : ∀ mm', SameMm mm mm' → (∀ w, view vm.mem mm.pgdir (addr / PGSIZE) = some w → ¬w.writable) →
      Q (none, mm') vm)
    (hfail : ∀ mm', ¬bad .noMem → SameMm mm mm' → Q (none, mm') vm) :
    Prog.wp bad (userStore mm addr value) vm Q E := by
  have hr := h.root_of ho.space
  have hspace := h.space _ _ ho.space
  have hoff : ¬(1 = 0 ∨ addr % PGSIZE + 1 ≤ PGSIZE) → False := fun hno =>
    hno (Or.inr (Nat.mod_lt addr (by decide)))
  have hsame : SameMm mm mm := ⟨rfl, rfl, rfl, rfl, rfl, ho.cache⟩
  rw [userStore, Prog.wp_bind]
  refine wp_access h.rep hr hspace ho.cache (fun lf hlt hleaf hg => ?_)
    (fun vm' role' mm' lf f _ hmm hlt hleaf hcow hrep hun => ?_) (fun mm' hmm hno => ?_) fun mm' hbad hmm => ?_
  · obtain ⟨hinv, hst⟩ := h.stored hr (page_lt hlt) hleaf (hg.2 rfl) value (addr % PGSIZE)
    simp only [writeBytes, Prog.wp_bind, Prog.wp_ite, Prog.wp_modify, Prog.wp_pure, Prog.wp_halt]
    refine ⟨fun _ => ?_, fun hno => (hoff hno).elim⟩
    exact hstore _ role mm _ (view_of_leaf (page_lt hlt) hleaf) (Or.inl (hg.2 rfl)) hinv hst hsame
  · have hv := page_lt hlt
    have hinv := hun.inv h hrep ho.space hleaf hcow
    have hr' : role' mm.pgdir = .root := (hun.root_iff _).mpr hr
    have hleaf' : leaf vm'.mem mm.pgdir (addr / PGSIZE) = some ⟨f, uncow lf.perm⟩ := by
      rw [hun.leaf _ _ hr hv, if_pos ⟨rfl, rfl⟩]
    have hw := (uncow_bits lf.perm (h.rep.tree.leaf_valid hr hv hleaf).1).2.1
    have hviews := fun q => hun.view_eq h.rep.tree hr hv hleaf hcow (q := q)
    obtain ⟨hinv', hst⟩ := hinv.stored hr' hv hleaf' hw value (addr % PGSIZE)
    simp only [writeBytes, Prog.wp_bind, Prog.wp_ite, Prog.wp_modify, Prog.wp_pure, Prog.wp_halt]
    refine ⟨fun _ => ?_, fun hno => (hoff hno).elim⟩
    refine hstore _ role' mm' (Leaf.view vm'.mem ⟨f, uncow lf.perm⟩) ?_ (Or.inl hw) hinv'
      ⟨fun q hq => hun.keep hq, hst.page, fun q u hq hqu => ?_⟩ hmm
    · rw [← hviews _ hr, view_of_leaf hv hleaf']
    · rw [hst.rest q u ((hun.root_iff q).mpr hq) hqu, hviews q hq]
  · rw [Prog.wp_pure]
    refine hrefuse mm' hmm fun w hw hwrite => ?_
    obtain ⟨lf, hv, hleaf, rfl⟩ := view_some hw
    exact hno lf (addr_lt_of_page hv) hleaf ⟨hspace.readable hv hleaf hwrite, fun _ => hwrite⟩
  · rw [Prog.wp_pure]
    exact hfail mm' hbad hmm

-- A store of the kernel does not call do_pgfault: the leaf must be there and have PTE_W.
def Writable (vm : VM) (r addr : Nat) : Prop :=
  addr < USERTOP ∧ ∃ lf, leaf vm.mem r (addr / PGSIZE) = some lf ∧ lf.perm &&& PTE_W ≠ 0

theorem write_bit : ∀ perm < 1024, perm &&& PTE_W = PTE_W ↔ perm &&& PTE_W ≠ 0 :=
  forall_low (by decide +kernel)

theorem VmInv.translate_write (h : VmInv vm managed role space) (hr : role r = .root) (addr : Nat) :
    match translate vm r addr PTE_W with
    | none => ¬Writable vm r addr
    | some page => addr < USERTOP ∧ ∃ lf, leaf vm.mem r (addr / PGSIZE) = some lf ∧ lf.perm &&& PTE_W ≠ 0 ∧
        page = lf.frame := by
  rw [h.rep.translate_eq hr (by decide)]
  by_cases haddr : addr < USERTOP
  · rw [if_pos haddr]
    cases hlf : leaf vm.mem r (addr / PGSIZE) with
    | none =>
        rintro ⟨_, lf, hno, _⟩
        rw [hlf] at hno
        cases hno
    | some lf =>
        have hlow := (h.rep.tree.leaf_valid hr (page_lt haddr) hlf).1
        by_cases hw : lf.perm &&& PTE_W ≠ 0
        · rw [Option.bind_some, if_pos ((write_bit _ hlow).mpr hw)]
          exact ⟨haddr, lf, rfl, hw, rfl⟩
        · rw [Option.bind_some, if_neg fun hbit => hw ((write_bit _ hlow).mp hbit)]
          rintro ⟨_, lf', hlf', hw'⟩
          rw [hlf] at hlf'
          cases hlf'
          exact hw hw'
  · rw [if_neg haddr]
    exact fun hno => haddr hno.1

-- The stores of do_wait change no leaf, and no page of another process.
theorem wp_storeBytes (h : VmInv vm managed role space) (hs : space mm.pgdir = some vmas) {n : Nat} {Q : Unit → VM → Prop}
    (hpanic : (∃ k < n, ¬Writable vm mm.pgdir (addr + k)) → E (.panic "kernel page fault.\n"))
    (hq : ∀ vm', (∀ k < n, Writable vm mm.pgdir (addr + k)) → VmInv vm' managed role space →
      (∀ q v, role q = .root → q ≠ mm.pgdir → view vm'.mem q v = view vm.mem q v) → Q () vm') :
    Prog.wp bad (storeBytes mm addr value n) vm Q E := by
  have hr := h.root_of hs
  induction n generalizing addr value vm with
  | zero =>
      rw [storeBytes, Prog.wp_pure]
      exact hq vm (fun _ hk => absurd hk (Nat.not_lt_zero _)) h fun _ _ _ _ => rfl
  | succ n ih =>
      have hpage := h.translate_write hr addr
      rw [storeBytes, Prog.wp_bind, Prog.wp_get]
      cases htr : translate vm mm.pgdir addr PTE_W with
      | none =>
          rw [htr] at hpage
          exact Prog.wp_halt.mpr (hpanic ⟨0, Nat.succ_pos n, hpage⟩)
      | some page =>
          rw [htr] at hpage
          obtain ⟨haddr, lf, hlf, hw, rfl⟩ := hpage
          have hoff : addr % PGSIZE + 1 ≤ PGSIZE := Nat.mod_lt addr (by decide)
          obtain ⟨hinv, hst⟩ := h.stored hr (page_lt haddr) hlf hw (value % 256) (addr % PGSIZE)
          have hleaf := (h.rep.writePlain (w := (vm.mem lf.frame).write (addr % PGSIZE) 1 fun _ => value % 256)
            (by rw [h.leaf_frame hr (page_lt haddr) hlf]; rfl)).2
          have hkeep : ∀ a, Writable { vm with mem := _ } mm.pgdir a ↔ Writable vm mm.pgdir a := fun a =>
            and_congr_right fun ha => by rw [hleaf _ _ hr (page_lt ha)]
          simp only [writeBytes, Prog.wp_bind, Prog.wp_ite, Prog.wp_modify, Prog.wp_halt]
          refine ⟨fun _ => ?_, fun hno => (hno (Or.inr hoff)).elim⟩
          refine ih hinv ?_ fun vm' hall h' hview => ?_
          · rintro ⟨k, hk, hno⟩
            refine hpanic ⟨k + 1, Nat.succ_lt_succ hk, ?_⟩
            rw [Nat.add_assoc, Nat.add_comm 1 k] at hno
            exact fun hyes => hno ((hkeep _).mpr hyes)
          · refine hq vm' (fun k hk => ?_) h' fun q v hq hne => ?_
            · cases k with
              | zero => exact ⟨haddr, lf, hlf, hw⟩
              | succ k =>
                  have hk' := hall k (Nat.lt_of_succ_lt_succ hk)
                  rw [Nat.add_assoc, Nat.add_comm 1 k] at hk'
                  exact (hkeep _).mp hk'
            · rw [hview q v hq hne]
              exact hst.rest q v hq fun hno => hne hno.1

end Access

-- The address spaces without that of `mm`
def without (space : Nat → Option (List VmaStruct)) : Option MmStruct → Nat → Option (List VmaStruct)
  | none => space
  | some mm => Function.update space mm.pgdir none

section Drop

variable {task : Task}

-- exit_mmap, put_pgdir and mm_destroy
theorem VmInv.teardown (h : VmInv vm managed role space) (hbad : bad .tail) (hs : space mm.pgdir = some mm.mmapList)
    (hcount : mm.mmCount = 0) {Q : Unit → VM → Prop}
    (hq : ∀ vm' role', VmInv vm' managed role' (Function.update space mm.pgdir none) →
      Evolves vm vm' role role' (· = mm.pgdir) → TornDown vm vm' role role' mm.pgdir mm.mmapList → Q () vm') :
    Prog.wp bad (Mm.teardown mm) vm Q E := by
  have hspace := h.space _ _ hs
  have hr := h.root_of hs
  refine wp_teardown h.rep hbad hr hcount hspace.ok (fun u lf hu hlf => ?_) fun vm' role' hrep htorn => ?_
  · obtain ⟨vma, hvma, hcov, _⟩ := hspace.leaf u lf hu hlf
    exact ⟨vma, hvma, hcov⟩
  · exact hq vm' role' (htorn.inv h hrep) (htorn.evolves h.rep.tree hr) htorn

theorem wp_dropMm (h : VmInv vm managed role space) (hbad : bad .tail)
    (ho : ∀ mm, task.mm = some mm → Owned space mm) {Q : Task → VM → Prop}
    (hq : ∀ vm' role', VmInv vm' managed role' (without space task.mm) →
      Evolves vm vm' role role' (fun q => ∃ mm, task.mm = some mm ∧ q = mm.pgdir) →
      Q { task with mm := none } vm') :
    Prog.wp bad (dropMm task) vm Q E := by
  unfold dropMm
  cases hmm : task.mm with
  | none =>
      rw [Prog.wp_pure]
      have hdone := hq vm role (by rw [hmm]; exact h) Evolves.refl
      have htask : { task with mm := none } = task := by rw [← hmm]
      rw [htask] at hdone
      exact hdone
  | some mm =>
      have hown := ho mm hmm
      have hzero : mm.mmCount - 1 = 0 := by
        rw [hown.count]
        rfl
      simp only [hzero, if_true, Prog.wp_bind]
      have hspace : space { mm with mmCount := 0 }.pgdir = some { mm with mmCount := 0 }.mmapList := hown.space
      refine h.teardown hbad hspace rfl fun vm' role' hinv hev _ => ?_
      rw [Prog.wp_pure]
      refine hq vm' role' ?_ (hev.mono fun q _ hqr => ⟨mm, hmm, hqr⟩)
      rw [hmm]
      exact hinv

-- Only idleproc and initproc panic.
theorem wp_doExit {current : Current} (h : VmInv vm managed role space) (hbad : bad .tail)
    (hcur : current ≠ .other → Asserts E) (ho : ∀ mm, task.mm = some mm → Owned space mm)
    {Q : Task → VM → Prop}
    (hq : ∀ vm' role', VmInv vm' managed role' (without space task.mm) →
      Evolves vm vm' role role' (fun q => ∃ mm, task.mm = some mm ∧ q = mm.pgdir) →
      Q { task with mm := none, zombie := true } vm') :
    Prog.wp bad (doExit current task) vm Q E := by
  cases current with
  | idleproc => exact Prog.wp_halt.mpr (hcur (by simp) _ (by decide))
  | initproc => exact Prog.wp_halt.mpr (hcur (by simp) _ (by decide))
  | other =>
      simp only [doExit, Prog.wp_bind]
      refine wp_dropMm h hbad ho fun vm' role' hinv hev => ?_
      rw [Prog.wp_pure]
      exact hq vm' role' hinv hev

end Drop

section Fork

-- What copy_mm and do_fork leave when they give up: the parent sees the same memory.
theorem NewRoot.space_none (h : NewRoot vm vm' role role' p) (hinv : VmInv vm managed role space) :
    space p = none := by
  have hno := (hinv.root p).not.mp (by rw [h.was]; simp)
  exact Option.not_isSome_iff_eq_none.mp hno

theorem update_none (hs : space c = none) (o : Option (List VmaStruct)) :
    Function.update (Function.update space c o) c none = space := by
  rw [Function.update_idem, ← hs, Function.update_eq_self]

-- copy_mm of a process
theorem wp_copyMm (h : VmInv vm managed role space) (hbad : bad .tail) (ho : Owned space mm)
    {Q : Int × Option MmStruct × Option MmStruct → VM → Prop}
    (hok : ∀ vm' role' mm', space mm'.pgdir = none → mm'.mmapList = mm.mmapList →
      Owned (Function.update space mm'.pgdir (some mm.mmapList)) mm' →
      VmInv vm' managed role' (Function.update space mm'.pgdir (some mm.mmapList)) →
      Evolves vm vm' role role' (fun _ => False) →
      (∀ u, view vm'.mem mm'.pgdir u = view vm.mem mm.pgdir u) → Q (0, some mm', some mm) vm')
    (hfail : ∀ vm' role', ¬bad .noMem → VmInv vm' managed role' space →
      Evolves vm vm' role role' (fun _ => False) → Q (-E_NO_MEM, none, some mm) vm') :
    Prog.wp bad (copyMm (some mm)) vm Q E := by
  simp only [copyMm, mmCreate, Prog.wp_bind]
  refine wp_kmalloc h (fun vm₁ role₁ h₁ hheap => ?_) fun vm₁ hbad' h₁ hheap => ?_
  · have hev₁ : Evolves vm vm₁ role role₁ fun _ => False := hheap.evolves h.rep.tree
    rw [if_pos rfl, Prog.wp_pure]
    simp only [Prog.wp_bind]
    refine wp_setupPgdir (R := fun _ => False) h₁ (fun vm₂ role₂ c hnew h₂ hev₂ => ?_) fun hbad' => ?_
    · have hsc := hnew.space_none h₁
      have hcp : c ≠ mm.pgdir := by
        rintro rfl
        rw [ho.space] at hsc
        cases hsc
      have hev₂ := hev₁.trans hev₂
      have hsp₂ : Function.update space c (some []) mm.pgdir = some mm.mmapList := by
        rw [Function.update_of_ne hcp.symm, ho.space]
      have hsc₂ : Function.update space c (some ([] : List VmaStruct)) c = some [] := Function.update_self ..
      have hspace := h₂.space _ _ hsp₂
      have hp₂ := h₂.root_of hsp₂
      have hc₂ := h₂.root_of hsc₂
      have hlock : { mm with mmLock := false } = mm := by
        rw [← ho.lock]
      have hchild : ∀ u, u < UPAGES → leaf vm₂.mem c u = none := fun u hu => h₂.fresh hsc₂ hu
      -- `c` is new, so the other roots are those from before
      have hmono : ∀ {vm' role'}, Evolves vm₂ vm' role₂ role' (· = c) → Evolves vm vm' role role' fun _ => False := by
        intro vm' role' hev
        have hfree : role c ≠ .root := by
          intro hc
          have hsome := (h.root c).mp hc
          rw [hsc] at hsome
          cases hsome
        refine Evolves.mono ((hev₂.mono fun _ _ hno => hno.elim).trans hev) fun q hq hqc => ?_
        rw [hqc] at hq
        exact hfree hq
      simp only [lockMm, ho.lock, Bool.false_eq_true, if_false, Prog.wp_pure, dupMmap, Prog.wp_bind]
      refine wp_dupLoop h₂.rep hp₂ hc₂ hcp ?_ (fun vma hvma => hspace.ok vma (List.mem_reverse.mp hvma)) ?_
        (fun u hu => ?_) (fun vm₃ role₃ h₃ hcopy => ?_) fun vm₃ role₃ done X hbad' h₃ hshare hdone hX => ?_
      · exact ⟨fun _ hvma => absurd hvma List.not_mem_nil, List.Pairwise.nil, fun _ hno => by cases hno⟩
      · rw [List.reverse_reverse, List.append_nil]
        exact hspace.sorted
      · obtain ⟨vma, hvma, hu⟩ := hu
        exact hchild u ((hspace.ok vma (List.mem_reverse.mp hvma)).lt_upages hu)
      · simp only [List.mem_reverse] at hcopy
        have hshare := hcopy.shared
        have hinv := hshare.inv h₂ h₃ hsp₂ hsc₂ (fun _ hu => hu) (List.Sublist.refl mm.mmapList)
        have hev := hmono (hshare.evolves h₂.rep.tree hp₂)
        have hview : ∀ u, view vm₃.mem c u = view vm.mem mm.pgdir u := by
          intro u
          rw [hshare.view_child hchild h₂.rep.tree hp₂ hc₂ (fun u lf hu hlf => ?_) u,
            hev₂.view mm.pgdir u (h.root_of ho.space) not_false]
          obtain ⟨vma, hvma, hcov, _⟩ := hspace.leaf u lf hu hlf
          exact ⟨vma, hvma, hcov⟩
        rw [Function.update_idem] at hinv
        simp only [unlockMm, if_true, Prog.wp_pure, hlock, ne_eq, not_true_eq_false, if_false,
          List.reverse_reverse, List.append_nil]
        exact hok vm₃ role₃ ⟨mm.mmapList, none, c, 0 + mm.mmapList.reverse.length, 0 + 1, false⟩ hsc rfl
          ⟨Function.update_self .., fun _ hno => (by cases hno), rfl, rfl⟩ hinv hev hview
      · have hsub : done.reverse.Sublist mm.mmapList := by
          have hsuffix := List.reverse_suffix.mpr hdone
          rw [List.reverse_reverse] at hsuffix
          exact hsuffix.sublist
        have hX' : ∀ u, X u → ∃ vma ∈ done.reverse, vma.Covers u := by
          simp only [List.mem_reverse]
          exact hX
        have hinv := hshare.inv h₂ h₃ hsp₂ hsc₂ hX' hsub
        have hev := hshare.evolves h₂.rep.tree hp₂
        rw [Function.update_idem] at hinv
        have hne : (-E_NO_MEM : Int) ≠ 0 := by decide
        simp only [unlockMm, if_true, Prog.wp_pure, hlock, if_pos hne, Prog.wp_bind, List.append_nil]
        have hdst : Function.update space c (some done.reverse) c = some done.reverse := Function.update_self ..
        refine VmInv.teardown hinv hbad hdst rfl fun vm₄ role₄ h₄ hev' _ => ?_
        rw [update_none hsc] at h₄
        exact hfail vm₄ role₄ hbad' h₄ (hmono (hev.trans hev'))
    · simp only [mmDestroy, assertM, decide_true, if_true, Prog.wp_bind, Prog.wp_pure]
      exact hfail vm₁ role₁ hbad' h₁ hev₁
  · rw [if_neg (by simp), Prog.wp_pure, Prog.wp_pure]
    exact hfail vm₁ role hbad' h₁ (hheap.evolves h.rep.tree)

-- The mm of the child beside that of the parent
inductive Forked (vm vm' : VM) (space : Nat → Option (List VmaStruct)) :
    Option MmStruct → Option MmStruct → (Nat → Option (List VmaStruct)) → Prop
  | none : Forked vm vm' space none none space
  | some {mm mm' : MmStruct} (fresh : space mm'.pgdir = none) (mmapList : mm'.mmapList = mm.mmapList)
      (owned : Owned (Function.update space mm'.pgdir (some mm.mmapList)) mm')
      (view : ∀ u, view vm'.mem mm'.pgdir u = view vm.mem mm.pgdir u) :
      Forked vm vm' space (some mm) (some mm') (Function.update space mm'.pgdir (some mm.mmapList))

-- A kernel stack taken in between is given back.
theorem Evolves.dropStack {vm₁ : VM} {role₁ : Nat → Role} {k : Nat} {R : Nat → Prop} (h : Evolves vm vm' role role' R)
    (hd : DropStack vm' vm₁ role' role₁ k) (hk : role k = .free ∧ role (k + 1) = .free) :
    Evolves vm vm₁ role role₁ R := by
  have hsame : ∀ q, role q ≠ .free → role₁ q = role' q := by
    intro q hq
    rw [hd.role, if_neg]
    rintro (rfl | rfl)
    · exact hq hk.1
    · exact hq hk.2
  refine ⟨fun p b hp => ?_, fun q hq hR => ?_, fun q u hq hR => ?_⟩
  · rw [hsame p (by rw [hp]; simp), h.kstack p b hp]
  · rw [hsame q (by rw [hq]; simp), h.root q hq hR]
  · rw [hd.mem, h.view q u hq hR]

-- The memory side of do_fork
theorem wp_doFork {parent : Task} {stack : Nat} {nrProcess : Int} (h : VmInv vm managed role space) (hbad : bad .tail)
    (ho : ∀ mm, parent.mm = some mm → Owned space mm) {Q : Int × Option Task × Task → VM → Prop}
    (hfull : MAX_PROCESS ≤ nrProcess → Q (-E_NO_FREE_PROC, none, parent) vm)
    (hok : ∀ vm' role' space' k mm', nrProcess < MAX_PROCESS → role k = .free ∧ role (k + 1) = .free →
      role' k = .kstack k ∧ role' (k + 1) = .kstack k → Forked vm vm' space parent.mm mm' space' →
      VmInv vm' managed role' space' → Evolves vm vm' role role' (fun _ => False) →
      Q (0, some ⟨some k, mm', mm'.map MmStruct.pgdir, copyThread k stack parent.tf, false⟩, parent) vm')
    (hfail : ∀ vm' role', nrProcess < MAX_PROCESS → ¬bad .noMem → VmInv vm' managed role' space →
      Evolves vm vm' role role' (fun _ => False) → Q (-E_NO_MEM, none, parent) vm') :
    Prog.wp bad (doFork nrProcess parent stack) vm Q E := by
  rw [doFork]
  by_cases hnr : nrProcess ≥ MAX_PROCESS
  · rw [if_pos hnr, Prog.wp_pure]
    exact hfull hnr
  rw [if_neg hnr, Prog.wp_bind]
  have hnr := not_le.mp hnr
  refine wp_kmalloc h (fun vm₁ role₁ h₁ hheap => ?_) fun vm₁ hbad' h₁ hheap => ?_
  · have hev₁ : Evolves vm vm₁ role role₁ fun _ => False := hheap.evolves h.rep.tree
    rw [if_pos rfl, Prog.wp_bind]
    refine wp_setupKstack (R := fun _ => False) h₁ (fun vm₂ role₂ k hnew h₂ hev₂ => ?_) fun hbad' => ?_
    · have hev₂ := hev₁.trans hev₂
      have hfree : ∀ q, role₁ q = .free → role q = .free := by
        intro q hq
        by_contra hno
        exact hno ((hheap.keep q hno).symm.trans hq)
      have hk : role k = .free ∧ role (k + 1) = .free := ⟨hfree k hnew.was.1, hfree (k + 1) hnew.was.2⟩
      have hk₂ : role₂ k = .kstack k ∧ role₂ (k + 1) = .kstack k :=
        ⟨by rw [hnew.role, if_pos (Or.inl rfl)], by rw [hnew.role, if_pos (Or.inr rfl)]⟩
      have hmem₂ : vm₂.mem = vm.mem := hnew.mem.trans hheap.mem
      simp only [Prog.wp_bind]
      cases hmm : parent.mm with
      | none =>
          have hparent : { parent with mm := none } = parent := by rw [← hmm]
          simp only [copyMm, Prog.wp_pure, hparent, ne_eq, not_true_eq_false, if_false]
          refine hok vm₂ role₂ space k none hnr hk hk₂ ?_ h₂ hev₂
          rw [hmm]
          exact .none
      | some mm =>
          have hparent : { parent with mm := some mm } = parent := by rw [← hmm]
          refine wp_copyMm h₂ hbad (ho mm hmm) (fun vm₃ role₃ mm' hfresh hlist hown h₃ hev₃ hview => ?_)
            fun vm₃ role₃ hbad' h₃ hev₃ => ?_
          · simp only [hparent, ne_eq, not_true_eq_false, if_false, Prog.wp_pure]
            have hk₃ := And.intro (hev₃.kstack _ _ hk₂.1) (hev₃.kstack _ _ hk₂.2)
            refine hok vm₃ role₃ _ k (some mm') hnr hk hk₃ ?_ h₃ (hev₂.trans hev₃)
            rw [hmm]
            refine .some hfresh hlist hown fun u => ?_
            rw [hview, hmem₂]
          · have hne : (-E_NO_MEM : Int) ≠ 0 := by decide
            simp only [hparent, if_pos hne, Prog.wp_bind]
            refine wp_putKstack h₃ hbad ⟨hev₃.kstack _ _ hk₂.1, hev₃.kstack _ _ hk₂.2⟩ fun vm₄ role₄ hdrop h₄ => ?_
            rw [Prog.wp_pure]
            exact hfail vm₄ role₄ hnr hbad' h₄ ((hev₂.trans hev₃).dropStack hdrop hk)
    · rw [Prog.wp_pure]
      exact hfail vm₁ role₁ hnr hbad' h₁ hev₁
  · rw [if_neg (by simp), Prog.wp_pure]
    exact hfail vm₁ role hnr hbad' h₁ (hheap.evolves h.rep.tree)

end Fork

end Ucore.Mm
