import Ucore.Mm.Boot

namespace Ucore.Mm

open Lib Pmm

variable {vm vm' : VM} {managed : Finset Nat} {role role' : Nat → Role} {lk : Option Nat} {a f p q r u : Nat}
  {start stop : Nat}

-- What unmap_range makes of the pages `U` below the root `r`
structure RangeUnmapped (vm vm' : VM) (managed : Finset Nat) (role : Nat → Role) (r : Nat) (U : Finset Nat) :
    Prop where
  gone : ∀ u ∈ U, leaf vm'.mem r u = none
  rest : ∀ q u, role q = .root → u < UPAGES → ¬(q = r ∧ u ∈ U) → leaf vm'.mem q u = leaf vm.mem q u
  mem : ∀ p, (∀ d i j, role d = .dir r i → role p ≠ .table d j) → vm'.mem p = vm.mem p
  ref : ∀ f, role f = .frame → (vm'.area.pages f).ref = (vm.area.pages f).ref - mapped vm.mem r U f
  list : ∃ free l, FreeList vm'.area managed free l ∧
    ∀ p, p ∈ free ↔ role p = .free ∨ role p = .frame ∧ (vm'.area.pages p).ref = 0

theorem Unmapped.root_iff {X : Nat → Prop} (h : Unmapped vm vm' role role' r X) (q : Nat) :
    role' q = .root ↔ role q = .root := by
  have hkeep := h.keep q
  have hframe := h.frame q
  grind

theorem Unmapped.refs_eq {U : Finset Nat} (h : Unmapped vm vm' role role' r (· ∈ U)) (hr : role r = .root)
    (hrm : r ∈ managed) (hU : ∀ u ∈ U, u < UPAGES) (f : Nat) :
    refs managed vm.mem role f = refs managed vm'.mem role' f + mapped vm.mem r U f := by
  refine refs_gain ((h.root_iff r).mpr hr) hrm hU (fun q => (h.root_iff q).symm) (fun u hu => ?_)
    fun q u hq hu hno => ?_
  · rw [h.gone u (hU u hu) hu]
    simp
  · rw [h.rest q u ((h.root_iff q).mp hq) hu hno]

theorem Unmapped.range {U : Finset Nat} (h : Unmapped vm vm' role role' r (· ∈ U)) (hrep : Rep vm managed role lk)
    (hrep' : Rep vm' managed role' lk) (hr : role r = .root) (hU : ∀ u ∈ U, u < UPAGES) :
    RangeUnmapped vm vm' managed role r U := by
  have hrefs := h.refs_eq hr (hrep.root_managed hr) hU
  obtain ⟨free, l, hl, hfree⟩ := hrep'.list
  have href : ∀ f, role f = .frame → (vm'.area.pages f).ref = refs managed vm'.mem role' f := by
    intro f hf
    rcases h.frame f hf with hf' | hf'
    · exact hrep'.ref f hf'
    · rw [hrep'.refs_zero (by rw [hf']; simp), hl.ref f ((hfree f).mp hf')]
      rfl
  refine ⟨fun u hu => h.gone u (hU u hu) hu, h.rest, h.mem, fun f hf => ?_, free, l, hl, fun p => ?_⟩
  · have := hrefs f
    rw [href f hf, hrep.ref f hf]
    omega
  · rw [← hfree]
    by_cases hp : role p = .frame
    · rw [href p hp]
      rcases h.frame p hp with hp' | hp'
      · have := hrep'.used p hp'
        rw [hp', hp]
        simp
        omega
      · rw [hrep'.refs_zero (f := p) (by rw [hp']; simp)]
        simp [hp, hp']
    · rw [h.keep p hp]
      simp [hp]

-- A run that puts no page on the free list twice has given the frames back in turn.
theorem DropsInTurn.of_run {vma : VmaStruct} (h : Rep vm managed role lk) (hr : role r = .root) (hok : vma.Ok)
    (hrun : (unmapRange r vma.vmStart vma.vmEnd vm).result = .ok ((), vm'))
    (hlog : ∀ o ∈ (unmapRange r vma.vmStart vma.vmEnd vm).log, o ≠ .tail) :
    DropsInTurn managed vm.mem role r (vma.vmStart / PGSIZE) (vma.vmEnd / PGSIZE) := by
  have hwpl : Prog.wpl (fun o => o = .tail) (fun o => o ≠ .tail) (unmapRange r vma.vmStart vma.vmEnd) vm
      (fun _ _ => DropsInTurn managed vm.mem role r (vma.vmStart / PGSIZE) (vma.vmEnd / PGSIZE)) fun _ => True :=
    wpl_unmapRange h hr hok (fun _ => rfl) fun _ _ _ _ hall => hall
  have hpost := Prog.wp_ok hwpl.1 hlog hrun
  exact hpost

-- unmap_range does what it should, and puts no page on the free list twice, exactly when
-- each frame it gives back lies below a page free then, or there is none.
theorem unmap_range_exact (h : Rep vm managed role lk) (hr : role r = .root) (hstart : start % PGSIZE = 0)
    (hstop : stop % PGSIZE = 0) (hacc : USER_ACCESS start stop = true) :
    (∃ vm', (unmapRange r start stop vm).result = .ok ((), vm') ∧
      (∀ o ∈ (unmapRange r start stop vm).log, o ≠ .tail) ∧
      RangeUnmapped vm vm' managed role r (Finset.Ico (start / PGSIZE) (stop / PGSIZE))) ↔
    DropsInTurn managed vm.mem role r (start / PGSIZE) (stop / PGSIZE) := by
  obtain ⟨hbase, hlt, htop⟩ := of_decide_eq_true hacc
  have hok : (VmaStruct.mk start stop 0).Ok := ⟨hstart, hstop, hbase, hlt, htop⟩
  constructor
  · rintro ⟨vm', hrun, hlog, _⟩
    exact DropsInTurn.of_run h hr hok hrun hlog
  · intro hall
    have hwpl : Prog.wpl (fun _ => False) (fun o => o ≠ .tail) (unmapRange r start stop) vm
        (fun _ vm' => RangeUnmapped vm vm' managed role r (Finset.Ico (start / PGSIZE) (stop / PGSIZE)))
        fun _ => False := by
      refine wpl_unmapRange h hr hok (fun hno => hno hall) fun vm' role' hrep hun _ => ?_
      have hcov : ∀ u, (VmaStruct.mk start stop 0).Covers u ↔
          u ∈ Finset.Ico (start / PGSIZE) (stop / PGSIZE) := fun u => by
        rw [Finset.mem_Ico]
        exact hok.covers_iff
      have hun' := hun.mono (fun u _ hu => (hcov u).mpr hu) fun u _ hu => Or.inl ((hcov u).mp hu)
      exact hun'.range h hrep hr fun u hu => hok.lt_upages ((hcov u).mpr hu)
    rcases Prog.wp_total hwpl.1 with ⟨_, vm', hrun, hpost⟩ | ⟨_, _, hfalse⟩
    · exact ⟨vm', hrun, hwpl.2 fun _ _ => not_false, hpost⟩
    · exact absurd hfalse not_false

-- One page on a machine with sixteen pages
def pageVm : VM := ((layout PTE_USER [USERBASE] bootVm).result.toOption.map Prod.snd).getD bootVm

theorem pageVm_rep : ∃ role, Rep pageVm (Finset.Ico 0 (0 + 16)) role none ∧ role 0 = .root := by
  obtain ⟨l, hl⟩ := sixteen_freeList
  have hres : (layout PTE_USER [USERBASE] bootVm).result.toOption.map Prod.fst = some (some 0) := by
    decide +kernel
  have hlog : (layout PTE_USER [USERBASE] bootVm).log = [.pte 0 USERBASE 0, .fence USERBASE] := by
    decide +kernel
  exact layout_rep hl rfl (by decide) (by decide) (by decide) (by rw [hlog]; decide) (Prog.result_ok hres bootVm)

theorem unmap_range_exact_page : ∃ vm' role,
    (unmapRange 0 USERBASE (USERBASE + PGSIZE) pageVm).result = .ok ((), vm') ∧
    RangeUnmapped pageVm vm' (Finset.Ico 0 (0 + 16)) role 0
      (Finset.Ico (USERBASE / PGSIZE) ((USERBASE + PGSIZE) / PGSIZE)) := by
  obtain ⟨role, hrep, hr⟩ := pageVm_rep
  have hok : (VmaStruct.mk USERBASE (USERBASE + PGSIZE) 0).Ok :=
    ⟨by decide, by decide, by decide, by decide, by decide⟩
  have hlog : (unmapRange 0 USERBASE (USERBASE + PGSIZE) pageVm).log =
      [.pte 0 USERBASE ((2 + nbase) * 1024 + PTE_USER), .fence USERBASE] := by decide +kernel
  have hres : (unmapRange 0 USERBASE (USERBASE + PGSIZE) pageVm).result.toOption.map Prod.fst = some () := by
    decide +kernel
  have hturn := DropsInTurn.of_run hrep hr hok (Prog.result_ok hres pageVm) (by rw [hlog]; decide)
  obtain ⟨vm', hrun, _, hdone⟩ := (unmap_range_exact hrep hr (by decide) (by decide) (by decide)).mpr hturn
  exact ⟨vm', role, hrun, hdone⟩

-- A machine with seven pages: the tables take pages 0, 3 and 4, and page 1 is the only free
-- one. The frames 5, 2 and 6 stand in this order.
def sevenPages : FreeArea := { twoPages with npages := 7, fits := by decide }

def sevenVm : VM := ⟨((defaultInitMemmap (defaultInit sevenPages) 0 7).toOption).getD sevenPages,
  fun _ => Words.zero, [], []⟩

def threeFrames : List Nat := [USERBASE + PGSIZE, USERBASE, USERBASE + 2 * PGSIZE]

def fullVm : VM := ((layout PTE_USER threeFrames sevenVm).result.toOption.map Prod.snd).getD sevenVm

theorem fullVm_rep : ∃ role, Rep fullVm (Finset.Ico 0 (0 + 7)) role none ∧ role 0 = .root := by
  have hbooted : Booted 0 7 sevenVm.area := ⟨sevenPages, le_rfl, fun _ _ _ => rfl, rfl⟩
  have hl := hbooted.represents.freeList
  rw [Finset.sdiff_empty] at hl
  have hres : (layout PTE_USER threeFrames sevenVm).result.toOption.map Prod.fst = some (some 0) := by
    decide +kernel
  have hlog : (layout PTE_USER threeFrames sevenVm).log =
      [.pte 0 (USERBASE + PGSIZE) 0, .fence (USERBASE + PGSIZE), .pte 0 USERBASE 0, .fence USERBASE,
        .pte 0 (USERBASE + 2 * PGSIZE) 0, .fence (USERBASE + 2 * PGSIZE)] := by decide +kernel
  exact layout_rep hl rfl (by decide) (by decide) (by decide) (by rw [hlog]; decide) (Prog.result_ok hres sevenVm)

theorem unmap_range_hangs : ∃ vm managed role r start stop, Rep vm managed role none ∧ role r = .root ∧
    start % PGSIZE = 0 ∧ stop % PGSIZE = 0 ∧ USER_ACCESS start stop = true ∧
    ¬∃ vm', (unmapRange r start stop vm).result = .ok ((), vm') := by
  obtain ⟨role, hrep, hr⟩ := fullVm_rep
  refine ⟨fullVm, _, role, 0, USERBASE, USERBASE + 3 * PGSIZE, hrep, hr, by decide, by decide, by decide, ?_⟩
  have hres : (unmapRange 0 USERBASE (USERBASE + 3 * PGSIZE) fullVm).result.toOption.map Prod.fst = none := by
    decide +kernel
  rintro ⟨vm', hrun⟩
  exact Prog.result_not_ok hres () vm' hrun

-- What exit_range should give back: with the empty page tables in its range the directories
-- that have no other.
def SpareGives (mem : Nat → Words) (role : Nat → Role) (r a stop : Nat) : Nat → Nat → Prop :=
  Gives mem role r (Within a stop) (Bare mem role (Within a stop))

-- What exit_range should make of the tables below the root `r`: `F` are the tables it frees.
structure RangeExited (vm vm' : VM) (managed : Finset Nat) (role : Nat → Role) (r a stop : Nat)
    (F : Nat → Prop) : Prop where
  trimmed : Trimmed vm vm' managed role F
  below : ∀ p, F p → (∃ i, role p = .dir r i) ∨ ∃ d i j, role d = .dir r i ∧ role p = .table d j
  table : ∀ d i t j, role d = .dir r i → role t = .table d j →
    (F t ↔ Within a stop (i * 512 + j) ∧ Empty (vm.mem t))
  dir : ∀ d i, role d = .dir r i → (F d ↔ (∃ j < 512, Within a stop (i * 512 + j)) ∧ Empty (vm'.mem d))
  leaf : ∀ q u, role q = .root → u < UPAGES → leaf vm'.mem q u = leaf vm.mem q u
  reach : ∀ q u t, role q = .root → u < UPAGES → tabAt vm.mem q u = some t →
    F t ∨ tabAt vm'.mem q u = some t

-- In each directory that the range reaches all its page tables are there exactly when no
-- other is, or none with an entry.
def Even (mem : Nat → Words) (role : Nat → Role) (r a stop : Nat) : Prop :=
  ∀ d i, role d = .dir r i → (∃ j < 512, Within a stop (i * 512 + j)) →
    (Filled role (Within a stop) d i ↔ Bare mem role (Within a stop) d i)

theorem Even.gives_iff {mem : Nat → Words} {s : Nat} (h : Even mem role r a stop) :
    SpareGives mem role r a stop s p ↔ ExitGives mem role r a stop s p :=
  Gives.congr fun d i hd hV => (h d i hd hV).symm

-- When only spare tables are given back no leaf is lost.
theorem Trimmed.spare (h : Trimmed vm vm' managed role fun p => ∃ s, SpareGives vm.mem role r a stop s p)
    (htree : Tree vm.mem role) :
    RangeExited vm vm' managed role r a stop fun p => ∃ s, SpareGives vm.mem role r a stop s p := by
  have htable : ∀ d i t j, role d = .dir r i → role t = .table d j →
      ((∃ s, SpareGives vm.mem role r a stop s t) ↔ Within a stop (i * 512 + j) ∧ Empty (vm.mem t)) :=
    fun _ _ _ _ => Gives.table_iff
  have hdir : ∀ d i, role d = .dir r i → ((∃ s, SpareGives vm.mem role r a stop s d) ↔
      (∃ j < 512, Within a stop (i * 512 + j)) ∧ Bare vm.mem role (Within a stop) d i) :=
    fun _ _ => Gives.dir_iff
  have hbelow : ∀ p, (∃ s, SpareGives vm.mem role r a stop s p) →
      (∃ i, role p = .dir r i) ∨ ∃ d i j, role d = .dir r i ∧ role p = .table d j :=
    fun p ⟨_, hp⟩ => hp.below
  -- a page table below a directory that goes is spare itself
  have hdown : ∀ d t j, (∃ s, SpareGives vm.mem role r a stop s d) → role t = .table d j →
      ∃ s, SpareGives vm.mem role r a stop s t := by
    intro d t j hd ht
    obtain ⟨q, i, hup⟩ := (htree.tableUp ht).1
    rcases hbelow d hd with ⟨i', hd'⟩ | ⟨_, _, _, _, hno⟩
    · exact (htable d i' t j hd' ht).mpr (((hdir d i' hd').mp hd).2 t j ht)
    · rw [hup] at hno
      cases hno
  have hreach : ∀ q u t, role q = .root → u < UPAGES → tabAt vm.mem q u = some t →
      (∃ s, SpareGives vm.mem role r a stop s t) ∨ tabAt vm'.mem q u = some t := by
    intro q u t hq hu ht
    obtain ⟨d, hd, htab⟩ := (htree.tabAt_iff hq hu).mp ht
    by_cases hF : ∃ s, SpareGives vm.mem role r a stop s t
    · exact Or.inl hF
    · right
      rw [← ht]
      have hroot : vm'.mem q (dirIx u) = vm.mem q (dirIx u) := by
        refine h.rest q _ fun p hFp => ⟨fun hp => ?_, fun hp => ?_⟩
        · rw [htree.dir_unique hp hd] at hFp
          exact hF (hdown d t _ hFp htab)
        · obtain ⟨q', i, hup⟩ := (htree.tableUp hp).1
          rw [hq] at hup
          cases hup
      have hentry : vm'.mem d (tabIx u) = vm.mem d (tabIx u) := by
        refine h.rest d _ fun p hFp => ⟨fun hp => ?_, fun hp => ?_⟩
        · rw [(htree.dirUp hp).1] at hd
          cases hd
        · rw [htree.table_unique hp htab] at hFp
          exact hF hFp
      have hsub : subTable (vm.mem q (dirIx u)) = some d := (htree.subTable_root hq (dirIx_lt hu)).mpr hd
      unfold tabAt
      rw [hroot, hsub, Option.bind_some, Option.bind_some, hentry]
  refine ⟨h, hbelow, htable, fun d i hd => ?_, fun q u hq hu => ?_, hreach⟩
  · rw [h.empty_iff htree hd, hdir d i hd]
    refine and_congr_right fun _ => forall_congr' fun t => forall_congr' fun j => forall_congr' fun ht => ?_
    exact (htable d i t j hd ht).symm
  · have hnode : ∀ p, (∃ s, SpareGives vm.mem role r a stop s p) →
        (∃ q i, role p = .dir q i) ∨ ∃ d j, role p = .table d j := by
      intro p hp
      rcases hbelow p hp with ⟨i, hp⟩ | ⟨d, i, j, _, hp⟩
      · exact Or.inl ⟨r, i, hp⟩
      · exact Or.inr ⟨d, j, hp⟩
    have hnot : ¬((∃ s, SpareGives vm.mem role r a stop s q) ∨
        ∃ d j, role q = .table d j ∧ ∃ s, SpareGives vm.mem role r a stop s d) := by
      rintro (hF | ⟨_, _, hno, _⟩)
      · rcases hnode q hF with ⟨_, _, hno⟩ | ⟨_, _, hno⟩ <;> rw [hq] at hno <;> cases hno
      · rw [hq] at hno
        cases hno
    rcases (h.prune htree hnode).leaf htree hq hnot hu with he | ⟨he, t, ht, hX⟩
    · exact he
    · obtain ⟨d, hd, htab⟩ := (htree.tabAt_iff hq hu).mp ht
      have hF : ∃ s, SpareGives vm.mem role r a stop s t := by
        rcases hX with hF | ⟨d', j, htab', hF⟩
        · exact hF
        · exact hdown d' t j hF htab'
      have hempty : Empty (vm.mem t) := by
        rcases hbelow t hF with ⟨i, hno⟩ | ⟨d', i, j, hd', htab'⟩
        · rw [htab] at hno
          cases hno
        · exact ((htable d' i t j hd' htab').mp hF).2
      have hzero : vm.mem t (pteIx u) &&& PTE_V = 0 := hempty (pteIx u) pteIx_lt
      rw [he, Mm.leaf, ht, Option.bind_some, decode, if_pos hzero]

-- exit_range does what it should, and puts no page on the free list twice, exactly when the
-- directories that its range reaches are even and each table that it gives back lies below
-- a page free then, or there is none.
theorem exit_range_exact (h : Base vm managed role) (hr : role r = .root) (hstart : start % PGSIZE = 0)
    (hstop : stop % PGSIZE = 0) (hacc : USER_ACCESS start stop = true) :
    (∃ vm' F, (exitRange r start stop vm).result = .ok ((), vm') ∧
      (∀ o ∈ (exitRange r start stop vm).log, o ≠ .tail) ∧
      RangeExited vm vm' managed role r (start / PTSIZE) stop F) ↔
    Even vm.mem role r (start / PTSIZE) stop ∧
      InTurn (fun q => role q = .free) (SpareGives vm.mem role r (start / PTSIZE) stop) := by
  obtain ⟨hbase, hlt, htop⟩ := of_decide_eq_true hacc
  have hok : (VmaStruct.mk start stop 0).Ok := ⟨hstart, hstop, hbase, hlt, htop⟩
  constructor
  · rintro ⟨vm', F, hrun, hlog, hexit⟩
    have hwpl : Prog.wpl (fun o => o = .tail) (fun o => o ≠ .tail) (exitRange r start stop) vm
        (fun _ vm' => Trimmed vm vm' managed role (fun q => ∃ s, ExitGives vm.mem role r (start / PTSIZE) stop s q) ∧
          InTurn (fun q => role q = .free) (ExitGives vm.mem role r (start / PTSIZE) stop)) fun _ => True :=
      wpl_exitRange h hr hok (fun _ => rfl) fun _ htrim hturn => ⟨htrim, hturn⟩
    obtain ⟨htrim, hturn⟩ := Prog.wp_ok hwpl.1 hlog hrun
    have heven : Even vm.mem role r (start / PTSIZE) stop := by
      intro d i hd hV
      have hcode : F d ↔ Filled role (Within (start / PTSIZE) stop) d i := by
        rw [← hexit.trimmed.entry_iff h.tree hd, htrim.entry_iff h.tree hd]
        exact (Gives.dir_iff hd).trans (and_iff_right hV)
      have hspec : F d ↔ Bare vm.mem role (Within (start / PTSIZE) stop) d i := by
        rw [hexit.dir d i hd, and_iff_right hV, hexit.trimmed.empty_iff h.tree hd]
        refine forall_congr' fun t => forall_congr' fun j => forall_congr' fun ht => ?_
        exact hexit.table d i t j hd ht
      exact hcode.symm.trans hspec
    exact ⟨heven, (InTurn.congr (fun _ => Iff.rfl) fun _ _ => heven.gives_iff).mpr hturn⟩
  · rintro ⟨heven, hturn⟩
    have hgives : InTurn (fun q => role q = .free) (ExitGives vm.mem role r (start / PTSIZE) stop) :=
      (InTurn.congr (fun _ => Iff.rfl) fun _ _ => heven.gives_iff).mp hturn
    have hwpl : Prog.wpl (fun _ => False) (fun o => o ≠ .tail) (exitRange r start stop) vm
        (fun _ vm' => ∃ F, RangeExited vm vm' managed role r (start / PTSIZE) stop F) fun _ => False := by
      refine wpl_exitRange h hr hok (fun hno => hno hgives) fun vm' htrim _ => ⟨_, Trimmed.spare ?_ h.tree⟩
      exact htrim.congr fun q => exists_congr fun s => heven.gives_iff.symm
    rcases Prog.wp_total hwpl.1 with ⟨_, vm', hrun, F, hexit⟩ | ⟨_, _, hfalse⟩
    · exact ⟨vm', F, hrun, hwpl.2 fun _ _ => not_false, hexit⟩
    · exact absurd hfalse not_false

-- The page is unmapped again: its page table is page 4, in the directory in page 3.
def emptyVm : VM :=
  ((unmapRange 0 USERBASE (USERBASE + PGSIZE) pageVm).result.toOption.map Prod.snd).getD pageVm

theorem emptyVm_base : ∃ role, Base emptyVm (Finset.Ico 0 (0 + 16)) role ∧ role 0 = .root := by
  obtain ⟨role, hrep, hr⟩ := pageVm_rep
  have hok : (VmaStruct.mk USERBASE (USERBASE + PGSIZE) 0).Ok :=
    ⟨by decide, by decide, by decide, by decide, by decide⟩
  have hlog : (unmapRange 0 USERBASE (USERBASE + PGSIZE) pageVm).log =
      [.pte 0 USERBASE ((2 + nbase) * 1024 + PTE_USER), .fence USERBASE] := by decide +kernel
  have hres : (unmapRange 0 USERBASE (USERBASE + PGSIZE) pageVm).result.toOption.map Prod.fst = some () := by
    decide +kernel
  have hwpl : Prog.wpl (fun o => o = .tail) (fun o => o ≠ .tail) (unmapRange 0 USERBASE (USERBASE + PGSIZE)) pageVm
      (fun _ vm' => ∃ role, Base vm' (Finset.Ico 0 (0 + 16)) role ∧ role 0 = .root) fun _ => True := by
    refine wpl_unmapRange hrep hr hok (fun _ => rfl) fun vm' role' hrep' hun _ => ⟨role', hrep'.base, ?_⟩
    rw [hun.keep 0 (by rw [hr]; simp), hr]
  have hpost := Prog.wp_ok hwpl.1 (by rw [hlog]; decide) (Prog.result_ok hres pageVm)
  exact hpost

theorem exit_range_exact_table : ∃ vm' F role,
    (exitRange 0 USERBASE (USERBASE + PGSIZE) emptyVm).result = .ok ((), vm') ∧
    RangeExited emptyVm vm' (Finset.Ico 0 (0 + 16)) role 0 (USERBASE / PTSIZE) (USERBASE + PGSIZE) F ∧ F 3 ∧ F 4 := by
  obtain ⟨role, hbase, hr⟩ := emptyVm_base
  have hok : (VmaStruct.mk USERBASE (USERBASE + PGSIZE) 0).Ok :=
    ⟨by decide, by decide, by decide, by decide, by decide⟩
  have hroot : emptyVm.mem 0 0 = pde 3 ∧ emptyVm.mem 0 1 = 0 := by decide +kernel
  have hdir : ∀ j < 512, emptyVm.mem 3 j = if j = 1 then pde 4 else 0 := by decide +kernel
  have htable : ∀ k < 512, emptyVm.mem 4 k = 0 := by decide +kernel
  have hlog : (exitRange 0 USERBASE (USERBASE + PGSIZE) emptyVm).log = [] := by decide +kernel
  have hres : (exitRange 0 USERBASE (USERBASE + PGSIZE) emptyVm).result.toOption.map Prod.fst = some () := by
    decide +kernel
  have hrun := Prog.result_ok hres emptyVm
  have hd : role 3 = .dir 0 0 := by
    rcases hbase.tree.rootEntry hr (show 0 < 511 by decide) with h0 | ⟨_, d, he, hd⟩
    · rw [hroot.1] at h0
      exact absurd h0 pde_ne_zero
    · rw [hroot.1] at he
      rw [pde_inj he]
      exact hd
  have ht : role 4 = .table 3 1 := by
    rcases hbase.tree.dirEntry hd (show 1 < 512 by decide) with h0 | ⟨t, he, ht⟩
    · rw [hdir 1 (by decide), if_pos rfl] at h0
      exact absurd h0 pde_ne_zero
    · rw [hdir 1 (by decide), if_pos rfl] at he
      rw [pde_inj he]
      exact ht
  have hempty : Empty (emptyVm.mem 4) := fun k hk => by rw [htable k hk, Nat.zero_and]
  have hin : ∀ j, Within (USERBASE / PTSIZE) (USERBASE + PGSIZE) (0 * 512 + j) ↔ j = 1 := by
    intro j
    unfold Within PTSIZE PGSIZE NPTEENTRY USERBASE
    omega
  have honly : ∀ t j, role t = .table 3 j → j = 1 := by
    intro t j htab
    obtain ⟨_, hj, he⟩ := hbase.tree.tableUp htab
    rw [hdir j hj] at he
    by_contra hne
    rw [if_neg hne] at he
    exact pde_ne_zero he.symm
  have heven : Even emptyVm.mem role 0 (USERBASE / PTSIZE) (USERBASE + PGSIZE) := by
    intro d i hd' _
    obtain ⟨_, hi, he⟩ := hbase.tree.dirUp hd'
    obtain rfl : i = 0 := by
      by_contra hne
      obtain rfl : i = 1 := by omega
      rw [hroot.2] at he
      exact pde_ne_zero he.symm
    obtain rfl := hbase.tree.dir_unique hd hd'
    refine iff_of_true (fun j _ hV => ⟨4, ?_⟩) fun t j htab => ?_
    · rw [(hin j).mp hV]
      exact ht
    · obtain rfl := honly t j htab
      rw [← hbase.tree.table_unique ht htab]
      exact ⟨(hin 1).mpr rfl, hempty⟩
  have hwpl : Prog.wpl (fun o => o = .tail) (fun o => o ≠ .tail) (exitRange 0 USERBASE (USERBASE + PGSIZE)) emptyVm
      (fun _ _ => InTurn (fun q => role q = .free)
        (ExitGives emptyVm.mem role 0 (USERBASE / PTSIZE) (USERBASE + PGSIZE))) fun _ => True :=
    wpl_exitRange hbase hr hok (fun _ => rfl) fun _ _ hturn => hturn
  have hturn := Prog.wp_ok hwpl.1 (by rw [hlog]; decide) hrun
  obtain ⟨vm', F, hrun', _, hexit⟩ := (exit_range_exact hbase hr (by decide) (by decide) (by decide)).mpr
    ⟨heven, (InTurn.congr (fun _ => Iff.rfl) fun _ _ => heven.gives_iff).mpr hturn⟩
  have hF : F 4 := (hexit.table 3 0 4 1 hd ht).mpr ⟨(hin 1).mpr rfl, hempty⟩
  refine ⟨vm', F, role, hrun', hexit, (hexit.dir 3 0 hd).mpr ⟨⟨1, by decide, (hin 1).mpr rfl⟩, ?_⟩, hF⟩
  rw [hexit.trimmed.empty_iff hbase.tree hd]
  intro t j htab
  obtain rfl := honly t j htab
  rw [← hbase.tree.table_unique ht htab]
  exact hF

-- The directory goes with the page table in it that still maps a page.
theorem exit_range_drops : ∃ vm managed role r start stop, Base vm managed role ∧ role r = .root ∧
    start % PGSIZE = 0 ∧ stop % PGSIZE = 0 ∧ USER_ACCESS start stop = true ∧
    ¬∃ vm' F, (exitRange r start stop vm).result = .ok ((), vm') ∧
      RangeExited vm vm' managed role r (start / PTSIZE) stop F := by
  obtain ⟨role, hrep, hr⟩ := pageVm_rep
  refine ⟨pageVm, _, role, 0, USERBASE, USERBASE + PGSIZE, hrep.base, hr, by decide, by decide, by decide, ?_⟩
  have hlost : (exitRange 0 USERBASE (USERBASE + PGSIZE) pageVm).result.toOption.map
      (fun x => (leaf x.2.mem 0 (USERBASE / PGSIZE)).isSome) = some false := by decide +kernel
  have hleaf : (leaf pageVm.mem 0 (USERBASE / PGSIZE)).isSome = true := by decide +kernel
  rintro ⟨vm', F, hrun, hexit⟩
  have hsame := hexit.leaf 0 (USERBASE / PGSIZE) hr (by decide)
  rw [hrun] at hlost
  have hlost' : (leaf vm'.mem 0 (USERBASE / PGSIZE)).isSome = false := Option.some.inj hlost
  rw [hsame, hleaf] at hlost'
  cases hlost'

end Ucore.Mm
