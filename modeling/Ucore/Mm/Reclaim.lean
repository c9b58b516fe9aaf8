import Ucore.Mm.Theorems

namespace Ucore.Mm

open Lib Pmm

variable {s s₀ : Sys} {vm vm' : VM} {managed : Finset Nat} {role role' : Nat → Role} {i j p r v J : Nat}
  {lf : Leaf} {mm : MmStruct} {space : Nat → Option (List VmaStruct)} {t : Task}

-- What process `i` has for itself: its tables, and the frames that no other maps
def Sys.Own (s : Sys) (i p : Nat) : Prop :=
  (∃ mm, s.mm i = some mm ∧ TableOf s.vm.mem mm.pgdir p) ∨
    (∃ v lf, s.Maps i v lf ∧ lf.frame = p) ∧ ∀ j v lf, s.Maps j v lf → lf.frame = p → j = i

-- It is given back, and nothing besides.
structure Sys.Reclaims (s : Sys) (i : Nat) (vm' : VM) : Prop where
  free : ∀ p, OnFreeList vm'.area p ↔ OnFreeList s.vm.area p ∨ s.Own i p
  count : vm'.area.nrFree = s.vm.area.nrFree + {p | s.Own i p}.ncard
  others : ∀ j v lf, j ≠ i → s.Maps j v lf → ∃ mm, s.mm j = some mm ∧ leaf vm'.mem mm.pgdir v = some lf

namespace SysInv

-- A frame stays as long as another process maps it.
theorem frame_freed (h : SysInv s managed role space) (ht : s.task i = some t) (hmm : t.mm = some mm)
    (hrep : Rep vm' managed role' none) (htorn : TornDown s.vm vm' role role' mm.pgdir mm.mmapList)
    (hp : role p = .frame) : role' p = .free ↔ ∀ j v lf, s.Maps j v lf → lf.frame = p → j = i := by
  have hi : s.mm i = some mm := (Sys.mm_eq ht).trans hmm
  constructor
  · rintro hfree j v lf ⟨mm', hmm', hv, hlf⟩ rfl
    by_contra hj
    have hne : mm'.pgdir ≠ mm.pgdir := fun he => hj (h.apart j i mm' mm hmm' hi he)
    have hroot := (htorn.root_iff mm'.pgdir).mpr ⟨h.root hmm', hne⟩
    rw [← htorn.leaf _ v (h.root hmm') hne hv] at hlf
    have hframe := hrep.tree.leaf_frame hroot hv hlf
    rw [hfree] at hframe
    cases hframe
  · intro halone
    refine (htorn.frame p hp).resolve_left fun hframe => ?_
    obtain ⟨q, v, lf, hq, hv, hlf, he⟩ := hrep.mapped hframe
    obtain ⟨hq, hne⟩ := (htorn.root_iff q).mp hq
    rw [htorn.leaf q v hq hne hv] at hlf
    obtain ⟨j, mm', hmm', rfl⟩ := h.owner q ((h.vm.root q).mp hq)
    obtain rfl := halone j v lf ⟨mm', hmm', hv, hlf⟩ he
    rw [hi] at hmm'
    cases hmm'
    exact hne rfl

-- What is free behind the end of an address space
theorem freed_iff (h : SysInv s managed role space) (ht : s.task i = some t) (hmm : t.mm = some mm)
    (hrep : Rep vm' managed role' none) (htorn : TornDown s.vm vm' role role' mm.pgdir mm.mmapList)
    (htables : ∀ p, Under role mm.pgdir p → role' p = .free) (p : Nat) : role' p = .free ↔ role p = .free ∨ s.Own i p := by
  have hi : s.mm i = some mm := (Sys.mm_eq ht).trans hmm
  have htable := h.vm.rep.tree.tableOf_iff (p := p) (h.root hi)
  constructor
  · intro hfree
    rcases htorn.cases p with hsame | ⟨_, hwas⟩
    · exact Or.inl (hsame ▸ hfree)
    · refine Or.inr ?_
      rcases hwas with rfl | hframe | ⟨j, hdir⟩ | ⟨d, j, htab⟩
      · exact Or.inl ⟨mm, hi, Or.inl rfl⟩
      · have halone := (h.frame_freed ht hmm hrep htorn hframe).mp hfree
        obtain ⟨q, v, lf, hq, hv, hlf, he⟩ := h.vm.rep.mapped hframe
        obtain ⟨j, mm', hmm', rfl⟩ := h.owner q ((h.vm.root q).mp hq)
        have hmaps : s.Maps j v lf := ⟨mm', hmm', hv, hlf⟩
        obtain rfl := halone j v lf hmaps he
        exact Or.inr ⟨⟨v, lf, hmaps, he⟩, halone⟩
      · exact Or.inl ⟨mm, hi, htable.mpr (.dir hdir)⟩
      · obtain ⟨⟨q, k, hd⟩, _⟩ := h.vm.rep.tree.tableUp htab
        by_cases hq : q = mm.pgdir
        · exact Or.inl ⟨mm, hi, htable.mpr (.table (hq ▸ hd) htab)⟩
        · have hkeep := htorn.keep p (by rintro rfl; rw [h.root hi] at htab; cases htab) (fun _ => by rw [htab]; simp)
            (fun d' k' j' hd' htab' => ?_) (by rw [htab]; simp)
          · rw [hkeep, htab] at hfree
            cases hfree
          · rw [htab] at htab'
            cases htab'
            rw [hd] at hd'
            cases hd'
            exact hq rfl
  · rintro (hfree | ⟨mm', hmm', hp⟩ | ⟨⟨v, lf, hmaps, rfl⟩, halone⟩)
    · rw [htorn.keep p (by rintro rfl; rw [h.root hi] at hfree; cases hfree) (fun _ => by rw [hfree]; simp)
        (fun _ _ _ _ => by rw [hfree]; simp) (by rw [hfree]; simp), hfree]
    · rw [hi] at hmm'
      cases hmm'
      exact htables p (htable.mp hp)
    · exact (h.frame_freed ht hmm hrep htorn (h.frame hmaps)).mpr halone

theorem reclaims_iff (h : SysInv s managed role space) (ht : s.task i = some t) (hmm : t.mm = some mm)
    (hrep : Rep vm' managed role' none) (htorn : TornDown s.vm vm' role role' mm.pgdir mm.mmapList) :
    s.Reclaims i vm' ↔ TidySpace s.vm.mem mm.pgdir mm.mmapList := by
  have hi : s.mm i = some mm := (Sys.mm_eq ht).trans hmm
  obtain ⟨free, l, hl, hfree⟩ := h.vm.rep.list
  obtain ⟨after, l', hl', hfree'⟩ := hrep.list
  rw [← htorn.tables h.vm.rep.tree (h.root hi)]
  constructor
  · intro hrec p hp
    exact (hfree' p).mpr ((onFreeList_iff hl').mp ((hrec.free p).mpr
      (Or.inr (Or.inl ⟨mm, hi, (h.vm.rep.tree.tableOf_iff (h.root hi)).mpr hp⟩))))
  · intro htables
    have hall : ∀ p, p ∈ after ↔ p ∈ free ∨ s.Own i p := by
      intro p
      rw [← hfree', ← hfree]
      exact h.freed_iff ht hmm hrep htorn htables p
    refine ⟨fun p => ?_, ?_, fun j v lf hj hmaps => ?_⟩
    · rw [onFreeList_iff hl, onFreeList_iff hl', hall]
    · have hown : {p | s.Own i p} = ↑(after \ free) := by
        ext p
        rw [Set.mem_ofPred_eq, Finset.mem_coe, Finset.mem_sdiff, hall, ← hfree]
        refine ⟨fun hp => ⟨Or.inr hp, fun hno => ?_⟩, fun hp => hp.1.resolve_left hp.2⟩
        rcases hp with ⟨mm', hmm', hp⟩ | ⟨⟨v, lf, hmaps, rfl⟩, _⟩
        · have hnode := ((h.vm.rep.tree.tableOf_iff (h.root hmm')).mp hp).node
          rw [hno] at hnode
          cases hnode
        · rw [h.frame hmaps] at hno
          cases hno
      rw [hown, Set.ncard_coe_finset, hl.nrFree, hl'.nrFree, Nat.add_comm]
      exact (Finset.card_sdiff_add_card_eq_card fun p hp => (hall p).mpr (Or.inl hp)).symm
    · obtain ⟨mm', hmm', hv, hlf⟩ := hmaps
      refine ⟨mm', hmm', (htorn.leaf _ v (h.root hmm') (fun he => hj ?_) hv).trans hlf⟩
      exact h.apart j i mm' mm hmm' hi he

end SysInv

-- The end of an address space, in do_exit and do_execve
theorem teardown_reclaims (hboot : s₀.Booted managed) (hrun : Run Tame s₀ s) (ht : s.task i = some t) (hmm : t.mm = some mm)
    (hlog : ∀ o ∈ (dropMm t s.vm).log, o ≠ .tail) :
    ∃ vm', (dropMm t s.vm).result = .ok ({ t with mm := none }, vm') ∧
      (s.Reclaims i vm' ↔ TidySpace s.vm.mem mm.pgdir mm.mmapList) := by
  obtain ⟨role, space, h⟩ := hrun.inv hboot
  have hown := h.owned i mm ((Sys.mm_eq ht).trans hmm)
  have hspace := h.vm.space _ _ hown.space
  have hzero : mm.mmCount - 1 = 0 := by
    rw [hown.count]
    rfl
  have hwp : Prog.wp (fun o => o = .tail) (dropMm t) s.vm (fun t' vm' => t' = { t with mm := none } ∧
      (s.Reclaims i vm' ↔ TidySpace s.vm.mem mm.pgdir mm.mmapList)) fun _ => False := by
    simp only [dropMm, hmm, hzero, if_true, Prog.wp_bind]
    refine wp_teardown h.vm.rep rfl (h.vm.root_of hown.space) rfl hspace.ok
      (fun u lf hu hlf => ?_) fun vm' role' hrep htorn => ?_
    · obtain ⟨vma, hvma, hcov, _⟩ := hspace.leaf u lf hu hlf
      exact ⟨vma, hvma, hcov⟩
    · rw [Prog.wp_pure]
      exact ⟨rfl, h.reclaims_iff ht hmm hrep htorn⟩
  cases hr : (dropMm t s.vm).result with
  | error e => exact (Prog.wp_error hwp hlog hr).elim
  | ok r =>
      obtain ⟨t', vm'⟩ := r
      obtain ⟨rfl, hiff⟩ := Prog.wp_ok hwp hlog hr
      exact ⟨vm', rfl, hiff⟩

-- Segment and stack of the program are in one page table, page 7.
def Sys.single (s : Sys) : Bool :=
  (s.task 2).any fun t => t.mm.any fun mm => (dropMm t s.vm).log.all (fun o => decide (o ≠ .tail)) &&
    (List.range 511).all (fun i => decide (s.vm.mem mm.pgdir i = if i = 1 then pde 6 else 0)) &&
    (List.range 512).all (fun j => decide (s.vm.mem 6 j = if j = 511 then pde 7 else 0)) &&
    decide (mm.mmapList = [⟨0x7FE00000, 0x7FE01000, 7⟩, stackVma])

theorem Sys.single_tidy (h : s.single = true) : ∃ t mm, s.task 2 = some t ∧ t.mm = some mm ∧
    (∀ o ∈ (dropMm t s.vm).log, o ≠ .tail) ∧ TidySpace s.vm.mem mm.pgdir mm.mmapList := by
  simp only [Sys.single, Option.any_eq_true, Bool.and_eq_true, List.all_eq_true, List.mem_range, decide_eq_true_eq] at h
  obtain ⟨t, ht, mm, hmm, ⟨⟨hlog, hroot⟩, hdir⟩, hvmas⟩ := h
  refine ⟨t, mm, ht, hmm, hlog, fun i hi ⟨d, hd⟩ => ?_⟩
  obtain rfl : i = 1 := by
    by_contra hne
    rw [hroot i hi, if_neg hne] at hd
    exact pde_ne_zero hd.symm
  have htable : ∀ J, J / 512 = 1 ∧ PageTable s.vm.mem mm.pgdir J ↔ J = 1023 := by
    intro J
    constructor
    · rintro ⟨hJ, d, ⟨_, hd⟩, t, ht⟩
      rw [hJ, hroot 1 (by decide), if_pos rfl] at hd
      obtain rfl := pde_inj hd
      rw [hdir _ (Nat.mod_lt _ (by decide))] at ht
      split_ifs at ht with hlast
      · omega
      · exact absurd ht.symm pde_ne_zero
    · rintro rfl
      exact ⟨rfl, 6, ⟨by decide, hroot 1 (by decide)⟩, 7, hdir 511 (by decide)⟩
  have hslot : ∀ J, (⟨0x7FE00000, 0x7FE01000, 7⟩ : VmaStruct).slot 1 J ↔ J = 1023 := by
    intro J
    constructor
    · rintro ⟨_, u, ⟨hlo, hhi⟩, rfl⟩
      have hlo : 0x7FE00000 ≤ u * 4096 := hlo
      have hhi : u * 4096 < 0x7FE01000 := hhi
      omega
    · rintro rfl
      exact ⟨rfl, 0x7FE00, ⟨by decide, by decide⟩, rfl⟩
  simp only [hvmas, List.map_cons, Tidy, htable, hslot]
  exact ⟨fun _ _ hJ => hJ, fun hno => absurd ⟨⟨1023, rfl⟩, fun _ hJ => hJ⟩ hno⟩

theorem teardown_reclaims_user : ∃ t vm', (dropMm t userSys.vm).result = .ok ({ t with mm := none }, vm') ∧
    userSys.Reclaims 2 vm' := by
  obtain ⟨t, mm, ht, hmm, hlog, htidy⟩ := Sys.single_tidy (s := userSys) (by decide +kernel)
  obtain ⟨vm', hr, hiff⟩ := teardown_reclaims bootSys_booted userSys_run ht hmm hlog
  exact ⟨t, vm', hr, hiff.mpr htidy⟩

-- A program with its segment in another page table, in the directory of the stack
def farImage : Image := ⟨KERNEL_MAP, 123, fun a =>
  if a = KERNEL_MAP + 26 ∨ a = KERNEL_MAP + 82 then 0
  else if a = KERNEL_MAP + 27 ∨ a = KERNEL_MAP + 83 then 0x40
  else helloImage.byte a⟩

-- The page table of the stack is lost.
def Sys.loses (s : Sys) (p : Nat) : Bool :=
  (s.task 2).any fun t => t.mm.any fun mm => (dropMm t s.vm).log.all (fun o => decide (o ≠ .tail)) &&
    (subTable (s.vm.mem mm.pgdir 1)).any (fun d => decide (s.vm.mem mm.pgdir 1 = pde d ∧ s.vm.mem d 511 = pde p)) &&
    match (dropMm t s.vm).result with
    | .error _ => false
    | .ok (_, vm) => decide (¬OnFreeList vm.area p)

theorem teardown_loses : ∃ s t mm t' vm' p, Run Tame bootSys s ∧ s.task 2 = some t ∧ t.mm = some mm ∧
    (∀ o ∈ (dropMm t s.vm).log, o ≠ .tail) ∧ (dropMm t s.vm).result = .ok (t', vm') ∧
    TableOf s.vm.mem mm.pgdir p ∧ ¬OnFreeList vm'.area p := by
  have hruns : (bootSys.runs Tame (initActs ++ [.exec 2 Pmm.KERNBASE 5 farImage []])).any (fun s => s.loses 9) = true := by
    decide +kernel
  obtain ⟨s, hs, hloses⟩ := (Option.any_eq_true ..).mp hruns
  simp only [Sys.loses, Option.any_eq_true, Bool.and_eq_true, List.all_eq_true, decide_eq_true_eq] at hloses
  obtain ⟨t, ht, mm, hmm, ⟨hlog, d, _, hdir, htable⟩, hfree⟩ := hloses
  cases hr : (dropMm t s.vm).result with
  | error e =>
      rw [hr] at hfree
      cases hfree
  | ok r =>
      obtain ⟨t', vm'⟩ := r
      rw [hr] at hfree
      exact ⟨s, t, mm, t', vm', 9, Run.runs (.refl bootSys) hs, ht, hmm, hlog, hr,
        Or.inr (Or.inr ⟨d, ⟨1, by decide, hdir⟩, 511, by decide, htable⟩), of_decide_eq_true hfree⟩

end Ucore.Mm
