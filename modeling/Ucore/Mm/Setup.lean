import Ucore.Mm.View

namespace Ucore.Mm

open Lib Pmm

variable {vm vm' : VM} {managed : Finset Nat} {role role' : Nat → Role}
  {bad : Obs → Prop} {f k p q u : Nat} {lf : Leaf} {mm : MmStruct}
  {vmas : List VmaStruct} {space : Nat → Option (List VmaStruct)} {R : Nat → Prop} {E : Halt → Prop}

-- A page becomes a root table without entries for user pages.
structure NewRoot (vm vm' : VM) (role role' : Nat → Role) (p : Nat) : Prop where
  was : role p = .free
  other : ∀ q u, role q = .root → u < UPAGES → Mm.leaf vm'.mem q u = Mm.leaf vm.mem q u
  role : ∀ q, role' q = if q = p then .root else role q
  page : vm'.mem p = bootPageTable
  mem : ∀ q, q ≠ p → vm'.mem q = vm.mem q
  leaf : ∀ u, u < UPAGES → leaf vm'.mem p u = none
  npages : vm'.area.npages = vm.area.npages
  heap : vm'.heap = vm.heap
  room : vm'.room = vm.room

section Pgdir

variable {Q : Option MmStruct → VM → Prop}

theorem wp_setupPgdir (h : VmInv vm managed role space)
    (hsome : ∀ vm' role' p, NewRoot vm vm' role role' p →
      VmInv vm' managed role' (Function.update space p (some [])) → Evolves vm vm' role role' R →
      Q (some { mm with pgdir := p }) vm')
    (hnone : ¬bad .noMem → Q none vm) :
    Prog.wp bad (setupPgdir mm) vm Q E := by
  rw [setupPgdir, Prog.wp_bind]
  refine h.rep.allocPage (fun p area hp _ _ hu hrep => ?_) fun hbad _ => ?_
  · have hheld : Function.update role p .held p = .held := Function.update_self ..
    have hne : ∀ q, role q ≠ .free → q ≠ p := by
      rintro q hq rfl
      exact hq hp
    rw [Prog.wp_bind, wp_page2kva (hrep.bound (p := p) (by rw [hheld]; simp)), Prog.wp_bind, wp_writePage,
      Prog.wp_pure]
    have ha : AddRoot vm.mem (Function.update vm.mem p bootPageTable) (Function.update role p .held)
        (Function.update role p .root) p := by
      refine ⟨hheld, Function.update_self .., fun q hq => Function.update_of_ne hq .., fun q => ?_⟩
      rw [Function.update_apply, Function.update_apply]
      split_ifs <;> rfl
    have hrep' := hrep.addRoot ha
    have hleaf : ∀ q u, role q = .root → u < UPAGES →
        leaf (Function.update vm.mem p bootPageTable) q u = leaf vm.mem q u := by
      intro q u hq hu
      exact ha.leaf_other hrep.tree (by rwa [Function.update_of_ne (hne q (by rw [hq]; simp))]) hu
    have hself : ∀ u, u < UPAGES → leaf (Function.update vm.mem p bootPageTable) p u = none :=
      fun u hu => ha.leaf_self hu
    have hroot : ∀ q, Function.update role p .root q = .root ↔ q = p ∨ role q = .root := by
      intro q
      rw [Function.update_apply]
      split_ifs with hq <;> simp [hq]
    refine hsome _ (Function.update role p .root) p ?_ ⟨hrep', ?_, fun q => ?_, fun q vmas hs => ?_⟩ ?_
    · exact ⟨hp, hleaf, fun q => Function.update_apply .., Function.update_self ..,
        fun q hq => Function.update_of_ne hq .., hself, hu.npages, rfl, rfl⟩
    · refine h.safe.congr (fun q hq => ?_) hleaf
      rcases (hroot q).mp hq with rfl | hq
      · exact Or.inr hself
      · exact Or.inl hq
    · rw [hroot, Function.update_apply]
      split_ifs with hqp
      · simp [hqp]
      · rw [h.root]
        simp [hqp]
    · rw [Function.update_apply] at hs
      split_ifs at hs with hqp
      · subst hqp
        cases hs
        refine ⟨by simp, List.Pairwise.nil, fun u lf hu hlf => ?_⟩
        rw [hself u hu] at hlf
        cases hlf
      · exact (h.space q vmas hs).congr fun u hu => hleaf q u (h.root_of hs) hu
    · refine Evolves.of_keep h.rep.tree (fun q hq => Function.update_of_ne (hne q hq) ..) hleaf fun q hq => ?_
      exact Function.update_of_ne (hne q (by rw [hq]; simp)) ..
  · rw [Prog.wp_pure]
    exact hnone hbad

end Pgdir

-- Two pages become a kernel stack, or are given back.
structure NewStack (vm vm' : VM) (role role' : Nat → Role) (k : Nat) : Prop where
  was : role k = .free ∧ role (k + 1) = .free
  role : ∀ q, role' q = if q = k ∨ q = k + 1 then .kstack k else role q
  mem : vm'.mem = vm.mem
  npages : vm'.area.npages = vm.area.npages
  heap : vm'.heap = vm.heap
  room : vm'.room = vm.room

structure DropStack (vm vm' : VM) (role role' : Nat → Role) (k : Nat) : Prop where
  role : ∀ q, role' q = if q = k ∨ q = k + 1 then .free else role q
  mem : vm'.mem = vm.mem
  npages : vm'.area.npages = vm.area.npages
  heap : vm'.heap = vm.heap
  room : vm'.room = vm.room

theorem mem_stack : q ∈ Finset.Ico k (k + KSTACKPAGE) ↔ q = k ∨ q = k + 1 := by
  rw [Finset.mem_Ico]
  unfold KSTACKPAGE
  omega

theorem wp_setupKstack (h : VmInv vm managed role space) {Q : Option Nat → VM → Prop}
    (hsome : ∀ vm' role' k, NewStack vm vm' role role' k → VmInv vm' managed role' space →
      Evolves vm vm' role role' R → Q (some k) vm')
    (hnone : ¬bad .noMem → Q none vm) :
    Prog.wp bad setupKstack vm Q E := by
  rw [setupKstack, Prog.wp_bind]
  obtain ⟨free, l, hl, hfree⟩ := h.rep.list
  refine wp_allocPages hl (by decide) (fun k area l' hsub hl' hu => ?_) fun hbad _ => ?_
  · have hk : ∀ q, q = k ∨ q = k + 1 → role q = .free := fun q hq => (hfree q).mpr (hsub (mem_stack.mpr hq))
    let role' : Nat → Role := fun q => if q = k ∨ q = k + 1 then .kstack k else role q
    have hrole' : ∀ q, role' q = if q = k ∨ q = k + 1 then .kstack k else role q := fun _ => rfl
    have hb : k < area.npages := by
      rw [hu.npages]
      exact hl.bound k (hl.sub (hsub (mem_stack.mpr (Or.inl rfl))))
    have hrep := h.rep.rerole role' vm.heap hl' (fun q => ?_) (fun q => ?_)
      (fun q => ?_) (fun q => ?_)
      fun f _ => ⟨hu.ref f (Finset.notMem_empty f), hu.lock f (Finset.notMem_empty f)⟩
    · have hroot : ∀ q, role' q = .root ↔ role q = .root := by
        intro q
        have := hk q
        grind
      rw [Prog.wp_bind, wp_page2kva hb, Prog.wp_pure]
      refine hsome _ role' k ⟨⟨hk k (Or.inl rfl), hk (k + 1) (Or.inr rfl)⟩, hrole', rfl, hu.npages, rfl, rfl⟩
        (h.reuse hrep hroot fun _ _ _ _ => rfl)
        (Evolves.of_keep h.rep.tree (fun q hq => ?_) (fun _ _ _ _ => rfl) fun _ _ => rfl)
      refine (hrole' q).trans (if_neg fun hqk => hq (hk q hqk))
    · rw [Finset.mem_sdiff, mem_stack, ← hfree, hrole']
      grind
    · have := hk q
      have : (Role.free).isPlain := rfl
      have : (Role.kstack k).isPlain := rfl
      grind
    · have := hk q
      grind
    · have := hk q
      have := h.rep.heap q
      grind
  · rw [Prog.wp_pure]
    exact hnone hbad

theorem wp_putKstack (h : VmInv vm managed role space) (hbad : bad .tail)
    (hk : role k = .kstack k ∧ role (k + 1) = .kstack k) {Q : Unit → VM → Prop}
    (hq : ∀ vm' role', DropStack vm vm' role role' k → VmInv vm' managed role' space → Q () vm') :
    Prog.wp bad (putKstack k) vm Q E := by
  obtain ⟨free, l, hl, hfree⟩ := h.rep.list
  have hkq : ∀ q, q = k ∨ q = k + 1 → role q = .kstack k := by
    rintro q (rfl | rfl)
    · exact hk.1
    · exact hk.2
  rw [putKstack, Prog.wp_bind, wp_kva2page (h.rep.bound (by rw [hk.1]; simp))]
  refine wp_freePages hbad hl (by decide) (fun q hq => ?_) ?_ fun area l' hl' hu => ?_
  · exact h.rep.mem_managed (by rw [hkq q (mem_stack.mp hq)]; simp)
  · rw [Finset.disjoint_right]
    intro q hq hin
    have := hkq q (mem_stack.mp hq)
    rw [(hfree q).mpr hin] at this
    cases this
  · let role' : Nat → Role := fun q => if q = k ∨ q = k + 1 then .free else role q
    have hrole' : ∀ q, role' q = if q = k ∨ q = k + 1 then .free else role q := fun _ => rfl
    have hrep := h.rep.rerole role' vm.heap hl' (fun q => ?_) (fun q => ?_)
      (fun q => ?_) (fun q => ?_) fun f hf => ?_
    · have hroot : ∀ q, role' q = .root ↔ role q = .root := by
        intro q
        have := hkq q
        grind
      exact hq _ role' ⟨hrole', rfl, hu.npages, rfl, rfl⟩ (h.reuse hrep hroot fun _ _ _ _ => rfl)
    · rw [Finset.mem_union, mem_stack, ← hfree, hrole']
      grind
    · have := hkq q
      have : (Role.free).isPlain := rfl
      have : (Role.kstack k).isPlain := rfl
      grind
    · have := hkq q
      grind
    · have := hkq q
      have := h.rep.heap q
      grind
    · have hne : f ∉ Finset.Ico k (k + KSTACKPAGE) := by
        rw [mem_stack]
        intro hfk
        have := hkq f hfk
        rw [hf] at this
        cases this
      exact ⟨hu.ref f hne, hu.lock f hne⟩

end Ucore.Mm
