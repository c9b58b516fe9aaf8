import Ucore.Mm.Unmap

namespace Ucore.Mm

open Lib Pmm

variable {vm : VM} {managed free : Finset Nat} {role role' : Nat → Role} {lk : Option Nat}
  {bad : Obs → Prop} {p q : Nat} {X : Nat → Prop} {l : List Nat} {mem : Nat → Words} {area : FreeArea}
  {E : Halt → Prop}

-- free_page, whatever the page was used for
theorem wp_freePage (h : Rep vm managed role lk) (hbad : bad .tail) (hp : role p ≠ .free)
    (hother : role p ≠ .other) {Q : Unit → VM → Prop}
    (hq : ∀ area free l, FreeList area managed free l → (∀ q, q ∈ free ↔ role q = .free ∨ q = p) →
      Unused vm.area area {p} → Q () { vm with area := area }) :
    Prog.wp bad (freePages p 1) vm Q E := by
  obtain ⟨free, l, hl, hfree⟩ := h.list
  have hone : Finset.Ico p (p + 1) = {p} := by
    ext q
    rw [Finset.mem_Ico, Finset.mem_singleton]
    omega
  refine wp_freePages hbad hl Nat.one_pos ?_ ?_ fun area l' hl' hu => ?_
  · rw [hone]
    exact Finset.singleton_subset_iff.mpr (h.mem_managed hother)
  · rw [hone]
    exact Finset.disjoint_singleton_right.mpr fun hin => hp ((hfree p).mpr hin)
  · rw [hone] at hl' hu
    refine hq area _ l' hl' (fun q => ?_) hu
    rw [Finset.mem_union, Finset.mem_singleton, hfree]

namespace Rep

-- Tables without leaves are given up.
theorem prune (h : Rep vm managed role lk) (a : Prune vm.mem mem role role' X)
    (hempty : ∀ t d j k, role t = .table d j → X t → k < 512 → vm.mem t k = 0)
    (hl : FreeList area managed free l) (hfree : ∀ p, role' p = .free ↔ p ∈ free)
    (hkeep : ∀ p ρ, ρ = .other ∨ ρ = .heap → (role' p = ρ ↔ role p = ρ))
    (hpages : ∀ f, role f = .frame → (area.pages f).ref = (vm.area.pages f).ref ∧
      (area.pages f).pageLock = (vm.area.pages f).pageLock) :
    Rep { vm with area := area, mem := mem } managed role' lk ∧
      ∀ q v, role q = .root → ¬X q → v < UPAGES → leaf mem q v = leaf vm.mem q v := by
  have hroot : ∀ q, role' q = .root ↔ role q = .root ∧ ¬X q := by
    intro q
    have := a.keep q
    have := a.gone q
    have : (Role.root).isNode = true := rfl
    grind
  have hframe : ∀ q, role' q = .frame ↔ role q = .frame := by
    intro q
    have := a.keep q
    have := a.gone q
    have := a.node q
    have : (Role.frame).isNode = false := rfl
    grind
  have hleaf : ∀ q v, role q = .root → ¬X q → v < UPAGES → leaf mem q v = leaf vm.mem q v := by
    intro q v hq hx hv
    rcases a.leaf h.tree hq hx hv with he | ⟨hnone, t, ht, hxt⟩
    · exact he
    · obtain ⟨d, _, htab⟩ := (h.tree.tabAt_iff hq hv).mp ht
      rw [hnone, leaf, ht, Option.bind_some, hempty t d _ _ htab hxt pteIx_lt, decode_zero]
  have hrefs : ∀ g, refs managed mem role' g = refs managed vm.mem role g := by
    refine Rep.refs_congr fun q v _ hv => ?_
    unfold frameAt
    by_cases hq : role q = .root
    · by_cases hx : X q
      · rw [if_neg (by rw [hroot]; tauto), if_pos hq]
        rw [eq_comm, Option.map_eq_none_iff, Option.eq_none_iff_forall_ne_some]
        intro lf hlf
        obtain ⟨d, t, hd, ht, hm, hvalid, _⟩ := (h.tree.leaf_iff hq hv).mp hlf
        rw [hempty t d _ _ ht (a.tabDown t d _ ht (a.dirDown d q _ hd hx)) pteIx_lt] at hm
        exact Leaf.pte_ne_zero hvalid hm.symm
      · rw [if_pos ((hroot q).mpr ⟨hq, hx⟩), if_pos hq, hleaf q v hq hx hv]
    · rw [if_neg (by rw [hroot]; tauto), if_neg hq]
  refine ⟨h.relink (a.tree h.tree) hl hfree hkeep fun g hg => ?_, hleaf⟩
  have hg := (hframe g).mp hg
  obtain ⟨href, hlock⟩ := hpages g hg
  rw [hrefs, href, hlock]
  exact ⟨h.ref g hg, h.used g hg, h.lock g hg⟩

end Rep

end Ucore.Mm
