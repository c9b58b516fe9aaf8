import Ucore.Mm.Dup

namespace Ucore.Mm

open Lib Pmm

variable {vm vm' : VM} {managed : Finset Nat} {role role' : Nat → Role} {c f p q r u v : Nat} {lf lf' : Leaf}
  {X : Nat → Prop} {vmas done : List VmaStruct} {space : Nat → Option (List VmaStruct)} {words : Words}

-- The leaves of a fresh address space
theorem VmInv.fresh (h : VmInv vm managed role space) (hs : space c = some []) (hu : u < UPAGES) :
    leaf vm.mem c u = none := by
  cases hlf : leaf vm.mem c u with
  | none => rfl
  | some lf =>
      obtain ⟨vma, hvma, _⟩ := (h.space c [] hs).leaf u lf hu hlf
      cases hvma

namespace Shared

-- A leaf was there before, or it is one of those that are shared.
theorem leaf_from (h : Shared vm vm' role role' c p X) (hchild : ∀ u, u < UPAGES → leaf vm.mem c u = none)
    (hp : role p = .root) (hq : role q = .root) (hu : u < UPAGES) (hlf : leaf vm'.mem q u = some lf) :
    (q ≠ c ∧ ¬(X u ∧ q = p) ∧ leaf vm.mem q u = some lf) ∨
      ((q = c ∨ q = p) ∧ X u ∧ ∃ lf₀, leaf vm.mem p u = some lf₀ ∧ lf = lf₀.cow) := by
  by_cases hx : X u ∧ (q = c ∨ q = p)
  · right
    have hcow : leaf vm'.mem q u = (leaf vm.mem p u).map Leaf.cow := by
      rcases hx.2 with rfl | rfl
      · exact h.child u hu hx.1
      · exact h.parent u hu hx.1
    rw [hcow, Option.map_eq_some_iff] at hlf
    obtain ⟨lf₀, hlf₀, rfl⟩ := hlf
    exact ⟨hx.2, hx.1, lf₀, hlf₀, rfl⟩
  · left
    rw [h.rest q u hq hu hx] at hlf
    refine ⟨?_, fun hno => hx ⟨hno.1, Or.inr hno.2⟩, hlf⟩
    rintro rfl
    rw [hchild u hu] at hlf
    cases hlf

theorem root_iff (h : Shared vm vm' role role' c p X) (q : Nat) : role' q = .root ↔ role q = .root := by
  have hkeep := h.keep q
  have hnew := h.new q
  grind

theorem cowSafe (h : Shared vm vm' role role' c p X) (hchild : ∀ u, u < UPAGES → leaf vm.mem c u = none)
    (hp : role p = .root) (htree : Tree vm.mem role) (hsafe : CowSafe vm.mem role) : CowSafe vm'.mem role' := by
  intro q u lf q' u' lf' hq hq' hu hu' hlf hlf' he hne
  rw [h.root_iff] at hq hq'
  rcases h.leaf_from hchild hp hq hu hlf with ⟨_, hx, hlf⟩ | ⟨_, _, lf₀, hlf₀, rfl⟩
  · rcases h.leaf_from hchild hp hq' hu' hlf' with ⟨_, _, hlf'⟩ | ⟨_, hx', lf₀, hlf₀, rfl⟩
    · exact hsafe q u lf q' u' lf' hq hq' hu hu' hlf hlf' he hne
    · refine hsafe q u lf p u' lf₀ hq hp hu hu' hlf hlf₀ he ?_
      rintro ⟨rfl, rfl⟩
      exact hx ⟨hx', rfl⟩
  · exact (cow_bits lf₀.perm (htree.leaf_valid hp hu hlf₀).1).2.1

theorem space_other (h : Shared vm vm' role role' c p X) (hchild : ∀ u, u < UPAGES → leaf vm.mem c u = none)
    (hp : role p = .root) (hspace : Space vm.mem p vmas) (hq : role q = .root) (hqc : q ≠ c)
    {vmas' : List VmaStruct} (hspace' : Space vm.mem q vmas') : Space vm'.mem q vmas' := by
  refine ⟨hspace'.ok, hspace'.sorted, fun u lf hu hlf => ?_⟩
  rcases h.leaf_from hchild hp hq hu hlf with ⟨_, _, hlf⟩ | ⟨hqcp, _, lf₀, hlf₀, rfl⟩
  · exact hspace'.leaf u lf hu hlf
  · obtain rfl := hqcp.resolve_left hqc
    obtain ⟨vma, hvma, hcov, hperm⟩ := hspace'.leaf u lf₀ hu hlf₀
    exact ⟨vma, hvma, hcov, hperm.cow⟩

-- The vmas `done` have been copied for the child.
theorem space_child (h : Shared vm vm' role role' c p X) (hchild : ∀ u, u < UPAGES → leaf vm.mem c u = none)
    (hp : role p = .root) (hc : role c = .root) (hspace : Space vm.mem p vmas)
    (hX : ∀ u, X u → ∃ vma ∈ done, vma.Covers u) (hdone : done.Sublist vmas) : Space vm'.mem c done := by
  refine ⟨fun vma hvma => hspace.ok vma (hdone.subset hvma), hspace.sorted.sublist hdone, fun u lf hu hlf => ?_⟩
  rcases h.leaf_from hchild hp hc hu hlf with ⟨hno, _⟩ | ⟨_, hx, lf₀, hlf₀, rfl⟩
  · exact absurd rfl hno
  · obtain ⟨vma, hvma, hcov, hperm⟩ := hspace.leaf u lf₀ hu hlf₀
    obtain ⟨w, hw, hwcov⟩ := hX u hx
    rw [hspace.unique hvma (hdone.subset hw) hcov hwcov] at hperm
    exact ⟨w, hw, hwcov, hperm.cow⟩

theorem inv (h : Shared vm vm' role role' c p X) (hinv : VmInv vm managed role space)
    (hrep : Rep vm' managed role' none) (hsp : space p = some vmas) (hsc : space c = some [])
    (hX : ∀ u, X u → ∃ vma ∈ done, vma.Covers u) (hdone : done.Sublist vmas) :
    VmInv vm' managed role' (Function.update space c (some done)) := by
  have hchild : ∀ u, u < UPAGES → leaf vm.mem c u = none := fun u hu => hinv.fresh hsc hu
  have hp := hinv.root_of hsp
  have hc := hinv.root_of hsc
  have hspace := hinv.space p vmas hsp
  refine ⟨hrep, h.cowSafe hchild hp hinv.rep.tree hinv.safe, fun q => ?_, fun q vmas' hs => ?_⟩
  · rw [h.root_iff, hinv.root, Function.update_apply]
    split_ifs with hqc
    · rw [hqc, hsc]
      simp
    · rfl
  · rw [Function.update_apply] at hs
    split_ifs at hs with hqc
    · cases hs
      rw [hqc]
      exact h.space_child hchild hp hc hspace hX hdone
    · exact h.space_other hchild hp hspace (hinv.root_of hs) hqc (hinv.space q vmas' hs)

-- Only the child sees new pages.
theorem view_eq (h : Shared vm vm' role role' c p X) (htree : Tree vm.mem role) (hp : role p = .root)
    (hu : u < UPAGES) (hleaf : leaf vm'.mem q u = (leaf vm.mem p u).map Leaf.cow) :
    view vm'.mem q u = view vm.mem p u := by
  unfold view
  rw [if_pos hu, if_pos hu, hleaf]
  cases hlf : leaf vm.mem p u with
  | none => rfl
  | some lf =>
      have hf := htree.leaf_frame hp hu hlf
      have hmem := h.mem lf.frame (by rw [hf]; simp) (by rw [hf]; rfl)
      rw [Option.map_some, Option.map_some, Option.map_some, Leaf.view_cow (htree.leaf_valid hp hu hlf).1]
      simp only [Leaf.view, hmem]

theorem evolves (h : Shared vm vm' role role' c p X) (htree : Tree vm.mem role) (hp : role p = .root) :
    Evolves vm vm' role role' (· = c) := by
  refine ⟨fun q b hq => (h.keep q (by rw [hq]; simp)).trans hq,
    fun q hq _ => (h.keep q (by rw [hq]; simp)).trans hq, fun q u hq hqc => ?_⟩
  by_cases hx : q = p ∧ X u ∧ u < UPAGES
  · obtain ⟨rfl, hx, hu⟩ := hx
    exact h.view_eq htree hp hu (h.parent u hu hx)
  · refine view_congr (fun hu => h.rest q u hq hu fun hno => ?_) fun lf hu hlf => ?_
    · exact hx ⟨hno.2.resolve_left hqc, hno.1, hu⟩
    · have hf := htree.leaf_frame hq hu hlf
      exact h.mem lf.frame (by rw [hf]; simp) (by rw [hf]; rfl)

theorem view_child (h : Shared vm vm' role role' c p X) (hchild : ∀ u, u < UPAGES → leaf vm.mem c u = none)
    (htree : Tree vm.mem role) (hp : role p = .root) (hc : role c = .root)
    (hall : ∀ u lf, u < UPAGES → leaf vm.mem p u = some lf → X u) (u : Nat) :
    view vm'.mem c u = view vm.mem p u := by
  by_cases hu : u < UPAGES
  · by_cases hx : X u
    · exact h.view_eq htree hp hu (h.child u hu hx)
    · refine h.view_eq htree hp hu ?_
      rw [h.rest c u hc hu fun hno => hx hno.1, hchild u hu]
      cases hlf : leaf vm.mem p u with
      | none => rfl
      | some lf => exact absurd (hall u lf hu hlf) hx
  · unfold view
    rw [if_neg hu, if_neg hu]

end Shared

namespace TornDown

-- What a page was used for before
theorem cases (h : TornDown vm vm' role role' r vmas) (p : Nat) :
    role' p = role p ∨ (role' p = .free ∨ role' p = .lost) ∧
      (p = r ∨ role p = .frame ∨ (∃ i, role p = .dir r i) ∨ ∃ d j, role p = .table d j) := by
  by_cases hr : p = r
  · rw [hr]
    exact Or.inr ⟨Or.inl h.root, Or.inl rfl⟩
  · by_cases hf : role p = .frame
    · rcases h.frame p hf with hp | hp
      · exact Or.inl (hp.trans hf.symm)
      · exact Or.inr ⟨Or.inl hp, Or.inr (Or.inl hf)⟩
    · by_cases hd : ∃ i, role p = .dir r i
      · obtain ⟨i, hi⟩ := hd
        exact Or.inr ⟨h.dir p i hi, Or.inr (Or.inr (Or.inl ⟨i, hi⟩))⟩
      · by_cases ht : ∃ d i j, role d = .dir r i ∧ role p = .table d j
        · obtain ⟨d, i, j, hd', hj⟩ := ht
          exact Or.inr ⟨h.table p d i j hd' hj, Or.inr (Or.inr (Or.inr ⟨d, j, hj⟩))⟩
        · push Not at hd ht
          exact Or.inl (h.keep p hr hd ht hf)

theorem root_iff (h : TornDown vm vm' role role' r vmas) (q : Nat) :
    role' q = .root ↔ role q = .root ∧ q ≠ r := by
  have hroot := h.root
  have hcases := h.cases q
  grind

theorem inv (h : TornDown vm vm' role role' r vmas) (hinv : VmInv vm managed role space)
    (hrep : Rep vm' managed role' none) : VmInv vm' managed role' (Function.update space r none) := by
  have hroot := h.root_iff
  refine ⟨hrep, ?_, fun q => ?_, fun q vmas' hs => ?_⟩
  · intro q u lf q' u' lf' hq hq' hu hu' hlf hlf'
    rw [hroot] at hq hq'
    rw [h.leaf q u hq.1 hq.2 hu] at hlf
    rw [h.leaf q' u' hq'.1 hq'.2 hu'] at hlf'
    exact hinv.safe q u lf q' u' lf' hq.1 hq'.1 hu hu' hlf hlf'
  · rw [hroot, hinv.root, Function.update_apply]
    split_ifs with hqr <;> simp [hqr]
  · rw [Function.update_apply] at hs
    split_ifs at hs with hqr
    refine (hinv.space q vmas' hs).congr fun u hu => ?_
    exact h.leaf q u (hinv.root_of hs) hqr hu

theorem evolves (h : TornDown vm vm' role role' r vmas) (htree : Tree vm.mem role) (hr : role r = .root) :
    Evolves vm vm' role role' (· = r) := by
  refine ⟨fun p b hp => ?_, fun q hq hqr => (h.root_iff q).mpr ⟨hq, hqr⟩, fun q u hq hqr => ?_⟩
  · have hcases := h.cases p
    grind
  · refine view_congr (h.leaf q u hq hqr) fun lf hu hlf => ?_
    have hf := htree.leaf_frame hq hu hlf
    exact h.mem lf.frame (by rw [hf]; rfl)

end TornDown

namespace Unshared

theorem root_iff (h : Unshared vm vm' role role' r v lf f) (q : Nat) : role' q = .root ↔ role q = .root := by
  have huse := h.use q
  have hwas := h.was
  grind

-- The process has its page for itself then.
theorem inv (h : Unshared vm vm' role role' r v lf f) (hinv : VmInv vm managed role space)
    (hrep : Rep vm' managed role' none) (hsp : space r = some vmas) (hleaf : Mm.leaf vm.mem r v = some lf)
    (hcow : lf.perm &&& PTE_COW ≠ 0) : VmInv vm' managed role' space := by
  have hr := hinv.root_of hsp
  refine ⟨hrep, ?_, fun q => (h.root_iff q).trans (hinv.root q), fun q vmas' hs => ?_⟩
  · intro q u lf₁ q' u' lf₂ hq hq' hu hu' hlf₁ hlf₂ he hne
    rw [h.root_iff] at hq hq'
    rw [h.leaf q u hq hu] at hlf₁
    rw [h.leaf q' u' hq' hu'] at hlf₂
    split_ifs at hlf₁ with h₁
    · split_ifs at hlf₂ with h₂
      · exact absurd ⟨h₁.1.trans h₂.1.symm, h₁.2.trans h₂.2.symm⟩ hne
      · cases hlf₁
        exact absurd he.symm (h.own q' u' lf₂ hq' hu' h₂ hlf₂)
    · split_ifs at hlf₂ with h₂
      · cases hlf₂
        exact absurd he (h.own q u lf₁ hq hu h₁ hlf₁)
      · exact hinv.safe q u lf₁ q' u' lf₂ hq hq' hu hu' hlf₁ hlf₂ he hne
  · refine h.space hr (hinv.space r vmas hsp) hleaf hcow (hinv.root_of hs) (hinv.space q vmas' hs) fun hqr => ?_
    rw [hqr, hsp] at hs
    cases hs
    rfl

theorem view_eq (h : Unshared vm vm' role role' r v lf f) (htree : Tree vm.mem role) (hr : role r = .root)
    (hv : v < UPAGES) (hleaf : Mm.leaf vm.mem r v = some lf) (hcow : lf.perm &&& PTE_COW ≠ 0)
    (hq : role q = .root) (u : Nat) : view vm'.mem q u = view vm.mem q u := by
  by_cases hqu : q = r ∧ u = v
  · obtain ⟨rfl, rfl⟩ := hqu
    unfold view
    rw [if_pos hv, if_pos hv, h.leaf q u hq hv, if_pos ⟨rfl, rfl⟩, hleaf, Option.map_some, Option.map_some,
      Leaf.view_uncow (htree.leaf_valid hr hv hleaf).1 hcow h.copy]
  · refine view_congr (fun hu => ?_) fun lf' hu hlf' => ?_
    · rw [h.leaf q u hq hu, if_neg hqu]
    · have hf := htree.leaf_frame hq hu hlf'
      exact h.mem lf'.frame (by rw [hf]; simp) (by rw [hf]; rfl)

end Unshared

-- A frame is written.
theorem VmInv.write (h : VmInv vm managed role space) (hf : role f = .frame) :
    VmInv { vm with mem := Function.update vm.mem f words } managed role space := by
  obtain ⟨hrep, hleaf⟩ := h.rep.writePlain (p := f) (w := words) (by rw [hf]; rfl)
  exact h.reuse hrep (fun _ => Iff.rfl) hleaf

-- Only the page whose leaf is writable sees it.
theorem VmInv.view_write (h : VmInv vm managed role space) (hr : role r = .root) (hv : v < UPAGES)
    (hleaf : leaf vm.mem r v = some lf) (hw : lf.perm &&& PTE_W ≠ 0) (hq : role q = .root) (hqu : ¬(q = r ∧ u = v)) :
    view (Function.update vm.mem lf.frame words) q u = view vm.mem q u := by
  have hf := h.leaf_frame hr hv hleaf
  obtain ⟨_, hsame⟩ := h.rep.writePlain (p := lf.frame) (w := words) (by rw [hf]; rfl)
  refine Mm.view_write (hsame q u hq) fun lf' hu hlf' he => ?_
  refine hw (h.safe r v lf q u lf' hr hq hv hu hleaf hlf' he.symm ?_)
  exact fun hno => hqu ⟨hno.1.symm, hno.2.symm⟩

theorem VmInv.view_written (h : VmInv vm managed role space) (hr : role r = .root) (hv : v < UPAGES)
    (hleaf : leaf vm.mem r v = some lf) :
    view (Function.update vm.mem lf.frame words) r v = (view vm.mem r v).map fun w => { w with words := words } := by
  have hf := h.leaf_frame hr hv hleaf
  obtain ⟨_, hsame⟩ := h.rep.writePlain (p := lf.frame) (w := words) (by rw [hf]; rfl)
  unfold view
  rw [if_pos hv, if_pos hv, hsame r v hr hv, hleaf]
  simp only [Option.map_some, Leaf.view, Function.update_self]

end Ucore.Mm
