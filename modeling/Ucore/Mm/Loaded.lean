import Ucore.Mm.Tasks

namespace Ucore.Mm

open Lib Pmm

variable {vm vm' vm₁ vm₂ : VM} {managed : Finset Nat} {role role' role₁ role₂ : Nat → Role}
  {f hi lo mid p perm q r u v : Nat} {vma : VmaStruct} {vmas : List VmaStruct}
  {space : Nat → Option (List VmaStruct)} {byte byte' : Nat → Option Nat} {w : Words}

namespace Inserted

theorem root_iff (h : Inserted vm vm' role role' r v p perm) (hp : role p ≠ .root) (q : Nat) :
    role' q = .root ↔ role q = .root := by
  by_cases hqp : q = p
  · rw [hqp, h.page]
    simp [hp]
  · by_cases hf : role q = .free
    · rw [hf]
      rcases h.new q hf hqp with he | he | ⟨d, _, he⟩ <;> rw [he] <;> simp
    · rw [h.keep q hf hqp]

theorem keep_used (h : Inserted vm vm' role role' r v p perm) (hp : role p = .free) (hq : role q ≠ .free) :
    role' q = role q := by
  refine h.keep q hq ?_
  rintro rfl
  exact hq hp

-- A new page in a vma that has none there
theorem inv (h : Inserted vm vm' role role' r v p perm) (hinv : VmInv vm managed role space)
    (hrep : Rep vm' managed role' none) (hp : role p = .free) (hs : space r = some vmas) (hvma : vma ∈ vmas)
    (hcov : vma.Covers v) (hperm : PermOk vma.vmFlags (perm ||| PTE_V)) : VmInv vm' managed role' space := by
  have hroot := h.root_iff (by rw [hp]; simp)
  have hold : ∀ q u lf, role q = .root → u < UPAGES → Mm.leaf vm.mem q u = some lf → lf.frame ≠ p := by
    rintro q u lf hq hu hlf rfl
    have := hinv.leaf_frame hq hu hlf
    rw [hp] at this
    cases this
  refine ⟨hrep, ?_, fun q => (hroot q).trans (hinv.root q), fun q vmas' hs' => ?_⟩
  · intro q u lf q' u' lf' hq hq' hu hu' hlf hlf' he hne
    rw [hroot] at hq hq'
    rw [h.leaf q u hq hu] at hlf
    rw [h.leaf q' u' hq' hu'] at hlf'
    split_ifs at hlf with h₁
    · split_ifs at hlf' with h₂
      · exact absurd ⟨h₁.1.trans h₂.1.symm, h₁.2.trans h₂.2.symm⟩ hne
      · cases hlf
        exact absurd he.symm (hold q' u' lf' hq' hu' hlf')
    · split_ifs at hlf' with h₂
      · cases hlf'
        exact absurd he (hold q u lf hq hu hlf)
      · exact hinv.safe q u lf q' u' lf' hq hq' hu hu' hlf hlf' he hne
  · have hspace := hinv.space q vmas' hs'
    refine ⟨hspace.ok, hspace.sorted, fun u lf hu hlf => ?_⟩
    rw [h.leaf q u (hinv.root_of hs') hu] at hlf
    split_ifs at hlf with hqu
    · obtain ⟨rfl, rfl⟩ := hqu
      rw [hs] at hs'
      cases hs'
      cases hlf
      exact ⟨vma, hvma, hcov, hperm⟩
    · exact hspace.leaf u lf hu hlf

end Inserted

theorem Under.keep (h : Under role r p) (hkeep : ∀ q, role q ≠ .free → role' q = role q) : Under role' r p := by
  cases h with
  | root hp => exact .root ((hkeep _ (by rw [hp]; simp)).trans hp)
  | dir hp => exact .dir ((hkeep _ (by rw [hp]; simp)).trans hp)
  | table hd hp => exact .table ((hkeep _ (by rw [hd]; simp)).trans hd) ((hkeep _ (by rw [hp]; simp)).trans hp)

-- What is allocated for the address space `r`: pages, tables, and room in the heap
structure Gains (vm vm' : VM) (role role' : Nat → Role) (r : Nat) : Prop where
  evolves : Evolves vm vm' role role' (· = r)
  keep : ∀ q, role q ≠ .free → role' q = role q
  new : ∀ q, role q = .free → role' q = .free ∨ role' q = .heap ∨ role' q = .frame ∨ Under role' r q
  leaf : ∀ q u, role q = .root → q ≠ r → u < UPAGES → Mm.leaf vm'.mem q u = Mm.leaf vm.mem q u

namespace Gains

theorem refl : Gains vm vm role role r := ⟨Evolves.refl, fun _ _ => rfl, fun _ hq => Or.inl hq, fun _ _ _ _ _ => rfl⟩

theorem trans (h : Gains vm vm₁ role role₁ r) (h' : Gains vm₁ vm₂ role₁ role₂ r) : Gains vm vm₂ role role₂ r := by
  have hused : ∀ q, role q ≠ .free → role₁ q ≠ .free := by
    intro q hq
    rwa [h.keep q hq]
  refine ⟨h.evolves.trans h'.evolves, fun q hq => (h'.keep q (hused q hq)).trans (h.keep q hq), fun q hq => ?_,
    fun q u hq hqr hu => ?_⟩
  · rcases h.new q hq with he | he | he | hunder
    · exact h'.new q he
    · exact Or.inr (Or.inl ((h'.keep q (by rw [he]; simp)).trans he))
    · exact Or.inr (Or.inr (Or.inl ((h'.keep q (by rw [he]; simp)).trans he)))
    · exact Or.inr (Or.inr (Or.inr (hunder.keep h'.keep)))
  · rw [h'.leaf q u ((h.keep q (by rw [hq]; simp)).trans hq) hqr hu, h.leaf q u hq hqr hu]

end Gains

theorem Heaped.gains (h : Heaped vm vm' role role') (htree : Tree vm.mem role) : Gains vm vm' role role' r :=
  ⟨h.evolves htree, h.keep, fun q hq => (h.new q hq).imp_right Or.inl, fun _ _ _ _ _ => by rw [h.mem]⟩

-- The pages `lo` to `hi` below `r` are new and nobody else's. A byte of them is that in
-- `byte`, or else the one that the page had when it was free.
structure Loaded (vm vm' : VM) (role role' : Nat → Role) (r perm lo hi : Nat) (byte : Nat → Option Nat) :
    Prop where
  keep : ∀ q, role q ≠ .free → role' q = role q
  root : ∀ q, role' q = .root → role q = .root
  new : ∀ q, role q = .free → role' q = .free ∨ role' q = .frame ∨ Under role' r q
  was : ∀ u, lo ≤ u → u < hi → leaf vm.mem r u = none
  other : ∀ q u, role q = .root → u < UPAGES → ¬(q = r ∧ lo ≤ u ∧ u < hi) →
    leaf vm'.mem q u = leaf vm.mem q u
  page : ∀ u, lo ≤ u → u < hi → ∃ f, role f = .free ∧ role' f = .frame ∧
    leaf vm'.mem r u = some ⟨f, perm ||| PTE_V⟩ ∧
    (∀ q u' lf, role q = .root → u' < UPAGES → leaf vm'.mem q u' = some lf → lf.frame = f → q = r ∧ u' = u) ∧
    ∀ off < PGSIZE, (vm'.mem f).byte off = (byte (u * PGSIZE + off)).getD ((vm.mem f).byte off)
  mem : ∀ q, (role' q).isNode = false → ¬(role q = .free ∧ role' q = .frame) → vm'.mem q = vm.mem q
  npages : vm'.area.npages = vm.area.npages

namespace Loaded

theorem refl : Loaded vm vm role role r perm lo lo byte :=
  ⟨fun _ _ => rfl, fun _ hq => hq, fun _ hq => Or.inl hq, fun _ hlo hhi => absurd (hlo.trans_lt hhi) (lt_irrefl _),
    fun _ _ _ _ _ => rfl, fun _ hlo hhi => absurd (hlo.trans_lt hhi) (lt_irrefl _),
    fun _ _ _ => rfl, rfl⟩

theorem free_of (h : Loaded vm vm' role role' r perm lo hi byte) (hq : role' q = .free) : role q = .free := by
  by_contra hno
  rw [h.keep q hno] at hq
  exact hno hq

theorem congr (h : Loaded vm vm' role role' r perm lo hi byte)
    (hbyte : ∀ a, lo * PGSIZE ≤ a → a < hi * PGSIZE → byte' a = byte a) :
    Loaded vm vm' role role' r perm lo hi byte' := by
  refine ⟨h.keep, h.root, h.new, h.was, h.other, fun u hlo hhi => ?_, h.mem, h.npages⟩
  obtain ⟨f, hf, hf', hleaf, hown, hb⟩ := h.page u hlo hhi
  refine ⟨f, hf, hf', hleaf, hown, fun off hoff => ?_⟩
  unfold PGSIZE at *
  rw [hb off hoff, hbyte _ (by omega) (by omega)]

theorem trans (h : Loaded vm vm₁ role role₁ r perm lo mid byte)
    (h' : Loaded vm₁ vm₂ role₁ role₂ r perm mid hi byte) (hr : role r = .root) (hlo : lo ≤ mid)
    (hhi : mid ≤ hi) (htop : hi ≤ UPAGES) : Loaded vm vm₂ role role₂ r perm lo hi byte := by
  have hrole : ∀ q, role q ≠ .free → role₁ q ≠ .free := by
    intro q hq
    rwa [h.keep q hq]
  refine ⟨fun q hq => (h'.keep q (hrole q hq)).trans (h.keep q hq), fun q hq => h.root q (h'.root q hq),
    fun q hq => ?_, fun u hu hlt => ?_, fun q u hq hu hno => ?_, fun u hu hlt => ?_, fun q hq hno => ?_, h'.npages.trans h.npages⟩
  · rcases h.new q hq with he | he | hunder
    · exact h'.new q he
    · exact Or.inr (Or.inl ((h'.keep q (by rw [he]; simp)).trans he))
    · exact Or.inr (Or.inr (hunder.keep h'.keep))
  · by_cases hmid : u < mid
    · exact h.was u hu hmid
    · rw [← h'.was u (by omega) hlt]
      exact (h.other r u hr (hlt.trans_le htop) (by omega)).symm
  · have hq₁ : role₁ q = .root := (h.keep q (by rw [hq]; simp)).trans hq
    by_cases hmid : u < mid
    · rw [h'.other q u hq₁ hu (by omega), h.other q u hq hu fun hin => hno ⟨hin.1, hin.2.1, by omega⟩]
    · rw [h'.other q u hq₁ hu fun hin => hno ⟨hin.1, by omega, hin.2.2⟩, h.other q u hq hu (by omega)]
  · by_cases hmid : u < mid
    · obtain ⟨f, hf, hf', hleaf, hown, hb⟩ := h.page u hu hmid
      have hkeep : role₂ f = .frame := (h'.keep f (by rw [hf']; simp)).trans hf'
      refine ⟨f, hf, hkeep, ?_, fun q u' lf hq hu' hlf he => ?_, fun off hoff => ?_⟩
      · rw [h'.other r u ((h.keep r (by rw [hr]; simp)).trans hr) (hmid.trans_le (hhi.trans htop)) (by omega), hleaf]
      · have hq₁ : role₁ q = .root := (h.keep q (by rw [hq]; simp)).trans hq
        by_cases hin : q = r ∧ mid ≤ u' ∧ u' < hi
        · -- a page that came later was free when `f` was in use
          obtain ⟨rfl, hlo', hhi'⟩ := hin
          obtain ⟨f', hfree, _, hleaf', _⟩ := h'.page u' hlo' hhi'
          rw [hleaf', Option.some_inj] at hlf
          rw [← hlf] at he
          have he : f' = f := he
          rw [he, hf'] at hfree
          cases hfree
        · exact hown q u' lf hq hu' ((h'.other q u' hq₁ hu' hin).symm.trans hlf) he
      · rw [h'.mem f (by rw [hkeep]; rfl) (by rw [hf']; simp), hb off hoff]
    · obtain ⟨f, hf, hf', hleaf, hown, hb⟩ := h'.page u (not_lt.mp hmid) hlt
      refine ⟨f, h.free_of hf, hf', hleaf, fun q u' lf hq => hown q u' lf ((h.keep q (by rw [hq]; simp)).trans hq),
        fun off hoff => ?_⟩
      rw [hb off hoff, h.mem f (by rw [hf]; rfl) (by rw [hf]; simp)]
  · have hfree : role₁ q = .free → role q = .free := h.free_of
    have h₁ := h'.keep q
    have h₀ := h.keep q
    rw [h'.mem q hq (by tauto), h.mem q ?_ ?_]
    · by_cases hf : role₁ q = .free
      · rw [hf]
        rfl
      · rwa [← h₁ hf]
    · rintro ⟨hq₀, hq₁⟩
      exact hno ⟨hq₀, (h₁ (by rw [hq₁]; simp)).trans hq₁⟩

-- The last page is written once more.
theorem patch {g : Nat → Option Nat} {lf : Leaf} (h : Loaded vm vm₁ role role₁ r perm lo hi byte)
    (hrep : Rep vm₁ managed role₁ none) (hr : role r = .root) (hlt : lo < hi) (htop : hi ≤ UPAGES)
    (hlf : leaf vm₁.mem r (hi - 1) = some lf)
    (hw : ∀ o < PGSIZE, w.byte o = (g ((hi - 1) * PGSIZE + o)).getD ((vm₁.mem lf.frame).byte o))
    (hpatch : ∀ a, a < (hi - 1) * PGSIZE → g a = none) :
    Loaded vm { vm₁ with mem := Function.update vm₁.mem lf.frame w } role role₁ r perm lo hi
      fun a => (g a).or (byte a) := by
  have hroot : ∀ q, role q = .root → role₁ q = .root := fun q hq => (h.keep q (by rw [hq]; simp)).trans hq
  have hlast : hi - 1 < UPAGES := by omega
  have hf := hrep.tree.leaf_frame (hroot r hr) hlast hlf
  obtain ⟨_, hleaf⟩ := hrep.writePlain (p := lf.frame) (w := w) (by rw [hf]; rfl)
  refine ⟨h.keep, h.root, h.new, h.was, fun q u hq hu hno => ?_, fun u hlo hhi => ?_, fun q hq hno => ?_, h.npages⟩
  · exact (hleaf q u (hroot q hq) hu).trans (h.other q u hq hu hno)
  · obtain ⟨f, hf, hf', hleaf', hown, hb⟩ := h.page u hlo hhi
    refine ⟨f, hf, hf', (hleaf r u (hroot r hr) (hhi.trans_le htop)).trans hleaf', fun q u' lf' hq hu' hlf' => ?_,
      fun off hoff => ?_⟩
    · exact hown q u' lf' hq hu' ((hleaf q u' (hroot q hq) hu').symm.trans hlf')
    · by_cases hu : u = hi - 1
      · subst hu
        rw [hlf, Option.some_inj] at hleaf'
        have hff : lf.frame = f := by rw [hleaf']
        rw [← hff] at hb ⊢
        simp only [Function.update_self]
        rw [hw off hoff, hb off hoff]
        cases g ((hi - 1) * PGSIZE + off) <;> rfl
      · have hne : f ≠ lf.frame := by
          intro he
          exact hu (hown r (hi - 1) lf hr hlast hlf he.symm).2.symm
        have hlow : u * PGSIZE + off < (hi - 1) * PGSIZE := by
          unfold PGSIZE at *
          omega
        simp only [Function.update_of_ne hne]
        rw [hb off hoff, hpatch _ hlow, Option.none_or]
  · have hne : q ≠ lf.frame := by
      rintro rfl
      obtain ⟨f, hfree, _, hleaf', _⟩ := h.page (hi - 1) (by omega) (by omega)
      rw [hlf, Option.some_inj] at hleaf'
      have hff : lf.frame = f := by rw [hleaf']
      exact hno ⟨by rw [hff, hfree], hf⟩
    simp only [Function.update_of_ne hne]
    exact h.mem q hq hno

theorem gains (h : Loaded vm vm' role role' r perm lo hi byte) (htree : Tree vm.mem role) :
    Gains vm vm' role role' r := by
  refine ⟨⟨fun q b hq => (h.keep q (by rw [hq]; simp)).trans hq,
    fun q hq _ => (h.keep q (by rw [hq]; simp)).trans hq, fun q u hq hqr => ?_⟩, h.keep, fun q hq => ?_,
    fun q u hq hqr hu => h.other q u hq hu fun hno => hqr hno.1⟩
  refine view_congr (fun hu => h.other q u hq hu fun hno => hqr hno.1) fun lf hu hlf => ?_
  have hf := htree.leaf_frame hq hu hlf
  have hf' : role' lf.frame = .frame := (h.keep _ (by rw [hf]; simp)).trans hf
  exact h.mem _ (by rw [hf']; rfl) (by rw [hf]; simp)
  · exact (h.new q hq).imp_right Or.inr

end Loaded

-- A page is allocated and written.
theorem Inserted.loaded (h : Inserted vm vm' role role' r v p perm) (htree : Tree vm.mem role) (hp : role p = .free)
    (hr : role r = .root) (hv : v < UPAGES) (hrep : Rep vm' managed role' none) (hold : Mm.leaf vm.mem r v = none)
    (hw : ∀ off < PGSIZE, w.byte off = (byte (v * PGSIZE + off)).getD ((vm'.mem p).byte off)) :
    Loaded vm { vm' with mem := Function.update vm'.mem p w } role role' r perm v (v + 1) byte := by
  have hroot := h.root_iff (by rw [hp]; simp)
  have hpn : (role' p).isNode = false := by rw [h.page]; rfl
  obtain ⟨_, hleaf⟩ := hrep.writePlain hpn (w := w)
  refine ⟨fun q hq => h.keep_used hp hq, fun q hq => (hroot q).mp hq, fun q hq => ?_, fun u hlo hhi => ?_,
    fun q u hq hu hno => ?_, fun u hlo hhi => ?_, fun q hq hno => ?_, h.npages⟩
  · by_cases hqp : q = p
    · exact Or.inr (Or.inl (hqp ▸ h.page))
    · exact (h.new q hq hqp).imp_right fun hnode => Or.inr (hnode.elim .dir fun ⟨_, hd, ht⟩ => .table hd ht)
  · obtain rfl : u = v := by omega
    exact hold
  · rw [hleaf q u ((hroot q).mpr hq) hu, h.leaf q u hq hu, if_neg]
    rintro ⟨rfl, rfl⟩
    exact hno ⟨rfl, le_rfl, Nat.lt_succ_self _⟩
  · obtain rfl : u = v := by omega
    refine ⟨p, hp, h.page, ?_, fun q u' lf hq hu' hlf he => ?_, fun off hoff => ?_⟩
    · rw [hleaf r u ((hroot r).mpr hr) hv, h.leaf r u hr hv, if_pos ⟨rfl, rfl⟩]
    · rw [hleaf q u' ((hroot q).mpr hq) hu', h.leaf q u' hq hu'] at hlf
      split_ifs at hlf with hqu
      · exact hqu
      · have hf := htree.leaf_frame hq hu' hlf
        rw [he, hp] at hf
        cases hf
    · simp only [Function.update_self]
      rw [hw off hoff, h.mem p hpn]
  · have hqp : q ≠ p := by
      rintro rfl
      exact hno ⟨hp, h.page⟩
    simp only [Function.update_of_ne hqp]
    exact h.mem q hq

end Ucore.Mm
