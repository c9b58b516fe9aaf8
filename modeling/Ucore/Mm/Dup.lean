import Ucore.Mm.Boot

namespace Ucore.Mm

open Lib Pmm

variable {vm vm' : VM} {managed : Finset Nat} {role role' : Nat → Role} {lk : Option Nat}
  {bad : Obs → Prop} {c f p u : Nat} {dst src mm' : MmStruct} {vma : VmaStruct} {vmas : List VmaStruct}
  {E : Halt → Prop}

-- kmalloc shares nothing.
theorem Heaped.copied (h : Heaped vm vm' role role') : Copied vm vm' role role' c p fun _ => False := by
  have hnode : ∀ q, (role' q).isNode → role' q = role q := by
    intro q hq
    have hkeep := h.keep q
    have hnew := h.new q
    have : (Role.free).isNode = false := rfl
    have : (Role.heap).isNode = false := rfl
    grind
  have hold : ∀ q, (role q).isNode → role' q = role q := by
    intro q hq
    refine h.keep q fun hfree => ?_
    rw [hfree] at hq
    cases hq
  refine ⟨h.keep, fun q hq => ?_, fun _ _ _ => by rw [h.mem], fun _ _ hx => absurd hx not_false,
    fun _ _ hx => absurd hx not_false, fun _ _ _ _ _ => by rw [h.mem], fun i => ?_, fun J => ?_, h.npages⟩
  · rcases h.new q hq with hf | hheap
    · exact Or.inl hf
    · exact Or.inr (Or.inl hheap)
  · simp only [false_and, and_false, exists_false, or_false]
    constructor
    · rintro ⟨d, hd⟩
      exact ⟨d, (hnode d (by rw [hd]; rfl)).symm.trans hd⟩
    · rintro ⟨d, hd⟩
      exact ⟨d, (hold d (by rw [hd]; rfl)).trans hd⟩
  · simp only [false_and, and_false, exists_false, or_false]
    constructor
    · rintro ⟨d, t, hd, ht⟩
      exact ⟨d, t, (hnode d (by rw [hd]; rfl)).symm.trans hd, (hnode t (by rw [ht]; rfl)).symm.trans ht⟩
    · rintro ⟨d, t, hd, ht⟩
      exact ⟨d, t, (hold d (by rw [hd]; rfl)).trans hd, (hold t (by rw [ht]; rfl)).trans ht⟩

-- The leaves of the pages `X` below `p` are shared with `c`, whatever tables `c` has got.
structure Shared (vm vm' : VM) (role role' : Nat → Role) (c p : Nat) (X : Nat → Prop) : Prop where
  keep : ∀ q, role q ≠ .free → role' q = role q
  new : ∀ q, role q = .free → role' q ≠ .root ∧ role' q ≠ .frame
  mem : ∀ q, role q ≠ .free → (role q).isNode = false → vm'.mem q = vm.mem q
  child : ∀ u, u < UPAGES → X u → leaf vm'.mem c u = (leaf vm.mem p u).map Leaf.cow
  parent : ∀ u, u < UPAGES → X u → leaf vm'.mem p u = (leaf vm.mem p u).map Leaf.cow
  rest : ∀ q u, role q = .root → u < UPAGES → ¬(X u ∧ (q = c ∨ q = p)) →
    leaf vm'.mem q u = leaf vm.mem q u
  npages : vm'.area.npages = vm.area.npages

theorem Copied.shared {X : Nat → Prop} (h : Copied vm vm' role role' c p X) : Shared vm vm' role role' c p X := by
  refine ⟨h.keep, fun q hq => ?_, h.mem, h.child, h.parent, h.rest, h.npages⟩
  rcases h.new q hq with hn | hn | ⟨_, hn⟩ | ⟨_, _, _, _, hn⟩ <;> rw [hn] <;> simp

theorem Shared.grow {vm'' : VM} {role'' : Nat → Role} {X : Nat → Prop} (h : Shared vm vm' role role' c p X)
    (hp : role p = .root) (hc : role c = .root) (hg : Grow vm' vm'' role' role'' c) :
    Shared vm vm'' role role'' c p X := by
  have hroot : ∀ q, role q = .root → role' q = .root := fun q hq => (h.keep q (by rw [hq]; simp)).trans hq
  refine ⟨fun q hq => ?_, fun q hq => ?_, fun q hq hnode => ?_, fun u hu hx => ?_, fun u hu hx => ?_,
    fun q u hq hu hno => ?_, hg.npages.trans h.npages⟩
  · have hkeep := h.keep q hq
    rw [hg.keep q (by rw [hkeep]; exact hq), hkeep]
  · have hnew := h.new q hq
    by_cases hfree : role' q = .free
    · rcases hg.new q hfree with hn | ⟨_, hn⟩ | ⟨_, _, _, _, hn⟩ <;> rw [hn] <;> simp
    · rw [hg.keep q hfree]
      exact hnew
  · have hkeep := h.keep q hq
    rw [hg.mem q, h.mem q hq hnode]
    rw [hg.keep q (by rw [hkeep]; exact hq), hkeep]
    exact hnode
  · rw [hg.leaf c u (hroot c hc) hu, h.child u hu hx]
  · rw [hg.leaf p u (hroot p hp) hu, h.parent u hu hx]
  · rw [hg.leaf q u (hroot q hq) hu, h.rest q u hq hu hno]

theorem Stuck.shared {X : Nat → Prop} {v : Nat} (h : Stuck vm vm' role role' c p v X) (hp : role p = .root)
    (hc : role c = .root) : Shared vm vm' role role' c p X := by
  obtain ⟨vm₁, role₁, hcopy, _, hg, _⟩ := h.run
  exact hcopy.shared.grow hp hc hg

theorem Shared.trans {vm'' : VM} {role'' : Nat → Role} {X Y : Nat → Prop} (h : Shared vm vm' role role' c p X)
    (h' : Shared vm' vm'' role' role'' c p Y) (hp : role p = .root) (hc : role c = .root)
    (hdisj : ∀ u, X u → ¬Y u) : Shared vm vm'' role role'' c p fun u => X u ∨ Y u := by
  have hroot : ∀ q, role q = .root → role' q = .root := fun q hq => (h.keep q (by rw [hq]; simp)).trans hq
  have hY : ∀ u, u < UPAGES → Y u → leaf vm'.mem p u = leaf vm.mem p u :=
    fun u hu hy => h.rest p u hp hu fun hno => hdisj u hno.1 hy
  refine ⟨fun q hq => ?_, fun q hq => ?_, fun q hq hnode => ?_, fun u hu hx => ?_, fun u hu hx => ?_,
    fun q u hq hu hno => ?_, h'.npages.trans h.npages⟩
  · have hkeep := h.keep q hq
    rw [h'.keep q (by rw [hkeep]; exact hq), hkeep]
  · by_cases hfree : role' q = .free
    · exact h'.new q hfree
    · rw [h'.keep q hfree]
      exact h.new q hq
  · have hkeep := h.keep q hq
    rw [h'.mem q (by rw [hkeep]; exact hq) (by rw [hkeep]; exact hnode), h.mem q hq hnode]
  · rcases hx with hx | hy
    · rw [h'.rest c u (hroot c hc) hu fun hno => hdisj u hx hno.1]
      exact h.child u hu hx
    · rw [h'.child u hu hy, hY u hu hy]
  · rcases hx with hx | hy
    · rw [h'.rest p u (hroot p hp) hu fun hno => hdisj u hx hno.1]
      exact h.parent u hu hx
    · rw [h'.parent u hu hy, hY u hu hy]
  · rw [h'.rest q u (hroot q hq) hu fun hy => hno ⟨Or.inr hy.1, hy.2⟩]
    exact h.rest q u hq hu fun hx => hno ⟨Or.inl hx.1, hx.2⟩

theorem Shared.congr {X Y : Nat → Prop} (h : Shared vm vm' role role' c p X) (hxy : ∀ u, X u ↔ Y u) :
    Shared vm vm' role role' c p Y := by
  obtain rfl : X = Y := funext fun u => propext (hxy u)
  exact h

-- A vma below all others stands in front.
theorem insertSorted_front (h : ∀ v ∈ vmas, vma.vmStart < v.vmStart) : insertSorted vma vmas = vma :: vmas := by
  unfold insertSorted
  cases vmas with
  | nil => rfl
  | cons next rest =>
      have hnext := h next List.mem_cons_self
      simp [hnext]

section Loop

variable {Q : Int × MmStruct → VM → Prop}

-- The loop of dup_mmap: `vmas` is what is left of the list, `dst` has the vmas behind.
theorem wp_dupLoop : ∀ {vmas : List VmaStruct} {vm role} {dst : MmStruct}, Rep vm managed role lk →
    role p = .root → role dst.pgdir = .root → dst.pgdir ≠ p → dst.Sorted → (∀ vma ∈ vmas, vma.Ok) →
    (vmas.reverse ++ dst.mmapList).Pairwise (fun a b => a.vmEnd ≤ b.vmStart) →
    (∀ u, (∃ vma ∈ vmas, vma.Covers u) → leaf vm.mem dst.pgdir u = none) →
    (∀ vm' role', Rep vm' managed role' lk →
      Copied vm vm' role role' dst.pgdir p (fun u => ∃ vma ∈ vmas, vma.Covers u) →
      Q (0, { dst with mmapList := vmas.reverse ++ dst.mmapList, mapCount := dst.mapCount + vmas.length }) vm') →
    (∀ vm' role' done X, ¬bad .noMem → Rep vm' managed role' lk → Shared vm vm' role role' dst.pgdir p X →
      done <+: vmas → (∀ u, X u → ∃ vma ∈ done, vma.Covers u) →
      Q (-E_NO_MEM, { dst with mmapList := done.reverse ++ dst.mmapList, mapCount := dst.mapCount + done.length })
        vm') →
    Prog.wp bad (dupLoop dst p vmas) vm Q E := by
  intro vmas
  induction vmas with
  | nil =>
      intro vm role dst h _ _ _ _ _ _ _ hok _
      rw [dupLoop, Prog.wp_pure]
      refine hok vm role h (Copied.refl ?_ ?_)
      · rintro u _ ⟨_, hmem, _⟩
        cases hmem
      · rintro u _ ⟨_, hmem, _⟩
        cases hmem
  | cons vma rest ih =>
      intro vm role dst h hp hc hcp hdst hvmas hsorted hchild hok hfail
      have hvma := hvmas vma List.mem_cons_self
      rw [List.reverse_cons, List.append_assoc, List.singleton_append] at hsorted
      obtain ⟨_, hbehind, hacross⟩ := List.pairwise_append.mp hsorted
      have hbehind := (List.pairwise_cons.mp hbehind).1
      have hlt : vma.vmStart < vma.vmEnd := hvma.lt
      have hfront : insertSorted vma dst.mmapList = vma :: dst.mmapList :=
        insertSorted_front fun v hv => lt_of_lt_of_le hlt (hbehind v hv)
      have hno : ∀ v ∈ dst.mmapList, ¬v.Meets vma := by
        intro v hv hmeets
        exact absurd (hbehind v hv) (not_le.mpr hmeets.1)
      simp only [dupLoop, vmaCreate, Prog.wp_bind]
      refine h.kmalloc (fun vm₁ role₁ h₁ hheap => ?_) fun vm₁ hbad h₁ hheap => ?_
      · have hcopy₁ : Copied vm vm₁ role role₁ dst.pgdir p fun _ => False := hheap.copied
        have hp₁ : role₁ p = .root := (hheap.root_iff p).mpr hp
        have hc₁ : role₁ dst.pgdir = .root := (hheap.root_iff dst.pgdir).mpr hc
        rw [if_pos rfl, Prog.wp_pure]
        simp only [Prog.wp_bind]
        refine wp_insertVmaStruct hdst (fun _ _ => ?_) fun hpanic => ?_
        · rw [hfront]
          have hdst₁ := hdst.insert hlt hno
          rw [hfront] at hdst₁
          refine wp_copyRange h₁ hp₁ hc₁ hcp hvma (fun u hu => ?_) (fun vm₂ role₂ h₂ hcopy₂ => ?_)
            fun vm₂ role₂ v hbad _ h₂' hstuck => ?_
          · rw [hheap.mem]
            exact hchild u ⟨vma, List.mem_cons_self, hu⟩
          · have hcopy : Copied vm vm₂ role role₂ dst.pgdir p vma.Covers :=
              (hcopy₁.trans hcopy₂ hp hc fun _ hx _ => hx).congr fun u => by simp
            have hapart : ∀ w ∈ rest, ∀ u, vma.Covers u → ¬w.Covers u := by
              intro w hw u hu hwu
              have := hacross w (List.mem_reverse.mpr hw) vma List.mem_cons_self
              unfold VmaStruct.Covers at hu hwu
              omega
            rw [if_neg (not_not.mpr rfl)]
            refine ih h₂ ((hcopy₂.keep p (by rw [hp₁]; simp)).trans hp₁)
              ((hcopy₂.keep dst.pgdir (by rw [hc₁]; simp)).trans hc₁) hcp hdst₁
              (fun w hw => hvmas w (List.mem_cons_of_mem _ hw)) hsorted (fun u hu => ?_)
              (fun vm' role' h' hcopy' => ?_) fun vm' role' done X hbad h' hshare hdone hX => ?_
            · obtain ⟨w, hw, hwu⟩ := hu
              have hlt := (hvmas w (List.mem_cons_of_mem _ hw)).lt_upages hwu
              exact (hcopy.rest dst.pgdir u hc hlt fun hno => hapart w hw u hno.1 hwu).trans
                (hchild u ⟨w, List.mem_cons_of_mem _ hw, hwu⟩)
            · have hdone := hok vm' role' h' ((hcopy.trans hcopy' hp hc fun u hu hex => ?_).congr fun u => ?_)
              · rw [List.reverse_cons, List.append_assoc, List.singleton_append, List.length_cons,
                  Nat.add_comm rest.length, ← Nat.add_assoc] at hdone
                exact hdone
              · obtain ⟨w, hw, hwu⟩ := hex
                exact hapart w hw u hu hwu
              · simp only [List.mem_cons, exists_eq_or_imp]
            · have hstop := hfail vm' role' (vma :: done) (fun u => vma.Covers u ∨ X u) hbad h'
                (hcopy.shared.trans hshare hp hc fun u hu hx => ?_) ((List.prefix_cons_inj vma).mpr hdone)
                fun u hu => ?_
              · rw [List.reverse_cons, List.append_assoc, List.singleton_append, List.length_cons,
                  Nat.add_comm done.length, ← Nat.add_assoc] at hstop
                exact hstop
              · obtain ⟨w, hw, hwu⟩ := hX u hx
                exact hapart w (hdone.subset hw) u hu hwu
              · rcases hu with hu | hu
                · exact ⟨vma, List.mem_cons_self, hu⟩
                · obtain ⟨w, hw, hwu⟩ := hX u hu
                  exact ⟨w, List.mem_cons_of_mem _ hw, hwu⟩
          · rw [if_pos (by decide), Prog.wp_pure]
            refine hfail vm₂ role₂ [vma] (fun u => False ∨ vma.Covers u ∧ u < v) hbad h₂' ?_ ?_ fun u hu => ?_
            · exact hcopy₁.shared.trans (hstuck.shared hp₁ hc₁) hp hc fun _ hx _ => hx
            · exact (List.prefix_cons_inj vma).mpr (List.nil_prefix)
            · exact ⟨vma, List.mem_singleton.mpr rfl, (hu.resolve_left not_false).1⟩
        · rcases hpanic with hle | ⟨v, hv, hmeets⟩
          · exact absurd hlt (not_lt.mpr hle)
          · exact absurd hmeets (hno v hv)
      · rw [if_neg (by simp), Prog.wp_pure, Prog.wp_pure]
        refine hfail vm₁ role [] (fun _ => False) hbad h₁ hheap.copied.shared List.nil_prefix fun _ hu => hu.elim

end Loop

-- Page `u` is in a vma.
def MmStruct.covers (mm : MmStruct) (u : Nat) : Bool := mm.mmapList.any fun vma => vma.contains (u * PGSIZE)

theorem MmStruct.covers_iff (mm : MmStruct) (u : Nat) :
    mm.covers u = true ↔ ∃ vma ∈ mm.mmapList, vma.Covers u := by
  unfold MmStruct.covers VmaStruct.contains VmaStruct.Covers
  simp

-- The permissions of a page that fork shares
def sharedPerm (perm : Nat) : Nat :=
  if perm &&& PTE_W ≠ 0 then clearBit perm PTE_W ||| PTE_COW else perm

theorem cow_eq : ∀ perm < 1024, perm &&& PTE_V ≠ 0 → cow perm = sharedPerm perm :=
  forall_low (by decide +kernel)

theorem Copied.child_shared {X : Nat → Prop} (h : Copied vm vm' role role' c p X) (htree : Tree vm.mem role)
    (hp : role p = .root) (hu : u < UPAGES) (hx : X u) :
    leaf vm'.mem c u = (leaf vm.mem p u).map fun lf => ⟨lf.frame, sharedPerm lf.perm⟩ := by
  rw [h.child u hu hx]
  cases hlf : leaf vm.mem p u with
  | none => rfl
  | some lf =>
      have hvalid := htree.leaf_valid hp hu hlf
      rw [Option.map_some, Option.map_some, Leaf.cow, cow_eq lf.perm hvalid.1 hvalid.2]

-- The frames of shared pages have one reference more for each.
theorem Copied.refs {U : Finset Nat} (h : Copied vm vm' role role' c p (· ∈ U)) (hrep : Rep vm managed role lk)
    (hc : role c = .root) (hU : ∀ u ∈ U, u < UPAGES)
    (hchild : ∀ u ∈ U, leaf vm.mem c u = none) :
    refs managed vm'.mem role' f = refs managed vm.mem role f + mapped vm.mem p U f := by
  have hroot : ∀ q, role' q = .root ↔ role q = .root := by
    intro q
    have := h.keep q
    have := h.new q
    grind
  have hcow : ∀ q u, (Option.map Leaf.cow (leaf vm.mem q u)).map Leaf.frame = (leaf vm.mem q u).map Leaf.frame := by
    intro q u
    cases leaf vm.mem q u <;> rfl
  have hmapped : mapped vm.mem p U f = mapped vm'.mem c U f := by
    refine count_congr fun u hu => ?_
    rw [h.child u (hU u hu) hu, hcow]
  rw [hmapped]
  refine refs_gain hc (hrep.root_managed hc) hU hroot (fun u hu => ?_) fun q u hq hu hno => ?_
  · rw [hchild u hu]
    simp
  · by_cases hpq : q = p ∧ u ∈ U
    · rw [hpq.1, h.parent u hu hpq.2, hcow]
    · rw [h.rest q u hq hu (by tauto)]

-- What dup_mmap makes of a fresh `dst`
structure Duplicated (vm vm' : VM) (role : Nat → Role) (dst src mm' : MmStruct) : Prop where
  mmapList : mm'.mmapList = src.mmapList
  pgdir : mm'.pgdir = dst.pgdir
  child : ∀ u, u < UPAGES → src.covers u = true →
    leaf vm'.mem dst.pgdir u = (leaf vm.mem src.pgdir u).map fun lf => ⟨lf.frame, sharedPerm lf.perm⟩
  parent : ∀ u, u < UPAGES → src.covers u = true → leaf vm'.mem src.pgdir u = leaf vm'.mem dst.pgdir u
  rest : ∀ q u, role q = .root → u < UPAGES → ¬(src.covers u = true ∧ (q = dst.pgdir ∨ q = src.pgdir)) →
    leaf vm'.mem q u = leaf vm.mem q u
  mem : ∀ f, role f = .frame → vm'.mem f = vm.mem f
  ref : ∀ f, role f = .frame → (vm'.area.pages f).ref =
    (vm.area.pages f).ref + mapped vm.mem src.pgdir ((Finset.range UPAGES).filter fun u => src.covers u = true) f

theorem Copied.duplicated (h : Copied vm vm' role role' dst.pgdir src.pgdir fun u => ∃ vma ∈ src.mmapList, vma.Covers u)
    (hrep : Rep vm managed role lk) (hrep' : Rep vm' managed role' lk) (hp : role src.pgdir = .root)
    (hc : role dst.pgdir = .root) (hlist : mm'.mmapList = src.mmapList) (hpgdir : mm'.pgdir = dst.pgdir)
    (hvmas : ∀ vma ∈ src.mmapList, vma.Ok) (hchild : ∀ u, u < UPAGES → leaf vm.mem dst.pgdir u = none) :
    Duplicated vm vm' role dst src mm' := by
  have hcov := src.covers_iff
  have hshared : ∀ u, u < UPAGES → src.covers u = true → leaf vm'.mem src.pgdir u = leaf vm'.mem dst.pgdir u := by
    intro u hu hx
    rw [h.parent u hu ((hcov u).mp hx), h.child u hu ((hcov u).mp hx)]
  refine ⟨hlist, hpgdir, fun u hu hx => h.child_shared hrep.tree hp hu ((hcov u).mp hx), hshared,
    fun q u hq hu hno => h.rest q u hq hu (by rwa [← hcov]), fun f hf => ?_, fun f hf => ?_⟩
  · exact h.mem f (by rw [hf]; simp) (by rw [hf]; rfl)
  · have hset : ∀ u, (∃ vma ∈ src.mmapList, vma.Covers u) ↔
        u ∈ (Finset.range UPAGES).filter fun u => src.covers u = true := by
      intro u
      rw [Finset.mem_filter, Finset.mem_range, hcov]
      refine ⟨fun hx => ⟨?_, hx⟩, And.right⟩
      obtain ⟨vma, hvma, hu⟩ := hx
      exact (hvmas vma hvma).lt_upages hu
    have hlt : ∀ u ∈ (Finset.range UPAGES).filter fun u => src.covers u = true, u < UPAGES :=
      fun u hu => Finset.mem_range.mp (Finset.mem_filter.mp hu).1
    have hrefs := (h.congr hset).refs (f := f) hrep hc hlt fun u hu => hchild u (hlt u hu)
    rw [hrep'.ref f ((h.keep f (by rw [hf]; simp)).trans hf), hrep.ref f hf, hrefs]
    push_cast
    rfl

-- dup_mmap shares every page of the parent copy-on-write with a fresh child, and nothing
-- else; it gives up only for want of memory. The loop of copy_range ends for every range,
-- and no page of it is skipped.
theorem dup_mmap_shares (h : Rep vm managed role lk) (hp : role src.pgdir = .root) (hc : role dst.pgdir = .root)
    (hcp : dst.pgdir ≠ src.pgdir) (hsrc : src.Sorted) (hvmas : ∀ vma ∈ src.mmapList, vma.Ok)
    (hlist : dst.mmapList = []) (hcache : dst.mmapCache = none)
    (hchild : ∀ u, u < UPAGES → leaf vm.mem dst.pgdir u = none) :
    (∃ ret mm' vm', (dupMmap dst src vm).result = .ok ((ret, mm'), vm') ∧ (ret = 0 ∨ ret = -E_NO_MEM) ∧
      (ret = 0 → Duplicated vm vm' role dst src mm')) ∧
    ∀ start stop, start % PGSIZE = 0 → stop % PGSIZE = 0 → USER_ACCESS start stop = true →
      ∃ ret vm', (copyRange dst.pgdir src.pgdir start stop vm).result = .ok (ret, vm') ∧
        (ret = 0 ∨ ret = -E_NO_MEM) ∧
        (ret = 0 → ∀ u, start ≤ u * PGSIZE → u * PGSIZE < stop → leaf vm'.mem dst.pgdir u =
          (leaf vm.mem src.pgdir u).map fun lf => ⟨lf.frame, sharedPerm lf.perm⟩) := by
  constructor
  · have hdst : dst.Sorted := by
      refine ⟨?_, ?_, ?_⟩
      · rw [hlist]
        exact fun _ hmem => absurd hmem List.not_mem_nil
      · rw [hlist]
        exact List.Pairwise.nil
      · rw [hcache]
        exact fun _ hno => by cases hno
    have hwp : Prog.wp (fun _ => False) (dupMmap dst src) vm (fun res vm' =>
        (res.1 = 0 ∨ res.1 = -E_NO_MEM) ∧ (res.1 = 0 → Duplicated vm vm' role dst src res.2)) fun _ => False := by
      refine wp_dupLoop h hp hc hcp hdst (fun vma hvma => hvmas vma (List.mem_reverse.mp hvma)) ?_
        (fun u hu => ?_) (fun vm' role' h' hcopy => ?_) fun _ _ _ _ _ _ _ _ _ => ?_
      · rw [List.reverse_reverse, hlist, List.append_nil]
        exact hsrc.sorted
      · obtain ⟨vma, hvma, hu⟩ := hu
        exact hchild u ((hvmas vma (List.mem_reverse.mp hvma)).lt_upages hu)
      · simp only [List.mem_reverse] at hcopy
        refine ⟨Or.inl rfl, fun _ => hcopy.duplicated h h' hp hc ?_ rfl hvmas hchild⟩
        simp only [List.reverse_reverse, hlist, List.append_nil]
      · exact ⟨Or.inr rfl, fun hno => absurd hno (by simp only; decide)⟩
    rcases Prog.wp_total hwp with ⟨⟨ret, mm'⟩, vm', hrun, hpost⟩ | ⟨_, _, hfalse⟩
    · exact ⟨ret, mm', vm', hrun, hpost⟩
    · exact absurd hfalse not_false
  · intro start stop hstart hstop hacc
    obtain ⟨hbase, hlt, htop⟩ := of_decide_eq_true hacc
    have hok : (VmaStruct.mk start stop 0).Ok := ⟨hstart, hstop, hbase, hlt, htop⟩
    have hwp : Prog.wp (fun _ => False) (copyRange dst.pgdir src.pgdir start stop) vm (fun ret vm' =>
        (ret = 0 ∨ ret = -E_NO_MEM) ∧ (ret = 0 → ∀ u, start ≤ u * PGSIZE → u * PGSIZE < stop →
          leaf vm'.mem dst.pgdir u = (leaf vm.mem src.pgdir u).map fun lf => ⟨lf.frame, sharedPerm lf.perm⟩))
        fun _ => False := by
      refine wp_copyRange h hp hc hcp hok (fun u hu => hchild u (hok.lt_upages hu)) (fun vm' role' _ hcopy => ?_)
        fun vm' role' v _ _ _ _ => ?_
      · exact ⟨Or.inl rfl, fun _ u h₁ h₂ => hcopy.child_shared h.tree hp (hok.lt_upages ⟨h₁, h₂⟩) ⟨h₁, h₂⟩⟩
      · exact ⟨Or.inr rfl, fun hno => absurd hno (by decide)⟩
    rcases Prog.wp_total hwp with ⟨ret, vm', hrun, hpost⟩ | ⟨_, _, hfalse⟩
    · exact ⟨ret, vm', hrun, hpost⟩
    · exact absurd hfalse not_false

-- A writable page that fork shares
def parentVm : VM := ((twoSpaces PTE_USER bootVm).result.toOption.map Prod.snd).getD bootVm

def parentMm : MmStruct := ⟨[⟨USERBASE, USERBASE + PGSIZE, VM_READ ||| VM_WRITE⟩], none, 0, 1, 1, false⟩

def childMm : MmStruct := ⟨[], none, 1, 0, 0, false⟩

theorem dup_mmap_shares_page : ∃ mm' vm', (dupMmap childMm parentMm parentVm).result = .ok ((0, mm'), vm') ∧
    leaf vm'.mem childMm.pgdir (USERBASE / PGSIZE) = some ⟨2, sharedPerm PTE_USER⟩ := by
  obtain ⟨l, hl⟩ := sixteen_freeList
  have hlog : (twoSpaces PTE_USER bootVm).log = [.pte 0 USERBASE 0, .fence USERBASE] := rfl
  obtain ⟨role, hrep, hp, hc, hne, hparent, hchild⟩ := twoSpaces_rep (a := 0) (b := 1) (f := 2) hl rfl (by decide)
    (by rw [hlog]; decide) (show (twoSpaces PTE_USER bootVm).result = .ok (some (0, 1, 2), parentVm) from rfl)
  have hsrc : parentMm.Sorted := ⟨by decide, List.pairwise_singleton _ _, fun _ hno => by cases hno⟩
  have hok : ∀ vma ∈ parentMm.mmapList, vma.Ok := by
    intro vma hvma
    obtain rfl := List.mem_singleton.mp hvma
    exact ⟨by decide, by decide, by decide, by decide, by decide⟩
  have hp : role parentMm.pgdir = .root := hp
  have hc : role childMm.pgdir = .root := hc
  obtain ⟨ret, mm', vm', hrun, _, hdup⟩ := (dup_mmap_shares hrep hp hc hne.symm hsrc hok rfl rfl hchild).1
  have hret : ((dupMmap childMm parentMm parentVm).result.toOption.map fun r => r.1.1) = some 0 := rfl
  rw [hrun] at hret
  obtain rfl : ret = 0 := Option.some.inj hret
  refine ⟨mm', vm', hrun, ?_⟩
  have hleaf := (hdup rfl).child (USERBASE / PGSIZE) (by decide) rfl
  rw [show parentMm.pgdir = 0 from rfl, hparent _ (by decide), if_pos rfl] at hleaf
  exact hleaf

end Ucore.Mm
