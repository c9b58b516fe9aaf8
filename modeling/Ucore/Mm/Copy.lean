import Ucore.Mm.Space

namespace Ucore.Mm

open Lib Pmm

variable {vm vm' vm'' : VM} {managed : Finset Nat} {role role' role'' : Nat → Role} {lk : Option Nat}
  {bad : Obs → Prop} {a b c d i la p q r t u v : Nat} {lf : Leaf} {X Y : Nat → Prop}
  {E : Halt → Prop}

-- Tables are added below the root `r` for page `v` only.
structure Nodes (role role' : Nat → Role) (r v : Nat) : Prop where
  old : ∀ q, (role q).isNode → role' q = role q
  new : ∀ q, (role' q).isNode → role' q = role q ∨ role' q = .dir r (dirIx v) ∨
    ∃ d, role' d = .dir r (dirIx v) ∧ role' q = .table d (tabIx v)

namespace Nodes

theorem hasDir_old (h : Nodes role role' r v) (hd : HasDir role q i) : HasDir role' q i := by
  obtain ⟨d, hd⟩ := hd
  exact ⟨d, (h.old d (by rw [hd]; rfl)).trans hd⟩

theorem hasDir_new (h : Nodes role role' r v) (hd : HasDir role' q i) :
    HasDir role q i ∨ q = r ∧ i = dirIx v := by
  obtain ⟨d, hd⟩ := hd
  rcases h.new d (by rw [hd]; rfl) with he | he | ⟨_, _, he⟩
  · exact Or.inl ⟨d, he.symm.trans hd⟩
  · rw [hd] at he
    cases he
    exact Or.inr ⟨rfl, rfl⟩
  · rw [hd] at he
    cases he

theorem index_eq : v / 512 / 512 = dirIx v ∧ v / 512 % 512 = tabIx v := by
  unfold dirIx tabIx
  omega

theorem index_of {J : Nat} (hd : J / 512 = dirIx v) (ht : J % 512 = tabIx v) : J = v / 512 := by
  unfold dirIx tabIx at *
  omega

theorem hasTable_old (h : Nodes role role' r v) {J : Nat} (ht : HasTable role q J) :
    HasTable role' q J := by
  obtain ⟨d, t, hd, ht⟩ := ht
  exact ⟨d, t, (h.old d (by rw [hd]; rfl)).trans hd, (h.old t (by rw [ht]; rfl)).trans ht⟩

theorem hasTable_new (h : Nodes role role' r v) {mem : Nat → Words} (htree : Tree mem role) {J : Nat}
    (ht : HasTable role' q J) : HasTable role q J ∨ q = r ∧ J = v / 512 := by
  obtain ⟨d, t, hd, ht⟩ := ht
  rcases h.new t (by rw [ht]; rfl) with he | he | ⟨d', hd', he⟩
  · rw [ht] at he
    obtain ⟨⟨r', i', hd'⟩, _⟩ := htree.tableUp he.symm
    have := (h.old d (by rw [hd']; rfl)).trans hd'
    rw [hd] at this
    cases this
    exact Or.inl ⟨d, t, hd', he.symm⟩
  · rw [ht] at he
    cases he
  · rw [ht] at he
    obtain ⟨hdd, hj⟩ := Role.table.inj he
    rw [← hdd, hd] at hd'
    obtain ⟨hq, hi⟩ := Role.dir.inj hd'
    exact Or.inr ⟨hq, index_of hi hj⟩

end Nodes

-- Page tables come with their directories.
theorem hasTable_page (hd : role d = .dir r (dirIx v)) (ht : role t = .table d (tabIx v)) :
    HasTable role r (v / 512) := by
  refine ⟨d, t, ?_, ?_⟩
  · rw [Nodes.index_eq.1]
    exact hd
  · rw [Nodes.index_eq.2]
    exact ht

theorem Grow.nodes {tab : Prop} (hg : Grow vm vm' role role' r) (ha : Added role role' r v tab) :
    Nodes role role' r v := by
  have hnf : ∀ q, (role q).isNode → role q ≠ .free := by
    intro q hq he
    rw [he] at hq
    cases hq
  refine ⟨fun q hq => hg.keep q (hnf q hq), fun q hq => ?_⟩
  by_cases hf : role q = .free
  · rcases ha q hf with he | he | ⟨_, he⟩
    · rw [he] at hq
      cases hq
    · exact Or.inr (Or.inl he)
    · exact Or.inr (Or.inr he)
  · exact Or.inl (hg.keep q hf)

theorem Inserted.nodes {perm : Nat} (h : Inserted vm vm' role role' r v p perm)
    (hp : (role p).isNode = false) : Nodes role role' r v := by
  have hne : ∀ q, (role q).isNode → q ≠ p := by
    rintro q hq rfl
    rw [hp] at hq
    cases hq
  refine ⟨fun q hq => h.keep q ?_ (hne q hq), fun q hq => ?_⟩
  · intro he
    rw [he] at hq
    cases hq
  · have hqp : q ≠ p := by
      rintro rfl
      rw [h.page] at hq
      cases hq
    by_cases hf : role q = .free
    · rcases h.new q hf hqp with he | he
      · rw [he] at hq
        cases hq
      · exact Or.inr he
    · exact Or.inl (h.keep q hf hqp)

-- The leaves of the pages `X` below `p` are shared with `c`.
structure Copied (vm vm' : VM) (role role' : Nat → Role) (c p : Nat) (X : Nat → Prop) : Prop where
  keep : ∀ q, role q ≠ .free → role' q = role q
  new : ∀ q, role q = .free → role' q = .free ∨ role' q = .heap ∨ (∃ i, role' q = .dir c i) ∨
    ∃ d i j, role' d = .dir c i ∧ role' q = .table d j
  mem : ∀ q, role q ≠ .free → (role q).isNode = false → vm'.mem q = vm.mem q
  child : ∀ u, u < UPAGES → X u → leaf vm'.mem c u = (leaf vm.mem p u).map Leaf.cow
  parent : ∀ u, u < UPAGES → X u → leaf vm'.mem p u = (leaf vm.mem p u).map Leaf.cow
  rest : ∀ q u, role q = .root → u < UPAGES → ¬(X u ∧ (q = c ∨ q = p)) →
    leaf vm'.mem q u = leaf vm.mem q u
  dirs : ∀ i, HasDir role' c i ↔
    HasDir role c i ∨ ∃ u, u < UPAGES ∧ X u ∧ (leaf vm.mem p u).isSome ∧ dirIx u = i
  tables : ∀ J, HasTable role' c J ↔
    HasTable role c J ∨ ∃ u, u < UPAGES ∧ X u ∧ (leaf vm.mem p u).isSome ∧ u / 512 = J
  npages : vm'.area.npages = vm.area.npages

namespace Copied

theorem refl (hchild : ∀ u, u < UPAGES → X u → leaf vm.mem c u = none)
    (hno : ∀ u, u < UPAGES → X u → leaf vm.mem p u = none) : Copied vm vm role role c p X := by
  refine ⟨fun _ _ => rfl, fun _ hq => Or.inl hq, fun _ _ _ => rfl, fun u hu hx => ?_, fun u hu hx => ?_,
    fun _ _ _ _ _ => rfl, fun i => ?_, fun J => ?_, rfl⟩
  · rw [hchild u hu hx, hno u hu hx]
    rfl
  · rw [hno u hu hx]
    rfl
  · refine ⟨Or.inl, fun h => h.elim id ?_⟩
    rintro ⟨u, hu, hx, hs, _⟩
    rw [hno u hu hx] at hs
    cases hs
  · refine ⟨Or.inl, fun h => h.elim id ?_⟩
    rintro ⟨u, hu, hx, hs, _⟩
    rw [hno u hu hx] at hs
    cases hs

theorem trans (h : Copied vm vm' role role' c p X) (h' : Copied vm' vm'' role' role'' c p Y)
    (hp : role p = .root) (hc : role c = .root) (hdisj : ∀ u, X u → ¬Y u) :
    Copied vm vm'' role role'' c p fun u => X u ∨ Y u := by
  have hp' : role' p = .root := (h.keep p (by rw [hp]; simp)).trans hp
  have hc' : role' c = .root := (h.keep c (by rw [hc]; simp)).trans hc
  have hY : ∀ u, u < UPAGES → Y u → leaf vm'.mem p u = leaf vm.mem p u :=
    fun u hu hy => h.rest p u hp hu fun hno => hdisj u hno.1 hy
  refine ⟨fun q hq => ?_, fun q hq => ?_, fun q hq hnode => ?_, fun u hu hx => ?_, fun u hu hx => ?_,
    fun q u hq hu hno => ?_, fun i => ?_, fun J => ?_, h'.npages.trans h.npages⟩
  · have h₁ := h.keep q hq
    rw [h'.keep q (by rw [h₁]; exact hq), h₁]
  · have h₁ := h.new q hq
    have h₂ := h'.new q
    have h₃ := h'.keep
    grind
  · have h₁ := h.keep q hq
    rw [h'.mem q (by rw [h₁]; exact hq) (by rw [h₁]; exact hnode), h.mem q hq hnode]
  · rcases hx with hx | hy
    · rw [h'.rest c u hc' hu fun hno => hdisj u hx hno.1]
      exact h.child u hu hx
    · rw [h'.child u hu hy, hY u hu hy]
  · rcases hx with hx | hy
    · rw [h'.rest p u hp' hu fun hno => hdisj u hx hno.1]
      exact h.parent u hu hx
    · rw [h'.parent u hu hy, hY u hu hy]
  · have hq' : role' q = .root := (h.keep q (by rw [hq]; simp)).trans hq
    rw [h'.rest q u hq' hu fun hy => hno ⟨Or.inr hy.1, hy.2⟩]
    exact h.rest q u hq hu fun hx => hno ⟨Or.inl hx.1, hx.2⟩
  · rw [h'.dirs, h.dirs]
    constructor
    · rintro ((hd | ⟨u, hu, hx, hs⟩) | ⟨u, hu, hy, hs⟩)
      · exact Or.inl hd
      · exact Or.inr ⟨u, hu, Or.inl hx, hs⟩
      · rw [hY u hu hy] at hs
        exact Or.inr ⟨u, hu, Or.inr hy, hs⟩
    · rintro (hd | ⟨u, hu, hx | hy, hs⟩)
      · exact Or.inl (Or.inl hd)
      · exact Or.inl (Or.inr ⟨u, hu, hx, hs⟩)
      · rw [← hY u hu hy] at hs
        exact Or.inr ⟨u, hu, hy, hs⟩
  · rw [h'.tables, h.tables]
    constructor
    · rintro ((hd | ⟨u, hu, hx, hs⟩) | ⟨u, hu, hy, hs⟩)
      · exact Or.inl hd
      · exact Or.inr ⟨u, hu, Or.inl hx, hs⟩
      · rw [hY u hu hy] at hs
        exact Or.inr ⟨u, hu, Or.inr hy, hs⟩
    · rintro (hd | ⟨u, hu, hx | hy, hs⟩)
      · exact Or.inl (Or.inl hd)
      · exact Or.inl (Or.inr ⟨u, hu, hx, hs⟩)
      · rw [← hY u hu hy] at hs
        exact Or.inr ⟨u, hu, hy, hs⟩

theorem congr (h : Copied vm vm' role role' c p X) (hxy : ∀ u, X u ↔ Y u) :
    Copied vm vm' role role' c p Y := by
  obtain rfl : X = Y := funext fun u => propext (hxy u)
  exact h

end Copied

-- One page: get_pte, page_insert below `c`, and the new entry below `p`
theorem copied_page {vm₁ vm₂ : VM} {role₁ role₂ : Nat → Role} {perm : Nat} {mem : Nat → Words}
    (htree : Tree vm.mem role) (htree₁ : Tree vm₁.mem role₁)
    (hg : Grow vm vm₁ role role₁ c) (ha : Added role role₁ c v True)
    (hi : Inserted vm₁ vm₂ role₁ role₂ c v lf.frame perm) (hperm : perm ||| PTE_V = cow lf.perm)
    (hp : role p = .root) (hc : role c = .root) (hcp : c ≠ p) (hv : v < UPAGES)
    (hleaf : leaf vm.mem p v = some lf) (hparent : leaf mem p v = some lf.cow)
    (hothers : ∀ q u, role q = .root → u < UPAGES → ¬(q = p ∧ u = v) →
      leaf mem q u = leaf vm₂.mem q u)
    (hmem : ∀ q, (role₂ q).isNode = false → mem q = vm₂.mem q) :
    Copied vm { vm₂ with mem := mem } role role₂ c p (· = v) := by
  have hf := htree.leaf_frame hp hv hleaf
  have hf₁ : role₁ lf.frame = .frame := (hg.keep _ (by rw [hf]; simp)).trans hf
  have hnode : (role₁ lf.frame).isNode = false := by rw [hf₁]; rfl
  have hkeep : ∀ q, role q ≠ .free → role₂ q = role q := by
    intro q hq
    have h₁ := hg.keep q hq
    by_cases hqf : q = lf.frame
    · rw [hqf, hi.page, hf]
    · rw [hi.keep q (by rw [h₁]; exact hq) hqf, h₁]
  have hleaf₂ : ∀ q u, role q = .root → u < UPAGES →
      leaf vm₂.mem q u = if q = c ∧ u = v then some lf.cow else leaf vm.mem q u := by
    intro q u hq hu
    have hq₁ : role₁ q = .root := (hg.keep q (by rw [hq]; simp)).trans hq
    rw [hi.leaf q u hq₁ hu, hg.leaf q u hq hu, hperm]
    rfl
  have hn := hg.nodes ha
  have hn₂ := hi.nodes hnode
  obtain ⟨d, t, hd, ht⟩ := hi.table
  have hsome : ∀ {K : Nat → Nat} {x : Nat}, (∃ u, u < UPAGES ∧ u = v ∧ (leaf vm.mem p u).isSome ∧ K u = x) ↔
      x = K v := by
    intro K x
    constructor
    · rintro ⟨u, _, rfl, _, rfl⟩
      rfl
    · rintro rfl
      exact ⟨v, hv, rfl, by rw [hleaf]; rfl, rfl⟩
  refine ⟨hkeep, fun q hq => ?_, fun q hq hnode => ?_, ?_, ?_, fun q u hq hu hno => ?_, fun i => ?_,
    fun J => ?_, hi.npages.trans hg.npages⟩
  · have h₁ := hg.new q hq
    have h₂ := hi.new q
    have h₃ := hi.keep
    have hqf : q ≠ lf.frame := by
      rintro rfl
      rw [hf] at hq
      cases hq
    grind
  · have h₁ := hg.keep q hq
    have h₂ := hkeep q hq
    refine (hmem q (by rw [h₂]; exact hnode)).trans ?_
    rw [hi.plain (Or.inl (by rw [h₁]; exact hq)) (by rw [h₁]; exact hnode)]
    exact hg.mem q (by rw [h₁]; exact hnode)
  · rintro u hu rfl
    rw [hleaf]
    exact (hothers c u hc hu fun hno => hcp hno.1).trans ((hleaf₂ c u hc hu).trans (if_pos ⟨rfl, rfl⟩))
  · rintro u hu rfl
    rw [hleaf]
    exact hparent
  · refine (hothers q u hq hu fun hno' => hno ⟨hno'.2, Or.inr hno'.1⟩).trans ?_
    rw [hleaf₂ q u hq hu, if_neg fun hno' => hno ⟨hno'.2, Or.inl hno'.1⟩]
  · rw [hsome]
    constructor
    · intro hd'
      rcases hn₂.hasDir_new hd' with hd₁ | ⟨_, hi⟩
      · rcases hn.hasDir_new hd₁ with hd₀ | ⟨_, hi⟩
        · exact Or.inl hd₀
        · exact Or.inr hi
      · exact Or.inr hi
    · rintro (hd' | rfl)
      · exact hn₂.hasDir_old (hn.hasDir_old hd')
      · exact ⟨d, hd⟩
  · rw [hsome]
    constructor
    · intro ht'
      rcases hn₂.hasTable_new htree₁ ht' with ht₁ | ⟨_, hJ⟩
      · rcases hn.hasTable_new htree ht₁ with ht₀ | ⟨_, hJ⟩
        · exact Or.inl ht₀
        · exact Or.inr hJ
      · exact Or.inr hJ
    · rintro (ht' | rfl)
      · exact hn₂.hasTable_old (hn.hasTable_old ht')
      · exact hasTable_page hd ht

section Page

variable {Q : Int → VM → Prop}

theorem wp_copyPage (h : Rep vm managed role lk) (hp : role p = .root) (hc : role c = .root) (hcp : c ≠ p)
    (hla : la < USERTOP) (hd : role d = .dir p (dirIx (la / PGSIZE)))
    (ht : role t = .table d (tabIx (la / PGSIZE))) (hchild : leaf vm.mem c (la / PGSIZE) = none)
    (hok : ∀ vm' role', Rep vm' managed role' lk → Copied vm vm' role role' c p (· = la / PGSIZE) →
      Q 0 vm')
    (hfail : ∀ vm' role', ¬bad .noMem → (leaf vm.mem p (la / PGSIZE)).isSome →
      NoTable role c (la / PGSIZE) → Rep vm' managed role' lk → Grow vm vm' role role' c →
      Added role role' c (la / PGSIZE) False → (∀ q, role' q ≠ .free) → Q (-E_NO_MEM) vm') :
    Prog.wp bad (copyPage c p la (t, pteIx (la / PGSIZE))) vm Q E := by
  have hv := page_lt hla
  simp only [copyPage, Prog.wp_bind, wp_readWord]
  rcases h.entry hp hv hd ht with ⟨h0, hleaf⟩ | ⟨lf, he, hleaf, hvalid, hf⟩
  · rw [h0, Nat.zero_and, if_neg (not_not.mpr rfl), Prog.wp_pure]
    refine hok vm role h (Copied.refl ?_ ?_)
    · rintro u _ rfl
      exact hchild
    · rintro u _ rfl
      exact hleaf
  · rw [he, if_pos (Leaf.pte_valid hvalid), Prog.wp_bind]
    refine wp_getPte h hc hla (fun vm₁ role₁ d' t' hrep₁ hg ha hd' ht' => ?_)
      fun vm₁ role₁ hno hnt hrep₁ hg ha hall => ?_
    · have hp₁ : role₁ p = .root := (hg.keep p (by rw [hp]; simp)).trans hp
      have hc₁ : role₁ c = .root := (hg.keep c (by rw [hc]; simp)).trans hc
      have hd₁ : role₁ d = .dir p (dirIx (la / PGSIZE)) := (hg.keep d (by rw [hd]; simp)).trans hd
      have ht₁ : role₁ t = .table d (tabIx (la / PGSIZE)) := (hg.keep t (by rw [ht]; simp)).trans ht
      have hleaf₁ : leaf vm₁.mem p (la / PGSIZE) = some lf := (hg.leaf p _ hp hv).trans hleaf
      have hold₁ : leaf vm₁.mem c (la / PGSIZE) = none := (hg.leaf c _ hc hv).trans hchild
      have he₁ : vm₁.mem t (pteIx (la / PGSIZE)) = lf.pte := by
        rcases hrep₁.entry hp₁ hv hd₁ ht₁ with ⟨_, hnone⟩ | ⟨lf', he', hlf', _⟩
        · rw [hleaf₁] at hnone
          cases hnone
        · rw [hleaf₁] at hlf'
          cases hlf'
          exact he'
      have hf₁ := hrep₁.tree.leaf_frame hp₁ hv hleaf₁
      have hb := hrep₁.bound (p := lf.frame) (by rw [hf₁]; simp)
      have hperm : lf.pte &&& PTE_PERM = lf.perm &&& PTE_PERM := Leaf.pte_and hvalid.1 (by decide)
      have hpermlt : lf.perm &&& PTE_PERM < 1024 := lt_of_le_of_lt Nat.and_le_left hvalid.1
      have hwbit : (lf.perm &&& PTE_PERM) &&& PTE_W = lf.perm &&& PTE_W := by
        rw [Nat.and_assoc, show PTE_PERM &&& PTE_W = PTE_W by decide]
      simp only [Prog.wp_bind, wp_readWord]
      rw [he₁, wp_pte2page hvalid hb, hperm, hwbit]
      have hstuck : ¬NoTable role₁ c (la / PGSIZE) := fun hno => hno d' t' hd' ht'
      rw [Prog.wp_ite]
      constructor
      · intro hw
        have hbit : (lf.perm &&& PTE_PERM) &&& PTE_W < 1024 := lt_of_le_of_lt Nat.and_le_left hpermlt
        have hclear : clearBit (lf.perm &&& PTE_PERM) PTE_W < 1024 :=
          Nat.xor_lt_two_pow (n := 10) hpermlt hbit
        have hcow : clearBit (lf.perm &&& PTE_PERM) PTE_W ||| PTE_COW < 1024 :=
          Nat.or_lt_two_pow (n := 10) hclear (by decide)
        rw [Prog.wp_bind]
        refine wp_pageInsert_frame hrep₁ hc₁ hla hf₁ hcow hold₁ (fun vm₂ role₂ hrep₂ hi => ?_)
          fun _ _ _ hnt _ _ _ _ => absurd hnt hstuck
        have hne : ∀ q, role₁ q ≠ .free → role₂ q = role₁ q := by
          intro q hq
          by_cases hqf : q = lf.frame
          · rw [hqf, hi.page, hf₁]
          · exact hi.keep q hq hqf
        have hp₂ : role₂ p = .root := (hne p (by rw [hp₁]; simp)).trans hp₁
        have hd₂ : role₂ d = .dir p (dirIx (la / PGSIZE)) := (hne d (by rw [hd₁]; simp)).trans hd₁
        have ht₂ : role₂ t = .table d (tabIx (la / PGSIZE)) := (hne t (by rw [ht₁]; simp)).trans ht₁
        have hf₂ : role₂ lf.frame = .frame := hi.page
        have hleaf₂ : leaf vm₂.mem p (la / PGSIZE) = some lf := by
          rw [hi.leaf p _ hp₁ hv, if_neg fun hno => hcp hno.1.symm, hleaf₁]
        have hvalid₂ : lf.cow.Valid := by
          obtain ⟨hlow, _, hV, _⟩ := cow_bits lf.perm hvalid.1
          exact ⟨hlow, hV hvalid.2⟩
        have hpte : pteCreate (page2ppn lf.frame)
            ((clearBit (lf.perm &&& PTE_PERM) PTE_W ||| PTE_COW) ||| PTE_V) = lf.cow.pte := by
          rw [Nat.or_comm _ PTE_V, pteCreate_insert hcow, cow_insert hw]
          rfl
        have hset := setLeaf_putEntry vm₂.mem hd₂ ht₂
          (Or.inr ⟨lf.cow, rfl, hvalid₂, hf₂⟩ : lf.cow.pte = 0 ∨ _)
        have hrep₃ := hrep₂.recolor hset hv hvalid₂ hf₂ (by rw [hleaf₂]; rfl)
        rw [if_neg (by simp), Prog.wp_bind, hpte]
        refine wp_setPte ?_
        rw [Prog.wp_bind]
        refine wp_tlbInvalidate ?_
        rw [Prog.wp_pure]
        refine hok _ role₂ hrep₃ (copied_page h.tree hrep₁.tree hg ha hi (cow_insert hw) hp hc hcp hv hleaf
          ?_ ?_ ?_)
        · exact (hset.leaf_self hrep₂.tree hv).trans
            (decode_pte hvalid₂ (hrep₂.tree.bound (by rw [show role₂ lf.cow.frame = .frame from hf₂]; simp)))
        · intro q u hq hu hno
          have hq₂ : role₂ q = .root := by
            have h₁ := hg.keep q (by rw [hq]; simp)
            rw [hne q (by rw [h₁, hq]; simp), h₁, hq]
          exact hset.leaf_other hrep₂.tree hq₂ hu (by tauto)
        · intro q hq
          refine putEntry_of_ne ?_
          rintro rfl
          rw [ht₂] at hq
          cases hq
      · intro hw
        have hw : lf.perm &&& PTE_W = 0 := not_not.mp hw
        have hsame : lf.cow = lf := by
          rw [Leaf.cow, cow, if_neg (not_not.mpr hw)]
        refine wp_pageInsert_frame hrep₁ hc₁ hla hf₁ hpermlt hold₁ (fun vm₂ role₂ hrep₂ hi => ?_)
          fun _ _ _ hnt _ _ _ _ => absurd hnt hstuck
        have hleaf₂ : leaf vm₂.mem p (la / PGSIZE) = some lf := by
          rw [hi.leaf p _ hp₁ hv, if_neg fun hno => hcp hno.1.symm, hleaf₁]
        refine hok _ role₂ hrep₂ (copied_page h.tree hrep₁.tree hg ha hi
          (keep_insert lf.perm hvalid.1 hvalid.2 hw) hp hc hcp hv hleaf ?_ (fun _ _ _ _ _ => rfl)
          fun _ _ => rfl)
        rw [hsame]
        exact hleaf₂
    · rw [Prog.wp_pure]
      exact hfail vm₁ role₁ hno (by rw [hleaf]; rfl) hnt hrep₁ hg ha hall

end Page

-- copy_range stopped at page `v`: there was no page for its tables.
structure Stuck (vm vm' : VM) (role role' : Nat → Role) (c p v : Nat) (X : Nat → Prop) : Prop where
  run : ∃ vm₁ role₁, Copied vm vm₁ role role₁ c p X ∧ NoTable role₁ c v ∧ Grow vm₁ vm' role₁ role' c ∧
    Added role₁ role' c v False
  page : v < UPAGES ∧ (leaf vm.mem p v).isSome ∧ ¬X v
  full : ∀ q, role' q ≠ .free

theorem Stuck.after (h : Copied vm vm' role role' c p X) (h' : Stuck vm' vm'' role' role'' c p v Y)
    (hp : role p = .root) (hc : role c = .root) (hdisj : ∀ u, X u → ¬Y u) (hv : ¬X v) :
    Stuck vm vm'' role role'' c p v fun u => X u ∨ Y u := by
  obtain ⟨⟨vm₁, role₁, hcopy, hnt, hg, ha⟩, ⟨hlt, hleaf, hY⟩, hfull⟩ := h'
  refine ⟨⟨vm₁, role₁, h.trans hcopy hp hc hdisj, hnt, hg, ha⟩, ⟨hlt, ?_, ?_⟩, hfull⟩
  · rwa [h.rest p v hp hlt fun hno => hv hno.1] at hleaf
  · exact fun hx => hx.elim hv hY

section Loop

variable {Q : Int → VM → Prop}

theorem wp_copyLoop (hb : b ≤ UPAGES) (hcp : c ≠ p) {fuel : Nat} :
    ∀ {vm role a}, Rep vm managed role lk → role p = .root → role c = .root → a < b → b - a ≤ fuel →
      (∀ u, a ≤ u → u < b → leaf vm.mem c u = none) →
      (∀ vm' role', Rep vm' managed role' lk →
        Copied vm vm' role role' c p (fun u => a ≤ u ∧ u < b) → Q 0 vm') →
      (∀ vm' role' v, ¬bad .noMem → a ≤ v → v < b → Rep vm' managed role' lk →
        Stuck vm vm' role role' c p v (fun u => a ≤ u ∧ u < v) → Q (-E_NO_MEM) vm') →
      Prog.wp bad (copyLoop c p (b * PGSIZE) fuel (a * PGSIZE)) vm Q E := by
  induction fuel with
  | zero =>
      intro vm role a _ _ _ hab hfuel _ _ _
      omega
  | succ fuel ih =>
      intro vm role a h hp hc hab hfuel hchild hok hfail
      have ha : a < UPAGES := by omega
      -- the rest of the loop, when the pages below `e` are done
      have hnext : ∀ vm' role' e, a < e → Rep vm' managed role' lk →
          Copied vm vm' role role' c p (fun u => a ≤ u ∧ u < e ∧ u < b) →
          Prog.wp bad (if e * PGSIZE ≠ 0 ∧ e * PGSIZE < b * PGSIZE then
            copyLoop c p (b * PGSIZE) fuel (e * PGSIZE) else pure 0) vm' Q E := by
        intro vm' role' e hae hrep hcopy
        rw [Prog.wp_ite]
        constructor
        · intro hlt
          have heb : e < b := by
            unfold PGSIZE at hlt
            omega
          have hp' : role' p = .root := (hcopy.keep p (by rw [hp]; simp)).trans hp
          have hc' : role' c = .root := (hcopy.keep c (by rw [hc]; simp)).trans hc
          have hchild' : ∀ u, e ≤ u → u < b → leaf vm'.mem c u = none := by
            intro u hu hub
            rw [hcopy.rest c u hc (by omega) fun hno => by omega]
            exact hchild u (by omega) hub
          refine ih hrep hp' hc' heb (by omega) hchild' (fun vm'' role'' hrep' hcopy' => ?_)
            fun vm'' role'' v hno hev hvb hrep' hstuck => ?_
          · refine hok vm'' role'' hrep' ((hcopy.trans hcopy' hp hc fun u hx hy => ?_).congr fun u => ?_)
            · omega
            · omega
          · have hst := hstuck.after hcopy hp hc (fun u hx hy => by omega) (by omega)
            refine hfail vm'' role'' v hno (by omega) hvb hrep' ?_
            have heq : (fun u => (a ≤ u ∧ u < e ∧ u < b) ∨ e ≤ u ∧ u < v) = fun u => a ≤ u ∧ u < v := by
              funext u
              exact propext (by omega)
            rw [heq] at hst
            exact hst
        · intro hnlt
          have hbe : b ≤ e := by
            unfold PGSIZE at hnlt
            omega
          rw [Prog.wp_pure]
          exact hok vm' role' hrep (hcopy.congr fun u => by omega)
      simp only [copyLoop, Prog.wp_bind]
      refine wp_getPte_find h hp (addr_lt ha) (fun d t hd ht => ?_) fun hnone => ?_
      · rw [← Nat.succ_mul]
        have hchild_a : leaf vm.mem c (a * PGSIZE / PGSIZE) = none := by
          rw [page_mul]
          exact hchild a le_rfl hab
        simp only [Prog.wp_bind]
        refine wp_copyPage h hp hc hcp (addr_lt ha) hd ht hchild_a (fun vm' role' hrep hcopy => ?_)
          fun vm' role' hno hleaf hnt hrep hg hadd hall => ?_
        · rw [page_mul] at hcopy
          rw [if_neg (by simp)]
          exact hnext vm' role' (a + 1) (by omega) hrep (hcopy.congr fun u => by omega)
        · rw [page_mul] at hleaf hnt hadd
          rw [if_pos (by decide), Prog.wp_pure]
          have hcopy : Copied vm vm role role c p fun u => a ≤ u ∧ u < a :=
            Copied.refl (fun u _ hu => by omega) fun u _ hu => by omega
          exact hfail vm' role' a hno le_rfl hab hrep
            ⟨⟨vm, role, hcopy, hnt, hg, hadd⟩, ⟨ha, hleaf, by omega⟩, hall⟩
      · rw [page_mul] at hnone
        rw [ROUNDDOWN_next]
        refine hnext vm role ((a / 512 + 1) * 512) (by omega) h (Copied.refl (fun u _ hu => ?_) fun u _ hu => ?_)
        · exact hchild u (by omega) (by omega)
        · exact leaf_of_tabAt hnone (by omega)

-- copy_range of a vma
theorem wp_copyRange {vma : VmaStruct} (h : Rep vm managed role lk) (hp : role p = .root)
    (hc : role c = .root) (hcp : c ≠ p) (hvma : vma.Ok)
    (hchild : ∀ u, vma.Covers u → leaf vm.mem c u = none)
    (hok : ∀ vm' role', Rep vm' managed role' lk → Copied vm vm' role role' c p vma.Covers → Q 0 vm')
    (hfail : ∀ vm' role' v, ¬bad .noMem → vma.Covers v → Rep vm' managed role' lk →
      Stuck vm vm' role role' c p v (fun u => vma.Covers u ∧ u < v) → Q (-E_NO_MEM) vm') :
    Prog.wp bad (copyRange c p vma.vmStart vma.vmEnd) vm Q E := by
  have hcov := fun u => hvma.covers_iff (u := u)
  rw [copyRange, Prog.wp_bind]
  refine hvma.checkRange ?_
  have hfuel : (vma.vmEnd - vma.vmStart) / PGSIZE + 1 ≥ vma.vmEnd / PGSIZE - vma.vmStart / PGSIZE := by
    unfold PGSIZE
    omega
  have hloop := wp_copyLoop (Q := Q) (E := E) hvma.stop_le hcp h hp hc hvma.lt_pages hfuel
    (fun u h₁ h₂ => hchild u ((hcov u).mpr ⟨h₁, h₂⟩))
    (fun vm' role' hrep hcopy => hok vm' role' hrep (hcopy.congr fun u => (hcov u).symm))
    fun vm' role' v hno h₁ h₂ hrep hst => hfail vm' role' v hno ((hcov v).mpr ⟨h₁, h₂⟩) hrep ?_
  · rw [hvma.start_eq, hvma.stop_eq] at hloop
    exact hloop
  · have heq : (fun u => vma.vmStart / PGSIZE ≤ u ∧ u < v) = fun u => vma.Covers u ∧ u < v := by
      funext u
      refine propext ⟨fun hu => ⟨(hcov u).mpr ⟨hu.1, by omega⟩, hu.2⟩, fun hu => ⟨((hcov u).mp hu.1).1, hu.2⟩⟩
    rw [heq] at hst
    exact hst

end Loop

end Ucore.Mm
