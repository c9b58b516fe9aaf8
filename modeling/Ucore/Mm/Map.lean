import Ucore.Mm.Release

namespace Ucore.Mm

open Lib Pmm

variable {vm vm' : VM} {managed : Finset Nat} {role role' : Nat → Role} {bad : Obs → Prop}
  {d la p perm q r t u v : Nat} {lf : Leaf} {E : Halt → Prop}

-- get_page, with the permissions in the entry that it stores
def lookup (pgdir la : Nat) : M (Option (Nat × Nat)) := do
  let (page, ptep) ← getPage pgdir la
  match page, ptep with
  | some page, some ptep => do
      let pte ← readWord ptep.1 ptep.2
      pure (some (page, pte % 1024))
  | _, _ => pure none

theorem Leaf.pte_mod (h : lf.perm < 1024) : lf.pte % 1024 = lf.perm := by
  unfold Leaf.pte
  omega

theorem Tables.lookup (h : Tables vm role) (hr : role r = .root) (hla : la < USERTOP) :
    (Mm.lookup r la vm).result =
      .ok ((leaf vm.mem r (la / PGSIZE)).map fun lf => (lf.frame, lf.perm), vm) := by
  have hwp : Prog.wp (fun _ => False) (Mm.lookup r la) vm (fun res vm' =>
      res = (leaf vm.mem r (la / PGSIZE)).map (fun lf => (lf.frame, lf.perm)) ∧ vm' = vm) fun _ => False := by
    have hv := page_lt hla
    simp only [Mm.lookup, getPage, Prog.wp_bind]
    refine h.getPte_find hr hla (fun d t hd ht => ?_) fun hnone => ?_
    · simp only [Prog.wp_bind, wp_readWord]
      rcases h.entry hr hv hd ht with ⟨h0, hleaf⟩ | ⟨lf, he, hleaf, hvalid, hf⟩
      · rw [h0, Nat.zero_and, if_neg (not_not.mpr rfl), Prog.wp_pure]
        simp only [Prog.wp_pure, and_true]
        rw [hleaf]
        rfl
      · have hb := h.bound (p := lf.frame) (by rw [hf]; simp)
        rw [he, if_pos (Leaf.pte_valid hvalid), Prog.wp_bind, wp_pte2page hvalid hb, Prog.wp_pure]
        simp only [Prog.wp_bind, wp_readWord, Prog.wp_pure, and_true]
        rw [he, Leaf.pte_mod hvalid.1, hleaf]
        rfl
    · simp only [Prog.wp_pure, and_true]
      rw [leaf, hnone]
      rfl
  rcases Prog.wp_total hwp with ⟨res, vm', hrun, rfl, rfl⟩ | ⟨_, _, hfalse⟩
  · exact hrun
  · exact absurd hfalse not_false

section Base

-- page_remove_pte, of a frame with any number of references
theorem Base.pageRemovePte {Q : Unit → VM → Prop} (h : Base vm managed role) (hr : role r = .root)
    (hv : v < UPAGES) (hd : role d = .dir r (dirIx v)) (ht : role t = .table d (tabIx v))
    (hnone : leaf vm.mem r v = none → Q () vm)
    (hsome : ∀ lf area, leaf vm.mem r v = some lf → area.npages = vm.area.npages →
      (∀ g, (area.pages g).ref = (vm.area.pages g).ref - if lf.frame = g then 1 else 0) →
      Q () { vm with area := area, mem := putEntry vm.mem t (pteIx v) 0 }) :
    Prog.wp bad (Mm.pageRemovePte r la (t, pteIx v)) vm Q E := by
  simp only [Mm.pageRemovePte, Prog.wp_bind, wp_readWord]
  rcases h.tables.entry hr hv hd ht with ⟨h0, hleaf⟩ | ⟨lf, he, hleaf, hvalid, hf⟩
  · rw [h0, Nat.zero_and, if_neg (not_not.mpr rfl), Prog.wp_pure]
    exact hnone hleaf
  · have hb := h.bound (p := lf.frame) (by rw [hf]; simp)
    have hstore := h.store (p := lf.frame) (g := fun q => { q with ref := q.ref - 1 }) (by rw [hf]; simp)
      ⟨_, _, rfl⟩
    have hdec : ∀ g, ((vm.area.modify lf.frame fun q => { q with ref := q.ref - 1 }).pages g).ref =
        (vm.area.pages g).ref - if lf.frame = g then 1 else 0 := by
      intro g
      rw [FreeArea.modify_apply]
      by_cases hg : g = lf.frame
      · rw [if_pos hg, if_pos hg.symm, hg]
      · rw [if_neg hg, if_neg (Ne.symm hg), sub_zero]
    rw [he, if_pos (Leaf.pte_valid hvalid), Prog.wp_bind, wp_pte2page hvalid hb, Prog.wp_bind, pageRefDec,
      wp_storePage hb, Prog.wp_bind, wp_pageRef (by exact hb), FreeArea.modify_self, Prog.wp_ite]
    constructor
    · intro hzero
      have hzero : (vm.area.pages lf.frame).ref - 1 = 0 := hzero
      rw [Prog.wp_bind]
      refine hstore.freePage (by rw [hf]; simp) (by rw [hf]; simp) fun area hu href => ?_
      rw [Prog.wp_bind]
      refine wp_setPte (wp_tlbInvalidate (hsome lf area hleaf (hu.npages.trans FreeArea.modify_npages) fun g => ?_))
      by_cases hg : g = lf.frame
      · rw [hg, href, if_pos rfl, hzero]
      · rw [hu.ref g (by simpa using hg), hdec]
    · intro _
      rw [Prog.wp_bind]
      exact wp_setPte (wp_tlbInvalidate (hsome lf _ hleaf FreeArea.modify_npages hdec))

-- The references when `p` takes the place of what page `v` maps
def refDelta (mem : Nat → Words) (r v p g : Nat) : Int :=
  (if p = g then 1 else 0) - if (leaf mem r v).map Leaf.frame = some g then 1 else 0

-- page_insert, of a frame with any number of references
theorem Base.pageInsert {Q : Int → VM → Prop} (h : Base vm managed role) (hr : role r = .root) (hla : la < USERTOP)
    (hp : role p = .frame) (hperm : perm < 1024)
    (hok : ∀ vm' role', Tables vm' role' → (∀ q, role q ≠ .free → role' q = role q) →
      (∀ q u, role q = .root → u < UPAGES → leaf vm'.mem q u =
        if q = r ∧ u = la / PGSIZE then some ⟨p, perm ||| PTE_V⟩ else leaf vm.mem q u) →
      (∀ g, role g ≠ .free →
        (vm'.area.pages g).ref = (vm.area.pages g).ref + refDelta vm.mem r (la / PGSIZE) p g) → Q 0 vm')
    (hfail : ∀ vm' role', ¬bad .noMem → Base vm' managed role' → Grow vm vm' role role' r → Q (-E_NO_MEM) vm') :
    Prog.wp bad (Mm.pageInsert r p la perm) vm Q E := by
  have hv := page_lt hla
  rw [Mm.pageInsert, Prog.wp_bind]
  refine h.getPte hr hla (fun vm₁ role₁ d t h₁ hg ha hd ht => ?_) fun vm₁ role₁ hno _ h₁ hg _ _ => ?_
  · generalize la / PGSIZE = v at *
    have hr₁ : role₁ r = .root := (hg.keep r (by rw [hr]; simp)).trans hr
    have hp₁ : role₁ p = .frame := (hg.keep p (by rw [hp]; simp)).trans hp
    have hb := h₁.bound (p := p) (by rw [hp₁]; simp)
    have hstore := h₁.store (p := p) (g := fun q => { q with ref := q.ref + 1 }) (by rw [hp₁]; simp)
      ⟨_, _, rfl⟩
    have hinc : ∀ g, ((vm₁.area.modify p fun q => { q with ref := q.ref + 1 }).pages g).ref =
        (vm₁.area.pages g).ref + if p = g then 1 else 0 := by
      intro g
      rw [FreeArea.modify_apply]
      by_cases hgp : g = p
      · rw [if_pos hgp, if_pos hgp.symm, hgp]
      · rw [if_neg hgp, if_neg (Ne.symm hgp), add_zero]
    have hvalid : (Leaf.mk p (perm ||| PTE_V)).Valid := Leaf.valid_or hperm
    have hset := setLeaf_putEntry vm₁.mem hd ht (Or.inr ⟨_, rfl, hvalid, hp₁⟩ :
      (Leaf.mk p (perm ||| PTE_V)).pte = 0 ∨ _)
    -- the new entry is written, with the references settled
    have hnext : ∀ area mem, area.npages = vm₁.area.npages →
        (∀ w, putEntry mem t (pteIx v) w = putEntry vm₁.mem t (pteIx v) w) →
        (∀ g, (area.pages g).ref = (vm₁.area.pages g).ref + refDelta vm₁.mem r v p g) →
        Prog.wp bad (do
          setPte r la (t, pteIx v) (pteCreate (page2ppn p) (PTE_V ||| perm))
          tlbInvalidate la
          pure 0) { vm₁ with area := area, mem := mem } Q E := by
      intro area mem hnpages hmem href
      rw [Prog.wp_bind, pteCreate_insert hperm]
      refine wp_setPte ?_
      rw [Prog.wp_bind]
      refine wp_tlbInvalidate ?_
      rw [Prog.wp_pure]
      have hmem := hmem (Leaf.mk p (perm ||| PTE_V)).pte
      unfold putEntry at hmem
      simp only
      rw [hmem]
      refine hok _ role₁ ⟨hset.tree h₁.tree, fun hq => hnpages ▸ h₁.bound hq⟩ hg.keep (fun q u hq hu => ?_)
        fun g hgf => ?_
      · have hq₁ : role₁ q = .root := (hg.keep q (by rw [hq]; simp)).trans hq
        split_ifs with he
        · obtain ⟨rfl, rfl⟩ := he
          exact (hset.leaf_self h₁.tree hv).trans
            (decode_pte hvalid (h₁.tree.bound (by rw [show role₁ p = .frame from hp₁]; simp)))
        · exact (hset.leaf_other h₁.tree hq₁ hu (by tauto)).trans (hg.leaf q u hq hu)
      · simp only
        rw [href g, (hg.page g hgf).1, refDelta, refDelta, hg.leaf r v hr hv]
    simp only [Prog.wp_bind, pageRefInc]
    rw [wp_storePage hb]
    simp only [wp_readWord]
    rcases h₁.tables.entry hr₁ hv hd ht with ⟨h0, hleaf⟩ | ⟨lf, he, hleaf, hlf, hf⟩
    · rw [h0, Nat.zero_and, if_neg (not_not.mpr rfl)]
      refine hnext _ _ FreeArea.modify_npages (fun _ => rfl) fun g => ?_
      rw [hinc, refDelta, hleaf]
      simp
    · have hbf := h₁.bound (p := lf.frame) (by rw [hf]; simp)
      rw [he, if_pos (Leaf.pte_valid hlf), Prog.wp_bind, wp_pte2page hlf (by exact hbf)]
      split_ifs with hsame
      · rw [Prog.wp_bind, pageRefDec, wp_storePage (by exact hb)]
        refine hnext _ _ (FreeArea.modify_npages.trans FreeArea.modify_npages) (fun _ => rfl) fun g => ?_
        rw [refDelta, hleaf, Option.map_some, hsame, FreeArea.modify_apply]
        simp only [Option.some.injEq, sub_self, add_zero]
        split_ifs with hgp
        · subst hgp
          simp only
          rw [hinc, if_pos rfl]
          omega
        · rw [hinc, if_neg (Ne.symm hgp), add_zero]
      · rw [Prog.wp_bind]
        refine hstore.pageRemovePte hr₁ hv hd ht (fun hno => ?_) fun lf' area hlf' hnpages href => ?_
        · rw [hleaf] at hno
          cases hno
        · obtain rfl := Option.some.inj (hleaf.symm.trans hlf')
          refine hnext _ _ (hnpages.trans FreeArea.modify_npages) (fun _ => putEntry_putEntry) fun g => ?_
          rw [href, hinc, refDelta, hleaf, Option.map_some]
          simp only [Option.some.injEq]
          omega
  · rw [Prog.wp_pure]
    exact hfail vm₁ role₁ hno h₁ hg

end Base

-- The lookups but those of the pages `X` below their roots find the same.
def SameLookups (vm vm' : VM) (role : Nat → Role) (X : Nat → Nat → Prop) : Prop :=
  ∀ q la, role q = .root → la < USERTOP → ¬X q (la / PGSIZE) →
    ∃ res, (lookup q la vm).result = .ok (res, vm) ∧ (lookup q la vm').result = .ok (res, vm')

theorem Tables.sameLookups {X : Nat → Nat → Prop} (h : Tables vm role) (h' : Tables vm' role')
    (hroot : ∀ q, role q = .root → role' q = .root)
    (hleaf : ∀ q u, role q = .root → u < UPAGES → ¬X q u → leaf vm'.mem q u = leaf vm.mem q u) :
    SameLookups vm vm' role X := by
  intro q la hq hla hX
  refine ⟨_, h.lookup hq hla, ?_⟩
  rw [h'.lookup (hroot q hq) hla, hleaf q _ hq (page_lt hla) hX]

theorem Base.reframe (h : Base vm managed role) (hpm : p ∈ managed) (hpf : role p ≠ .free)
    (hpn : (role p).isNode = false) : Base vm managed (Function.update role p .frame) := by
  have hother : role p ≠ .other := fun ho => (h.other p).mp ho hpm
  obtain ⟨free, l, hl, hfree⟩ := h.list
  refine ⟨h.tree.reframe hother hpn fun q => Function.update_apply .., ⟨free, l, hl, fun q => ?_⟩, fun q => ?_⟩
  · rw [← hfree]
    grind [Function.update_apply]
  · rw [← h.other]
    grind [Function.update_apply]

-- What page_insert of `p` for page `v` below `r` returns, and what is found behind it;
-- `old` is what was found for the page.
structure InsertMaps (vm vm' : VM) (role : Nat → Role) (r la p perm : Nat) (old : Option (Nat × Nat)) : Prop where
  self : (lookup r la vm').result = .ok (some (p, perm ||| PTE_V), vm')
  others : SameLookups vm vm' role fun q u => q = r ∧ u = la / PGSIZE
  ref : ∀ g, role g ≠ .free → (vm'.area.pages g).ref =
    (vm.area.pages g).ref + (if p = g then 1 else 0) - if old.map Prod.fst = some g then 1 else 0

structure InsertFails (vm vm' : VM) (role : Nat → Role) : Prop where
  all : SameLookups vm vm' role fun _ _ => False
  ref : ∀ g, role g ≠ .free → (vm'.area.pages g).ref = (vm.area.pages g).ref

structure RemoveUnmaps (vm vm' : VM) (role : Nat → Role) (r la : Nat) (old : Option (Nat × Nat)) : Prop where
  self : (lookup r la vm').result = .ok (none, vm')
  others : SameLookups vm vm' role fun q u => q = r ∧ u = la / PGSIZE
  ref : ∀ g, (vm'.area.pages g).ref =
    (vm.area.pages g).ref - if old.map Prod.fst = some g then 1 else 0

theorem insert_maps (h : Base vm managed role) (hr : role r = .root) (hpm : p ∈ managed) (hpf : role p ≠ .free)
    (hpn : (role p).isNode = false) (hla : la < USERTOP) (hperm : perm < 1024) :
    ∃ ret vm', (pageInsert r p la perm vm).result = .ok (ret, vm') ∧
      (ret = 0 ∧ InsertMaps vm vm' role r la p perm
          ((leaf vm.mem r (la / PGSIZE)).map fun lf => (lf.frame, lf.perm)) ∨
        ret = -E_NO_MEM ∧ InsertFails vm vm' role) := by
  have hv := page_lt hla
  have hne : ∀ q, role q = .root → q ≠ p := by
    rintro q hq rfl
    rw [hq] at hpn
    cases hpn
  have hroot : ∀ q, role q = .root → Function.update role p .frame q = .root := fun q hq => by
    rwa [Function.update_of_ne (hne q hq)]
  have hfree : ∀ g, role g ≠ .free → Function.update role p .frame g ≠ .free := by
    intro g hg
    grind [Function.update_apply]
  have hframe := h.reframe hpm hpf hpn
  have hwp : Prog.wp (fun _ => False) (pageInsert r p la perm) vm (fun ret vm' =>
      ret = 0 ∧ InsertMaps vm vm' role r la p perm
          ((leaf vm.mem r (la / PGSIZE)).map fun lf => (lf.frame, lf.perm)) ∨
        ret = -E_NO_MEM ∧ InsertFails vm vm' role) fun _ => False := by
    refine hframe.pageInsert (hroot r hr) hla (Function.update_self ..) hperm
      (fun vm' role' h' hkeep hleaf href => ?_) fun vm' role' _ h' hg => ?_
    · have hroot' : ∀ q, role q = .root → role' q = .root := fun q hq =>
        (hkeep q (by rw [hroot q hq]; simp)).trans (hroot q hq)
      refine Or.inl ⟨rfl, ?_, h.tables.sameLookups h' hroot' fun q u hq hu hno => ?_, fun g hg => ?_⟩
      · rw [h'.lookup (hroot' r hr) hla, hleaf r _ (hroot r hr) hv, if_pos ⟨rfl, rfl⟩]
        rfl
      · rw [hleaf q u (hroot q hq) hu, if_neg hno]
      · rw [href g (hfree g hg), refDelta, Option.map_map]
        exact (add_sub_assoc ..).symm
    · have hroot' : ∀ q, role q = .root → role' q = .root := fun q hq =>
        (hg.keep q (by rw [hroot q hq]; simp)).trans (hroot q hq)
      refine Or.inr ⟨rfl, h.tables.sameLookups h'.tables hroot' fun q u hq hu _ => ?_, fun g hgf => ?_⟩
      · exact hg.leaf q u (hroot q hq) hu
      · exact (hg.page g (hfree g hgf)).1
  rcases Prog.wp_total hwp with ⟨ret, vm', hrun, hpost⟩ | ⟨_, _, hfalse⟩
  · exact ⟨ret, vm', hrun, hpost⟩
  · exact absurd hfalse not_false

theorem remove_unmaps (h : Base vm managed role) (hr : role r = .root) (hla : la < USERTOP) :
    ∃ vm', (pageRemove r la vm).result = .ok ((), vm') ∧ RemoveUnmaps vm vm' role r la
      ((leaf vm.mem r (la / PGSIZE)).map fun lf => (lf.frame, lf.perm)) := by
  have hv := page_lt hla
  have hnothing : leaf vm.mem r (la / PGSIZE) = none → RemoveUnmaps vm vm role r la
      ((leaf vm.mem r (la / PGSIZE)).map fun lf => (lf.frame, lf.perm)) := by
    intro hleaf
    refine ⟨?_, h.tables.sameLookups h.tables (fun _ hq => hq) fun _ _ _ _ _ => rfl, fun g => ?_⟩
    · rw [h.tables.lookup hr hla, hleaf]
      rfl
    · rw [hleaf]
      simp
  have hwp : Prog.wp (fun _ => False) (pageRemove r la) vm (fun _ vm' => RemoveUnmaps vm vm' role r la
      ((leaf vm.mem r (la / PGSIZE)).map fun lf => (lf.frame, lf.perm))) fun _ => False := by
    rw [pageRemove, Prog.wp_bind]
    refine h.tables.getPte_find hr hla (fun d t hd ht => ?_) fun hnone => ?_
    · refine h.pageRemovePte hr hv hd ht hnothing fun lf area hleaf hnpages href => ?_
      have hset := setLeaf_putEntry (w := 0) vm.mem hd ht (Or.inl rfl)
      have htables : Tables { vm with area := area, mem := putEntry vm.mem t (pteIx (la / PGSIZE)) 0 } role :=
        ⟨hset.tree h.tree, fun hq => hnpages ▸ h.bound hq⟩
      refine ⟨?_, h.tables.sameLookups htables (fun _ hq => hq) fun q u hq hu hno => ?_, fun g => ?_⟩
      · rw [htables.lookup hr hla, hset.leaf_self h.tree hv, decode_zero]
        rfl
      · exact hset.leaf_other h.tree hq hu (by tauto)
      · rw [href, hleaf]
        simp
    · rw [Prog.wp_pure]
      refine hnothing ?_
      rw [leaf, hnone]
      rfl
  rcases Prog.wp_total hwp with ⟨_, vm', hrun, hpost⟩ | ⟨_, _, hfalse⟩
  · exact ⟨vm', hrun, hpost⟩
  · exact absurd hfalse not_false

-- The page tables are a map from pages to frames with permissions: page_insert updates it,
-- page_remove erases from it, and nothing else changes, whatever the references of the
-- frames are.
theorem page_table_map (h : Base vm managed role) (hr : role r = .root) (hpm : p ∈ managed) (hpf : role p ≠ .free)
    (hpn : (role p).isNode = false) (hla : la < USERTOP) (hperm : perm < 1024) :
    ∃ old, (lookup r la vm).result = .ok (old, vm) ∧
      (∃ ret vm', (pageInsert r p la perm vm).result = .ok (ret, vm') ∧
        (ret = 0 ∧ InsertMaps vm vm' role r la p perm old ∨ ret = -E_NO_MEM ∧ InsertFails vm vm' role)) ∧
      ∃ vm', (pageRemove r la vm).result = .ok ((), vm') ∧ RemoveUnmaps vm vm' role r la old :=
  ⟨_, h.tables.lookup hr hla, insert_maps h hr hpm hpf hpn hla hperm, remove_unmaps h hr hla⟩

-- A frame that is mapped once is mapped a second time.
theorem page_table_map_twice : ∃ vm', (pageInsert 0 2 (USERBASE + PGSIZE) PTE_U pageVm).result = .ok (0, vm') ∧
    (lookup 0 (USERBASE + PGSIZE) vm').result = .ok (some (2, PTE_U ||| PTE_V), vm') := by
  obtain ⟨role, hrep, hr⟩ := pageVm_rep
  have hleaf : leaf pageVm.mem 0 (USERBASE / PGSIZE) = some ⟨2, PTE_USER⟩ := by decide +kernel
  have hf := hrep.tree.leaf_frame hr (by decide) hleaf
  have hres : (pageInsert 0 2 (USERBASE + PGSIZE) PTE_U pageVm).result.toOption.map Prod.fst = some 0 := by
    decide +kernel
  obtain ⟨_, _, ⟨ret, vm', hrun, hcases⟩, _⟩ := page_table_map (p := 2) hrep.base hr (by decide)
    (by rw [hf]; simp) (by rw [hf]; rfl) (show USERBASE + PGSIZE < USERTOP by decide)
    (show PTE_U < 1024 by decide)
  rw [hrun] at hres
  obtain rfl : ret = 0 := Option.some.inj hres
  rcases hcases with ⟨_, hmaps⟩ | ⟨hno, _⟩
  · exact ⟨vm', hrun, hmaps.self⟩
  · exact absurd hno (by decide)

end Ucore.Mm
