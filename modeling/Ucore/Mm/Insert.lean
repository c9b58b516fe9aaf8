import Ucore.Mm.Walk

namespace Ucore.Mm

open Lib Pmm

variable {vm vm' : VM} {managed free : Finset Nat} {role role' : Nat → Role} {lk : Option Nat}
  {bad : Obs → Prop} {d f la p q r t u v w : Nat} {lf : Leaf} {l : List Nat} {mem mem' : Nat → Words}
  {area : FreeArea} {E : Halt → Prop}

theorem frameAt_root (hr : role r = .root) : frameAt mem role (r, v) = (leaf mem r v).map Leaf.frame :=
  if_pos hr

-- Two leaves do not map one frame when that has one reference.
theorem leaf_unique (hr : role r = .root) (hq : role q = .root) (hrm : r ∈ managed) (hqm : q ∈ managed)
    (hv : v < UPAGES) (hu : u < UPAGES) (hone : refs managed mem role f ≤ 1)
    (hleaf : (leaf mem r v).map Leaf.frame = some f) (hleaf' : (leaf mem q u).map Leaf.frame = some f) :
    r = q ∧ v = u := by
  have hx : (r, v) ∈ managed ×ˢ Finset.range UPAGES :=
    Finset.mem_product.mpr ⟨hrm, Finset.mem_range.mpr hv⟩
  have hy : (q, u) ∈ managed ×ˢ Finset.range UPAGES :=
    Finset.mem_product.mpr ⟨hqm, Finset.mem_range.mpr hu⟩
  have he := eq_of_count_le_one hone hx hy ((frameAt_root hr).trans hleaf) ((frameAt_root hq).trans hleaf')
  exact ⟨congrArg Prod.fst he, congrArg Prod.snd he⟩

theorem refs_pos (hr : role r = .root) (hrm : r ∈ managed) (hv : v < UPAGES)
    (hleaf : leaf mem r v = some lf) : 0 < refs managed mem role lf.frame := by
  refine count_pos.mpr ⟨(r, v), Finset.mem_product.mpr ⟨hrm, Finset.mem_range.mpr hv⟩, ?_⟩
  rw [frameAt_root hr, hleaf]
  rfl

theorem Tree.leaf_frame (h : Tree mem role) (hr : role r = .root) (hv : v < UPAGES)
    (hleaf : leaf mem r v = some lf) : role lf.frame = .frame := by
  obtain ⟨d, t, _, _, _, _, hf⟩ := (h.leaf_iff hr hv).mp hleaf
  exact hf

theorem Tree.leaf_valid (h : Tree mem role) (hr : role r = .root) (hv : v < UPAGES)
    (hleaf : leaf mem r v = some lf) : lf.Valid := by
  obtain ⟨d, t, _, _, _, hvalid, _⟩ := (h.leaf_iff hr hv).mp hleaf
  exact hvalid

-- A frame with one leaf
theorem refs_one (hr : role r = .root) (hrm : r ∈ managed) (hv : v < UPAGES)
    (hleaf : leaf mem r v = some lf) (honly : ∀ q u lf', role q = .root → u < UPAGES →
      leaf mem q u = some lf' → lf'.frame = lf.frame → q = r ∧ u = v) :
    refs managed mem role lf.frame = 1 := by
  have hpos := refs_pos hr hrm hv hleaf
  have hkey : ∀ x ∈ managed ×ˢ Finset.range UPAGES, frameAt mem role x = some lf.frame → x = (r, v) := by
    intro x hx hfr
    unfold frameAt at hfr
    split_ifs at hfr with hq
    obtain ⟨lf', hlf', he⟩ := Option.map_eq_some_iff.mp hfr
    obtain ⟨h₁, h₂⟩ := honly x.1 x.2 lf' hq (Finset.mem_range.mp (Finset.mem_product.mp hx).2) hlf' he
    exact Prod.ext h₁ h₂
  have hle : refs managed mem role lf.frame ≤ 1 :=
    count_le_one fun x hx y hy hfx hfy => (hkey x hx hfx).trans (hkey y hy hfy).symm
  omega

-- The references when the leaf of one page becomes `new`
theorem refs_update (hr : role r = .root) (hrm : r ∈ managed) (hv : v < UPAGES)
    (hroot : ∀ q, role' q = .root ↔ role q = .root) {new : Option Leaf} (hself : leaf mem' r v = new)
    (hother : ∀ q u, role q = .root → u < UPAGES → q ≠ r ∨ u ≠ v → leaf mem' q u = leaf mem q u) (f : Nat) :
    refs managed mem' role' f + (if (leaf mem r v).map Leaf.frame = some f then 1 else 0) =
      refs managed mem role f + (if new.map Leaf.frame = some f then 1 else 0) := by
  have hx : (r, v) ∈ managed ×ˢ Finset.range UPAGES :=
    Finset.mem_product.mpr ⟨hrm, Finset.mem_range.mpr hv⟩
  have hupdate : refs managed mem' role' f = count (managed ×ˢ Finset.range UPAGES)
      (Function.update (frameAt mem role) (r, v) (new.map Leaf.frame)) f := by
    refine count_congr fun x hx => ?_
    have hu := Finset.mem_range.mp (Finset.mem_product.mp hx).2
    rw [frameAt_congr hroot]
    by_cases he : x = (r, v)
    · rw [he, Function.update_self, frameAt_root hr, hself]
    · rw [Function.update_of_ne he]
      unfold frameAt
      split_ifs with hq
      · have hne : x.1 ≠ r ∨ x.2 ≠ v := by
          by_contra hno
          push Not at hno
          exact he (Prod.ext hno.1 hno.2)
        rw [hother x.1 x.2 hq hu hne]
      · rfl
  rw [hupdate]
  have hcount := count_update (f := frameAt mem role) (b := f) hx (new.map Leaf.frame)
  rw [frameAt_root hr] at hcount
  exact hcount

-- How often the pages `U` below the root `r` map the frame `f`
def mapped (mem : Nat → Words) (r : Nat) (U : Finset Nat) (f : Nat) : Nat :=
  count U (fun u => (leaf mem r u).map Leaf.frame) f

-- The references when the pages `U` below the root `r` get their leaves
theorem refs_gain {U : Finset Nat} (hr : role r = .root) (hrm : r ∈ managed) (hU : ∀ u ∈ U, u < UPAGES)
    (hroot : ∀ q, role' q = .root ↔ role q = .root)
    (hnone : ∀ u ∈ U, (leaf mem r u).map Leaf.frame ≠ some f)
    (hrest : ∀ q u, role q = .root → u < UPAGES → ¬(q = r ∧ u ∈ U) →
      (leaf mem' q u).map Leaf.frame = (leaf mem q u).map Leaf.frame) :
    refs managed mem' role' f = refs managed mem role f + mapped mem' r U f := by
  have hsub : {r} ×ˢ U ⊆ managed ×ˢ Finset.range UPAGES := by
    intro x hx
    obtain ⟨h₁, h₂⟩ := Finset.mem_product.mp hx
    rw [Finset.mem_singleton] at h₁
    exact Finset.mem_product.mpr ⟨h₁ ▸ hrm, Finset.mem_range.mpr (hU _ h₂)⟩
  have hslice : mapped mem' r U f = count ({r} ×ˢ U) (frameAt mem' role') f := by
    rw [count_slice]
    refine count_congr fun u _ => ?_
    rw [frameAt_congr hroot, frameAt_root hr]
  rw [hslice]
  refine count_add hsub (fun x hx => ?_) fun x hx hno => ?_
  · obtain ⟨h₁, h₂⟩ := Finset.mem_product.mp hx
    obtain rfl := Finset.mem_singleton.mp h₁
    rw [show x = (x.1, x.2) from rfl, frameAt_root hr]
    exact hnone _ h₂
  · rw [frameAt_congr hroot]
    unfold frameAt
    split_ifs with hq
    · have hu := Finset.mem_range.mp (Finset.mem_product.mp hx).2
      rw [hrest x.1 x.2 hq hu fun hin => hno (Finset.mem_product.mpr ⟨Finset.mem_singleton.mpr hin.1, hin.2⟩)]
    · exact Iff.rfl

namespace SetLeaf

-- The references when one leaf changes
theorem refs (a : SetLeaf mem mem' role r v d t w) (h : Tree mem role) (hr : r ∈ managed)
    (hv : v < UPAGES) (f : Nat) :
    refs managed mem' role f + (if (leaf mem r v).map Leaf.frame = some f then 1 else 0) =
      refs managed mem role f + (if (decode w).map Leaf.frame = some f then 1 else 0) :=
  refs_update (h.dirUp a.dir).1 hr hv (fun _ => Iff.rfl) (a.leaf_self h hv)
    (fun _ _ hq hu hne => a.leaf_other h hq hu hne) f

end SetLeaf

namespace Rep

-- The memory system with other tables and other uses of the frames
theorem relink (h : Rep vm managed role lk) (htree : Tree mem role') (hl : FreeList area managed free l)
    (hfree : ∀ p, role' p = .free ↔ p ∈ free)
    (hkeep : ∀ p ρ, ρ = .other ∨ ρ = .heap → (role' p = ρ ↔ role p = ρ))
    (hframe : ∀ g, role' g = .frame → (area.pages g).ref = refs managed mem role' g ∧
      0 < refs managed mem role' g ∧ (area.pages g).pageLock = decide (lk = some g)) :
    Rep { vm with area := area, mem := mem } managed role' lk :=
  ⟨htree, ⟨free, l, hl, hfree⟩, fun p => (hkeep p .other (by simp)).trans (h.other p),
    fun g hg => (hframe g hg).1, fun g hg => (hframe g hg).2.1, fun g hg => (hframe g hg).2.2,
    fun p => (hkeep p .heap (by simp)).trans (h.heap p)⟩

theorem root_managed (h : Rep vm managed role lk) (hr : role r = .root) : r ∈ managed :=
  h.mem_managed (by rw [hr]; simp)

-- The last leaf of a frame goes, and the frame with it.
theorem removeLast (h : Rep vm managed role lk) (a : SetLeaf vm.mem mem role r v d t 0) (hv : v < UPAGES)
    (hleaf : leaf vm.mem r v = some lf) (hone : refs managed vm.mem role lf.frame = 1)
    (hl : FreeList area managed free l)
    (hfree : ∀ p, p ∈ free ↔ role p = .free ∨ p = lf.frame) (hu : Unused vm.area area {lf.frame}) :
    Rep { vm with area := area, mem := mem } managed (Function.update role lf.frame .free) lk := by
  have hr := (h.tree.dirUp a.dir).1
  have hrefs := a.refs h.tree (h.root_managed hr) hv
  rw [hleaf, decode_zero] at hrefs
  have hf : role lf.frame = .frame := h.tree.leaf_frame hr hv hleaf
  have hroot : ∀ q, Function.update role lf.frame .free q = .root ↔ role q = .root := by
    grind [Function.update_apply]
  have hsame : ∀ g, refs managed mem (Function.update role lf.frame .free) g =
      refs managed mem role g := fun g => by
    rw [refs, frameAt_congr hroot]
    rfl
  refine h.relink ((a.tree h.tree).dropFrame hf ?_ fun q => Function.update_apply ..) hl ?_ ?_ ?_
  · intro q u lf' hq hu hlf' he
    have hpos := refs_pos hq (h.root_managed hq) hu hlf'
    have := hrefs lf.frame
    simp only [Option.map_some, Option.map_none, if_true, reduceCtorEq, if_false] at this
    rw [he] at hpos
    omega
  · intro p
    rw [hfree]
    grind [Function.update_apply]
  · grind [Function.update_apply]
  · intro g hg
    have hne : g ≠ lf.frame := by
      rintro rfl
      rw [Function.update_self] at hg
      cases hg
    rw [Function.update_of_ne hne] at hg
    have hnot : g ∉ ({lf.frame} : Finset Nat) := by simpa using hne
    have := hrefs g
    simp only [Option.map_some, Option.map_none, Option.some.injEq, hne.symm, reduceCtorEq, if_false,
      Nat.add_zero] at this
    rw [hsame, this, hu.ref g hnot, hu.lock g hnot]
    exact ⟨h.ref g hg, h.used g hg, h.lock g hg⟩

-- A leaf of a shared frame goes.
theorem removeShared (h : Rep vm managed role lk) (a : SetLeaf vm.mem mem role r v d t 0)
    (hv : v < UPAGES) (hleaf : leaf vm.mem r v = some lf) (hmany : 1 < refs managed vm.mem role lf.frame) :
    Rep { vm with
      area := vm.area.modify lf.frame fun p => { p with ref := p.ref - 1 }, mem := mem } managed role lk := by
  have hr := (h.tree.dirUp a.dir).1
  have hrefs := a.refs h.tree (h.root_managed hr) hv
  rw [hleaf, decode_zero] at hrefs
  have hf : role lf.frame = .frame := h.tree.leaf_frame hr hv hleaf
  obtain ⟨free, l, hl, hfree⟩ := h.list
  have hl' : FreeList (vm.area.modify lf.frame fun p => { p with
      ref := (vm.area.pages lf.frame).ref - 1, pageLock := (vm.area.pages lf.frame).pageLock })
      managed free l := by
    refine hl.use fun hin => ?_
    rw [← hfree, hf] at hin
    cases hin
  have hl'' : FreeList (vm.area.modify lf.frame fun p => { p with ref := p.ref - 1 }) managed free l := by
    simpa only [FreeArea.modify] using hl'
  refine h.relink (a.tree h.tree) hl'' hfree (fun _ _ _ => Iff.rfl) fun g hg => ?_
  · have := hrefs g
    simp only [Option.map_some, Option.map_none, Option.some.injEq, reduceCtorEq, if_false,
      Nat.add_zero] at this
    have href := h.ref g hg
    have hused := h.used g hg
    have hlock := h.lock g hg
    rw [FreeArea.modify_apply]
    split_ifs with he
    · subst he
      rw [if_pos rfl] at this
      refine ⟨?_, by omega, hlock⟩
      simp only
      omega
    · rw [if_neg (Ne.symm he)] at this
      exact ⟨by omega, by omega, hlock⟩

-- A held page becomes a frame with one leaf.
theorem insertHeld (h : Rep vm managed role lk)
    (a : SetLeaf vm.mem mem (Function.update role lf.frame .frame) r v d t lf.pte) (hv : v < UPAGES)
    (hvalid : lf.Valid) (hp : role lf.frame = .held) (hleaf : leaf vm.mem r v = none)
    (href : (vm.area.pages lf.frame).ref = 1) (hlock : (vm.area.pages lf.frame).pageLock = false)
    (hlk : lk ≠ some lf.frame) :
    Rep { vm with mem := mem } managed (Function.update role lf.frame .frame) lk := by
  have htree := h.tree.addFrame hp fun q => Function.update_apply ..
  have hroot : ∀ q, Function.update role lf.frame .frame q = .root ↔ role q = .root := by
    grind [Function.update_apply]
  have hr : role r = .root := (hroot r).mp (htree.dirUp a.dir).1
  have hrefs := a.refs htree (h.root_managed hr) hv
  rw [hleaf, decode_pte hvalid (htree.bound (by rw [Function.update_self]; simp))] at hrefs
  have hsame : ∀ g, refs managed vm.mem (Function.update role lf.frame .frame) g =
      refs managed vm.mem role g := fun g => by
    rw [refs, frameAt_congr hroot]
    rfl
  have hzero : refs managed vm.mem role lf.frame = 0 := by
    refine count_eq_zero.mpr fun x hx hfr => ?_
    unfold frameAt at hfr
    split_ifs at hfr with hq
    · obtain ⟨lf', hlf', he⟩ := Option.map_eq_some_iff.mp hfr
      obtain ⟨_, _, _, _, _, _, hf⟩ :=
        (h.tree.leaf_iff hq (Finset.mem_range.mp (Finset.mem_product.mp hx).2)).mp hlf'
      rw [he, hp] at hf
      cases hf
  obtain ⟨free, l, hl, hfree⟩ := h.list
  refine h.relink (a.tree htree) hl ?_ ?_ fun g hg => ?_
  · intro p
    rw [← hfree]
    grind [Function.update_apply]
  · grind [Function.update_apply]
  · have := hrefs g
    rw [hsame] at this
    simp only [Option.map_some, Option.map_none, Option.some.injEq, reduceCtorEq, if_false,
      Nat.add_zero] at this
    by_cases he : g = lf.frame
    · subst he
      rw [if_pos rfl, hzero] at this
      rw [this, href, hlock]
      exact ⟨rfl, Nat.one_pos, by simp [hlk]⟩
    · rw [Function.update_of_ne he] at hg
      rw [if_neg (Ne.symm he)] at this
      rw [this]
      exact ⟨h.ref g hg, h.used g hg, h.lock g hg⟩

-- A frame gets one more leaf.
theorem insertFrame (h : Rep vm managed role lk) (a : SetLeaf vm.mem mem role r v d t lf.pte)
    (hv : v < UPAGES) (hvalid : lf.Valid) (hf : role lf.frame = .frame) (hleaf : leaf vm.mem r v = none) :
    Rep { vm with
      area := vm.area.modify lf.frame fun p => { p with ref := p.ref + 1 }, mem := mem } managed role lk := by
  have hr := (h.tree.dirUp a.dir).1
  have hrefs := a.refs h.tree (h.root_managed hr) hv
  rw [hleaf, decode_pte hvalid (h.tree.bound (by rw [hf]; simp))] at hrefs
  obtain ⟨free, l, hl, hfree⟩ := h.list
  have hl' : FreeList (vm.area.modify lf.frame fun p => { p with
      ref := (vm.area.pages lf.frame).ref + 1, pageLock := (vm.area.pages lf.frame).pageLock })
      managed free l := by
    refine hl.use fun hin => ?_
    rw [← hfree, hf] at hin
    cases hin
  have hl'' : FreeList (vm.area.modify lf.frame fun p => { p with ref := p.ref + 1 }) managed free l := by
    simpa only [FreeArea.modify] using hl'
  refine h.relink (a.tree h.tree) hl'' hfree (fun _ _ _ => Iff.rfl) fun g hg => ?_
  · have := hrefs g
    simp only [Option.map_some, Option.map_none, Option.some.injEq, reduceCtorEq, if_false,
      Nat.add_zero] at this
    have href := h.ref g hg
    have hused := h.used g hg
    have hlock := h.lock g hg
    rw [FreeArea.modify_apply]
    split_ifs with he
    · subst he
      rw [if_pos rfl] at this
      refine ⟨?_, by omega, hlock⟩
      simp only
      omega
    · rw [if_neg (Ne.symm he)] at this
      exact ⟨by omega, by omega, hlock⟩

-- A leaf gets other permissions.
theorem recolor (h : Rep vm managed role lk) (a : SetLeaf vm.mem mem role r v d t lf.pte) (hv : v < UPAGES)
    (hvalid : lf.Valid) (hf : role lf.frame = .frame)
    (hleaf : (leaf vm.mem r v).map Leaf.frame = some lf.frame) :
    Rep { vm with mem := mem } managed role lk := by
  have hr := (h.tree.dirUp a.dir).1
  have hrefs := a.refs h.tree (h.root_managed hr) hv
  rw [hleaf, decode_pte hvalid (h.tree.bound (by rw [hf]; simp))] at hrefs
  obtain ⟨free, l, hl, hfree⟩ := h.list
  refine h.relink (a.tree h.tree) hl hfree (fun _ _ _ => Iff.rfl) fun g hg => ?_
  have := hrefs g
  simp only [Option.map_some] at this
  have he : refs managed mem role g = refs managed vm.mem role g := by omega
  rw [he]
  exact ⟨h.ref g hg, h.used g hg, h.lock g hg⟩

end Rep

-- A page that is no frame has no leaf.
theorem Rep.refs_zero (h : Rep vm managed role lk) (hf : role f ≠ .frame) :
    refs managed vm.mem role f = 0 := by
  refine count_eq_zero.mpr fun x hx hfr => hf ?_
  unfold frameAt at hfr
  split_ifs at hfr with hq
  obtain ⟨lf, hlf, he⟩ := Option.map_eq_some_iff.mp hfr
  rw [← he]
  exact h.tree.leaf_frame hq (Finset.mem_range.mp (Finset.mem_product.mp hx).2) hlf

-- The memory with `w` in entry `k` of the table `t`
def putEntry (mem : Nat → Words) (t k w : Nat) : Nat → Words :=
  Function.update mem t (Function.update (mem t) k w)

theorem setLeaf_putEntry (mem : Nat → Words) (hd : role d = .dir r (dirIx v)) (ht : role t = .table d (tabIx v))
    (hw : w = 0 ∨ ∃ lf : Leaf, w = lf.pte ∧ lf.Valid ∧ role lf.frame = .frame) :
    SetLeaf mem (putEntry mem t (pteIx v) w) role r v d t w := by
  refine ⟨hd, ht, hw, fun k => ?_, fun q hq => Function.update_of_ne hq ..⟩
  rw [putEntry, Function.update_self, Function.update_apply]

theorem putEntry_of_ne (h : p ≠ t) : putEntry mem t q w p = mem p := Function.update_of_ne h ..

-- What is read in the entry for a leaf
theorem Tables.entry (h : Tables vm role) (hr : role r = .root) (hv : v < UPAGES)
    (hd : role d = .dir r (dirIx v)) (ht : role t = .table d (tabIx v)) :
    vm.mem t (pteIx v) = 0 ∧ leaf vm.mem r v = none ∨ ∃ lf : Leaf, vm.mem t (pteIx v) = lf.pte ∧
      leaf vm.mem r v = some lf ∧ lf.Valid ∧ role lf.frame = .frame := by
  have htab := (h.tree.tabAt_iff hr hv).mpr ⟨d, hd, ht⟩
  rcases h.tree.tableEntry ht (pteIx_lt (v := v)) with h0 | ⟨lf, he, hvalid, hf⟩
  · left
    refine ⟨h0, ?_⟩
    rw [leaf, htab, Option.bind_some, h0, decode_zero]
  · right
    refine ⟨lf, he, ?_, hvalid, hf⟩
    rw [leaf, htab, Option.bind_some, he, decode_pte hvalid (h.tree.bound (by rw [hf]; simp))]

theorem Rep.entry (h : Rep vm managed role lk) (hr : role r = .root) (hv : v < UPAGES)
    (hd : role d = .dir r (dirIx v)) (ht : role t = .table d (tabIx v)) :
    vm.mem t (pteIx v) = 0 ∧ leaf vm.mem r v = none ∨ ∃ lf : Leaf, vm.mem t (pteIx v) = lf.pte ∧
      leaf vm.mem r v = some lf ∧ lf.Valid ∧ role lf.frame = .frame :=
  h.base.tables.entry hr hv hd ht

theorem Leaf.pte_valid (h : lf.Valid) : lf.pte &&& PTE_V ≠ 0 := by
  rw [Leaf.pte_and h.1 (by decide)]
  exact h.2

section Remove

variable {Q : Unit → VM → Prop}

-- page_remove_pte; it notes a block behind the last member of the free list when the frame
-- given back does not fit.
theorem wpl_pageRemovePte (h : Rep vm managed role lk) (hr : role r = .root)
    (hv : v < UPAGES) (hd : role d = .dir r (dirIx v)) (ht : role t = .table d (tabIx v))
    (hbad : ∀ lf, leaf vm.mem r v = some lf → refs managed vm.mem role lf.frame = 1 →
      ¬Fits (fun q => role q = .free) lf.frame → bad .tail)
    (hnone : leaf vm.mem r v = none → Q () vm)
    (hlast : ∀ lf area, leaf vm.mem r v = some lf → refs managed vm.mem role lf.frame = 1 →
      Fits (fun q => role q = .free) lf.frame → Unused vm.area area {lf.frame} →
      Rep { vm with area := area, mem := putEntry vm.mem t (pteIx v) 0 } managed
        (Function.update role lf.frame .free) lk →
      Q () { vm with area := area, mem := putEntry vm.mem t (pteIx v) 0 })
    (hshared : ∀ lf, leaf vm.mem r v = some lf → 1 < refs managed vm.mem role lf.frame →
      Rep { vm with
        area := vm.area.modify lf.frame fun p => { p with ref := p.ref - 1 }
        mem := putEntry vm.mem t (pteIx v) 0 } managed role lk →
      Q () { vm with
        area := vm.area.modify lf.frame fun p => { p with ref := p.ref - 1 }
        mem := putEntry vm.mem t (pteIx v) 0 }) :
    Prog.wpl bad (fun o => o ≠ .tail) (pageRemovePte r la (t, pteIx v)) vm Q E := by
  have ha := setLeaf_putEntry (w := 0) vm.mem hd ht (Or.inl rfl)
  have hwrite : Prog.Notes (fun o => o ≠ .tail) (do
      setPte r la (t, pteIx v) 0
      tlbInvalidate la) :=
    (setPte_notes fun _ _ _ => by simp).bind fun _ => tlbInvalidate_notes fun _ => by simp
  have hdone : ∀ {vm' : VM}, Q () { vm' with mem := putEntry vm'.mem t (pteIx v) 0 } →
      Prog.wpl bad (fun o => o ≠ .tail) (do
        setPte r la (t, pteIx v) 0
        tlbInvalidate la) vm' Q E := by
    intro vm' hq
    refine Prog.wpl_of_wp hwrite (Prog.wp_bind.mpr (wp_setPte (wp_tlbInvalidate ?_)))
    exact hq
  refine Prog.wpl_bind (Prog.wpl_of_wp readWord_notes (wp_readWord.mpr ?_))
  rcases h.entry hr hv hd ht with ⟨h0, hleaf⟩ | ⟨lf, he, hleaf, hvalid, hf⟩
  · simp only
    rw [h0, Nat.zero_and, if_neg (by simp)]
    exact Prog.wpl_pure (hnone hleaf)
  · have hb := h.bound (p := lf.frame) (by rw [hf]; simp)
    have href := h.ref lf.frame hf
    have hused := h.used lf.frame hf
    simp only
    rw [he, if_pos (Leaf.pte_valid hvalid)]
    refine Prog.wpl_bind (Prog.wpl_of_wp pte2page_notes ((wp_pte2page hvalid hb).mpr ?_))
    refine Prog.wpl_bind (Prog.wpl_of_wp callPmm_notes ((wp_storePage hb).mpr ?_))
    refine Prog.wpl_bind (Prog.wpl_of_wp pageRef_notes ((wp_pageRef (by exact hb)).mpr ?_))
    rw [FreeArea.modify_self]
    by_cases hzero : (vm.area.pages lf.frame).ref - 1 = 0
    · have hone : refs managed vm.mem role lf.frame = 1 := by omega
      obtain ⟨free, l, hl, hfree⟩ := h.list
      have hin : lf.frame ∉ free := by
        rw [← hfree, hf]
        simp
      have hl' : FreeList (vm.area.modify lf.frame fun p => { p with
          ref := (vm.area.pages lf.frame).ref - 1, pageLock := (vm.area.pages lf.frame).pageLock })
          managed free l := hl.use hin
      have hIco : Finset.Ico lf.frame (lf.frame + 1) = {lf.frame} := by
        ext q
        rw [Finset.mem_Ico, Finset.mem_singleton]
        omega
      have hfits : InOrder l lf.frame ↔ Fits (fun q => role q = .free) lf.frame :=
        (inOrder_iff hl hin).trans (Fits.congr fun q => (hfree q).symm)
      simp only
      rw [if_pos hzero]
      refine Prog.wpl_bind (wpl_freePages hl' Nat.one_pos ?_ ?_ (fun hno => ?_) fun area l' horder hl'' hu => ?_)
      · rw [hIco]
        exact Finset.singleton_subset_iff.mpr (h.mem_managed (by rw [hf]; simp))
      · rw [hIco]
        exact Finset.disjoint_singleton_right.mpr hin
      · exact hbad lf hleaf hone fun hfit => hno (hfits.mpr hfit)
      · rw [hIco] at hl'' hu
        have hu' : Unused vm.area area {lf.frame} := by
          refine ⟨hu.npages, fun q hq => ?_, fun q hq => ?_⟩
          · rw [hu.ref q hq, FreeArea.modify_of_ne (by simpa using hq)]
          · rw [hu.lock q hq, FreeArea.modify_of_ne (by simpa using hq)]
        apply hdone
        refine hlast lf area hleaf hone (hfits.mp horder) hu' (h.removeLast ha hv hleaf hone hl'' (fun p => ?_) hu')
        rw [Finset.mem_union, Finset.mem_singleton, hfree]
    · have hmany : 1 < refs managed vm.mem role lf.frame := by omega
      simp only
      rw [if_neg hzero]
      apply hdone
      exact hshared lf hleaf hmany (h.removeShared ha hv hleaf hmany)

theorem wp_pageRemovePte (h : Rep vm managed role lk) (hr : role r = .root)
    (hv : v < UPAGES) (hd : role d = .dir r (dirIx v)) (ht : role t = .table d (tabIx v))
    (hbad : ∀ lf, leaf vm.mem r v = some lf → refs managed vm.mem role lf.frame = 1 → bad .tail)
    (hnone : leaf vm.mem r v = none → Q () vm)
    (hlast : ∀ lf area, leaf vm.mem r v = some lf → refs managed vm.mem role lf.frame = 1 →
      Unused vm.area area {lf.frame} →
      Rep { vm with area := area, mem := putEntry vm.mem t (pteIx v) 0 } managed
        (Function.update role lf.frame .free) lk →
      Q () { vm with area := area, mem := putEntry vm.mem t (pteIx v) 0 })
    (hshared : ∀ lf, leaf vm.mem r v = some lf → 1 < refs managed vm.mem role lf.frame →
      Rep { vm with
        area := vm.area.modify lf.frame fun p => { p with ref := p.ref - 1 }
        mem := putEntry vm.mem t (pteIx v) 0 } managed role lk →
      Q () { vm with
        area := vm.area.modify lf.frame fun p => { p with ref := p.ref - 1 }
        mem := putEntry vm.mem t (pteIx v) 0 }) :
    Prog.wp bad (pageRemovePte r la (t, pteIx v)) vm Q E :=
  (wpl_pageRemovePte h hr hv hd ht (fun lf hlf hone _ => hbad lf hlf hone) hnone
    (fun lf area hlf hone _ => hlast lf area hlf hone) hshared).1

end Remove

theorem Leaf.valid_or {perm : Nat} (hp : perm < 1024) : (Leaf.mk p (perm ||| PTE_V)).Valid := by
  refine ⟨Nat.or_lt_two_pow (n := 10) hp (by decide), ?_⟩
  show (perm ||| PTE_V) &&& PTE_V ≠ 0
  rw [Nat.and_or_distrib_right, Nat.and_self]
  exact fun h => absurd (Nat.or_eq_zero_iff.mp h).2 (by decide)

theorem pteCreate_insert {perm : Nat} (hp : perm < 1024) :
    pteCreate (page2ppn p) (PTE_V ||| perm) = (Leaf.mk p (perm ||| PTE_V)).pte := by
  have hv : PTE_V ||| perm < 1024 := Nat.or_lt_two_pow (n := 10) (by decide) hp
  rw [pteCreate_eq hv, Nat.or_comm PTE_V perm, Nat.or_assoc, Nat.or_self]

-- What page_insert of the page `p` for page `v` below `r` has done, and pgdir_alloc_page
structure Inserted (vm vm' : VM) (role role' : Nat → Role) (r v p perm : Nat) : Prop where
  keep : ∀ q, role q ≠ .free → q ≠ p → role' q = role q
  page : role' p = .frame
  new : ∀ q, role q = .free → q ≠ p → role' q = .free ∨ role' q = .dir r (dirIx v) ∨
    ∃ d, role' d = .dir r (dirIx v) ∧ role' q = .table d (tabIx v)
  table : ∃ d t, role' d = .dir r (dirIx v) ∧ role' t = .table d (tabIx v)
  mem : ∀ q, (role' q).isNode = false → vm'.mem q = vm.mem q
  leaf : ∀ q u, role q = .root → u < UPAGES →
    leaf vm'.mem q u = if q = r ∧ u = v then some ⟨p, perm ||| PTE_V⟩ else leaf vm.mem q u
  npages : vm'.area.npages = vm.area.npages
  heap : vm'.heap = vm.heap
  room : vm'.room = vm.room

theorem Inserted.plain {perm : Nat} (h : Inserted vm vm' role role' r v p perm) (hq : role q ≠ .free ∨ q = p)
    (hnode : (role q).isNode = false) : vm'.mem q = vm.mem q := by
  refine h.mem q ?_
  by_cases hqp : q = p
  · rw [hqp, h.page]
    rfl
  · rw [h.keep q (hq.resolve_right hqp) hqp, hnode]

-- The entry is written behind get_pte.
theorem Grow.inserted {vm₁ : VM} {role₁ : Nat → Role} {area : FreeArea} {perm : Nat}
    (hg : Grow vm vm₁ role role₁ r)
    (ha : Added role role₁ r v True) (hp : role p = .held ∨ role p = .frame) (hperm : perm < 1024)
    (a : SetLeaf vm₁.mem mem (Function.update role₁ p .frame) r v d t (Leaf.mk p (perm ||| PTE_V)).pte)
    (htree : Tree vm₁.mem (Function.update role₁ p .frame)) (hv : v < UPAGES)
    (harea : area.npages = vm₁.area.npages) :
    Inserted vm { vm₁ with area := area, mem := mem } role (Function.update role₁ p .frame) r v p perm := by
  have hp₁ : role₁ p = role p := hg.keep p (by rcases hp with hp | hp <;> rw [hp] <;> simp)
  have hd := a.dir
  have ht := a.table
  refine ⟨?_, Function.update_self .., ?_, ⟨d, t, hd, ht⟩, ?_, ?_, harea.trans hg.npages, hg.heap, hg.room⟩
  · intro q hq hne
    rw [Function.update_of_ne hne]
    exact hg.keep q hq
  · intro q hq _
    have := ha q hq
    grind [Function.update_apply]
  · intro q hnode
    have hne : q ≠ t := by
      rintro rfl
      rw [ht] at hnode
      cases hnode
    refine (a.rest q hne).trans (hg.mem q ?_)
    by_cases hqp : q = p
    · rw [hqp, hp₁]
      rcases hp with hp | hp <;> rw [hp] <;> rfl
    · rwa [Function.update_of_ne hqp] at hnode
  · intro q u hq hu
    have hq₁ : role₁ q = .root := (hg.keep q (by rw [hq]; simp)).trans hq
    have hq₂ : Function.update role₁ p .frame q = .root := by grind [Function.update_apply]
    by_cases he : q = r ∧ u = v
    · obtain ⟨rfl, rfl⟩ := he
      rw [if_pos ⟨rfl, rfl⟩]
      exact (a.leaf_self htree hv).trans
        (decode_pte (Leaf.valid_or hperm) (htree.bound (by rw [Function.update_self]; simp)))
    · rw [if_neg he]
      exact (a.leaf_other htree hq₂ hu (by tauto)).trans (hg.leaf q u hq hu)

theorem putEntry_putEntry : putEntry (putEntry mem t q u) t q w = putEntry mem t q w := by
  unfold putEntry
  rw [Function.update_idem, Function.update_self, Function.update_idem]

theorem Grow.refs (hg : Grow vm vm' role role' r) (h : Rep vm managed role lk)
    (h' : Rep vm' managed role' lk) (hf : role f = .frame) :
    refs managed vm'.mem role' f = refs managed vm.mem role f := by
  have hne : role f ≠ .free := by
    rw [hf]
    simp
  have href := h.ref f hf
  have href' := h'.ref f ((hg.keep f hne).trans hf)
  have hpage := (hg.page f hne).1
  omega

section Insert

variable {Q : Int → VM → Prop} {perm : Nat}

-- page_insert of a page just allocated; what it replaces is shared.
theorem wp_pageInsert_held (h : Rep vm managed role lk) (hr : role r = .root)
    (hla : la < USERTOP) (hp : role p = .held) (href : (vm.area.pages p).ref = 0)
    (hlock : (vm.area.pages p).pageLock = false) (hlk : lk ≠ some p) (hperm : perm < 1024)
    (hold : ∀ lf, leaf vm.mem r (la / PGSIZE) = some lf → 1 < refs managed vm.mem role lf.frame)
    (hok : ∀ vm' role', Rep vm' managed role' lk →
      Inserted vm vm' role role' r (la / PGSIZE) p perm → Q 0 vm')
    (hfail : ∀ vm' role', ¬bad .noMem → NoTable role r (la / PGSIZE) → Rep vm' managed role' lk →
      Grow vm vm' role role' r → Added role role' r (la / PGSIZE) False → (∀ q, role' q ≠ .free) →
      Q (-E_NO_MEM) vm') :
    Prog.wp bad (pageInsert r p la perm) vm Q E := by
  have hv := page_lt hla
  rw [pageInsert, Prog.wp_bind]
  refine wp_getPte h hr hla (fun vm₁ role₁ d t hrep₁ hg ha hd ht => ?_) fun vm₁ role₁ hno hnt hrep hg ha hall => ?_
  · generalize la / PGSIZE = v at *
    have hr₁ : role₁ r = .root := (hg.keep r (by rw [hr]; simp)).trans hr
    have hp₁ : role₁ p = .held := (hg.keep p (by rw [hp]; simp)).trans hp
    have hb := hrep₁.bound (p := p) (by rw [hp₁]; simp)
    have hpage := hg.page p (by rw [hp]; simp)
    have hrep₂ := hrep₁.store (p := p) (g := fun q => { q with ref := q.ref + 1 }) (by rw [hp₁]; simp)
      (by rw [hp₁]; simp) ⟨_, _, rfl⟩
    simp only [Prog.wp_bind, pageRefInc]
    rw [wp_storePage hb]
    simp only [wp_readWord]
    generalize harea₂ : (vm₁.area.modify p fun q => { q with ref := q.ref + 1 }) = area₂ at *
    have hnpages₂ : area₂.npages = vm₁.area.npages := by rw [← harea₂, FreeArea.modify_npages]
    have href₂ : (area₂.pages p).ref = 1 := by
      rw [← harea₂]
      simp only [FreeArea.modify_self]
      omega
    have hlock₂ : (area₂.pages p).pageLock = false := by
      rw [← harea₂]
      simp only [FreeArea.modify_self]
      rw [hpage.2, hlock]
    have hnext : ∀ area mem, putEntry mem t (pteIx v) (pteCreate (page2ppn p) (PTE_V ||| perm)) =
        putEntry vm₁.mem t (pteIx v) (pteCreate (page2ppn p) (PTE_V ||| perm)) →
        area.npages = vm₁.area.npages → (area.pages p).ref = 1 → (area.pages p).pageLock = false →
        leaf mem r v = none → Rep { vm₁ with area := area, mem := mem } managed role₁ lk →
        Prog.wp bad (do
          setPte r la (t, pteIx v) (pteCreate (page2ppn p) (PTE_V ||| perm))
          tlbInvalidate la
          pure 0) { vm₁ with area := area, mem := mem } Q E := by
      intro area mem hmem harea href hlock hleaf hrep
      have htree := hrep.tree.addFrame hp₁ fun q => Function.update_apply ..
      have hd' : Function.update role₁ p .frame d = .dir r (dirIx v) := by grind [Function.update_apply]
      have ht' : Function.update role₁ p .frame t = .table d (tabIx v) := by
        grind [Function.update_apply]
      have hpte : pteCreate (page2ppn p) (PTE_V ||| perm) = (Leaf.mk p (perm ||| PTE_V)).pte :=
        pteCreate_insert hperm
      have hvalid := Leaf.valid_or (p := p) hperm
      have hw : (Leaf.mk p (perm ||| PTE_V)).pte = 0 ∨ ∃ lf : Leaf, (Leaf.mk p (perm ||| PTE_V)).pte =
          lf.pte ∧ lf.Valid ∧ Function.update role₁ p .frame lf.frame = .frame :=
        Or.inr ⟨_, rfl, hvalid, Function.update_self ..⟩
      rw [Prog.wp_bind]
      refine wp_setPte ?_
      rw [Prog.wp_bind]
      refine wp_tlbInvalidate ?_
      rw [Prog.wp_pure]
      have hq := hok _ _ (hrep.insertHeld (setLeaf_putEntry _ hd' ht' hw) hv hvalid hp₁ hleaf href hlock hlk)
      rw [hpte] at hmem ⊢
      refine hq ?_
      rw [hmem]
      have htree₁ := hrep₁.tree.addFrame hp₁ fun q => Function.update_apply ..
      exact hg.inserted ha (Or.inl hp) hperm (setLeaf_putEntry _ hd' ht' hw) htree₁ hv harea
    rcases hrep₂.entry hr₁ hv hd ht with ⟨h0, hleaf⟩ | ⟨lf, he, hleaf, hvalid, hf⟩
    · simp only at h0
      rw [h0, Nat.zero_and, if_neg (by simp)]
      exact hnext area₂ vm₁.mem rfl hnpages₂ href₂ hlock₂ hleaf hrep₂
    · simp only at he
      have hne : lf.frame ≠ p := by
        intro hlf
        rw [hlf, hp₁] at hf
        cases hf
      have hb₂ := hrep₂.bound (p := lf.frame) (by rw [hf]; simp)
      rw [he, if_pos (Leaf.pte_valid hvalid), Prog.wp_bind, wp_pte2page hvalid hb₂, if_neg hne,
        Prog.wp_bind]
      have hf₀ : role lf.frame = .frame := by
        rcases ha lf.frame with hnew
        have := hg.keep lf.frame
        grind
      have hshared := hold lf ((hg.leaf r v hr hv).symm.trans hleaf)
      rw [← hg.refs h hrep₁ hf₀] at hshared
      have hmany : ∀ lf', leaf vm₁.mem r v = some lf' → refs managed vm₁.mem role₁ lf'.frame ≠ 1 := by
        intro lf' hlf' hone
        rw [hleaf] at hlf'
        cases hlf'
        omega
      refine wp_pageRemovePte hrep₂ hr₁ hv hd ht (fun lf' hlf' hone => absurd hone (hmany lf' hlf'))
        (fun hno => ?_) (fun lf' _ hlf' hone _ _ => absurd hone (hmany lf' hlf')) fun lf' hlf' _ hrep₃ => ?_
      · rw [hleaf] at hno
        cases hno
      · rw [hleaf] at hlf'
        cases hlf'
        refine hnext _ _ putEntry_putEntry ?_ ?_ ?_ ?_ hrep₃
        · rw [FreeArea.modify_npages, hnpages₂]
        · rw [FreeArea.modify_of_ne hne.symm, href₂]
        · rw [FreeArea.modify_of_ne hne.symm, hlock₂]
        · exact (setLeaf_putEntry _ hd ht (Or.inl rfl)).leaf_self hrep₁.tree hv
  · rw [Prog.wp_pure]
    exact hfail vm₁ role₁ hno hnt hrep hg ha hall

-- page_insert of a frame that is mapped already, for a page without a leaf.
theorem wp_pageInsert_frame (h : Rep vm managed role lk) (hr : role r = .root) (hla : la < USERTOP)
    (hp : role p = .frame) (hperm : perm < 1024) (hold : leaf vm.mem r (la / PGSIZE) = none)
    (hok : ∀ vm' role', Rep vm' managed role' lk →
      Inserted vm vm' role role' r (la / PGSIZE) p perm → Q 0 vm')
    (hfail : ∀ vm' role', ¬bad .noMem → NoTable role r (la / PGSIZE) → Rep vm' managed role' lk →
      Grow vm vm' role role' r → Added role role' r (la / PGSIZE) False → (∀ q, role' q ≠ .free) →
      Q (-E_NO_MEM) vm') :
    Prog.wp bad (pageInsert r p la perm) vm Q E := by
  have hv := page_lt hla
  rw [pageInsert, Prog.wp_bind]
  refine wp_getPte h hr hla (fun vm₁ role₁ d t hrep₁ hg ha hd ht => ?_) fun vm₁ role₁ hno hnt hrep hg ha hall => ?_
  · generalize la / PGSIZE = v at *
    have hr₁ : role₁ r = .root := (hg.keep r (by rw [hr]; simp)).trans hr
    have hp₁ : role₁ p = .frame := (hg.keep p (by rw [hp]; simp)).trans hp
    have hb := hrep₁.bound (p := p) (by rw [hp₁]; simp)
    have hleaf : leaf vm₁.mem r v = none := (hg.leaf r v hr hv).trans hold
    have hvalid := Leaf.valid_or (p := p) hperm
    have hw : (Leaf.mk p (perm ||| PTE_V)).pte = 0 ∨ ∃ lf : Leaf, (Leaf.mk p (perm ||| PTE_V)).pte =
        lf.pte ∧ lf.Valid ∧ role₁ lf.frame = .frame := Or.inr ⟨_, rfl, hvalid, hp₁⟩
    have h0 : vm₁.mem t (pteIx v) = 0 := by
      rcases hrep₁.entry hr₁ hv hd ht with ⟨h0, _⟩ | ⟨lf, _, hlf, _⟩
      · exact h0
      · rw [hleaf] at hlf
        cases hlf
    have hsame : Function.update role₁ p .frame = role₁ := by
      rw [← hp₁, Function.update_eq_self]
    have ha' := setLeaf_putEntry vm₁.mem hd ht hw
    simp only [Prog.wp_bind, pageRefInc]
    rw [wp_storePage hb]
    simp only [wp_readWord]
    rw [h0, Nat.zero_and, if_neg (by simp), Prog.wp_bind, pteCreate_insert hperm]
    refine wp_setPte ?_
    rw [Prog.wp_bind]
    refine wp_tlbInvalidate ?_
    rw [Prog.wp_pure]
    refine hok _ role₁ (hrep₁.insertFrame ha' hv hvalid hp₁ hleaf) ?_
    rw [← hsame] at ha'
    have htree := hrep₁.tree
    rw [← hsame] at htree
    have hcount : (vm₁.area.modify p fun q => { q with ref := q.ref + 1 }).npages = vm₁.area.npages :=
      FreeArea.modify_npages
    have hins := hg.inserted ha (Or.inr hp) hperm ha' htree hv hcount
    rw [hsame] at hins
    exact hins
  · rw [Prog.wp_pure]
    exact hfail vm₁ role₁ hno hnt hrep hg ha hall

end Insert

section AllocPage

variable {Q : Option Nat → VM → Prop} {perm : Nat}

-- pgdir_alloc_page, for a page without a leaf
theorem wp_pgdirAllocPage (h : Rep vm managed role lk) (hr : role r = .root)
    (hla : la < USERTOP) (hperm : perm < 1024) (hold : leaf vm.mem r (la / PGSIZE) = none)
    (hlk : ∀ f, lk = some f → role f = .frame)
    (hsome : ∀ vm' role' p, role p = .free → Rep vm' managed role' lk →
      Inserted vm vm' role role' r (la / PGSIZE) p perm → Q (some p) vm')
    (hnone : ∀ vm' role', ¬bad .noMem → Rep vm' managed role' lk → Grow vm vm' role role' r →
      Added role role' r (la / PGSIZE) False → Q none vm') :
    Prog.wp bad (pgdirAllocPage r la perm) vm Q E := by
  rw [pgdirAllocPage, Prog.wp_bind]
  refine h.allocPage (fun p area hp href hlock hu hrep => ?_) fun hno hall => ?_
  · have hheld : Function.update role p .held p = .held := Function.update_self ..
    have hrp : r ≠ p := by
      rintro rfl
      rw [hr] at hp
      cases hp
    have hr₁ : Function.update role p .held r = .root := by rwa [Function.update_of_ne hrp]
    have hlkp : lk ≠ some p := by
      intro hlp
      have := hlk p hlp
      rw [hp] at this
      cases this
    rw [Prog.wp_bind]
    refine wp_pageInsert_held hrep hr₁ hla hheld href hlock hlkp hperm (fun lf hlf => ?_)
      (fun vm' role' hrep' hi => ?_) fun vm' role' hno _ hrep' hg ha hall => ?_
    · rw [hold] at hlf
      cases hlf
    · have hins : Inserted vm vm' role role' r (la / PGSIZE) p perm := by
        refine ⟨?_, hi.page, ?_, hi.table, ?_, ?_, hi.npages.trans hu.npages, hi.heap, hi.room⟩
        · intro q hq hqp
          have := hi.keep q
          grind [Function.update_apply]
        · intro q hq hqp
          have := hi.new q
          grind [Function.update_apply]
        · exact hi.mem
        · intro q u hq hu
          have := hi.leaf q u
          grind [Function.update_apply]
      have hone : (vm'.area.pages p).ref = 1 := by
        have hne : ∀ q, role' q = .root → role q = .root := by
          intro q hq
          have := hi.keep q
          have := hi.new q
          have := hi.page
          grind [Function.update_apply]
        have hr' : role' r = .root := (hi.keep r (by rw [hr₁]; simp) hrp).trans hr₁
        have hv := page_lt hla
        have hleaf : leaf vm'.mem r (la / PGSIZE) = some ⟨p, perm ||| PTE_V⟩ := by
          rw [hi.leaf r _ hr₁ hv, if_pos ⟨rfl, rfl⟩]
        have hrefs := refs_one hr' (hrep'.root_managed hr') hv hleaf
          fun q u lf' hq hu hlf' he => ?_
        · have := hrep'.ref p hi.page
          rw [hrefs] at this
          exact this
        · rw [hins.leaf q u (hne q hq) hu] at hlf'
          split_ifs at hlf' with hqu
          · exact hqu
          · have := h.tree.leaf_frame (hne q hq) hu hlf'
            rw [he, hp] at this
            cases this
      have hb := hrep'.bound (p := p) (by rw [hi.page]; simp)
      rw [if_neg (by simp), Prog.wp_bind, wp_pageRef hb, hone]
      simp only [assertM, decide_true, if_true, Prog.wp_bind, Prog.wp_pure]
      exact hsome vm' role' p hp hrep' hins
    · have hp' : role' p = .held := (hg.keep p (by rw [hheld]; simp)).trans hheld
      rw [if_pos (by decide), Prog.wp_bind]
      refine hrep'.freePage (Or.inr hall) (by rw [hp']; rfl) (by rw [hp']; simp) (by rw [hp']; simp)
        (by rw [hp']; simp) fun area' hu' hrep'' => ?_
      rw [Prog.wp_pure]
      refine hnone _ _ hno hrep'' ?_ ?_
      · refine ⟨?_, ?_, ?_, ?_, ?_, (hu'.npages.trans hg.npages).trans hu.npages, hg.heap, hg.room⟩
        · intro q hq
          have := hg.keep q
          grind [Function.update_apply]
        · intro q hq
          have := hg.new q
          grind [Function.update_apply]
        · intro q hq
          refine hg.mem q ?_
          by_cases hqp : q = p
          · rw [hqp, hp']
            rfl
          · rwa [Function.update_of_ne hqp] at hq
        · intro q hq
          have hqp : q ≠ p := by
            rintro rfl
            exact hq hp
          have hpage := hg.page q (by rw [Function.update_of_ne hqp]; exact hq)
          have hnot : q ∉ ({p} : Finset Nat) := by simpa using hqp
          exact ⟨((hu'.ref q hnot).trans hpage.1).trans (hu.ref q (Finset.notMem_empty q)),
            ((hu'.lock q hnot).trans hpage.2).trans (hu.lock q (Finset.notMem_empty q))⟩
        · intro q v hq hv
          have hqp : q ≠ p := by
            rintro rfl
            rw [hp] at hq
            cases hq
          exact hg.leaf q v (by rwa [Function.update_of_ne hqp]) hv
      · intro q hq
        have := ha q
        grind [Function.update_apply]
  · rw [Prog.wp_pure]
    exact hnone vm role hno h Grow.refl fun q hq => Or.inl hq

end AllocPage

end Ucore.Mm
