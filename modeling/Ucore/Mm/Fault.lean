import Ucore.Mm.Copy
import Ucore.Mm.Vmas

namespace Ucore.Mm

open Lib Pmm

variable {vm vm' : VM} {managed : Finset Nat} {role role' : Nat → Role} {lk : Option Nat}
  {bad : Obs → Prop} {addr d f la p q r t u v : Nat} {lf : Leaf} {mm : MmStruct} {E : Halt → Prop}

theorem contains_iff {vma : VmaStruct} (h : vma.Ok) :
    vma.contains addr = true ↔ vma.Covers (addr / PGSIZE) := by
  have hstart := h.start
  have hstop := h.stop
  unfold VmaStruct.contains VmaStruct.Covers
  rw [decide_eq_true_iff]
  unfold PGSIZE at *
  omega

namespace Rep

-- What is no table may be written.
theorem rewrite (h : Rep vm managed role lk) {mem : Nat → Words} (hmem : ∀ q, (role q).isNode → mem q = vm.mem q) :
    Rep { vm with mem := mem } managed role lk ∧
      ∀ q v, role q = .root → v < UPAGES → leaf mem q v = leaf vm.mem q v := by
  have htree : Tree mem role := h.tree.congr hmem
  have hleaf : ∀ q v, role q = .root → v < UPAGES → leaf mem q v = leaf vm.mem q v := by
    intro q v hq hv
    refine Option.ext fun lf => ?_
    rw [h.tree.leaf_iff hq hv, htree.leaf_iff hq hv]
    refine exists_congr fun d => exists_congr fun t => ?_
    refine and_congr_right fun hd => and_congr_right fun ht => ?_
    rw [hmem t (by rw [ht]; rfl)]
  refine ⟨h.retree htree (fun _ _ _ => Iff.rfl) fun q v _ hv => ?_, hleaf⟩
  unfold frameAt
  split_ifs with hq
  · rw [hleaf q v hq hv]
  · rfl

theorem writePlain (h : Rep vm managed role lk) (hp : (role p).isNode = false) {w : Words} :
    Rep { vm with mem := Function.update vm.mem p w } managed role lk ∧
      ∀ q v, role q = .root → v < UPAGES →
        leaf (Function.update vm.mem p w) q v = leaf vm.mem q v := by
  refine h.rewrite fun q hq => Function.update_of_ne ?_ ..
  rintro rfl
  rw [hp] at hq
  cases hq

-- The lock of a frame
theorem setLock (h : Rep vm managed role lk) (hf : role f = .frame) {lk' : Option Nat} {b : Bool}
    (hb : b = decide (lk' = some f)) (hlk : ∀ g, g ≠ f → (lk' = some g ↔ lk = some g)) :
    Rep { vm with area := vm.area.modify f fun p => { p with pageLock := b } } managed role lk' := by
  obtain ⟨free, l, hl, hfree⟩ := h.list
  have hl' : FreeList (vm.area.modify f fun p => { p with
      ref := (vm.area.pages f).ref, pageLock := b }) managed free l := by
    refine hl.use fun hin => ?_
    rw [← hfree, hf] at hin
    cases hin
  have hpages : ∀ g, ((vm.area.modify f fun p => { p with pageLock := b }).pages g).ref =
      (vm.area.pages g).ref := by
    intro g
    rw [FreeArea.modify_apply]
    split_ifs <;> rfl
  refine ⟨h.tree, ⟨free, l, ?_, hfree⟩, h.other, fun g hg => ?_, h.used, fun g hg => ?_, h.heap⟩
  · simpa only [FreeArea.modify] using hl'
  · rw [hpages]
    exact h.ref g hg
  · rw [FreeArea.modify_apply]
    split_ifs with he
    · rw [he]
      exact hb
    · rw [h.lock g hg]
      exact decide_eq_decide.mpr (hlk g he).symm

end Rep

section Lock

variable {Q : Unit → VM → Prop}

theorem wp_lockPage (h : Rep vm managed role none) (hf : role f = .frame)
    (hq : Rep { vm with area := vm.area.modify f fun p => { p with pageLock := true } } managed role (some f) →
      Q () { vm with area := vm.area.modify f fun p => { p with pageLock := true } }) :
    Prog.wp bad (lockPage f) vm Q E := by
  have hb := h.bound (p := f) (by rw [hf]; simp)
  have hlock := h.lock f hf
  rw [lockPage, Prog.wp_bind, wp_derefPage hb, if_neg (by rw [hlock]; simp), wp_storePage hb]
  exact hq (h.setLock hf (by simp) fun g hg => by simp [hg.symm])

theorem wp_unlockPage (h : Rep vm managed role (some f)) (hf : role f = .frame)
    (hq : Rep { vm with area := vm.area.modify f fun p => { p with pageLock := false } } managed role none →
      Q () { vm with area := vm.area.modify f fun p => { p with pageLock := false } }) :
    Prog.wp bad (unlockPage f) vm Q E := by
  have hb := h.bound (p := f) (by rw [hf]; simp)
  have hlock := h.lock f hf
  rw [unlockPage, Prog.wp_bind, wp_derefPage hb, if_pos (by rw [hlock]; simp), wp_storePage hb]
  exact hq (h.setLock hf (by simp) fun g hg => by simp [hg.symm])

end Lock

-- A lock that is taken and released leaves no trace.
theorem relock {area : FreeArea} (hlock : (area.pages f).pageLock = false) :
    (area.modify f fun p => { p with pageLock := true }).modify f (fun p => { p with pageLock := false }) =
      area := by
  unfold FreeArea.modify
  congr 1
  funext q
  by_cases hq : q = f
  · subst hq
    simp only [Function.update_self]
    rw [← hlock]
  · simp only [Function.update_of_ne hq]

-- Nothing but the descriptors of pages has changed.
structure Still (vm vm' : VM) : Prop where
  mem : vm'.mem = vm.mem
  npages : vm'.area.npages = vm.area.npages
  heap : vm'.heap = vm.heap
  room : vm'.room = vm.room

-- A write fault on the copy-on-write leaf `lf` of page `v` below `r` has been served: the
-- page is in a frame of its own and writable.
structure Unshared (vm vm' : VM) (role role' : Nat → Role) (r v : Nat) (lf : Leaf) (f : Nat) : Prop where
  use : ∀ q, role' q = if q = f then .frame else role q
  was : role f = .frame ∨ role f = .free
  leaf : ∀ q u, role q = .root → u < UPAGES →
    leaf vm'.mem q u = if q = r ∧ u = v then some ⟨f, uncow lf.perm⟩ else leaf vm.mem q u
  own : ∀ q u lf', role q = .root → u < UPAGES → ¬(q = r ∧ u = v) → Mm.leaf vm.mem q u = some lf' →
    lf'.frame ≠ f
  copy : vm'.mem f = vm.mem lf.frame
  mem : ∀ q, role q ≠ .free → (role q).isNode = false → vm'.mem q = vm.mem q
  npages : vm'.area.npages = vm.area.npages
  heap : vm'.heap = vm.heap
  room : vm'.room = vm.room

theorem Unshared.keep (h : Unshared vm vm' role role' r v lf f) (hq : role q ≠ .free) : role' q = role q := by
  rw [h.use]
  split_ifs with hqf
  · subst hqf
    exact (h.was.resolve_right hq).symm
  · rfl

section Cow

variable {Q : Int → VM → Prop}

theorem Rep.hasTable_some (h : Rep vm managed role lk) (hr : role r = .root) (hv : v < UPAGES)
    (hleaf : leaf vm.mem r v = some lf) :
    ∃ d t, role d = .dir r (dirIx v) ∧ role t = .table d (tabIx v) ∧ vm.mem t (pteIx v) = lf.pte ∧
      lf.Valid ∧ role lf.frame = .frame :=
  (h.tree.leaf_iff hr hv).mp hleaf

-- The page is nobody else's: it becomes writable in its place.
theorem wp_restoreWrite {Q : Unit → VM → Prop} (h : Rep vm managed role lk) (hr : role r = .root)
    (hv : v < UPAGES) (hd : role d = .dir r (dirIx v)) (ht : role t = .table d (tabIx v))
    (hleaf : leaf vm.mem r v = some lf) (hone : refs managed vm.mem role lf.frame ≤ 1)
    (hq : ∀ vm', Rep vm' managed role lk → vm'.area = vm.area →
      Unshared vm vm' role role r v lf lf.frame → Q () vm') :
    Prog.wp bad (restoreWrite r la (t, pteIx v)) vm Q E := by
  obtain ⟨_, _, _, _, _, hvalid, hf⟩ := h.hasTable_some hr hv hleaf
  have he : vm.mem t (pteIx v) = lf.pte := by
    rcases h.entry hr hv hd ht with ⟨_, hnone⟩ | ⟨lf', he, hlf', _⟩
    · rw [hleaf] at hnone
      cases hnone
    · rw [hleaf] at hlf'
      cases hlf'
      exact he
  obtain ⟨hlow, _, _, hV, _⟩ := uncow_bits lf.perm hvalid.1
  have hvalid' : (Leaf.mk lf.frame (uncow lf.perm)).Valid := ⟨hlow, by rw [hV]; exact hvalid.2⟩
  have hset := setLeaf_putEntry vm.mem hd ht
    (Or.inr ⟨_, rfl, hvalid', hf⟩ : (Leaf.mk lf.frame (uncow lf.perm)).pte = 0 ∨ _)
  have hrep := h.recolor hset hv hvalid' hf (by rw [hleaf]; rfl)
  rw [restoreWrite, Prog.wp_bind, wp_readWord, Prog.wp_bind, he, uncow_pte hvalid.1]
  refine wp_setPte (wp_tlbInvalidate (hq _ hrep rfl ?_))
  refine ⟨fun q => ?_, Or.inl hf, fun q u hq hu => ?_,
    fun q u lf' hq hu hno hlf' he => ?_, ?_, fun q _ hnode => ?_, rfl, rfl, rfl⟩
  · split_ifs with hq
    · rw [hq, hf]
    · rfl
  · by_cases hqu : q = r ∧ u = v
    · obtain ⟨rfl, rfl⟩ := hqu
      rw [if_pos ⟨rfl, rfl⟩]
      exact (hset.leaf_self h.tree hv).trans (decode_pte hvalid' (h.tree.bound (by rw [hf]; simp)))
    · rw [if_neg hqu]
      exact hset.leaf_other h.tree hq hu (by tauto)
  · obtain ⟨h₁, h₂⟩ := leaf_unique hr hq (h.root_managed hr) (h.root_managed hq) hv hu hone
      (by rw [hleaf]; rfl) (by rw [hlf', ← he]; rfl)
    exact hno ⟨h₁.symm, h₂.symm⟩
  · refine putEntry_of_ne ?_
    intro hft
    rw [hft, ht] at hf
    cases hf
  · refine putEntry_of_ne ?_
    rintro rfl
    rw [ht] at hnode
    cases hnode

-- The page is shared: it is copied to the new page `p`.
theorem Inserted.unshared {area area' : FreeArea} {perm : Nat} (htree : Tree vm.mem role)
    (hf : role lf.frame = .frame) (hp : role p = .free) (hperm : perm ||| PTE_V = uncow lf.perm)
    (hd : role d = .dir r (dirIx v)) (ht : role t = .table d (tabIx v)) (htree' : Tree vm'.mem role')
    (hleaf : ∀ q v, role q = .root → v < UPAGES →
      Mm.leaf (Function.update vm.mem p (vm.mem lf.frame)) q v = Mm.leaf vm.mem q v)
    (harea : area.npages = vm.area.npages)
    (hi : Inserted { vm with area := area, mem := Function.update vm.mem p (vm.mem lf.frame) } vm'
      (Function.update role p .held) role' r v p perm) (harea' : area'.npages = vm'.area.npages) :
    Unshared vm { vm' with area := area' } role role' r v lf p := by
  have hne : ∀ q, role q ≠ .free → q ≠ p := by
    rintro q hq rfl
    exact hq hp
  have hold : ∀ q, role q ≠ .free → Function.update role p .held q = role q := fun q hq =>
    Function.update_of_ne (hne q hq) ..
  have hfp : lf.frame ≠ p := hne _ (by rw [hf]; simp)
  have hkeep : ∀ q, role q ≠ .free → role' q = role q := fun q hq => by
    rw [hi.keep q (by rw [hold q hq]; exact hq) (hne q hq), hold q hq]
  refine ⟨fun q => ?_, Or.inr hp, fun q u hq hu => ?_, fun q u lf' hq hu _ hlf' he => ?_, ?_,
    fun q hq hnode => ?_, (harea'.trans hi.npages).trans harea, hi.heap, hi.room⟩
  · split_ifs with hqp
    · rw [hqp, hi.page]
    · by_cases hq : role q = .free
      · -- the tables for the page were there, so that no page has become one
        have hd' : role' d = .dir r (dirIx v) := (hkeep d (by rw [hd]; simp)).trans hd
        have ht' : role' t = .table d (tabIx v) := (hkeep t (by rw [ht]; simp)).trans ht
        rcases hi.new q (by rwa [Function.update_of_ne hqp]) hqp with hfree | hdir | ⟨d₁, hd₁, ht₁⟩
        · rw [hfree, hq]
        · rw [htree'.dir_unique hdir hd', hd] at hq
          cases hq
        · rw [htree'.dir_unique hd₁ hd'] at ht₁
          rw [htree'.table_unique ht₁ ht', ht] at hq
          cases hq
      · exact hkeep q hq
  · have hq' : Function.update role p .held q = .root := by
      rw [hold q (by rw [hq]; simp), hq]
    refine (hi.leaf q u hq' hu).trans ?_
    rw [hperm]
    refine if_congr Iff.rfl rfl ?_
    exact hleaf q u hq hu
  · have := htree.leaf_frame hq hu hlf'
    rw [he, hp] at this
    cases this
  · have hheld : Function.update role p .held p = .held := Function.update_self ..
    refine (hi.plain (Or.inr rfl) (by rw [hheld]; rfl)).trans ?_
    exact Function.update_self ..
  · refine (hi.plain (Or.inl (by rw [hold q hq]; exact hq)) (by rw [hold q hq]; exact hnode)).trans ?_
    exact Function.update_of_ne (hne q hq) ..

-- The page becomes writable in its place if nobody else has it, and else moves to a free one.
def Moved (managed : Finset Nat) (mem : Nat → Words) (role : Nat → Role) (lf : Leaf) (f : Nat) : Prop :=
  f = lf.frame ∧ refs managed mem role lf.frame = 1 ∨ role f = .free ∧ 1 < refs managed mem role lf.frame

theorem wp_pgfaultCow (h : Rep vm managed role (some lf.frame)) (hr : role r = .root)
    (hla : la < USERTOP) (hd : role d = .dir r (dirIx (la / PGSIZE)))
    (ht : role t = .table d (tabIx (la / PGSIZE))) (hleaf : leaf vm.mem r (la / PGSIZE) = some lf)
    (hok : ∀ vm' role' f, Rep vm' managed role' none → Moved managed vm.mem role lf f →
      Unshared vm vm' role role' r (la / PGSIZE) lf f → Q 0 vm')
    (hfail : ¬bad .noMem → 1 < refs managed vm.mem role lf.frame → (∀ q, role q ≠ .free) →
      Q (-E_NO_MEM) { vm with area := vm.area.modify lf.frame fun p => { p with pageLock := false } }) :
    Prog.wp bad (pgfaultCow r la lf.frame (t, pteIx (la / PGSIZE))) vm Q E := by
  have hv := page_lt hla
  obtain ⟨_, _, _, _, _, hvalid, hf⟩ := h.hasTable_some hr hv hleaf
  have hb := h.bound (p := lf.frame) (by rw [hf]; simp)
  have he : vm.mem t (pteIx (la / PGSIZE)) = lf.pte := by
    rcases h.entry hr hv hd ht with ⟨_, hnone⟩ | ⟨lf', he, hlf', _⟩
    · rw [hleaf] at hnone
      cases hnone
    · rw [hleaf] at hlf'
      cases hlf'
      exact he
  have hperm : lf.pte &&& PTE_PERM = lf.perm &&& PTE_PERM := Leaf.pte_and hvalid.1 (by decide)
  have href := h.ref lf.frame hf
  simp only [pgfaultCow, Prog.wp_bind, wp_readWord]
  rw [he, hperm, wp_pageRef hb, href, Prog.wp_ite]
  constructor
  · intro hmany
    have hmany : 1 < refs managed vm.mem role lf.frame := by omega
    rw [Prog.wp_bind]
    refine h.allocPage (fun p area hp hpref hplock hu hrep => ?_) fun hno hall => ?_
    · have hheld : Function.update role p .held p = .held := Function.update_self ..
      have hne : ∀ q, role q ≠ .free → Function.update role p .held q = role q := by
        rintro q hq
        refine Function.update_of_ne ?_ ..
        rintro rfl
        exact hq hp
      have hr₁ : Function.update role p .held r = .root := by rw [hne r (by rw [hr]; simp), hr]
      have hf₁ : Function.update role p .held lf.frame = .frame := by
        rw [hne _ (by rw [hf]; simp), hf]
      have hlkp : (some lf.frame : Option Nat) ≠ some p := by
        intro he
        cases he
        rw [hf] at hp
        cases hp
      obtain ⟨hrep₁, hleaf₁⟩ := hrep.writePlain (p := p) (w := vm.mem lf.frame) (by rw [hheld]; rfl)
      have hpermlt : clearBit (lf.perm &&& PTE_PERM ||| PTE_W) PTE_COW < 1024 := by
        have hor : lf.perm &&& PTE_PERM ||| PTE_W < 1024 :=
          Nat.or_lt_two_pow (n := 10) (lt_of_le_of_lt Nat.and_le_left hvalid.1) (by decide)
        exact Nat.xor_lt_two_pow (n := 10) hor (lt_of_le_of_lt Nat.and_le_left hor)
      have hunperm := uncow_insert lf.perm hvalid.1 hvalid.2
      have hrefs₁ := hrep₁.ref lf.frame hf₁
      have href₁ : (area.pages lf.frame).ref = refs managed vm.mem role lf.frame :=
        (hu.ref lf.frame (Finset.notMem_empty _)).trans href
      have hb₁ : lf.frame < area.npages := by
        rw [hu.npages]
        exact hb
      simp only [Prog.wp_bind]
      rw [wp_page2kva (hrep.bound (p := p) (by rw [hheld]; simp)), wp_page2kva hb₁, Prog.wp_get,
        wp_writePage, wp_pageRef hb₁, href₁, if_pos (by omega), Prog.wp_bind]
      refine wp_pageInsert_held hrep₁ hr₁ hla hheld hpref hplock hlkp hpermlt (fun lf' hlf' => ?_)
        (fun vm₂ role₂ hrep₂ hi => ?_) fun _ _ _ hnt _ _ _ _ => ?_
      · have hlf' : leaf vm.mem r (la / PGSIZE) = some lf' := (hleaf₁ r _ hr₁ hv).symm.trans hlf'
        rw [hleaf] at hlf'
        cases hlf'
        have hback := hrefs₁.symm.trans href₁
        have : refs managed (Function.update vm.mem p (vm.mem lf.frame)) (Function.update role p .held)
            lf.frame = refs managed vm.mem role lf.frame := by exact_mod_cast hback
        exact hmany.trans_eq this.symm
      · have hr₂ : role₂ r = .root := by
          rw [hi.keep r (by rw [hr₁]; simp) ?_, hr₁]
          rintro rfl
          rw [hheld] at hr₁
          cases hr₁
        have hleaf₂ : leaf vm₂.mem r (la / PGSIZE) =
            some ⟨p, clearBit (lf.perm &&& PTE_PERM ||| PTE_W) PTE_COW ||| PTE_V⟩ :=
          (hi.leaf r _ hr₁ hv).trans (if_pos ⟨rfl, rfl⟩)
        obtain ⟨d₂, t₂, hd₂, ht₂, he₂, hvalid₂, hp₂⟩ := hrep₂.hasTable_some hr₂ hv hleaf₂
        have hf₂ : role₂ lf.frame = .frame := by
          rw [hi.keep _ (by rw [hf₁]; simp) ?_, hf₁]
          rintro he
          rw [he, hp] at hf
          cases hf
        obtain ⟨_, hw, hcow, _⟩ := uncow_bits lf.perm hvalid.1
        rw [if_neg (by simp), Prog.wp_bind]
        refine wp_getPte_find hrep₂ hr₂ hla (fun d₃ t₃ hd₃ ht₃ => ?_) fun hno => ?_
        · rw [hrep₂.tree.dir_unique hd₃ hd₂] at ht₃
          obtain rfl := hrep₂.tree.table_unique ht₃ ht₂
          simp only [Prog.wp_bind, wp_readWord]
          have hcheck : (Leaf.mk p (clearBit (lf.perm &&& PTE_PERM ||| PTE_W) PTE_COW ||| PTE_V)).pte &&&
              PTE_V ≠ 0 ∧ (Leaf.mk p (clearBit (lf.perm &&& PTE_PERM ||| PTE_W) PTE_COW ||| PTE_V)).pte &&&
              PTE_W ≠ 0 ∧ (Leaf.mk p (clearBit (lf.perm &&& PTE_PERM ||| PTE_W) PTE_COW ||| PTE_V)).pte &&&
              PTE_COW = 0 := by
            rw [Leaf.pte_and hvalid₂.1 (by decide), Leaf.pte_and hvalid₂.1 (by decide),
              Leaf.pte_and hvalid₂.1 (by decide)]
            refine ⟨hvalid₂.2, ?_, ?_⟩
            · show (clearBit (lf.perm &&& PTE_PERM ||| PTE_W) PTE_COW ||| PTE_V) &&& PTE_W ≠ 0
              rw [hunperm]
              exact hw
            · show (clearBit (lf.perm &&& PTE_PERM ||| PTE_W) PTE_COW ||| PTE_V) &&& PTE_COW = 0
              rw [hunperm]
              exact hcow
          rw [he₂, if_pos hcheck, Prog.wp_bind,
            wp_pte2page hvalid₂ (hrep₂.bound (by rw [hp₂]; simp)), Prog.wp_bind]
          refine wp_unlockPage hrep₂ hf₂ fun hrep₃ => ?_
          rw [if_pos rfl, Prog.wp_pure]
          exact hok _ role₂ p hrep₃ (Or.inr ⟨hp, hmany⟩) (hi.unshared h.tree hf hp hunperm hd ht hrep₂.tree
            (fun q v hq hv => hleaf₁ q v (by rw [hne q (by rw [hq]; simp), hq]) hv) hu.npages
            FreeArea.modify_npages)
        · rw [(hrep₂.tree.tabAt_iff hr₂ hv).mpr ⟨d₂, hd₂, ht₂⟩] at hno
          cases hno
      · exact absurd ht (by
          have := hnt d t (by rw [hne d (by rw [hd]; simp), hd])
          rwa [hne t (by rw [ht]; simp)] at this)
    · rw [Prog.wp_bind]
      refine wp_unlockPage h hf fun _ => ?_
      rw [Prog.wp_pure]
      exact hfail hno hmany hall
  · intro hone
    rw [Prog.wp_bind]
    refine wp_restoreWrite h hr hv hd ht hleaf (by omega) fun vm' hrep harea hun => ?_
    rw [Prog.wp_bind]
    refine wp_unlockPage hrep hf fun hrep' => ?_
    rw [Prog.wp_pure]
    have hused := h.used lf.frame hf
    have hnpages : (vm'.area.modify lf.frame fun p => { p with pageLock := false }).npages = vm.area.npages :=
      FreeArea.modify_npages.trans hun.npages
    exact hok _ role lf.frame hrep' (Or.inl ⟨rfl, by omega⟩) ⟨hun.use, hun.was, hun.leaf, hun.own, hun.copy,
      hun.mem, hnpages, hun.heap, hun.room⟩

theorem Still.unshared {vm₁ : VM} (hs : Still vm vm₁) (h : Unshared vm₁ vm' role role' r v lf f) :
    Unshared vm vm' role role' r v lf f := by
  obtain ⟨hmem, hnpages, hheap, hroom⟩ := hs
  obtain ⟨huse, hwas, hleaf, hown, hcopy, hrest, h₁, h₂, h₃⟩ := h
  rw [hmem] at hleaf hown hcopy hrest
  exact ⟨huse, hwas, hleaf, hown, hcopy, hrest, h₁.trans hnpages, h₂.trans hheap, h₃.trans hroom⟩

theorem wp_cowEntry {Q : Bool → VM → Prop} (he : vm.mem t u = lf.pte) (hvalid : lf.Valid)
    (hq : Q (lf.perm &&& PTE_COW ≠ 0) vm) : Prog.wp bad (cowEntry (some (t, u))) vm Q E := by
  have hv : lf.pte &&& PTE_V ≠ 0 := Leaf.pte_valid hvalid
  have hcow : lf.pte &&& PTE_COW = lf.perm &&& PTE_COW := Leaf.pte_and hvalid.1 (by decide)
  simp only [cowEntry, Prog.wp_bind, wp_readWord, Prog.wp_pure]
  rw [he, hcow]
  simpa [hv] using hq

theorem wp_pgfaultLocked (h : Rep vm managed role none) (hr : role r = .root)
    (hla : la < USERTOP) (hleaf : leaf vm.mem r (la / PGSIZE) = some lf)
    (hcow : lf.perm &&& PTE_COW ≠ 0)
    (hok : ∀ vm' role' f, Rep vm' managed role' none → Moved managed vm.mem role lf f →
      Unshared vm vm' role role' r (la / PGSIZE) lf f → Q 0 vm')
    (hfail : ¬bad .noMem → 1 < refs managed vm.mem role lf.frame → (∀ q, role q ≠ .free) →
      Q (-E_NO_MEM) vm) :
    Prog.wp bad (pgfaultLocked r la lf.frame) vm Q E := by
  have hv := page_lt hla
  obtain ⟨d, t, hd, ht, he, hvalid, hf⟩ := h.hasTable_some hr hv hleaf
  have hb := h.bound (p := lf.frame) (by rw [hf]; simp)
  rw [pgfaultLocked, Prog.wp_bind]
  have hback := relock (h.lock lf.frame hf)
  refine wp_lockPage h hf fun hrep => ?_
  generalize harea : (vm.area.modify lf.frame fun p => { p with pageLock := true }) = area at *
  have hnpages : area.npages = vm.area.npages := by rw [← harea, FreeArea.modify_npages]
  have hs : Still vm { vm with area := area } := ⟨rfl, hnpages, rfl, rfl⟩
  rw [Prog.wp_bind]
  refine wp_getPte_find hrep hr hla (fun d' t' hd' ht' => ?_) fun hno => ?_
  · rw [h.tree.dir_unique hd' hd] at ht'
    obtain rfl := h.tree.table_unique ht' ht
    rw [Prog.wp_bind]
    refine wp_cowEntry he hvalid ?_
    rw [if_neg (by simp [hcow]), Prog.wp_bind, wp_readWord]
    have he' : ({ vm with area := area } : VM).mem t' (pteIx (la / PGSIZE)) = lf.pte := he
    rw [he', Prog.wp_bind, wp_pte2page hvalid (lt_of_lt_of_eq hb hnpages.symm), if_neg (not_not.mpr rfl)]
    refine wp_pgfaultCow hrep hr hla hd ht' hleaf (fun vm' role' f hrep' hmoved hun => ?_)
      fun hno hmany hall => ?_
    · exact hok vm' role' f hrep' hmoved (hs.unshared hun)
    · have hq := hfail hno hmany hall
      simp only [hback]
      exact hq
  · rw [(h.tree.tabAt_iff hr hv).mpr ⟨d, hd, ht⟩] at hno
    cases hno

end Cow

section Pgfault

variable {Q : Int × MmStruct → VM → Prop} {errorCode : Nat} {vma : VmaStruct}

-- A fault that do_pgfault serves: a write to a copy-on-write page of a writable vma
structure Serves (vm : VM) (mm : MmStruct) (errorCode addr : Nat) (lf : Leaf) : Prop where
  vma : ∃ vma ∈ mm.mmapList, vma.contains addr = true ∧ vma.vmFlags &&& VM_WRITE ≠ 0
  write : errorCode &&& PF_WRITE ≠ 0
  leaf : leaf vm.mem mm.pgdir (addr / PGSIZE) = some lf
  cow : lf.perm &&& PTE_COW ≠ 0

-- do_pgfault: a write to a copy-on-write page is served, unless there is no memory.
theorem wp_doPgfault (h : Rep vm managed role none) (hr : role mm.pgdir = .root)
    (htop : ∀ vma ∈ mm.mmapList, vma.vmEnd ≤ USERTOP)
    (huniq : ∀ a ∈ mm.mmapList, ∀ b ∈ mm.mmapList, a.contains addr = true → b.contains addr = true → a = b)
    (hcache : ∀ vma, mm.mmapCache = some vma → vma ∈ mm.mmapList)
    (hok : ∀ vm' role' mm' lf f, SameMm mm mm' → Serves vm mm errorCode addr lf → addr < USERTOP →
      Rep vm' managed role' none → Moved managed vm.mem role lf f →
      Unshared vm vm' role role' mm.pgdir (addr / PGSIZE) lf f → Q (0, mm') vm')
    (hinval : ∀ mm', SameMm mm mm' → (∀ lf, ¬Serves vm mm errorCode addr lf) → Q (-E_INVAL, mm') vm)
    (hfail : ∀ mm' lf, ¬bad .noMem → SameMm mm mm' → Serves vm mm errorCode addr lf →
      1 < refs managed vm.mem role lf.frame → (∀ q, role q ≠ .free) → Q (-E_NO_MEM, mm') vm) :
    Prog.wp bad (doPgfault mm errorCode addr) vm Q E := by
  obtain ⟨found, mm', hfind, hsame, hs, hn⟩ := findVma_spec hcache addr
  rw [doPgfault, hfind]
  cases found with
  | none =>
      simp only [Prog.wp_pure]
      refine hinval mm' hsame fun lf hserves => ?_
      obtain ⟨vma, hvma, hin, _⟩ := hserves.vma
      rw [hn rfl vma hvma] at hin
      cases hin
  | some vma =>
      obtain ⟨hvma, hin⟩ := hs vma rfl
      have hle : vma.vmStart ≤ addr ∧ addr < vma.vmEnd := of_decide_eq_true hin
      have hlt : addr < USERTOP := lt_of_lt_of_le hle.2 (htop vma hvma)
      have hla : ROUNDDOWN addr PGSIZE < USERTOP := lt_of_le_of_lt (Nat.sub_le _ _) hlt
      have hpage : ROUNDDOWN addr PGSIZE / PGSIZE = addr / PGSIZE := by
        unfold ROUNDDOWN PGSIZE
        omega
      have hv := page_lt hlt
      simp only
      rw [if_neg (by omega), hsame.pgdir, Prog.wp_bind]
      refine wp_getPte_find h hr hla (fun d t hd ht => ?_) fun hno => ?_
      · rw [hpage] at hd ht ⊢
        simp only [Prog.wp_bind, wp_readWord]
        rcases h.entry hr hv hd ht with ⟨h0, hleaf⟩ | ⟨lf, he, hleaf, hvalid, hf⟩
        · rw [h0, if_pos (Nat.zero_and _), Prog.wp_pure]
          refine hinval mm' hsame fun lf hserves => ?_
          have hlf := hserves.leaf
          rw [hleaf] at hlf
          cases hlf
        · have hb := h.bound (p := lf.frame) (by rw [hf]; simp)
          have honly : ∀ lf', Serves vm mm errorCode addr lf' → lf' = lf := fun lf' hserves =>
            Option.some.inj (hserves.leaf.symm.trans hleaf)
          rw [he, if_neg (Leaf.pte_valid hvalid), Leaf.pte_and hvalid.1 (by decide)]
          by_cases hcow : lf.perm &&& PTE_COW = 0
          · rw [if_pos hcow, Prog.wp_pure]
            refine hinval mm' hsame fun lf' hserves => ?_
            exact hserves.cow (honly lf' hserves ▸ hcow)
          · rw [if_neg hcow]
            by_cases hw : errorCode &&& PF_WRITE = 0
            · rw [if_pos hw, Prog.wp_pure]
              exact hinval mm' hsame fun lf' hserves => hserves.write hw
            · rw [if_neg hw]
              by_cases hwrite : vma.vmFlags &&& VM_WRITE = 0
              · rw [if_pos hwrite, Prog.wp_pure]
                refine hinval mm' hsame fun lf' hserves => ?_
                obtain ⟨w, hwm, hwin, hwf⟩ := hserves.vma
                rw [huniq w hwm vma hvma hwin hin] at hwf
                exact hwf hwrite
              · have hserves : Serves vm mm errorCode addr lf := ⟨⟨vma, hvma, hin, hwrite⟩, hw, hleaf, hcow⟩
                rw [if_neg hwrite, Prog.wp_bind, wp_pte2page hvalid hb, Prog.wp_bind]
                have hleaf' : leaf vm.mem mm.pgdir (ROUNDDOWN addr PGSIZE / PGSIZE) = some lf := by
                  rw [hpage]
                  exact hleaf
                refine wp_pgfaultLocked h hr hla hleaf' hcow (fun vm' role' f hrep hmoved hun => ?_)
                  fun hno hmany hall => ?_
                · rw [hpage] at hun
                  rw [Prog.wp_pure]
                  exact hok vm' role' mm' lf f hsame hserves hlt hrep hmoved hun
                · rw [Prog.wp_pure]
                  exact hfail mm' lf hno hsame hserves hmany hall
      · rw [Prog.wp_pure]
        refine hinval mm' hsame fun lf hserves => ?_
        have hlf := hserves.leaf
        rw [hpage] at hno
        rw [leaf, hno] at hlf
        cases hlf

end Pgfault

end Ucore.Mm
