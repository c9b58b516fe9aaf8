import Ucore.Mm.Insert

namespace Ucore.Mm

open Lib Pmm

variable {vm vm' vm'' : VM} {managed : Finset Nat} {role role' role'' : Nat → Role} {lk : Option Nat}
  {bad : Obs → Prop} {a b c d f p q r t u v : Nat} {X Y : Nat → Prop} {mem mem' : Nat → Words} {lf : Leaf}
  {E : Halt → Prop}

-- The leaves below `r` of the pages in `X` are gone, and frames that are no longer mapped
-- are free.
structure Unmapped (vm vm' : VM) (role role' : Nat → Role) (r : Nat) (X : Nat → Prop) : Prop where
  keep : ∀ p, role p ≠ .frame → role' p = role p
  frame : ∀ p, role p = .frame → role' p = .frame ∨ role' p = .free
  mem : ∀ p, (∀ d i j, role d = .dir r i → role p ≠ .table d j) → vm'.mem p = vm.mem p
  gone : ∀ u, u < UPAGES → X u → leaf vm'.mem r u = none
  rest : ∀ q u, role q = .root → u < UPAGES → ¬(q = r ∧ X u) → leaf vm'.mem q u = leaf vm.mem q u
  npages : vm'.area.npages = vm.area.npages
  heap : vm'.heap = vm.heap
  room : vm'.room = vm.room

namespace Unmapped

theorem refl (hno : ∀ u, u < UPAGES → X u → leaf vm.mem r u = none) : Unmapped vm vm role role r X :=
  ⟨fun _ _ => rfl, fun _ hp => Or.inl hp, fun _ _ => rfl, hno, fun _ _ _ _ _ => rfl, rfl, rfl, rfl⟩

theorem trans (hr : role r = .root) (h : Unmapped vm vm' role role' r X)
    (h' : Unmapped vm' vm'' role' role'' r Y) :
    Unmapped vm vm'' role role'' r fun u => X u ∨ Y u := by
  have hr' : role' r = .root := (h.keep r (by rw [hr]; simp)).trans hr
  refine ⟨fun p hp => ?_, fun p hp => ?_, fun p hp => ?_, fun u hu hx => ?_, fun q u hq hu hx => ?_,
    h'.npages.trans h.npages, h'.heap.trans h.heap, h'.room.trans h.room⟩
  · have h₁ := h.keep p hp
    have h₂ := h'.keep p
    grind
  · have h₁ := h.frame p hp
    have h₂ := h'.keep p
    have h₃ := h'.frame p
    grind
  · rw [h'.mem p, h.mem p hp]
    intro d i j hd ht
    have hkeep := h.keep
    have hframe := h.frame
    exact hp d i j (by grind) (by grind)
  · by_cases hy : Y u
    · exact h'.gone u hu hy
    · have hxu : X u := hx.resolve_right hy
      rw [h'.rest r u hr' hu fun hno => hy hno.2]
      exact h.gone u hu hxu
  · have hq' : role' q = .root := (h.keep q (by rw [hq]; simp)).trans hq
    rw [h'.rest q u hq' hu fun hno => hx ⟨hno.1, Or.inr hno.2⟩]
    exact h.rest q u hq hu fun hno => hx ⟨hno.1, Or.inl hno.2⟩

theorem mono (h : Unmapped vm vm' role role' r X) (hyx : ∀ u, u < UPAGES → Y u → X u)
    (hxy : ∀ u, u < UPAGES → X u → Y u ∨ leaf vm'.mem r u = leaf vm.mem r u) :
    Unmapped vm vm' role role' r Y := by
  refine ⟨h.keep, h.frame, h.mem, fun u hu hy => h.gone u hu (hyx u hu hy), fun q u hq hu hno => ?_,
    h.npages, h.heap, h.room⟩
  by_cases hqx : q = r ∧ X u
  · obtain ⟨rfl, hx⟩ := hqx
    rcases hxy u hu hx with hy | he
    · exact absurd ⟨rfl, hy⟩ hno
    · exact he
  · exact h.rest q u hq hu hqx

end Unmapped

section Remove

variable {Q : Unit → VM → Prop} {la : Nat}

theorem Rep.unmapped {area : FreeArea} (h : Rep vm managed role lk)
    (hv : v < UPAGES) (hd : role d = .dir r (dirIx v)) (ht : role t = .table d (tabIx v))
    (hnpages : area.npages = vm.area.npages) (hkeep : ∀ p, role p ≠ .frame → role' p = role p)
    (hframe : ∀ p, role p = .frame → role' p = .frame ∨ role' p = .free) :
    Unmapped vm { vm with area := area, mem := putEntry vm.mem t (pteIx v) 0 } role role' r (· = v) := by
  have ha := setLeaf_putEntry (w := 0) vm.mem hd ht (Or.inl rfl)
  refine ⟨hkeep, hframe, fun p hp => ?_, ?_, fun q u hq hu hno => ?_, hnpages, rfl, rfl⟩
  · refine putEntry_of_ne ?_
    rintro rfl
    exact hp d _ _ hd ht
  · rintro u _ rfl
    exact (ha.leaf_self h.tree hv).trans decode_zero
  · exact ha.leaf_other h.tree hq hu (by tauto)

theorem wpl_remove {lf : Leaf} (h : Rep vm managed role lk) (hr : role r = .root)
    (hv : v < UPAGES) (hd : role d = .dir r (dirIx v)) (ht : role t = .table d (tabIx v))
    (hleaf : leaf vm.mem r v = some lf)
    (hbad : refs managed vm.mem role lf.frame = 1 → ¬Fits (fun q => role q = .free) lf.frame → bad .tail)
    (hq : ∀ vm' role', Rep vm' managed role' lk → Unmapped vm vm' role role' r (· = v) →
      (∀ q, role' q = .free ↔ role q = .free ∨ q = lf.frame ∧ refs managed vm.mem role lf.frame = 1) →
      (refs managed vm.mem role lf.frame = 1 → Fits (fun q => role q = .free) lf.frame) → Q () vm') :
    Prog.wpl bad (fun o => o ≠ .tail) (pageRemovePte r la (t, pteIx v)) vm Q E := by
  have hf := h.tree.leaf_frame hr hv hleaf
  have hsame : ∀ lf', leaf vm.mem r v = some lf' → lf' = lf := fun lf' hlf' =>
    Option.some.inj (hlf'.symm.trans hleaf)
  refine wpl_pageRemovePte h hr hv hd ht (fun lf' hlf' hone => ?_) (fun hno => ?_)
    (fun lf' area hlf' hone hfit hu hrep => ?_) fun lf' hlf' hmany hrep => ?_
  · obtain rfl := hsame lf' hlf'
    exact hbad hone
  · rw [hleaf] at hno
    cases hno
  · obtain rfl := hsame lf' hlf'
    refine hq _ _ hrep (h.unmapped hv hd ht hu.npages (fun p hp => ?_) fun p hp => ?_) (fun q => ?_) fun _ => hfit
    · grind [Function.update_apply]
    · grind [Function.update_apply]
    · grind [Function.update_apply]
  · obtain rfl := hsame lf' hlf'
    refine hq _ _ hrep (h.unmapped hv hd ht FreeArea.modify_npages (fun _ _ => rfl) fun _ hp => Or.inl hp)
      (fun q => ?_) fun hone => ?_
    · refine (or_iff_left ?_).symm
      rintro ⟨_, hone⟩
      omega
    · omega

end Remove

section Loop

variable {Q : Unit → VM → Prop}

theorem ROUNDDOWN_next (a : Nat) :
    ROUNDDOWN (a * PGSIZE + PTSIZE) PTSIZE = (a / 512 + 1) * 512 * PGSIZE := by
  unfold ROUNDDOWN PTSIZE PGSIZE NPTEENTRY
  omega

theorem page_mul (a : Nat) : a * PGSIZE / PGSIZE = a := by
  unfold PGSIZE
  omega

theorem addr_lt (h : a < UPAGES) : a * PGSIZE < USERTOP := by
  unfold UPAGES at h
  unfold PGSIZE USERTOP
  omega

-- Pages with the same indices but the last have the same table.
theorem tabAt_congr {mem : Nat → Words} (h : u / 512 = v / 512) : tabAt mem r u = tabAt mem r v := by
  have hd : dirIx u = dirIx v := by
    unfold dirIx
    omega
  have ht : tabIx u = tabIx v := by
    unfold tabIx
    rw [h]
  rw [tabAt, tabAt, hd, ht]

theorem leaf_of_tabAt {mem : Nat → Words} (h : tabAt mem r v = none) (he : u / 512 = v / 512) :
    leaf mem r u = none := by
  rw [leaf, tabAt_congr he, h]
  rfl

-- Page `v` is the last of those from `a` to `b` that map the frame `f` below `r`, and no
-- other page maps it: the frame goes with `v`.
structure Drops (managed : Finset Nat) (mem : Nat → Words) (role : Nat → Role) (r a b v f : Nat) : Prop where
  lower : a ≤ v
  upper : v < b
  leaf : (leaf mem r v).map Leaf.frame = some f
  all : refs managed mem role f = mapped mem r (Finset.Ico a b) f
  last : ∀ u, v < u → u < b → (Mm.leaf mem r u).map Leaf.frame ≠ some f

theorem mapped_succ (hab : a < b) : mapped mem r (Finset.Ico a b) f =
    (if (leaf mem r a).map Leaf.frame = some f then 1 else 0) + mapped mem r (Finset.Ico (a + 1) b) f := by
  have hset : Finset.Ico a b = insert a (Finset.Ico (a + 1) b) := by
    ext u
    simp only [Finset.mem_insert, Finset.mem_Ico]
    omega
  rw [mapped, hset, count_insert (by simp)]
  rfl

-- Pages without a leaf count for nothing.
theorem mapped_skip (hac : a ≤ c) (hno : ∀ u, a ≤ u → u < c → u < b → leaf mem r u = none) :
    mapped mem r (Finset.Ico a b) f = mapped mem r (Finset.Ico c b) f := by
  unfold mapped count
  congr 1
  ext u
  simp only [Finset.mem_filter, Finset.mem_Ico]
  refine ⟨fun ⟨⟨hu, hub⟩, hf⟩ => ⟨⟨?_, hub⟩, hf⟩, fun ⟨⟨hu, hub⟩, hf⟩ => ⟨⟨hac.trans hu, hub⟩, hf⟩⟩
  by_contra hlt
  rw [hno u hu (not_le.mp hlt) hub] at hf
  cases hf

namespace Drops

theorem skip (hac : a ≤ c) (hno : ∀ u, a ≤ u → u < c → u < b → Mm.leaf mem r u = none) :
    Drops managed mem role r a b v f ↔ Drops managed mem role r c b v f := by
  have hm := mapped_skip (f := f) hac hno
  constructor
  · intro h
    refine ⟨?_, h.upper, h.leaf, h.all.trans hm, h.last⟩
    by_contra hlt
    have hleaf := h.leaf
    rw [hno v h.lower (not_le.mp hlt) h.upper] at hleaf
    cases hleaf
  · intro h
    exact ⟨hac.trans h.lower, h.upper, h.leaf, h.all.trans hm.symm, h.last⟩

-- The first page drops its frame if that has no other leaf.
theorem now (hab : a < b) (hleaf : Mm.leaf mem r a = some lf)
    (hle : mapped mem r (Finset.Ico a b) lf.frame ≤ refs managed mem role lf.frame) :
    Drops managed mem role r a b a f ↔ f = lf.frame ∧ refs managed mem role lf.frame = 1 := by
  have hframe : (Mm.leaf mem r a).map Leaf.frame = some lf.frame := by
    rw [hleaf]
    rfl
  have hcount : mapped mem r (Finset.Ico a b) lf.frame = 1 + mapped mem r (Finset.Ico (a + 1) b) lf.frame := by
    rw [mapped_succ hab, if_pos hframe]
  constructor
  · intro h
    obtain rfl : f = lf.frame := (Option.some.inj (hframe.symm.trans h.leaf)).symm
    have hnone : mapped mem r (Finset.Ico (a + 1) b) lf.frame = 0 := by
      refine count_eq_zero.mpr fun u hu => ?_
      obtain ⟨hlo, hhi⟩ := Finset.mem_Ico.mp hu
      exact h.last u hlo hhi
    have hall := h.all
    exact ⟨rfl, by omega⟩
  · rintro ⟨rfl, hone⟩
    have hzero : mapped mem r (Finset.Ico (a + 1) b) lf.frame = 0 := by omega
    refine ⟨le_rfl, hab, hframe, by omega, fun u hvu hub => ?_⟩
    exact count_eq_zero.mp hzero u (Finset.mem_Ico.mpr ⟨hvu, hub⟩)

-- The other pages drop what they drop when the first one has lost its leaf.
theorem later (hab : a < b) (hleaf : Mm.leaf mem r a = some lf)
    (hrest : ∀ u, a < u → u < b → Mm.leaf mem' r u = Mm.leaf mem r u)
    (hrefs : refs managed mem' role' f + (if lf.frame = f then 1 else 0) = refs managed mem role f)
    (hav : a < v) : Drops managed mem role r a b v f ↔ Drops managed mem' role' r (a + 1) b v f := by
  have hcount : mapped mem r (Finset.Ico a b) f =
      (if lf.frame = f then 1 else 0) + mapped mem' r (Finset.Ico (a + 1) b) f := by
    rw [mapped_succ hab, hleaf]
    simp only [Option.map_some, Option.some.injEq]
    refine congrArg _ (count_congr fun u hu => ?_)
    obtain ⟨hlo, hhi⟩ := Finset.mem_Ico.mp hu
    rw [hrest u hlo hhi]
  have hall : refs managed mem role f = mapped mem r (Finset.Ico a b) f ↔
      refs managed mem' role' f = mapped mem' r (Finset.Ico (a + 1) b) f := by omega
  constructor
  · intro h
    refine ⟨hav, h.upper, ?_, hall.mp h.all, fun u hvu hub => ?_⟩
    · rw [hrest v hav h.upper]
      exact h.leaf
    · rw [hrest u (hav.trans hvu) hub]
      exact h.last u hvu hub
  · intro h
    refine ⟨hav.le, h.upper, ?_, hall.mpr h.all, fun u hvu hub => ?_⟩
    · rw [← hrest v hav h.upper]
      exact h.leaf
    · rw [← hrest u (hav.trans hvu) hub]
      exact h.last u hvu hub

theorem not_of_le (hba : b ≤ a) : ¬Drops managed mem role r a b v f := by
  intro h
  have h₁ := h.lower
  have h₂ := h.upper
  omega

end Drops

theorem mapped_le_refs (hr : role r = .root) (hrm : r ∈ managed) {U : Finset Nat} (hU : ∀ u ∈ U, u < UPAGES) :
    mapped mem r U f ≤ refs managed mem role f := by
  have hslice : mapped mem r U f = count ({r} ×ˢ U) (frameAt mem role) f := by
    rw [count_slice]
    refine count_congr fun u _ => ?_
    rw [frameAt_root hr]
  rw [hslice]
  refine count_le_of_subset fun x hx => ?_
  obtain ⟨h₁, h₂⟩ := Finset.mem_product.mp hx
  rw [Finset.mem_singleton] at h₁
  exact Finset.mem_product.mpr ⟨h₁ ▸ hrm, Finset.mem_range.mpr (hU _ h₂)⟩

-- The frames that the pages from `a` to `b` drop fit one behind the other into the free
-- list.
def DropsInTurn (managed : Finset Nat) (mem : Nat → Words) (role : Nat → Role) (r a b : Nat) : Prop :=
  InTurn (fun q => role q = .free) (Drops managed mem role r a b)

namespace DropsInTurn

theorem head (h : DropsInTurn managed mem role r a b) (hab : a < b) (hleaf : leaf mem r a = some lf)
    (hle : mapped mem r (Finset.Ico a b) lf.frame ≤ refs managed mem role lf.frame)
    (hone : refs managed mem role lf.frame = 1) : Fits (fun q => role q = .free) lf.frame := by
  refine (Fits.congr fun q => or_iff_left ?_).mp (h a lf.frame ((Drops.now hab hleaf hle).mpr ⟨rfl, hone⟩))
  rintro ⟨s, hs, hdrop⟩
  exact absurd hdrop.lower (not_le.mpr hs)

-- The frame of the first page goes first, if it goes.
theorem step (hab : a < b) (hleaf : leaf mem r a = some lf)
    (hle : mapped mem r (Finset.Ico a b) lf.frame ≤ refs managed mem role lf.frame)
    (hrest : ∀ u, a < u → u < b → leaf mem' r u = leaf mem r u)
    (hrefs : ∀ g, refs managed mem' role' g + (if lf.frame = g then 1 else 0) = refs managed mem role g)
    (hfree : ∀ q, role' q = .free ↔ role q = .free ∨ q = lf.frame ∧ refs managed mem role lf.frame = 1)
    (hfits : refs managed mem role lf.frame = 1 → Fits (fun q => role q = .free) lf.frame) :
    DropsInTurn managed mem role r a b ↔ DropsInTurn managed mem' role' r (a + 1) b := by
  have hdrops : ∀ v f, Drops managed mem role r a b v f ↔
      (v = a ∧ f = lf.frame ∧ refs managed mem role lf.frame = 1) ∨ Drops managed mem' role' r (a + 1) b v f := by
    intro v f
    by_cases hav : a < v
    · rw [Drops.later hab hleaf hrest (hrefs f) hav, or_iff_right fun hno => absurd hno.1 hav.ne']
    · have hnot : ¬Drops managed mem' role' r (a + 1) b v f := fun h => absurd h.lower (not_le.mpr (by omega))
      rw [or_iff_left hnot]
      constructor
      · intro h
        obtain rfl : v = a := le_antisymm (not_lt.mp hav) h.lower
        exact ⟨rfl, (Drops.now hab hleaf hle).mp h⟩
      · rintro ⟨rfl, hf⟩
        exact (Drops.now hab hleaf hle).mpr hf
  have hfirst : InTurn (fun q => role q = .free) fun v f =>
      v = a ∧ f = lf.frame ∧ refs managed mem role lf.frame = 1 := by
    rw [inTurn_at]
    rintro _ ⟨rfl, hone⟩
    exact hfits hone
  unfold DropsInTurn
  rw [InTurn.congr (fun _ => Iff.rfl) hdrops, inTurn_append, and_iff_right hfirst]
  · refine InTurn.congr (fun q => ?_) fun _ _ => Iff.rfl
    rw [hfree, exists_eq_left]
  · rintro _ _ t q ⟨rfl, _⟩ hq
    exact hq.lower

end DropsInTurn

theorem wpl_unmapLoop (hb : b ≤ UPAGES) {fuel : Nat} :
    ∀ {vm role a}, Rep vm managed role lk → role r = .root → a < b → b - a ≤ fuel →
      (¬DropsInTurn managed vm.mem role r a b → bad .tail) →
      (∀ vm' role', Rep vm' managed role' lk → Unmapped vm vm' role role' r (fun u => a ≤ u ∧ u < b) →
        DropsInTurn managed vm.mem role r a b → Q () vm') →
      Prog.wpl bad (fun o => o ≠ .tail) (unmapLoop r (b * PGSIZE) fuel (a * PGSIZE)) vm Q E := by
  induction fuel with
  | zero =>
      intro vm role a _ _ hab hfuel _ _
      omega
  | succ fuel ih =>
      intro vm role a h hr hab hfuel hbad hq
      have ha : a < UPAGES := by omega
      -- the rest of the loop, when the pages below `c` are done
      have hnext : ∀ vm' role' c, a < c → Rep vm' managed role' lk →
          Unmapped vm vm' role role' r (fun u => a ≤ u ∧ u < c ∧ u < b) →
          (DropsInTurn managed vm.mem role r a b ↔ DropsInTurn managed vm'.mem role' r c b) →
          Prog.wpl bad (fun o => o ≠ .tail) (if c * PGSIZE ≠ 0 ∧ c * PGSIZE < b * PGSIZE then
            unmapLoop r (b * PGSIZE) fuel (c * PGSIZE) else pure ()) vm' Q E := by
        intro vm' role' c hac hrep hun hturn
        by_cases hcb : c < b
        · have hlt : c * PGSIZE ≠ 0 ∧ c * PGSIZE < b * PGSIZE := by
            unfold PGSIZE
            omega
          rw [if_pos hlt]
          have hr' : role' r = .root := (hun.keep r (by rw [hr]; simp)).trans hr
          refine ih hrep hr' hcb (by omega) (fun hno => hbad fun hall => hno (hturn.mp hall))
            fun vm'' role'' hrep' hun' hall => hq _ _ hrep' ?_ (hturn.mpr hall)
          refine (hun.trans hr hun').mono (fun u _ hu => ?_) fun u _ hu => ?_
          · omega
          · left
            omega
        · have hnlt : ¬(c * PGSIZE ≠ 0 ∧ c * PGSIZE < b * PGSIZE) := by
            unfold PGSIZE
            omega
          rw [if_neg hnlt]
          refine Prog.wpl_pure (hq _ _ hrep (hun.mono (fun u _ hu => ?_) fun u _ hu => ?_) (hturn.mpr ?_))
          · omega
          · left
            omega
          · exact InTurn.none fun v f => Drops.not_of_le (not_lt.mp hcb)
      -- pages without a leaf
      have hskip : ∀ c, a < c → (∀ u, a ≤ u → u < c → u < b → leaf vm.mem r u = none) →
          Prog.wpl bad (fun o => o ≠ .tail) (if c * PGSIZE ≠ 0 ∧ c * PGSIZE < b * PGSIZE then
            unmapLoop r (b * PGSIZE) fuel (c * PGSIZE) else pure ()) vm Q E := by
        intro c hac hno
        refine hnext vm role c hac h (Unmapped.refl fun u _ hu => hno u hu.1 hu.2.1 hu.2.2) ?_
        exact InTurn.congr (fun _ => Iff.rfl) fun v f => Drops.skip hac.le hno
      refine Prog.wpl_bind (Prog.wpl_of_wp (getPte_notes (by simp)) ?_)
      refine wp_getPte_find h hr (addr_lt ha) (fun d t hd ht => ?_) fun hnone => ?_
      · rw [page_mul] at hd ht ⊢
        refine Prog.wpl_bind (Prog.wpl_of_wp readWord_notes (wp_readWord.mpr ?_))
        simp only
        rw [← Nat.succ_mul]
        rcases h.entry hr ha hd ht with ⟨h0, hleaf⟩ | ⟨lf, he, hleaf, hvalid, hf⟩
        · rw [h0, if_neg (by simp)]
          refine Prog.wpl_bind (Prog.wpl_pure ?_)
          refine hskip (a + 1) (by omega) fun u hlo hhi _ => ?_
          obtain rfl : u = a := by omega
          exact hleaf
        · rw [he, if_pos (Leaf.pte_ne_zero hvalid)]
          have hrm := h.root_managed hr
          have hle : mapped vm.mem r (Finset.Ico a b) lf.frame ≤ refs managed vm.mem role lf.frame :=
            mapped_le_refs hr hrm fun u hu => (Finset.mem_Ico.mp hu).2.trans_le hb
          refine Prog.wpl_bind (wpl_remove h hr ha hd ht hleaf (fun hone hno => ?_)
            fun vm' role' hrep hun hfree hfits => Prog.wpl_bind (Prog.wpl_pure ?_))
          · exact hbad fun hall => hno (hall.head hab hleaf hle hone)
          · refine hnext vm' role' (a + 1) (by omega) hrep (hun.mono (fun u _ hu => ?_) fun u _ hu => ?_) ?_
            · omega
            · left
              omega
            · refine DropsInTurn.step hab hleaf hle (fun u hau hub => ?_) (fun g => ?_) hfree hfits
              · exact hun.rest r u hr (by omega) fun hno => by omega
              · have hroot : ∀ q, role' q = .root ↔ role q = .root := by
                  intro q
                  have := hun.keep q
                  have := hun.frame q
                  grind
                have hrefs := refs_update hr hrm ha hroot (hun.gone a ha rfl)
                  (fun q u hq hu hne => hun.rest q u hq hu fun hno => by tauto) g
                rw [hleaf] at hrefs
                simpa using hrefs
      · rw [page_mul] at hnone
        refine Prog.wpl_bind (Prog.wpl_pure ?_)
        rw [ROUNDDOWN_next]
        refine hskip ((a / 512 + 1) * 512) (by omega) fun u hlo hhi _ => ?_
        exact leaf_of_tabAt hnone (by omega)

end Loop

end Ucore.Mm
