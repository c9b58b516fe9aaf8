import Ucore.Mm.Fault

namespace Ucore.Mm

open Lib Pmm

variable {vm vm' : VM} {managed : Finset Nat} {role role' : Nat → Role} {lk : Option Nat}
  {bad : Obs → Prop} {addr bits d f p q r t u v : Nat} {lf : Leaf} {mm : MmStruct} {E : Halt → Prop}
  {write : Bool}

theorem pde_and {m : Nat} (hm : m < 1024) : pde p &&& m = (PTE_U ||| PTE_V) &&& m :=
  Leaf.pte_and pde_perm hm

theorem page2ppn_range (h : p < vm.area.npages) : ¬(p + nbase < nbase ∨ p + nbase ≥ vm.npage) := by
  have hin : p + nbase < vm.npage := Nat.add_lt_add_right h nbase
  rw [not_or, not_lt, not_le]
  exact ⟨Nat.le_add_left _ _, hin⟩

-- The MMU finds what the tables map.
theorem Rep.walk_eq (h : Rep vm managed role lk) (hr : role r = .root) (haddr : addr < USERTOP) :
    walk vm.mem vm.npage r addr =
      (tabAt vm.mem r (addr / PGSIZE)).map fun t => vm.mem t (pteIx (addr / PGSIZE)) := by
  have hv := page_lt haddr
  have hlow : ¬addr ≥ 2 ^ 38 := by
    unfold USERTOP at haddr
    omega
  have hnode : (PTE_U ||| PTE_V) &&& (PTE_R ||| PTE_W ||| PTE_X) = 0 := by decide
  have hpde : ∀ p, ¬(pde p &&& PTE_V = 0 ∨ pde p &&& (PTE_R ||| PTE_W ||| PTE_X) ≠ 0) := by
    intro p
    rw [not_or, not_not, pde_and (by decide), pde_and (by decide)]
    exact ⟨by decide, hnode⟩
  rw [walk, if_neg hlow]
  simp only [PDX1_eq haddr, PDX0_eq, PTX_eq]
  generalize addr / PGSIZE = v at *
  have hzero : (0 : Nat) &&& PTE_V = 0 ∨ (0 : Nat) &&& (PTE_R ||| PTE_W ||| PTE_X) ≠ 0 := by decide
  rcases h.tree.rootEntry hr (show dirIx v < 511 by have := dirIx_lt hv; omega) with h0 | ⟨_, d, hd, hdir⟩
  · rw [h0, if_pos hzero, tabAt, h0]
    rfl
  · have hb := h.bound (p := d) (by rw [hdir]; simp)
    rw [hd, if_neg (hpde d), PPN_PTE_ADDR_pde (hb.trans (npages_lt _)), if_neg (page2ppn_range hb),
      Nat.add_sub_cancel]
    rcases h.tree.dirEntry hdir (tabIx_lt (v := v)) with h0 | ⟨t, ht, htab⟩
    · rw [h0, if_pos hzero, tabAt, hd, subTable_pde (hb.trans (npages_lt _)), Option.bind_some, h0]
      rfl
    · have hbt := h.bound (p := t) (by rw [htab]; simp)
      rw [ht, if_neg (hpde t), PPN_PTE_ADDR_pde (hbt.trans (npages_lt _)), if_neg (page2ppn_range hbt),
        Nat.add_sub_cancel, (h.tree.tabAt_iff hr hv).mpr ⟨d, hdir, htab⟩]
      rfl

theorem Rep.walk_none (h : Rep vm managed role lk) (hr : role r = .root) (haddr : ¬addr < USERTOP) :
    walk vm.mem vm.npage r addr = none := by
  unfold walk
  split_ifs with hlow
  · rfl
  · have hix : 2 ≤ PDX1 addr ∧ PDX1 addr < 511 := by
      unfold PDX1 PDX1SHIFT
      unfold USERTOP at haddr
      rw [show (0x1FF : Nat) = 2 ^ 9 - 1 from rfl, Nat.and_two_pow_sub_one_eq_mod, Nat.shiftRight_eq_div_pow]
      omega
    rcases h.tree.rootEntry hr hix.2 with h0 | ⟨hi, _⟩
    · simp only [h0]
      exact if_pos (Or.inl (Nat.zero_and _))
    · omega

theorem Rep.translate_eq (h : Rep vm managed role lk) (hr : role r = .root) (hbits : bits < 1024) :
    translate vm r addr bits = if addr < USERTOP then
      (leaf vm.mem r (addr / PGSIZE)).bind fun lf =>
        if lf.perm &&& bits = bits then some lf.frame else none
      else none := by
  unfold translate
  split_ifs with haddr
  · have hv := page_lt haddr
    rw [h.walk_eq hr haddr]
    cases ht : tabAt vm.mem r (addr / PGSIZE) with
    | none =>
        rw [leaf, ht]
        rfl
    | some t =>
        obtain ⟨d, hd, htab⟩ := (h.tree.tabAt_iff hr hv).mp ht
        simp only [Option.map_some]
        rcases h.entry hr hv hd htab with ⟨h0, hleaf⟩ | ⟨lf, he, hleaf, hvalid, hf⟩
        · rw [h0, hleaf, if_pos (Or.inl (Nat.zero_and _))]
          rfl
        · have hb := h.bound (p := lf.frame) (by rw [hf]; simp)
          rw [he, hleaf, Option.bind_some, PPN_PTE_ADDR hvalid.1 (hb.trans (npages_lt _)),
            if_neg (page2ppn_range hb), Nat.add_sub_cancel, Leaf.pte_and hvalid.1 (by decide),
            Leaf.pte_and hvalid.1 hbits]
          by_cases hbit : lf.perm &&& bits = bits
          · rw [if_neg (by simp [hvalid.2, hbit]), if_pos hbit]
          · rw [if_pos (Or.inr hbit), if_neg hbit]
  · rw [h.walk_none hr haddr]

-- The permissions an access needs
theorem access_bits : ∀ perm < 1024,
    (perm &&& (PTE_U ||| PTE_R ||| 0) = PTE_U ||| PTE_R ||| 0 ↔
      perm &&& PTE_U ≠ 0 ∧ perm &&& PTE_R ≠ 0) ∧
    (perm &&& (PTE_U ||| PTE_R ||| PTE_W) = PTE_U ||| PTE_R ||| PTE_W ↔
      perm &&& PTE_U ≠ 0 ∧ perm &&& PTE_R ≠ 0 ∧ perm &&& PTE_W ≠ 0) :=
  forall_low (by decide +kernel)

-- What an access needs of the leaf, without and with the help of do_pgfault
def Grants (write : Bool) (lf : Leaf) : Prop :=
  lf.perm &&& PTE_R ≠ 0 ∧ (write = true → lf.perm &&& PTE_W ≠ 0)

def Accepts (write : Bool) (lf : Leaf) : Prop :=
  lf.perm &&& PTE_R ≠ 0 ∧ (write = true → lf.perm &&& PTE_W ≠ 0 ∨ lf.perm &&& PTE_COW ≠ 0)

theorem PermOk.grants {flags : Nat} (h : PermOk flags lf.perm) :
    lf.perm &&& (PTE_U ||| PTE_R ||| if write then PTE_W else 0) =
      (PTE_U ||| PTE_R ||| if write then PTE_W else 0) ↔ Grants write lf := by
  obtain ⟨hread, hwrite⟩ := access_bits lf.perm h.low
  unfold Grants
  cases write with
  | false =>
      simp only [Bool.false_eq_true, if_false, false_implies, and_true]
      rw [hread]
      exact and_iff_right h.user
  | true =>
      simp only [if_true, true_implies]
      rw [hwrite]
      exact and_iff_right h.user

theorem Accepts.cow (hno : ¬Grants write lf)
    (hacc : Accepts write lf) : write = true ∧ lf.perm &&& PTE_COW ≠ 0 := by
  obtain ⟨hread, hwrite⟩ := hacc
  cases write with
  | false => exact absurd ⟨hread, nofun⟩ hno
  | true =>
      refine ⟨rfl, (hwrite rfl).resolve_left fun hw => hno ⟨hread, fun _ => hw⟩⟩

section Access

variable {Q : Option Nat × MmStruct → VM → Prop}

theorem access_lt : (PTE_U ||| PTE_R ||| if write then PTE_W else 0) < 1024 := by
  cases write <;> decide

-- The translation of an access that the leaf grants, and of one that it does not
theorem translate_grants (h : Rep vm managed role lk) (hr : role r = .root)
    {vmas : List VmaStruct} (hspace : Space vm.mem r vmas) :
    (∀ lf, addr < USERTOP → leaf vm.mem r (addr / PGSIZE) = some lf → Grants write lf →
      translate vm r addr (PTE_U ||| PTE_R ||| if write then PTE_W else 0) = some lf.frame) ∧
    ((∀ lf, addr < USERTOP → leaf vm.mem r (addr / PGSIZE) = some lf → ¬Grants write lf) →
      translate vm r addr (PTE_U ||| PTE_R ||| if write then PTE_W else 0) = none) := by
  rw [h.translate_eq hr access_lt]
  constructor
  · intro lf hlt hleaf hg
    obtain ⟨vma, _, _, hperm⟩ := hspace.leaf _ lf (page_lt hlt) hleaf
    rw [if_pos hlt, hleaf, Option.bind_some, if_pos (hperm.grants.mpr hg)]
  · intro hno
    by_cases hlt : addr < USERTOP
    · rw [if_pos hlt]
      cases hleaf : leaf vm.mem r (addr / PGSIZE) with
      | none => rfl
      | some lf =>
          obtain ⟨vma, _, _, hperm⟩ := hspace.leaf _ lf (page_lt hlt) hleaf
          rw [Option.bind_some, if_neg fun hbit => hno lf hlt hleaf (hperm.grants.mp hbit)]
    · rw [if_neg hlt]

-- The address space behind a write fault
theorem Unshared.space {vmas : List VmaStruct} (h : Unshared vm vm' role role' r v lf f)
    (hr : role r = .root) (hspace : Space vm.mem r vmas) (hleaf : Mm.leaf vm.mem r v = some lf)
    (hcow : lf.perm &&& PTE_COW ≠ 0) (hq : role q = .root) {vmas' : List VmaStruct}
    (hspace' : Space vm.mem q vmas') (hsame : q = r → vmas' = vmas) : Space vm'.mem q vmas' := by
  refine ⟨hspace'.ok, hspace'.sorted, fun u lf' hu hlf' => ?_⟩
  rw [h.leaf q u hq hu] at hlf'
  split_ifs at hlf' with hqu
  · obtain ⟨rfl, rfl⟩ := hqu
    cases hlf'
    obtain ⟨vma, hvma, hcov, hperm⟩ := hspace.leaf u lf hu hleaf
    rw [hsame rfl]
    exact ⟨vma, hvma, hcov, hperm.uncow (hperm.write.mp (Or.inr hcow))⟩
  · exact hspace'.leaf u lf' hu hlf'

theorem wp_access (h : Rep vm managed role none) (hr : role mm.pgdir = .root)
    (hspace : Space vm.mem mm.pgdir mm.mmapList)
    (hcache : ∀ vma, mm.mmapCache = some vma → vma ∈ mm.mmapList)
    (hgrant : ∀ lf, addr < USERTOP → leaf vm.mem mm.pgdir (addr / PGSIZE) = some lf → Grants write lf →
      Q (some lf.frame, mm) vm)
    (hcow : ∀ vm' role' mm' lf f, write = true → SameMm mm mm' → addr < USERTOP →
      leaf vm.mem mm.pgdir (addr / PGSIZE) = some lf → lf.perm &&& PTE_COW ≠ 0 →
      Rep vm' managed role' none → Unshared vm vm' role role' mm.pgdir (addr / PGSIZE) lf f →
      Q (some f, mm') vm')
    (hrefuse : ∀ mm', SameMm mm mm' → (∀ lf, addr < USERTOP →
      leaf vm.mem mm.pgdir (addr / PGSIZE) = some lf → ¬Accepts write lf) → Q (none, mm') vm)
    (hfail : ∀ mm', ¬bad .noMem → SameMm mm mm' → Q (none, mm') vm) :
    Prog.wp bad (access write addr 3 mm) vm Q E := by
  by_cases hg : ∃ lf, addr < USERTOP ∧ leaf vm.mem mm.pgdir (addr / PGSIZE) = some lf ∧ Grants write lf
  · obtain ⟨lf, hlt, hleaf, hg⟩ := hg
    have htr := (translate_grants h hr hspace).1 lf hlt hleaf hg
    rw [access, Prog.wp_bind, Prog.wp_get, htr, Prog.wp_pure]
    exact hgrant lf hlt hleaf hg
  · have hno : ∀ lf, addr < USERTOP → leaf vm.mem mm.pgdir (addr / PGSIZE) = some lf → ¬Grants write lf :=
      fun lf hlt hleaf hgr => hg ⟨lf, hlt, hleaf, hgr⟩
    have htr := (translate_grants h hr hspace).2 hno
    rw [access, Prog.wp_bind, Prog.wp_get, htr, Prog.wp_bind]
    -- a leaf lies in a vma, and no two vmas share an address
    have huniq : ∀ a ∈ mm.mmapList, ∀ b ∈ mm.mmapList, a.contains addr = true → b.contains addr = true → a = b :=
      fun a ha b hb hca hcb => hspace.unique ha hb ((contains_iff (hspace.ok a ha)).mp hca)
        ((contains_iff (hspace.ok b hb)).mp hcb)
    refine wp_doPgfault h hr (fun vma hvma => (hspace.ok vma hvma).top) huniq hcache
      (fun vm' role' mm' lf f hsame hserves hlt hrep _ hun => ?_)
      (fun mm' hsame hnoserve => ?_) fun mm' _ hnomem hsame _ _ _ => ?_
    · have hw := hserves.write
      have hleaf := hserves.leaf
      have hlcow := hserves.cow
      have hwrite : write = true := by
        cases write with
        | false => exact absurd (by decide) hw
        | true => rfl
      have hr' : role' mm.pgdir = .root := (hun.keep (by rw [hr]; simp)).trans hr
      have hspace' := hun.space hr hspace hleaf hlcow hr hspace fun _ => rfl
      have hleaf' : leaf vm'.mem mm.pgdir (addr / PGSIZE) = some ⟨f, uncow lf.perm⟩ := by
        rw [hun.leaf _ _ hr (page_lt hlt), if_pos ⟨rfl, rfl⟩]
      obtain ⟨vma, _, _, hperm⟩ := hspace'.leaf _ _ (page_lt hlt) hleaf'
      have hgr : Grants write ⟨f, uncow lf.perm⟩ := by
        obtain ⟨_, hw', _⟩ := uncow_bits lf.perm (h.tree.leaf_valid hr (page_lt hlt) hleaf).1
        exact ⟨hperm.read.mpr (Or.inr (hperm.write.mp (Or.inl hw'))), fun _ => hw'⟩
      have htr' := (translate_grants hrep hr' hspace').1 _ hlt hleaf' hgr
      simp only [ne_eq, not_true_eq_false, if_false]
      rw [access, Prog.wp_bind, Prog.wp_get, hsame.pgdir, htr', Prog.wp_pure]
      exact hcow vm' role' mm' lf f hwrite hsame hlt hleaf hlcow hrep hun
    · simp only
      rw [if_pos (by decide), Prog.wp_pure]
      refine hrefuse mm' hsame fun lf hlt hleaf hacc => ?_
      obtain ⟨rfl, hc⟩ := hacc.cow (hno lf hlt hleaf)
      obtain ⟨vma, hvma, hcov, hperm⟩ := hspace.leaf _ lf (page_lt hlt) hleaf
      have hin := (contains_iff (hspace.ok vma hvma)).mpr hcov
      exact hnoserve lf ⟨⟨vma, hvma, hin, hperm.write.mp (Or.inr hc)⟩, by decide, hleaf, hc⟩
    · simp only
      rw [if_pos (by decide), Prog.wp_pure]
      exact hfail mm' hnomem hsame

end Access

end Ucore.Mm
