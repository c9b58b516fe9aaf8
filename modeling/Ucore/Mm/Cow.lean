import Ucore.Mm.Boot

namespace Ucore.Mm

open Lib Pmm

variable {vm vm' : VM} {managed : Finset Nat} {role role' : Nat → Role} {addr errorCode f g p q r u v : Nat}
  {lf : Leaf} {mm mm' : MmStruct}

-- A served fault leaves the page of the process writable in a frame `f` of its own. The old
-- frame `lf.frame` is that frame or stays in use with one reference less.
structure PageServed (vm vm' : VM) (managed : Finset Nat) (role : Nat → Role) (r v : Nat) (lf : Leaf)
    (f : Nat) (role' : Nat → Role) : Prop where
  rep : Rep vm' managed role' none
  page : leaf vm'.mem r v = some ⟨f, clearBit lf.perm PTE_COW ||| PTE_W⟩
  one : (vm'.area.pages f).ref = 1
  copy : vm'.mem f = vm.mem lf.frame
  leaf : ∀ q u, role q = .root → u < UPAGES → ¬(q = r ∧ u = v) → leaf vm'.mem q u = leaf vm.mem q u
  mem : ∀ g, role g = .frame → vm'.mem g = vm.mem g
  use : ∀ p, role' p = if p = f then .frame else role p
  old : f = lf.frame ∧ (vm.area.pages lf.frame).ref = 1 ∨ role f = .free ∧
    1 < (vm.area.pages lf.frame).ref ∧ (vm'.area.pages lf.frame).ref = (vm.area.pages lf.frame).ref - 1
  ref : ∀ g, role g = .frame → g ≠ lf.frame → (vm'.area.pages g).ref = (vm.area.pages g).ref

theorem Unshared.served (h : Rep vm managed role none) (hr : role r = .root) (hv : v < UPAGES)
    (hleaf : Mm.leaf vm.mem r v = some lf) (hrep : Rep vm' managed role' none)
    (hmoved : Moved managed vm.mem role lf f) (hun : Unshared vm vm' role role' r v lf f) :
    PageServed vm vm' managed role r v lf f role' := by
  have hf : role lf.frame = .frame := h.tree.leaf_frame hr hv hleaf
  have hpage : Mm.leaf vm'.mem r v = some ⟨f, uncow lf.perm⟩ := by
    rw [hun.leaf r v hr hv, if_pos ⟨rfl, rfl⟩]
  have hroot : ∀ q, role' q = .root ↔ role q = .root := by
    intro q
    rw [hun.use]
    split_ifs with hq
    · rcases hun.was with hwas | hwas <;> simp [hq, hwas]
    · rfl
  have hother : ∀ q u, role q = .root → u < UPAGES → q ≠ r ∨ u ≠ v →
      Mm.leaf vm'.mem q u = Mm.leaf vm.mem q u := by
    intro q u hq hu hne
    rw [hun.leaf q u hq hu, if_neg (by tauto)]
  have hrefs := refs_update hr (h.root_managed hr) hv hroot hpage hother
  simp only [hleaf, Option.map_some, Option.some.injEq] at hrefs
  have hframe : ∀ g, role g = .frame → role' g = .frame := fun g hg =>
    (hun.keep (by rw [hg]; simp)).trans hg
  have hnew : role' f = .frame := by rw [hun.use, if_pos rfl]
  have hfree : role f = .free → f ≠ lf.frame := by
    rintro hfr rfl
    rw [hf] at hfr
    cases hfr
  refine ⟨hrep, hpage, ?_, hun.copy, fun q u hq hu hne => hother q u hq hu (by tauto), fun g hg => ?_,
    hun.use, ?_, fun g hg hne => ?_⟩
  · have := hrefs f
    rw [hrep.ref f hnew]
    rcases hmoved with ⟨rfl, hone⟩ | ⟨hfr, _⟩
    · simp only [if_true] at this
      omega
    · have hzero := h.refs_zero (f := f) (by rw [hfr]; simp)
      rw [if_neg (hfree hfr).symm, if_pos rfl, hzero] at this
      omega
  · exact hun.mem g (by rw [hg]; simp) (by rw [hg]; rfl)
  · have := hrefs lf.frame
    have href := h.ref lf.frame hf
    have href' := hrep.ref lf.frame (hframe _ hf)
    rcases hmoved with ⟨rfl, hone⟩ | ⟨hfr, hmany⟩
    · exact Or.inl ⟨rfl, by omega⟩
    · rw [if_pos rfl, if_neg (hfree hfr)] at this
      exact Or.inr ⟨hfr, by omega, by omega⟩
  · have := hrefs g
    have hgf : f ≠ g := by
      rintro rfl
      rcases hmoved with ⟨he, _⟩ | ⟨hfr, _⟩
      · exact hne he
      · rw [hg] at hfr
        cases hfr
    rw [if_neg (Ne.symm hne), if_neg hgf] at this
    rw [hrep.ref g (hframe g hg), h.ref g hg]
    omega

-- do_pgfault returns 0 exactly on a write to a copy-on-write page of a writable vma that
-- nobody else maps or that can be copied; else it leaves no trace. It runs out of memory
-- only with no free page left: page_insert has its tables and does not fail.
theorem do_pgfault_exact (errorCode addr : Nat) (h : Rep vm managed role none) (hr : role mm.pgdir = .root) (hmm : mm.Sorted)
    (htop : ∀ vma ∈ mm.mmapList, vma.vmEnd ≤ USERTOP) :
    ∃ ret mm' vm', (doPgfault mm errorCode addr vm).result = .ok ((ret, mm'), vm') ∧ SameMm mm mm' ∧
      (ret = 0 ↔ ∃ lf, Serves vm mm errorCode addr lf ∧
        ((vm.area.pages lf.frame).ref = 1 ∨ ∃ p, role p = .free)) ∧
      (ret = 0 → ∀ lf, leaf vm.mem mm.pgdir (addr / PGSIZE) = some lf →
        ∃ f role', PageServed vm vm' managed role mm.pgdir (addr / PGSIZE) lf f role') ∧
      (ret ≠ 0 → vm' = vm ∧ (ret = -E_INVAL ∨ ret = -E_NO_MEM ∧ ∀ p, role p ≠ .free)) := by
  have hwp : Prog.wp (fun _ => False) (doPgfault mm errorCode addr) vm (fun res vm' => SameMm mm res.2 ∧
      (res.1 = 0 ∧ (∃ lf role' f, Serves vm mm errorCode addr lf ∧ addr < USERTOP ∧
          Rep vm' managed role' none ∧ Moved managed vm.mem role lf f ∧
          Unshared vm vm' role role' mm.pgdir (addr / PGSIZE) lf f) ∨
        res.1 = -E_INVAL ∧ vm' = vm ∧ (∀ lf, ¬Serves vm mm errorCode addr lf) ∨
        res.1 = -E_NO_MEM ∧ vm' = vm ∧ (∀ q, role q ≠ .free) ∧ ∃ lf, Serves vm mm errorCode addr lf ∧
          1 < refs managed vm.mem role lf.frame)) fun _ => False := by
    refine wp_doPgfault h hr htop (fun a ha b hb hca hcb => hmm.unique ha hb hca hcb) hmm.cache
      (fun vm' role' mm' lf f hsame hserves hlt hrep hmoved hun => ?_) (fun mm' hsame hno => ?_)
      fun mm' lf _ hsame hserves hmany hall => ?_
    · exact ⟨hsame, Or.inl ⟨rfl, lf, role', f, hserves, hlt, hrep, hmoved, hun⟩⟩
    · exact ⟨hsame, Or.inr (Or.inl ⟨rfl, rfl, hno⟩)⟩
    · exact ⟨hsame, Or.inr (Or.inr ⟨rfl, rfl, hall, lf, hserves, hmany⟩)⟩
  rcases Prog.wp_total hwp with ⟨⟨ret, mm'⟩, vm', hrun, hsame, hcases⟩ | ⟨_, _, hfalse⟩
  · refine ⟨ret, mm', vm', hrun, hsame, ?_⟩
    rcases hcases with ⟨hret, lf, role', f, hserves, hlt, hrep, hmoved, hun⟩ | ⟨hret, rfl, hno⟩ |
      ⟨hret, rfl, hall, lf, hserves, hmany⟩
    · have hret : ret = 0 := hret
      have hv := page_lt hlt
      have hserved := hun.served h hr hv hserves.leaf hrep hmoved
      refine ⟨⟨fun _ => ⟨lf, hserves, ?_⟩, fun _ => hret⟩, fun _ lf' hlf' => ?_, fun hne => absurd hret hne⟩
      · rcases hserved.old with ⟨_, hone⟩ | ⟨hfree, _⟩
        · exact Or.inl hone
        · exact Or.inr ⟨f, hfree⟩
      · obtain rfl := Option.some.inj (hserves.leaf.symm.trans hlf')
        exact ⟨f, role', hserved⟩
    · have hret : ret = -E_INVAL := hret
      have hne : ret ≠ 0 := by
        rw [hret]
        decide
      exact ⟨⟨fun h0 => absurd h0 hne, fun ⟨lf, hserves, _⟩ => absurd hserves (hno lf)⟩,
        fun h0 => absurd h0 hne, fun _ => ⟨rfl, Or.inl hret⟩⟩
    · have hret : ret = -E_NO_MEM := hret
      have hne : ret ≠ 0 := by
        rw [hret]
        decide
      refine ⟨⟨fun h0 => absurd h0 hne, fun ⟨lf', hserves', hroom⟩ => ?_⟩, fun h0 => absurd h0 hne,
        fun _ => ⟨rfl, Or.inr ⟨hret, hall⟩⟩⟩
      obtain rfl := Option.some.inj (hserves.leaf.symm.trans hserves'.leaf)
      rcases hroom with hone | ⟨p, hp⟩
      · have hlt : addr < USERTOP := by
          obtain ⟨vma, hvma, hin, _⟩ := hserves.vma
          exact lt_of_lt_of_le (of_decide_eq_true hin : vma.vmStart ≤ addr ∧ addr < vma.vmEnd).2 (htop vma hvma)
        have := h.ref lf.frame (h.tree.leaf_frame hr (page_lt hlt) hserves.leaf)
        omega
      · exact absurd hp (hall p)
  · exact absurd hfalse not_false

-- A copy-on-write page that one process has
def cowPerm : Nat := PTE_U ||| PTE_R ||| PTE_COW

def cowVm : VM := ((twoSpaces cowPerm bootVm).result.toOption.map Prod.snd).getD bootVm

theorem cowVm_rep : ∃ role, Rep cowVm (Finset.Ico 0 (0 + 16)) role none ∧ role 0 = .root ∧
    leaf cowVm.mem 0 (USERBASE / PGSIZE) = some ⟨2, cowPerm ||| PTE_V⟩ := by
  obtain ⟨l, hl⟩ := sixteen_freeList
  have hlog : (twoSpaces cowPerm bootVm).log = [.pte 0 USERBASE 0, .fence USERBASE] := rfl
  obtain ⟨role, hrep, hr, _, _, hleaf, _⟩ := twoSpaces_rep (b := 1) (f := 2) hl rfl (by decide)
    (by rw [hlog]; decide) (show (twoSpaces cowPerm bootVm).result = .ok (some (0, 1, 2), cowVm) from rfl)
  exact ⟨role, hrep, hr, (hleaf _ (by decide)).trans (if_pos rfl)⟩

def cowMm : MmStruct := ⟨[⟨USERBASE, USERBASE + PGSIZE, VM_READ ||| VM_WRITE⟩], none, 0, 1, 1, false⟩

theorem do_pgfault_exact_write :
    ∃ mm' vm', (doPgfault cowMm PF_WRITE USERBASE cowVm).result = .ok ((0, mm'), vm') := by
  obtain ⟨role, hrep, hr, hleaf⟩ := cowVm_rep
  have hmm : cowMm.Sorted := ⟨by decide, List.pairwise_singleton _ _, nofun⟩
  obtain ⟨ret, mm', vm', hrun, _, hiff, _⟩ := do_pgfault_exact PF_WRITE USERBASE
    hrep hr hmm (by decide)
  obtain rfl := hiff.mpr ⟨_, ⟨⟨_, List.mem_singleton.mpr rfl, by decide, by decide⟩, by decide, hleaf,
    by decide⟩, Or.inl rfl⟩
  exact ⟨mm', vm', hrun⟩

end Ucore.Mm
