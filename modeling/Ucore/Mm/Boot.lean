import Ucore.Mm.Setup

namespace Ucore.Mm

open Lib Pmm

variable {vm vm' : VM} {managed : Finset Nat} {l : List Nat} {a b f p perm : Nat}

def bootRole (managed : Finset Nat) (p : Nat) : Role := if p ∈ managed then .free else .other

theorem bootRole_cases (managed : Finset Nat) (p : Nat) :
    p ∈ managed ∧ bootRole managed p = .free ∨ p ∉ managed ∧ bootRole managed p = .other := by
  unfold bootRole
  split_ifs with hp
  · exact Or.inl ⟨hp, rfl⟩
  · exact Or.inr ⟨hp, rfl⟩

-- Behind page_init all pages are free.
theorem VmInv.boot (hl : FreeList vm.area managed managed l) (hheap : vm.heap = []) :
    VmInv vm managed (bootRole managed) fun _ => none := by
  have hcases := bootRole_cases managed
  have hnode : ∀ p, (bootRole managed p).isNode = false := by
    intro p
    rcases hcases p with ⟨_, hp⟩ | ⟨_, hp⟩ <;> rw [hp] <;> rfl
  have hnot : ∀ p ρ, ρ.isNode = true → bootRole managed p ≠ ρ := by
    rintro p ρ hρ rfl
    rw [hnode p] at hρ
    cases hρ
  have hframe : ∀ p, bootRole managed p ≠ .frame := by
    intro p
    rcases hcases p with ⟨_, hp⟩ | ⟨_, hp⟩ <;> rw [hp] <;> simp
  have htree : Tree vm.mem (bootRole managed) := by
    refine ⟨fun {p} hp => ?_, fun hr _ => absurd hr (hnot _ _ rfl), fun hd => absurd hd (hnot _ _ rfl),
      fun hd _ => absurd hd (hnot _ _ rfl), fun ht => absurd ht (hnot _ _ rfl),
      fun ht _ => absurd ht (hnot _ _ rfl)⟩
    rcases hcases p with ⟨hin, _⟩ | ⟨_, ho⟩
    · exact (hl.bound p hin).trans (npages_lt _)
    · exact absurd ho hp
  refine ⟨⟨htree, ⟨managed, l, hl, fun p => ?_⟩, fun p => ?_, fun f hf => absurd hf (hframe f),
    fun f hf => absurd hf (hframe f), fun f hf => absurd hf (hframe f), fun p => ?_⟩, fun q u lf _ _ _ hq =>
    absurd hq (hnot _ _ rfl), fun r => ?_, fun _ _ hs => ?_⟩
  · rcases hcases p with ⟨hin, hp⟩ | ⟨hin, hp⟩ <;> rw [hp] <;> simp [hin]
  · rcases hcases p with ⟨hin, hp⟩ | ⟨hin, hp⟩ <;> rw [hp] <;> simp [hin]
  · rw [hheap]
    rcases hcases p with ⟨_, hp⟩ | ⟨_, hp⟩ <;> rw [hp] <;> simp
  · simp [hnot r .root rfl]
  · cases hs

def emptyMm : MmStruct := ⟨[], none, 0, 0, 0, false⟩

-- Two address spaces, the first with one page
def twoSpaces (perm : Nat) : M (Option (Nat × Nat × Nat)) := do
  match ← setupPgdir emptyMm with
  | none => pure none
  | some a =>
      match ← setupPgdir emptyMm with
      | none => pure none
      | some b =>
          match ← pgdirAllocPage a.pgdir USERBASE perm with
          | none => pure none
          | some f => pure (some (a.pgdir, b.pgdir, f))

theorem twoSpaces_rep (hl : FreeList vm.area managed managed l) (hheap : vm.heap = []) (hperm : perm < 1024)
    (hlog : ∀ o ∈ (twoSpaces perm vm).log, o ≠ .noMem)
    (hres : (twoSpaces perm vm).result = .ok (some (a, b, f), vm')) :
    ∃ role, Rep vm' managed role none ∧ role a = .root ∧ role b = .root ∧ a ≠ b ∧
      (∀ u, u < UPAGES → leaf vm'.mem a u =
        if u = USERBASE / PGSIZE then some ⟨f, perm ||| PTE_V⟩ else none) ∧
      ∀ u, u < UPAGES → leaf vm'.mem b u = none := by
  have hwp : Prog.wp (fun o => o = .noMem) (twoSpaces perm) vm (fun res vm' => ∀ a b f,
      res = some (a, b, f) → ∃ role, Rep vm' managed role none ∧ role a = .root ∧ role b = .root ∧ a ≠ b ∧
        (∀ u, u < UPAGES → leaf vm'.mem a u =
          if u = USERBASE / PGSIZE then some ⟨f, perm ||| PTE_V⟩ else none) ∧
        ∀ u, u < UPAGES → leaf vm'.mem b u = none) fun _ => True := by
    rw [twoSpaces, Prog.wp_bind]
    refine wp_setupPgdir (R := fun _ => True) (VmInv.boot hl hheap) (fun vm₁ role₁ a ha hinv₁ _ => ?_)
      fun hno => absurd rfl hno
    rw [Prog.wp_bind]
    refine wp_setupPgdir (R := fun _ => True) hinv₁ (fun vm₂ role₂ b hb hinv₂ _ => ?_) fun hno => absurd rfl hno
    have hra₁ : role₁ a = .root := by rw [ha.role, if_pos rfl]
    have hab : a ≠ b := by
      rintro rfl
      have := hb.was
      rw [hra₁] at this
      cases this
    have hra₂ : role₂ a = .root := by rw [hb.role, if_neg hab, hra₁]
    have hrb₂ : role₂ b = .root := by rw [hb.role, if_pos rfl]
    have hempty : ∀ c, Function.update (Function.update (fun _ => none) a (some [])) b (some []) c =
        some ([] : List VmaStruct) → ∀ u, u < UPAGES → leaf vm₂.mem c u = none := by
      intro c hc u hu
      cases hlf : leaf vm₂.mem c u with
      | none => rfl
      | some lf =>
          obtain ⟨vma, hvma, _⟩ := (hinv₂.space c [] hc).leaf u lf hu hlf
          cases hvma
    have hla := hempty a (by rw [Function.update_of_ne hab, Function.update_self])
    have hlb := hempty b (by rw [Function.update_self])
    rw [Prog.wp_bind]
    refine wp_pgdirAllocPage hinv₂.rep hra₂ (by decide) hperm (hla _ (by decide)) (by simp)
      (fun vm₃ role₃ f hf hrep₃ hins => ?_) fun vm₃ role₃ hno _ _ _ => absurd rfl hno
    rw [Prog.wp_pure]
    rintro _ _ _ h
    cases h
    have hne : ∀ c, role₂ c = .root → c ≠ f := by
      rintro c hc rfl
      rw [hf] at hc
      cases hc
    have hkeep : ∀ c, role₂ c = .root → role₃ c = .root := fun c hc =>
      (hins.keep c (by rw [hc]; simp) (hne c hc)).trans hc
    refine ⟨role₃, hrep₃, hkeep a hra₂, hkeep b hrb₂, hab, fun u hu => ?_, fun u hu => ?_⟩
    · rw [hins.leaf a u hra₂ hu, hla u hu]
      simp only [true_and]
    · rw [hins.leaf b u hrb₂ hu, if_neg (fun h => hab h.1.symm), hlb u hu]
  exact Prog.wp_ok hwp hlog hres a b f rfl

-- A new page for each of the addresses
def mapPages (pgdir perm : Nat) : List Nat → M Bool
  | [] => pure true
  | la :: las => do
      match ← pgdirAllocPage pgdir la perm with
      | none => pure false
      | some _ => mapPages pgdir perm las

-- An address space with a page at each of the addresses; a page allocated before those is
-- free in the end.
def layout (perm : Nat) (las : List Nat) : M (Option Nat) := do
  match ← setupPgdir emptyMm with
  | none => pure none
  | some mm =>
      match ← allocPages 1 with
      | none => pure none
      | some page => do
          let ok ← mapPages mm.pgdir perm las
          freePages page 1
          pure (if ok then some mm.pgdir else none)

theorem wp_mapPages {bad : Obs → Prop} {E : Halt → Prop} {Q : Bool → VM → Prop} (hbad : bad .noMem) (hperm : perm < 1024) :
    ∀ {las : List Nat} {vm role}, Rep vm managed role none → role a = .root → role p = .held →
      (∀ la ∈ las, la < USERTOP ∧ leaf vm.mem a (la / PGSIZE) = none) →
      las.Pairwise (fun la la' => la / PGSIZE ≠ la' / PGSIZE) →
      (∀ vm' role', Rep vm' managed role' none → role' a = .root → role' p = .held → Q true vm') →
      Prog.wp bad (mapPages a perm las) vm Q E := by
  intro las
  induction las with
  | nil =>
      intro vm role h hr hp _ _ hq
      rw [mapPages, Prog.wp_pure]
      exact hq vm role h hr hp
  | cons la las ih =>
      intro vm role h hr hp hlas hne hq
      obtain ⟨hla, hleaf⟩ := hlas la List.mem_cons_self
      obtain ⟨hfirst, hne⟩ := List.pairwise_cons.mp hne
      rw [mapPages, Prog.wp_bind]
      refine wp_pgdirAllocPage h hr hla hperm hleaf (by simp) (fun vm₁ role₁ f hf h₁ hins => ?_)
        fun _ _ hno _ _ _ => absurd hbad hno
      have hkeep : ∀ q, role q ≠ .free → role₁ q = role q := by
        intro q hq
        refine hins.keep q hq ?_
        rintro rfl
        exact hq hf
      refine ih h₁ ((hkeep a (by rw [hr]; simp)).trans hr) ((hkeep p (by rw [hp]; simp)).trans hp)
        (fun la' hla' => ?_) hne hq
      obtain ⟨hlt, hnone⟩ := hlas la' (List.mem_cons_of_mem _ hla')
      refine ⟨hlt, ?_⟩
      rw [hins.leaf a _ hr (page_lt hlt), if_neg fun he => hfirst la' hla' he.2.symm, hnone]

theorem layout_rep {las : List Nat} (hl : FreeList vm.area managed managed l) (hheap : vm.heap = [])
    (hperm : perm < 1024) (hlas : ∀ la ∈ las, la < USERTOP)
    (hne : las.Pairwise fun la la' => la / PGSIZE ≠ la' / PGSIZE)
    (hlog : ∀ o ∈ (layout perm las vm).log, ¬(o = .noMem ∨ o = .tail))
    (hres : (layout perm las vm).result = .ok (some a, vm')) :
    ∃ role, Rep vm' managed role none ∧ role a = .root := by
  have hwp : Prog.wp (fun o => o = .noMem ∨ o = .tail) (layout perm las) vm (fun res vm' => ∀ a, res = some a →
      ∃ role, Rep vm' managed role none ∧ role a = .root) fun _ => True := by
    rw [layout, Prog.wp_bind]
    refine wp_setupPgdir (R := fun _ => True) (VmInv.boot hl hheap) (fun vm₁ role₁ a ha hinv₁ _ => ?_)
      fun hno => absurd (Or.inl rfl) hno
    have hra₁ : role₁ a = .root := by rw [ha.role, if_pos rfl]
    have hempty : ∀ u, u < UPAGES → leaf vm₁.mem a u = none := by
      intro u hu
      cases hlf : leaf vm₁.mem a u with
      | none => rfl
      | some lf =>
          obtain ⟨vma, hvma, _⟩ := (hinv₁.space a [] (Function.update_self ..)).leaf u lf hu hlf
          cases hvma
    rw [Prog.wp_bind]
    refine hinv₁.rep.allocPage (fun p area hp _ _ _ hrep₂ => ?_) fun hno _ => absurd (Or.inl rfl) hno
    have hap : a ≠ p := by
      rintro rfl
      rw [hra₁] at hp
      cases hp
    simp only [Prog.wp_bind]
    refine wp_mapPages (p := p) (Or.inl rfl) hperm hrep₂ (by rwa [Function.update_of_ne hap])
      (Function.update_self ..) (fun la hla => ⟨hlas la hla, hempty _ (page_lt (hlas la hla))⟩) hne
      fun vm₃ role₃ h₃ hr₃ hp₃ => ?_
    refine h₃.freePage (Or.inl (Or.inr rfl)) (by rw [hp₃]; rfl) (by rw [hp₃]; simp) (by rw [hp₃]; simp)
      (by rw [hp₃]; simp) fun area' _ h₄ => ?_
    rw [Prog.wp_pure, if_pos rfl]
    rintro _ h
    cases h
    exact ⟨_, h₄, by rwa [Function.update_of_ne hap]⟩
  exact Prog.wp_ok hwp hlog hres a rfl

-- A machine with sixteen pages
def sixteenPages : FreeArea := { twoPages with npages := 16, fits := by decide }

def sixteenBooted : FreeArea :=
  ((defaultInitMemmap (defaultInit sixteenPages) 0 16).toOption).getD sixteenPages

def bootVm : VM := ⟨sixteenBooted, fun _ => Words.zero, [], []⟩

theorem sixteen_freeList : ∃ l, FreeList bootVm.area (Finset.Ico 0 (0 + 16)) (Finset.Ico 0 (0 + 16)) l := by
  have hbooted : Booted 0 16 sixteenBooted := ⟨sixteenPages, le_rfl, fun _ _ _ => rfl, rfl⟩
  have hl := hbooted.represents.freeList
  rw [Finset.sdiff_empty] at hl
  exact ⟨_, hl⟩

end Ucore.Mm
