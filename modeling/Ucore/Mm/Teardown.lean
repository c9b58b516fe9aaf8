import Ucore.Mm.Exit
import Ucore.Mm.Task

namespace Ucore.Mm

open Lib Pmm

variable {vm vm' vm'' : VM} {managed free : Finset Nat} {role role' role'' : Nat → Role}
  {lk : Option Nat} {bad : Obs → Prop} {d i j p q r t u start stop : Nat} {vma : VmaStruct}
  {vmas : List VmaStruct} {mm : MmStruct} {E : Halt → Prop}

-- What a vma is made of: whole pages of the user area
structure VmaStruct.Ok (vma : VmaStruct) : Prop where
  start : vma.vmStart % PGSIZE = 0
  stop : vma.vmEnd % PGSIZE = 0
  base : USERBASE ≤ vma.vmStart
  lt : vma.vmStart < vma.vmEnd
  top : vma.vmEnd ≤ USERTOP

-- The pages of a vma, and the page tables they are in
def VmaStruct.Covers (vma : VmaStruct) (u : Nat) : Prop :=
  vma.vmStart ≤ u * PGSIZE ∧ u * PGSIZE < vma.vmEnd

def VmaStruct.Tables (vma : VmaStruct) (J : Nat) : Prop := ∃ u, vma.Covers u ∧ u / 512 = J

namespace VmaStruct.Ok

theorem start_eq (h : vma.Ok) : vma.vmStart / PGSIZE * PGSIZE = vma.vmStart :=
  Nat.div_mul_cancel (Nat.dvd_of_mod_eq_zero h.start)

theorem stop_eq (h : vma.Ok) : vma.vmEnd / PGSIZE * PGSIZE = vma.vmEnd :=
  Nat.div_mul_cancel (Nat.dvd_of_mod_eq_zero h.stop)

theorem covers_iff (h : vma.Ok) : vma.Covers u ↔ vma.vmStart / PGSIZE ≤ u ∧ u < vma.vmEnd / PGSIZE := by
  have hstart := h.start
  have hstop := h.stop
  unfold VmaStruct.Covers PGSIZE at *
  omega

theorem lt_pages (h : vma.Ok) : vma.vmStart / PGSIZE < vma.vmEnd / PGSIZE := by
  have hlt := h.lt
  have hstart := h.start
  have hstop := h.stop
  unfold PGSIZE at *
  omega

theorem stop_le (h : vma.Ok) : vma.vmEnd / PGSIZE ≤ UPAGES := by
  have htop := h.top
  unfold USERTOP at htop
  unfold PGSIZE UPAGES
  omega

theorem lt_upages (h : vma.Ok) (hu : vma.Covers u) : u < UPAGES :=
  lt_of_lt_of_le (h.covers_iff.mp hu).2 h.stop_le

theorem tables_iff (h : vma.Ok) {J : Nat} :
    vma.Tables J ↔ vma.vmStart / PTSIZE ≤ J ∧ J * PTSIZE < vma.vmEnd := by
  have hstart := h.start
  have hstop := h.stop
  have hlt := h.lt
  constructor
  · rintro ⟨u, hu, rfl⟩
    unfold VmaStruct.Covers PGSIZE at hu
    unfold PTSIZE PGSIZE NPTEENTRY
    omega
  · intro hJ
    unfold PTSIZE NPTEENTRY PGSIZE at hJ
    unfold PGSIZE at hstart hstop
    by_cases hfirst : J * 512 * 4096 < vma.vmStart
    · refine ⟨vma.vmStart / 4096, ?_, ?_⟩
      · unfold VmaStruct.Covers PGSIZE
        omega
      · omega
    · refine ⟨J * 512, ?_, ?_⟩
      · unfold VmaStruct.Covers PGSIZE
        omega
      · omega

-- The checks of unmap_range, exit_range and copy_range
theorem checkRange (h : vma.Ok) {Q : Unit → VM → Prop} (hq : Q () vm) :
    Prog.wp bad (checkRange vma.vmStart vma.vmEnd) vm Q E := by
  have haccess : USER_ACCESS vma.vmStart vma.vmEnd = true := decide_eq_true ⟨h.base, h.lt, h.top⟩
  simp only [Mm.checkRange, assertM, h.start, h.stop, haccess, and_self, decide_true, if_true,
    Prog.wp_bind, Prog.wp_pure]
  exact hq

end VmaStruct.Ok

section Ranges

variable {Q : Unit → VM → Prop}

theorem wpl_unmapRange (h : Rep vm managed role lk) (hr : role r = .root) (hok : vma.Ok)
    (hbad : ¬DropsInTurn managed vm.mem role r (vma.vmStart / PGSIZE) (vma.vmEnd / PGSIZE) → bad .tail)
    (hq : ∀ vm' role', Rep vm' managed role' lk → Unmapped vm vm' role role' r vma.Covers →
      DropsInTurn managed vm.mem role r (vma.vmStart / PGSIZE) (vma.vmEnd / PGSIZE) → Q () vm') :
    Prog.wpl bad (fun o => o ≠ .tail) (unmapRange r vma.vmStart vma.vmEnd) vm Q E := by
  have hcov := fun u => hok.covers_iff (u := u)
  refine Prog.wpl_bind (Prog.wpl_of_wp checkRange_notes (hok.checkRange ?_))
  have hfuel : (vma.vmEnd - vma.vmStart) / PGSIZE + 1 ≥ vma.vmEnd / PGSIZE - vma.vmStart / PGSIZE := by
    unfold PGSIZE
    omega
  have hloop := wpl_unmapLoop (Q := Q) (E := E) hok.stop_le h hr hok.lt_pages hfuel hbad
    fun vm' role' hrep hun => hq vm' role' hrep (hun.mono (fun u _ hu => (hcov u).mp hu)
      fun u _ hu => Or.inl ((hcov u).mpr hu))
  rw [hok.start_eq, hok.stop_eq] at hloop
  exact hloop

theorem wp_unmapRange (h : Rep vm managed role lk) (hbad : bad .tail) (hr : role r = .root) (hok : vma.Ok)
    (hq : ∀ vm' role', Rep vm' managed role' lk → Unmapped vm vm' role role' r vma.Covers → Q () vm') :
    Prog.wp bad (unmapRange r vma.vmStart vma.vmEnd) vm Q E :=
  (wpl_unmapRange h hr hok (fun _ => hbad) fun vm' role' hrep hun _ => hq vm' role' hrep hun).1

theorem wpl_exitRange (h : Base vm managed role) (hr : role r = .root) (hok : vma.Ok)
    (hbad : ¬InTurn (fun q => role q = .free) (ExitGives vm.mem role r (vma.vmStart / PTSIZE) vma.vmEnd) →
      bad .tail)
    (hq : ∀ vm', Trimmed vm vm' managed role
        (fun q => ∃ s, ExitGives vm.mem role r (vma.vmStart / PTSIZE) vma.vmEnd s q) →
      InTurn (fun q => role q = .free) (ExitGives vm.mem role r (vma.vmStart / PTSIZE) vma.vmEnd) → Q () vm') :
    Prog.wpl bad (fun o => o ≠ .tail) (exitRange r vma.vmStart vma.vmEnd) vm Q E := by
  refine Prog.wpl_bind (Prog.wpl_of_wp checkRange_notes (hok.checkRange ?_))
  have hd : ROUNDDOWN vma.vmStart PDSIZE = vma.vmStart / PDSIZE * PDSIZE := by
    unfold ROUNDDOWN PDSIZE PTSIZE PGSIZE NPTEENTRY NPDEENTRY
    omega
  have ht : ROUNDDOWN vma.vmStart PTSIZE =
      (vma.vmStart / PDSIZE * 512 + vma.vmStart / PTSIZE % 512) * PTSIZE := by
    unfold ROUNDDOWN PDSIZE PTSIZE PGSIZE NPTEENTRY NPDEENTRY
    omega
  have hJ : vma.vmStart / PDSIZE * 512 + vma.vmStart / PTSIZE % 512 = vma.vmStart / PTSIZE := by
    unfold PDSIZE PTSIZE PGSIZE NPTEENTRY NPDEENTRY
    omega
  have hlt : (vma.vmStart / PDSIZE * 512 + vma.vmStart / PTSIZE % 512) * PTSIZE < vma.vmEnd := by
    rw [hJ]
    exact lt_of_le_of_lt (Nat.div_mul_le_self _ _) hok.lt
  have hturn : InTurn (fun q => role q = .free ∨ False) (ExitGives vm.mem role r (vma.vmStart / PTSIZE) vma.vmEnd) ↔
      InTurn (fun q => role q = .free) (ExitGives vm.mem role r (vma.vmStart / PTSIZE) vma.vmEnd) :=
    InTurn.congr (fun _ => or_iff_left not_false) fun _ _ => Iff.rfl
  rw [hd, ht]
  refine wpl_exitDirs h hr hok.top (Trimmed.refl h) (fun _ _ _ _ => ⟨not_false, fun _ _ _ => not_false⟩)
    (Nat.mod_lt _ (by decide)) hlt (by omega) (fun hno => hbad fun hall => ?_) fun vm' htrim hall => ?_
  · rw [hJ] at hno
    exact hno (hturn.mpr hall)
  · rw [hJ] at htrim hall
    exact hq vm' (htrim.congr fun q => or_iff_right not_false) (hturn.mp hall)

theorem wp_exitRange (h : Rep vm managed role lk) (hbad : bad .tail) (hr : role r = .root)
    (hno : ∀ u, u < UPAGES → leaf vm.mem r u = none) (hok : vma.Ok)
    (hq : ∀ vm' role', Rep vm' managed role' lk → Exited vm vm' role role' r vma.Tables → Q () vm') :
    Prog.wp bad (exitRange r vma.vmStart vma.vmEnd) vm Q E := by
  refine (wpl_exitRange h.base hr hok (fun _ => hbad) fun vm' htrim _ => ?_).1
  obtain ⟨role', hrep, hex⟩ := h.exited hno htrim
  exact hq vm' role' hrep (hex.congr fun J => hok.tables_iff.symm)

end Ranges

-- Whether a directory with the page tables `T` is given back whole by exit_range over the
-- page tables of one vma after the other: the first that finds all its page tables, which
-- frees the directory, has to find no other.
def Tidy (T : Nat → Prop) : List (Nat → Prop) → Prop
  | [] => False
  | V :: rest =>
      ((∃ J, V J) ∧ (∀ J, V J → T J) → ∀ J, T J → V J) ∧
        (¬((∃ J, V J) ∧ ∀ J, V J → T J) → Tidy (fun J => T J ∧ ¬V J) rest)

-- The page tables of directory `i`, and those a vma needs there
def slotTables (role : Nat → Role) (r i J : Nat) : Prop := J / 512 = i ∧ HasTable role r J

def VmaStruct.slot (i : Nat) (vma : VmaStruct) (J : Nat) : Prop := J / 512 = i ∧ vma.Tables J

-- What the exit_range over all vmas leaves of the tables below the root `r`
structure Emptied (vm vm' : VM) (role role' : Nat → Role) (r : Nat) (vmas : List VmaStruct) : Prop where
  keep : ∀ p, (∀ i, role p ≠ .dir r i) → (∀ d i j, role d = .dir r i → role p ≠ .table d j) →
    role' p = role p
  dir : ∀ d i, role d = .dir r i → role' d = .free ∨ role' d = .dir r i
  table : ∀ t d i j, role d = .dir r i → role t = .table d j →
    role' t = .free ∨ role' t = .lost ∧ role' d = .free ∨ role' t = .table d j ∧ role' d = .dir r i
  tidy : ∀ d i, role d = .dir r i →
    (Tidy (slotTables role r i) (vmas.map (VmaStruct.slot i)) ↔
      role' d = .free ∧ ∀ t j, role t = .table d j → role' t = .free)
  mem : ∀ q, (role q).isNode = false → vm'.mem q = vm.mem q
  leaf : ∀ q u, role q = .root → u < UPAGES → leaf vm'.mem q u = leaf vm.mem q u
  npages : vm'.area.npages = vm.area.npages
  heap : vm'.heap = vm.heap
  room : vm'.room = vm.room

namespace Emptied

theorem nil : Emptied vm vm role role r [] := by
  refine ⟨fun _ _ _ => rfl, fun _ _ hd => Or.inr hd, fun t d i j hd ht => Or.inr (Or.inr ⟨ht, hd⟩),
    fun d i hd => ?_, fun _ _ => rfl, fun _ _ _ _ => rfl, rfl, rfl, rfl⟩
  rw [hd]
  constructor
  · exact fun h => h.elim
  · rintro ⟨h, _⟩
    cases h

theorem slot_cut :
    CutDir role r vma.Tables i ↔
      (∃ J, vma.slot i J) ∧ ∀ J, vma.slot i J → slotTables role r i J := by
  constructor
  · rintro ⟨⟨J, hJ, he⟩, hall⟩
    exact ⟨⟨J, he, hJ⟩, fun K hK => ⟨hK.1, hall K hK.2 hK.1⟩⟩
  · rintro ⟨⟨J, he, hJ⟩, hall⟩
    exact ⟨⟨J, hJ, he⟩, fun K hK hKi => (hall K ⟨hKi, hK⟩).2⟩

-- The page tables that are left when the directory is
theorem slot_rest (h : Exited vm vm' role role' r vma.Tables) (hcut : ¬CutDir role r vma.Tables i) :
    slotTables role' r i = fun J => slotTables role r i J ∧ ¬vma.slot i J := by
  funext J
  refine propext ⟨?_, ?_⟩
  · rintro ⟨hJ, d', t, hd', ht⟩
    have hd₀ := h.dir_of hd'
    have ht₀ := h.table_of ht
    refine ⟨⟨hJ, d', t, hd₀, ht₀⟩, fun hV => ?_⟩
    have := h.table t d' _ _ hd₀ ht₀
    rw [show J / 512 * 512 + J % 512 = J by omega, if_pos hV.2, ht] at this
    cases this
  · rintro ⟨⟨hJ, d', t, hd', ht⟩, hV⟩
    refine ⟨hJ, d', t, ?_, ?_⟩
    · rw [h.dir d' _ hd', hJ, if_neg hcut]
    · rw [h.table t d' _ _ hd' ht, show J / 512 * 512 + J % 512 = J by omega,
        if_neg fun hv => hV ⟨hJ, hv⟩, hJ, if_neg hcut]

theorem cons (h : Exited vm vm' role role' r vma.Tables) (h' : Emptied vm' vm'' role' role'' r vmas)
    (htree : Tree vm.mem role) : Emptied vm vm'' role role'' r (vma :: vmas) := by
  have hgone : ∀ p, role' p = .free ∨ role' p = .lost → role'' p = role' p := by
    intro p hp
    refine h'.keep p (fun i => ?_) fun d i j _ => ?_ <;> rcases hp with hp | hp <;> rw [hp] <;> simp
  refine ⟨fun p hp hp' => ?_, fun d i hd => ?_, fun t d i j hd ht => ?_, fun d i hd => ?_, fun q hq => ?_,
    fun q u hq hu => ?_, h'.npages.trans h.npages, h'.heap.trans h.heap, h'.room.trans h.room⟩
  · have h₁ := h.keep p hp hp'
    rw [h'.keep p, h₁]
    · intro i hi
      exact hp i (h.dir_of hi)
    · intro d i j hd ht
      exact hp' d i j (h.dir_of hd) (h.table_of ht)
  · have h₁ := h.dir d i hd
    split_ifs at h₁ with hc
    · exact Or.inl ((hgone d (Or.inl h₁)).trans h₁)
    · exact h'.dir d i h₁
  · have h₁ := h.dir d i hd
    have h₂ := h.table t d i j hd ht
    split_ifs at h₁ h₂ with hc hV
    · exact Or.inl ((hgone t (Or.inl h₂)).trans h₂)
    · exact Or.inr (Or.inl ⟨(hgone t (Or.inr h₂)).trans h₂, (hgone d (Or.inl h₁)).trans h₁⟩)
    · exact Or.inl ((hgone t (Or.inl h₂)).trans h₂)
    · exact h'.table t d i j h₁ h₂
  · have h₁ := h.dir d i hd
    rw [List.map_cons, Tidy, ← slot_cut]
    by_cases hc : CutDir role r vma.Tables i
    · rw [if_pos hc] at h₁
      have hfree : role'' d = .free := (hgone d (Or.inl h₁)).trans h₁
      simp only [hc, not_true_eq_false, false_implies, and_true, true_implies, hfree, true_and]
      constructor
      · intro hsub t j ht
        have hj := (htree.tableUp ht).2.1
        have hV : vma.slot i (i * 512 + j) := by
          refine hsub _ ⟨by omega, d, t, ?_, ?_⟩
          · rw [show (i * 512 + j) / 512 = i by omega]
            exact hd
          · rw [show (i * 512 + j) % 512 = j by omega]
            exact ht
        have h₂ := h.table t d i j hd ht
        rw [if_pos hV.2] at h₂
        exact (hgone t (Or.inl h₂)).trans h₂
      · rintro hall J ⟨hJ, d', t, hd', ht⟩
        rw [hJ] at hd'
        obtain rfl := htree.dir_unique hd' hd
        refine ⟨hJ, by_contra fun hV => ?_⟩
        have h₂ := h.table t d' i _ hd ht
        rw [show i * 512 + J % 512 = J by omega, if_neg hV, if_pos hc] at h₂
        have h₃ := hall t _ ht
        rw [hgone t (Or.inr h₂), h₂] at h₃
        cases h₃
    · rw [if_neg hc] at h₁
      simp only [hc, not_false_eq_true, true_implies, false_implies, true_and]
      have htidy := h'.tidy d i h₁
      rw [slot_rest h hc] at htidy
      rw [htidy]
      refine and_congr_right fun _ => ⟨fun hall t j ht => ?_, fun hall t j ht => hall t j (h.table_of ht)⟩
      have h₂ := h.table t d i j hd ht
      rw [if_neg hc] at h₂
      split_ifs at h₂ with hV
      · exact (hgone t (Or.inl h₂)).trans h₂
      · exact hall t j h₂
  · rw [h'.mem q, h.mem q hq]
    rcases h.cases q with he | ⟨_, he | he⟩
    · rwa [he]
    · rw [he]
      rfl
    · rw [he]
      rfl
  · rw [h'.leaf q u ((h.root_iff q).mpr hq) hu, h.leaf q u hq hu]

end Emptied

section Loops

variable {Q : Unit → VM → Prop}

theorem wp_unmapAll (hbad : bad .tail) : ∀ {vmas : List VmaStruct} {vm role}, Rep vm managed role lk →
    role r = .root → (∀ vma ∈ vmas, vma.Ok) →
    (∀ vm' role', Rep vm' managed role' lk →
      Unmapped vm vm' role role' r (fun u => ∃ vma ∈ vmas, vma.Covers u) → Q () vm') →
    Prog.wp bad (unmapAll r vmas) vm Q E := by
  intro vmas
  induction vmas with
  | nil =>
      intro vm role h _ _ hq
      rw [unmapAll, Prog.wp_pure]
      exact hq vm role h (Unmapped.refl fun u _ hu => by simp at hu)
  | cons vma vmas ih =>
      intro vm role h hr hok hq
      rw [unmapAll, Prog.wp_bind]
      refine wp_unmapRange h hbad hr (hok vma List.mem_cons_self) fun vm₁ role₁ hrep hun => ?_
      have hr₁ : role₁ r = .root := (hun.keep r (by rw [hr]; simp)).trans hr
      refine ih hrep hr₁ (fun w hw => hok w (List.mem_cons_of_mem _ hw)) fun vm' role' hrep' hun' => ?_
      refine hq vm' role' hrep' ((hun.trans hr hun').mono (fun u _ hu => ?_) fun u _ hu => Or.inl ?_)
      · simpa using hu
      · simpa using hu

theorem wp_exitAll (hbad : bad .tail) : ∀ {vmas : List VmaStruct} {vm role}, Rep vm managed role lk →
    role r = .root → (∀ u, u < UPAGES → leaf vm.mem r u = none) → (∀ vma ∈ vmas, vma.Ok) →
    (∀ vm' role', Rep vm' managed role' lk → Emptied vm vm' role role' r vmas → Q () vm') →
    Prog.wp bad (exitAll r vmas) vm Q E := by
  intro vmas
  induction vmas with
  | nil =>
      intro vm role h _ _ _ hq
      rw [exitAll, Prog.wp_pure]
      exact hq vm role h Emptied.nil
  | cons vma vmas ih =>
      intro vm role h hr hno hok hq
      rw [exitAll, Prog.wp_bind]
      refine wp_exitRange h hbad hr hno (hok vma List.mem_cons_self) fun vm₁ role₁ hrep hex => ?_
      refine ih hrep ((hex.root_iff r).mpr hr) (fun u hu => (hex.leaf r u hr hu).trans (hno u hu))
        (fun w hw => hok w (List.mem_cons_of_mem _ hw)) fun vm' role' hrep' hemp => ?_
      exact hq vm' role' hrep' (Emptied.cons hex hemp h.tree)

end Loops

open Classical in
-- The uses of the pages when the root `r` is given back: what is left below it is lost.
noncomputable def dropRoot (role : Nat → Role) (r p : Nat) : Role :=
  if p = r then .free
  else if (∃ i, role p = .dir r i) ∨ ∃ d i j, role d = .dir r i ∧ role p = .table d j then .lost
  else role p

theorem Rep.dropRoot (h : Rep vm managed role lk) (hr : role r = .root)
    (hno : ∀ u, u < UPAGES → leaf vm.mem r u = none) {l : List Nat} {area : FreeArea}
    (hl : FreeList area managed free l) (hfree : ∀ q, q ∈ free ↔ role q = .free ∨ q = r)
    (hu : Unused vm.area area {r}) :
    Rep { vm with area := area } managed (Mm.dropRoot role r) lk := by
  let B : Nat → Prop := fun p => (∃ i, role p = .dir r i) ∨ ∃ d i j, role d = .dir r i ∧ role p = .table d j
  have hself : Mm.dropRoot role r r = .free := if_pos rfl
  have hbelow : ∀ p, p ≠ r → B p → Mm.dropRoot role r p = .lost := fun p hp hB =>
    (if_neg hp).trans (if_pos hB)
  have hsame : ∀ p, p ≠ r → ¬B p → Mm.dropRoot role r p = role p := fun p hp hB =>
    (if_neg hp).trans (if_neg hB)
  have hBr : ∀ p, B p → (role p).isNode ∧ role p ≠ .root := by
    rintro p (⟨i, hp⟩ | ⟨d, i, j, _, hp⟩) <;> rw [hp] <;> exact ⟨rfl, by simp⟩
  have hprune : Prune vm.mem vm.mem role (Mm.dropRoot role r) fun p => p = r ∨ B p := by
    refine ⟨?_, ?_, ?_, ?_, ?_, ?_, ?_, fun _ _ _ _ _ => rfl, fun _ _ _ _ _ _ _ => rfl,
      fun _ _ _ _ _ _ => rfl⟩
    · rintro p (rfl | hp)
      · rw [hr]
        rfl
      · exact (hBr p hp).1
    · rintro p (rfl | hp)
      · rw [hself]
        exact ⟨by simp, rfl⟩
      · rw [hbelow p (fun he => (hBr p hp).2 (by rw [he]; exact hr)) hp]
        exact ⟨by simp, rfl⟩
    · intro p hp
      push Not at hp
      exact hsame p hp.1 hp.2
    · rintro d q i hd (rfl | hq)
      · exact Or.inr (Or.inl ⟨i, hd⟩)
      · exact absurd (h.tree.dirUp hd).1 (hBr q hq).2
    · rintro t d j ht (rfl | hd)
      · obtain ⟨⟨q, i, hd⟩, _⟩ := h.tree.tableUp ht
        rw [hr] at hd
        cases hd
      · rcases hd with ⟨i, hd⟩ | ⟨e, i, k, _, hd⟩
        · exact Or.inr (Or.inr ⟨d, i, j, hd, ht⟩)
        · obtain ⟨⟨q, i, hd'⟩, _⟩ := h.tree.tableUp ht
          rw [hd] at hd'
          cases hd'
    · rintro d q i hd (rfl | hB) hq
      · rw [hr] at hd
        cases hd
      · rcases hB with ⟨i', hd'⟩ | ⟨e, i', k, _, hd'⟩
        · rw [hd'] at hd
          cases hd
          exact absurd (Or.inl rfl) hq
        · rw [hd'] at hd
          cases hd
    · rintro t d j ht (rfl | hB) hq
      · rw [hr] at ht
        cases ht
      · rcases hB with ⟨i', ht'⟩ | ⟨e, i', k, he, ht'⟩
        · rw [ht'] at ht
          cases ht
        · rw [ht'] at ht
          cases ht
          exact absurd (Or.inr (Or.inl ⟨i', he⟩)) hq
  refine (h.prune hprune ?_ hl ?_ ?_ ?_).1
  · rintro t d j k ht (rfl | hB) hk
    · rw [hr] at ht
      cases ht
    · rcases hB with ⟨i', ht'⟩ | ⟨e, i', k', he, ht'⟩
      · rw [ht'] at ht
        cases ht
      · exact h.empty_table hno he ht' hk
  · intro p
    rw [hfree]
    by_cases hp : p = r
    · simp [hp, hself]
    · by_cases hB : B p
      · rw [hbelow p hp hB]
        have := (hBr p hB).1
        have : (Role.free).isNode = false := rfl
        grind
      · rw [hsame p hp hB]
        simp [hp]
  · intro p ρ hρ
    by_cases hp : p = r
    · rw [hp, hself, hr]
      grind
    · by_cases hB : B p
      · rw [hbelow p hp hB]
        have := (hBr p hB).1
        have : (Role.other).isNode = false := rfl
        have : (Role.heap).isNode = false := rfl
        grind
      · rw [hsame p hp hB]
  · intro f hf
    have hfr : f ∉ ({r} : Finset Nat) := by
      rw [Finset.mem_singleton]
      rintro rfl
      rw [hr] at hf
      cases hf
    exact ⟨hu.ref f hfr, hu.lock f hfr⟩

-- What is left of the address space below the root `r`
structure TornDown (vm vm' : VM) (role role' : Nat → Role) (r : Nat) (vmas : List VmaStruct) : Prop where
  keep : ∀ p, p ≠ r → (∀ i, role p ≠ .dir r i) → (∀ d i j, role d = .dir r i → role p ≠ .table d j) →
    role p ≠ .frame → role' p = role p
  root : role' r = .free
  frame : ∀ p, role p = .frame → role' p = .frame ∨ role' p = .free
  dir : ∀ d i, role d = .dir r i → role' d = .free ∨ role' d = .lost
  table : ∀ t d i j, role d = .dir r i → role t = .table d j → role' t = .free ∨ role' t = .lost
  tidy : ∀ d i, role d = .dir r i →
    (Tidy (slotTables role r i) (vmas.map (VmaStruct.slot i)) ↔
      role' d = .free ∧ ∀ t j, role t = .table d j → role' t = .free)
  mem : ∀ q, (role q).isNode = false → vm'.mem q = vm.mem q
  leaf : ∀ q u, role q = .root → q ≠ r → u < UPAGES → leaf vm'.mem q u = leaf vm.mem q u
  npages : vm'.area.npages = vm.area.npages
  heap : vm'.heap = vm.heap
  room : vm'.room = vm.room

theorem Unmapped.node_iff {X : Nat → Prop} {ρ : Role} (h : Unmapped vm vm' role role' r X)
    (hρ : ρ ≠ .frame ∧ ρ ≠ .free) (p : Nat) : role' p = ρ ↔ role p = ρ := by
  have := h.keep p
  have := h.frame p
  grind

theorem Unmapped.slotTables {X : Nat → Prop} (h : Unmapped vm vm' role role' r X) :
    slotTables role' q i = slotTables role q i := by
  have hdir := fun d r i => h.node_iff (ρ := .dir r i) ⟨by simp, by simp⟩ d
  have htab := fun t d j => h.node_iff (ρ := .table d j) ⟨by simp, by simp⟩ t
  funext J
  simp only [Mm.slotTables, HasTable, hdir, htab]

theorem tornDown {X : Nat → Prop} {vm₁ vm₂ : VM} {role₁ role₂ : Nat → Role} {area : FreeArea}
    (hr : role r = .root) (hun : Unmapped vm vm₁ role role₁ r X) (hemp : Emptied vm₁ vm₂ role₁ role₂ r vmas)
    (hnpages : area.npages = vm₂.area.npages) :
    TornDown vm { vm₂ with area := area } role (dropRoot role₂ r) r vmas := by
  have hdir := fun d q i => hun.node_iff (ρ := .dir q i) ⟨by simp, by simp⟩ d
  have htab := fun t d j => hun.node_iff (ρ := .table d j) ⟨by simp, by simp⟩ t
  have hroot := fun q => hun.node_iff (ρ := .root) ⟨by simp, by simp⟩ q
  have hr₁ : role₁ r = .root := (hroot r).mpr hr
  -- pages that are not below the root after the loops
  have hsame : ∀ p, p ≠ r → (∀ i, role₂ p ≠ .dir r i) →
      (∀ d i j, role₂ d = .dir r i → role₂ p ≠ .table d j) → dropRoot role₂ r p = role₂ p := by
    intro p hp hd ht
    refine (if_neg hp).trans (if_neg ?_)
    rintro (⟨i, hpi⟩ | ⟨d, i, j, hdi, hpt⟩)
    · exact hd i hpi
    · exact ht d i j hdi hpt
  have hgone : ∀ p, p ≠ r → role₂ p = .free ∨ role₂ p = .lost → dropRoot role₂ r p = role₂ p := by
    intro p hp hρ
    refine hsame p hp (fun i => ?_) fun d i j _ => ?_ <;> rcases hρ with hρ | hρ <;> rw [hρ] <;> simp
  have hkeep : ∀ p, p ≠ r → (∀ i, role p ≠ .dir r i) →
      (∀ d i j, role d = .dir r i → role p ≠ .table d j) → dropRoot role₂ r p = role₁ p := by
    intro p hp hd ht
    have hp₂ : role₂ p = role₁ p := by
      refine hemp.keep p (fun i hpi => hd i ((hdir p r i).mp hpi)) fun d i j hdi hpt => ?_
      exact ht d i j ((hdir d r i).mp hdi) ((htab p d j).mp hpt)
    rw [hsame p hp, hp₂]
    · intro i
      rw [hp₂, Ne, hdir]
      exact hd i
    · intro d i j hdi
      rw [hp₂, Ne, htab]
      refine ht d i j ((hdir d r i).mp ?_)
      by_cases hdi₁ : role₁ d = .dir r i
      · exact hdi₁
      · by_contra hno
        by_cases hex : (∃ i, role₁ d = .dir r i) ∨ ∃ e i k, role₁ e = .dir r i ∧ role₁ d = .table e k
        · rcases hex with ⟨i', hd'⟩ | ⟨e, i', k, he, hd'⟩
          · have := hemp.dir d i' hd'
            grind
          · have := hemp.table d e i' k he hd'
            grind
        · push Not at hex
          exact hno ((hemp.keep d hex.1 hex.2).symm.trans hdi)
  have hne : ∀ p ρ, role p = ρ → ρ ≠ .root → p ≠ r := by
    rintro p ρ hp hρ rfl
    exact hρ (hp.symm.trans hr)
  have hlost : ∀ d i, role d = .dir r i → role₂ d = .dir r i → dropRoot role₂ r d = .lost :=
    fun d i hd hd₂ => (if_neg (hne d _ hd (by simp))).trans (if_pos (Or.inl ⟨i, hd₂⟩))
  refine ⟨fun p hp hd ht hf => ?_, if_pos rfl, fun p hp => ?_, fun d i hd => ?_, fun t d i j hd ht => ?_,
    fun d i hd => ?_, fun q hq => ?_, fun q u hq hqr hu => ?_, ?_, hemp.heap.trans hun.heap,
    hemp.room.trans hun.room⟩
  · rw [hkeep p hp hd ht, hun.keep p hf]
  · rw [hkeep p (hne p _ hp (by simp)) (fun i => by rw [hp]; simp) fun _ _ _ _ => by rw [hp]; simp]
    exact hun.frame p hp
  · rcases hemp.dir d i ((hdir d r i).mpr hd) with h₂ | h₂
    · exact Or.inl ((hgone d (hne d _ hd (by simp)) (Or.inl h₂)).trans h₂)
    · exact Or.inr (hlost d i hd h₂)
  · rcases hemp.table t d i j ((hdir d r i).mpr hd) ((htab t d j).mpr ht) with h₂ | ⟨h₂, _⟩ | ⟨h₂, hd₂⟩
    · exact Or.inl ((hgone t (hne t _ ht (by simp)) (Or.inl h₂)).trans h₂)
    · exact Or.inr ((hgone t (hne t _ ht (by simp)) (Or.inr h₂)).trans h₂)
    · exact Or.inr ((if_neg (hne t _ ht (by simp))).trans (if_pos (Or.inr ⟨d, i, j, hd₂, h₂⟩)))
  · have hd₁ := (hdir d r i).mpr hd
    rw [← hun.slotTables, hemp.tidy d i hd₁]
    constructor
    · rintro ⟨hd₂, hall⟩
      refine ⟨(hgone d (hne d _ hd (by simp)) (Or.inl hd₂)).trans hd₂, fun t j ht => ?_⟩
      have ht₂ := hall t j ((htab t d j).mpr ht)
      exact (hgone t (hne t _ ht (by simp)) (Or.inl ht₂)).trans ht₂
    · rintro ⟨hd', hall⟩
      have hd₂ : role₂ d = .free := by
        rcases hemp.dir d i hd₁ with h₂ | h₂
        · exact h₂
        · rw [hlost d i hd h₂] at hd'
          cases hd'
      refine ⟨hd₂, fun t j ht₁ => ?_⟩
      have ht := (htab t d j).mp ht₁
      have ht' := hall t j ht
      rcases hemp.table t d i j hd₁ ht₁ with h₂ | ⟨h₂, _⟩ | ⟨_, hd₃⟩
      · exact h₂
      · rw [hgone t (hne t _ ht (by simp)) (Or.inr h₂), h₂] at ht'
        cases ht'
      · rw [hd₂] at hd₃
        cases hd₃
  · show vm₂.mem q = vm.mem q
    rw [hemp.mem q, hun.mem q fun d i j _ ht => by rw [ht] at hq; cases hq]
    by_cases hf : role q = .frame
    · rcases hun.frame q hf with h₁ | h₁ <;> rw [h₁] <;> rfl
    · rwa [hun.keep q hf]
  · show Mm.leaf vm₂.mem q u = Mm.leaf vm.mem q u
    rw [hemp.leaf q u ((hroot q).mpr hq) hu, hun.rest q u hq hu fun hno => hqr hno.1]
  · exact hnpages.trans (hemp.npages.trans hun.npages)

section Mm

variable {Q : Unit → VM → Prop}

theorem wp_putPgdir (h : Rep vm managed role lk) (hbad : bad .tail) (hr : role mm.pgdir = .root)
    (hno : ∀ u, u < UPAGES → leaf vm.mem mm.pgdir u = none)
    (hq : ∀ area, area.npages = vm.area.npages →
      Rep { vm with area := area } managed (dropRoot role mm.pgdir) lk → Q () { vm with area := area }) :
    Prog.wp bad (putPgdir mm) vm Q E := by
  rw [putPgdir, Prog.wp_bind, wp_kva2page (h.bound (by rw [hr]; simp))]
  refine wp_freePage h hbad (by rw [hr]; simp) (by rw [hr]; simp) fun area free l hl hfree hu => ?_
  exact hq area hu.npages (h.dropRoot hr hno hl hfree hu)

-- exit_mmap, put_pgdir and mm_destroy
theorem wp_teardown (h : Rep vm managed role lk) (hbad : bad .tail) (hr : role mm.pgdir = .root)
    (hcount : mm.mmCount = 0) (hok : ∀ vma ∈ mm.mmapList, vma.Ok)
    (hcov : ∀ u lf, u < UPAGES → leaf vm.mem mm.pgdir u = some lf → ∃ vma ∈ mm.mmapList, vma.Covers u)
    (hq : ∀ vm' role', Rep vm' managed role' lk →
      TornDown vm vm' role role' mm.pgdir mm.mmapList → Q () vm') :
    Prog.wp bad (teardown mm) vm Q E := by
  simp only [teardown, exitMmap, mmDestroy, hcount, assertM, decide_true, if_true, Prog.wp_bind,
    Prog.wp_pure]
  refine wp_unmapAll hbad h hr hok fun vm₁ role₁ hrep₁ hun => ?_
  have hr₁ : role₁ mm.pgdir = .root := (hun.keep _ (by rw [hr]; simp)).trans hr
  have hno : ∀ u, u < UPAGES → leaf vm₁.mem mm.pgdir u = none := by
    intro u hu
    by_cases hc : ∃ vma ∈ mm.mmapList, vma.Covers u
    · exact hun.gone u hu hc
    · rw [hun.rest _ u hr hu fun hx => hc hx.2]
      exact Option.eq_none_iff_forall_ne_some.mpr fun lf hlf => hc (hcov u lf hu hlf)
  refine wp_exitAll hbad hrep₁ hr₁ hno hok fun vm₂ role₂ hrep₂ hemp => ?_
  have hr₂ : role₂ mm.pgdir = .root := by
    rw [hemp.keep _ (fun i => by rw [hr₁]; simp) fun _ _ _ _ => by rw [hr₁]; simp, hr₁]
  have hno₂ : ∀ u, u < UPAGES → leaf vm₂.mem mm.pgdir u = none :=
    fun u hu => (hemp.leaf _ u hr₁ hu).trans (hno u hu)
  refine wp_putPgdir hrep₂ hbad hr₂ hno₂ fun area harea hrep => ?_
  exact hq _ _ hrep (tornDown hr hun hemp harea)

end Mm

end Ucore.Mm
