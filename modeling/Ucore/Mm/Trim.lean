import Ucore.Mm.Insert

namespace Ucore.Mm

open Lib Pmm

variable {vm vm' vm₀ : VM} {managed : Finset Nat} {role : Nat → Role} {bad : Obs → Prop}
  {a d i j k p q r s t stop : Nat} {V F G : Nat → Prop} {D : Nat → Nat → Prop} {mem : Nat → Words}
  {words : Words} {E : Halt → Prop}

-- No entry of the page table is valid.
def Empty (words : Words) : Prop := ∀ k, k < NPTEENTRY → words k &&& PTE_V = 0

-- The page tables that a range from the table `a` on touches; they are counted through the
-- directories.
def Within (a stop J : Nat) : Prop := a ≤ J ∧ J * PTSIZE < stop

-- In directory `d`, the `i`th one, all the page tables among `V` are there.
def Filled (role : Nat → Role) (V : Nat → Prop) (d i : Nat) : Prop :=
  ∀ j < 512, V (i * 512 + j) → ∃ t, role t = .table d j

-- Nothing is left in the directory when its empty page tables among `V` are gone.
def Bare (mem : Nat → Words) (role : Nat → Role) (V : Nat → Prop) (d i : Nat) : Prop :=
  ∀ t j, role t = .table d j → V (i * 512 + j) ∧ Empty (mem t)

-- The empty page tables among `V` in the directory `d`, and when their turn comes
def TableGives (mem : Nat → Words) (role : Nat → Role) (d i : Nat) (V : Nat → Prop) (s p : Nat) : Prop :=
  ∃ j, s = 2 * (i * 512 + j) ∧ role p = .table d j ∧ V (i * 512 + j) ∧ Empty (mem p)

-- The same below the root `r`: behind its page tables a directory that they reach goes as
-- well if `D` holds of it.
inductive Gives (mem : Nat → Words) (role : Nat → Role) (r : Nat) (V : Nat → Prop) (D : Nat → Nat → Prop) :
    Nat → Nat → Prop
  | table {d i s t : Nat} (hd : role d = .dir r i) (ht : TableGives mem role d i V s t) : Gives mem role r V D s t
  | dir {d i : Nat} (hd : role d = .dir r i) (hV : ∃ j < 512, V (i * 512 + j)) (hD : D d i) :
      Gives mem role r V D (2 * (i * 512 + 511) + 1) d

namespace Gives

theorem table_iff (hd : role d = .dir r i) (ht : role t = .table d j) :
    (∃ s, Gives mem role r V D s t) ↔ V (i * 512 + j) ∧ Empty (mem t) := by
  constructor
  · rintro ⟨_, hgives⟩
    cases hgives with
    | table hd' hgives =>
        obtain ⟨k, _, ht', hV, he⟩ := hgives
        rw [ht] at ht'
        cases ht'
        rw [hd] at hd'
        cases hd'
        exact ⟨hV, he⟩
    | dir hd' _ _ =>
        rw [ht] at hd'
        cases hd'
  · rintro ⟨hV, he⟩
    exact ⟨_, .table hd ⟨j, rfl, ht, hV, he⟩⟩

theorem dir_iff (hd : role d = .dir r i) :
    (∃ s, Gives mem role r V D s d) ↔ (∃ j < 512, V (i * 512 + j)) ∧ D d i := by
  constructor
  · rintro ⟨_, hgives⟩
    cases hgives with
    | table _ hgives =>
        obtain ⟨k, _, ht, _⟩ := hgives
        rw [hd] at ht
        cases ht
    | dir hd' hV hD =>
        rw [hd] at hd'
        cases hd'
        exact ⟨hV, hD⟩
  · rintro ⟨hV, hD⟩
    exact ⟨_, .dir hd hV hD⟩

theorem congr {D' : Nat → Nat → Prop}
    (h : ∀ d i, role d = .dir r i → (∃ j < 512, V (i * 512 + j)) → (D d i ↔ D' d i)) :
    Gives mem role r V D s p ↔ Gives mem role r V D' s p := by
  constructor
  · intro hgives
    cases hgives with
    | table hd ht => exact .table hd ht
    | dir hd hV hD => exact .dir hd hV ((h _ _ hd hV).mp hD)
  · intro hgives
    cases hgives with
    | table hd ht => exact .table hd ht
    | dir hd hV hD => exact .dir hd hV ((h _ _ hd hV).mpr hD)

-- What is given back is a table below the root.
theorem below (h : Gives mem role r V D s p) :
    (∃ i, role p = .dir r i) ∨ ∃ d i j, role d = .dir r i ∧ role p = .table d j := by
  cases h with
  | table hd ht =>
      obtain ⟨k, _, ht, _⟩ := ht
      exact Or.inr ⟨_, _, k, hd, ht⟩
  | dir hd _ _ => exact Or.inl ⟨_, hd⟩

end Gives

-- exit_range looks only at the part of a directory that its range reaches.
def ExitGives (mem : Nat → Words) (role : Nat → Role) (r a stop : Nat) : Nat → Nat → Prop :=
  Gives mem role r (Within a stop) (Filled role (Within a stop))

-- The tables `F` are free, and their entries cleared; nothing else has changed.
structure Trimmed (vm vm' : VM) (managed : Finset Nat) (role : Nat → Role) (F : Nat → Prop) : Prop where
  gone : ∀ p q k, F p → role p = .dir q k ∨ role p = .table q k → vm'.mem q k = 0
  rest : ∀ q k, (∀ p, F p → role p ≠ .dir q k ∧ role p ≠ .table q k) → vm'.mem q k = vm.mem q k
  list : ∃ free l, FreeList vm'.area managed free l ∧ ∀ p, p ∈ free ↔ role p = .free ∨ F p
  npages : vm'.area.npages = vm.area.npages
  ref : ∀ p, ¬F p → (vm'.area.pages p).ref = (vm.area.pages p).ref
  lock : ∀ p, ¬F p → (vm'.area.pages p).pageLock = (vm.area.pages p).pageLock
  heap : vm'.heap = vm.heap
  room : vm'.room = vm.room

namespace Trimmed

theorem refl (h : Base vm managed role) : Trimmed vm vm managed role fun _ => False := by
  obtain ⟨free, l, hl, hfree⟩ := h.list
  refine ⟨fun _ _ _ hF => hF.elim, fun _ _ _ => rfl, ⟨free, l, hl, fun p => ?_⟩, rfl, fun _ _ => rfl,
    fun _ _ => rfl, rfl, rfl⟩
  rw [hfree, or_false]

theorem congr (h : Trimmed vm vm' managed role F) (hF : ∀ p, F p ↔ G p) : Trimmed vm vm' managed role G := by
  obtain rfl : F = G := funext fun p => propext (hF p)
  exact h

-- The entry of a directory is cleared only with the directory.
theorem entry_iff (h : Trimmed vm vm' managed role F) (htree : Tree vm.mem role) (hd : role d = .dir r i) :
    vm'.mem r i = 0 ↔ F d := by
  obtain ⟨hr, _, he⟩ := htree.dirUp hd
  constructor
  · intro h0
    by_contra hno
    have hsame : vm'.mem r i = vm.mem r i := by
      refine h.rest r i fun p hFp => ⟨fun hp => ?_, fun hp => ?_⟩
      · rw [htree.dir_unique hp hd] at hFp
        exact hno hFp
      · obtain ⟨q, k, hup⟩ := (htree.tableUp hp).1
        rw [hr] at hup
        cases hup
    rw [h0, he] at hsame
    exact pde_ne_zero hsame.symm
  · intro hFd
    exact h.gone d r i hFd (Or.inl hd)

-- A directory is empty when all its page tables are gone.
theorem empty_iff (h : Trimmed vm vm' managed role F) (htree : Tree vm.mem role) (hd : role d = .dir r i) :
    Empty (vm'.mem d) ↔ ∀ t j, role t = .table d j → F t := by
  have hnot : ∀ p k, role p ≠ .dir d k := by
    intro p k hp
    rw [(htree.dirUp hp).1] at hd
    cases hd
  constructor
  · intro he t j ht
    by_contra hno
    obtain ⟨_, hj, hentry⟩ := htree.tableUp ht
    have hsame : vm'.mem d j = vm.mem d j := by
      refine h.rest d j fun p hFp => ⟨hnot p j, fun hp => ?_⟩
      rw [htree.table_unique hp ht] at hFp
      exact hno hFp
    have hzero := he j hj
    rw [hsame, hentry] at hzero
    exact pde_valid hzero
  · intro hall k hk
    rcases htree.dirEntry hd hk with h0 | ⟨t, _, ht⟩
    · rw [h.rest d k fun p _ => ⟨hnot p k, fun hp => ?_⟩, h0, Nat.zero_and]
      have hentry := (htree.tableUp hp).2.2
      rw [h0] at hentry
      exact pde_ne_zero hentry.symm
    · rw [h.gone t d k (hall t k ht) (Or.inr ht), Nat.zero_and]

-- One more table is given back.
theorem give (h : Trimmed vm₀ vm managed role F) (hp : role p = .dir q k ∨ role p = .table q k)
    {area : FreeArea} {free : Finset Nat} {l : List Nat} (hl : FreeList area managed free l)
    (hfree : ∀ p', p' ∈ free ↔ (role p' = .free ∨ F p') ∨ p' = p) (hu : Unused vm.area area {p}) :
    Trimmed vm₀ { vm with area := area, mem := putEntry vm.mem q k 0 } managed role fun p' => F p' ∨ p' = p := by
  have hentry : ∀ q' k', putEntry vm.mem q k 0 q' k' = if q' = q ∧ k' = k then 0 else vm.mem q' k' := by
    intro q' k'
    by_cases hq : q' = q
    · subst hq
      rw [putEntry, Function.update_self, Function.update_apply]
      simp
    · rw [putEntry_of_ne hq, if_neg fun hno => hq hno.1]
  have hnot : ∀ p', ¬(F p' ∨ p' = p) → ¬F p' ∧ p' ∉ ({p} : Finset Nat) := by
    intro p' hno
    rw [Finset.mem_singleton]
    exact not_or.mp hno
  refine ⟨fun p' q' k' hF hp' => ?_, fun q' k' hno => ?_, ⟨free, l, hl, fun p' => ?_⟩, hu.npages.trans h.npages,
    fun p' hno => ?_, fun p' hno => ?_, h.heap, h.room⟩
  · refine (hentry q' k').trans ?_
    split_ifs with hqk
    · rfl
    · rcases hF with hF | rfl
      · exact h.gone p' q' k' hF hp'
      · exfalso
        rcases hp with hp | hp <;> rw [hp] at hp' <;> rcases hp' with hp' | hp' <;> cases hp' <;> exact hqk ⟨rfl, rfl⟩
  · have hqk : ¬(q' = q ∧ k' = k) := by
      rintro ⟨rfl, rfl⟩
      have hp' := hno p (Or.inr rfl)
      exact hp.elim hp'.1 hp'.2
    refine (hentry q' k').trans ((if_neg hqk).trans ?_)
    exact h.rest q' k' fun p' hF => hno p' (Or.inl hF)
  · rw [hfree, or_assoc]
  · obtain ⟨hF, hin⟩ := hnot p' hno
    rw [hu.ref p' hin, h.ref p' hF]
  · obtain ⟨hF, hin⟩ := hnot p' hno
    rw [hu.lock p' hin, h.lock p' hF]

-- free_page of a table, before its entry is cleared
theorem freePage (h : Base vm₀ managed role) (htrim : Trimmed vm₀ vm managed role F)
    (hp : role p = .dir q k ∨ role p = .table q k) (hF : ¬F p) {Q : Unit → VM → Prop}
    (hbad : ¬Fits (fun p' => role p' = .free ∨ F p') p → bad .tail)
    (hq : ∀ area, Fits (fun p' => role p' = .free ∨ F p') p →
      Trimmed vm₀ { vm with area := area, mem := putEntry vm.mem q k 0 } managed role (fun p' => F p' ∨ p' = p) →
      Q () { vm with area := area }) :
    Prog.wpl bad (fun o => o ≠ .tail) (freePages p 1) vm Q E := by
  obtain ⟨free, l, hl, hfree⟩ := htrim.list
  have hone : Finset.Ico p (p + 1) = {p} := by
    ext p'
    rw [Finset.mem_Ico, Finset.mem_singleton]
    omega
  have hnot : role p ≠ .free ∧ role p ≠ .other := by
    rcases hp with hp | hp <;> rw [hp] <;> simp
  have hp' : p ∉ free := by
    rw [hfree]
    exact fun hno => hno.elim hnot.1 hF
  have hfits : InOrder l p ↔ Fits (fun p' => role p' = .free ∨ F p') p :=
    (inOrder_iff hl hp').trans (Fits.congr hfree)
  refine wpl_freePages hl Nat.one_pos ?_ ?_ (fun hno => hbad fun hin => hno (hfits.mpr hin))
    fun area l' hin hl' hu => ?_
  · rw [hone]
    exact Finset.singleton_subset_iff.mpr (h.mem_managed hnot.2)
  · rw [hone]
    exact Finset.disjoint_singleton_right.mpr hp'
  · rw [hone] at hl' hu
    refine hq area (hfits.mp hin) (htrim.give hp hl' (fun p' => ?_) hu)
    rw [Finset.mem_union, Finset.mem_singleton, hfree]

end Trimmed

section Tables

variable {Q : Bool → VM → Prop}

theorem PDX0_table (hj : j < 512) : PDX0 ((i * 512 + j) * PTSIZE) = j := by
  rw [PDX0_eq]
  unfold tabIx PTSIZE PGSIZE NPTEENTRY
  omega

theorem next_table : (i * 512 + j) * PTSIZE + PTSIZE = (i * 512 + (j + 1)) * PTSIZE := by
  rw [← Nat.add_assoc, Nat.succ_mul]

theorem within_succ : Within a stop k ↔ k = a ∧ a * PTSIZE < stop ∨ Within (a + 1) stop k := by
  unfold Within
  constructor
  · rintro ⟨hle, hlt⟩
    rcases Nat.eq_or_lt_of_le hle with rfl | hak
    · exact Or.inl ⟨rfl, hlt⟩
    · exact Or.inr ⟨hak, hlt⟩
  · rintro (⟨rfl, hlt⟩ | ⟨hle, hlt⟩)
    · exact ⟨le_rfl, hlt⟩
    · exact ⟨by omega, hlt⟩

-- The page table `j` goes before those behind it.
theorem tableGives_succ (hlt : (i * 512 + j) * PTSIZE < stop) :
    TableGives mem role d i (Within (i * 512 + j) stop) s p ↔
      (s = 2 * (i * 512 + j) ∧ role p = .table d j ∧ Empty (mem p)) ∨
        TableGives mem role d i (Within (i * 512 + (j + 1)) stop) s p := by
  rw [← Nat.add_assoc]
  constructor
  · rintro ⟨k, hs, hp, hV, he⟩
    rcases within_succ.mp hV with ⟨hk, _⟩ | hV
    · obtain rfl : k = j := by omega
      exact Or.inl ⟨hs, hp, he⟩
    · exact Or.inr ⟨k, hs, hp, hV, he⟩
  · rintro (⟨hs, hp, he⟩ | ⟨k, hs, hp, hV, he⟩)
    · exact ⟨j, hs, hp, ⟨le_rfl, hlt⟩, he⟩
    · exact ⟨k, hs, hp, within_succ.mpr (Or.inr hV), he⟩

-- Behind the last page table of the directory nothing more is given back.
theorem not_tableGives (h : Tree mem role) (hend : ¬(j + 1 < 512 ∧ (i * 512 + (j + 1)) * PTSIZE < stop)) :
    ¬TableGives mem role d i (Within (i * 512 + (j + 1)) stop) s p := by
  rintro ⟨k, _, hp, ⟨hle, hlt⟩, _⟩
  have hk := (h.tableUp hp).2.1
  refine hend ⟨by omega, lt_of_le_of_lt (Nat.mul_le_mul_right PTSIZE hle) hlt⟩

theorem filled_succ (hj : j < 512) (hlt : (i * 512 + j) * PTSIZE < stop) :
    Filled role (Within (i * 512 + j) stop) d i ↔
      (∃ t, role t = .table d j) ∧ Filled role (Within (i * 512 + (j + 1)) stop) d i := by
  rw [← Nat.add_assoc]
  constructor
  · intro h
    exact ⟨h j hj ⟨le_rfl, hlt⟩, fun k hk hV => h k hk (within_succ.mpr (Or.inr hV))⟩
  · rintro ⟨hex, h⟩ k hk hV
    rcases within_succ.mp hV with ⟨hkj, _⟩ | hV
    · obtain rfl : k = j := by omega
      exact hex
    · exact h k hk hV

-- The loop over the page tables of the directory `d`, from the page table `j` on
theorem wpl_exitTables (h : Base vm₀ managed role) (hd : role d = .dir r i) {fuel : Nat} :
    ∀ {vm F j b}, Trimmed vm₀ vm managed role F → (∀ t k, role t = .table d k → j ≤ k → ¬F t) →
      j < 512 → 512 - j ≤ fuel → (i * 512 + j) * PTSIZE < stop →
      (¬InTurn (fun q => role q = .free ∨ F q)
        (TableGives vm₀.mem role d i (Within (i * 512 + j) stop)) → bad .tail) →
      (∀ vm' b', Trimmed vm₀ vm' managed role
          (fun q => F q ∨ ∃ s, TableGives vm₀.mem role d i (Within (i * 512 + j) stop) s q) →
        (b' = true ↔ b = true ∧ Filled role (Within (i * 512 + j) stop) d i) →
        InTurn (fun q => role q = .free ∨ F q) (TableGives vm₀.mem role d i (Within (i * 512 + j) stop)) →
        Q b' vm') →
      Prog.wpl bad (fun o => o ≠ .tail) (exitTables d (i * PDSIZE) stop fuel ((i * 512 + j) * PTSIZE) b) vm Q E := by
  induction fuel with
  | zero =>
      intro vm F j b _ _ hj hfuel _ _ _
      omega
  | succ fuel ih =>
      intro vm F j b htrim hF hj hfuel hlt hbad hq
      -- the rest of the loop, when the page table `j` has been treated
      have hnext : ∀ vm₁ F₁ b₁, Trimmed vm₀ vm₁ managed role F₁ →
          (∀ q, F₁ q ↔ F q ∨ role q = .table d j ∧ Empty (vm₀.mem q)) →
          (b₁ = true ↔ b = true ∧ ∃ t, role t = .table d j) →
          (∀ t, role t = .table d j ∧ Empty (vm₀.mem t) → Fits (fun q => role q = .free ∨ F q) t) →
          Prog.wpl bad (fun o => o ≠ .tail) (if (i * 512 + (j + 1)) * PTSIZE ≠ 0 ∧
              (i * 512 + (j + 1)) * PTSIZE < i * PDSIZE + PDSIZE ∧
              (i * 512 + (j + 1)) * PTSIZE < stop then
            exitTables d (i * PDSIZE) stop fuel ((i * 512 + (j + 1)) * PTSIZE) b₁
            else pure b₁) vm₁ Q E := by
        intro vm₁ F₁ b₁ htrim₁ hF₁ hb₁ hfits
        have hsplit : ∀ s p, TableGives vm₀.mem role d i (Within (i * 512 + j) stop) s p ↔
            (s = 2 * (i * 512 + j) ∧ role p = .table d j ∧ Empty (vm₀.mem p)) ∨
              TableGives vm₀.mem role d i (Within (i * 512 + (j + 1)) stop) s p :=
          fun _ _ => tableGives_succ hlt
        have hgiven : ∀ q, (F₁ q ∨ ∃ s, TableGives vm₀.mem role d i (Within (i * 512 + (j + 1)) stop) s q) ↔
            F q ∨ ∃ s, TableGives vm₀.mem role d i (Within (i * 512 + j) stop) s q := by
          intro q
          simp only [hF₁, hsplit, exists_or, exists_eq_left, or_assoc]
        have hturn : InTurn (fun q => role q = .free ∨ F q)
              (TableGives vm₀.mem role d i (Within (i * 512 + j) stop)) ↔
            InTurn (fun q => role q = .free ∨ F₁ q)
              (TableGives vm₀.mem role d i (Within (i * 512 + (j + 1)) stop)) := by
          rw [InTurn.congr (fun _ => Iff.rfl) hsplit, inTurn_append, and_iff_right (inTurn_at.mpr hfits)]
          · refine InTurn.congr (fun q => ?_) fun _ _ => Iff.rfl
            rw [hF₁, exists_eq_left, or_assoc]
          · rintro s q t q' ⟨rfl, _⟩ ⟨k, rfl, _, ⟨hle, _⟩, _⟩
            omega
        have hflag : (b₁ = true ∧ Filled role (Within (i * 512 + (j + 1)) stop) d i) ↔
            b = true ∧ Filled role (Within (i * 512 + j) stop) d i := by
          rw [hb₁, filled_succ hj hlt, and_assoc]
        by_cases hmore : j + 1 < 512 ∧ (i * 512 + (j + 1)) * PTSIZE < stop
        · rw [if_pos]
          · refine ih htrim₁ (fun t k ht hk hFt => ?_) hmore.1 (by omega) hmore.2
              (fun hno => hbad fun hall => hno (hturn.mp hall)) fun vm' b' htrim' hb' hall => ?_
            · rcases (hF₁ t).mp hFt with hFt | ⟨ht', _⟩
              · exact hF t k ht (by omega) hFt
              · rw [ht] at ht'
                cases ht'
                omega
            · exact hq vm' b' (htrim'.congr hgiven) (hb'.trans hflag) (hturn.mpr hall)
          · have hj' := hmore.1
            refine ⟨?_, ?_, hmore.2⟩
            · unfold PTSIZE PGSIZE NPTEENTRY
              omega
            · unfold PDSIZE PTSIZE PGSIZE NPTEENTRY NPDEENTRY
              omega
        · have hnone : ∀ s q, ¬TableGives vm₀.mem role d i (Within (i * 512 + (j + 1)) stop) s q :=
            fun s q => not_tableGives h.tree hmore
          have hfilled : Filled role (Within (i * 512 + (j + 1)) stop) d i := by
            rintro k hk ⟨hle, hlt'⟩
            exact absurd ⟨by omega, lt_of_le_of_lt (Nat.mul_le_mul_right PTSIZE hle) hlt'⟩ hmore
          rw [if_neg]
          · refine Prog.wpl_pure (hq vm₁ b₁ (htrim₁.congr fun q => ?_) ?_ (hturn.mpr (InTurn.none hnone)))
            · rw [← hgiven]
              simp only [hnone, exists_false, or_false]
            · rw [← hflag]
              exact (and_iff_left hfilled).symm
          · rintro ⟨_, hlt', hstop⟩
            refine hmore ⟨?_, hstop⟩
            unfold PDSIZE PTSIZE PGSIZE NPTEENTRY NPDEENTRY at hlt'
            omega
      have hroot := (h.tree.dirUp hd).1
      have hread : vm.mem d j = vm₀.mem d j := by
        refine htrim.rest d j fun p hFp => ⟨fun hp => ?_, fun hp => hF p j hp le_rfl hFp⟩
        rw [(h.tree.dirUp hp).1] at hd
        cases hd
      simp only [exitTables, PDX0_table hj, next_table]
      refine Prog.wpl_bind (Prog.wpl_of_wp readWord_notes (wp_readWord.mpr ?_))
      rw [hread]
      rcases h.tree.dirEntry hd hj with h0 | ⟨t, he, ht⟩
      · have hnot : ∀ t, role t ≠ .table d j := by
          intro t ht
          have hentry := (h.tree.tableUp ht).2.2
          rw [h0] at hentry
          exact pde_ne_zero hentry.symm
        rw [h0, Nat.zero_and, if_neg (not_not.mpr rfl)]
        refine Prog.wpl_bind (Prog.wpl_pure (hnext vm F false htrim (fun q => ?_) ?_ fun t ht => ?_))
        · simp [hnot]
        · simp [hnot]
        · exact absurd ht.1 (hnot t)
      · have hb : t < vm.area.npages := by
          rw [htrim.npages]
          exact h.bound (by rw [ht]; simp)
        have hone : ∀ q, role q = .table d j ↔ q = t := by
          intro q
          constructor
          · exact fun hq => h.tree.table_unique hq ht
          · rintro rfl
            exact ht
        have hmem : ∀ k, vm.mem t k = vm₀.mem t k := by
          intro k
          refine htrim.rest t k fun p _ => ⟨fun hp => ?_, fun hp => ?_⟩
          · rw [(h.tree.dirUp hp).1] at ht
            cases ht
          · obtain ⟨r', i', hup⟩ := (h.tree.tableUp hp).1
            rw [hup] at ht
            cases ht
        have hall : ((List.range NPTEENTRY).all fun k => vm.mem t k &&& PTE_V = 0) = true ↔ Empty (vm₀.mem t) := by
          rw [List.all_eq_true]
          simp only [List.mem_range, decide_eq_true_eq, hmem]
          rfl
        rw [he, if_pos pde_valid]
        refine Prog.wpl_bind (Prog.wpl_of_wp pde2page_notes ((wp_pde2page hb).mpr ?_))
        refine Prog.wpl_bind (Prog.wpl_of_wp page2kva_notes ((wp_page2kva hb).mpr ?_))
        refine Prog.wpl_bind (Prog.wpl_get ?_)
        by_cases hempty : Empty (vm₀.mem t)
        · rw [if_pos (hall.mpr hempty)]
          refine Prog.wpl_bind (Prog.wpl_of_wp pde2page_notes ((wp_pde2page hb).mpr ?_))
          refine Prog.wpl_bind (htrim.freePage h (Or.inr ht) (hF t j ht le_rfl) (fun hno => hbad fun hturn => ?_)
            fun area hfits htrim' => ?_)
          · refine hno ((Fits.congr fun q => or_iff_left ?_).mp
              (hturn (2 * (i * 512 + j)) t ⟨j, rfl, ht, ⟨le_rfl, hlt⟩, hempty⟩))
            rintro ⟨s, hs, k, rfl, _, ⟨hle, _⟩, _⟩
            omega
          · refine Prog.wpl_bind (Prog.wpl_of_wp writeWord_notes (wp_writeWord.mpr ?_))
            refine Prog.wpl_bind (Prog.wpl_pure ?_)
            refine hnext _ _ b htrim' (fun q => ?_) ?_ fun q hq => ?_
            · rw [hone]
              constructor
              · rintro (hq | rfl)
                · exact Or.inl hq
                · exact Or.inr ⟨rfl, hempty⟩
              · rintro (hq | ⟨rfl, _⟩)
                · exact Or.inl hq
                · exact Or.inr rfl
            · exact (and_iff_left ⟨t, ht⟩).symm
            · rw [(hone q).mp hq.1]
              exact hfits
        · rw [if_neg fun hno => hempty (hall.mp hno)]
          refine Prog.wpl_bind (Prog.wpl_pure (hnext vm F b htrim (fun q => ?_) ?_ fun q hq => ?_))
          · rw [hone]
            refine (or_iff_left ?_).symm
            rintro ⟨rfl, hq⟩
            exact hempty hq
          · exact (and_iff_left ⟨t, ht⟩).symm
          · rw [(hone q).mp hq.1] at hq
            exact absurd hq.2 hempty

end Tables

section Dirs

variable {Q : Unit → VM → Prop}

theorem PDX1_dir (hi : i < 2) : PDX1 (i * PDSIZE) = i := by
  have hla : i * PDSIZE < USERTOP := by
    unfold PDSIZE PTSIZE PGSIZE NPTEENTRY NPDEENTRY USERTOP
    omega
  rw [PDX1_eq hla]
  unfold dirIx PDSIZE PTSIZE PGSIZE NPTEENTRY NPDEENTRY
  omega

theorem next_dir : i * PDSIZE + PDSIZE = (i + 1) * PDSIZE := (Nat.succ_mul i PDSIZE).symm

theorem dir_table : i * PDSIZE = (i * 512 + 0) * PTSIZE := by
  unfold PDSIZE PTSIZE PGSIZE NPTEENTRY NPDEENTRY
  omega

-- From a later directory on it does not matter where the range began.
theorem within_later (hj : j < 512) (hi : i < k) :
    Within (i * 512 + j) stop (k * 512 + p) ↔ Within ((i + 1) * 512 + 0) stop (k * 512 + p) := by
  unfold Within
  refine and_congr_left fun _ => ?_
  omega

theorem filled_later (hj : j < 512) (hi : i < k) :
    Filled role (Within (i * 512 + j) stop) d k ↔ Filled role (Within ((i + 1) * 512 + 0) stop) d k := by
  unfold Filled
  simp only [within_later hj hi]

-- What exit_range gives back in directory `i`
def DirGives (mem : Nat → Words) (role : Nat → Role) (r a stop i s p : Nat) : Prop :=
  (∃ d, role d = .dir r i ∧ TableGives mem role d i (Within a stop) s p) ∨
    s = 2 * (i * 512 + 511) + 1 ∧ role p = .dir r i ∧ Filled role (Within a stop) p i

theorem exitGives_le {D : Nat → Nat → Prop} (h : Gives mem role r (Within a stop) D s p) : 2 * a ≤ s := by
  cases h with
  | table hd ht =>
      obtain ⟨k, rfl, _, ⟨hle, _⟩, _⟩ := ht
      omega
  | dir hd hV hD =>
      obtain ⟨k, hk, hle, _⟩ := hV
      omega

theorem tableGives_lt (h : Tree mem role) (ht : TableGives mem role d i V s p) : s < 2 * (i * 512 + 511) + 1 := by
  obtain ⟨k, rfl, hp, _⟩ := ht
  have hk := (h.tableUp hp).2.1
  omega

-- Directory `i` goes with its page tables before those behind it.
theorem exitGives_succ (h : Tree mem role) (hj : j < 512) (hlt : (i * 512 + j) * PTSIZE < stop) :
    ExitGives mem role r (i * 512 + j) stop s p ↔
      DirGives mem role r (i * 512 + j) stop i s p ∨ ExitGives mem role r ((i + 1) * 512 + 0) stop s p := by
  have hle : ∀ i' k, k < 512 → Within (i * 512 + j) stop (i' * 512 + k) → i ≤ i' := by
    rintro i' k hk ⟨hle, _⟩
    omega
  have hlater : ∀ i' k, k < 512 → Within ((i + 1) * 512 + 0) stop (i' * 512 + k) → i < i' := by
    rintro i' k hk ⟨hle, _⟩
    omega
  constructor
  · intro hgives
    cases hgives with
    | @table d i' _ _ hd ht =>
        obtain ⟨k, hs, hp, hV, he⟩ := ht
        rcases Nat.eq_or_lt_of_le (hle i' k (h.tableUp hp).2.1 hV) with rfl | hlt'
        · exact Or.inl (Or.inl ⟨d, hd, k, hs, hp, hV, he⟩)
        · exact Or.inr (.table hd ⟨k, hs, hp, (within_later hj hlt').mp hV, he⟩)
    | @dir _ i' hd hV hD =>
        obtain ⟨k, hk, hV⟩ := hV
        rcases Nat.eq_or_lt_of_le (hle i' k hk hV) with rfl | hlt'
        · exact Or.inl (Or.inr ⟨rfl, hd, hD⟩)
        · exact Or.inr (.dir hd ⟨k, hk, (within_later hj hlt').mp hV⟩ ((filled_later hj hlt').mp hD))
  · rintro ((⟨d, hd, ht⟩ | ⟨rfl, hd, hD⟩) | hgives)
    · exact .table hd ht
    · exact .dir hd ⟨j, hj, le_rfl, hlt⟩ hD
    · cases hgives with
      | @table d i' _ _ hd ht =>
          obtain ⟨k, hs, hp, hV, he⟩ := ht
          have hi' := hlater i' k (h.tableUp hp).2.1 hV
          exact .table hd ⟨k, hs, hp, (within_later hj hi').mpr hV, he⟩
      | @dir _ i' hd hV hD =>
          obtain ⟨k, hk, hV⟩ := hV
          have hi' := hlater i' k hk hV
          exact .dir hd ⟨k, hk, (within_later hj hi').mpr hV⟩ ((filled_later hj hi').mpr hD)

-- Behind the range nothing is given back.
theorem not_exitGives (hend : stop ≤ (i + 1) * PDSIZE) : ¬ExitGives mem role r ((i + 1) * 512 + 0) stop s p := by
  have hnot : ∀ J, ¬Within ((i + 1) * 512 + 0) stop J := by
    rintro J ⟨hle, hlt⟩
    rw [dir_table] at hend
    exact absurd (lt_of_le_of_lt (Nat.mul_le_mul_right PTSIZE hle) hlt) (not_lt.mpr hend)
  intro hgives
  cases hgives with
  | table hd ht =>
      obtain ⟨k, _, _, hV, _⟩ := ht
      exact hnot _ hV
  | dir hd hV hD =>
      obtain ⟨k, _, hV⟩ := hV
      exact hnot _ hV

-- The directory itself goes behind its page tables.
theorem dirGives_inTurn (a stop : Nat) (free : Nat → Prop) (h : Tree mem role) (hd : role d = .dir r i) :
    InTurn free (DirGives mem role r a stop i) ↔
      InTurn free (TableGives mem role d i (Within a stop)) ∧ (Filled role (Within a stop) d i →
        Fits (fun q => free q ∨ ∃ s, TableGives mem role d i (Within a stop) s q) d) := by
  have hone : ∀ q, role q = .dir r i ↔ q = d := by
    intro q
    constructor
    · exact fun hq => h.dir_unique hq hd
    · rintro rfl
      exact hd
  have hsplit : ∀ s p, DirGives mem role r a stop i s p ↔ TableGives mem role d i (Within a stop) s p ∨
      s = 2 * (i * 512 + 511) + 1 ∧ p = d ∧ Filled role (Within a stop) p i := by
    intro s p
    unfold DirGives
    simp only [hone, exists_eq_left]
  rw [InTurn.congr (fun _ => Iff.rfl) hsplit, inTurn_append, inTurn_at]
  · refine and_congr_right fun _ => ?_
    constructor
    · exact fun hall hf => hall d ⟨rfl, hf⟩
    · rintro hall q ⟨rfl, hf⟩
      exact hall hf
  · rintro s q t q' hq ⟨rfl, _⟩
    exact tableGives_lt h hq

-- The loop over the directories, from the page table `j` of directory `i` on
theorem wpl_exitDirs (h : Base vm₀ managed role) (hr : role r = .root) (hstop : stop ≤ USERTOP) {fuel : Nat} :
    ∀ {vm F i j}, Trimmed vm₀ vm managed role F →
      (∀ d k, role d = .dir r k → i ≤ k → ¬F d ∧ ∀ t j, role t = .table d j → ¬F t) →
      j < 512 → (i * 512 + j) * PTSIZE < stop → stop / PDSIZE + 1 ≤ i + fuel →
      (¬InTurn (fun q => role q = .free ∨ F q) (ExitGives vm₀.mem role r (i * 512 + j) stop) → bad .tail) →
      (∀ vm', Trimmed vm₀ vm' managed role
          (fun q => F q ∨ ∃ s, ExitGives vm₀.mem role r (i * 512 + j) stop s q) →
        InTurn (fun q => role q = .free ∨ F q) (ExitGives vm₀.mem role r (i * 512 + j) stop) → Q () vm') →
      Prog.wpl bad (fun o => o ≠ .tail) (exitDirs r stop fuel (i * PDSIZE) ((i * 512 + j) * PTSIZE)) vm Q E := by
  induction fuel with
  | zero =>
      intro vm F i j _ _ hj hlt hfuel _ _
      unfold PDSIZE PTSIZE PGSIZE NPTEENTRY NPDEENTRY at *
      omega
  | succ fuel ih =>
      intro vm F i j htrim hF hj hlt hfuel hbad hq
      have hi : i < 2 := by
        unfold PTSIZE PGSIZE NPTEENTRY at hlt
        unfold USERTOP at hstop
        omega
      have hturn : ∀ F₁ : Nat → Prop,
          (∀ q, F₁ q ↔ F q ∨ ∃ s, DirGives vm₀.mem role r (i * 512 + j) stop i s q) →
          (InTurn (fun q => role q = .free ∨ F q) (ExitGives vm₀.mem role r (i * 512 + j) stop) ↔
            InTurn (fun q => role q = .free ∨ F q) (DirGives vm₀.mem role r (i * 512 + j) stop i) ∧
              InTurn (fun q => role q = .free ∨ F₁ q) (ExitGives vm₀.mem role r ((i + 1) * 512 + 0) stop)) := by
        intro F₁ hF₁
        rw [InTurn.congr (fun _ => Iff.rfl) fun s p => exitGives_succ h.tree hj hlt, inTurn_append]
        · refine and_congr_right fun _ => InTurn.congr (fun q => ?_) fun _ _ => Iff.rfl
          rw [hF₁, or_assoc]
        · rintro s q t q' (⟨d, _, hq⟩ | ⟨rfl, _⟩) hq'
          · have hs := tableGives_lt h.tree hq
            have ht := exitGives_le hq'
            omega
          · have ht := exitGives_le hq'
            omega
      -- the rest of the loop, behind directory `i`
      have hnext : ∀ vm₁ F₁, Trimmed vm₀ vm₁ managed role F₁ →
          (∀ q, F₁ q ↔ F q ∨ ∃ s, DirGives vm₀.mem role r (i * 512 + j) stop i s q) →
          InTurn (fun q => role q = .free ∨ F q) (DirGives vm₀.mem role r (i * 512 + j) stop i) →
          Prog.wpl bad (fun o => o ≠ .tail) (if (i + 1) * PDSIZE ≠ 0 ∧ (i + 1) * PDSIZE < stop then
            exitDirs r stop fuel ((i + 1) * PDSIZE) ((i + 1) * PDSIZE) else pure ()) vm₁ Q E := by
        intro vm₁ F₁ htrim₁ hF₁ hdir
        have hall := (hturn F₁ hF₁).trans (and_iff_right hdir)
        have hgiven : ∀ q, (F₁ q ∨ ∃ s, ExitGives vm₀.mem role r ((i + 1) * 512 + 0) stop s q) ↔
            F q ∨ ∃ s, ExitGives vm₀.mem role r (i * 512 + j) stop s q := by
          intro q
          simp only [hF₁, exitGives_succ h.tree hj hlt, exists_or, or_assoc]
        by_cases hmore : (i + 1) * PDSIZE < stop
        · rw [if_pos]
          · have hlt' : ((i + 1) * 512 + 0) * PTSIZE < stop := by
              rw [← dir_table]
              exact hmore
            have hstep := ih htrim₁ (fun d k hd hk => ?_) (by decide) hlt' (by omega)
              (fun hno => hbad fun hin => hno (hall.mp hin)) fun vm' htrim' hin =>
                hq vm' (htrim'.congr hgiven) (hall.mpr hin)
            · rw [← dir_table] at hstep
              exact hstep
            · obtain ⟨hFd, hFt⟩ := hF d k hd (by omega)
              refine ⟨fun hFd₁ => ?_, fun t j' ht hFt₁ => ?_⟩
              · rcases (hF₁ d).mp hFd₁ with hFd₁ | ⟨_, ⟨_, _, _, _, hno, _⟩ | ⟨_, hno, _⟩⟩
                · exact hFd hFd₁
                · rw [hd] at hno
                  cases hno
                · rw [hd] at hno
                  cases hno
                  omega
              · rcases (hF₁ t).mp hFt₁ with hFt₁ | ⟨_, ⟨d', hd', _, _, hno, _⟩ | ⟨_, hno, _⟩⟩
                · exact hFt t j' ht hFt₁
                · rw [ht] at hno
                  cases hno
                  rw [hd] at hd'
                  cases hd'
                  omega
                · rw [ht] at hno
                  cases hno
          · refine ⟨?_, hmore⟩
            unfold PDSIZE PTSIZE PGSIZE NPTEENTRY NPDEENTRY
            omega
        · have hnone : ∀ s q, ¬ExitGives vm₀.mem role r ((i + 1) * 512 + 0) stop s q :=
            fun s q => not_exitGives (not_lt.mp hmore)
          rw [if_neg fun hno => hmore hno.2]
          refine Prog.wpl_pure (hq vm₁ (htrim₁.congr fun q => ?_) (hall.mpr (InTurn.none hnone)))
          rw [← hgiven]
          simp only [hnone, exists_false, or_false]
      have hread : vm.mem r i = vm₀.mem r i := by
        refine htrim.rest r i fun p hFp => ⟨fun hp => (hF p i hp le_rfl).1 hFp, fun hp => ?_⟩
        obtain ⟨r', i', hup⟩ := (h.tree.tableUp hp).1
        rw [hup] at hr
        cases hr
      simp only [exitDirs, PDX1_dir hi, next_dir]
      refine Prog.wpl_bind (Prog.wpl_of_wp readWord_notes (wp_readWord.mpr ?_))
      rw [hread]
      rcases h.tree.rootEntry hr (show i < 511 by omega) with h0 | ⟨_, d, he, hd⟩
      · have hnone : ∀ s q, ¬DirGives vm₀.mem role r (i * 512 + j) stop i s q := by
          have hno : ∀ d, role d ≠ .dir r i := by
            intro d hd
            have hentry := (h.tree.dirUp hd).2.2
            rw [h0] at hentry
            exact pde_ne_zero hentry.symm
          rintro s q (⟨d, hd, _⟩ | ⟨_, hd, _⟩)
          · exact hno d hd
          · exact hno q hd
        rw [h0, Nat.zero_and, if_neg (not_not.mpr rfl)]
        refine hnext vm F htrim (fun q => ?_) (InTurn.none hnone)
        simp only [hnone, exists_false, or_false]
      · have hdir := dirGives_inTurn (i * 512 + j) stop (fun q => role q = .free ∨ F q) h.tree hd
        have hbound : d < vm₀.area.npages := h.bound (by rw [hd]; simp)
        have hb : d < vm.area.npages := by
          rw [htrim.npages]
          exact hbound
        have hone : ∀ q, role q = .dir r i ↔ q = d := by
          intro q
          constructor
          · exact fun hq => h.tree.dir_unique hq hd
          · rintro rfl
            exact hd
        rw [he, if_pos pde_valid]
        refine Prog.wpl_bind (Prog.wpl_of_wp pde2page_notes ((wp_pde2page hb).mpr ?_))
        refine Prog.wpl_bind (Prog.wpl_of_wp page2kva_notes ((wp_page2kva hb).mpr ?_))
        refine Prog.wpl_bind (wpl_exitTables h hd htrim (fun t k ht _ => (hF d i hd le_rfl).2 t k ht) hj
          (show 512 - j ≤ NPDEENTRY by unfold NPDEENTRY; omega) hlt (fun hno => hbad fun hall => ?_)
          fun vm₁ b htrim₁ hb₁ htabs => ?_)
        · exact hno (hdir.mp ((hturn _ fun _ => Iff.rfl).mp hall).1).1
        · by_cases hfilled : Filled role (Within (i * 512 + j) stop) d i
          · have hgone : ¬(F d ∨ ∃ s, TableGives vm₀.mem role d i (Within (i * 512 + j) stop) s d) := by
              rintro (hFd | ⟨_, _, _, hno, _⟩)
              · exact (hF d i hd le_rfl).1 hFd
              · rw [hd] at hno
                cases hno
            rw [if_pos (hb₁.mpr ⟨rfl, hfilled⟩)]
            refine Prog.wpl_bind (Prog.wpl_of_wp pde2page_notes ((wp_pde2page ?_).mpr ?_))
            · rw [htrim₁.npages]
              exact hbound
            refine Prog.wpl_bind (htrim₁.freePage h (Or.inl hd) hgone (fun hno => hbad fun hall => ?_)
              fun area hfits htrim₂ => ?_)
            · refine hno ((Fits.congr fun q => or_assoc).mp ?_)
              exact (hdir.mp ((hturn _ fun _ => Iff.rfl).mp hall).1).2 hfilled
            · refine Prog.wpl_bind (Prog.wpl_of_wp writeWord_notes (wp_writeWord.mpr ?_))
              refine hnext _ _ htrim₂ (fun q => ?_) (hdir.mpr ⟨htabs, fun _ => ?_⟩)
              · unfold DirGives
                simp only [hone, exists_eq_left, exists_or, or_assoc]
                refine or_congr_right (or_congr_right ?_)
                constructor
                · rintro rfl
                  exact ⟨rfl, hfilled⟩
                · exact fun hq => hq.1
              · exact (Fits.congr fun q => or_assoc).mpr hfits
          · rw [if_neg fun hb => hfilled (hb₁.mp hb).2]
            refine hnext vm₁ _ htrim₁ (fun q => ?_) (hdir.mpr ⟨htabs, fun hno => absurd hno hfilled⟩)
            unfold DirGives
            simp only [hone, exists_eq_left, exists_or]
            refine or_congr_right (or_iff_left ?_).symm
            rintro ⟨rfl, hno⟩
            exact hfilled hno

end Dirs

end Ucore.Mm
