import Ucore.Pmm.Free

namespace Ucore.Pmm

open Lib

variable {s s' : FreeArea} {managed free g : Finset Nat} {l m : List Nat} {k p : Nat}

-- The search of default_alloc_pages over the rest of the list.
theorem findBlock_spec {fuel : Nat} {le : Entry}
    (h : Path s.next s.prev le (l.map .pageLink) .freeList) (hb : ∀ p ∈ l, p < s.npages)
    (hfuel : l.length < fuel) :
    findBlock s k fuel le = .ok (l.find? fun p => k ≤ (s.pages p).property) := by
  induction l generalizing le fuel with
  | nil =>
      obtain ⟨fuel, rfl⟩ := Nat.exists_eq_succ_of_ne_zero (Nat.ne_of_gt hfuel)
      have hnext : s.next le = .freeList := h.1
      simp only [findBlock, hnext, List.find?_nil]
  | cons x l ih =>
      obtain ⟨fuel, rfl⟩ := Nat.exists_eq_succ_of_ne_zero (Nat.ne_of_gt (Nat.zero_lt_of_lt hfuel))
      obtain ⟨hnext, _, hrest⟩ := h
      have hx : x < s.npages := hb x List.mem_cons_self
      simp only [findBlock, hnext, FreeArea.deref_eq hx, ok_bind]
      by_cases hk : k ≤ (s.pages x).property
      · rw [if_pos hk, List.find?_cons_of_pos (by simpa using hk), pure_eq_ok]
      · rw [if_neg hk, List.find?_cons_of_neg (by simpa using hk)]
        exact ih hrest (fun p hp => hb p (List.mem_cons_of_mem x hp)) (by simpa using hfuel)

theorem FreeList.block_sub (h : FreeList s managed free l) (hp : p ∈ l) {i : Nat} (hlo : p ≤ i)
    (hhi : i < p + (s.pages p).property) : i ∈ free :=
  h.runs.mem_block (r := (p, (s.pages p).property)) (mem_blocks.mpr ⟨hp, rfl⟩) hlo hhi

-- A head lies in no other block.
theorem FreeList.head_eq (h : FreeList s managed free l) (hp : p ∈ l) {q : Nat} (hq : q ∈ l)
    (hlo : p ≤ q) (hhi : q < p + (s.pages p).property) : q = p := by
  have hpos := h.property_pos hq
  rcases h.runs.apart (r := (p, (s.pages p).property)) (q := (q, (s.pages q).property))
    (mem_blocks.mpr ⟨hp, rfl⟩) (mem_blocks.mpr ⟨hq, rfl⟩) with he | hlt | hlt
  · exact (congrArg Prod.fst he).symm
  · simp only at hlt
    omega
  · simp only at hlt
    omega

theorem FreeList.property_le (h : FreeList s managed free l) (hp : p ∈ l) :
    (s.pages p).property ≤ free.card := by
  have hsub : Finset.Ico p (p + (s.pages p).property) ⊆ free := by
    intro i hi
    rw [Finset.mem_Ico] at hi
    exact h.block_sub hp hi.1 hi.2
  simpa using Finset.card_le_card hsub

-- The state when the block `p` of the list is taken as a whole.
def takeAll (s : FreeArea) (p k : Nat) : FreeArea :=
  let s := listDel s (.pageLink p)
  { s with nrFree := toUint (s.nrFree + 4294967296 - k) }.modify p fun q =>
    { q with pgProperty := false }

-- The state when the first `k` pages of the block `p` are taken.
def takeFirst (s : FreeArea) (p k : Nat) : FreeArea :=
  let s₁ := (listDel s (.pageLink p)).modify (p + k) fun q =>
    { q with property := toUint ((s.pages p).property - k), pgProperty := true }
  let s₁ := listAdd s₁ (s.prev (.pageLink p)) (.pageLink (p + k))
  { s₁ with nrFree := toUint (s₁.nrFree + 4294967296 - k) }.modify p fun q =>
    { q with pgProperty := false }

theorem toUint_sub {x : Nat} (hk : k ≤ x) (hx : x < 4294967296) :
    toUint (x + 4294967296 - k) = x - k := by
  unfold toUint
  omega

theorem card_sdiff_Ico (hsub : Finset.Ico p (p + k) ⊆ free) :
    (free \ Finset.Ico p (p + k)).card = free.card - k := by
  rw [Finset.card_sdiff_of_subset hsub, Nat.card_Ico, Nat.add_sub_cancel_left]

theorem takeAll_spec (h : FreeList s managed free (l ++ p :: m))
    (hk : k = (s.pages p).property) :
    FreeList (takeAll s p k) managed (free \ Finset.Ico p (p + k)) (l ++ m) ∧
      Unused s (takeAll s p k) g := by
  have hring : Ring s.next s.prev .freeList
      (l.map Entry.pageLink ++ .pageLink p :: m.map Entry.pageLink) := by
    simpa using h.ring
  have hpages : ∀ q, ((takeAll s p k).pages q) =
      { s.pages q with pgProperty := if q = p then false else (s.pages q).pgProperty } := by
    intro q
    simp only [takeAll, FreeArea.modify_apply, listDel_pages]
    split_ifs <;> rfl
  have hsub : Finset.Ico p (p + k) ⊆ free := by
    intro i hi
    rw [Finset.mem_Ico, hk] at hi
    exact h.block_sub (by simp) hi.1 hi.2
  have hle : k ≤ free.card := hk ▸ h.property_le (by simp)
  have hmax := h.free_card.trans_lt (npages_lt s)
  refine ⟨⟨⟨?_, ?_, h.bound, ?_, ?_, ?_, ?_, ?_⟩, ?_⟩, rfl, fun q _ => ?_, fun q _ => ?_⟩
  · rw [List.map_append]
    exact ring_listDel hring
  · exact Finset.sdiff_subset.trans h.sub
  · intro q hq
    rw [hpages]
    exact h.reserved q hq
  · intro q hq
    rw [hpages]
    have hnodup : (l ++ p :: m).Nodup := h.ascending.imp Nat.ne_of_lt
    have hp : p ∉ l ++ m := (List.nodup_middle.mp hnodup).notMem
    by_cases he : q = p
    · subst he
      simp only [if_true, Bool.false_eq_true, false_iff]
      exact hp
    · simp only [if_neg he, h.heads q hq, List.mem_append, List.mem_cons]
      tauto
  · intro q hq
    rw [hpages]
    exact h.ref q (Finset.mem_sdiff.mp hq).1
  · intro q hq
    rw [hpages]
    exact h.lock q (Finset.mem_sdiff.mp hq).1
  · show toUint (s.nrFree + 4294967296 - k) = _
    rw [card_sdiff_Ico hsub, h.nrFree, toUint_sub hle hmax]
  · have hruns : Runs free (s.blocks l ++ (p, k) :: s.blocks m) := by
      rw [hk]
      simpa [FreeArea.blocks] using h.runs
    have hsame : ∀ q ∈ l ++ m, ((takeAll s p k).pages q).property = (s.pages q).property :=
      fun q _ => by rw [hpages]
    rw [blocks_congr hsame, blocks_append]
    exact hruns.erase
  · rw [hpages]
  · rw [hpages]

theorem takeFirst_spec (h : FreeList s managed free (l ++ p :: m))
    (hpos : 0 < k) (hk : k < (s.pages p).property) :
    FreeList (takeFirst s p k) managed (free \ Finset.Ico p (p + k)) (l ++ (p + k) :: m) ∧
      Unused s (takeFirst s p k) g := by
  have hp : p ∈ l ++ p :: m := by simp
  have hring : Ring s.next s.prev .freeList
      (l.map Entry.pageLink ++ .pageLink p :: m.map Entry.pageLink) := by
    simpa using h.ring
  have hle := h.property_le hp
  have hmax := h.free_card.trans_lt (npages_lt s)
  have hpages : ∀ q, ((takeFirst s p k).pages q) =
      { s.pages q with
        pgProperty := if q = p then false else if q = p + k then true else (s.pages q).pgProperty
        property := if q = p + k then (s.pages p).property - k else (s.pages q).property } := by
    intro q
    have hv : toUint ((s.pages p).property - k) = (s.pages p).property - k :=
      toUint_of_lt (by omega)
    simp only [takeFirst, listAdd, FreeArea.modify_apply, listInsert_pages, listDel_pages, hv]
    by_cases he : q = p
    · have hne : q ≠ p + k := by omega
      simp only [if_pos he, if_neg hne]
    · simp only [if_neg he]
      split_ifs <;> rfl
  have hsub : Finset.Ico p (p + k) ⊆ free := by
    intro i hi
    rw [Finset.mem_Ico] at hi
    exact h.block_sub hp hi.1 (by omega)
  have hnew : p + k ∉ l ++ p :: m := by
    intro hmem
    have he := h.head_eq hp hmem (by omega) (by omega)
    omega
  have hnodup : (l ++ p :: m).Nodup := h.ascending.imp Nat.ne_of_lt
  have hpm : p ∉ l ++ m := (List.nodup_middle.mp hnodup).notMem
  refine ⟨⟨⟨?_, ?_, h.bound, ?_, ?_, ?_, ?_, ?_⟩, ?_⟩, rfl, fun q _ => ?_, fun q _ => ?_⟩
  · rw [List.map_append, List.map_cons]
    have hdel := ring_listDel hring
    refine ring_listInsert (s := (listDel s (.pageLink p)).modify (p + k) _) hdel ?_
      hring.prev_eq.symm ?_
    · rw [← List.map_append, List.mem_cons, mem_pageLinks, not_or]
      refine ⟨by simp, fun hmem => hnew ?_⟩
      simp only [List.mem_append, List.mem_cons] at hmem ⊢
      tauto
    · rw [hring.prev_eq]
      exact hdel.next_last.symm
  · exact Finset.sdiff_subset.trans h.sub
  · intro q hq
    rw [hpages]
    exact h.reserved q hq
  · intro q hq
    rw [hpages]
    simp only [List.mem_append, List.mem_cons] at hpm ⊢
    by_cases he : q = p
    · subst he
      have hne : q ≠ q + k := by omega
      simp only [if_true, Bool.false_eq_true, false_iff]
      tauto
    · by_cases he' : q = p + k
      · simp only [if_neg he, if_pos he']
        tauto
      · simp only [if_neg he, if_neg he', h.heads q hq, List.mem_append, List.mem_cons]
        tauto
  · intro q hq
    rw [hpages]
    exact h.ref q (Finset.mem_sdiff.mp hq).1
  · intro q hq
    rw [hpages]
    exact h.lock q (Finset.mem_sdiff.mp hq).1
  · show toUint (s.nrFree + 4294967296 - k) = _
    rw [card_sdiff_Ico hsub, h.nrFree, toUint_sub (by omega) hmax]
  · have hruns : Runs free (s.blocks l ++ (p, (s.pages p).property) :: s.blocks m) := by
      simpa [FreeArea.blocks] using h.runs
    have hsame : ∀ q ∈ l ++ m, ((takeFirst s p k).pages q).property = (s.pages q).property := by
      intro q hq
      have hne : q ≠ p + k := by
        rintro rfl
        apply hnew
        simp only [List.mem_append, List.mem_cons] at hq ⊢
        tauto
      rw [hpages]
      simp only [if_neg hne]
    have hblocks : (takeFirst s p k).blocks (l ++ (p + k) :: m) =
        s.blocks l ++ (p + k, (s.pages p).property - k) :: s.blocks m := by
      rw [← blocks_congr fun q hq => hsame q (List.mem_append_left m hq),
        ← blocks_congr fun q hq => hsame q (List.mem_append_right l hq)]
      simp [FreeArea.blocks, hpages]
    rw [hblocks]
    exact hruns.shrink hk
  · rw [hpages]
  · rw [hpages]

-- What default_alloc_pages returns: nothing if no block is large enough, else the front of
-- the first one that is.
theorem defaultAllocPages_spec (h : FreeList s managed free l) (hk : 0 < k) :
    (∀ p ∈ l, (s.pages p).property < k) ∧ defaultAllocPages s k = .ok (none, s) ∨
      ∃ p s' l', defaultAllocPages s k = .ok (some p, s') ∧ p ∈ l ∧ k ≤ (s.pages p).property ∧
        (∀ q ∈ l, q < p → (s.pages q).property < k) ∧ Finset.Ico p (p + k) ⊆ free ∧
        FreeList s' managed (free \ Finset.Ico p (p + k)) l' ∧ Unused s s' g := by
  have hpos : decide (k > 0) = true := decide_eq_true hk
  have hb : ∀ p ∈ l, p < s.npages := fun p hp => h.bound p (h.sub (h.mem_free hp))
  have hfind : findBlock s k (s.npages + 1) .freeList =
      .ok (l.find? fun p => k ≤ (s.pages p).property) :=
    findBlock_spec h.ring.path hb (by have := h.length_le; omega)
  by_cases hmany : k > s.nrFree
  · left
    refine ⟨fun p hp => ?_, ?_⟩
    · have hle := h.property_le hp
      rw [h.nrFree] at hmany
      omega
    · simp only [defaultAllocPages, hpos, assert_true, ok_bind, if_pos hmany, pure_eq_ok]
  · cases hl : l.find? fun p => k ≤ (s.pages p).property with
    | none =>
        left
        refine ⟨fun p hp => ?_, ?_⟩
        · have hno := List.find?_eq_none.mp hl p hp
          simpa using hno
        · simp only [defaultAllocPages, hpos, assert_true, ok_bind, if_neg hmany, hfind, hl,
            pure_eq_ok]
    | some p =>
        right
        obtain ⟨hkp, l₁, l₂, rfl, hl₁⟩ := List.find?_eq_some_iff_append.mp hl
        have hkp : k ≤ (s.pages p).property := by simpa using hkp
        have hp : p ∈ l₁ ++ p :: l₂ := by simp
        have hfirst : ∀ q ∈ l₁ ++ p :: l₂, q < p → (s.pages q).property < k := by
          intro q hq hlt
          have hasc := List.pairwise_append.mp h.ascending
          rcases List.mem_append.mp hq with hq | hq
          · have hno := hl₁ q hq
            simpa using hno
          · rcases List.mem_cons.mp hq with rfl | hq
            · exact absurd hlt (Nat.lt_irrefl _)
            · exact absurd hlt (Nat.lt_asymm ((List.pairwise_cons.mp hasc.2.1).1 q hq))
        have hsub : Finset.Ico p (p + k) ⊆ free := by
          intro i hi
          rw [Finset.mem_Ico] at hi
          exact h.block_sub hp hi.1 (by omega)
        have hpb := hb p hp
        by_cases hgt : (s.pages p).property > k
        · have hpk : p + k < s.npages :=
            h.bound _ (h.sub (h.block_sub hp (i := p + k) (by omega) (by omega)))
          obtain ⟨hfl, hu⟩ := takeFirst_spec (g := g) h hk hgt
          refine ⟨p, takeFirst s p k, _, ?_, hp, hkp, hfirst, hsub, hfl, hu⟩
          simp only [defaultAllocPages, hpos, assert_true, ok_bind, if_neg hmany, hfind, hl]
          rw [FreeArea.deref_eq (by simpa using hpb)]
          simp only [ok_bind, listDel_pages, if_pos hgt]
          rw [FreeArea.store_eq _ (by simpa using hpk)]
          simp only [ok_bind, pure_eq_ok]
          rw [FreeArea.store_eq _ (by simpa [listAdd] using hpb)]
          rfl
        · obtain ⟨hfl, hu⟩ := takeAll_spec (g := g) h (k := k) (by omega)
          refine ⟨p, takeAll s p k, _, ?_, hp, hkp, hfirst, hsub, hfl, hu⟩
          simp only [defaultAllocPages, hpos, assert_true, ok_bind, if_neg hmany, hfind, hl]
          rw [FreeArea.deref_eq (by simpa using hpb)]
          simp only [ok_bind, listDel_pages, if_neg hgt, pure_eq_ok]
          rw [FreeArea.store_eq _ (by simpa using hpb)]
          rfl

end Ucore.Pmm
