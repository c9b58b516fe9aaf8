import Ucore.Pmm.Invariant

namespace Ucore.Pmm

open Lib

variable {s s' t : FreeArea} {managed free rest g : Finset Nat} {l l₁ l₂ m : List Nat}
  {base n b k : Nat}

theorem Linked.resize (h : Linked s managed free l) (p v : Nat) :
    Linked (s.modify p fun q => { q with property := v }) managed free l := by
  have hpages : ∀ q, ((s.modify p fun q => { q with property := v }).pages q) =
      { s.pages q with property := if q = p then v else (s.pages q).property } := by
    intro q
    rw [FreeArea.modify_apply]
    split_ifs <;> rfl
  refine ⟨by simpa using h.ring, h.sub, h.bound, ?_, ?_, ?_, ?_, h.nrFree⟩
  all_goals
    intro q hq
    rw [hpages]
  · exact h.reserved q hq
  · exact h.heads q hq
  · exact h.ref q hq
  · exact h.lock q hq

theorem Linked.unlink {x : Nat} (h : Linked s managed free (l ++ x :: m)) :
    Linked (listDel (s.modify x fun q => { q with pgProperty := false }) (.pageLink x))
      managed free (l ++ m) := by
  have hpages : ∀ q, ((listDel (s.modify x fun q => { q with pgProperty := false })
      (.pageLink x)).pages q) =
      { s.pages q with pgProperty := if q = x then false else (s.pages q).pgProperty } := by
    intro q
    rw [listDel_pages, FreeArea.modify_apply]
    split_ifs <;> rfl
  have hring : Ring s.next s.prev .freeList
      (l.map Entry.pageLink ++ .pageLink x :: m.map Entry.pageLink) := by
    simpa using h.ring
  refine ⟨?_, h.sub, h.bound, ?_, ?_, ?_, ?_, h.nrFree⟩
  · rw [List.map_append]
    exact ring_listDel (s := s.modify x _) (by simpa using hring)
  all_goals
    intro q hq
    rw [hpages]
  · exact h.reserved q hq
  · have hnodup : (l ++ x :: m).Nodup :=
      List.Nodup.of_map Entry.pageLink (List.nodup_cons.mp h.ring.nodup).2
    have hx : x ∉ l ++ m := (List.nodup_middle.mp hnodup).notMem
    by_cases he : q = x
    · subst he
      simp only [if_true, Bool.false_eq_true, false_iff]
      exact hx
    · simp only [if_neg he, h.heads q hq, List.mem_append, List.mem_cons]
      tauto
  · exact h.ref q hq
  · exact h.lock q hq

-- What both merges do: the block of `p` takes in the next one, of `x`.
def absorb (s : FreeArea) (p x : Nat) : FreeArea :=
  let s₁ := s.modify p fun q => { q with property := toUint (q.property + (s.pages x).property) }
  listDel (s₁.modify x fun q => { q with pgProperty := false }) (.pageLink x)

theorem absorb_linked {p x v : Nat} (h : Linked s managed free (l ++ p :: x :: m))
    (hv : toUint ((s.pages p).property + (s.pages x).property) = v) :
    Linked (absorb s p x) managed free (l ++ p :: m) := by
  have hs : (s.modify p fun q => { q with property := toUint (q.property + (s.pages x).property) }) =
      s.modify p fun q => { q with property := v } := by
    simp only [FreeArea.modify, hv]
  have hl : Linked (s.modify p fun q =>
      { q with property := toUint (q.property + (s.pages x).property) })
      managed free ((l ++ [p]) ++ x :: m) := by
    rw [hs]
    simpa using h.resize p v
  simpa [absorb] using hl.unlink

theorem absorb_property {p x q : Nat} (hq : q ≠ p) :
    ((absorb s p x).pages q).property = (s.pages q).property := by
  simp only [absorb, listDel_pages, FreeArea.modify_apply, if_neg hq]
  split_ifs <;> rfl

theorem absorb_property_self {p x : Nat} (hpx : p ≠ x) :
    ((absorb s p x).pages p).property =
      toUint ((s.pages p).property + (s.pages x).property) := by
  simp only [absorb, listDel_pages, FreeArea.modify_apply, if_neg hpx, if_true]

theorem absorb_unused {p x : Nat} : Unused s (absorb s p x) g := by
  refine ⟨rfl, fun q _ => ?_, fun q _ => ?_⟩
  all_goals
    simp only [absorb, listDel_pages, FreeArea.modify_apply]
    split_ifs <;> rfl

-- The block of `k` pages at `b` stands in the list between `l₁` and `l₂`, which hold the
-- pages `rest`; it may touch its neighbours.
structure Placed (s : FreeArea) (managed free rest : Finset Nat) (l₁ : List Nat) (b k : Nat)
    (l₂ : List Nat) : Prop where
  linked : Linked s managed free (l₁ ++ b :: l₂)
  free_eq : free = rest ∪ Finset.Ico b (b + k)
  runs : Runs rest (s.blocks l₁ ++ s.blocks l₂)
  pos : 0 < k
  size : (s.pages b).property = k
  above : ∀ p ∈ l₁, p + (s.pages p).property ≤ b
  below : ∀ p ∈ l₂, b + k ≤ p

theorem Placed.size_le (h : Placed s managed free rest l₁ b k l₂) : b + k ≤ s.npages := by
  have hpos := h.pos
  have hmem : b + k - 1 ∈ free := by
    rw [h.free_eq, Finset.mem_union, Finset.mem_Ico]
    exact Or.inr (by omega)
  have hlt := h.linked.bound _ (h.linked.sub hmem)
  omega

theorem Placed.toUint_eq (h : Placed s managed free rest l₁ b k l₂) {v : Nat} (hv : v ≤ b + k) :
    toUint v = v := by
  have hle := h.size_le
  have hlt := npages_lt s
  exact toUint_of_lt (by omega)

theorem Placed.nodup (h : Placed s managed free rest l₁ b k l₂) : (l₁ ++ b :: l₂).Nodup :=
  List.Nodup.of_map Entry.pageLink (List.nodup_cons.mp h.linked.ring.nodup).2

theorem Placed.bound (h : Placed s managed free rest l₁ b k l₂) {p : Nat}
    (hp : p ∈ l₁ ++ b :: l₂) : p < s.npages := by
  have hmem : p ∈ free := by
    rw [h.free_eq, Finset.mem_union]
    simp only [List.mem_append, List.mem_cons] at hp
    rcases hp with hp | rfl | hp
    · exact Or.inl (h.runs.start_mem (r := (p, (s.pages p).property))
        (List.mem_append_left _ (mem_blocks.mpr ⟨hp, rfl⟩)))
    · exact Or.inr (Finset.mem_Ico.mpr ⟨le_rfl, Nat.lt_add_of_pos_right h.pos⟩)
    · exact Or.inl (h.runs.start_mem (r := (p, (s.pages p).property))
        (List.mem_append_right _ (mem_blocks.mpr ⟨hp, rfl⟩)))
  exact h.linked.bound p (h.linked.sub hmem)

theorem Placed.links (h : Placed s managed free rest l₁ b k l₂) :
    s.prev (.pageLink b) = (l₁.map Entry.pageLink).getLastD .freeList ∧
      s.next (.pageLink b) = (l₂.map Entry.pageLink).headD .freeList := by
  have hring := h.linked.ring
  rw [List.map_append, List.map_cons] at hring
  exact ⟨hring.prev_eq, hring.next_eq⟩

-- The merge with the block before: then the block touches no block before it.
theorem mergePrev_spec (h : Placed s managed free rest l₁ b k l₂) :
    ∃ b' k' l₁' rest' s', mergePrev s b = .ok (b', s') ∧
      Placed s' managed free rest' l₁' b' k' l₂ ∧
      (∀ p ∈ l₁', p + (s'.pages p).property < b') ∧ Unused s s' g := by
  rcases List.eq_nil_or_concat l₁ with rfl | ⟨l, p, rfl⟩
  · refine ⟨b, k, [], rest, s, ?_, h, by simp, Unused.refl⟩
    have hprev : s.prev (.pageLink b) = .freeList := h.links.1
    simp only [mergePrev, hprev, pure_eq_ok]
  · rw [List.concat_eq_append] at h
    have hprev : s.prev (.pageLink b) = .pageLink p := by simpa using h.links.1
    have hp : p < s.npages := h.bound (by simp)
    have hb : b < s.npages := h.bound (by simp)
    have hruns : Runs rest (s.blocks l ++ (p, (s.pages p).property) :: s.blocks l₂) := by
      simpa [FreeArea.blocks] using h.runs
    have hgap := List.pairwise_append.mp hruns.gap
    have hlp : ∀ q ∈ l, q + (s.pages q).property < p := fun q hq =>
      hgap.2.2 (q, (s.pages q).property) (mem_blocks.mpr ⟨hq, rfl⟩) _ List.mem_cons_self
    have hle := h.above p (by simp)
    by_cases he : p + (s.pages p).property = b
    · -- the block of `p` grows by the one at `b`
      have hpb : b ≠ p := by
        have hpos : 0 < (s.pages p).property :=
          hruns.pos (p, (s.pages p).property) (List.mem_append_right _ List.mem_cons_self)
        omega
      have hv : toUint ((s.pages p).property + (s.pages b).property) =
          (s.pages p).property + k := by
        rw [h.size]
        exact h.toUint_eq (by omega)
      have hlinked : Linked (absorb s p b) managed free (l ++ p :: l₂) :=
        absorb_linked (by simpa using h.linked) hv
      have hsize : ((absorb s p b).pages p).property = (s.pages p).property + k := by
        rw [absorb_property_self (Ne.symm hpb), hv]
      have hpl : ∀ q ∈ l ++ l₂, q ≠ p := by
        rintro q hq rfl
        have hnodup := h.nodup
        simp only [List.append_assoc, List.singleton_append] at hnodup
        have hmid := (List.nodup_middle.mp hnodup).notMem
        simp only [List.mem_append, List.mem_cons] at hmid hq
        tauto
      have hpages : ∀ q ∈ l ++ l₂, ((absorb s p b).pages q).property = (s.pages q).property :=
        fun q hq => absorb_property (hpl q hq)
      refine ⟨p, (s.pages p).property + k, l, rest \ Finset.Ico p (p + (s.pages p).property),
        absorb s p b,
        ?_, ⟨hlinked, ?_, ?_, by have := h.pos; omega, hsize, ?_, ?_⟩, ?_, absorb_unused⟩
      · simp only [mergePrev, hprev, FreeArea.deref_eq hp, ok_bind, if_pos he,
          FreeArea.deref_eq hb, FreeArea.store_eq _ hp]
        rw [FreeArea.store_eq _ (by simpa using hb)]
        rfl
      · rw [h.free_eq]
        ext i
        have hblock := hruns.mem_block (r := (p, (s.pages p).property)) (i := i) (by simp)
        simp only [Finset.mem_union, Finset.mem_sdiff, Finset.mem_Ico] at hblock ⊢
        constructor
        · rintro (hi | hi)
          · by_cases hin : p ≤ i ∧ i < p + (s.pages p).property
            · exact Or.inr (by omega)
            · exact Or.inl ⟨hi, hin⟩
          · exact Or.inr (by omega)
        · rintro (hi | hi)
          · exact Or.inl hi.1
          · by_cases hin : i < b
            · exact Or.inl (hblock hi.1 (by omega))
            · exact Or.inr (by omega)
      · rw [blocks_congr fun q hq => hpages q (List.mem_append_left l₂ hq),
          blocks_congr fun q hq => hpages q (List.mem_append_right l hq)]
        exact hruns.erase
      · intro q hq
        rw [hpages q (List.mem_append_left l₂ hq)]
        exact (hlp q hq).le
      · intro q hq
        have hlt := h.below q hq
        omega
      · intro q hq
        rw [hpages q (List.mem_append_left l₂ hq)]
        exact hlp q hq
    · refine ⟨b, k, l ++ [p], rest, s, ?_, h, ?_, Unused.refl⟩
      · simp only [mergePrev, hprev, FreeArea.deref_eq hp, ok_bind, if_neg he, pure_eq_ok]
      · intro q hq
        rcases List.mem_append.mp hq with hq | hq
        · have hlt := hlp q hq
          omega
        · rw [List.mem_singleton.mp hq]
          omega

-- The merge with the block behind ends with the free list of all free pages.
theorem mergeNext_spec (h : Placed s managed free rest l₁ b k l₂)
    (habove : ∀ p ∈ l₁, p + (s.pages p).property < b) :
    ∃ s' l', mergeNext s b = .ok s' ∧ FreeList s' managed free l' ∧ Unused s s' g := by
  have hleft : ∀ r ∈ s.blocks l₁, r.1 + r.2 < b := by
    intro r hr
    obtain ⟨hr, he⟩ := mem_blocks.mp hr
    rw [← he]
    exact habove r.1 hr
  have hb : b < s.npages := h.bound (by simp)
  cases l₂ with
  | nil =>
      refine ⟨s, l₁ ++ [b], ?_, ⟨h.linked, ?_⟩, Unused.refl⟩
      · have hnext : s.next (.pageLink b) = .freeList := h.links.2
        simp only [mergeNext, hnext, pure_eq_ok]
      · rw [h.free_eq]
        have hins := h.runs.insert h.pos hleft (by simp [FreeArea.blocks])
        simpa [FreeArea.blocks, h.size] using hins
  | cons p m =>
      have hnext : s.next (.pageLink b) = .pageLink p := h.links.2
      have hp : p < s.npages := h.bound (by simp)
      have hruns : Runs rest (s.blocks l₁ ++ (p, (s.pages p).property) :: s.blocks m) := h.runs
      have hgap := List.pairwise_cons.mp (List.pairwise_append.mp hruns.gap).2.1
      have hpm : ∀ q ∈ m, p + (s.pages p).property < q := fun q hq =>
        hgap.1 (q, (s.pages q).property) (mem_blocks.mpr ⟨hq, rfl⟩)
      have hle := h.below p (by simp)
      have hpos := h.pos
      by_cases he : b + k = p
      · -- the block of `b` grows by the one at `p`
        have hpb : p ≠ b := by omega
        have hin : Finset.Ico p (p + (s.pages p).property) ⊆ rest := by
          intro i hi
          rw [Finset.mem_Ico] at hi
          exact hruns.mem_block (r := (p, (s.pages p).property)) (by simp) hi.1 hi.2
        have hlast : p + (s.pages p).property ≤ s.npages := by
          have hpp := hruns.pos (p, (s.pages p).property) (by simp)
          have hmem : p + (s.pages p).property - 1 ∈ free := by
            rw [h.free_eq, Finset.mem_union]
            refine Or.inl (hin (Finset.mem_Ico.mpr ?_))
            simp only at hpp
            omega
          have hlt := h.linked.bound _ (h.linked.sub hmem)
          omega
        have hv : toUint ((s.pages b).property + (s.pages p).property) =
            k + (s.pages p).property := by
          have hlt := npages_lt s
          rw [h.size]
          exact toUint_of_lt (by omega)
        have hlinked : Linked (absorb s b p) managed free (l₁ ++ b :: m) :=
          absorb_linked h.linked hv
        have hsize : ((absorb s b p).pages b).property = k + (s.pages p).property := by
          rw [absorb_property_self (Ne.symm hpb), hv]
        have hpages : ∀ q ∈ l₁ ++ m, ((absorb s b p).pages q).property = (s.pages q).property := by
          intro q hq
          refine absorb_property ?_
          rintro rfl
          have hmid := (List.nodup_middle.mp h.nodup).notMem
          simp only [List.mem_append, List.mem_cons] at hmid hq
          tauto
        refine ⟨absorb s b p, l₁ ++ b :: m, ?_, ⟨hlinked, ?_⟩, absorb_unused⟩
        · have heq : b + (s.pages b).property = p := by rw [h.size, he]
          simp only [mergeNext, hnext, FreeArea.deref_eq hb, ok_bind, if_pos heq,
            FreeArea.deref_eq hp, FreeArea.store_eq _ hb]
          rw [FreeArea.store_eq _ (by simpa using hp)]
          rfl
        · have hins := hruns.erase.insert (b := b) (k := k + (s.pages p).property) (by omega)
            hleft (fun r hr => by
              obtain ⟨hr, _⟩ := mem_blocks.mp hr
              have hlt := hpm r.1 hr
              omega)
          have hset : rest \ Finset.Ico p (p + (s.pages p).property) ∪
              Finset.Ico b (b + (k + (s.pages p).property)) = free := by
            rw [h.free_eq]
            ext i
            have hi := @hin i
            simp only [Finset.mem_union, Finset.mem_sdiff, Finset.mem_Ico] at hi ⊢
            constructor
            · rintro (hr | hr)
              · exact Or.inl hr.1
              · by_cases hlt : i < p
                · exact Or.inr (by omega)
                · exact Or.inl (hi (by omega))
            · rintro (hr | hr)
              · by_cases hout : p ≤ i ∧ i < p + (s.pages p).property
                · exact Or.inr (by omega)
                · exact Or.inl ⟨hr, hout⟩
              · exact Or.inr (by omega)
          rw [hset] at hins
          have hblocks : (absorb s b p).blocks (l₁ ++ b :: m) =
              s.blocks l₁ ++ (b, k + (s.pages p).property) :: s.blocks m := by
            rw [← hsize, ← blocks_congr fun q hq => hpages q (List.mem_append_left m hq),
              ← blocks_congr fun q hq => hpages q (List.mem_append_right l₁ hq)]
            simp [FreeArea.blocks]
          rw [hblocks]
          exact hins
      · refine ⟨s, l₁ ++ b :: p :: m, ?_, ⟨h.linked, ?_⟩, Unused.refl⟩
        · have hne : b + (s.pages b).property ≠ p := by rw [h.size]; exact he
          simp only [mergeNext, hnext, FreeArea.deref_eq hb, ok_bind, if_neg hne, pure_eq_ok]
        · rw [h.free_eq]
          have hins := h.runs.insert h.pos hleft (fun r hr => by
            obtain ⟨hr, _⟩ := mem_blocks.mp hr
            rcases List.mem_cons.mp hr with hr | hr
            · omega
            · have hlt := hpm r.1 hr
              omega)
          simpa [FreeArea.blocks, h.size] using hins

-- The pages of the block after the loop over them and the stores to its head; nothing
-- is linked yet.
structure Prepared (s t : FreeArea) (base n : Nat) : Prop where
  npages : t.npages = s.npages
  next : t.next = s.next
  prev : t.prev = s.prev
  nrFree : t.nrFree = toUint (s.nrFree + n)
  other : ∀ p, ¬(base ≤ p ∧ p < base + n) → t.pages p = s.pages p
  block : ∀ p, base ≤ p → p < base + n →
    (t.pages p).reserved = false ∧ (t.pages p).ref = 0 ∧ (t.pages p).pageLock = false ∧
      ((t.pages p).pgProperty = true ↔ p = base)
  size : (t.pages base).property = toUint n

theorem setHead_eq (h : base < s.npages) :
    setHead s base n = .ok { s.modify base fun page =>
      { page with property := toUint n, pgProperty := true } with nrFree := toUint (s.nrFree + n) } := by
  simp only [setHead, FreeArea.store_eq _ h, ok_bind, pure_eq_ok, FreeArea.modify_nrFree]

theorem prepare (ok : Page → Bool) (text : String) (f : Page → Page) (hn : 0 < n)
    (hbound : base + n ≤ s.npages)
    (hok : ∀ p, base ≤ p → p < base + n → ok (s.pages p) = true)
    (hf : ∀ q, (f q).reserved = false ∧ (f q).ref = 0 ∧ (f q).pageLock = false ∧
      (f q).pgProperty = false) :
    ∃ t, (do let s ← initBlock ok text f s base n; setHead s base n) = .ok t ∧
      Prepared s t base n := by
  obtain ⟨s₁, hs₁, hnp, hnext, hprev, hnr, hpages⟩ := initBlock_spec text f hbound hok
  have hb : base < s₁.npages := by omega
  refine ⟨{ s₁.modify base fun page =>
    { page with property := toUint n, pgProperty := true } with nrFree := toUint (s₁.nrFree + n) },
    by rw [hs₁, ok_bind, setHead_eq hb], hnp, hnext, hprev, by rw [hnr], ?_, ?_, ?_⟩
  · intro p hp
    have hne : p ≠ base := by omega
    simp only [FreeArea.modify_apply, if_neg hne, hpages p, if_neg hp]
  · intro p hlo hhi
    obtain ⟨h1, h2, h3, h4⟩ := hf (s.pages p)
    simp only [FreeArea.modify_apply, hpages p, if_pos (And.intro hlo hhi)]
    split_ifs with he
    · exact ⟨h1, h2, h3, by simp [he]⟩
    · exact ⟨h1, h2, h3, by simp [h4, he]⟩
  · simp

theorem Prepared.unused (h : Prepared s t base n) : Unused s t (Finset.Ico base (base + n)) := by
  refine ⟨h.npages, fun p hp => ?_, fun p hp => ?_⟩
  all_goals rw [h.other p (by simpa using hp)]

theorem listInsert_unused {elm p q : Entry} : Unused s (listInsert s elm p q) g :=
  ⟨rfl, fun _ _ => rfl, fun _ _ => rfl⟩

-- Linking the prepared block in front of the first member above it.
theorem Prepared.placed (h : Prepared s t base n) (hfl : FreeList s managed free (l₁ ++ l₂))
    (hn : 0 < n) (hsub : Finset.Ico base (base + n) ⊆ managed)
    (hdisj : Disjoint free (Finset.Ico base (base + n)))
    (hl₁ : ∀ p ∈ l₁, p < base) (hl₂ : ∀ p ∈ l₂, base < p) {p q : Entry}
    (hp : (l₁.map Entry.pageLink).getLastD .freeList = p)
    (hq : (l₂.map Entry.pageLink).headD .freeList = q) :
    Placed (listInsert t (.pageLink base) p q) managed (free ∪ Finset.Ico base (base + n)) free
      l₁ base n l₂ := by
  have hout : ∀ p ∈ free, ¬(base ≤ p ∧ p < base + n) := fun p hp hin =>
    Finset.disjoint_left.mp hdisj hp (Finset.mem_Ico.mpr hin)
  have hlist : ∀ p ∈ l₁ ++ l₂, p ≠ base := by
    rintro p hp rfl
    rcases List.mem_append.mp hp with hp | hp
    · exact Nat.lt_irrefl _ (hl₁ p hp)
    · exact Nat.lt_irrefl _ (hl₂ p hp)
  have hpages : ∀ p ∈ l₁ ++ l₂, t.pages p = s.pages p := fun p hp =>
    h.other p (hout p (hfl.mem_free hp))
  have hcard : (free ∪ Finset.Ico base (base + n)).card = free.card + n := by
    rw [Finset.card_union_of_disjoint hdisj, Nat.card_Ico, Nat.add_sub_cancel_left]
  have hmax : free.card + n < 4294967296 := by
    have hle := (Finset.card_le_card (Finset.union_subset hfl.sub hsub)).trans hfl.pages_card
    have hlt := npages_lt s
    omega
  refine ⟨⟨?_, Finset.union_subset hfl.sub hsub, ?_, ?_, ?_, ?_, ?_, ?_⟩, rfl, ?_, hn, ?_, ?_, ?_⟩
  · rw [List.map_append, List.map_cons]
    refine ring_listInsert ?_ ?_ hp hq
    · rw [h.next, h.prev, ← List.map_append]
      exact hfl.ring
    · rw [← List.map_append, List.mem_cons, mem_pageLinks, not_or]
      exact ⟨by simp, fun hmem => hlist base hmem rfl⟩
  · intro p hp
    rw [listInsert_npages, h.npages]
    exact hfl.bound p hp
  · intro p hp
    rw [listInsert_pages]
    by_cases hin : base ≤ p ∧ p < base + n
    · exact (h.block p hin.1 hin.2).1
    · rw [h.other p hin]
      exact hfl.reserved p hp
  · intro p hp
    rw [listInsert_pages, List.mem_append, List.mem_cons]
    by_cases hin : base ≤ p ∧ p < base + n
    · rw [(h.block p hin.1 hin.2).2.2.2]
      have hnot : p ∉ l₁ ++ l₂ := fun hmem => hout p (hfl.mem_free hmem) hin
      rw [List.mem_append, not_or] at hnot
      tauto
    · rw [h.other p hin, hfl.heads p hp, List.mem_append]
      have hne : p ≠ base := by omega
      tauto
  · intro p hp
    rw [listInsert_pages]
    rcases Finset.mem_union.mp hp with hp | hp
    · rw [h.other p (hout p hp)]
      exact hfl.ref p hp
    · rw [Finset.mem_Ico] at hp
      exact (h.block p hp.1 hp.2).2.1
  · intro p hp
    rw [listInsert_pages]
    rcases Finset.mem_union.mp hp with hp | hp
    · rw [h.other p (hout p hp)]
      exact hfl.lock p hp
    · rw [Finset.mem_Ico] at hp
      exact (h.block p hp.1 hp.2).2.2.1
  · rw [listInsert_nrFree, h.nrFree, hfl.nrFree, hcard, toUint_of_lt hmax]
  · have hb : ∀ m, (∀ p ∈ m, p ∈ l₁ ++ l₂) →
        (listInsert t (.pageLink base) p q).blocks m = s.blocks m := by
      intro m hm
      refine blocks_congr fun p hp => ?_
      rw [listInsert_pages, hpages p (hm p hp)]
    rw [hb l₁ fun p => List.mem_append_left l₂, hb l₂ fun p => List.mem_append_right l₁,
      ← blocks_append]
    exact hfl.runs
  · rw [listInsert_pages, h.size, toUint_of_lt (by omega)]
  · intro p hp
    rw [listInsert_pages, hpages p (List.mem_append_left l₂ hp)]
    have hlt := hl₁ p hp
    by_contra hover
    exact hout base (hfl.runs.mem_block (r := (p, (s.pages p).property))
      (mem_blocks.mpr ⟨List.mem_append_left l₂ hp, rfl⟩) hlt.le (by simp only; omega))
      ⟨le_rfl, by omega⟩
  · intro p hp
    have hlt := hl₂ p hp
    have hnot := hout p (hfl.mem_free (List.mem_append_right l₁ hp))
    omega

-- The members up to the first one above `base`.
theorem split_at (h : l.Pairwise (· < ·)) (hb : base ∉ l) :
    ∃ l₁ l₂, l = l₁ ++ l₂ ∧ (∀ p ∈ l₁, p < base) ∧ ∀ p ∈ l₂, base < p := by
  induction l with
  | nil => exact ⟨[], [], rfl, by simp, by simp⟩
  | cons x l ih =>
      obtain ⟨hx, hl⟩ := List.pairwise_cons.mp h
      simp only [List.mem_cons, not_or] at hb
      by_cases hlt : base < x
      · refine ⟨[], x :: l, rfl, by simp, fun p hp => ?_⟩
        rcases List.mem_cons.mp hp with rfl | hp
        · exact hlt
        · exact hlt.trans (hx p hp)
      · obtain ⟨l₁, l₂, rfl, h₁, h₂⟩ := ih hl hb.2
        refine ⟨x :: l₁, l₂, rfl, fun p hp => ?_, h₂⟩
        rcases List.mem_cons.mp hp with rfl | hp
        · omega
        · exact h₁ p hp

-- The free list is empty, or a member of it lies above `base`.
def InOrder (l : List Nat) (base : Nat) : Prop := l = [] ∨ ∃ p ∈ l, base < p

instance : Decidable (InOrder l base) := inferInstanceAs (Decidable (_ ∨ _))

theorem insertBlock_spec (h : Prepared s t base n) (hfl : FreeList s managed free l)
    (hn : 0 < n) (hsub : Finset.Ico base (base + n) ⊆ managed)
    (hdisj : Disjoint free (Finset.Ico base (base + n))) (horder : InOrder l base) :
    ∃ s' l₁ l₂, insertBlock t base = .ok s' ∧ Unused t s' g ∧
      Placed s' managed (free ∪ Finset.Ico base (base + n)) free l₁ base n l₂ := by
  have hring : Ring t.next t.prev .freeList (l.map .pageLink) := by
    rw [h.next, h.prev]
    exact hfl.ring
  have hb : base ∉ l := fun hmem =>
    Finset.disjoint_left.mp hdisj (hfl.mem_free hmem) (Finset.mem_Ico.mpr ⟨le_rfl, by omega⟩)
  obtain ⟨l₁, l₂, rfl, hl₁, hl₂⟩ := split_at hfl.ascending hb
  cases l₂ with
  | nil =>
      -- only an empty list has no member above `base`
      have hnil : l₁ = [] := by
        rcases horder with he | ⟨p, hp, hlt⟩
        · simpa using he
        · rw [List.append_nil] at hp
          exact absurd (hl₁ p hp) (Nat.lt_asymm hlt)
      subst hnil
      have hnext : t.next .freeList = .freeList := hring.next_head
      refine ⟨_, [], [], ?_, ?_, h.placed hfl hn hsub hdisj hl₁ hl₂ rfl rfl⟩
      · simp [insertBlock, listEmpty, hnext, listAdd]
      · exact listInsert_unused
  | cons x m =>
      have hx : base < x := hl₂ x List.mem_cons_self
      have hempty : t.next .freeList ≠ .freeList := by
        rw [Ne, hring.nil_iff]
        simp
      rw [List.map_append, List.map_cons] at hring
      refine ⟨_, l₁, x :: m, ?_, ?_, h.placed hfl hn hsub hdisj hl₁ hl₂ rfl rfl⟩
      · have hlen := hfl.length_le
        rw [List.length_append, List.length_cons] at hlen
        simp only [insertBlock, listEmpty, decide_eq_true_eq, if_neg hempty]
        rw [insertLoop_spec hring.path (fun p hp => (hl₁ p hp).le) hx (by rw [h.npages]; omega)]
        rw [listAddBefore, hring.prev_eq]
        rfl
      · exact listInsert_unused

-- The checks of default_free_pages hold for pages that are not free.
theorem defaultFreePages_prepare (h : FreeList s managed free l) (hn : 0 < n)
    (hsub : Finset.Ico base (base + n) ⊆ managed)
    (hdisj : Disjoint free (Finset.Ico base (base + n))) :
    ∃ t, Prepared s t base n ∧ defaultFreePages s base n = (do
      let s ← insertBlock t base
      let (base, s) ← mergePrev s base
      mergeNext s base) := by
  have hmem : ∀ p, base ≤ p → p < base + n → p ∈ managed := fun p hlo hhi =>
    hsub (Finset.mem_Ico.mpr ⟨hlo, hhi⟩)
  have hbound : base + n ≤ s.npages := by
    have hlt := h.bound _ (hmem (base + n - 1) (by omega) (by omega))
    omega
  obtain ⟨t, ht, hprep⟩ := prepare (fun page => !page.reserved && !page.pgProperty)
    "!PageReserved(p) && !PageProperty(p)"
    (fun page => { page with reserved := false, pgProperty := false, ref := 0, pageLock := false })
    hn hbound
    (fun p hlo hhi => by
      have hhead : (s.pages p).pgProperty = false := by
        rw [Bool.eq_false_iff, Ne, h.heads p (hmem p hlo hhi)]
        exact fun hl => Finset.disjoint_left.mp hdisj (h.mem_free hl) (Finset.mem_Ico.mpr ⟨hlo, hhi⟩)
      simp [h.reserved p (hmem p hlo hhi), hhead])
    (fun q => ⟨rfl, rfl, rfl, rfl⟩)
  obtain ⟨s₀, hs₀, hhead⟩ := bind_eq_ok.mp ht
  refine ⟨t, hprep, ?_⟩
  have hpos : decide (n > 0) = true := decide_eq_true hn
  simp only [defaultFreePages, hpos, assert_true, ok_bind, hs₀, hhead]

theorem defaultFreePages_spec (h : FreeList s managed free l) (hn : 0 < n)
    (hsub : Finset.Ico base (base + n) ⊆ managed)
    (hdisj : Disjoint free (Finset.Ico base (base + n))) (horder : InOrder l base) :
    ∃ s' l', defaultFreePages s base n = .ok s' ∧
      FreeList s' managed (free ∪ Finset.Ico base (base + n)) l' ∧
      Unused s s' (Finset.Ico base (base + n)) := by
  obtain ⟨t, hprep, heq⟩ := defaultFreePages_prepare h hn hsub hdisj
  obtain ⟨s₁, l₁, l₂, hs₁, hu₁, hplaced⟩ :=
    insertBlock_spec (g := Finset.Ico base (base + n)) hprep h hn hsub hdisj horder
  obtain ⟨b, k, l₁', rest, s₂, hs₂, hplaced₂, habove, hu₂⟩ := mergePrev_spec hplaced
  obtain ⟨s₃, l', hs₃, hfl, hu₃⟩ := mergeNext_spec hplaced₂ habove
  refine ⟨s₃, l', ?_, hfl, ((hprep.unused.trans hu₁).trans hu₂).trans hu₃⟩
  simp only [heq, hs₁, ok_bind, hs₂, hs₃]

-- Out of order, the block ends up pointing back at itself.
theorem defaultFreePages_tail (h : FreeList s managed free l) (hn : 0 < n)
    (hsub : Finset.Ico base (base + n) ⊆ managed)
    (hdisj : Disjoint free (Finset.Ico base (base + n))) (horder : ¬InOrder l base) :
    ∃ s', defaultFreePages s base n = .ok s' ∧ (s'.pages base).pgProperty = true ∧
      s'.prev (.pageLink base) = .pageLink base ∧ Unused s s' (Finset.Ico base (base + n)) ∧
      ∀ p ∈ Finset.Ico base (base + n), (s'.pages p).ref = 0 := by
  obtain ⟨t, hprep, heq⟩ := defaultFreePages_prepare h hn hsub hdisj
  unfold InOrder at horder
  rw [not_or] at horder
  obtain ⟨hne, hlow⟩ := horder
  have hlt : ∀ p ∈ l, p < base := by
    intro p hp
    refine lt_of_le_of_ne (not_lt.mp fun hb => hlow ⟨p, hp, hb⟩) ?_
    rintro rfl
    exact Finset.disjoint_left.mp hdisj (h.mem_free hp) (Finset.mem_Ico.mpr ⟨le_rfl, by omega⟩)
  have hring : Ring t.next t.prev .freeList (l.map .pageLink) := by
    rw [hprep.next, hprep.prev]
    exact h.ring
  have hempty : t.next .freeList ≠ .freeList := by
    rw [Ne, hring.nil_iff]
    simpa using hne
  obtain ⟨m, x, rfl⟩ := (List.eq_nil_or_concat l).resolve_left hne
  rw [List.concat_eq_append] at h hlt hring
  have hlen := h.length_le
  rw [List.length_append, List.length_singleton] at hlen
  obtain ⟨s', hs', hpages, hnp, hnext, hprev⟩ :=
    insertLoop_tail hring.path hlt
      (show m.length + 3 ≤ t.npages + 3 by rw [hprep.npages]; omega)
  have hmem : base ∈ managed := hsub (Finset.mem_Ico.mpr ⟨le_rfl, by omega⟩)
  have hb : base < s'.npages := by
    rw [hnp, hprep.npages]
    exact h.bound base hmem
  have hcard : n ≤ s.npages := by
    have hle := (Finset.card_le_card hsub).trans h.pages_card
    rwa [Nat.card_Ico, Nat.add_sub_cancel_left] at hle
  have hsize : (s'.pages base).property = n := by
    rw [hpages, hprep.size, toUint_of_lt (by have := npages_lt s; omega)]
  refine ⟨s', ?_, ?_, hprev, ?_, fun p hp => ?_⟩
  · have hno : ¬base + (s'.pages base).property = base := by omega
    have hins : insertBlock t base = .ok s' := by
      simp only [insertBlock, listEmpty, decide_eq_true_eq, if_neg hempty, hs']
    have hmerge : mergePrev s' base = .ok (base, s') := by
      simp only [mergePrev, hprev, FreeArea.deref_eq hb, ok_bind, if_neg hno, pure_eq_ok]
    simp only [heq, hins, ok_bind, hmerge, mergeNext, hnext, pure_eq_ok]
  · rw [hpages]
    exact ((hprep.block base le_rfl (by omega)).2.2.2).mpr rfl
  · have hu := hprep.unused
    refine ⟨hnp.trans hu.npages, fun p hp => ?_, fun p hp => ?_⟩
    · rw [hpages]
      exact hu.ref p hp
    · rw [hpages]
      exact hu.lock p hp
  · obtain ⟨hlo, hhi⟩ := Finset.mem_Ico.mp hp
    rw [hpages]
    exact (hprep.block p hlo hhi).2.1

-- In any order default_free_pages returns, and only the block loses its references.
theorem defaultFreePages_returns (h : FreeList s managed free l) (hn : 0 < n)
    (hsub : Finset.Ico base (base + n) ⊆ managed)
    (hdisj : Disjoint free (Finset.Ico base (base + n))) :
    ∃ s', defaultFreePages s base n = .ok s' ∧ Unused s s' (Finset.Ico base (base + n)) ∧
      ∀ p ∈ Finset.Ico base (base + n), (s'.pages p).ref = 0 := by
  by_cases horder : InOrder l base
  · obtain ⟨s', l', hs', hfl, hu⟩ := defaultFreePages_spec h hn hsub hdisj horder
    exact ⟨s', hs', hu, fun p hp => hfl.ref p (Finset.mem_union_right _ hp)⟩
  · obtain ⟨s', hs', _, _, hu, href⟩ := defaultFreePages_tail h hn hsub hdisj horder
    exact ⟨s', hs', hu, href⟩

-- The initial block, over reserved pages and with an empty list.
theorem defaultInitMemmap_spec (hn : 0 < n) (hbound : base + n ≤ s.npages)
    (hreserved : ∀ p, base ≤ p → p < base + n → (s.pages p).reserved = true) :
    ∃ s', defaultInitMemmap (defaultInit s) base n = .ok s' ∧ s'.npages = s.npages ∧
      FreeList s' (Finset.Ico base (base + n)) (Finset.Ico base (base + n)) [base] := by
  obtain ⟨t, ht, hprep⟩ := prepare (s := defaultInit s)
    (fun page => page.reserved) "PageReserved(p)"
    (fun page => { page with
      reserved := false, pgProperty := false, property := 0, ref := 0, pageLock := false })
    hn hbound hreserved (fun q => ⟨rfl, rfl, rfl, rfl⟩)
  obtain ⟨s₀, hs₀, hhead⟩ := bind_eq_ok.mp ht
  have hnext : t.next .freeList = .freeList := by
    rw [hprep.next]
    simp [defaultInit, listInit]
  have hring : Ring t.next t.prev .freeList (([] : List Entry) ++ []) := by
    refine ⟨⟨hnext, ?_⟩, by simp⟩
    rw [hprep.prev]
    simp [defaultInit, listInit]
  have hmax : n < 4294967296 := by
    have hlt := npages_lt s
    omega
  refine ⟨listInsert t (.pageLink base) .freeList .freeList, ?_, hprep.npages, ⟨⟨?_, ?_, ?_, ?_, ?_,
    ?_, ?_, ?_⟩, ?_⟩⟩
  · have hpos : decide (n > 0) = true := decide_eq_true hn
    simp [defaultInitMemmap, hn, hs₀, hhead, insertBlock, listEmpty, hnext, listAdd]
  · exact ring_listInsert hring (by simp) rfl rfl
  · exact Finset.Subset.refl _
  · intro p hp
    rw [Finset.mem_Ico] at hp
    rw [listInsert_npages, hprep.npages]
    show p < s.npages
    omega
  · intro p hp
    rw [Finset.mem_Ico] at hp
    exact (hprep.block p hp.1 hp.2).1
  · intro p hp
    rw [Finset.mem_Ico] at hp
    rw [listInsert_pages, (hprep.block p hp.1 hp.2).2.2.2, List.mem_singleton]
  · intro p hp
    rw [Finset.mem_Ico] at hp
    exact (hprep.block p hp.1 hp.2).2.1
  · intro p hp
    rw [Finset.mem_Ico] at hp
    exact (hprep.block p hp.1 hp.2).2.2.1
  · rw [listInsert_nrFree, hprep.nrFree, Nat.card_Ico, Nat.add_sub_cancel_left]
    show toUint (0 + n) = n
    rw [Nat.zero_add, toUint_of_lt hmax]
  · have hins := Runs.empty.insert (l := []) (m := []) (b := base) hn (by simp) (by simp)
    rw [Finset.empty_union] at hins
    simpa [FreeArea.blocks, hprep.size, toUint_of_lt hmax] using hins

end Ucore.Pmm
