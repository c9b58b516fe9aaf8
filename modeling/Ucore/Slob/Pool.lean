import Mathlib.Algebra.Order.BigOperators.Group.Finset
import Mathlib.Algebra.Ring.Nat
import Ucore.Slob.Alloc

namespace Ucore.Slob

open Lib

-- The memory of slob_alloc: the arena, and the pages that it has got.
def InHeap (arena : Nat) (heap : List Nat) (i : Nat) : Prop :=
  (arena ≤ i ∧ i < arena + SLOB_UNIT) ∨ ∃ p ∈ heap, p ≤ i ∧ i < p + PAGE_SIZE

-- `i` lies in the block `r`, which is an address and a number of units.
def InBlock (r : Nat × Nat) (i : Nat) : Prop := r.1 ≤ i ∧ i < r.1 + r.2 * SLOB_UNIT

-- The free blocks and the blocks `used` share the arena and the pages `heap`. Beside these
-- pages alloc_pages has handed out `runs`.
structure Pool (s : Heap) (heap : List Nat) (runs used : List (Nat × Nat)) (free : Finset Nat)
    (l : List Nat) : Prop where
  list : FreeList s free l
  out : s.out.Perm (heap.map (fun p => (p, 0)) ++ runs)
  granted : ∀ r ∈ s.out, r.1 % PAGE_SIZE = 0 ∧ s.arena + SLOB_UNIT < r.1
  apart : s.out.Pairwise fun r q =>
    r.1 + PAGE_SIZE * 2 ^ r.2 ≤ q.1 ∨ q.1 + PAGE_SIZE * 2 ^ q.2 ≤ r.1
  pos : ∀ r ∈ used, 0 < r.2
  usedApart : used.Pairwise fun r q => ∀ i, InBlock r i → ¬InBlock q i
  usedFree : ∀ r ∈ used, ∀ i, InBlock r i → i ∉ free
  cover : ∀ i, (i ∈ free ∨ ∃ r ∈ used, InBlock r i) ↔ InHeap s.arena heap i

variable {s s' t : Heap} {heap : List Nat} {runs used used' : List (Nat × Nat)} {free : Finset Nat}
  {l : List Nat} {b k size : Nat}

theorem inHeap_cons {arena p i : Nat} :
    InHeap arena (p :: heap) i ↔ (p ≤ i ∧ i < p + PAGE_SIZE) ∨ InHeap arena heap i := by
  simp only [InHeap, List.mem_cons, exists_eq_or_imp]
  exact or_left_comm

-- The contents of the used blocks are left alone.
structure Kept (s s' : Heap) (used : List (Nat × Nat)) : Prop where
  lo : ∀ r ∈ used, ∀ i, InBlock r i → s'.lo i = s.lo i
  hi : ∀ r ∈ used, ∀ i, InBlock r i → s'.hi i = s.hi i
  arena : s'.arena = s.arena
  bigblocks : s'.bigblocks = s.bigblocks

theorem Kept.trans (h : Kept s t used) (h' : Kept t s' used) : Kept s s' used :=
  ⟨fun r hr i hi => (h'.lo r hr i hi).trans (h.lo r hr i hi),
    fun r hr i hi => (h'.hi r hr i hi).trans (h.hi r hr i hi),
    h'.arena.trans h.arena, h'.bigblocks.trans h.bigblocks⟩

namespace Pool

theorem perm (h : Pool s heap runs used free l) (hp : used.Perm used') :
    Pool s heap runs used' free l where
  list := h.list
  out := h.out
  granted := h.granted
  apart := h.apart
  pos := fun r hr => h.pos r (hp.mem_iff.mpr hr)
  usedApart := h.usedApart.perm hp fun hrq i hq hr => hrq i hr hq
  usedFree := fun r hr => h.usedFree r (hp.mem_iff.mpr hr)
  cover := fun i => by
    rw [← h.cover i]
    exact or_congr_right (exists_congr fun r => and_congr_left fun _ => hp.mem_iff.symm)

theorem permRuns (h : Pool s heap runs used free l) {runs' : List (Nat × Nat)}
    (hp : runs.Perm runs') : Pool s heap runs' used free l :=
  { h with out := h.out.trans (hp.append_left _) }

theorem heap_mem (h : Pool s heap runs used free l) {p : Nat} (hp : p ∈ heap) : (p, 0) ∈ s.out :=
  h.out.mem_iff.mpr (List.mem_append_left _ (List.mem_map_of_mem hp))

theorem run_mem (h : Pool s heap runs used free l) {r : Nat × Nat} (hr : r ∈ runs) : r ∈ s.out :=
  h.out.mem_iff.mpr (List.mem_append_right _ hr)

-- A used block lies above the arena, in the pages of the heap.
theorem used_page (h : Pool s heap runs used free l) {r : Nat × Nat} (hr : r ∈ used) {i : Nat}
    (hi : InBlock r i) : ∃ p ∈ heap, p ≤ i ∧ i < p + PAGE_SIZE := by
  rcases (h.cover i).mp (Or.inr ⟨r, hr, hi⟩) with ⟨hlo, hhi⟩ | hp
  · refine absurd (h.list.block_mem List.mem_cons_self hlo ?_) (h.usedFree r hr i hi)
    rw [h.list.arena]
    omega
  · exact hp

theorem used_above (h : Pool s heap runs used free l) {r : Nat × Nat} (hr : r ∈ used) :
    s.arena + SLOB_UNIT < r.1 := by
  have hpos := Nat.mul_pos (h.pos r hr) (show 0 < SLOB_UNIT by decide)
  obtain ⟨p, hp, hlo, _⟩ := h.used_page hr (i := r.1) ⟨le_rfl, by omega⟩
  have := (h.granted _ (h.heap_mem hp)).2
  simp only at this
  omega

-- There are not more free bytes than pages, and so no more free blocks than `limit`.
theorem room (h : Pool s heap runs used free l) : free.card < SLOB_UNIT * s.limit := by
  have hsub : free ⊆ Finset.Ico s.arena (s.arena + SLOB_UNIT) ∪
      heap.toFinset.biUnion fun p => Finset.Ico p (p + PAGE_SIZE) := by
    intro i hi
    rw [Finset.mem_union, Finset.mem_Ico, Finset.mem_biUnion]
    rcases (h.cover i).mp (Or.inl hi) with ha | ⟨p, hp, hpi⟩
    · exact Or.inl ha
    · exact Or.inr ⟨p, List.mem_toFinset.mpr hp, Finset.mem_Ico.mpr hpi⟩
  have hcard : free.card ≤ SLOB_UNIT + heap.length * PAGE_SIZE := by
    refine (Finset.card_le_card hsub).trans ((Finset.card_union_le _ _).trans ?_)
    rw [Nat.card_Ico, Nat.add_sub_cancel_left]
    refine Nat.add_le_add_left ?_ _
    have hb := Finset.card_biUnion_le_card_mul heap.toFinset
      (fun p => Finset.Ico p (p + PAGE_SIZE)) PAGE_SIZE fun p _ => by
        rw [Nat.card_Ico, Nat.add_sub_cancel_left]
    exact hb.trans (Nat.mul_le_mul_right _ (List.toFinset_card_le heap))
  have hsum : 256 * heap.length ≤ (s.out.map fun r => 256 * 2 ^ r.2).sum := by
    rw [(h.out.map _).sum_eq, List.map_append, List.sum_append]
    have hconst : ∀ c : List Nat, ((c.map fun p => (p, 0)).map fun r : Nat × Nat =>
        256 * 2 ^ r.2).sum = 256 * c.length := by
      intro c
      induction c with
      | nil => rfl
      | cons p c ih =>
          rw [List.map_cons, List.map_cons, List.sum_cons, ih, List.length_cons]
          show 256 * 1 + 256 * c.length = 256 * (c.length + 1)
          omega
    have hc := hconst heap
    omega
  have hlimit : 256 * heap.length + 2 ≤ s.limit := Nat.add_le_add_right hsum 2
  unfold SLOB_UNIT PAGE_SIZE at *
  omega

-- slob_free of a used block
theorem release (h : Pool s heap runs ((b, k) :: used) free l) (size : Nat)
    (hsize : if size = 0 then s.units b = k else SLOB_UNITS size = k) :
    ∃ s' l', slobFree s b size = .ok s' ∧
      Pool s' heap runs used (free ∪ Finset.Ico b (b + k * SLOB_UNIT)) l' ∧ Kept s s' used ∧
      s'.out = s.out ∧ s'.supply = s.supply := by
  have hblock : ∀ i, i ∈ Finset.Ico b (b + k * SLOB_UNIT) ↔ InBlock (b, k) i := fun i =>
    Finset.mem_Ico
  obtain ⟨hapart, happs⟩ := List.pairwise_cons.mp h.usedApart
  have hdisj : Disjoint free (Finset.Ico b (b + k * SLOB_UNIT)) :=
    Finset.disjoint_left.mpr fun i hi hin =>
      h.usedFree _ List.mem_cons_self i ((hblock i).mp hin) hi
  obtain ⟨s', l', hs, hl, ht, ho, hsup⟩ := slobFree_spec h.list h.room
    (h.pos _ List.mem_cons_self) (h.used_above List.mem_cons_self) hdisj hsize
  have hout : ∀ r ∈ used, ∀ i, InBlock r i → i ∉ free ∪ Finset.Ico b (b + k * SLOB_UNIT) := by
    intro r hr i hi hmem
    rcases Finset.mem_union.mp hmem with hf | hin
    · exact h.usedFree r (List.mem_cons_of_mem _ hr) i hi hf
    · exact hapart r hr i ((hblock i).mp hin) hi
  refine ⟨s', l', hs, ?_, ⟨fun r hr i hi => ht.lo i (hout r hr i hi),
    fun r hr i hi => ht.hi i (hout r hr i hi), ht.arena, ht.bigblocks⟩, ho, hsup⟩
  refine ⟨hl, ho ▸ h.out, ?_, ho ▸ h.apart, fun r hr => h.pos r (List.mem_cons_of_mem _ hr),
    happs, hout, fun i => ?_⟩
  · rw [ho, ht.arena]
    exact h.granted
  · rw [ht.arena, ← h.cover i, Finset.mem_union, hblock i]
    simp only [List.mem_cons, exists_eq_or_imp]
    tauto

-- A block of slob_alloc is used.
theorem use (h : Pool s heap runs used free l) {s' : Heap} {l' : List Nat}
    (hl : FreeList s' (free \ Finset.Ico b (b + k * SLOB_UNIT)) l') (hk : 0 < k)
    (hin : Finset.Ico b (b + k * SLOB_UNIT) ⊆ free) (harena : s'.arena = s.arena)
    (hout : s'.out = s.out) :
    Pool s' heap runs ((b, k) :: used) (free \ Finset.Ico b (b + k * SLOB_UNIT)) l' := by
  have hblock : ∀ i, i ∈ Finset.Ico b (b + k * SLOB_UNIT) ↔ InBlock (b, k) i := fun i =>
    Finset.mem_Ico
  refine ⟨hl, hout ▸ h.out, ?_, hout ▸ h.apart, ?_, ?_, ?_, fun i => ?_⟩
  · rw [hout, harena]
    exact h.granted
  · intro r hr
    rcases List.mem_cons.mp hr with rfl | hr
    · exact hk
    · exact h.pos r hr
  · refine List.pairwise_cons.mpr ⟨fun r hr i hi hri => ?_, h.usedApart⟩
    exact h.usedFree r hr i hri (hin ((hblock i).mpr hi))
  · intro r hr i hi hmem
    obtain ⟨hf, hno⟩ := Finset.mem_sdiff.mp hmem
    rcases List.mem_cons.mp hr with rfl | hr
    · exact hno ((hblock i).mpr hi)
    · exact h.usedFree r hr i hi hf
  · rw [harena, ← h.cover i, Finset.mem_sdiff, hblock i]
    have hsub := fun hi => hin ((hblock i).mpr hi)
    simp only [List.mem_cons, exists_eq_or_imp]
    tauto

-- A page that alloc_pages hands out, before slob_free puts it into the list
theorem grant (h : Pool s heap runs used free l) {page : Nat} (rest : List (Option Nat))
    (hg : s.Grants page 0) :
    Pool { s with supply := rest, out := (page, 0) :: s.out } (page :: heap) runs
      ((page, 256) :: used) free l := by
  obtain ⟨halign, habove, _, hout⟩ := hg
  -- the page has nothing in common with the heap
  have hnew : ∀ i, InBlock (page, 256) i → ¬InHeap s.arena heap i := by
    rintro i ⟨hlo, hhi⟩ (⟨_, ha⟩ | ⟨p, hp, hplo, hphi⟩)
    · simp only at hlo
      omega
    · have hd := hout _ (h.heap_mem hp)
      simp only [Nat.pow_zero, Nat.mul_one, PAGE_SIZE, SLOB_UNIT] at hlo hhi hd hplo hphi
      omega
  refine ⟨h.list.congr rfl rfl fun _ _ => ⟨rfl, rfl⟩, h.out.cons _, ?_, ?_, ?_, ?_, ?_, fun i => ?_⟩
  · intro r hr
    rcases List.mem_cons.mp hr with rfl | hr
    · exact ⟨halign, habove⟩
    · exact h.granted r hr
  · exact List.pairwise_cons.mpr ⟨fun r hr => (hout r hr).symm, h.apart⟩
  · intro r hr
    rcases List.mem_cons.mp hr with rfl | hr
    · exact Nat.zero_lt_succ 255
    · exact h.pos r hr
  · refine List.pairwise_cons.mpr ⟨fun r hr i hi hri => ?_, h.usedApart⟩
    exact hnew i hi ((h.cover i).mp (Or.inr ⟨r, hr, hri⟩))
  · intro r hr i hi hf
    rcases List.mem_cons.mp hr with rfl | hr
    · exact hnew i hi ((h.cover i).mp (Or.inl hf))
    · exact h.usedFree r hr i hi hf
  · have hsize : InBlock (page, 256) i ↔ page ≤ i ∧ i < page + PAGE_SIZE := Iff.rfl
    show _ ↔ InHeap s.arena (page :: heap) i
    rw [inHeap_cons, ← h.cover i]
    simp only [List.mem_cons, exists_eq_or_imp]
    rw [hsize]
    exact or_left_comm

-- A run of pages that alloc_pages hands out for a big block
theorem grantRun (h : Pool s heap runs used free l) {page order : Nat}
    (rest : List (Option Nat))
    (hg : s.Grants page order) :
    Pool { s with supply := rest, out := (page, order) :: s.out } heap ((page, order) :: runs)
      used free l := by
  obtain ⟨halign, habove, _, hout⟩ := hg
  refine ⟨h.list.congr rfl rfl fun _ _ => ⟨rfl, rfl⟩,
    (h.out.cons _).trans List.perm_middle.symm, ?_, ?_, h.pos, h.usedApart, h.usedFree, h.cover⟩
  · intro r hr
    rcases List.mem_cons.mp hr with rfl | hr
    · exact ⟨halign, habove⟩
    · exact h.granted r hr
  · exact List.pairwise_cons.mpr ⟨fun r hr => (hout r hr).symm, h.apart⟩

-- A run of pages that goes back to alloc_pages
theorem dropRun (h : Pool s heap ((b, k) :: runs) used free l) :
    Pool (slobFreePages s b k) heap runs used free l where
  list := h.list.congr rfl rfl fun _ _ => ⟨rfl, rfl⟩
  out := by
    have hp := (h.out.trans List.perm_middle).erase (b, k)
    rwa [List.erase_cons_head] at hp
  granted := fun r hr => h.granted r (List.mem_of_mem_erase hr)
  apart := h.apart.sublist List.erase_sublist
  pos := h.pos
  usedApart := h.usedApart
  usedFree := h.usedFree
  cover := h.cover

-- The pages of the heap and the runs are apart.
theorem runs_apart (h : Pool s heap runs used free l) :
    (heap.map (fun p => (p, 0)) ++ runs).Pairwise fun r q : Nat × Nat =>
      r.1 + PAGE_SIZE * 2 ^ r.2 ≤ q.1 ∨ q.1 + PAGE_SIZE * 2 ^ q.2 ≤ r.1 :=
  h.apart.perm h.out fun hrq => hrq.symm

-- A run has nothing in common with the memory of slob_alloc.
theorem run_outside (h : Pool s heap runs used free l) {r : Nat × Nat} (hr : r ∈ runs) {i : Nat}
    (hlo : r.1 ≤ i) (hhi : i < r.1 + PAGE_SIZE * 2 ^ r.2) : ¬InHeap s.arena heap i := by
  have habove := (h.granted r (h.run_mem hr)).2
  rintro (⟨_, ha⟩ | ⟨p, hp, hplo, hphi⟩)
  · omega
  · have hpage : p + PAGE_SIZE * 2 ^ 0 ≤ r.1 ∨ r.1 + PAGE_SIZE * 2 ^ r.2 ≤ p :=
      (List.pairwise_append.mp h.runs_apart).2.2 (p, 0) (List.mem_map_of_mem hp) r hr
    omega

-- The words of the heap may change where no free block is.
theorem congr (h : Pool s heap runs used free l) (harena : s'.arena = s.arena)
    (hrover : s'.slobfree = s.slobfree) (hout : s'.out = s.out)
    (hsame : ∀ i ∈ free, s'.lo i = s.lo i ∧ s'.hi i = s.hi i) :
    Pool s' heap runs used free l where
  list := h.list.congr harena hrover hsame
  out := hout ▸ h.out
  granted := by
    rw [hout, harena]
    exact h.granted
  apart := hout ▸ h.apart
  pos := h.pos
  usedApart := h.usedApart
  usedFree := h.usedFree
  cover := harena ▸ h.cover

end Pool

theorem slobGetFreePages_cases (s : Heap) (order : Nat) :
    (∃ rest, slobGetFreePages s order = (NULL, { s with supply := rest })) ∨
      ∃ page rest, s.Grants page order ∧ page ≠ NULL ∧ slobGetFreePages s order =
        (page, { s with supply := rest, out := (page, order) :: s.out }) := by
  unfold slobGetFreePages
  cases hsup : s.supply with
  | nil =>
      have hs : { s with supply := [] } = s := by rw [← hsup]
      exact Or.inl ⟨[], by rw [hs]⟩
  | cons proposal rest =>
      cases proposal with
      | none => exact Or.inl ⟨rest, rfl⟩
      | some page =>
          by_cases hg : s.Grants page order
          · have hnull : page ≠ NULL := Nat.ne_of_gt (Nat.zero_lt_of_lt hg.2.1)
            exact Or.inr ⟨page, rest, hg, hnull, if_pos hg⟩
          · exact Or.inl ⟨rest, if_neg hg⟩

-- What slob_alloc leaves behind: a used block, or nothing if alloc_pages has failed.
inductive Served (s : Heap) (heap : List Nat) (runs used : List (Nat × Nat)) (free : Finset Nat)
    (l : List Nat) (k : Nat) : Nat → Heap → Prop
  | refused {s' : Heap} : Pool s' heap runs used free l → Kept s s' used →
      Served s heap runs used free l k NULL s'
  | block {s' : Heap} {a : Nat} {heap' : List Nat} {free' : Finset Nat} {l' : List Nat} :
      Pool s' heap' runs ((a, k) :: used) free' l' → s'.units a = k → Kept s s' used →
      Served s heap runs used free l k a s'

theorem Pool.taken (h : Pool s heap runs used free l) {x y : Nat} (hk : 0 < k) (hx : x ∈ l)
    (hy : y ∈ s.arena :: l) (hnext : s.next y = x) (hfit : k ≤ s.units x) :
    ∃ free' l', Pool (take s y x k) heap runs ((x, k) :: used) free' l' ∧
      (take s y x k).units x = k ∧ Kept s (take s y x k) used := by
  obtain ⟨l', hl', hu, ht, ho, _⟩ := take_spec h.list hx hy hnext hk hfit
  refine ⟨_, l', h.use hl' hk ?_ ht.arena ho, hu, fun r hr i hi => ht.lo i (h.usedFree r hr i hi),
    fun r hr i hi => ht.hi i (h.usedFree r hr i hi), ht.arena, ht.bigblocks⟩
  intro i hi
  obtain ⟨hlo, hhi⟩ := Finset.mem_Ico.mp hi
  refine h.list.block_mem (List.mem_cons_of_mem _ hx) hlo (lt_of_lt_of_le hhi ?_)
  exact Nat.add_le_add_left (Nat.mul_le_mul_right _ hfit) x

-- slob_alloc: one more page is enough.
theorem slobAlloc_spec (h : Pool s heap runs used free l) (hsize : size + SLOB_UNIT < PAGE_SIZE)
    (hk : 1 < SLOB_UNITS size) :
    ∃ a s', slobAlloc s size = .ok (a, s') ∧
      Served s heap runs used free l (SLOB_UNITS size) a s' := by
  have hlen := h.list.length_lt h.room
  have hpos : 0 < SLOB_UNITS size := by omega
  have hassert : decide (size + SLOB_UNIT < PAGE_SIZE) = true := decide_eq_true hsize
  obtain ⟨fuel, hfuel⟩ : ∃ fuel, 2 * s.limit + 512 = (s.arena :: l).length + fuel :=
    ⟨2 * s.limit + 512 - (s.arena :: l).length, by omega⟩
  simp only [slobAlloc, hassert, assert_true, ok_bind]
  rw [hfuel]
  rcases h.list.scan fuel hk with ⟨z, w, hz, hw, hzw, hfit, he⟩ | ⟨_, he⟩
  · obtain ⟨free', l', hp, hu, hkept⟩ := h.taken hpos hw hz hzw hfit
    exact ⟨w, _, he, .block hp hu hkept⟩
  · rw [he, refill, if_neg (by unfold SLOB_UNIT at hsize; omega)]
    rcases slobGetFreePages_cases s 0 with ⟨rest, hget⟩ | ⟨page, rest, hg, hnull, hget⟩
    · refine ⟨NULL, { s with supply := rest }, ?_, .refused (h.congr rfl rfl rfl fun _ _ => ⟨rfl, rfl⟩)
        ⟨fun _ _ _ _ => rfl, fun _ _ _ _ => rfl, rfl, rfl⟩⟩
      rw [hget]
      exact if_pos rfl
    · rw [hget]
      simp only [if_neg hnull]
      have hgrant := h.grant rest hg
      obtain ⟨s₁, l₁, hs₁, hp₁, hkept₁, hout₁, _⟩ :=
        hgrant.release PAGE_SIZE (show SLOB_UNITS PAGE_SIZE = 256 by decide)
      rw [hs₁, ok_bind]
      have hlen₁ := hp₁.list.length_lt hp₁.room
      have hlimit : s₁.limit = s.limit + 256 := by
        unfold Heap.limit
        rw [hout₁, List.map_cons, List.sum_cons]
        show 256 * 1 + _ + 2 = _
        omega
      obtain ⟨fuel₁, hfuel₁⟩ : ∃ f, fuel = (s₁.arena :: l₁).length + f :=
        ⟨fuel - (s₁.arena :: l₁).length, by omega⟩
      rw [hfuel₁]
      rcases hp₁.list.scan fuel₁ hk with ⟨z, w, hz, hw, hzw, hfit, he₁⟩ | ⟨hall, _⟩
      · obtain ⟨free', l', hp, hu, hkept⟩ := hp₁.taken hpos hw hz hzw hfit
        refine ⟨w, _, he₁, .block hp hu ?_⟩
        exact Kept.trans ⟨hkept₁.lo, hkept₁.hi, hkept₁.arena, hkept₁.bigblocks⟩ hkept
      · -- the block with the new page is large enough
        exfalso
        have hunits : SLOB_UNITS size ≤ 255 := by
          unfold SLOB_UNITS SLOB_UNIT PAGE_SIZE at *
          omega
        have hmem : ∀ i, page ≤ i → i < page + 256 * SLOB_UNIT →
            i ∈ free ∪ Finset.Ico page (page + 256 * SLOB_UNIT) := fun i hlo hhi =>
          Finset.mem_union_right _ (Finset.mem_Ico.mpr ⟨hlo, hhi⟩)
        obtain ⟨r, hr, hlo, hhi⟩ := (hp₁.list.runs.mem page).mp
          (hmem page le_rfl (by unfold SLOB_UNIT; omega))
        have habove := (hp₁.list.runs.maximal hr).above
        obtain ⟨hw, hsz⟩ := mem_blocks.mp hr
        have hlt := hall r.1 hw
        have hmul : s₁.units r.1 * SLOB_UNIT ≤ 255 * SLOB_UNIT := Nat.mul_le_mul_right _ (by omega)
        refine habove (hmem _ hhi.le ?_)
        unfold SLOB_UNIT at *
        omega

-- One unit is taken from the first block that is met, whatever it is.
theorem slobAlloc_first (h : FreeList s free l) :
    slobAlloc s SLOB_UNIT = .ok (s.next s.slobfree, take s s.slobfree (s.next s.slobfree) 1) := by
  have hassert : decide (SLOB_UNIT + SLOB_UNIT < PAGE_SIZE) = true := by decide
  have hunits : s.units (s.next s.slobfree) ≥ SLOB_UNITS SLOB_UNIT := by
    have hpos := h.units_pos (h.next_mem h.rover)
    exact hpos
  simp only [slobAlloc, hassert, assert_true, ok_bind]
  rw [show 2 * s.limit + 512 = (2 * s.limit + 511) + 1 by omega, allocLoop, if_pos hunits]
  rfl

theorem slobAlloc_unit (h : Pool s heap runs used free l) (hnext : s.next s.slobfree ≠ s.arena) :
    ∃ a s', slobAlloc s SLOB_UNIT = .ok (a, s') ∧ Served s heap runs used free l 1 a s' := by
  have hmem := h.list.next_mem h.list.rover
  have hin : s.next s.slobfree ∈ l := (List.mem_cons.mp hmem).resolve_left hnext
  obtain ⟨free', l', hp, hu, hkept⟩ := h.taken Nat.one_pos hin h.list.rover rfl (h.list.units_pos hmem)
  exact ⟨_, _, slobAlloc_first h.list, .block hp hu hkept⟩

end Ucore.Slob
