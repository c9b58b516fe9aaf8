import Ucore.Slob.Invariant

namespace Ucore.Slob

open Lib

variable {s s' t : Heap} {free : Finset Nat} {l m n : List Nat} {b k p q size : Nat}

-- Only the bytes in `touched` are written, and nothing but the free list changes.
structure Touched (s s' : Heap) (touched : Finset Nat) : Prop where
  lo : ∀ a ∉ touched, s'.lo a = s.lo a
  hi : ∀ a ∉ touched, s'.hi a = s.hi a
  arena : s'.arena = s.arena
  bigblocks : s'.bigblocks = s.bigblocks

theorem Touched.refl {d : Finset Nat} : Touched s s d := ⟨fun _ _ => rfl, fun _ _ => rfl, rfl, rfl⟩

theorem Touched.trans {d : Finset Nat} (h : Touched s t d) (h' : Touched t s' d) : Touched s s' d :=
  ⟨fun a ha => (h'.lo a ha).trans (h.lo a ha), fun a ha => (h'.hi a ha).trans (h.hi a ha),
    h'.arena.trans h.arena, h'.bigblocks.trans h.bigblocks⟩

theorem Touched.mono {d e : Finset Nat} (h : Touched s s' d) (hsub : d ⊆ e) : Touched s s' e :=
  ⟨fun a ha => h.lo a fun hd => ha (hsub hd), fun a ha => h.hi a fun hd => ha (hsub hd),
    h.arena, h.bigblocks⟩

theorem touched_setUnits {d : Finset Nat} (hb : b ∈ d) : Touched s (s.setUnits b k) d := by
  refine ⟨fun a ha => ?_, fun _ _ => rfl, rfl, rfl⟩
  refine Function.update_of_ne ?_ _ _
  rintro rfl
  exact ha hb

theorem touched_setNext {d : Finset Nat} (hb : b ∈ d) : Touched s (s.setNext b k) d := by
  refine ⟨fun _ _ => rfl, fun a ha => ?_, rfl, rfl⟩
  refine Function.update_of_ne ?_ _ _
  rintro rfl
  exact ha hb

-- Where a block of `k` units at `b` belongs in the free list: behind `p`, in front of `n`.
structure Place (s : Heap) (free : Finset Nat) (l m : List Nat) (p : Nat) (n : List Nat)
    (b k : Nat) : Prop where
  list : FreeList s free l
  split : s.arena :: l = m ++ p :: n
  pos : 0 < k
  above : s.arena + SLOB_UNIT < b
  disj : Disjoint free (Finset.Ico b (b + k * SLOB_UNIT))
  lt : p < b
  before : ∀ y ∈ m, y < p
  behind : ∀ y ∈ n, b < y

namespace Place

theorem mem (h : Place s free l m p n b k) : p ∈ s.arena :: l :=
  h.split ▸ List.mem_append_right m List.mem_cons_self

theorem mem_behind (h : Place s free l m p n b k) {y : Nat} (hy : y ∈ n) : y ∈ s.arena :: l :=
  h.split ▸ List.mem_append_right m (List.mem_cons_of_mem p hy)

theorem notMem (h : Place s free l m p n b k) {i : Nat} (hlo : b ≤ i) (hhi : i < b + k * SLOB_UNIT) :
    i ∉ free := fun hf =>
  Finset.disjoint_left.mp h.disj hf (Finset.mem_Ico.mpr ⟨hlo, hhi⟩)

theorem size_pos (h : Place s free l m p n b k) : 0 < k * SLOB_UNIT :=
  Nat.mul_pos h.pos (by decide)

theorem head (h : Place s free l m p n b k) (n' : List Nat) :
    ∃ l', s.arena :: l' = m ++ p :: n' := by
  have hsplit := h.split
  cases m with
  | nil =>
      obtain ⟨rfl, _⟩ := List.cons.inj hsplit
      exact ⟨n', rfl⟩
  | cons c m =>
      obtain ⟨rfl, _⟩ := List.cons.inj hsplit
      exact ⟨m ++ p :: n', rfl⟩

-- The block in front ends at `b` or before.
theorem block_le (h : Place s free l m p n b k) : p + s.units p * SLOB_UNIT ≤ b := by
  by_contra hlt
  have hpos := h.size_pos
  exact h.notMem le_rfl (by omega) (h.list.block_mem h.mem h.lt.le (by omega))

-- The new block ends at the one behind it or before.
theorem le_block (h : Place s free l m p n b k) {y : Nat} (hy : y ∈ n) : b + k * SLOB_UNIT ≤ y := by
  by_contra hlt
  have hby := h.behind y hy
  exact h.notMem hby.le (by omega) (h.list.start_mem (h.mem_behind hy))

theorem runs (h : Place s free l m p n b k) :
    Runs free (s.blocks m ++ (p, s.units p * SLOB_UNIT) :: s.blocks n) := by
  have hr := h.list.runs
  rwa [h.split, blocks_append, blocks_cons] at hr

theorem gap_before (h : Place s free l m p n b k) {r : Nat × Nat} (hr : r ∈ s.blocks m) :
    r.1 + r.2 < p :=
  (List.pairwise_append.mp h.runs.gap).2.2 r hr _ List.mem_cons_self

theorem gap_behind (h : Place s free l m p n b k) (hq : b + k * SLOB_UNIT ≠ s.next p) {r : Nat × Nat}
    (hr : r ∈ s.blocks n) : b + k * SLOB_UNIT < r.1 := by
  have hround := h.list.round
  rw [h.split] at hround
  have hmem := (mem_blocks.mp hr).1
  cases n with
  | nil => exact absurd hmem List.not_mem_nil
  | cons x n =>
      rw [hround.next_eq] at hq
      have hx := h.le_block (y := x) List.mem_cons_self
      rcases List.mem_cons.mp hmem with hrx | hmem
      · omega
      · have hasc := h.list.ascending
        rw [h.split, List.pairwise_append, List.pairwise_cons, List.pairwise_cons] at hasc
        have hlt := hasc.2.1.2.1 r.1 hmem
        omega

-- If the block ends where the entry behind it begins, that entry is the next member.
theorem next_member (h : Place s free l m p n b k) (hq : b + k * SLOB_UNIT = s.next p) :
    ∃ n', n = s.next p :: n' := by
  have hround := h.list.round
  rw [h.split] at hround
  cases n with
  | cons x n' => exact ⟨n', by rw [hround.next_eq]⟩
  | nil =>
      rcases h.list.next_cases h.mem with ⟨m₁, n₁, hs⟩ | ⟨_, hnext⟩
      · have hasc := h.list.ascending
        rw [hs, List.pairwise_append, List.pairwise_cons] at hasc
        have hlt := hasc.2.1.1 _ List.mem_cons_self
        have hmem : s.next p ∈ m ++ [p] := by
          rw [← h.split, hs]
          simp
        rw [List.mem_append, List.mem_singleton] at hmem
        rcases hmem with hmem | hmem
        · have := h.before _ hmem
          omega
        · omega
      · have := h.above
        omega

end Place

-- A new list of the same memory: the members of `m` keep their links and sizes.
theorem Place.rebuild (h : Place s free l m p n b k) (n' : List Nat) {g : Finset Nat}
    (hround : Round s'.next (m ++ p :: n'))
    (hruns : Runs g (s'.blocks m ++ s'.blocks (p :: n'))) (harena : s'.arena = s.arena)
    (hunits : s'.units s.arena = 1) :
    ∃ l', FreeList { s' with slobfree := p } g l' := by
  obtain ⟨l', hl'⟩ := h.head n'
  refine ⟨l', ?_, ?_, ?_, ?_⟩
  · show Round s'.next (s'.arena :: l')
    rw [harena, hl']
    exact hround
  · show p ∈ s'.arena :: l'
    rw [harena, hl']
    exact List.mem_append_right m List.mem_cons_self
  · show Runs g (s'.blocks (s'.arena :: l'))
    rw [harena, hl', blocks_append]
    exact hruns
  · show s'.units s'.arena = 1
    rw [harena]
    exact hunits

-- The four ways to put a block into the list.
theorem Place.link (h : Place s free l m p n b k) (hk : s.units b = k) :
    ∃ l', FreeList { linkPrev (linkNext s b p) b p with slobfree := p }
      (free ∪ Finset.Ico b (b + k * SLOB_UNIT)) l' := by
  have hround := h.list.round
  rw [h.split] at hround
  have hpb : p ≠ b := Nat.ne_of_lt h.lt
  have hmb : ∀ y ∈ m, y ≠ b ∧ y ≠ p := fun y hy => by
    have := h.before y hy
    have := h.lt
    omega
  have hnb : ∀ y ∈ n, y ≠ b ∧ y ≠ p := fun y hy => by
    have := h.behind y hy
    have := h.lt
    omega
  have hab : s.arena ≠ b := by
    have := h.above
    omega
  have hruns := h.runs
  have hpos := h.size_pos
  have hle := h.block_le
  by_cases hN : b + k * SLOB_UNIT = s.next p
  · obtain ⟨n', hn⟩ := h.next_member hN
    generalize hq : s.next p = q at hn hN
    subst hn
    have hqb : q ≠ b ∧ q ≠ p := hnb q List.mem_cons_self
    have hnb' : ∀ y ∈ n', y ≠ b ∧ y ≠ p := fun y hy => hnb y (List.mem_cons_of_mem q hy)
    have hgap : ∀ r ∈ s.blocks n', q + s.units q * SLOB_UNIT < r.1 := by
      have hg := hruns.gap
      rw [blocks_cons, List.pairwise_append, List.pairwise_cons, List.pairwise_cons] at hg
      exact hg.2.1.2.1
    have hlinkN : linkNext s b p =
        (s.setUnits b (k + s.units q)).setNext b (s.next q) := by
      unfold linkNext
      rw [hk, hq, if_pos hN]
      show (s.setUnits b (k + s.units q)).setNext b (s.next (s.next p)) = _
      rw [hq]
    by_cases hP : p + s.units p * SLOB_UNIT = b
    · -- `p`, the block and `q` become one
      have hpa : p ≠ s.arena := by
        rintro rfl
        have := h.above
        rw [h.list.arena] at hP
        omega
      have hlink : linkPrev (linkNext s b p) b p =
          (((s.setUnits b (k + s.units q)).setNext b (s.next q)).setUnits p
            (s.units p + (k + s.units q))).setNext p (s.next q) := by
        rw [hlinkN]
        simp [linkPrev, hpb, hP]
      rw [hlink]
      refine h.rebuild n' ?_ ?_ rfl ?_
      · refine hround.remove (by simp) fun y hy => ?_
        have hyne : y ≠ b ∧ y ≠ p := hy.elim (hmb y) (hnb' y)
        simp [hyne.1, hyne.2]
      · rw [blocks_congr (s := s) fun y hy => by simp [hmb y hy], blocks_cons,
          blocks_congr (l := n') (s := s) fun y hy => by simp [hnb' y hy]]
        rw [blocks_cons] at hruns
        have hruns' : Runs free (s.blocks m ++
            ([(p, s.units p * SLOB_UNIT), (q, s.units q * SLOB_UNIT)] ++ s.blocks n')) := hruns
        refine Runs.merge hruns' ?_ (fun r hr => h.gap_before hr) (fun r hr => ?_) fun i => ?_
        · simp only [setNext_units, setUnits_units, if_true, Nat.add_mul]
          omega
        · have := hgap r hr
          simp [Nat.add_mul]
          omega
        · simp [Nat.add_mul]
          omega
      · simp [hab, hpa.symm, h.list.arena]
    · -- the block and `q` become one
      have hlink : linkPrev (linkNext s b p) b p =
          ((s.setUnits b (k + s.units q)).setNext b (s.next q)).setNext p b := by
        rw [hlinkN]
        simp [linkPrev, hpb, hP]
      rw [hlink]
      refine h.rebuild (b :: n') ?_ ?_ rfl ?_
      · have hrem : Round (Function.update s.next p (s.next q)) (m ++ p :: n') := by
          refine hround.remove (by simp) fun y hy => ?_
          exact Function.update_of_ne (hy.elim (fun hy => (hmb y hy).2) fun hy => (hnb' y hy).2) _ _
        refine hrem.insert (by simp) (by simp [hpb.symm]) fun y hy => ?_
        have hyne : y ≠ b ∧ y ≠ p := hy.elim (hmb y) (hnb' y)
        simp [hyne.1, hyne.2]
      · rw [blocks_congr (s := s) fun y hy => by simp [hmb y hy], blocks_cons, blocks_cons,
          blocks_congr (l := n') (s := s) fun y hy => by simp [hnb' y hy]]
        rw [blocks_cons] at hruns
        have hruns' : Runs free ((s.blocks m ++ [(p, s.units p * SLOB_UNIT)]) ++
            ([(q, s.units q * SLOB_UNIT)] ++ s.blocks n')) := by simpa using hruns
        have hmerge : Runs (free ∪ Finset.Ico b (b + k * SLOB_UNIT))
            ((s.blocks m ++ [(p, s.units p * SLOB_UNIT)]) ++
              (b, (k + s.units q) * SLOB_UNIT) :: s.blocks n') := by
          refine Runs.merge hruns' ?_ (fun r hr => ?_) (fun r hr => ?_) fun i => ?_
          · rw [Nat.add_mul]
            omega
          · rcases List.mem_append.mp hr with hr | hr
            · have := h.gap_before hr
              have := h.lt
              omega
            · rw [List.mem_singleton] at hr
              subst hr
              simp
              omega
          · have := hgap r hr
            rw [Nat.add_mul]
            omega
          · simp [Nat.add_mul]
            omega
        simpa [hpb] using hmerge
      · simp [hab, h.list.arena]
  · have hgap : ∀ r ∈ s.blocks n, b + k * SLOB_UNIT < r.1 := fun r hr => h.gap_behind hN hr
    have hlinkN : linkNext s b p = s.setNext b (s.next p) := by
      unfold linkNext
      rw [hk, if_neg hN]
    by_cases hP : p + s.units p * SLOB_UNIT = b
    · -- `p` and the block become one
      have hpa : p ≠ s.arena := by
        rintro rfl
        have := h.above
        rw [h.list.arena] at hP
        omega
      have hlink : linkPrev (linkNext s b p) b p =
          ((s.setNext b (s.next p)).setUnits p (s.units p + k)).setNext p (s.next p) := by
        rw [hlinkN]
        simp [linkPrev, hP, hk]
      rw [hlink]
      refine h.rebuild n ?_ ?_ rfl ?_
      · refine hround.congr fun y hy => ?_
        rw [List.mem_append, List.mem_cons] at hy
        by_cases hyp : y = p
        · simp [hyp]
        · have hyne : y ≠ b := by
            rcases hy with hy | hy | hy
            · exact (hmb y hy).1
            · exact absurd hy hyp
            · exact (hnb y hy).1
          simp [hyp, hyne]
      · rw [blocks_congr (s := s) fun y hy => by simp [hmb y hy], blocks_cons,
          blocks_congr (l := n) (s := s) fun y hy => by simp [hnb y hy]]
        have hruns' : Runs free (s.blocks m ++ ([(p, s.units p * SLOB_UNIT)] ++ s.blocks n)) :=
          hruns
        refine Runs.merge hruns' ?_ (fun r hr => h.gap_before hr) (fun r hr => ?_) fun i => ?_
        · simp only [setNext_units, setUnits_units, if_true, Nat.add_mul]
          omega
        · have := hgap r hr
          simp [Nat.add_mul]
          omega
        · simp [Nat.add_mul]
          omega
      · simp [hpa.symm, h.list.arena]
    · -- the block stays by itself
      have hlink : linkPrev (linkNext s b p) b p = (s.setNext b (s.next p)).setNext p b := by
        rw [hlinkN]
        simp [linkPrev, hP]
      rw [hlink]
      refine h.rebuild (b :: n) ?_ ?_ rfl ?_
      · refine hround.insert (by simp) (by simp [hpb.symm]) fun y hy => ?_
        have hyne : y ≠ b ∧ y ≠ p := hy.elim (hmb y) (hnb y)
        simp [hyne.1, hyne.2]
      · have hruns' : Runs free ((s.blocks m ++ [(p, s.units p * SLOB_UNIT)]) ++ s.blocks n) := by
          simpa using hruns
        have hins := hruns'.insert hpos (fun r hr => by
          rcases List.mem_append.mp hr with hr | hr
          · have := h.gap_before hr
            have := h.lt
            omega
          · rw [List.mem_singleton] at hr
            subst hr
            simp
            omega) hgap
        simpa [blocks_cons, hk] using hins
      · simp [h.list.arena]

theorem touched_linkNext {d : Finset Nat} (hb : b ∈ d) : Touched s (linkNext s b p) d := by
  unfold linkNext
  split
  · exact (touched_setUnits hb).trans (touched_setNext hb)
  · exact touched_setNext hb

theorem touched_linkPrev {d : Finset Nat} (hp : p ∈ d) : Touched s (linkPrev s b p) d := by
  unfold linkPrev
  split
  · exact (touched_setUnits hp).trans (touched_setNext hp)
  · exact touched_setNext hp

theorem link_out : (linkPrev (linkNext s b p) b p).out = s.out := by
  unfold linkPrev linkNext
  split <;> split <;> rfl

theorem link_supply : (linkPrev (linkNext s b p) b p).supply = s.supply := by
  unfold linkPrev linkNext
  split <;> split <;> rfl

-- slob_free, of a block of `k` units
theorem slobFree_spec (h : FreeList s free l) (hroom : free.card < SLOB_UNIT * s.limit) (hk : 0 < k)
    (habove : s.arena + SLOB_UNIT < b)
    (hdisj : Disjoint free (Finset.Ico b (b + k * SLOB_UNIT)))
    (hsize : if size = 0 then s.units b = k else SLOB_UNITS size = k) :
    ∃ s' l', slobFree s b size = .ok s' ∧
      FreeList s' (free ∪ Finset.Ico b (b + k * SLOB_UNIT)) l' ∧
      Touched s s' (free ∪ Finset.Ico b (b + k * SLOB_UNIT)) ∧ s'.out = s.out ∧
      s'.supply = s.supply := by
  have hpos : 0 < k * SLOB_UNIT := Nat.mul_pos hk (by decide)
  have hbin : b ∈ free ∪ Finset.Ico b (b + k * SLOB_UNIT) :=
    Finset.mem_union_right _ (Finset.mem_Ico.mpr ⟨le_rfl, by omega⟩)
  have hbout : b ∉ free := fun hf =>
    Finset.disjoint_left.mp hdisj hf (Finset.mem_Ico.mpr ⟨le_rfl, by omega⟩)
  -- the header of the block is set
  obtain ⟨t, ht, htout, htsup, htlim, htu, htl, htouch⟩ : ∃ t : Heap,
      (if size ≠ 0 then s.setUnits b (SLOB_UNITS size) else s) = t ∧ t.out = s.out ∧
        t.supply = s.supply ∧ t.limit = s.limit ∧ t.units b = k ∧ FreeList t free l ∧
        Touched s t (free ∪ Finset.Ico b (b + k * SLOB_UNIT)) := by
    by_cases hs : size = 0
    · rw [if_pos hs] at hsize
      exact ⟨s, if_neg (not_not.mpr hs), rfl, rfl, rfl, hsize, h, .refl⟩
    · rw [if_neg hs] at hsize
      refine ⟨s.setUnits b (SLOB_UNITS size), if_pos hs, rfl, rfl, rfl, by simp [hsize], ?_,
        touched_setUnits hbin⟩
      refine h.congr rfl rfl fun x hx => ⟨?_, rfl⟩
      refine Function.update_of_ne ?_ _ _
      rintro rfl
      exact hbout hx
  have habove' : t.arena + SLOB_UNIT < b := htouch.arena ▸ habove
  have hroom' : free.card < SLOB_UNIT * t.limit := htlim ▸ hroom
  obtain ⟨m, p, n, hsplit, hp, hm, hn⟩ := htl.exists_below (by omega : t.arena < b)
    fun hmem => hbout (htl.start_mem hmem)
  have hplace : Place t free l m p n b k := ⟨htl, hsplit, hk, habove', hdisj, hp, hm, hn⟩
  have hpin : p ∈ free ∪ Finset.Ico b (b + k * SLOB_UNIT) :=
    Finset.mem_union_left _ (htl.start_mem hplace.mem)
  obtain ⟨l', hl'⟩ := hplace.link htu
  have hnull : b ≠ NULL := Nat.ne_of_gt (Nat.zero_lt_of_lt habove)
  refine ⟨_, l', ?_, hl', ?_, link_out.trans htout, link_supply.trans htsup⟩
  · rw [slobFree, if_neg hnull]
    simp only [ht, htl.search hroom' hsplit hp hm hn, ok_bind, pure_eq_ok]
  · have hlink := htouch.trans
      ((touched_linkNext (p := p) hbin).trans (touched_linkPrev (b := b) hpin))
    exact ⟨hlink.lo, hlink.hi, hlink.arena, hlink.bigblocks⟩

end Ucore.Slob
