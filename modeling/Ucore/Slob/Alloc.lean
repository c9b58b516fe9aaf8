import Ucore.Slob.Free

namespace Ucore.Slob

open Lib

variable {s : Heap} {free : Finset Nat} {l m n : List Nat} {k x y size : Nat}

-- A member but the arena has a member in front of it.
theorem FreeList.exists_before (h : FreeList s free l) (hx : x ∈ l) :
    ∃ m y n, s.arena :: l = m ++ y :: x :: n ∧ s.next y = x := by
  obtain ⟨l₁, l₂, rfl⟩ := List.append_of_mem hx
  obtain ⟨m, y, hm⟩ := (List.eq_nil_or_concat (s.arena :: l₁)).resolve_left nofun
  rw [List.concat_eq_append] at hm
  have hsplit : s.arena :: (l₁ ++ x :: l₂) = m ++ y :: x :: l₂ := by
    rw [← List.cons_append, hm]
    simp
  have hround := h.round
  rw [hsplit] at hround
  exact ⟨m, y, l₂, hsplit, hround.next_eq⟩

-- Two blocks have a gap between them.
theorem FreeList.apart (h : FreeList s free l) (hx : x ∈ s.arena :: l) (hy : y ∈ s.arena :: l)
    (hne : x ≠ y) :
    x + s.units x * SLOB_UNIT < y ∨ y + s.units y * SLOB_UNIT < x :=
  (h.runs.apart (mem_runs hx) (mem_runs hy)).resolve_left fun he => hne (congrArg Prod.fst he)

-- The first `k` units of the block at `x` are taken out of the free list.
theorem take_spec (h : FreeList s free l) (hx : x ∈ l) (hy : y ∈ s.arena :: l)
    (hnext : s.next y = x) (hk : 0 < k) (hfit : k ≤ s.units x) :
    ∃ l', FreeList (take s y x k) (free \ Finset.Ico x (x + k * SLOB_UNIT)) l' ∧
      (take s y x k).units x = k ∧ Touched s (take s y x k) free ∧
      (take s y x k).out = s.out ∧ (take s y x k).supply = s.supply := by
  have hxm : x ∈ s.arena :: l := List.mem_cons_of_mem _ hx
  have hxa := h.arena_lt hx
  obtain ⟨m, q, n, hsplit, hq⟩ := h.exists_before hx
  obtain rfl : q = y := h.round.inj h.nodup (by rw [hsplit]; simp) hy (hq.trans hnext.symm)
  have hround := h.round
  have hruns := h.runs
  have hnodup := h.nodup
  rw [hsplit] at hround hruns hnodup
  rw [blocks_append, blocks_cons, blocks_cons] at hruns
  have hqx : q ≠ x := by
    rintro rfl
    rw [List.nodup_append, List.nodup_cons] at hnodup
    exact hnodup.2.1.1 List.mem_cons_self
  have hqn : ∀ z, z ∈ m ∨ z ∈ n → z ≠ q ∧ z ≠ x := by
    intro z hz
    rw [List.nodup_append, List.nodup_cons, List.nodup_cons] at hnodup
    obtain ⟨_, ⟨hq', hx', _⟩, hcross⟩ := hnodup
    rcases hz with hz | hz
    · exact ⟨hcross z hz q List.mem_cons_self,
        hcross z hz x (List.mem_cons_of_mem q List.mem_cons_self)⟩
    · exact ⟨fun he => hq' (he ▸ List.mem_cons_of_mem x hz), fun he => hx' (he ▸ hz)⟩
  have hhead : ∀ n', ∃ l', s.arena :: l' = m ++ q :: n' := by
    intro n'
    cases m with
    | nil =>
        obtain ⟨rfl, _⟩ := List.cons.inj hsplit
        exact ⟨n', rfl⟩
    | cons c m =>
        obtain ⟨rfl, _⟩ := List.cons.inj hsplit
        exact ⟨m ++ q :: n', rfl⟩
  have hruns' : Runs free ((s.blocks m ++ [(q, s.units q * SLOB_UNIT)]) ++
      (x, s.units x * SLOB_UNIT) :: s.blocks n) := by simpa using hruns
  by_cases hall : s.units x = k
  · -- the whole block
    have htake : take s q x k = { s.setNext q (s.next x) with slobfree := q } := by
      unfold take
      rw [if_pos hall]
    obtain ⟨l', hl'⟩ := hhead n
    refine ⟨l', ⟨?_, ?_, ?_, ?_⟩, ?_, ?_, ?_, ?_⟩ <;> rw [htake]
    · show Round (s.setNext q (s.next x)).next (s.arena :: l')
      rw [hl']
      refine hround.remove (by simp) fun z hz => ?_
      simp [(hqn z hz).1]
    · show q ∈ s.arena :: l'
      rw [hl']
      exact List.mem_append_right m List.mem_cons_self
    · show Runs _ (s.blocks (s.arena :: l'))
      rw [hl', blocks_append, blocks_cons, ← hall]
      simpa using hruns'.erase
    · exact h.arena
    · exact hall
    · have hset := touched_setNext (s := s) (k := s.next x) (h.start_mem hy)
      exact ⟨hset.lo, hset.hi, rfl, rfl⟩
    · rfl
    · rfl
  · -- the rest of the block stays
    have hlt : k < s.units x := lt_of_le_of_ne hfit (Ne.symm hall)
    have hmul : k * SLOB_UNIT < s.units x * SLOB_UNIT := Nat.mul_lt_mul_of_pos_right hlt (by decide)
    have hpos : 0 < k * SLOB_UNIT := Nat.mul_pos hk (by decide)
    generalize hz : x + k * SLOB_UNIT = z
    have hzx : z ≠ x := by omega
    have hzin : z ∈ free := h.block_mem hxm (by omega) (by omega)
    have hzout : ∀ w ∈ s.arena :: l, w ≠ z := by
      rintro w hw rfl
      have hpw := Nat.mul_pos (h.units_pos hw) (show 0 < SLOB_UNIT by decide)
      rcases h.apart hw hxm hzx with hd | hd <;> omega
    have hzq : z ≠ q := (hzout q hy).symm
    have hzn : ∀ w, w ∈ m ∨ w ∈ n → w ≠ z := by
      intro w hw
      refine hzout w ?_
      rw [hsplit]
      rcases hw with hw | hw
      · exact List.mem_append_left _ hw
      · simp [hw]
    have htake : take s q x k = { (((s.setNext q z).setUnits z (s.units x - k)).setNext z
        (s.next x)).setUnits x k with slobfree := q } := by
      unfold take
      rw [if_neg hall, hz]
      simp [hqx.symm]
    obtain ⟨l', hl'⟩ := hhead (z :: n)
    refine ⟨l', ⟨?_, ?_, ?_, ?_⟩, ?_, ?_, ?_, ?_⟩ <;> rw [htake]
    · show Round ((((s.setNext q z).setUnits z (s.units x - k)).setNext z
        (s.next x)).setUnits x k).next (s.arena :: l')
      rw [hl']
      have hrem : Round (Function.update s.next q (s.next x)) (m ++ q :: n) := by
        refine hround.remove (by simp) fun w hw => ?_
        exact Function.update_of_ne (hqn w hw).1 _ _
      refine hrem.insert (by simp [hzq.symm]) (by simp) fun w hw => ?_
      simp [(hqn w hw).1, hzn w hw]
    · show q ∈ s.arena :: l'
      rw [hl']
      exact List.mem_append_right m List.mem_cons_self
    · show Runs _ (Heap.blocks ((((s.setNext q z).setUnits z (s.units x - k)).setNext z
        (s.next x)).setUnits x k) (s.arena :: l'))
      rw [hl', blocks_append, blocks_cons, blocks_cons,
        blocks_congr (s := s) (l := m) fun w hw => by
          simp [(hqn w (Or.inl hw)).2, hzn w (Or.inl hw)],
        blocks_congr (s := s) (l := n) fun w hw => by
          simp [(hqn w (Or.inr hw)).2, hzn w (Or.inr hw)]]
      have hshrink := hruns'.shrink hmul
      rw [hz] at hshrink
      simpa [hqx, hzq.symm, hzx, Nat.sub_mul] using hshrink
    · show Heap.units ((((s.setNext q z).setUnits z (s.units x - k)).setNext z
        (s.next x)).setUnits x k) s.arena = 1
      have haz : s.arena ≠ z := hzout _ List.mem_cons_self
      simp [hxa.ne, haz, h.arena]
    · show Heap.units ((((s.setNext q z).setUnits z (s.units x - k)).setNext z
        (s.next x)).setUnits x k) x = k
      simp
    · have hset : Touched s ((((s.setNext q z).setUnits z (s.units x - k)).setNext z
          (s.next x)).setUnits x k) free :=
        (touched_setNext (h.start_mem hy)).trans ((touched_setUnits hzin).trans
          ((touched_setNext hzin).trans (touched_setUnits (h.start_mem hxm))))
      exact ⟨hset.lo, hset.hi, rfl, rfl⟩
    · rfl
    · rfl

-- What slob_alloc does when no block is large enough.
def refill (size fuel : Nat) (s : Heap) : Except Halt (Nat × Heap) :=
  if size = PAGE_SIZE then .ok (NULL, s)
  else
    match slobGetFreePages s 0 with
    | (page, s) =>
        if page = NULL then .ok (NULL, s)
        else do
          let s ← slobFree s page PAGE_SIZE
          allocLoop size fuel s s.slobfree (s.next s.slobfree)

-- One round of slob_alloc: a block is found, or all of them are too small.
theorem allocLoop_round {c : Nat} {r : List Nat} (size fuel : Nat) (h : Leads s.next y r c) (hc : s.slobfree = c)
    (hr : c ∉ r) :
    (∃ z w, z ∈ y :: r ∧ s.next z = w ∧ w ∈ r ++ [c] ∧ SLOB_UNITS size ≤ s.units w ∧
      allocLoop size (r.length + 1 + fuel) s y (s.next y) =
        .ok (w, take s z w (SLOB_UNITS size))) ∨
    (∀ w ∈ r ++ [c], s.units w < SLOB_UNITS size) ∧
      allocLoop size (r.length + 1 + fuel) s y (s.next y) = refill size fuel s := by
  induction r generalizing y with
  | nil =>
      have hy : s.next y = c := leads_nil.mp h
      rw [List.length_nil, show 0 + 1 + fuel = fuel + 1 by omega, allocLoop, hy]
      by_cases hfit : s.units c ≥ SLOB_UNITS size
      · exact Or.inl ⟨y, c, List.mem_cons_self, hy, by simp, hfit, by rw [if_pos hfit]⟩
      · refine Or.inr ⟨by simpa using hfit, ?_⟩
        rw [if_neg hfit, if_pos hc.symm]
        rfl
  | cons z r ih =>
      obtain ⟨hy, hrest⟩ := leads_cons.mp h
      rw [List.mem_cons, not_or] at hr
      rw [List.length_cons, show r.length + 1 + 1 + fuel = (r.length + 1 + fuel) + 1 by omega,
        allocLoop, hy]
      by_cases hfit : s.units z ≥ SLOB_UNITS size
      · exact Or.inl ⟨y, z, List.mem_cons_self, hy, by simp, hfit, by rw [if_pos hfit]⟩
      · have hzc : z ≠ s.slobfree := fun he => hr.1 (hc.symm.trans he.symm)
        rw [if_neg hfit, if_neg hzc]
        rcases ih hrest hr.2 with ⟨u, w, hu, huw, hw, hfw, he⟩ | ⟨hall, he⟩
        · exact Or.inl ⟨u, w, List.mem_cons_of_mem y hu, huw, List.mem_cons_of_mem z hw, hfw, he⟩
        · refine Or.inr ⟨fun w hw => ?_, he⟩
          rcases List.mem_cons.mp hw with rfl | hw
          · omega
          · exact hall w hw

-- The search of slob_alloc, from the rover around the list.
theorem FreeList.scan (h : FreeList s free l) (fuel : Nat) (hk : 1 < SLOB_UNITS size) :
    (∃ z w, z ∈ s.arena :: l ∧ w ∈ l ∧ s.next z = w ∧ SLOB_UNITS size ≤ s.units w ∧
      allocLoop size ((s.arena :: l).length + fuel) s s.slobfree (s.next s.slobfree) =
        .ok (w, take s z w (SLOB_UNITS size))) ∨
    (∀ w ∈ s.arena :: l, s.units w < SLOB_UNITS size) ∧
      allocLoop size ((s.arena :: l).length + fuel) s s.slobfree (s.next s.slobfree) =
        refill size fuel s := by
  obtain ⟨m, n, hsplit⟩ := List.append_of_mem h.rover
  have hround := h.round
  have hnodup := h.nodup
  rw [hsplit] at hround hnodup
  have hlead := round_cons.mp (round_split.mp hround)
  have hmem : ∀ w, w ∈ (n ++ m) ++ [s.slobfree] ↔ w ∈ s.arena :: l := by
    intro w
    rw [hsplit]
    simp only [List.mem_append, List.mem_cons]
    tauto
  have hc : s.slobfree ∉ n ++ m := by
    rw [List.nodup_middle, List.nodup_cons, List.mem_append] at hnodup
    rw [List.mem_append, or_comm]
    exact hnodup.1
  have hlen : (s.arena :: l).length = (n ++ m).length + 1 := by
    rw [hsplit]
    simp only [List.length_append, List.length_cons]
    omega
  rw [hlen]
  rcases allocLoop_round size fuel hlead rfl hc with
    ⟨z, w, hz, hzw, hw, hfit, he⟩ | ⟨hall, he⟩
  · refine Or.inl ⟨z, w, ?_, ?_, hzw, hfit, he⟩
    · refine (hmem z).mp ?_
      rcases List.mem_cons.mp hz with rfl | hz
      · simp
      · exact List.mem_append_left _ hz
    · refine (List.mem_cons.mp ((hmem w).mp hw)).resolve_left ?_
      rintro rfl
      rw [h.arena] at hfit
      omega
  · exact Or.inr ⟨fun w hw => hall w ((hmem w).mpr hw), he⟩

end Ucore.Slob
