import Mathlib.Algebra.BigOperators.Group.List.Basic
import Mathlib.Algebra.Ring.Nat
import Mathlib.Data.List.Pairwise
import Mathlib.Data.List.Perm.Basic
import Mathlib.Order.Interval.Finset.Nat

namespace Ucore.Lib

-- A run is a first number and a length; `MaximalRun F r`: it lies in `F`, and the
-- numbers next to it do not.
structure MaximalRun (F : Finset ℕ) (r : ℕ × ℕ) : Prop where
  pos : 0 < r.2
  mem : ∀ i, r.1 ≤ i → i < r.1 + r.2 → i ∈ F
  below : ∀ i, i + 1 = r.1 → i ∉ F
  above : r.1 + r.2 ∉ F

-- `l` splits `F` into runs with gaps in between.
structure Runs (F : Finset ℕ) (l : List (ℕ × ℕ)) : Prop where
  pos : ∀ r ∈ l, 0 < r.2
  gap : l.Pairwise fun r q => r.1 + r.2 < q.1
  mem : ∀ i, i ∈ F ↔ ∃ r ∈ l, r.1 ≤ i ∧ i < r.1 + r.2

variable {F : Finset ℕ} {l m : List (ℕ × ℕ)} {b c k : ℕ}

theorem Runs.empty : Runs ∅ [] where
  pos := by simp
  gap := List.Pairwise.nil
  mem := by simp

theorem Runs.mem_block (h : Runs F l) {r : ℕ × ℕ} (hr : r ∈ l) {i : ℕ} (hlo : r.1 ≤ i)
    (hhi : i < r.1 + r.2) : i ∈ F :=
  (h.mem i).mpr ⟨r, hr, hlo, hhi⟩

theorem Runs.start_mem (h : Runs F l) {r : ℕ × ℕ} (hr : r ∈ l) : r.1 ∈ F :=
  h.mem_block hr le_rfl (Nat.lt_add_of_pos_right (h.pos r hr))

theorem Runs.ascending (h : Runs F l) : l.Pairwise fun r q => r.1 < q.1 :=
  h.gap.imp fun hlt => lt_of_le_of_lt (Nat.le_add_right _ _) hlt

theorem Runs.nodup (h : Runs F l) : l.Nodup := by
  refine h.ascending.imp ?_
  rintro r q hlt rfl
  exact Nat.lt_irrefl _ hlt

-- Two members of the list are the same or have a gap between them.
theorem Runs.apart (h : Runs F l) {r q : ℕ × ℕ} (hr : r ∈ l) (hq : q ∈ l) :
    r = q ∨ r.1 + r.2 < q.1 ∨ q.1 + q.2 < r.1 := by
  by_cases he : r = q
  · exact Or.inl he
  · have hor : l.Pairwise fun r q => r.1 + r.2 < q.1 ∨ q.1 + q.2 < r.1 :=
      h.gap.imp Or.inl
    have hsymm : Std.Symm fun r q : ℕ × ℕ => r.1 + r.2 < q.1 ∨ q.1 + q.2 < r.1 :=
      ⟨fun _ _ => Or.symm⟩
    exact Or.inr (hor.forall hr hq he)

theorem Runs.maximal (h : Runs F l) {r : ℕ × ℕ} (hr : r ∈ l) : MaximalRun F r := by
  refine ⟨h.pos r hr, fun i hlo hhi => h.mem_block hr hlo hhi, ?_, ?_⟩
  · intro i hi hF
    obtain ⟨q, hq, hlo, hhi⟩ := (h.mem i).mp hF
    have hpos := h.pos r hr
    rcases h.apart hr hq with rfl | hlt | hlt <;> omega
  · intro hF
    obtain ⟨q, hq, hlo, hhi⟩ := (h.mem _).mp hF
    have hpos := h.pos q hq
    rcases h.apart hr hq with rfl | hlt | hlt <;> omega

-- Maximal runs that share a number are the same.
theorem MaximalRun.eq_of_mem {r q : ℕ × ℕ} (hr : MaximalRun F r) (hq : MaximalRun F q) {i : ℕ}
    (hri : r.1 ≤ i ∧ i < r.1 + r.2) (hqi : q.1 ≤ i ∧ i < q.1 + q.2) : r = q := by
  have hstart : r.1 = q.1 := by
    rcases Nat.lt_trichotomy r.1 q.1 with hlt | he | hlt
    · exact absurd (hr.mem (q.1 - 1) (by omega) (by omega)) (hq.below (q.1 - 1) (by omega))
    · exact he
    · exact absurd (hq.mem (r.1 - 1) (by omega) (by omega)) (hr.below (r.1 - 1) (by omega))
  have hstop : r.1 + r.2 = q.1 + q.2 := by
    rcases Nat.lt_trichotomy (r.1 + r.2) (q.1 + q.2) with hlt | he | hlt
    · exact absurd (hq.mem (r.1 + r.2) (by omega) hlt) hr.above
    · exact he
    · exact absurd (hr.mem (q.1 + q.2) (by omega) hlt) hq.above
  exact Prod.ext hstart (by omega)

theorem Runs.mem_iff (h : Runs F l) (r : ℕ × ℕ) : r ∈ l ↔ MaximalRun F r := by
  refine ⟨h.maximal, fun hr => ?_⟩
  have hpos := hr.pos
  obtain ⟨q, hq, hlo, hhi⟩ := (h.mem r.1).mp (hr.mem r.1 le_rfl (by omega))
  rw [hr.eq_of_mem (h.maximal hq) ⟨le_rfl, by omega⟩ ⟨hlo, hhi⟩]
  exact hq

-- A set has one list of runs.
theorem Runs.unique (h : Runs F l) (h' : Runs F m) : l = m := by
  have hperm : l.Perm m := (List.perm_ext_iff_of_nodup h.nodup h'.nodup).mpr
    fun r => (h.mem_iff r).trans (h'.mem_iff r).symm
  refine hperm.eq_of_pairwise ?_ h.ascending h'.ascending
  intro r q _ _ hrq hqr
  exact absurd hqr (Nat.lt_asymm hrq)

-- The maximal runs of a set, in ascending order, split it.
theorem Runs.of_maximal (hasc : l.Pairwise fun r q => r.1 < q.1)
    (hmax : ∀ r ∈ l, MaximalRun F r) (hcover : ∀ i ∈ F, ∃ r ∈ l, r.1 ≤ i ∧ i < r.1 + r.2) :
    Runs F l := by
  refine ⟨fun r hr => (hmax r hr).pos, ?_, fun i => ⟨hcover i, ?_⟩⟩
  · refine hasc.imp_of_mem fun hr hq hlt => ?_
    have hr := hmax _ hr
    have hq := hmax _ hq
    have hpos := hq.pos
    by_contra hover
    have he := hr.eq_of_mem hq (i := _) ⟨hlt.le, ?_⟩ ⟨le_rfl, by omega⟩
    · exact absurd hlt (he ▸ Nat.lt_irrefl _)
    · refine lt_of_le_of_ne (not_lt.mp hover) fun he => ?_
      exact hr.above (he ▸ hq.mem _ le_rfl (by omega))
  · rintro ⟨r, hr, hlo, hhi⟩
    exact (hmax r hr).mem i hlo hhi

-- Numbers in a row lie in one run.
theorem Runs.block_of_row (h : Runs F l) (hk : 0 < k) (hsub : Finset.Ico b (b + k) ⊆ F) :
    ∃ r ∈ l, r.1 ≤ b ∧ b + k ≤ r.1 + r.2 := by
  obtain ⟨r, hr, hlo, hhi⟩ := (h.mem b).mp (hsub (Finset.mem_Ico.mpr ⟨le_rfl, by omega⟩))
  refine ⟨r, hr, hlo, ?_⟩
  by_contra hlt
  have hin : r.1 + r.2 ∈ Finset.Ico b (b + k) := Finset.mem_Ico.mpr ⟨by omega, by omega⟩
  exact (h.maximal hr).above (hsub hin)

-- The front of a run is taken.
theorem MaximalRun.rest (h : MaximalRun F (b, c)) (hk : 0 < k) (hlt : k < c) :
    MaximalRun (F \ Finset.Ico b (b + k)) (b + k, c - k) := by
  refine ⟨by simp only; omega, fun i hlo hhi => ?_, fun i hi hin => ?_, fun hin => ?_⟩
  · simp only at hlo hhi
    refine Finset.mem_sdiff.mpr ⟨h.mem i (by simp only; omega) (by simp only; omega), fun hin => ?_⟩
    have := Finset.mem_Ico.mp hin
    omega
  · simp only at hi
    exact (Finset.mem_sdiff.mp hin).2 (Finset.mem_Ico.mpr ⟨by omega, by omega⟩)
  · have heq : b + k + (c - k) = b + c := by omega
    simp only [heq] at hin
    exact h.above (Finset.mem_sdiff.mp hin).1

theorem Runs.card (h : Runs F l) : F.card = (l.map Prod.snd).sum := by
  induction l generalizing F with
  | nil =>
      have hF : F = ∅ := Finset.eq_empty_of_forall_notMem fun i hi => by simpa using (h.mem i).mp hi
      simp [hF]
  | cons r l ih =>
      obtain ⟨hgap, hl⟩ := List.pairwise_cons.mp h.gap
      have hrest : Runs (F \ Finset.Ico r.1 (r.1 + r.2)) l := by
        refine ⟨fun q hq => h.pos q (List.mem_cons_of_mem r hq), hl, fun i => ?_⟩
        rw [Finset.mem_sdiff, h.mem, Finset.mem_Ico]
        constructor
        · rintro ⟨⟨q, hq, hi⟩, hout⟩
          rcases List.mem_cons.mp hq with rfl | hq
          · exact absurd hi hout
          · exact ⟨q, hq, hi⟩
        · rintro ⟨q, hq, hi⟩
          have hlt := hgap q hq
          exact ⟨⟨q, List.mem_cons_of_mem r hq, hi⟩, by omega⟩
      have hsub : Finset.Ico r.1 (r.1 + r.2) ⊆ F := by
        intro i hi
        rw [Finset.mem_Ico] at hi
        exact h.mem_block List.mem_cons_self hi.1 hi.2
      have hcard := Finset.card_sdiff_add_card_eq_card hsub
      rw [ih hrest, Nat.card_Ico] at hcard
      rw [List.map_cons, List.sum_cons]
      omega

-- Taking a whole run away.
theorem Runs.erase (h : Runs F (l ++ (b, c) :: m)) :
    Runs (F \ Finset.Ico b (b + c)) (l ++ m) := by
  have hgap := h.gap
  rw [List.pairwise_append, List.pairwise_cons] at hgap
  obtain ⟨hl, ⟨hbm, hm⟩, hlm⟩ := hgap
  refine ⟨?_, List.pairwise_append.mpr ⟨hl, hm, fun r hr q hq => hlm r hr q (by simp [hq])⟩, ?_⟩
  · intro r hr
    refine h.pos r ?_
    rcases List.mem_append.mp hr with hr | hr <;> simp [hr]
  · intro i
    rw [Finset.mem_sdiff, h.mem, Finset.mem_Ico]
    constructor
    · rintro ⟨⟨r, hr, hi⟩, hout⟩
      rcases List.mem_append.mp hr with hr | hr
      · exact ⟨r, List.mem_append_left m hr, hi⟩
      · rcases List.mem_cons.mp hr with rfl | hr
        · exact absurd hi hout
        · exact ⟨r, List.mem_append_right l hr, hi⟩
    · rintro ⟨r, hr, hi⟩
      rcases List.mem_append.mp hr with hr | hr
      · have hlt := hlm r hr (b, c) List.mem_cons_self
        exact ⟨⟨r, List.mem_append_left _ hr, hi⟩, by simp only at hlt; omega⟩
      · have hlt := hbm r hr
        exact ⟨⟨r, by simp [hr], hi⟩, by simp only at hlt; omega⟩

-- Adding a run that touches no other.
theorem Runs.insert (h : Runs F (l ++ m)) (hk : 0 < k) (hl : ∀ r ∈ l, r.1 + r.2 < b)
    (hm : ∀ r ∈ m, b + k < r.1) :
    Runs (F ∪ Finset.Ico b (b + k)) (l ++ (b, k) :: m) := by
  obtain ⟨hgl, hgm, hlm⟩ := List.pairwise_append.mp h.gap
  refine ⟨?_, ?_, ?_⟩
  · intro r hr
    rcases List.mem_append.mp hr with hr | hr
    · exact h.pos r (List.mem_append_left m hr)
    · rcases List.mem_cons.mp hr with rfl | hr
      · exact hk
      · exact h.pos r (List.mem_append_right l hr)
  · refine List.pairwise_append.mpr ⟨hgl, List.pairwise_cons.mpr ⟨hm, hgm⟩, ?_⟩
    intro r hr q hq
    rcases List.mem_cons.mp hq with rfl | hq
    · exact hl r hr
    · exact hlm r hr q hq
  · intro i
    rw [Finset.mem_union, h.mem, Finset.mem_Ico]
    simp only [List.mem_append, List.mem_cons]
    constructor
    · rintro (⟨r, hr, hi⟩ | hi)
      · exact ⟨r, by tauto, hi⟩
      · exact ⟨(b, k), by simp, hi⟩
    · rintro ⟨r, hr, hi⟩
      rcases hr with hr | rfl | hr
      · exact Or.inl ⟨r, Or.inl hr, hi⟩
      · exact Or.inr hi
      · exact Or.inl ⟨r, Or.inr hr, hi⟩

-- Taking the first `k` numbers of a run away.
theorem Runs.shrink (h : Runs F (l ++ (b, c) :: m)) (hk : k < c) :
    Runs (F \ Finset.Ico b (b + k)) (l ++ (b + k, c - k) :: m) := by
  have hgap := h.gap
  rw [List.pairwise_append, List.pairwise_cons] at hgap
  obtain ⟨_, ⟨hbm, _⟩, hlm⟩ := hgap
  have hins := h.erase.insert (b := b + k) (k := c - k) (by omega)
    (fun r hr => by have := hlm r hr (b, c) List.mem_cons_self; simp only at this; omega)
    (fun r hr => by have := hbm r hr; simp only at this; omega)
  have hset : F \ Finset.Ico b (b + c) ∪ Finset.Ico (b + k) (b + k + (c - k)) =
      F \ Finset.Ico b (b + k) := by
    ext i
    have hblock := h.mem_block (i := i) (List.mem_append_right l List.mem_cons_self)
    simp only at hblock
    simp only [Finset.mem_union, Finset.mem_sdiff, Finset.mem_Ico]
    constructor
    · rintro (⟨hF, _⟩ | hi)
      · exact ⟨hF, by omega⟩
      · exact ⟨hblock (by omega) (by omega), by omega⟩
    · rintro ⟨hF, hi⟩
      by_cases hin : b + k ≤ i ∧ i < b + c
      · exact Or.inr (by omega)
      · exact Or.inl ⟨hF, by omega⟩
  rwa [hset] at hins

-- Adding a run together with the runs `x` that it touches; all of them become one.
theorem Runs.merge {x : List (ℕ × ℕ)} {d : ℕ} (h : Runs F (l ++ (x ++ m))) (hd : 0 < d)
    (hl : ∀ r ∈ l, r.1 + r.2 < c) (hm : ∀ r ∈ m, c + d < r.1)
    (hx : ∀ i, c ≤ i ∧ i < c + d ↔ (∃ r ∈ x, r.1 ≤ i ∧ i < r.1 + r.2) ∨ b ≤ i ∧ i < b + k) :
    Runs (F ∪ Finset.Ico b (b + k)) (l ++ (c, d) :: m) := by
  obtain ⟨hgl, hgxm, hlxm⟩ := List.pairwise_append.mp h.gap
  obtain ⟨_, hgm, _⟩ := List.pairwise_append.mp hgxm
  refine ⟨?_, ?_, ?_⟩
  · intro r hr
    rcases List.mem_append.mp hr with hr | hr
    · exact h.pos r (List.mem_append_left _ hr)
    · rcases List.mem_cons.mp hr with rfl | hr
      · exact hd
      · exact h.pos r (List.mem_append_right _ (List.mem_append_right _ hr))
  · refine List.pairwise_append.mpr ⟨hgl, List.pairwise_cons.mpr ⟨hm, hgm⟩, ?_⟩
    intro r hr q hq
    rcases List.mem_cons.mp hq with rfl | hq
    · exact hl r hr
    · exact hlxm r hr q (List.mem_append_right _ hq)
  · intro i
    rw [Finset.mem_union, h.mem, Finset.mem_Ico]
    have hi := hx i
    simp only [List.mem_append, List.mem_cons]
    constructor
    · rintro (⟨r, hr | hr | hr, hri⟩ | hb)
      · exact ⟨r, Or.inl hr, hri⟩
      · exact ⟨(c, d), Or.inr (Or.inl rfl), hi.mpr (Or.inl ⟨r, hr, hri⟩)⟩
      · exact ⟨r, Or.inr (Or.inr hr), hri⟩
      · exact ⟨(c, d), Or.inr (Or.inl rfl), hi.mpr (Or.inr hb)⟩
    · rintro ⟨r, hr | rfl | hr, hri⟩
      · exact Or.inl ⟨r, Or.inl hr, hri⟩
      · rcases hi.mp hri with ⟨q, hq, hqi⟩ | hb
        · exact Or.inl ⟨q, Or.inr (Or.inl hq), hqi⟩
        · exact Or.inr hb
      · exact Or.inl ⟨r, Or.inr (Or.inr hr), hri⟩

end Ucore.Lib
