import Ucore.Slob.Theorems

namespace Ucore.Slob

variable {s s' : Heap} {n o m bb p fuel : Nat}

-- What kmalloc grants for `n` bytes is the least run of a power of two of pages that has
-- them.
def BigEnough (n : Nat) : Prop :=
  ∀ s p s', kmalloc s n = .ok (p, s') → p ≠ NULL →
    ∃ order, s'.out.head? = some (p, order) ∧ n ≤ PAGE_SIZE * 2 ^ order ∧
      ∀ k, n ≤ PAGE_SIZE * 2 ^ k → order ≤ k

-- find_order shifts the low bits out: it stops below 4097 where 4096 was meant.
theorem findOrder_spec (h : m < 4097 * 2 ^ fuel) :
    m < 4097 * 2 ^ findOrder fuel m ∧ ∀ k, m < 4097 * 2 ^ k → findOrder fuel m ≤ k := by
  induction fuel generalizing m with
  | zero => exact ⟨h, fun k _ => Nat.zero_le k⟩
  | succ fuel ih =>
      have hhalf : (m : Int) >>> (1 : Nat) = ((m / 2 : Nat) : Int) := by
        rw [Int.shiftRight_eq_div_pow]
        simp
      rw [findOrder]
      split_ifs with hm
      · have hm : 4096 < m := by exact_mod_cast hm
        rw [hhalf]
        obtain ⟨hlt, hleast⟩ := ih (m := m / 2) (by rw [pow_succ] at h; omega)
        refine ⟨by rw [pow_succ]; omega, fun k hk => ?_⟩
        cases k with
        | zero => omega
        | succ k =>
            have := hleast k (by rw [pow_succ] at hk; omega)
            omega
      · have hm : ¬4096 < m := by exact_mod_cast hm
        exact ⟨by simp only [pow_zero]; omega, fun k _ => Nat.zero_le k⟩

theorem findOrder_neg {size : Int} (h : size ≤ 4096) : findOrder fuel size = 0 := by
  cases fuel with
  | zero => rfl
  | succ fuel => rw [findOrder, if_neg (by omega)]

-- The int that find_order gets
theorem toInt_of_lt (h : n < 2147483648) : toInt n = n := by
  rw [toInt, BitVec.toInt_eq_toNat_cond, BitVec.toNat_ofNat]
  split_ifs <;> omega

theorem toInt_lt : toInt n < 2147483648 := by
  rw [toInt, BitVec.toInt_eq_toNat_cond, BitVec.toNat_ofNat]
  split_ifs <;> omega

theorem toInt_neg (h : 2147483648 ≤ n) (hlt : n < 4294967296) : toInt n < 0 := by
  rw [toInt, BitVec.toInt_eq_toNat_cond, BitVec.toNat_ofNat]
  split_ifs <;> omega

theorem findOrder_le : findOrder 32 (toInt n) ≤ 19 := by
  by_cases h : toInt n ≤ 4096
  · rw [findOrder_neg h]
    omega
  · obtain ⟨m, hm⟩ := Int.eq_ofNat_of_zero_le (show 0 ≤ toInt n by omega)
    have hlt := toInt_lt (n := n)
    rw [hm] at hlt ⊢
    exact (findOrder_spec (show m < 4097 * 2 ^ 32 by omega)).2 19 (by omega)

theorem slobGetFreePages_some (hp : (slobGetFreePages s o).1 ≠ NULL) :
    (slobGetFreePages s o).2.out.head? = some ((slobGetFreePages s o).1, o) := by
  unfold slobGetFreePages at *
  split at hp
  · split_ifs at hp ⊢ with hg
    · rfl
    · exact absurd rfl hp
  · exact absurd rfl hp
  · exact absurd rfl hp

-- The run that a big block is granted
theorem kmalloc_grant (hn : PAGE_SIZE - SLOB_UNIT ≤ n) (hk : kmalloc s n = .ok (p, s')) (hp : p ≠ NULL) :
    s'.out.head? = some (p, findOrder 32 (toInt n)) := by
  rw [kmalloc, if_neg (not_lt.mpr hn)] at hk
  obtain ⟨⟨bb, s₁⟩, _, hk⟩ := bind_eq_ok.mp hk
  simp only at hk
  split_ifs at hk with hbb
  · cases hk
    exact absurd rfl hp
  · have horder : (s₁.setOrder bb (findOrder 32 (toInt n))).order bb = findOrder 32 (toInt n) :=
      Function.update_self ..
    simp only [kmallocPages, horder] at hk
    generalize hget : slobGetFreePages (s₁.setOrder bb (findOrder 32 (toInt n)))
      (findOrder 32 (toInt n)) = res at hk
    obtain ⟨pages, s₂⟩ := res
    have hpages : (s₂.setPages bb pages).pages bb = pages := Function.update_self ..
    have hafter : ∀ next, ((s₂.setPages bb pages).setBigNext bb next).pages bb = pages := fun _ =>
      Function.update_self ..
    simp only [hpages, hafter] at hk
    split_ifs at hk with hnull
    · cases hk
      have hhead := slobGetFreePages_some (s := s₁.setOrder bb (findOrder 32 (toInt n)))
        (o := findOrder 32 (toInt n)) (by rw [hget]; exact hp)
      rw [hget] at hhead
      exact hhead
    · obtain ⟨s₃, _, he⟩ := bind_eq_ok.mp hk
      cases he
      exact absurd rfl hp

-- A machine with one page for the heap and many above it
def bigHeap : Heap := { startState.heap with supply := [some 4096, some 8192] }

theorem bigHeap_slobAlloc : ∃ bb s, slobAlloc bigHeap SIZEOF_BIGBLOCK = .ok (bb, s) ∧ bb ≠ NULL ∧
    s.supply = [some 8192] ∧ s.out = [(4096, 0)] ∧ s.arena = 64 := by
  have h : (slobAlloc bigHeap SIZEOF_BIGBLOCK).map (fun x => (x.1, x.2.supply, x.2.out, x.2.arena)) =
      .ok (4096, [some 8192], [(4096, 0)], 64) := by decide +kernel
  cases hs : slobAlloc bigHeap SIZEOF_BIGBLOCK with
  | error e =>
      rw [hs] at h
      cases h
  | ok x =>
      rw [hs] at h
      have h := Except.ok.inj h
      simp only [Prod.mk.injEq] at h
      obtain ⟨h₁, h₂, h₃, h₄⟩ := h
      exact ⟨x.1, x.2, rfl, by rw [h₁]; decide, h₂, h₃, h₄⟩

-- kmalloc returns there, whatever the size.
theorem bigHeap_kmalloc (hn : PAGE_SIZE - SLOB_UNIT ≤ n) :
    ∃ s', kmalloc bigHeap n = .ok (8192, s') := by
  obtain ⟨bb, s, hs, hbb, hsupply, hout, harena⟩ := bigHeap_slobAlloc
  have ho := findOrder_le (n := n)
  generalize horder : findOrder 32 (toInt n) = o at ho
  have hpow : 2 ^ o ≤ 2 ^ 19 := Nat.pow_le_pow_right (by decide) ho
  have hgrants : (s.setOrder bb o).Grants 8192 o := by
    refine ⟨by decide, ?_, ?_, fun r hr => ?_⟩
    · show s.arena + SLOB_UNIT < 8192
      rw [harena]
      decide
    · unfold PAGE_SIZE
      omega
    · have hr : r ∈ s.out := hr
      rw [hout, List.mem_singleton] at hr
      rw [hr]
      left
      decide
  have hget : slobGetFreePages (s.setOrder bb o) o =
      (8192, { s.setOrder bb o with supply := [], out := (8192, o) :: (s.setOrder bb o).out }) := by
    have hsup : (s.setOrder bb o).supply = [some 8192] := hsupply
    rw [slobGetFreePages, hsup]
    simp only [if_pos hgrants]
  have hord : (s.setOrder bb o).order bb = o := Function.update_self ..
  rw [kmalloc, if_neg (not_lt.mpr hn), hs]
  simp only [ok_bind, if_neg hbb, kmallocPages, horder, hord, hget]
  have hpages : ∀ t : Heap, (t.setPages bb 8192).pages bb = 8192 := fun _ => Function.update_self ..
  have hafter : ∀ (t : Heap) next, ((t.setPages bb 8192).setBigNext bb next).pages bb = 8192 := fun _ _ =>
    Function.update_self ..
  simp only [hpages, hafter]
  rw [if_pos (by decide)]
  exact ⟨_, rfl⟩

-- The run is large enough but for sizes a little above a power of two of pages, and sizes
-- that are no int.
theorem big_block_size (hn : PAGE_SIZE - SLOB_UNIT ≤ n) (hlt : n < 18446744073709551616) :
    BigEnough n ↔ n < 2147483648 ∧ ∀ k, 1 ≤ k → ¬(4096 * 2 ^ k < n ∧ n < 4097 * 2 ^ k) := by
  have hle := findOrder_le (n := n)
  constructor
  · intro h
    obtain ⟨s', hs'⟩ := bigHeap_kmalloc hn
    obtain ⟨order, hhead, hbig, hleast⟩ := h bigHeap 8192 s' hs' (by decide)
    rw [kmalloc_grant hn hs' (by decide)] at hhead
    obtain rfl : findOrder 32 (toInt n) = order := (Prod.mk.inj (Option.some.inj hhead)).2
    have hpow : 2 ^ findOrder 32 (toInt n) ≤ 2 ^ 19 := Nat.pow_le_pow_right (by decide) hle
    unfold PAGE_SIZE at hbig
    have hint : n < 2147483648 := by
      by_contra hge
      by_cases hword : n < 4294967296
      · have hneg := toInt_neg (not_lt.mp hge) hword
        rw [findOrder_neg (by omega)] at hbig
        omega
      · omega
    refine ⟨hint, fun k hk hgap => ?_⟩
    rw [toInt_of_lt hint] at hbig
    have hok := (findOrder_spec (show n < 4097 * 2 ^ 32 by omega)).2 k hgap.2
    have hmono : 2 ^ findOrder 32 (n : Int) ≤ 2 ^ k := Nat.pow_le_pow_right (by decide) hok
    omega
  · rintro ⟨hint, hgap⟩ s p s' hs hp
    refine ⟨_, kmalloc_grant hn hs hp, ?_⟩
    rw [toInt_of_lt hint]
    obtain ⟨hspec, hleast⟩ := findOrder_spec (show n < 4097 * 2 ^ 32 by omega)
    generalize findOrder 32 (n : Int) = o at *
    unfold PAGE_SIZE
    refine ⟨?_, fun k hk => hleast k ?_⟩
    · by_contra hbig
      rcases Nat.eq_zero_or_pos o with rfl | hpos
      · omega
      · exact hgap o hpos ⟨not_le.mp hbig, hspec⟩
    · have : 0 < 2 ^ k := Nat.two_pow_pos k
      omega

theorem big_block_size_order : BigEnough 8192 :=
  (big_block_size (n := 8192) (by decide) (by decide)).mpr ⟨by decide, fun k hk h => by
    have : 2 ^ 1 ≤ 2 ^ k := Nat.pow_le_pow_right (by decide) hk
    omega⟩

-- For 8193 bytes there are two pages.
theorem big_block_short : ¬∀ n, PAGE_SIZE - SLOB_UNIT ≤ n → n < 18446744073709551616 → BigEnough n := by
  intro hall
  obtain ⟨s', hs'⟩ := bigHeap_kmalloc (n := 8193) (by decide)
  obtain ⟨order, hhead, hbig, _⟩ := hall 8193 (by decide) (by decide) bigHeap 8192 s' hs' (by decide)
  rw [kmalloc_grant (by decide) hs' (by decide)] at hhead
  have horder : findOrder 32 (toInt 8193) = order := (Prod.mk.inj (Option.some.inj hhead)).2
  have hone : findOrder 32 (toInt 8193) = 1 := by decide
  rw [hone] at horder
  rw [← horder] at hbig
  exact absurd hbig (by decide)

end Ucore.Slob
