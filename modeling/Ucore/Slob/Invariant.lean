import Ucore.Lib.Round
import Ucore.Lib.Runs
import Ucore.Slob.Struct

namespace Ucore.Slob

open Lib

-- The free blocks with these addresses, in bytes.
def Heap.blocks (s : Heap) (l : List Nat) : List (Nat × Nat) :=
  l.map fun a => (a, s.units a * SLOB_UNIT)

-- The arena and the blocks at `l` are linked into the free list, and they are the maximal
-- runs of the free bytes `free`.
structure FreeList (s : Heap) (free : Finset Nat) (l : List Nat) : Prop where
  round : Round s.next (s.arena :: l)
  rover : s.slobfree ∈ s.arena :: l
  runs : Runs free (s.blocks (s.arena :: l))
  arena : s.units s.arena = 1

variable {s s' : Heap} {free : Finset Nat} {l m n : List Nat} {a b k p x y : Nat}

section Words

@[simp] theorem setUnits_units : (s.setUnits a k).units b = if b = a then k else s.units b := by
  show Function.update s.lo a k b = _
  rw [Function.update_apply]
  rfl

@[simp] theorem setUnits_next : (s.setUnits a k).next = s.next := rfl
@[simp] theorem setUnits_arena : (s.setUnits a k).arena = s.arena := rfl
@[simp] theorem setUnits_out : (s.setUnits a k).out = s.out := rfl
@[simp] theorem setUnits_slobfree : (s.setUnits a k).slobfree = s.slobfree := rfl
@[simp] theorem setUnits_bigblocks : (s.setUnits a k).bigblocks = s.bigblocks := rfl
@[simp] theorem setUnits_supply : (s.setUnits a k).supply = s.supply := rfl

@[simp] theorem setNext_next : (s.setNext a k).next b = if b = a then k else s.next b := by
  show Function.update s.hi a k b = _
  rw [Function.update_apply]
  rfl

@[simp] theorem setNext_units : (s.setNext a k).units = s.units := rfl
@[simp] theorem setNext_arena : (s.setNext a k).arena = s.arena := rfl
@[simp] theorem setNext_out : (s.setNext a k).out = s.out := rfl
@[simp] theorem setNext_slobfree : (s.setNext a k).slobfree = s.slobfree := rfl
@[simp] theorem setNext_bigblocks : (s.setNext a k).bigblocks = s.bigblocks := rfl
@[simp] theorem setNext_supply : (s.setNext a k).supply = s.supply := rfl

end Words

theorem mem_blocks {r : Nat × Nat} :
    r ∈ s.blocks l ↔ r.1 ∈ l ∧ s.units r.1 * SLOB_UNIT = r.2 := by
  unfold Heap.blocks
  rw [List.mem_map]
  constructor
  · rintro ⟨c, hc, rfl⟩
    exact ⟨hc, rfl⟩
  · rintro ⟨hc, he⟩
    exact ⟨r.1, hc, Prod.ext rfl he⟩

theorem blocks_append : s.blocks (l ++ m) = s.blocks l ++ s.blocks m := by
  simp [Heap.blocks]

theorem blocks_cons : s.blocks (a :: l) = (a, s.units a * SLOB_UNIT) :: s.blocks l := rfl

@[simp] theorem setNext_blocks : (s.setNext a k).blocks l = s.blocks l := rfl

theorem blocks_congr (h : ∀ c ∈ l, s'.units c = s.units c) : s'.blocks l = s.blocks l := by
  unfold Heap.blocks
  refine List.map_congr_left fun c hc => ?_
  rw [h c hc]

namespace FreeList

theorem mem_runs (hx : x ∈ s.arena :: l) :
    (x, s.units x * SLOB_UNIT) ∈ s.blocks (s.arena :: l) :=
  mem_blocks.mpr ⟨hx, rfl⟩

theorem ascending (h : FreeList s free l) : (s.arena :: l).Pairwise (· < ·) := by
  have hasc : ((s.arena :: l).map fun c => (c, s.units c * SLOB_UNIT)).Pairwise
      fun r q => r.1 < q.1 := h.runs.ascending
  rwa [List.pairwise_map] at hasc

theorem nodup (h : FreeList s free l) : (s.arena :: l).Nodup := h.ascending.imp Nat.ne_of_lt

theorem units_pos (h : FreeList s free l) (hx : x ∈ s.arena :: l) : 0 < s.units x := by
  have hpos := h.runs.pos _ (mem_runs hx)
  exact Nat.pos_of_mul_pos_right hpos

theorem block_mem (h : FreeList s free l) (hx : x ∈ s.arena :: l) {i : Nat} (hlo : x ≤ i)
    (hhi : i < x + s.units x * SLOB_UNIT) : i ∈ free :=
  h.runs.mem_block (mem_runs hx) hlo hhi

theorem start_mem (h : FreeList s free l) (hx : x ∈ s.arena :: l) : x ∈ free :=
  h.runs.start_mem (mem_runs hx)

theorem arena_lt (h : FreeList s free l) (hx : x ∈ l) : s.arena < x :=
  (List.pairwise_cons.mp h.ascending).1 x hx

-- The list depends on nothing but the headers of its members.
theorem congr (h : FreeList s free l) (harena : s'.arena = s.arena)
    (hrover : s'.slobfree = s.slobfree)
    (hsame : ∀ x ∈ free, s'.lo x = s.lo x ∧ s'.hi x = s.hi x) : FreeList s' free l := by
  have hunits : ∀ x ∈ s.arena :: l, s'.units x = s.units x := fun x hx =>
    (hsame x (h.start_mem hx)).1
  refine ⟨?_, ?_, ?_, ?_⟩
  · rw [harena]
    exact h.round.congr fun x hx => (hsame x (h.start_mem hx)).2
  · rw [harena, hrover]
    exact h.rover
  · rw [harena, blocks_congr hunits]
    exact h.runs
  · rw [harena, hunits _ List.mem_cons_self]
    exact h.arena

-- There is room for the blocks.
theorem length_lt (h : FreeList s free l) (hroom : free.card < SLOB_UNIT * s.limit) :
    (s.arena :: l).length < s.limit := by
  have hcard := h.runs.card
  have hle : ∀ c : List Nat, (∀ x ∈ c, 0 < s.units x) →
      SLOB_UNIT * c.length ≤ ((s.blocks c).map Prod.snd).sum := by
    intro c
    induction c with
    | nil => simp
    | cons x c ih =>
        intro hpos
        have hx := hpos x List.mem_cons_self
        have hc := ih fun y hy => hpos y (List.mem_cons_of_mem x hy)
        rw [blocks_cons, List.map_cons, List.sum_cons, List.length_cons, Nat.mul_succ]
        have hunit : SLOB_UNIT ≤ s.units x * SLOB_UNIT := Nat.le_mul_of_pos_left _ hx
        omega
  have hsum := hle _ fun x hx => h.units_pos hx
  rw [← hcard] at hsum
  exact Nat.lt_of_mul_lt_mul_left (lt_of_le_of_lt hsum hroom)

-- A block is followed by the next one, or it is the last and followed by the arena.
theorem next_cases (h : FreeList s free l) (hy : y ∈ s.arena :: l) :
    (∃ m n, s.arena :: l = m ++ y :: s.next y :: n) ∨
      (∃ m, s.arena :: l = m ++ [y]) ∧ s.next y = s.arena := by
  obtain ⟨m, n, hsplit⟩ := List.append_of_mem hy
  have hround := h.round
  rw [hsplit] at hround
  cases n with
  | cons z n =>
      rw [← hround.next_eq] at hsplit
      exact Or.inl ⟨m, n, hsplit⟩
  | nil =>
      refine Or.inr ⟨⟨m, hsplit⟩, ?_⟩
      have hlead := round_cons.mp (round_split.mp hround)
      cases m with
      | nil =>
          obtain ⟨rfl, _⟩ := List.cons.inj hsplit
          exact leads_nil.mp hlead
      | cons c m =>
          obtain ⟨rfl, _⟩ := List.cons.inj hsplit
          exact (leads_cons.mp hlead).1

theorem next_mem (h : FreeList s free l) (hy : y ∈ s.arena :: l) : s.next y ∈ s.arena :: l := by
  rcases h.next_cases hy with ⟨m, n, hsplit⟩ | ⟨_, hnext⟩
  · rw [hsplit]
    simp
  · rw [hnext]
    exact List.mem_cons_self

-- The member that `b` belongs behind.
theorem exists_below (h : FreeList s free l) (hb : s.arena < b) (hmem : b ∉ s.arena :: l) :
    ∃ m p n, s.arena :: l = m ++ p :: n ∧ p < b ∧ (∀ y ∈ m, y < p) ∧ ∀ y ∈ n, b < y := by
  have hasc := h.ascending
  revert hasc hmem hb
  generalize s.arena = c
  intro hb hmem hasc
  clear h
  induction l generalizing c with
  | nil => exact ⟨[], c, [], rfl, hb, by simp, by simp⟩
  | cons d l ih =>
      by_cases hd : d < b
      · obtain ⟨m, p, n, hsplit, hp, hm, hn⟩ := ih d hd
          (fun hbm => hmem (List.mem_cons_of_mem c hbm)) (List.pairwise_cons.mp hasc).2
        refine ⟨c :: m, p, n, by rw [hsplit]; rfl, hp, fun y hy => ?_, hn⟩
        rcases List.mem_cons.mp hy with rfl | hy
        · exact (List.pairwise_cons.mp hasc).1 p (hsplit ▸ List.mem_append_right m List.mem_cons_self)
        · exact hm y hy
      · refine ⟨[], c, d :: l, rfl, hb, by simp, fun y hy => ?_⟩
        have hbd : b ≠ d := fun he => hmem (he ▸ by simp)
        rcases List.mem_cons.mp hy with rfl | hy
        · omega
        · have hlt := (List.pairwise_cons.mp (List.pairwise_cons.mp hasc).2).1 y hy
          omega

end FreeList

theorem freeSearch_stop {fuel : Nat}
    (hstop : (b > p ∧ b < s.next p) ∨ (p ≥ s.next p ∧ (b > p ∨ b < s.next p))) :
    freeSearch s b (fuel + 1) p = .ok p := by
  unfold freeSearch
  by_cases h₁ : b > p ∧ b < s.next p
  · exact if_pos h₁
  · rw [if_neg h₁]
    exact if_pos (hstop.resolve_left h₁)

-- The search ends at the first member that passes the test.
theorem freeSearch_leads {fuel : Nat} (h : Leads s.next x m p) (hfuel : m.length + 1 < fuel)
    (hskip : ∀ y ∈ x :: m, ¬(b > y ∧ b < s.next y) ∧ ¬(y ≥ s.next y ∧ (b > y ∨ b < s.next y)))
    (hstop : (b > p ∧ b < s.next p) ∨ (p ≥ s.next p ∧ (b > p ∨ b < s.next p))) :
    freeSearch s b fuel x = .ok p := by
  induction m generalizing x fuel with
  | nil =>
      obtain ⟨fuel, rfl⟩ : ∃ f, fuel = f + 2 := ⟨fuel - 2, by simp at hfuel; omega⟩
      obtain ⟨h₁, h₂⟩ := hskip x List.mem_cons_self
      rw [freeSearch, if_neg h₁, if_neg h₂, leads_nil.mp h]
      exact freeSearch_stop hstop
  | cons y m ih =>
      rw [List.length_cons] at hfuel
      obtain ⟨fuel, rfl⟩ : ∃ f, fuel = f + 1 := ⟨fuel - 1, by omega⟩
      obtain ⟨h₁, h₂⟩ := hskip x List.mem_cons_self
      obtain ⟨hnext, hrest⟩ := leads_cons.mp h
      rw [freeSearch, if_neg h₁, if_neg h₂, hnext]
      exact ih hrest (by omega) fun z hz => hskip z (List.mem_cons_of_mem x hz)

-- The search of slob_free ends at the member that `b` belongs behind.
theorem FreeList.search (h : FreeList s free l) (hroom : free.card < SLOB_UNIT * s.limit)
    (hsplit : s.arena :: l = m ++ p :: n) (hp : p < b) (hm : ∀ y ∈ m, y < p)
    (hn : ∀ y ∈ n, b < y) : freeSearch s b s.limit s.slobfree = .ok p := by
  have hasc := h.ascending
  have hlen := h.length_lt hroom
  have hpmem : p ∈ s.arena :: l := hsplit ▸ List.mem_append_right m List.mem_cons_self
  have hle : ∀ y ∈ s.arena :: l, s.arena ≤ y := by
    intro y hy
    rcases List.mem_cons.mp hy with rfl | hy
    · exact le_rfl
    · exact (h.arena_lt hy).le
  have hbelow : ∀ y ∈ s.arena :: l, y ≠ p → y < p ∨ b < y := by
    intro y hy hne
    rw [hsplit, List.mem_append, List.mem_cons] at hy
    rcases hy with hy | hy | hy
    · exact Or.inl (hm y hy)
    · exact absurd hy hne
    · exact Or.inr (hn y hy)
  -- the member behind `y` is the next higher one
  have hsucc : ∀ y ∈ s.arena :: l, (y < s.next y ∧ ∀ z ∈ s.arena :: l, y < z → s.next y ≤ z) ∨
      s.next y = s.arena ∧ ∀ z ∈ s.arena :: l, z ≤ y := by
    intro y hy
    rcases h.next_cases hy with ⟨l₁, l₂, hs⟩ | ⟨⟨l₁, hs⟩, hnext⟩
    · rw [hs, List.pairwise_append, List.pairwise_cons, List.pairwise_cons] at hasc
      obtain ⟨_, ⟨hy', hz', _⟩, hcross⟩ := hasc
      refine Or.inl ⟨hy' _ List.mem_cons_self, fun z hz hyz => ?_⟩
      rw [hs] at hz
      simp only [List.mem_append, List.mem_cons] at hz
      rcases hz with hz | rfl | rfl | hz
      · have := hcross z hz y List.mem_cons_self
        omega
      · omega
      · exact le_rfl
      · exact (hz' z hz).le
    · rw [hs, List.pairwise_append] at hasc
      refine Or.inr ⟨hnext, fun z hz => ?_⟩
      rw [hs, List.mem_append, List.mem_singleton] at hz
      rcases hz with hz | rfl
      · exact (hasc.2.2 z hz y (List.mem_singleton.mpr rfl)).le
      · exact le_rfl
  have hstop : (b > p ∧ b < s.next p) ∨ (p ≥ s.next p ∧ (b > p ∨ b < s.next p)) := by
    rcases hsucc p hpmem with ⟨hlt, _⟩ | ⟨hnext, _⟩
    · have hmem := h.next_mem hpmem
      have hb := hbelow _ hmem (Nat.ne_of_gt hlt)
      exact Or.inl ⟨hp, by omega⟩
    · have hle := hle p hpmem
      exact Or.inr ⟨by omega, Or.inl hp⟩
  have hskip : ∀ y ∈ s.arena :: l, y ≠ p →
      ¬(b > y ∧ b < s.next y) ∧ ¬(y ≥ s.next y ∧ (b > y ∨ b < s.next y)) := by
    intro y hy hne
    have hb := hbelow y hy hne
    have hya := hle y hy
    rcases hsucc y hy with ⟨hlt, hmin⟩ | ⟨hnext, hmax⟩
    · have hpy := hmin p hpmem
      omega
    · have hpy := hmax p hpmem
      have hpa := hle p hpmem
      omega
  by_cases hc : s.slobfree = p
  · obtain ⟨fuel, hfuel⟩ : ∃ f, s.limit = f + 1 := ⟨s.limit - 1, by omega⟩
    rw [hfuel, hc]
    exact freeSearch_stop hstop
  · obtain ⟨seg, hlead, hps, hseg, hmem⟩ := h.round.leads h.rover hpmem hc
    refine freeSearch_leads hlead (by omega) (fun y hy => ?_) hstop
    rcases List.mem_cons.mp hy with rfl | hy
    · exact hskip _ h.rover hc
    · exact hskip y (hmem y hy) fun he => hps (he ▸ hy)

end Ucore.Slob
