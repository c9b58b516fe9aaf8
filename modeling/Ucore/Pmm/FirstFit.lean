import Ucore.Pmm.Theorems

namespace Ucore.Pmm

open Lib

variable {s s' : FreeArea} {managed held : Finset Nat} {base n k p : Nat}
  {ops : List Op} {P Q : FreeArea → Finset Nat → Prop}

-- The free pages are those of `initial` that nobody holds. A call of default_alloc_pages
-- for `k` pages returns NULL if there are nowhere `k` of them in a row, and else the first
-- page of the lowest run of at least `k`; what it leaves of that run is a block of the
-- list behind the call, which stands for the other free pages.
structure FirstFit (s : FreeArea) (initial held : Finset Nat) (k : Nat) : Prop where
  none_iff : defaultAllocPages s k = .ok (none, s) ↔ ∀ q, ¬Finset.Ico q (q + k) ⊆ initial \ held
  lowest : ∀ p s', defaultAllocPages s k = .ok (some p, s') →
    Represents s' initial (held ∪ Finset.Ico p (p + k)) ∧
    ∃ c, k ≤ c ∧ MaximalRun (initial \ held) (p, c) ∧
      (∀ r, MaximalRun (initial \ held) r → k ≤ r.2 → p ≤ r.1) ∧
      (k < c → (p + k, c - k) ∈ s'.freeBlocks)
  returns : ∃ res, defaultAllocPages s k = .ok res

theorem Represents.firstFit (h : Represents s managed held) (hk : 0 < k) : FirstFit s managed held k := by
  have hfl := h.freeList
  have hruns := hfl.runs
  rcases defaultAllocPages_spec (g := ∅) hfl hk with
    ⟨hsmall, hs⟩ | ⟨p, s', l', hs, hp, hsize, hfirst, hsub, hfl', _⟩
  · have hno : ∀ q, ¬Finset.Ico q (q + k) ⊆ managed \ held := by
      intro q hq
      obtain ⟨r, hr, hlo, hhi⟩ := hruns.block_of_row hk hq
      obtain ⟨hmem, hprop⟩ := mem_blocks.mp hr
      have := hsmall r.1 hmem
      omega
    refine ⟨iff_of_true hs hno, fun p s' hs' => ?_, _, hs⟩
    cases hs.symm.trans hs'
  · refine ⟨iff_of_false (fun hno => ?_) fun hno => hno p hsub, fun p' s'' hs' => ?_, _, hs⟩
    · cases hs.symm.trans hno
    · cases hs.symm.trans hs'
      have hset : (managed \ held) \ Finset.Ico p (p + k) = managed \ (held ∪ Finset.Ico p (p + k)) :=
        sdiff_sdiff ..
      rw [hset] at hfl'
      have hr' := hfl'.represents (Finset.union_subset h.sub (hsub.trans Finset.sdiff_subset))
      have hrun : MaximalRun (managed \ held) (p, (s.pages p).property) :=
        (h.maximal _).mp (mem_blocks.mpr ⟨hp, rfl⟩)
      refine ⟨hr', (s.pages p).property, hsize, hrun, fun r hr hkr => ?_, fun hlt => ?_⟩
      · obtain ⟨hmem, hprop⟩ := mem_blocks.mp ((h.maximal r).mpr hr)
        by_contra hlt
        have := hfirst r.1 hmem (by omega)
        omega
      · refine (hr'.maximal _).mpr ?_
        rw [← hset]
        exact hrun.rest hk hlt

theorem Always.mono (h : Always P s held ops) (hPQ : ∀ s held, P s held → Q s held) :
    Always Q s held ops := by
  induction ops generalizing s held with
  | nil => exact hPQ s held h
  | cons op ops ih =>
      obtain ⟨hP, s', held', hs, hrest⟩ := h
      exact ⟨hPQ s held hP, s', held', hs, ih hrest⟩

-- In a run in which each free_pages finds the list empty or a member above its block,
-- default_alloc_pages is first fit in every state.
theorem first_fit_lowest (hs : Booted base n s) (ops : List Op)
    (hops : EachStep (fun _ held op => Permitted held op) s ∅ ops)
    (horder : EachStep (fun s _ op => Orderly s op) s ∅ ops) :
    Always (fun s held => ∀ k, 0 < k → FirstFit s (Finset.Ico base (base + n)) held k) s ∅ ops :=
  ((hs.represents.always_iff hops).mpr horder).mono fun _ _ h _ hk => h.firstFit hk

theorem first_fit_lowest_two :
    Always (fun s held => ∀ k, 0 < k → FirstFit s (Finset.Ico 0 (0 + 2)) held k) twoPagesBooted ∅
      [.alloc 1, .alloc 1, .free 1 1, .free 0 1] :=
  first_fit_lowest twoPages_booted [.alloc 1, .alloc 1, .free 1 1, .free 0 1]
    (by decide +kernel) (by decide +kernel)

-- Giving back the lower page first, the two free pages in a row are not found.
theorem first_fit_misses_run :
    ¬∀ (base n : Nat) (s : FreeArea) (ops : List Op), Booted base n s →
      EachStep (fun _ held op => Permitted held op) s ∅ ops →
      Always (fun s held => ∀ k, 0 < k → FirstFit s (Finset.Ico base (base + n)) held k) s ∅ ops := by
  intro hall
  have hops : EachStep (fun _ held op => Permitted held op) twoPagesBooted ∅
      [.alloc 1, .alloc 1, .free 0 1, .free 1 1] := by decide +kernel
  obtain ⟨_, s₁, h₁, e₁, _, s₂, h₂, e₂, _, s₃, h₃, e₃, _, s₄, h₄, e₄, hlast⟩ :=
    hall 0 2 _ _ twoPages_booted hops
  cases e₁
  cases e₂
  cases e₃
  cases e₄
  have hnone := (hlast 2 (by decide)).none_iff.mp rfl 0
  exact hnone (by decide)

end Ucore.Pmm
