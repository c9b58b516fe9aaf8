import Mathlib.Order.Defs.PartialOrder

namespace Ucore.Lib

variable {τ α : Type} [Preorder τ] [LT α] {free free' : α → Prop} {gives first rest : τ → α → Prop} {p : α} {t : τ}

-- `p` lies below something free, or nothing is.
def Fits (free : α → Prop) (p : α) : Prop := (∀ q, ¬free q) ∨ ∃ q, free q ∧ p < q

-- At each time `t` what is given back then fits among what is free at first and what was
-- given back before.
def InTurn (free : α → Prop) (gives : τ → α → Prop) : Prop :=
  ∀ t p, gives t p → Fits (fun q => free q ∨ ∃ s < t, gives s q) p

theorem Fits.congr (h : ∀ q, free q ↔ free' q) : Fits free p ↔ Fits free' p := by
  unfold Fits
  simp only [h]

theorem InTurn.congr (hfree : ∀ q, free q ↔ free' q) (hgives : ∀ t q, first t q ↔ rest t q) :
    InTurn free first ↔ InTurn free' rest := by
  unfold InTurn
  simp only [hfree, hgives]

theorem InTurn.none (h : ∀ t p, ¬gives t p) : InTurn free gives :=
  fun t p hp => absurd hp (h t p)

-- What is given back in two parts, one behind the other
theorem inTurn_append (hlt : ∀ s p t q, first s p → rest t q → s < t) :
    InTurn free (fun t p => first t p ∨ rest t p) ↔
      InTurn free first ∧ InTurn (fun q => free q ∨ ∃ s, first s q) rest := by
  have hfirst : ∀ t p, first t p → ∀ q, (free q ∨ ∃ s < t, first s q ∨ rest s q) ↔
      free q ∨ ∃ s < t, first s q := by
    intro t p hp q
    refine or_congr_right ⟨?_, ?_⟩
    · rintro ⟨s, hs, hq | hq⟩
      · exact ⟨s, hs, hq⟩
      · exact absurd (hlt t p s q hp hq) (lt_asymm hs)
    · rintro ⟨s, hs, hq⟩
      exact ⟨s, hs, Or.inl hq⟩
  have hrest : ∀ t p, rest t p → ∀ q, (free q ∨ ∃ s < t, first s q ∨ rest s q) ↔
      (free q ∨ ∃ s, first s q) ∨ ∃ s < t, rest s q := by
    intro t p hp q
    rw [or_assoc]
    refine or_congr_right ⟨?_, ?_⟩
    · rintro ⟨s, hs, hq | hq⟩
      · exact Or.inl ⟨s, hq⟩
      · exact Or.inr ⟨s, hs, hq⟩
    · rintro (⟨s, hq⟩ | ⟨s, hs, hq⟩)
      · exact ⟨s, hlt s q t p hq hp, Or.inl hq⟩
      · exact ⟨s, hs, Or.inr hq⟩
  constructor
  · intro h
    refine ⟨fun t p hp => ?_, fun t p hp => ?_⟩
    · exact (Fits.congr (hfirst t p hp)).mp (h t p (Or.inl hp))
    · exact (Fits.congr (hrest t p hp)).mp (h t p (Or.inr hp))
  · rintro ⟨h₁, h₂⟩ t p (hp | hp)
    · exact (Fits.congr (hfirst t p hp)).mpr (h₁ t p hp)
    · exact (Fits.congr (hrest t p hp)).mpr (h₂ t p hp)

-- What is given back at one time only
theorem inTurn_at {gone : α → Prop} :
    InTurn free (fun s q => s = t ∧ gone q) ↔ ∀ q, gone q → Fits free q := by
  have he : ∀ q, (free q ∨ ∃ s < t, s = t ∧ gone q) ↔ free q := by
    intro q
    refine or_iff_left ?_
    rintro ⟨s, hs, rfl, _⟩
    exact lt_irrefl s hs
  constructor
  · intro h q hq
    exact (Fits.congr he).mp (h t q ⟨rfl, hq⟩)
  · rintro h _ q ⟨rfl, hq⟩
    exact (Fits.congr he).mpr (h q hq)

end Ucore.Lib
