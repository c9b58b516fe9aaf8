import Mathlib.Data.Finset.Card
import Mathlib.Data.Finset.Insert
import Mathlib.Data.Finset.Prod
import Mathlib.Logic.Function.Basic

namespace Ucore.Lib

variable {κ β : Type} [DecidableEq β] {S : Finset κ} {f g : κ → Option β} {b : β} {x y : κ}

-- How many of the keys in `S` refer to `b`.
def count (S : Finset κ) (f : κ → Option β) (b : β) : ℕ := (S.filter fun x => f x = some b).card

theorem count_pos : 0 < count S f b ↔ ∃ x ∈ S, f x = some b := by
  simp [count, Finset.card_pos, Finset.Nonempty]

theorem count_eq_zero : count S f b = 0 ↔ ∀ x ∈ S, f x ≠ some b := by
  simp [count, Finset.filter_eq_empty_iff]

theorem count_congr (h : ∀ x ∈ S, f x = some b ↔ g x = some b) : count S f b = count S g b := by
  unfold count
  rw [Finset.filter_congr h]

-- Redirecting one key.
theorem count_update [DecidableEq κ] (hx : x ∈ S) (z : Option β) :
    count S (Function.update f x z) b + (if f x = some b then 1 else 0) =
      count S f b + (if z = some b then 1 else 0) := by
  have hrest : (S.erase x).filter (fun y => Function.update f x z y = some b) =
      (S.erase x).filter fun y => f y = some b := by
    refine Finset.filter_congr fun y hy => ?_
    rw [Function.update_of_ne (Finset.ne_of_mem_erase hy)]
  have hsplit : ∀ h : κ → Option β, count S h b =
      ((S.erase x).filter fun y => h y = some b).card + if h x = some b then 1 else 0 := by
    intro h
    unfold count
    conv_lhs => rw [← Finset.insert_erase hx, Finset.filter_insert]
    split_ifs with hb
    · rw [Finset.card_insert_of_notMem (by simp)]
    · rfl
  rw [hsplit, hsplit f, hrest, Function.update_self]
  omega

-- A value with one reference has one key.
theorem eq_of_count_le_one (h : count S f b ≤ 1) (hx : x ∈ S) (hy : y ∈ S) (hfx : f x = some b)
    (hfy : f y = some b) : x = y :=
  Finset.card_le_one.mp h x (by simp [hx, hfx]) y (by simp [hy, hfy])

theorem count_le_one (h : ∀ x ∈ S, ∀ y ∈ S, f x = some b → f y = some b → x = y) :
    count S f b ≤ 1 := by
  refine Finset.card_le_one.mpr fun x hx y hy => ?_
  rw [Finset.mem_filter] at hx hy
  exact h x hx.1 y hy.1 hx.2 hy.2

-- The keys in `T` get their references.
theorem count_add [DecidableEq κ] {T : Finset κ} (hT : T ⊆ S) (hnone : ∀ x ∈ T, f x ≠ some b)
    (hrest : ∀ x ∈ S, x ∉ T → (g x = some b ↔ f x = some b)) : count S g b = count S f b + count T g b := by
  have hsplit : S.filter (fun x => g x = some b) =
      S.filter (fun x => f x = some b) ∪ T.filter fun x => g x = some b := by
    ext x
    simp only [Finset.mem_union, Finset.mem_filter]
    have h₁ := @hT x
    have h₂ := hnone x
    have h₃ := hrest x
    tauto
  have hdisj : Disjoint (S.filter fun x => f x = some b) (T.filter fun x => g x = some b) := by
    rw [Finset.disjoint_left]
    intro x hx hx'
    rw [Finset.mem_filter] at hx hx'
    exact hnone x hx'.1 hx.2
  unfold count
  rw [hsplit, Finset.card_union_of_disjoint hdisj]

theorem count_le_of_subset {T : Finset κ} (h : T ⊆ S) : count T f b ≤ count S f b :=
  Finset.card_le_card (Finset.filter_subset_filter _ h)

theorem count_insert [DecidableEq κ] (hx : x ∉ S) :
    count (insert x S) f b = (if f x = some b then 1 else 0) + count S f b := by
  unfold count
  rw [Finset.filter_insert]
  split_ifs with hb
  · rw [Finset.card_insert_of_notMem fun hmem => hx (Finset.mem_filter.mp hmem).1, Nat.add_comm]
  · rw [Nat.zero_add]

-- The keys with the first part `a`
theorem count_slice {α : Type} (a : α) (U : Finset κ) (f : α × κ → Option β) (b : β) :
    count ({a} ×ˢ U) f b = count U (fun x => f (a, x)) b := by
  unfold count
  rw [Finset.singleton_product, Finset.filter_map, Finset.card_map]
  rfl

end Ucore.Lib
