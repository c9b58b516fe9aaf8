import Mathlib.Data.List.Nodup
import Mathlib.Data.List.Sublists

namespace Ucore.Lib

variable {α : Type} [DecidableEq α] {l l' m n : List α} {c x p q : α}

-- The members of `l` in the order of a round that starts behind `c` and ends with it.
def turn (l : List α) (c : α) : List α :=
  l.drop (l.idxOf c + 1) ++ l.take (l.idxOf c + 1)

theorem turn_split (hc : c ∉ l) : turn (l ++ c :: m) c = m ++ (l ++ [c]) := by
  unfold turn
  have hdrop : l.drop (l.length + 1) = [] := List.drop_of_length_le (Nat.le_succ _)
  have htake : l.take (l.length + 1) = l := List.take_of_length_le (Nat.le_succ _)
  rw [List.idxOf_append_of_notMem hc, List.idxOf_cons_self, Nat.add_zero, List.drop_append,
    List.take_append, hdrop, htake]
  simp

theorem turn_perm : (turn l c).Perm l := by
  unfold turn
  exact List.perm_append_comm.trans (by rw [List.take_append_drop])

theorem mem_turn : x ∈ turn l c ↔ x ∈ l := turn_perm.mem_iff

theorem turn_nodup (h : l.Nodup) : (turn l c).Nodup := turn_perm.nodup_iff.mpr h

omit [DecidableEq α] in
-- In a list without repetition the parts around a member are determined.
theorem append_cons_inj (h : (l ++ x :: m).Nodup) (he : l ++ x :: m = l' ++ x :: n) :
    l = l' ∧ m = n := by
  induction l generalizing l' with
  | nil =>
      cases l' with
      | nil => exact ⟨rfl, (List.cons.inj he).2⟩
      | cons y l' =>
          obtain ⟨hy, hrest⟩ := List.cons.inj he
          rw [List.nil_append, List.nodup_cons] at h
          exact absurd (hrest ▸ List.mem_append_right l' List.mem_cons_self) h.1
  | cons z l ih =>
      cases l' with
      | nil =>
          obtain ⟨hz, hrest⟩ := List.cons.inj he
          rw [List.cons_append, List.nodup_cons] at h
          exact absurd (hz ▸ List.mem_append_right l List.mem_cons_self) h.1
      | cons y l' =>
          obtain ⟨rfl, hrest⟩ := List.cons.inj he
          rw [List.cons_append, List.nodup_cons] at h
          obtain ⟨rfl, rfl⟩ := ih h.2 hrest
          exact ⟨rfl, rfl⟩

-- The round goes on behind any of its members.
theorem turn_next (h : l.Nodup) (hc : c ∈ l) (he : turn l c = m ++ x :: n) :
    turn l x = n ++ (m ++ [x]) := by
  obtain ⟨l₁, l₂, rfl, hc₁⟩ := List.eq_append_cons_of_mem hc
  have hnodup := turn_nodup (c := c) h
  rw [turn_split hc₁] at he hnodup
  have hx : x ∈ l₂ ++ (l₁ ++ [c]) := he ▸ List.mem_append_right m List.mem_cons_self
  rcases List.mem_append.mp hx with hx | hx
  · obtain ⟨a, b, rfl⟩ := List.append_of_mem hx
    have hsame : a ++ x :: (b ++ (l₁ ++ [c])) = m ++ x :: n := by
      rw [← he, List.append_assoc, List.cons_append]
    have hn : (a ++ x :: (b ++ (l₁ ++ [c]))).Nodup := by
      rwa [List.append_assoc, List.cons_append] at hnodup
    obtain ⟨rfl, rfl⟩ := append_cons_inj hn hsame
    have hsplit : l₁ ++ c :: (a ++ x :: b) = (l₁ ++ c :: a) ++ x :: b := by simp
    have hxl : x ∉ l₁ ++ c :: a := by
      rw [hsplit] at h
      exact fun hm => (List.nodup_append.mp h).2.2 x hm x List.mem_cons_self rfl
    rw [hsplit, turn_split hxl]
    simp
  · rcases List.mem_append.mp hx with hx | hx
    · obtain ⟨a, b, rfl⟩ := List.append_of_mem hx
      have hsame : (l₂ ++ a) ++ x :: (b ++ [c]) = m ++ x :: n := by
        rw [← he]
        simp
      have hn : ((l₂ ++ a) ++ x :: (b ++ [c])).Nodup := by
        rw [hsame, ← he]
        exact hnodup
      obtain ⟨rfl, rfl⟩ := append_cons_inj hn hsame
      have hsplit : (a ++ x :: b) ++ c :: l₂ = a ++ x :: (b ++ c :: l₂) := by simp
      have hxl : x ∉ a := by
        rw [hsplit] at h
        exact fun hm => (List.nodup_append.mp h).2.2 x hm x List.mem_cons_self rfl
      rw [hsplit, turn_split hxl]
      simp
    · obtain rfl : x = c := List.mem_singleton.mp hx
      have hsame : (l₂ ++ l₁) ++ x :: [] = m ++ x :: n := by
        rw [← he, List.append_assoc]
      have hn : ((l₂ ++ l₁) ++ x :: []).Nodup := by
        rwa [List.append_assoc]
      obtain ⟨rfl, rfl⟩ := append_cons_inj hn hsame
      rw [turn_split hc₁]
      simp

-- `p` has its turn before `q` when a round starts behind `c`.
def Before (l : List α) (c p q : α) : Prop := List.Sublist [p, q] (turn l c)

-- Whoever has just had its turn comes last.
theorem Before.of_self (h : l.Nodup) (hq : q ∈ l) (hp : p ∈ l) (hne : p ≠ q) :
    Before l q p q := by
  obtain ⟨l₁, l₂, rfl, hq₁⟩ := List.eq_append_cons_of_mem hq
  unfold Before
  rw [turn_split hq₁, ← List.append_assoc]
  have hp' : p ∈ l₂ ++ l₁ := by
    simp only [List.mem_append, List.mem_cons] at hp ⊢
    rcases hp with hp | hp | hp
    · exact Or.inr hp
    · exact absurd hp hne
    · exact Or.inl hp
  exact (List.singleton_sublist.mpr hp').append (List.Sublist.refl [q])

-- A turn of somebody who comes before `p` leaves the order of `p` and `q` alone, and
-- `q` is not that somebody.
theorem Before.skip (hb : Before l c p q) (h : l.Nodup) (hc : c ∈ l)
    (he : turn l c = m ++ x :: n) (hm : p ∉ m) (hx : x ≠ p) : q ≠ x ∧ Before l x p q := by
  unfold Before at hb ⊢
  rw [he] at hb
  have hn : List.Sublist [p, q] n := by
    rcases List.sublist_append_iff.mp hb with ⟨a, b, hab, ha, hbn⟩
    cases a with
    | cons y a =>
        obtain ⟨rfl, _⟩ := List.cons.inj hab
        exact absurd (ha.subset List.mem_cons_self) hm
    | nil =>
        rw [List.nil_append] at hab
        subst hab
        cases hbn with
        | cons _ hbn => exact hbn
        | cons_cons _ hbn => exact absurd rfl hx
  constructor
  · rintro rfl
    have hnodup := turn_nodup (c := c) h
    rw [he, List.nodup_append, List.nodup_cons] at hnodup
    exact hnodup.2.1.1 (hn.subset (by simp))
  · rw [turn_next h hc he]
    exact hn.trans (List.sublist_append_left n _)

-- A newcomer at the head of the list pushes in between the last member and the first.
theorem Before.cons (hb : Before l c p q) (hc : c ∈ l) (hx : x ≠ c) : Before (x :: l) c p q := by
  obtain ⟨l₁, l₂, rfl, hc₁⟩ := List.eq_append_cons_of_mem hc
  have hx₁ : c ∉ x :: l₁ := by
    rw [List.mem_cons, not_or]
    exact ⟨hx.symm, hc₁⟩
  unfold Before at hb ⊢
  rw [turn_split hc₁] at hb
  rw [← List.cons_append, turn_split hx₁]
  exact hb.trans ((List.Sublist.refl l₂).append
    ((List.sublist_cons_self x l₁).append (List.Sublist.refl [c])))

theorem turn_erase (h : l.Nodup) (hc : c ∈ l) (hx : x ≠ c) :
    turn (l.erase x) c = (turn l c).erase x := by
  obtain ⟨l₁, l₂, rfl, hc₁⟩ := List.eq_append_cons_of_mem hc
  have hxc : ¬(c == x) = true := by simpa using hx.symm
  rw [turn_split hc₁]
  by_cases hx₁ : x ∈ l₁
  · have hx₂ : x ∉ l₂ := fun hm =>
      (List.nodup_append.mp h).2.2 x hx₁ x (List.mem_cons_of_mem c hm) rfl
    rw [List.erase_append_left _ hx₁, turn_split fun hm => hc₁ (List.mem_of_mem_erase hm),
      List.erase_append_right _ hx₂, List.erase_append_left _ hx₁]
  · rw [List.erase_append_right _ hx₁, List.erase_cons_tail hxc, turn_split hc₁]
    by_cases hx₂ : x ∈ l₂
    · rw [List.erase_append_left _ hx₂]
    · have hlast : x ∉ l₁ ++ [c] := by
        simp only [List.mem_append, List.mem_singleton, not_or]
        exact ⟨hx₁, hx⟩
      rw [List.erase_append_right _ hx₂, List.erase_of_not_mem hx₂, List.erase_of_not_mem hlast]

theorem Before.erase (hb : Before l c p q) (h : l.Nodup) (hc : c ∈ l) (hx : x ≠ c) (hp : p ≠ x)
    (hq : q ≠ x) : Before (l.erase x) c p q := by
  unfold Before at hb ⊢
  rw [turn_erase h hc hx]
  have hpair : [p, q].erase x = [p, q] := by
    refine List.erase_of_not_mem ?_
    simp only [List.mem_cons, List.mem_nil_iff, or_false, not_or]
    exact ⟨hp.symm, hq.symm⟩
  rw [← hpair]
  exact hb.erase x

end Ucore.Lib
