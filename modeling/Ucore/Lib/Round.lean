import Mathlib.Data.List.Rotate

namespace Ucore.Lib

variable {α : Type} {next next' : α → α} {a e p q x y : α} {l m n : List α}

-- From `a` the links lead through `l` to `e`.
def Leads (next : α → α) (a : α) (l : List α) (e : α) : Prop := (a :: l).map next = l ++ [e]

theorem leads_nil : Leads next a [] e ↔ next a = e := by
  simp [Leads]

theorem leads_cons : Leads next a (x :: l) e ↔ next a = x ∧ Leads next x l e := by
  unfold Leads
  rw [List.map_cons, List.cons_append, List.cons.injEq]

-- The end is reached along `next`.
theorem Leads.iterate (h : Leads next a l e) : next^[l.length + 1] a = e := by
  induction l generalizing a with
  | nil => exact leads_nil.mp h
  | cons x l ih =>
      obtain ⟨hx, hrest⟩ := leads_cons.mp h
      rw [List.length_cons, Function.iterate_succ_apply, hx]
      exact ih hrest

theorem Leads.append (h : Leads next a (l ++ x :: m) e) :
    Leads next a l x ∧ Leads next x m e := by
  induction l generalizing a with
  | nil => exact ⟨leads_nil.mpr (leads_cons.mp h).1, (leads_cons.mp h).2⟩
  | cons y l ih =>
      obtain ⟨hy, hrest⟩ := leads_cons.mp h
      obtain ⟨h₁, h₂⟩ := ih hrest
      exact ⟨leads_cons.mpr ⟨hy, h₁⟩, h₂⟩

-- The links of the members of `l` lead around, each to the one behind it and the last
-- to the first.
def Round (next : α → α) (l : List α) : Prop := l.map next = l.rotate 1

theorem round_cons : Round next (a :: l) ↔ Leads next a l a := by
  unfold Round Leads
  rw [List.rotate_cons_succ, List.rotate_zero]

theorem Round.rotate (h : Round next l) (k : ℕ) : Round next (l.rotate k) := by
  unfold Round at h ⊢
  rw [List.map_rotate, h, List.rotate_rotate, List.rotate_rotate, Nat.add_comm]

-- Any member can come first.
theorem round_split : Round next (m ++ p :: n) ↔ Round next (p :: (n ++ m)) := by
  have hrot : (m ++ p :: n).rotate m.length = p :: (n ++ m) := by
    rw [List.rotate_append_length_eq, List.cons_append]
  constructor
  · intro h
    rw [← hrot]
    exact h.rotate m.length
  · intro h
    have hback : (p :: (n ++ m)).rotate (p :: n).length = m ++ p :: n := by
      rw [← List.cons_append, List.rotate_append_length_eq]
    rw [← hback]
    exact h.rotate _

-- In a round without repetition a link leads to one member from one member only.
theorem Round.inj (h : Round next l) (hl : l.Nodup) (hx : x ∈ l) (hy : y ∈ l)
    (he : next x = next y) : x = y := by
  have hnodup : (l.map next).Nodup := by
    rw [h]
    exact List.nodup_rotate.mpr hl
  exact List.inj_on_of_nodup_map hnodup hx hy he

theorem Round.next_eq (h : Round next (m ++ p :: x :: n)) : next p = x :=
  (leads_cons.mp (round_cons.mp (round_split.mp h))).1

-- A round is the way from a member to another one and back.
theorem Round.leads (h : Round next l) (hp : p ∈ l) (hq : q ∈ l) (hne : p ≠ q) :
    ∃ m, Leads next p m q ∧ q ∉ m ∧ m.length < l.length ∧ ∀ x ∈ m, x ∈ l := by
  obtain ⟨l₁, l₂, rfl⟩ := List.append_of_mem hp
  have hround := round_cons.mp (round_split.mp h)
  have hq' : q ∈ l₂ ++ l₁ := by
    simp only [List.mem_append, List.mem_cons] at hq ⊢
    rcases hq with hq | hq | hq
    · exact Or.inr hq
    · exact absurd hq.symm hne
    · exact Or.inl hq
  obtain ⟨m, n, hm, hqm⟩ := List.eq_append_cons_of_mem hq'
  rw [hm] at hround
  refine ⟨m, hround.append.1, hqm, ?_, fun x hx => ?_⟩
  · have hlen := congrArg List.length hm
    simp only [List.length_append, List.length_cons] at hlen ⊢
    omega
  · have hx' : x ∈ l₂ ++ l₁ := hm ▸ List.mem_append_left _ hx
    simp only [List.mem_append, List.mem_cons] at hx' ⊢
    exact hx'.elim (fun hx => Or.inr (Or.inr hx)) Or.inl

theorem Round.congr (h : Round next l) (hsame : ∀ y ∈ l, next' y = next y) : Round next' l := by
  unfold Round at h ⊢
  rw [← h]
  exact List.map_congr_left hsame

-- A new member behind `p`
theorem Round.insert (h : Round next (m ++ p :: n)) (hpx : next' p = x) (hx : next' x = next p)
    (hsame : ∀ y, y ∈ m ∨ y ∈ n → next' y = next y) : Round next' (m ++ p :: x :: n) := by
  have hround := round_cons.mp (round_split.mp h)
  rw [round_split, List.cons_append, round_cons, leads_cons]
  refine ⟨hpx, ?_⟩
  unfold Leads at hround ⊢
  rw [List.map_cons] at hround ⊢
  rw [hx, ← hround]
  refine congrArg _ (List.map_congr_left fun y hy => hsame y ?_)
  exact (List.mem_append.mp hy).symm

-- The member behind `p` leaves.
theorem Round.remove (h : Round next (m ++ p :: x :: n)) (hp : next' p = next x)
    (hsame : ∀ y, y ∈ m ∨ y ∈ n → next' y = next y) : Round next' (m ++ p :: n) := by
  have hround := round_cons.mp (round_split.mp h)
  rw [List.cons_append, leads_cons] at hround
  have hrest := hround.2
  rw [round_split, round_cons]
  unfold Leads at hrest ⊢
  rw [List.map_cons] at hrest ⊢
  rw [hp, ← hrest]
  refine congrArg _ (List.map_congr_left fun y hy => hsame y ?_)
  exact (List.mem_append.mp hy).symm

end Ucore.Lib
