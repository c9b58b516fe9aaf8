import Mathlib.Data.List.Nodup
import Mathlib.Logic.Function.Basic

namespace Ucore.Lib

section Ring

variable {α : Type} {next prev next' prev' : α → α}

-- Following `next` from `a` one meets the nodes of `l` and then `b`, and `prev` leads
-- back the same way.
def Path (next prev : α → α) : α → List α → α → Prop
  | a, [], b => next a = b ∧ prev b = a
  | a, x :: l, b => next a = x ∧ prev x = a ∧ Path next prev x l b

-- A circular doubly linked list with the list head `head`.
structure Ring (next prev : α → α) (head : α) (l : List α) : Prop where
  path : Path next prev head l head
  nodup : (head :: l).Nodup

theorem Path.append {a b x : α} {l m : List α} :
    Path next prev a (l ++ x :: m) b ↔ Path next prev a l x ∧ Path next prev x m b := by
  induction l generalizing a with
  | nil => simp [Path, and_assoc]
  | cons y l ih => simp [Path, ih, and_assoc]

theorem Path.congr {a b : α} {l : List α} (h : Path next prev a l b)
    (hnext : ∀ y ∈ a :: l, next' y = next y) (hprev : ∀ y ∈ l ++ [b], prev' y = prev y) :
    Path next' prev' a l b := by
  induction l generalizing a with
  | nil =>
      obtain ⟨hn, hp⟩ := h
      exact ⟨(hnext a (by simp)).trans hn, (hprev b (by simp)).trans hp⟩
  | cons x l ih =>
      obtain ⟨hn, hp, hr⟩ := h
      refine ⟨(hnext a (by simp)).trans hn, (hprev x (by simp)).trans hp, ?_⟩
      exact ih hr (fun y hy => hnext y (List.mem_cons_of_mem a hy))
        (fun y hy => hprev y (List.mem_append.mpr ((List.mem_append.mp hy).imp_left (List.mem_cons_of_mem x))))

theorem Path.next_eq {a b : α} {l : List α} (h : Path next prev a l b) :
    next a = l.headD b := by
  cases l with
  | nil => exact h.1
  | cons x l => exact h.1

theorem Path.prev_eq {a b : α} {l : List α} (h : Path next prev a l b) :
    prev b = l.getLastD a := by
  induction l generalizing a with
  | nil => exact h.2
  | cons x l ih =>
      rw [List.getLastD_cons]
      exact ih h.2.2

-- The pointers determine the nodes up to the next occurrence of the end.
theorem Path.unique {a b : α} {l m : List α} (h : Path next prev a l b)
    (h' : Path next prev a m b) (hl : b ∉ l) (hm : b ∉ m) : l = m := by
  induction l generalizing a m with
  | nil =>
      cases m with
      | nil => rfl
      | cons y m =>
          have hy : y = b := h'.1.symm.trans h.1
          exact absurd (by simp [hy]) hm
  | cons x l ih =>
      cases m with
      | nil =>
          have hx : x = b := h.1.symm.trans h'.1
          exact absurd (by simp [hx]) hl
      | cons y m =>
          have hxy : x = y := h.1.symm.trans h'.1
          subst hxy
          simp only [List.mem_cons, not_or] at hl hm
          rw [ih h.2.2 h'.2.2 hl.2 hm.2]

theorem Ring.unique {head : α} {l m : List α} (h : Ring next prev head l)
    (h' : Ring next prev head m) : l = m :=
  h.path.unique h'.path (List.nodup_cons.mp h.nodup).1 (List.nodup_cons.mp h'.nodup).1

theorem Ring.next_head {head : α} {l : List α} (h : Ring next prev head l) :
    next head = l.headD head :=
  h.path.next_eq

theorem Ring.next_eq {head x : α} {l m : List α} (h : Ring next prev head (l ++ x :: m)) :
    next x = m.headD head :=
  (Path.append.mp h.path).2.next_eq

theorem Ring.prev_eq {head x : α} {l m : List α} (h : Ring next prev head (l ++ x :: m)) :
    prev x = l.getLastD head :=
  (Path.append.mp h.path).1.prev_eq

theorem Ring.nil_iff {head : α} {l : List α} (h : Ring next prev head l) :
    next head = head ↔ l = [] := by
  cases l with
  | nil => exact iff_of_true h.path.1 rfl
  | cons x l =>
      have hx : next head = x := h.path.1
      have hne : head ≠ x := fun he => (List.nodup_cons.mp h.nodup).1 (by simp [he])
      rw [hx]
      exact iff_of_false (Ne.symm hne) (by simp)

theorem headD_mem {x : α} {l : List α} : l.headD x ∈ l ++ [x] := by
  cases l with
  | nil => simp
  | cons z l => simp

theorem getLastD_mem {x : α} {l : List α} : l.getLastD x ∈ x :: l := by
  induction l generalizing x with
  | nil => simp
  | cons z l ih =>
      rw [List.getLastD_cons]
      exact List.mem_cons_of_mem x ih

theorem Ring.next_last {head : α} {l m : List α} (h : Ring next prev head (l ++ m)) :
    next (l.getLastD head) = m.headD head := by
  rcases List.eq_nil_or_concat l with rfl | ⟨l, x, rfl⟩
  · exact h.next_head
  · rw [List.concat_eq_append, List.append_assoc] at h
    rw [List.concat_eq_append, List.getLastD_concat]
    exact h.next_eq

-- No member of a ring points back at itself.
theorem Ring.prev_ne {head x : α} {l : List α} (h : Ring next prev head l) (hx : x ∈ l) :
    prev x ≠ x := by
  obtain ⟨l₁, l₂, rfl⟩ := List.append_of_mem hx
  rw [h.prev_eq]
  intro he
  have hmem : x ∈ head :: l₁ := by
    rw [← he]
    exact getLastD_mem
  have hnodup : ((head :: l₁) ++ x :: l₂).Nodup := h.nodup
  exact (List.nodup_append'.mp hnodup).2.2 hmem List.mem_cons_self

-- Linking `x` in between two neighbours.
theorem Path.insert {a b x : α} {l m : List α} (h : Path next prev a (l ++ m) b)
    (ha : a ∉ l ++ m) (hb : b ∉ l ++ m) (hnodup : (l ++ m).Nodup)
    (hx : x ∉ l ++ m) (hxa : x ≠ a) (hxb : x ≠ b)
    (hnx : next' x = m.headD b) (hnp : next' (l.getLastD a) = x)
    (hn : ∀ y, y ≠ x → y ≠ l.getLastD a → next' y = next y)
    (hpx : prev' x = l.getLastD a) (hpn : prev' (m.headD b) = x)
    (hp : ∀ y, y ≠ x → y ≠ m.headD b → prev' y = prev y) :
    Path next' prev' a (l ++ x :: m) b := by
  induction l generalizing a with
  | nil =>
      refine ⟨hnp, hpx, ?_⟩
      cases m with
      | nil => exact ⟨hnx, hpn⟩
      | cons y m =>
          simp only [List.nil_append, List.mem_cons, not_or, List.nodup_cons] at ha hb hx hnodup
          refine ⟨hnx, hpn, h.2.2.congr (fun z hz => hn z ?_ ?_) (fun z hz => hp z ?_ ?_)⟩
          · rintro rfl
            rcases List.mem_cons.mp hz with hz | hz
            · exact hx.1 hz
            · exact hx.2 hz
          · rintro rfl
            rcases List.mem_cons.mp hz with hz | hz
            · exact ha.1 hz
            · exact ha.2 hz
          · rintro rfl
            rcases List.mem_append.mp hz with hz | hz
            · exact hx.2 hz
            · exact hxb (List.mem_singleton.mp hz)
          · rintro rfl
            rcases List.mem_append.mp hz with hz | hz
            · exact hnodup.1 hz
            · exact hb.1 (List.mem_singleton.mp hz).symm
  | cons y l ih =>
      rw [List.getLastD_cons] at *
      have hlast : l.getLastD y ∈ y :: l := getLastD_mem
      have hfirst : m.headD b ∈ m ++ [b] := headD_mem
      simp only [List.cons_append, List.mem_cons, not_or, List.nodup_cons] at ha hb hx hnodup
      refine ⟨?_, ?_, ih h.2.2 hnodup.1 hb.2 hnodup.2 hx.2 hx.1 hnp hn hpx⟩
      · refine (hn a (Ne.symm hxa) ?_).trans h.1
        intro he
        rw [← he] at hlast
        rcases List.mem_cons.mp hlast with hl | hl
        · exact ha.1 hl
        · exact ha.2 (List.mem_append_left m hl)
      · refine (hp y (Ne.symm hx.1) ?_).trans h.2.1
        intro he
        rw [← he] at hfirst
        rcases List.mem_append.mp hfirst with hm | hm
        · exact hnodup.1 (List.mem_append_right l hm)
        · exact hb.1 (List.mem_singleton.mp hm).symm

-- Unlinking `x`: its neighbours point at each other.
theorem Path.remove {a b x : α} {l m : List α} (h : Path next prev a (l ++ x :: m) b)
    (ha : a ∉ l ++ m) (hb : b ∉ l ++ m) (hnodup : (l ++ m).Nodup)
    (hnp : next' (l.getLastD a) = m.headD b)
    (hn : ∀ y, y ≠ l.getLastD a → next' y = next y)
    (hpn : prev' (m.headD b) = l.getLastD a)
    (hp : ∀ y, y ≠ m.headD b → prev' y = prev y) :
    Path next' prev' a (l ++ m) b := by
  induction l generalizing a with
  | nil =>
      cases m with
      | nil => exact ⟨hnp, hpn⟩
      | cons y m =>
          simp only [List.nil_append, List.mem_cons, not_or, List.nodup_cons] at ha hb hnodup
          refine ⟨hnp, hpn, h.2.2.2.2.congr (fun z hz => hn z ?_) (fun z hz => hp z ?_)⟩
          · rintro rfl
            rcases List.mem_cons.mp hz with hz | hz
            · exact ha.1 hz
            · exact ha.2 hz
          · rintro rfl
            rcases List.mem_append.mp hz with hz | hz
            · exact hnodup.1 hz
            · exact hb.1 (List.mem_singleton.mp hz).symm
  | cons y l ih =>
      rw [List.getLastD_cons] at *
      have hlast : l.getLastD y ∈ y :: l := getLastD_mem
      have hfirst : m.headD b ∈ m ++ [b] := headD_mem
      simp only [List.cons_append, List.mem_cons, not_or, List.nodup_cons] at ha hb hnodup
      refine ⟨?_, ?_, ih h.2.2 hnodup.1 hb.2 hnodup.2 hnp hn hpn⟩
      · refine (hn a ?_).trans h.1
        intro he
        rw [← he] at hlast
        rcases List.mem_cons.mp hlast with hl | hl
        · exact ha.1 hl
        · exact ha.2 (List.mem_append_left m hl)
      · refine (hp y ?_).trans h.2.1
        intro he
        rw [← he] at hfirst
        rcases List.mem_append.mp hfirst with hm | hm
        · exact hnodup.1 (List.mem_append_right l hm)
        · exact hb.1 (List.mem_singleton.mp hm).symm

theorem Ring.insert {head x : α} {l m : List α} (h : Ring next prev head (l ++ m))
    (hx : x ∉ head :: (l ++ m))
    (hnx : next' x = m.headD head) (hnp : next' (l.getLastD head) = x)
    (hn : ∀ y, y ≠ x → y ≠ l.getLastD head → next' y = next y)
    (hpx : prev' x = l.getLastD head) (hpn : prev' (m.headD head) = x)
    (hp : ∀ y, y ≠ x → y ≠ m.headD head → prev' y = prev y) :
    Ring next' prev' head (l ++ x :: m) := by
  obtain ⟨hhead, hlm⟩ := List.nodup_cons.mp h.nodup
  simp only [List.mem_cons, not_or] at hx
  refine ⟨h.path.insert hhead hhead hlm hx.2 hx.1 hx.1 hnx hnp hn hpx hpn hp, ?_⟩
  have hperm : (head :: (l ++ x :: m)).Perm (x :: head :: (l ++ m)) :=
    (List.perm_middle.cons head).trans (List.Perm.swap x head (l ++ m))
  refine hperm.nodup_iff.mpr (List.nodup_cons.mpr ⟨?_, h.nodup⟩)
  simp only [List.mem_cons, not_or]
  exact hx

theorem Ring.remove {head x : α} {l m : List α} (h : Ring next prev head (l ++ x :: m))
    (hnp : next' (l.getLastD head) = m.headD head)
    (hn : ∀ y, y ≠ l.getLastD head → next' y = next y)
    (hpn : prev' (m.headD head) = l.getLastD head)
    (hp : ∀ y, y ≠ m.headD head → prev' y = prev y) :
    Ring next' prev' head (l ++ m) := by
  have hsub : (head :: (l ++ m)).Nodup :=
    h.nodup.sublist (((List.Sublist.refl l).append (List.sublist_cons_self x m)).cons_cons head)
  obtain ⟨hhead, hlm⟩ := List.nodup_cons.mp hsub
  exact ⟨h.path.remove hhead hhead hlm hnp hn hpn hp, hsub⟩

end Ring

end Ucore.Lib
