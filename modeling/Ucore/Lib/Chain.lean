import Mathlib.Data.List.Nodup
import Mathlib.Tactic.Tauto

namespace Ucore.Lib

section Chain

variable {α : Type} {null : α} {next prev next' prev' : α → α}

-- `l` lists the nodes met from `head` along `next` up to the null pointer, and
-- `prev` leads back along it; the first node points back to `before`.
def Chain (null : α) (next prev : α → α) : α → α → List α → Prop
  | _, head, [] => head = null
  | before, head, x :: rest =>
      head = x ∧ x ≠ null ∧ prev x = before ∧ Chain null next prev x (next x) rest

theorem Chain.ne_null {before head : α} {l : List α}
    (h : Chain null next prev before head l) : ∀ x ∈ l, x ≠ null := by
  induction l generalizing before head with
  | nil => simp
  | cons x rest ih =>
      obtain ⟨_, hn, _, hrest⟩ := h
      intro y hy
      rcases List.mem_cons.mp hy with rfl | hy
      · exact hn
      · exact ih hrest y hy

theorem Chain.head_eq {before head : α} {l : List α}
    (h : Chain null next prev before head l) : head = l.head?.getD null := by
  cases l with
  | nil => exact h
  | cons x rest => exact h.1

theorem Chain.nil_iff {before head : α} {l : List α}
    (h : Chain null next prev before head l) : head = null ↔ l = [] := by
  cases l with
  | nil => exact iff_of_true h rfl
  | cons x rest => simpa [h.1] using h.2.1

-- The pointers determine the list.
theorem Chain.unique {before before' head : α} {l l' : List α}
    (h : Chain null next prev before head l) (h' : Chain null next prev before' head l') :
    l = l' := by
  induction l generalizing before before' head l' with
  | nil =>
      have hn : head = null := h
      exact (h'.nil_iff.mp hn).symm
  | cons x rest ih =>
      cases l' with
      | nil =>
          have hn : head = null := h'
          exact absurd (h.1.symm.trans hn) h.2.1
      | cons y rest' =>
          obtain ⟨rfl, _, _, hr⟩ := h
          obtain ⟨rfl, _, _, hr'⟩ := h'
          rw [ih hr hr']

theorem Chain.split {before head x : α} {l₁ l₂ : List α}
    (h : Chain null next prev before head (l₁ ++ x :: l₂)) :
    ∃ b, Chain null next prev b x (x :: l₂) := by
  induction l₁ generalizing before head with
  | nil =>
      obtain ⟨rfl, hn, hp, hr⟩ := h
      exact ⟨before, rfl, hn, hp, hr⟩
  | cons y rest ih => exact ih h.2.2.2

-- A list that ends visits no node twice: the rest of the list from a node is
-- determined by the node.
theorem Chain.nodup {before head : α} {l : List α}
    (h : Chain null next prev before head l) : l.Nodup := by
  induction l generalizing before head with
  | nil => exact List.nodup_nil
  | cons x rest ih =>
      have hrest : Chain null next prev x (next x) rest := h.2.2.2
      refine List.nodup_cons.mpr ⟨?_, ih hrest⟩
      intro hx
      obtain ⟨l₁, l₂, rfl⟩ := List.append_of_mem hx
      obtain ⟨b, hb⟩ := hrest.split
      have he := hb.2.2.2.unique hrest
      have hl := congrArg List.length he
      simp only [List.length_append, List.length_cons] at hl
      omega

theorem Chain.congr {before head : α} {l : List α}
    (h : Chain null next prev before head l)
    (hnext : ∀ x ∈ l, next' x = next x) (hprev : ∀ x ∈ l, prev' x = prev x) :
    Chain null next' prev' before head l := by
  induction l generalizing before head with
  | nil => exact h
  | cons x rest ih =>
      obtain ⟨rfl, hn, hp, hr⟩ := h
      refine ⟨rfl, hn, (hprev head List.mem_cons_self).trans hp, ?_⟩
      rw [hnext head List.mem_cons_self]
      exact ih hr (fun y hy => hnext y (List.mem_cons_of_mem _ hy))
        (fun y hy => hprev y (List.mem_cons_of_mem _ hy))

theorem Chain.prev_eq {before head x : α} {l₁ l₂ : List α}
    (h : Chain null next prev before head (l₁ ++ x :: l₂)) :
    prev x = l₁.getLast?.getD before := by
  induction l₁ generalizing before head with
  | nil => exact h.2.2.1
  | cons y rest ih =>
      rw [ih h.2.2.2]
      cases rest with
      | nil => rfl
      | cons z rest => simp [List.getLast?_cons]

theorem Chain.next_eq {before head x : α} {l₁ l₂ : List α}
    (h : Chain null next prev before head (l₁ ++ x :: l₂)) :
    next x = l₂.head?.getD null := by
  obtain ⟨b, hb⟩ := h.split
  exact hb.2.2.2.head_eq

variable [DecidableEq α]

-- Only the back pointer of the first node refers to what stands before it.
theorem Chain.rehead {before before' head : α} {l : List α}
    (h : Chain null next prev before head l)
    (hnext : ∀ x ∈ l, next' x = next x)
    (hprev : ∀ x ∈ l, prev' x = if x = head then before' else prev x) :
    Chain null next' prev' before' head l := by
  cases l with
  | nil => exact h
  | cons x rest =>
      have hnodup := h.nodup
      obtain ⟨rfl, hn, hp, hr⟩ := h
      refine ⟨rfl, hn, ?_, ?_⟩
      · rw [hprev head List.mem_cons_self, if_pos rfl]
      · rw [hnext head List.mem_cons_self]
        refine hr.congr (fun y hy => hnext y (List.mem_cons_of_mem _ hy)) ?_
        intro y hy
        rw [hprev y (List.mem_cons_of_mem _ hy), if_neg]
        rintro rfl
        exact (List.nodup_cons.mp hnodup).1 hy

-- A new first node `x` whose successor is the old head.
theorem Chain.push {before head x : α} {l : List α}
    (h : Chain null next prev before head l) (hx : x ≠ null)
    (hnext : ∀ y ∈ l, next' y = next y) (hnx : next' x = head)
    (hprev : ∀ y ∈ l, prev' y = if y = head then x else prev y)
    {before' : α} (hpx : prev' x = before') :
    Chain null next' prev' before' x (x :: l) := by
  refine ⟨rfl, hx, hpx, ?_⟩
  rw [hnx]
  exact h.rehead hnext hprev

-- Unlinking `x`: its successor takes its back pointer, its predecessor (or the
-- head pointer) its successor.
theorem Chain.remove {before head x : α} {l₁ l₂ : List α}
    (h : Chain null next prev before head (l₁ ++ x :: l₂)) (hb : before ∉ l₁ ++ x :: l₂)
    (hnext : ∀ y ∈ l₁ ++ l₂, next' y = if y = prev x then next x else next y)
    (hprev : ∀ y ∈ l₁ ++ l₂, prev' y = if y = next x then prev x else prev y) :
    Chain null next' prev' before (if prev x = before then next x else head) (l₁ ++ l₂) := by
  induction l₁ generalizing before head with
  | nil =>
      obtain ⟨rfl, hn, hp, hr⟩ := h
      rw [if_pos hp]
      refine hr.rehead (fun y hy => ?_) (fun y hy => ?_)
      · have hne : y ≠ prev head := by
          rintro rfl
          exact hb (hp ▸ List.mem_cons_of_mem _ hy)
        rw [hnext y hy, if_neg hne]
      · rw [hprev y hy, hp]
  | cons y rest ih =>
      have hnodup := h.nodup
      have hnx := h.next_eq
      have hpx := h.prev_eq
      obtain ⟨rfl, hn, hp, hr⟩ := h
      have hhead : head ∉ rest ++ x :: l₂ := (List.nodup_cons.mp hnodup).1
      have hih := ih hr hhead (fun z hz => hnext z (List.mem_cons_of_mem _ hz))
        (fun z hz => hprev z (List.mem_cons_of_mem _ hz))
      have hpm : prev x ∈ head :: rest := by
        rw [hpx, List.getLast?_cons, Option.getD_some, ← List.getLastD_eq_getLast?]
        exact List.getLastD_mem_cons
      have hne : prev x ≠ before := by
        rintro he
        apply hb
        rw [← he]
        simp only [List.cons_append, List.mem_cons, List.mem_append] at hpm ⊢
        tauto
      have hnh : head ≠ next x := by
        intro he
        cases l₂ with
        | nil => exact hn (he.trans hnx)
        | cons z l₂ =>
            have hz : head = z := he.trans hnx
            exact hhead (hz ▸ by simp)
      rw [if_neg hne]
      refine ⟨rfl, hn, ?_, ?_⟩
      · rw [hprev head (by simp), if_neg hnh, hp]
      · rw [hnext head (by simp)]
        by_cases he : prev x = head
        · simpa [he] using hih
        · simpa [he, Ne.symm he] using hih

end Chain

end Ucore.Lib
