import Mathlib.Tactic.Tauto
import Ucore.Lib.Ring
import Ucore.Lib.Runs
import Ucore.Pmm.Struct

namespace Ucore.Pmm

open Lib

-- The blocks that the free list with the heads `l` stands for.
def FreeArea.blocks (s : FreeArea) (l : List Nat) : List (Nat × Nat) :=
  l.map fun p => (p, (s.pages p).property)

-- The ref and the lock of a page belong to whoever holds it: what the allocator leaves
-- alone outside of the pages it is given.
structure Unused (s s' : FreeArea) (given : Finset Nat) : Prop where
  npages : s'.npages = s.npages
  ref : ∀ p ∉ given, (s'.pages p).ref = (s.pages p).ref
  lock : ∀ p ∉ given, (s'.pages p).pageLock = (s.pages p).pageLock

-- The entries of `l` are linked into the free list and marked as heads, and the pages
-- `free` out of those of `managed` are unused.
structure Linked (s : FreeArea) (managed free : Finset Nat) (l : List Nat) : Prop where
  ring : Ring s.next s.prev .freeList (l.map .pageLink)
  sub : free ⊆ managed
  bound : ∀ p ∈ managed, p < s.npages
  reserved : ∀ p ∈ managed, (s.pages p).reserved = false
  heads : ∀ p ∈ managed, (s.pages p).pgProperty = true ↔ p ∈ l
  ref : ∀ p ∈ free, (s.pages p).ref = 0
  lock : ∀ p ∈ free, (s.pages p).pageLock = false
  nrFree : s.nrFree = free.card

-- The free list with the heads `l` is that of the pages `free`.
structure FreeList (s : FreeArea) (managed free : Finset Nat) (l : List Nat) : Prop
    extends Linked s managed free l where
  runs : Runs free (s.blocks l)

variable {s s' t : FreeArea} {managed free given : Finset Nat} {l m : List Nat}
  {base n : Nat}

theorem Unused.refl : Unused s s given := ⟨rfl, fun _ _ => rfl, fun _ _ => rfl⟩

theorem Unused.trans (h : Unused s s' given) (h' : Unused s' t given) : Unused s t given :=
  ⟨h'.npages.trans h.npages, fun p hp => (h'.ref p hp).trans (h.ref p hp),
    fun p hp => (h'.lock p hp).trans (h.lock p hp)⟩

theorem Unused.mono {given' : Finset Nat} (h : Unused s s' given) (hsub : given ⊆ given') :
    Unused s s' given' :=
  ⟨h.npages, fun p hp => h.ref p fun hg => hp (hsub hg),
    fun p hp => h.lock p fun hg => hp (hsub hg)⟩

theorem mem_blocks {r : Nat × Nat} :
    r ∈ s.blocks l ↔ r.1 ∈ l ∧ (s.pages r.1).property = r.2 := by
  unfold FreeArea.blocks
  rw [List.mem_map]
  constructor
  · rintro ⟨p, hp, rfl⟩
    exact ⟨hp, rfl⟩
  · rintro ⟨hp, he⟩
    exact ⟨r.1, hp, Prod.ext rfl he⟩

theorem mem_pageLinks {p : Nat} : Entry.pageLink p ∈ l.map Entry.pageLink ↔ p ∈ l := by
  simp

theorem blocks_append : s.blocks (l ++ m) = s.blocks l ++ s.blocks m := by
  simp [FreeArea.blocks]

theorem blocks_congr (h : ∀ p ∈ l, (s'.pages p).property = (s.pages p).property) :
    s'.blocks l = s.blocks l := by
  unfold FreeArea.blocks
  refine List.map_congr_left fun p hp => ?_
  rw [h p hp]

theorem npages_lt (s : FreeArea) : s.npages < 4294967296 := by
  have h := s.fits
  unfold KERNBASE SIZEOF_PAGE at h
  omega

theorem toUint_of_lt (h : n < 4294967296) : toUint n = n := Nat.mod_eq_of_lt h

theorem Linked.pages_card (h : Linked s managed free l) : managed.card ≤ s.npages := by
  have hsub : managed ⊆ Finset.range s.npages := fun p hp => Finset.mem_range.mpr (h.bound p hp)
  simpa using Finset.card_le_card hsub

theorem Linked.free_card (h : Linked s managed free l) : free.card ≤ s.npages :=
  (Finset.card_le_card h.sub).trans h.pages_card

theorem FreeList.ascending (h : FreeList s managed free l) : l.Pairwise (· < ·) := by
  have hasc : (l.map fun p => (p, (s.pages p).property)).Pairwise fun r q => r.1 < q.1 :=
    h.runs.ascending
  rwa [List.pairwise_map] at hasc

theorem FreeList.mem_free (h : FreeList s managed free l) {p : Nat} (hp : p ∈ l) : p ∈ free :=
  h.runs.start_mem (r := (p, (s.pages p).property)) (mem_blocks.mpr ⟨hp, rfl⟩)

theorem FreeList.length_le (h : FreeList s managed free l) : l.length ≤ s.npages := by
  have hnodup : l.Nodup := h.ascending.imp Nat.ne_of_lt
  rw [← List.toFinset_card_of_nodup hnodup]
  refine (Finset.card_le_card fun p hp => ?_).trans h.free_card
  exact h.mem_free (List.mem_toFinset.mp hp)

theorem FreeList.property_pos (h : FreeList s managed free l) {p : Nat} (hp : p ∈ l) :
    0 < (s.pages p).property :=
  h.runs.pos (p, (s.pages p).property) (mem_blocks.mpr ⟨hp, rfl⟩)

-- A set of pages has one free list.
theorem FreeList.unique (h : FreeList s managed free l) (h' : FreeList s' managed free m) :
    s.blocks l = s'.blocks m :=
  h.runs.unique h'.runs

@[simp] theorem listInsert_pages (elm prev next : Entry) :
    (listInsert s elm prev next).pages = s.pages := rfl

@[simp] theorem listInsert_npages (elm prev next : Entry) :
    (listInsert s elm prev next).npages = s.npages := rfl

@[simp] theorem listInsert_nrFree (elm prev next : Entry) :
    (listInsert s elm prev next).nrFree = s.nrFree := rfl

@[simp] theorem listDel_pages (elm : Entry) : (listDel s elm).pages = s.pages := rfl
@[simp] theorem listDel_npages (elm : Entry) : (listDel s elm).npages = s.npages := rfl
@[simp] theorem listDel_nrFree (elm : Entry) : (listDel s elm).nrFree = s.nrFree := rfl

-- Between two neighbours of the ring, __list_add puts an entry.
theorem ring_listInsert {x p q : Entry} {l m : List Entry}
    (h : Ring s.next s.prev .freeList (l ++ m)) (hx : x ∉ Entry.freeList :: (l ++ m))
    (hp : l.getLastD .freeList = p) (hq : m.headD .freeList = q) :
    Ring (listInsert s x p q).next (listInsert s x p q).prev .freeList (l ++ x :: m) := by
  have hpx : p ≠ x := by
    rintro rfl
    have hmem : l.getLastD .freeList ∈ Entry.freeList :: l := getLastD_mem
    rw [hp] at hmem
    simp only [List.mem_cons, List.mem_append, not_or] at hx hmem
    tauto
  have hqx : q ≠ x := by
    rintro rfl
    have hmem : m.headD .freeList ∈ m ++ [Entry.freeList] := headD_mem
    rw [hq] at hmem
    simp only [List.mem_cons, List.mem_append, List.mem_nil_iff, not_or] at hx hmem
    tauto
  refine h.insert hx ?_ ?_ ?_ ?_ ?_ ?_ <;> rw [hp] at * <;> rw [hq] at *
  · simp [listInsert]
  · simp [listInsert, Function.update_of_ne hpx]
  · intro y hyx hy
    simp [listInsert, Function.update_of_ne hyx, Function.update_of_ne hy]
  · simp [listInsert]
  · simp [listInsert, Function.update_of_ne hqx]
  · intro y hyx hy
    simp [listInsert, Function.update_of_ne hyx, Function.update_of_ne hy]

theorem ring_listDel {x : Entry} {l m : List Entry}
    (h : Ring s.next s.prev .freeList (l ++ x :: m)) :
    Ring (listDel s x).next (listDel s x).prev .freeList (l ++ m) := by
  have hprev := h.prev_eq
  have hnext := h.next_eq
  refine h.remove ?_ ?_ ?_ ?_ <;> simp only [← hprev, ← hnext]
  · simp [listDel]
  · intro y hy
    simp [listDel, Function.update_of_ne hy]
  · simp [listDel]
  · intro y hy
    simp [listDel, Function.update_of_ne hy]

-- The pages of a block are checked and written one after the other.
theorem initBlock_spec {ok : Page → Bool} (text : String) (f : Page → Page)
    (hbound : base + n ≤ s.npages)
    (hok : ∀ p, base ≤ p → p < base + n → ok (s.pages p) = true) :
    ∃ s', initBlock ok text f s base n = .ok s' ∧ s'.npages = s.npages ∧ s'.next = s.next ∧
      s'.prev = s.prev ∧ s'.nrFree = s.nrFree ∧
      ∀ p, s'.pages p = if base ≤ p ∧ p < base + n then f (s.pages p) else s.pages p := by
  induction n generalizing base s with
  | zero =>
      refine ⟨s, rfl, rfl, rfl, rfl, rfl, fun p => ?_⟩
      rw [if_neg (by omega)]
  | succ n ih =>
      have hb : base < s.npages := by omega
      obtain ⟨s', hs', h1, h2, h3, h4, h5⟩ := ih
        (show base + 1 + n ≤ (s.modify base f).npages by rw [FreeArea.modify_npages]; omega)
        (fun p hlo hhi => by
          rw [FreeArea.modify_of_ne (by omega)]
          exact hok p (by omega) (by omega))
      refine ⟨s', ?_, by simpa using h1, by simpa using h2, by simpa using h3, by simpa using h4, ?_⟩
      · simp only [initBlock, FreeArea.deref_eq hb, ok_bind, hok base le_rfl (by omega),
          assert_true, FreeArea.store_eq f hb]
        exact hs'
      · intro p
        rw [h5 p, FreeArea.modify_apply]
        by_cases he : p = base
        · subst he
          rw [if_neg (by omega), if_pos rfl, if_pos (by omega)]
        · rw [if_neg he]
          by_cases hin : base + 1 ≤ p ∧ p < base + 1 + n
          · rw [if_pos hin, if_pos (by omega)]
          · rw [if_neg hin, if_neg (by omega)]

-- The scan stops in front of the first member above `base`.
theorem insertLoop_spec {x fuel : Nat} {le : Entry} {m : List Entry}
    (h : Path s.next s.prev le (l.map .pageLink ++ .pageLink x :: m) .freeList)
    (hl : ∀ y ∈ l, y ≤ base) (hx : base < x) (hfuel : l.length < fuel) :
    insertLoop base fuel s le = .ok (listAddBefore s (.pageLink x) (.pageLink base)) := by
  induction l generalizing le fuel with
  | nil =>
      obtain ⟨fuel, rfl⟩ := Nat.exists_eq_succ_of_ne_zero (Nat.ne_of_gt hfuel)
      have hnext : s.next le = .pageLink x := h.1
      simp only [insertLoop, hnext, if_pos hx]
  | cons y l ih =>
      obtain ⟨fuel, rfl⟩ := Nat.exists_eq_succ_of_ne_zero (Nat.ne_of_gt (Nat.zero_lt_of_lt hfuel))
      obtain ⟨hnext, _, hrest⟩ := h
      have hy : ¬base < y := Nat.not_lt.mpr (hl y List.mem_cons_self)
      have hne : s.next (.pageLink y) ≠ .freeList := by
        rw [hrest.next_eq]
        cases l with
        | nil => simp
        | cons z l => simp
      simp only [insertLoop, hnext, if_neg hy, if_neg hne]
      exact ih hrest (fun z hz => hl z (List.mem_cons_of_mem y hz))
        (by simpa using hfuel)

-- With no member above `base` the scan adds it behind the last member, goes on to it,
-- and adds it once more behind itself.
theorem insertLoop_tail {x fuel : Nat} {le : Entry}
    (h : Path s.next s.prev le ((l ++ [x]).map .pageLink) .freeList)
    (hl : ∀ y ∈ l ++ [x], y < base) (hfuel : l.length + 3 ≤ fuel) :
    ∃ s', insertLoop base fuel s le = .ok s' ∧ s'.pages = s.pages ∧ s'.npages = s.npages ∧
      s'.next (.pageLink base) = .freeList ∧ s'.prev (.pageLink base) = .pageLink base := by
  induction l generalizing le fuel with
  | nil =>
      obtain ⟨fuel, rfl⟩ := Nat.exists_eq_add_of_le hfuel
      obtain ⟨hnext, _, hend, _⟩ := h
      have hx : x < base := hl x (by simp)
      have hfuel' : ([] : List Nat).length + 3 + fuel = fuel + 3 := by simp [Nat.add_comm]
      have hne : Entry.pageLink x ≠ .pageLink base := fun he => by
        cases he
        exact Nat.lt_irrefl _ hx
      -- the two list_adds, one after the other
      let s₁ := listAdd s (.pageLink x) (.pageLink base)
      let s₂ := listAdd s₁ (.pageLink base) (.pageLink base)
      have h₁ : s₁.next (.pageLink x) = .pageLink base := by
        simp [s₁, listAdd, listInsert, Function.update_of_ne hne]
      have h₁' : s₁.next (.pageLink base) = .freeList := by
        simp [s₁, listAdd, listInsert, hend]
      have h₂ : s₂.next (.pageLink base) = .freeList := by
        simp [s₂, listAdd, listInsert, h₁']
      refine ⟨s₂, ?_, rfl, rfl, h₂, ?_⟩
      · rw [hfuel']
        show insertLoop base (fuel + 2 + 1) s le = .ok s₂
        simp only [insertLoop, hnext, if_neg (Nat.not_lt.mpr hx.le), hend, if_true]
        show insertLoop base (fuel + 1 + 1) s₁ (.pageLink x) = .ok s₂
        simp only [insertLoop, h₁, if_neg (Nat.lt_irrefl base), h₁', if_true]
        show insertLoop base (fuel + 1) s₂ (.pageLink base) = .ok s₂
        simp only [insertLoop, h₂]
      · simp [s₂, listAdd, listInsert]
  | cons y l ih =>
      obtain ⟨fuel, rfl⟩ := Nat.exists_eq_succ_of_ne_zero (n := fuel) (by omega)
      obtain ⟨hnext, _, hrest⟩ := h
      have hy : ¬base < y := Nat.not_lt.mpr (hl y (by simp)).le
      have hne : s.next (.pageLink y) ≠ .freeList := by
        have hn := Path.next_eq hrest
        rw [hn]
        cases l with
        | nil => simp
        | cons z l => simp
      simp only [insertLoop, hnext, if_neg hy, if_neg hne]
      exact ih hrest (fun z hz => hl z (List.mem_cons_of_mem y hz))
        (by simpa using hfuel)

end Ucore.Pmm
