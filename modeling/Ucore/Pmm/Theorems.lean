import Ucore.Pmm.Alloc

namespace Ucore.Pmm

open Lib

variable {s s' t : FreeArea} {managed free held held' : Finset Nat} {l : List Nat}
  {base n k p : Nat} {ops : List Op}

-- The heads met along `next` from the head of the list.
def walk (s : FreeArea) : Nat → Entry → List Nat
  | 0, _ => []
  | fuel + 1, le =>
      match s.next le with
      | .freeList => []
      | .pageLink p => p :: walk s fuel (.pageLink p)

def FreeArea.members (s : FreeArea) : List Nat := walk s s.npages .freeList

-- The free list with the sizes of its blocks.
def FreeArea.freeBlocks (s : FreeArea) : List (Nat × Nat) := s.blocks s.members

theorem walk_eq {fuel : Nat} {le : Entry}
    (h : Path s.next s.prev le (l.map .pageLink) .freeList) (hfuel : l.length ≤ fuel) :
    walk s fuel le = l := by
  induction l generalizing le fuel with
  | nil =>
      have hnext : s.next le = .freeList := h.1
      cases fuel with
      | zero => rfl
      | succ fuel => simp only [walk, hnext]
  | cons x l ih =>
      obtain ⟨fuel, rfl⟩ := Nat.exists_eq_add_of_le' (Nat.one_le_of_lt hfuel)
      obtain ⟨hnext, _, hrest⟩ := h
      simp only [walk, hnext, ih hrest (by simpa using hfuel)]

theorem FreeList.members_eq (h : FreeList s managed free l) : s.members = l :=
  walk_eq h.ring.path h.length_le

-- What the caller of the allocator does: it takes pages, gives pages back, or writes the
-- ref and the lock of a page it holds.
inductive Op
  | alloc (n : Nat)
  | free (base n : Nat)
  | use (page : Nat) (ref : Int) (lock : Bool)

def step (s : FreeArea) (held : Finset Nat) : Op → Except Halt (FreeArea × Finset Nat)
  | .alloc n => do
      match ← defaultAllocPages s n with
      | (none, s) => pure (s, held)
      | (some page, s) => pure (s, held ∪ Finset.Ico page (page + n))
  | .free base n => do
      let s ← defaultFreePages s base n
      pure (s, held \ Finset.Ico base (base + n))
  | .use page ref lock => do
      let s ← s.store page fun q => { q with ref := ref, pageLock := lock }
      pure (s, held)

-- Only pages that are held are given back or written.
def Permitted (held : Finset Nat) : Op → Prop
  | .alloc n => 0 < n
  | .free base n => 0 < n ∧ Finset.Ico base (base + n) ⊆ held
  | .use page _ _ => page ∈ held

-- A block is given back to an empty list or below some member of it.
def Orderly (s : FreeArea) : Op → Prop
  | .free base _ => InOrder s.members base
  | _ => True

instance (op : Op) : Decidable (Permitted held op) :=
  match op with
  | .alloc n => inferInstanceAs (Decidable (0 < n))
  | .free base n => inferInstanceAs (Decidable (0 < n ∧ Finset.Ico base (base + n) ⊆ held))
  | .use page _ _ => inferInstanceAs (Decidable (page ∈ held))

instance (op : Op) : Decidable (Orderly s op) :=
  match op with
  | .alloc _ => isTrue trivial
  | .free base _ => inferInstanceAs (Decidable (InOrder s.members base))
  | .use _ _ _ => isTrue trivial

-- Every step of a run meets `Q` when it is made.
def EachStep (Q : FreeArea → Finset Nat → Op → Prop) :
    FreeArea → Finset Nat → List Op → Prop
  | _, _, [] => True
  | s, held, op :: ops =>
      Q s held op ∧ ∀ s' held', step s held op = .ok (s', held') → EachStep Q s' held' ops

-- A run returns from every step, and `P` holds in every state of it.
def Always (P : FreeArea → Finset Nat → Prop) : FreeArea → Finset Nat → List Op → Prop
  | s, held, [] => P s held
  | s, held, op :: ops =>
      P s held ∧ ∃ s' held', step s held op = .ok (s', held') ∧ Always P s' held' ops

instance decidableEachStep {Q : FreeArea → Finset Nat → Op → Prop}
    [hdec : ∀ s held op, Decidable (Q s held op)] :
    (s : FreeArea) → (held : Finset Nat) → (ops : List Op) → Decidable (EachStep Q s held ops)
  | _, _, [] => isTrue trivial
  | s, held, op :: ops =>
      have := hdec s held op
      match h : step s held op with
      | .error _ => decidable_of_iff (Q s held op) (by simp [EachStep, h])
      | .ok (s', held') =>
          have := decidableEachStep (Q := Q) s' held' ops
          decidable_of_iff (Q s held op ∧ EachStep Q s' held' ops) (by
            simp only [EachStep, h, Except.ok.injEq, Prod.mk.injEq]
            exact and_congr_right fun _ => ⟨by rintro hr _ _ ⟨rfl, rfl⟩; exact hr,
              fun hr => hr _ _ ⟨rfl, rfl⟩⟩)

-- The free list stands for the pages of `initial` that nobody holds.
structure Represents (s : FreeArea) (initial held : Finset Nat) : Prop where
  ring : Ring s.next s.prev .freeList (s.members.map .pageLink)
  ascending : s.members.Pairwise (· < ·)
  maximal : ∀ r, r ∈ s.freeBlocks ↔ MaximalRun (initial \ held) r
  heads : ∀ p ∈ initial, (s.pages p).pgProperty = true ↔ p ∈ s.members
  clean : ∀ p ∈ initial \ held, (s.pages p).ref = 0 ∧ (s.pages p).pageLock = false
  nrFree : s.nrFree = (s.freeBlocks.map Prod.snd).sum
  sub : held ⊆ initial
  cover : ∀ p, p ∈ initial \ held ↔ ∃ r ∈ s.freeBlocks, r.1 ≤ p ∧ p < r.1 + r.2
  usable : ∀ p ∈ initial, p < s.npages ∧ (s.pages p).reserved = false

theorem FreeList.represents (h : FreeList s managed (managed \ held) l) (hheld : held ⊆ managed) :
    Represents s managed held := by
  have hl := h.members_eq
  subst hl
  exact ⟨h.ring, h.ascending, h.runs.mem_iff, h.heads, fun p hp => ⟨h.ref p hp, h.lock p hp⟩,
    h.nrFree.trans h.runs.card, hheld, h.runs.mem, fun p hp => ⟨h.bound p hp, h.reserved p hp⟩⟩

theorem Represents.freeList (h : Represents s managed held) :
    FreeList s managed (managed \ held) s.members := by
  have hasc : (s.blocks s.members).Pairwise fun r q => r.1 < q.1 := by
    unfold FreeArea.blocks
    rw [List.pairwise_map]
    exact h.ascending
  have hruns : Runs (managed \ held) (s.blocks s.members) :=
    Runs.of_maximal hasc (fun r hr => (h.maximal r).mp hr) (fun p hp => (h.cover p).mp hp)
  exact ⟨⟨h.ring, Finset.sdiff_subset, fun p hp => (h.usable p hp).1,
    fun p hp => (h.usable p hp).2, h.heads, fun p hp => (h.clean p hp).1,
    fun p hp => (h.clean p hp).2, h.nrFree.trans hruns.card.symm⟩, hruns⟩

-- The list depends on the free pages only.
theorem Represents.unique (h : Represents s managed held) (h' : Represents s' managed held) :
    s.freeBlocks = s'.freeBlocks :=
  h.freeList.unique h'.freeList

theorem FreeList.use {ref : Int} {lock : Bool} (h : FreeList s managed free l) (hp : p ∉ free) :
    FreeList (s.modify p fun q => { q with ref := ref, pageLock := lock }) managed free l := by
  have hpages : ∀ q, (s.modify p fun q => { q with ref := ref, pageLock := lock }).pages q =
      if q = p then { s.pages q with ref := ref, pageLock := lock } else s.pages q :=
    fun q => FreeArea.modify_apply
  have hne : ∀ q ∈ free, q ≠ p := by
    rintro q hq rfl
    exact hp hq
  refine ⟨⟨h.ring, h.sub, h.bound, ?_, ?_, ?_, ?_, h.nrFree⟩, ?_⟩
  · intro q hq
    rw [hpages]
    split_ifs
    · exact h.reserved q hq
    · exact h.reserved q hq
  · intro q hq
    rw [hpages]
    split_ifs
    · exact h.heads q hq
    · exact h.heads q hq
  · intro q hq
    rw [hpages, if_neg (hne q hq)]
    exact h.ref q hq
  · intro q hq
    rw [hpages, if_neg (hne q hq)]
    exact h.lock q hq
  · have hsame : ∀ q ∈ l, ((s.modify p fun q => { q with ref := ref, pageLock := lock }).pages
        q).property = (s.pages q).property := fun q hq => by
      rw [hpages, if_neg (hne q (h.mem_free hq))]
    rw [blocks_congr hsame]
    exact h.runs

theorem Represents.alloc (h : Represents s managed held) (hk : 0 < k) :
    defaultAllocPages s k = .ok (none, s) ∨
      ∃ p s', defaultAllocPages s k = .ok (some p, s') ∧ Finset.Ico p (p + k) ⊆ managed \ held ∧
        Represents s' managed (held ∪ Finset.Ico p (p + k)) := by
  rcases defaultAllocPages_spec (g := ∅) h.freeList hk with ⟨_, hs⟩ | ⟨p, s', l', hs, _, _, _, hsub, hfl, _⟩
  · exact Or.inl hs
  · refine Or.inr ⟨p, s', hs, hsub, ?_⟩
    rw [sdiff_sdiff] at hfl
    exact hfl.represents (Finset.union_subset h.sub (hsub.trans Finset.sdiff_subset))

theorem Represents.disjoint (h : Represents s managed held)
    (hsub : Finset.Ico base (base + n) ⊆ held) :
    Finset.Ico base (base + n) ⊆ managed ∧
      Disjoint (managed \ held) (Finset.Ico base (base + n)) :=
  ⟨hsub.trans h.sub, Finset.disjoint_of_subset_right hsub Finset.sdiff_disjoint⟩

-- A free_pages of held pages keeps the list exact if and only if it is in order.
theorem Represents.free_iff (h : Represents s managed held) (hn : 0 < n)
    (hsub : Finset.Ico base (base + n) ⊆ held) :
    (∃ s', defaultFreePages s base n = .ok s' ∧
      Represents s' managed (held \ Finset.Ico base (base + n))) ↔ InOrder s.members base := by
  obtain ⟨hmanaged, hdisj⟩ := h.disjoint hsub
  constructor
  · rintro ⟨s', hs', hr⟩
    by_contra horder
    obtain ⟨t, ht, hhead, hprev, _⟩ := defaultFreePages_tail h.freeList hn hmanaged hdisj horder
    cases hs'.symm.trans ht
    have hmem : base ∈ s'.members :=
      (hr.heads base (hmanaged (Finset.mem_Ico.mpr ⟨le_rfl, by omega⟩))).mp hhead
    exact hr.ring.prev_ne (mem_pageLinks.mpr hmem) hprev
  · intro horder
    obtain ⟨s', l', hs', hfl, _⟩ := defaultFreePages_spec h.freeList hn hmanaged hdisj horder
    refine ⟨s', hs', ?_⟩
    have hset : managed \ held ∪ Finset.Ico base (base + n) =
        managed \ (held \ Finset.Ico base (base + n)) := by
      ext p
      have hp := @hmanaged p
      simp only [Finset.mem_union, Finset.mem_sdiff]
      tauto
    rw [hset] at hfl
    exact hfl.represents (Finset.sdiff_subset.trans h.sub)

theorem Represents.step_iff (h : Represents s managed held) {op : Op} (hop : Permitted held op) :
    (∃ s' held', step s held op = .ok (s', held') ∧ Represents s' managed held') ↔
      Orderly s op := by
  cases op with
  | alloc k =>
      refine iff_of_true ?_ trivial
      rcases h.alloc hop with hs | ⟨p, s', hs, _, hr⟩
      · exact ⟨s, held, by simp only [step, hs, ok_bind, pure_eq_ok], h⟩
      · exact ⟨s', _, by simp only [step, hs, ok_bind, pure_eq_ok], hr⟩
  | free base n =>
      refine Iff.trans ?_ (h.free_iff hop.1 hop.2)
      constructor
      · rintro ⟨s', held', hs, hr⟩
        obtain ⟨t, ht, he⟩ := bind_eq_ok.mp hs
        cases he
        exact ⟨_, ht, hr⟩
      · rintro ⟨s', hs, hr⟩
        exact ⟨s', _, by simp only [step, hs, ok_bind, pure_eq_ok], hr⟩
  | use page ref lock =>
      refine iff_of_true ?_ trivial
      have hbound : page < s.npages := (h.usable page (h.sub hop)).1
      have hout : page ∉ managed \ held := fun hp => (Finset.mem_sdiff.mp hp).2 hop
      refine ⟨s.modify page fun q => { q with ref := ref, pageLock := lock }, held, ?_,
        (h.freeList.use hout).represents h.sub⟩
      simp only [step, FreeArea.store_eq _ hbound, ok_bind, pure_eq_ok]

-- Along a run the list stays exact if and only if each step is in order.
theorem Represents.always_iff (h : Represents s managed held)
    (hops : EachStep (fun _ held op => Permitted held op) s held ops) :
    Always (fun s held => Represents s managed held) s held ops ↔
      EachStep (fun s _ op => Orderly s op) s held ops := by
  induction ops generalizing s held with
  | nil => exact iff_of_true h trivial
  | cons op ops ih =>
      obtain ⟨hop, hrest⟩ := hops
      have hone := h.step_iff hop
      constructor
      · rintro ⟨_, s', held', hs, hall⟩
        have hr : Represents s' managed held' := by
          cases ops with
          | nil => exact hall
          | cons op' ops => exact hall.1
        refine ⟨hone.mp ⟨s', held', hs, hr⟩, fun s'' held'' hs'' => ?_⟩
        cases hs.symm.trans hs''
        exact (ih hr (hrest s' held' hs)).mp hall
      · rintro ⟨hord, hall⟩
        obtain ⟨s', held', hs, hr⟩ := hone.mpr hord
        exact ⟨h, s', held', hs, (ih hr (hrest s' held' hs)).mpr (hall s' held' hs)⟩

-- The state behind default_init and one default_init_memmap over reserved pages.
def Booted (base n : Nat) (s : FreeArea) : Prop :=
  ∃ s₀ : FreeArea, base + n ≤ s₀.npages ∧
    (∀ p, base ≤ p → p < base + n → (s₀.pages p).reserved = true) ∧
    defaultInitMemmap (defaultInit s₀) base n = .ok s

theorem Booted.represents (h : Booted base n s) : Represents s (Finset.Ico base (base + n)) ∅ := by
  obtain ⟨s₀, hbound, hreserved, hs⟩ := h
  have hn : 0 < n := by
    by_contra hn
    have hno : decide (n > 0) = false := decide_eq_false hn
    rw [defaultInitMemmap, hno] at hs
    cases hs
  obtain ⟨s', hs', _, hfl⟩ := defaultInitMemmap_spec hn hbound hreserved
  cases hs.symm.trans hs'
  refine FreeList.represents (l := [base]) ?_ (Finset.empty_subset _)
  rwa [Finset.sdiff_empty]

theorem Represents.restore (h : Represents s managed held) (hk : 0 < k)
    (hs : defaultAllocPages s k = .ok (some p, s')) (horder : InOrder s'.members p) :
    ∃ t, defaultFreePages s' p k = .ok t ∧ Represents t managed held ∧
      t.freeBlocks = s.freeBlocks := by
  rcases h.alloc hk with hno | ⟨q, t, ht, hsub, hr⟩
  · cases hno.symm.trans hs
  · cases ht.symm.trans hs
    obtain ⟨t, ht, hrt⟩ := (hr.free_iff hk Finset.subset_union_right).mpr horder
    have hback : (held ∪ Finset.Ico p (p + k)) \ Finset.Ico p (p + k) = held := by
      rw [Finset.union_sdiff_right, Finset.sdiff_eq_self_iff_disjoint]
      exact Finset.disjoint_of_subset_right hsub Finset.disjoint_sdiff
    rw [hback] at hrt
    exact ⟨t, ht, hrt, hrt.unique h⟩

-- The allocator from the first block on: every state of a run represents its free pages
-- exactly when each free_pages of the run finds the list empty or a member above its
-- block. Where it does the list depends on the free pages only, and giving back what
-- alloc_pages returned restores it.
theorem first_fit_representation (hs : Booted base n s) (ops : List Op)
    (hops : EachStep (fun _ held op => Permitted held op) s ∅ ops) :
    (Always (fun s held => Represents s (Finset.Ico base (base + n)) held) s ∅ ops ↔
      EachStep (fun s _ op => Orderly s op) s ∅ ops) ∧
    (∀ t t' held, Represents t (Finset.Ico base (base + n)) held →
      Represents t' (Finset.Ico base (base + n)) held → t.freeBlocks = t'.freeBlocks) ∧
    ∀ t held k p t', Represents t (Finset.Ico base (base + n)) held → 0 < k →
      defaultAllocPages t k = .ok (some p, t') → InOrder t'.members p →
      ∃ u, defaultFreePages t' p k = .ok u ∧ u.freeBlocks = t.freeBlocks := by
  refine ⟨hs.represents.always_iff hops, fun t t' held h h' => h.unique h', ?_⟩
  intro t held k p t' h hk ht horder
  obtain ⟨u, hu, _, he⟩ := h.restore hk ht horder
  exact ⟨u, hu, he⟩

-- A machine with two pages, before and after the boot.
def twoPages : FreeArea where
  pages := fun _ => ⟨0, true, false, 0, false⟩
  npages := 2
  fits := by decide
  next := id
  prev := id
  nrFree := 0

def twoPagesBooted : FreeArea :=
  ((defaultInitMemmap (defaultInit twoPages) 0 2).toOption).getD twoPages

theorem twoPages_booted : Booted 0 2 twoPagesBooted :=
  ⟨twoPages, le_rfl, fun _ _ _ => rfl, rfl⟩

-- Giving back the upper page first.
theorem first_fit_representation_two :
    Always (fun s held => Represents s (Finset.Ico 0 (0 + 2)) held) twoPagesBooted ∅
      [.alloc 1, .alloc 1, .free 1 1, .free 0 1] :=
  (first_fit_representation twoPages_booted [.alloc 1, .alloc 1, .free 1 1, .free 0 1]
    (by decide +kernel)).1.mpr (by decide +kernel)

-- Giving back the lower page first, one ends with two free blocks of one page each where
-- there is one run of two free pages.
theorem first_fit_tail_not_merged :
    (List.foldlM (fun (x : FreeArea × Finset Nat) op => step x.1 x.2 op) (twoPagesBooted, ∅)
        [.alloc 1, .alloc 1, .free 0 1, .free 1 1]).map (fun x => (x.1.freeBlocks, x.2)) =
      .ok ([(0, 1), (1, 1)], ∅) ∧
    ¬∀ (base n : Nat) (s : FreeArea) (ops : List Op), Booted base n s →
      EachStep (fun _ held op => Permitted held op) s ∅ ops →
      Always (fun s held => Represents s (Finset.Ico base (base + n)) held) s ∅ ops := by
  refine ⟨rfl, fun hall => ?_⟩
  have hops : EachStep (fun _ held op => Permitted held op) twoPagesBooted ∅
      [.alloc 1, .alloc 1, .free 0 1, .free 1 1] := by decide +kernel
  have hord := (twoPages_booted.represents.always_iff hops).mp (hall 0 2 _ _ twoPages_booted hops)
  exact absurd hord (by decide +kernel)

end Ucore.Pmm
