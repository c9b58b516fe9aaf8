import Ucore.Slob.Pool

namespace Ucore.Slob

open Lib

-- A big block: its entry in `bigblocks`, its pages, and the size it was asked for.
structure BigBlock where
  addr : Nat
  page : Nat
  size : Nat
  deriving DecidableEq

def BigBlock.order (b : BigBlock) : Nat := findOrder 32 (toInt b.size)

-- The entries of `bigblocks` from `a` on
def BigChain (s : Heap) : Nat → List BigBlock → Prop
  | a, [] => a = NULL
  | a, b :: rest => a = b.addr ∧ a ≠ NULL ∧ s.pages a = b.page ∧ s.order a = b.order ∧
      BigChain s (s.bigNext a) rest

-- The used blocks of small objects, given by their headers and sizes, and of big ones
def usedBlocks (smalls : List (Nat × Nat)) (bigs : List BigBlock) : List (Nat × Nat) :=
  smalls.map (fun r => (r.1, SLOB_UNITS (r.2 + SLOB_UNIT))) ++ bigs.map fun b => (b.addr, 2)

-- The invariant of the heap with these live objects.
structure Blocks (s : Heap) (smalls : List (Nat × Nat)) (bigs : List BigBlock) (heap : List Nat)
    (free : Finset Nat) (l : List Nat) : Prop where
  pool : Pool s heap (bigs.map fun b => (b.page, b.order)) (usedBlocks smalls bigs) free l
  headers : ∀ r ∈ smalls, s.units r.1 = SLOB_UNITS (r.2 + SLOB_UNIT)
  chain : BigChain s s.bigblocks bigs

variable {s s' : Heap} {smalls : List (Nat × Nat)} {bigs : List BigBlock} {heap : List Nat}
  {free : Finset Nat} {l : List Nat} {runs used : List (Nat × Nat)} {a n : Nat}

theorem SLOB_UNITS_gt (hn : 1 ≤ n) : 1 < SLOB_UNITS (n + SLOB_UNIT) := by
  unfold SLOB_UNITS SLOB_UNIT
  omega

theorem BigChain.congr (h : BigChain s a bigs)
    (hsame : ∀ b ∈ bigs, s'.lo b.addr = s.lo b.addr ∧ s'.hi b.addr = s.hi b.addr ∧
      s'.lo (b.addr + SLOB_UNIT) = s.lo (b.addr + SLOB_UNIT)) : BigChain s' a bigs := by
  induction bigs generalizing a with
  | nil => exact h
  | cons b rest ih =>
      obtain ⟨rfl, hnull, hpage, horder, hrest⟩ := h
      obtain ⟨h₁, h₂, h₃⟩ := hsame b List.mem_cons_self
      refine ⟨rfl, hnull, h₂.trans hpage, h₁.trans horder, ?_⟩
      have hnext : s'.bigNext b.addr = s.bigNext b.addr := h₃
      rw [hnext]
      exact ih hrest fun c hc => hsame c (List.mem_cons_of_mem b hc)

theorem Kept.big (h : Kept s s' used) (hb : (a, 2) ∈ used) :
    s'.lo a = s.lo a ∧ s'.hi a = s.hi a ∧ s'.lo (a + SLOB_UNIT) = s.lo (a + SLOB_UNIT) := by
  have h₀ : InBlock (a, 2) a := ⟨le_rfl, by simp only [SLOB_UNIT]; omega⟩
  have h₁ : InBlock (a, 2) (a + SLOB_UNIT) :=
    ⟨Nat.le_add_right _ _, by simp only [SLOB_UNIT]; omega⟩
  exact ⟨h.lo _ hb _ h₀, h.hi _ hb _ h₀, h.lo _ hb _ h₁⟩

theorem Kept.header (h : Kept s s' used) {r : Nat × Nat} (hr : r ∈ used) (hpos : 0 < r.2) :
    s'.units r.1 = s.units r.1 := by
  have hp := Nat.mul_pos hpos (show 0 < SLOB_UNIT by decide)
  exact h.lo r hr r.1 ⟨le_rfl, by omega⟩

theorem mem_small {r : Nat × Nat} (hr : r ∈ smalls) :
    (r.1, SLOB_UNITS (r.2 + SLOB_UNIT)) ∈ usedBlocks smalls bigs :=
  List.mem_append_left _ (List.mem_map_of_mem (f := fun r : Nat × Nat =>
    (r.1, SLOB_UNITS (r.2 + SLOB_UNIT))) hr)

theorem mem_big {b : BigBlock} (hb : b ∈ bigs) : (b.addr, 2) ∈ usedBlocks smalls bigs :=
  List.mem_append_right _ (List.mem_map_of_mem (f := fun b : BigBlock => (b.addr, 2)) hb)

-- The live objects are those of a heap that keeps their blocks.
theorem Blocks.keep (h : Blocks s smalls bigs heap free l) {heap' : List Nat} {free' : Finset Nat}
    {l' : List Nat}
    (hp : Pool s' heap' (bigs.map fun b => (b.page, b.order)) (usedBlocks smalls bigs) free' l')
    (hk : Kept s s' (usedBlocks smalls bigs)) : Blocks s' smalls bigs heap' free' l' where
  pool := hp
  headers := fun r hr => by
    rw [hk.header (mem_small hr) (h.pool.pos _ (mem_small hr))]
    exact h.headers r hr
  chain := by
    rw [hk.bigblocks]
    exact h.chain.congr fun b hb => hk.big (mem_big hb)

-- kmalloc of a small object, of which slob_alloc has got the block
theorem kmalloc_served (h : Blocks s smalls bigs heap free l) (hmax : n ≤ 4063)
    (halloc : ∃ a s', slobAlloc s (n + SLOB_UNIT) = .ok (a, s') ∧ Served s heap
      (bigs.map fun b => (b.page, b.order)) (usedBlocks smalls bigs) free l
      (SLOB_UNITS (n + SLOB_UNIT)) a s') :
    ∃ p s' heap' free' l', kmalloc s n = .ok (p, s') ∧
      (p = NULL ∧ Blocks s' smalls bigs heap' free' l' ∨
        ∃ a, p = a + SLOB_UNIT ∧ a ≠ NULL ∧ Blocks s' ((a, n) :: smalls) bigs heap' free' l') := by
  have hsmall : n < PAGE_SIZE - SLOB_UNIT := by
    unfold PAGE_SIZE SLOB_UNIT
    omega
  obtain ⟨a, s', hs, hserved⟩ := halloc
  have hk : kmalloc s n = .ok (if a ≠ NULL then a + SLOB_UNIT else NULL, s') := by
    simp only [kmalloc, if_pos hsmall, hs, ok_bind, pure_eq_ok]
  cases hserved with
  | refused hp hkept => exact ⟨_, s', heap, free, l, hk, Or.inl ⟨by simp, h.keep hp hkept⟩⟩
  | @block _ _ heap' free' l' hp hu hkept =>
      have hnull : a ≠ NULL := by
        have := hp.used_above List.mem_cons_self
        exact Nat.ne_of_gt (Nat.zero_lt_of_lt this)
      refine ⟨_, s', heap', free', l', hk, Or.inr ⟨a, if_pos hnull, hnull, hp, ?_, ?_⟩⟩
      · intro r hr
        rcases List.mem_cons.mp hr with rfl | hr
        · exact hu
        · rw [hkept.header (mem_small hr) (h.pool.pos _ (mem_small hr))]
          exact h.headers r hr
      · rw [hkept.bigblocks]
        exact h.chain.congr fun b hb => hkept.big (mem_big hb)

-- An object of no bytes has its header alone, and so the arena can be taken for it: the
-- search must not begin there.
theorem slobAlloc_small (h : Blocks s smalls bigs heap free l) (hmax : n ≤ 4063)
    (hzero : n = 0 → s.next s.slobfree ≠ s.arena) :
    ∃ a s', slobAlloc s (n + SLOB_UNIT) = .ok (a, s') ∧ Served s heap
      (bigs.map fun b => (b.page, b.order)) (usedBlocks smalls bigs) free l
      (SLOB_UNITS (n + SLOB_UNIT)) a s' := by
  rcases Nat.eq_zero_or_pos n with rfl | hpos
  · rw [Nat.zero_add, show SLOB_UNITS SLOB_UNIT = 1 by decide]
    exact slobAlloc_unit h.pool (hzero rfl)
  · refine slobAlloc_spec h.pool ?_ (SLOB_UNITS_gt hpos)
    unfold SLOB_UNIT PAGE_SIZE
    omega

-- kmalloc of a small object
theorem kmalloc_small (h : Blocks s smalls bigs heap free l) (hn : 1 ≤ n) (hmax : n ≤ 4063) :
    ∃ p s' heap' free' l', kmalloc s n = .ok (p, s') ∧
      (p = NULL ∧ Blocks s' smalls bigs heap' free' l' ∨
        ∃ a, p = a + SLOB_UNIT ∧ a ≠ NULL ∧ Blocks s' ((a, n) :: smalls) bigs heap' free' l') :=
  kmalloc_served h hmax (slobAlloc_small h hmax (by omega))

-- The words of the first used block may be written, and the rest stays.
theorem Pool.write (h : Pool s heap runs ((a, 2) :: used) free l) (s' : Heap)
    (harena : s'.arena = s.arena) (hrover : s'.slobfree = s.slobfree) (hout : s'.out = s.out)
    (hlo : ∀ i, i ≠ a → i ≠ a + SLOB_UNIT → s'.lo i = s.lo i) (hhi : ∀ i, i ≠ a → s'.hi i = s.hi i) :
    Pool s' heap runs ((a, 2) :: used) free l ∧ Kept s { s' with bigblocks := s.bigblocks } used := by
  have hin : ∀ i, i = a ∨ i = a + SLOB_UNIT → InBlock (a, 2) i := by
    rintro i (rfl | rfl) <;> simp only [InBlock, SLOB_UNIT] <;> omega
  have hfree : ∀ i ∈ free, i ≠ a ∧ i ≠ a + SLOB_UNIT := fun i hi =>
    ⟨fun he => h.usedFree _ List.mem_cons_self i (hin i (Or.inl he)) hi,
      fun he => h.usedFree _ List.mem_cons_self i (hin i (Or.inr he)) hi⟩
  have hused : ∀ r ∈ used, ∀ i, InBlock r i → i ≠ a ∧ i ≠ a + SLOB_UNIT := fun r hr i hri =>
    have hapart := (List.pairwise_cons.mp h.usedApart).1 r hr i
    ⟨fun he => hapart (hin i (Or.inl he)) hri, fun he => hapart (hin i (Or.inr he)) hri⟩
  refine ⟨h.congr harena hrover hout fun i hi => ?_, fun r hr i hri => ?_, fun r hr i hri => ?_,
    harena, rfl⟩
  · obtain ⟨h₁, h₂⟩ := hfree i hi
    exact ⟨hlo i h₁ h₂, hhi i h₁⟩
  · obtain ⟨h₁, h₂⟩ := hused r hr i hri
    exact hlo i h₁ h₂
  · exact hhi i (hused r hr i hri).1

-- The live objects after a change of the first used block, which is an entry of
-- `bigblocks` then.
theorem Blocks.enter (h : Blocks s smalls bigs heap free l) {b : BigBlock} {heap' : List Nat}
    {free' : Finset Nat} {l' : List Nat}
    (hp : Pool s' heap' ((b.page, b.order) :: bigs.map fun b => (b.page, b.order))
      ((b.addr, 2) :: usedBlocks smalls bigs) free' l')
    (hk : Kept s { s' with bigblocks := s.bigblocks } (usedBlocks smalls bigs))
    (hbig : s'.bigblocks = b.addr) (hnull : b.addr ≠ NULL) (hpage : s'.pages b.addr = b.page)
    (horder : s'.order b.addr = b.order) (hnext : s'.bigNext b.addr = s.bigblocks) :
    Blocks s' smalls (b :: bigs) heap' free' l' where
  pool := hp.perm (List.perm_middle.symm)
  headers := fun r hr => by
    have hu := hk.header (mem_small hr) (h.pool.pos _ (mem_small hr))
    exact hu.trans (h.headers r hr)
  chain := by
    rw [hbig]
    refine ⟨rfl, hnull, hpage, horder, ?_⟩
    rw [hnext]
    exact h.chain.congr fun c hc => hk.big (mem_big hc)

-- kmalloc of pages
theorem kmalloc_big (h : Blocks s smalls bigs heap free l) (hn : 4080 ≤ n) :
    ∃ p s' heap' free' l', kmalloc s n = .ok (p, s') ∧
      (p = NULL ∧ Blocks s' smalls bigs heap' free' l' ∨
        ∃ b, b.page = p ∧ b.size = n ∧ p ≠ NULL ∧
          Blocks s' smalls (b :: bigs) heap' free' l') := by
  have hbig : ¬n < PAGE_SIZE - SLOB_UNIT := by
    unfold PAGE_SIZE SLOB_UNIT
    omega
  obtain ⟨bb, s₁, hs₁, hserved⟩ := slobAlloc_spec h.pool
    (show SIZEOF_BIGBLOCK + SLOB_UNIT < PAGE_SIZE by decide) (by decide)
  have hunits : SLOB_UNITS SIZEOF_BIGBLOCK = 2 := by decide
  rw [hunits] at hserved
  simp only [kmalloc, if_neg hbig, hs₁, ok_bind]
  cases hserved with
  | refused hp hkept =>
      exact ⟨NULL, s₁, heap, free, l, by simp, Or.inl ⟨rfl, h.keep hp hkept⟩⟩
  | @block _ _ heap' free' l' hp hu hkept =>
      have hnull : bb ≠ NULL := by
        have := hp.used_above List.mem_cons_self
        exact Nat.ne_of_gt (Nat.zero_lt_of_lt this)
      rw [if_neg hnull, kmallocPages]
      generalize horder : findOrder 32 (toInt n) = order
      -- the order is written into the block
      obtain ⟨s₂, hs₂⟩ : ∃ t, s₁.setOrder bb order = t := ⟨_, rfl⟩
      have hord : s₂.order bb = order := by
        rw [← hs₂]
        exact Function.update_self ..
      obtain ⟨hp₂, hkept₂⟩ := hp.write s₂ (hs₂ ▸ rfl) (hs₂ ▸ rfl) (hs₂ ▸ rfl)
        (fun i hi _ => hs₂ ▸ Function.update_of_ne hi _ _) fun _ _ => hs₂ ▸ rfl
      simp only [hs₂, hord]
      rcases slobGetFreePages_cases s₂ order with ⟨rest, hget⟩ | ⟨page, rest, hg, hpage, hget⟩
      · -- no pages: the entry goes back
        obtain ⟨s₃, hs₃⟩ : ∃ t, Heap.setPages { s₂ with supply := rest } bb NULL = t := ⟨_, rfl⟩
        have hpg : s₃.pages bb = NULL := by
          rw [← hs₃]
          exact Function.update_self ..
        obtain ⟨hp₃, hkept₃⟩ := hp.write s₃ (by rw [← hs₃, ← hs₂]; rfl)
          (by rw [← hs₃, ← hs₂]; rfl) (by rw [← hs₃, ← hs₂]; rfl)
          (fun i hi _ => by rw [← hs₃, ← hs₂]; exact Function.update_of_ne hi _ _)
          fun i hi => by rw [← hs₃, ← hs₂]; exact Function.update_of_ne hi _ _
        have hkept₃' : Kept s₁ s₃ (usedBlocks smalls bigs) :=
          ⟨hkept₃.lo, hkept₃.hi, hkept₃.arena, by rw [← hs₃, ← hs₂]; rfl⟩
        obtain ⟨s₄, l₄, hs₄, hp₄, hkept₄, _⟩ := hp₃.release SIZEOF_BIGBLOCK hunits
        refine ⟨NULL, s₄, heap', _, l₄, ?_,
          Or.inl ⟨rfl, h.keep hp₄ ((hkept.trans hkept₃').trans hkept₄)⟩⟩
        simp [hget, hs₃, hpg, hs₄]
      · -- the pages are entered into `bigblocks`
        obtain ⟨s₃, hs₃⟩ : ∃ t, Heap.setPages
          { s₂ with supply := rest, out := (page, order) :: s₂.out } bb page = t := ⟨_, rfl⟩
        obtain ⟨s₄, hs₄⟩ : ∃ t, s₃.setBigNext bb s₃.bigblocks = t := ⟨_, rfl⟩
        have hpg : s₃.pages bb = page := by
          rw [← hs₃]
          exact Function.update_self ..
        have hpg₄ : s₄.pages bb = page := by rw [← hs₄, ← hpg]; rfl
        have hbig₂ : s₃.bigblocks = s₁.bigblocks := by rw [← hs₃, ← hs₂]; rfl
        have hne : bb ≠ bb + SLOB_UNIT := by
          unfold SLOB_UNIT
          omega
        have hp₃ := hp₂.grantRun rest hg
        obtain ⟨hp₄, hkept₄⟩ := hp₃.write { s₄ with bigblocks := bb }
          (by rw [← hs₄, ← hs₃]; rfl) (by rw [← hs₄, ← hs₃]; rfl) (by rw [← hs₄, ← hs₃]; rfl)
          (fun i _ hi => by rw [← hs₄, ← hs₃]; exact Function.update_of_ne hi _ _)
          fun i hi => by rw [← hs₄, ← hs₃]; exact Function.update_of_ne hi _ _
        refine ⟨page, { s₄ with bigblocks := bb }, heap', free', l', ?_, Or.inr ⟨⟨bb, page, n⟩, rfl,
          rfl, hpage, h.enter ?_ ?_ rfl hnull hpg₄ ?_ ?_⟩⟩
        · simp [hget, hs₃, hpg, hs₄, hpg₄, hpage]
        · rw [← horder] at hp₄
          exact hp₄
        · exact hkept.trans ⟨fun r hr i hi => (hkept₄.lo r hr i hi).trans (hkept₂.lo r hr i hi),
            fun r hr i hi => (hkept₄.hi r hr i hi).trans (hkept₂.hi r hr i hi),
            hkept₄.arena.trans hkept₂.arena, hkept.bigblocks.symm⟩
        · have hsame : s₄.order bb = s₂.order bb := by
            rw [← hs₄, ← hs₃]
            exact Function.update_of_ne hne _ _
          exact hsame.trans (hord.trans horder.symm)
        · have hself : s₄.bigNext bb = s₃.bigblocks := by
            rw [← hs₄]
            exact Function.update_self ..
          exact hself.trans (hbig₂.trans hkept.bigblocks)

-- The entry before the one that a search finds
def lastOf : Option Nat → List BigBlock → Option Nat
  | last, [] => last
  | _, c :: m => lastOf (some c.addr) m

theorem lastOf_concat {last : Option Nat} {m : List BigBlock} {c : BigBlock} :
    lastOf last (m ++ [c]) = some c.addr := by
  induction m generalizing last with
  | nil => rfl
  | cons d m ih => exact ih

theorem bigSearch_none {last : Option Nat} {block fuel : Nat} (h : BigChain s a bigs)
    (hfuel : bigs.length < fuel) (hno : ∀ b ∈ bigs, b.page ≠ block) :
    bigSearch s block fuel last a = .ok none := by
  induction bigs generalizing a fuel last with
  | nil =>
      obtain ⟨fuel, rfl⟩ := Nat.exists_eq_succ_of_ne_zero (Nat.ne_of_gt hfuel)
      exact if_pos h
  | cons b rest ih =>
      obtain ⟨fuel, rfl⟩ := Nat.exists_eq_succ_of_ne_zero (Nat.ne_zero_of_lt hfuel)
      obtain ⟨rfl, hnull, hpage, _, hrest⟩ := h
      have hne := hno b List.mem_cons_self
      rw [← hpage] at hne
      rw [bigSearch, if_neg hnull, if_neg hne]
      exact ih hrest (Nat.lt_of_succ_lt_succ hfuel) fun c hc => hno c (List.mem_cons_of_mem b hc)

theorem bigSearch_some (last : Option Nat) {block fuel : Nat} {m n : List BigBlock} {b : BigBlock}
    (h : BigChain s a (m ++ b :: n)) (hfuel : m.length < fuel) (hno : ∀ c ∈ m, c.page ≠ block)
    (hb : b.page = block) : bigSearch s block fuel last a = .ok (some (lastOf last m, b.addr)) := by
  induction m generalizing a fuel last with
  | nil =>
      obtain ⟨fuel, rfl⟩ := Nat.exists_eq_succ_of_ne_zero (Nat.ne_of_gt hfuel)
      obtain ⟨rfl, hnull, hpage, _, _⟩ := h
      rw [bigSearch, if_neg hnull, if_pos (hpage.trans hb)]
      rfl
  | cons c m ih =>
      obtain ⟨fuel, rfl⟩ := Nat.exists_eq_succ_of_ne_zero (Nat.ne_zero_of_lt hfuel)
      obtain ⟨rfl, hnull, hpage, _, hrest⟩ := h
      have hne := hno c List.mem_cons_self
      rw [← hpage] at hne
      rw [bigSearch, if_neg hnull, if_neg hne]
      exact ih _ hrest (Nat.lt_of_succ_lt_succ hfuel) fun d hd => hno d (List.mem_cons_of_mem c hd)

theorem BigChain.mem {b : BigBlock} (h : BigChain s a bigs) (hb : b ∈ bigs) :
    b.addr ≠ NULL ∧ s.pages b.addr = b.page ∧ s.order b.addr = b.order := by
  induction bigs generalizing a with
  | nil => exact absurd hb List.not_mem_nil
  | cons c rest ih =>
      obtain ⟨rfl, hnull, hpage, horder, hrest⟩ := h
      rcases List.mem_cons.mp hb with rfl | hb
      · exact ⟨hnull, hpage, horder⟩
      · exact ih hrest hb

-- An entry `c` that is linked to the one behind the next
theorem BigChain.unlink {m n : List BigBlock} {b c : BigBlock} (h : BigChain s a (m ++ c :: b :: n))
    (haddr : ∀ d ∈ m ++ n, d.addr ≠ c.addr)
    (hword : ∀ d ∈ m ++ n, d.addr ≠ c.addr + SLOB_UNIT) :
    BigChain (s.setBigNext c.addr (s.bigNext b.addr)) a (m ++ c :: n) := by
  have hsame : ∀ d ∈ m ++ n,
      (s.setBigNext c.addr (s.bigNext b.addr)).order d.addr = s.order d.addr ∧
        (s.setBigNext c.addr (s.bigNext b.addr)).bigNext d.addr = s.bigNext d.addr := by
    intro d hd
    refine ⟨Function.update_of_ne (hword d hd) _ _, Function.update_of_ne ?_ _ _⟩
    have := haddr d hd
    omega
  induction m generalizing a with
  | nil =>
      obtain ⟨rfl, hnull, hpage, horder, hb, _, _, _, hrest⟩ := h
      rw [hb] at hrest
      have hne : c.addr ≠ c.addr + SLOB_UNIT := by
        unfold SLOB_UNIT
        omega
      refine ⟨rfl, hnull, hpage, (Function.update_of_ne hne _ _).trans horder, ?_⟩
      have hnext : (s.setBigNext c.addr (s.bigNext b.addr)).bigNext c.addr = s.bigNext b.addr :=
        Function.update_self ..
      rw [hnext]
      exact hrest.congr fun d hd => ⟨(hsame d hd).1, rfl, (hsame d hd).2⟩
  | cons d m ih =>
      obtain ⟨rfl, hnull, hpage, horder, hrest⟩ := h
      obtain ⟨ho, hn⟩ := hsame d List.mem_cons_self
      refine ⟨rfl, hnull, hpage, ho.trans horder, ?_⟩
      rw [hn]
      exact ih hrest (fun e he => haddr e (List.mem_cons_of_mem d he))
        (fun e he => hword e (List.mem_cons_of_mem d he))
        fun e he => hsame e (List.mem_cons_of_mem d he)

-- kfree of a small object, whose address can be that of a page, but of no big block
theorem kfree_header (h : Blocks s ((a, n) :: smalls) bigs heap free l)
    (hno : ∀ b ∈ bigs, b.page ≠ a + SLOB_UNIT) :
    ∃ s' l', kfree s (a + SLOB_UNIT) = .ok s' ∧
      Blocks s' smalls bigs heap
        (free ∪ Finset.Ico a (a + SLOB_UNITS (n + SLOB_UNIT) * SLOB_UNIT)) l' ∧
      s'.out = s.out := by
  have hnull : a + SLOB_UNIT ≠ NULL := by
    unfold SLOB_UNIT NULL
    omega
  have hsearch : bigSearch s (a + SLOB_UNIT) (s.out.length + 1) none s.bigblocks = .ok none := by
    refine bigSearch_none h.chain ?_ hno
    rw [h.pool.out.length_eq, List.length_append, List.length_map, List.length_map]
    omega
  have hheader : s.units a = SLOB_UNITS (n + SLOB_UNIT) := h.headers (a, n) List.mem_cons_self
  obtain ⟨s', l', hs', hp', hkept, hout, _⟩ := h.pool.release 0 hheader
  refine ⟨s', l', ?_, ⟨hp', fun r hr => ?_, ?_⟩, hout⟩
  · unfold kfree
    rw [if_neg hnull, Nat.add_sub_cancel]
    split
    · simp [hsearch, hs']
    · simp [hs']
  · rw [hkept.header (mem_small hr) (h.pool.pos _ (mem_small (List.mem_cons_of_mem _ hr)))]
    exact h.headers r (List.mem_cons_of_mem _ hr)
  · rw [hkept.bigblocks]
    exact h.chain.congr fun b hb => hkept.big (mem_big hb)

-- An object with bytes has its pointer in its block.
theorem kfree_small (h : Blocks s ((a, n) :: smalls) bigs heap free l) (hn : 1 ≤ n) :
    ∃ s' l', kfree s (a + SLOB_UNIT) = .ok s' ∧
      Blocks s' smalls bigs heap
        (free ∪ Finset.Ico a (a + SLOB_UNITS (n + SLOB_UNIT) * SLOB_UNIT)) l' ∧
      s'.out = s.out := by
  have hused : (a, SLOB_UNITS (n + SLOB_UNIT)) ∈ usedBlocks ((a, n) :: smalls) bigs :=
    mem_small List.mem_cons_self
  have hin : InBlock (a, SLOB_UNITS (n + SLOB_UNIT)) (a + SLOB_UNIT) := by
    have hk := SLOB_UNITS_gt hn
    refine ⟨Nat.le_add_right _ _, ?_⟩
    simp only [SLOB_UNIT] at hk ⊢
    omega
  refine kfree_header h fun b hb he => ?_
  have hrun : (b.page, b.order) ∈ bigs.map fun b => (b.page, b.order) :=
    List.mem_map_of_mem (f := fun b : BigBlock => (b.page, b.order)) hb
  have hpos : 0 < PAGE_SIZE * 2 ^ b.order := Nat.mul_pos (by decide) (Nat.two_pow_pos _)
  refine h.pool.run_outside hrun he.le ?_ ((h.pool.cover _).mp (Or.inr ⟨_, hused, hin⟩))
  exact he ▸ Nat.lt_add_of_pos_right hpos

section Unlink

variable {m m' n' : List BigBlock} {b c : BigBlock}

theorem inBlock_start : InBlock (a, 2) a := ⟨le_rfl, by simp only [SLOB_UNIT]; omega⟩

theorem inBlock_word : InBlock (a, 2) (a + SLOB_UNIT) :=
  ⟨Nat.le_add_right _ _, by simp only [SLOB_UNIT]; omega⟩

theorem usedBlocks_middle : (usedBlocks smalls (m ++ b :: n')).Perm
    ((b.addr, 2) :: usedBlocks smalls (m ++ n')) := by
  unfold usedBlocks
  rw [List.map_append, List.map_append, List.map_cons]
  exact (List.perm_middle.append_left _).trans List.perm_middle

-- The entry `b` has nothing in common with the other used blocks.
theorem Blocks.entry_apart (h : Blocks s smalls (m ++ b :: n') heap free l) {r : Nat × Nat}
    (hr : r ∈ usedBlocks smalls (m ++ n')) {i : Nat} (hi : InBlock (b.addr, 2) i) :
    ¬InBlock r i := by
  have hp := (h.pool.perm usedBlocks_middle).usedApart
  exact (List.pairwise_cons.mp hp).1 r hr i hi

-- The pages of `b` are not those of another big block.
theorem Blocks.page_ne (h : Blocks s smalls (m ++ b :: n') heap free l) (hc : c ∈ m ++ n') :
    c.page ≠ b.page := by
  have hruns : ((m ++ b :: n').map fun b => (b.page, b.order)).Perm
      ((b.page, b.order) :: (m ++ n').map fun b => (b.page, b.order)) :=
    List.perm_middle.map _
  have hapart := (List.pairwise_append.mp h.pool.runs_apart).2.1.perm hruns fun hrq => hrq.symm
  have hbc : b.page + PAGE_SIZE * 2 ^ b.order ≤ c.page ∨ c.page + PAGE_SIZE * 2 ^ c.order ≤ b.page :=
    (List.pairwise_cons.mp hapart).1 (c.page, c.order)
      (List.mem_map_of_mem (f := fun b : BigBlock => (b.page, b.order)) hc)
  have hpos : ∀ k, 0 < PAGE_SIZE * 2 ^ k := fun k => Nat.mul_pos (by decide) (Nat.two_pow_pos k)
  have hb := hpos b.order
  have hc := hpos c.order
  omega

-- What unlinking `b` writes
theorem Blocks.setLast_spec (h : Blocks s smalls (m ++ b :: n') heap free l) :
    ∃ s', setLast s (lastOf none m) (s.bigNext b.addr) = s' ∧ BigChain s' s'.bigblocks (m ++ n') ∧
      s'.arena = s.arena ∧ s'.slobfree = s.slobfree ∧ s'.out = s.out ∧ s'.hi = s.hi ∧
      ∀ i, (∀ c ∈ m, i ≠ c.addr + SLOB_UNIT) → s'.lo i = s.lo i := by
  refine ⟨_, rfl, ?_⟩
  have hchain := h.chain
  rcases List.eq_nil_or_concat m with rfl | ⟨m', c, rfl⟩
  · obtain ⟨hb, _, _, _, hrest⟩ := hchain
    rw [hb] at hrest
    exact ⟨hrest.congr fun _ _ => ⟨rfl, rfl, rfl⟩, rfl, rfl, rfl, rfl, fun _ _ => rfl⟩
  · rw [List.concat_eq_append] at h hchain ⊢
    rw [lastOf_concat]
    have hmove : m' ++ [c] ++ b :: n' = m' ++ c :: b :: n' := by simp
    rw [hmove] at h hchain
    -- `c` is a used block, apart from the other entries
    have haddr : ∀ d ∈ m' ++ n', ∀ i, InBlock (c.addr, 2) i → d.addr ≠ i := by
      intro d hd i hi he
      have hused : (d.addr, 2) ∈ usedBlocks smalls (m' ++ b :: n') := by
        refine mem_big ?_
        rcases List.mem_append.mp hd with hd | hd
        · exact List.mem_append_left _ hd
        · exact List.mem_append_right _ (List.mem_cons_of_mem b hd)
      exact h.entry_apart hused hi (he ▸ inBlock_start)
    refine ⟨?_, rfl, rfl, rfl, rfl, fun i hi => ?_⟩
    · have hback : m' ++ [c] ++ n' = m' ++ c :: n' := by simp
      rw [hback]
      exact hchain.unlink (fun d hd => haddr d hd _ inBlock_start)
        fun d hd => haddr d hd _ inBlock_word
    · exact Function.update_of_ne (hi c (by simp)) _ _

end Unlink

-- kfree of pages
theorem kfree_big {m n' : List BigBlock} {b : BigBlock}
    (h : Blocks s smalls (m ++ b :: n') heap free l) :
    ∃ s' l', kfree s b.page = .ok s' ∧
      Blocks s' smalls (m ++ n') heap (free ∪ Finset.Ico b.addr (b.addr + 2 * SLOB_UNIT)) l' ∧
      s'.out = s.out.erase (b.page, b.order) := by
  have hmem : b ∈ m ++ b :: n' := by simp
  obtain ⟨halign, habove⟩ := h.pool.granted _ (h.pool.run_mem
    (List.mem_map_of_mem (f := fun b : BigBlock => (b.page, b.order)) hmem))
  have hnull : b.page ≠ NULL := Nat.ne_of_gt (Nat.zero_lt_of_lt habove)
  have hfuel : m.length < s.out.length + 1 := by
    have hlen := h.pool.out.length_eq
    simp only [List.length_append, List.length_map, List.length_cons] at hlen
    omega
  have hsearch := bigSearch_some none h.chain hfuel
    (fun c hc => h.page_ne (List.mem_append_left n' hc)) rfl
  obtain ⟨s₁, hs₁, hchain, harena, hrover, hout, hhi, hlo⟩ := h.setLast_spec
  -- the written word lies in an entry of `bigblocks`
  have hword : ∀ i, (∀ c ∈ m ++ n', ¬InBlock (c.addr, 2) i) → s₁.lo i = s.lo i := fun i hi =>
    hlo i fun c hc he => hi c (List.mem_append_left n' hc) (he ▸ inBlock_word)
  have hp₁ : Pool s₁ heap ((m ++ b :: n').map fun b => (b.page, b.order))
      (usedBlocks smalls (m ++ b :: n')) free l := by
    refine h.pool.congr harena hrover hout fun i hi => ⟨hword i fun c hc hin => ?_, by rw [hhi]⟩
    have hc' : c ∈ m ++ b :: n' :=
      (List.perm_middle (a := b)).mem_iff.mpr (List.mem_cons_of_mem b hc)
    exact h.pool.usedFree _ (mem_big hc') i hin hi
  have horder : s₁.order b.addr = b.order := by
    have hsame : s₁.order b.addr = s.order b.addr := hword _ fun c hc =>
      h.entry_apart (mem_big hc) inBlock_start
    exact hsame.trans (h.chain.mem hmem).2.2
  -- the pages and the entry go back
  have hp₂ := (hp₁.permRuns (List.perm_middle.map _)).dropRun.perm usedBlocks_middle
  obtain ⟨s', l', hs', hp', hkept, ho, _⟩ := hp₂.release SIZEOF_BIGBLOCK
    (show SLOB_UNITS SIZEOF_BIGBLOCK = 2 by decide)
  refine ⟨s', l', ?_, ⟨hp', fun r hr => ?_, ?_⟩, ?_⟩
  · unfold kfree
    rw [if_neg hnull, if_pos halign, hsearch]
    simp [hs₁, horder, hs']
  · have hr' : (r.1, SLOB_UNITS (r.2 + SLOB_UNIT)) ∈ usedBlocks smalls (m ++ n') := mem_small hr
    have hpos := hp'.pos _ hr'
    have hunits : s₁.units r.1 = s.units r.1 := hword _ fun c hc =>
      (List.pairwise_append.mp hp'.usedApart).2.2 _ (List.mem_map_of_mem (f := fun r : Nat × Nat =>
        (r.1, SLOB_UNITS (r.2 + SLOB_UNIT))) hr) _ (List.mem_map_of_mem (f := fun b : BigBlock =>
        (b.addr, 2)) hc) r.1 ⟨le_rfl, Nat.lt_add_of_pos_right (Nat.mul_pos hpos (by decide))⟩
    rw [hkept.header hr' hpos]
    exact hunits.trans (h.headers r hr)
  · rw [hkept.bigblocks]
    exact hchain.congr fun c hc => hkept.big (mem_big hc)
  · rw [ho, ← hout]
    rfl

end Ucore.Slob
