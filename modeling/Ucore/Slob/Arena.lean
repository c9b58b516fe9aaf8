import Ucore.Slob.Order

namespace Ucore.Slob

open Lib

-- A run from the start of the kernel, with operations that are allowed where they are made.
-- The arena is a static object, and so not at NULL.
inductive Run (allowed : State → Op → Prop) : State → Prop
  | init {t : State} : Initial t → t.heap.arena ≠ NULL → Run allowed t
  | step {t t' : State} {op : Op} : Run allowed t → allowed t op → step t op = .ok t' → Run allowed t'

-- kmalloc where slob_alloc serves it, and kfree of live pointers
def Small (t : State) : Op → Prop
  | .kmalloc size _ => size ≤ 4063
  | .kfree block => ∃ r ∈ t.live, r.1 = block
  | .write r _ _ => r ∈ t.live

-- kmalloc(0) takes the block behind the rover, and any block has the one unit.
def Spares (t : State) : Op → Prop
  | .kmalloc size _ => size = 0 → t.heap.next t.heap.slobfree ≠ t.heap.arena
  | .kfree _ => True
  | .write _ _ _ => True

-- The arena is on the free list and not with a caller, and kfree returns.
structure Guarded (t : State) : Prop where
  listed : ∃ k, t.heap.next^[k] t.heap.slobfree = t.heap.arena
  kept : ∀ r ∈ t.live, r.1 ≠ t.heap.arena + SLOB_UNIT
  freed : ∀ r ∈ t.live, ∃ s, kfree t.heap r.1 = .ok s

-- A pointer is given back while one object has it: an object of no bytes has its pointer
-- behind its block, where a run of pages can begin.
def Sound (t : State) : Op → Prop
  | .kmalloc size _ => size = 0 → t.heap.next t.heap.slobfree ≠ t.heap.arena
  | .kfree block => t.live.countP (fun r => r.1 = block) = 1
  | .write r _ _ => r ∈ t.live

variable {s s' : Heap} {t t' : State} {free : Finset Nat} {l : List Nat}
  {smalls : List (Nat × Nat)} {bigs : List BigBlock} {heap : List Nat}
  {live rest : List (Nat × Nat)} {r : Nat × Nat} {n block : Nat} {op : Op}

section Arena

theorem linkNext_arena (s : Heap) (b cur : Nat) : (linkNext s b cur).arena = s.arena := by
  unfold linkNext
  split <;> rfl

theorem linkPrev_arena (s : Heap) (b cur : Nat) : (linkPrev s b cur).arena = s.arena := by
  unfold linkPrev
  split <;> rfl

theorem slobFree_arena {b size : Nat} (h : slobFree s b size = .ok s') : s'.arena = s.arena := by
  unfold slobFree at h
  split at h
  · cases h
    rfl
  · have hlink : ∀ (u : Heap) cur, (linkPrev (linkNext u b cur) b cur).arena = u.arena := by
      intro u cur
      rw [linkPrev_arena, linkNext_arena]
    split at h <;> obtain ⟨cur, _, h⟩ := bind_eq_ok.mp h <;> cases h <;> exact hlink _ cur

theorem slobGetFreePages_arena (s : Heap) (order : Nat) :
    (slobGetFreePages s order).2.arena = s.arena := by
  rcases slobGetFreePages_cases s order with ⟨rest, he⟩ | ⟨page, rest, _, _, he⟩ <;> rw [he]

theorem take_arena (s : Heap) (prev cur units : Nat) : (take s prev cur units).arena = s.arena := by
  unfold take
  split <;> rfl

theorem allocLoop_arena {size fuel prev cur p : Nat}
    (h : allocLoop size fuel s prev cur = .ok (p, s')) : s'.arena = s.arena := by
  induction fuel generalizing s prev cur with
  | zero => cases h
  | succ fuel ih =>
      rw [allocLoop] at h
      split at h
      · cases h
        exact take_arena s prev _ _
      · split at h
        · split at h
          · cases h
            rfl
          · have hget := slobGetFreePages_arena s 0
            generalize slobGetFreePages s 0 = got at h hget
            obtain ⟨page, s₁⟩ := got
            simp only at h hget
            split at h
            · cases h
              exact hget
            · obtain ⟨s₂, hfree, h⟩ := bind_eq_ok.mp h
              rw [ih h, slobFree_arena hfree, hget]
        · exact ih h

theorem slobAlloc_arena {size p : Nat} (h : slobAlloc s size = .ok (p, s')) : s'.arena = s.arena := by
  obtain ⟨_, _, h⟩ := bind_eq_ok.mp h
  exact allocLoop_arena h

theorem kmalloc_arena {p : Nat} (h : kmalloc s n = .ok (p, s')) : s'.arena = s.arena := by
  unfold kmalloc at h
  split at h
  · obtain ⟨⟨m, s₁⟩, hs, h⟩ := bind_eq_ok.mp h
    cases h
    exact slobAlloc_arena hs
  · obtain ⟨⟨bb, s₁⟩, hs, h⟩ := bind_eq_ok.mp h
    have harena := slobAlloc_arena hs
    simp only at h
    split at h
    · cases h
      exact harena
    · unfold kmallocPages at h
      have hget := slobGetFreePages_arena (s₁.setOrder bb (findOrder 32 (toInt n)))
        ((s₁.setOrder bb (findOrder 32 (toInt n))).order bb)
      simp only at h
      split at h
      · cases h
        exact hget.trans harena
      · obtain ⟨s₂, hfree, h⟩ := bind_eq_ok.mp h
        cases h
        exact (slobFree_arena hfree).trans (hget.trans harena)

theorem kfree_arena (h : kfree s block = .ok s') : s'.arena = s.arena := by
  unfold kfree at h
  split at h
  · cases h
    rfl
  · have hlast : ∀ last v, (setLast s last v).arena = s.arena := by
      intro last v
      cases last <;> rfl
    split at h
    · obtain ⟨found, _, h⟩ := bind_eq_ok.mp h
      cases found with
      | none => exact slobFree_arena h
      | some found =>
          obtain ⟨last, bb⟩ := found
          exact (slobFree_arena h).trans (hlast last _)
    · exact slobFree_arena h

theorem step_arena (h : step t op = .ok t') : t'.heap.arena = t.heap.arena := by
  cases op with
  | kmalloc size supply =>
      rw [step] at h
      obtain ⟨⟨p, s⟩, hk, h⟩ := bind_eq_ok.mp h
      cases h
      have harena := kmalloc_arena hk
      exact harena
  | kfree block =>
      rw [step] at h
      obtain ⟨s, hk, h⟩ := bind_eq_ok.mp h
      cases h
      exact kfree_arena hk
  | write r lo hi =>
      cases h
      rfl

theorem Run.arena_ne {allowed : State → Op → Prop} (h : Run allowed t) : t.heap.arena ≠ NULL := by
  induction h with
  | init _ hnull => exact hnull
  | step _ _ hstep ih =>
      rw [step_arena hstep]
      exact ih

end Arena

-- The blocks and the objects of a state
def Holds (t : State) (bigs : List BigBlock) : Prop :=
  ∃ smalls heap free l, Blocks t.heap smalls bigs heap free l ∧ Objects t.live smalls bigs

theorem Initial.holds (h : Initial t) : Holds t [] := by
  obtain ⟨smalls, bigs, heap, free, l, hb, ht⟩ := h.inv
  have hlive := ht.perm.length_eq
  rw [h.live, List.length_append, List.length_map, List.length_map] at hlive
  obtain rfl : bigs = [] := List.length_eq_zero_iff.mp (by simp at hlive; omega)
  exact ⟨smalls, heap, free, l, hb, ht.objects⟩

theorem kmalloc_holds (hb : Blocks s smalls bigs heap free l) (ht : Objects live smalls bigs)
    (hmax : n ≤ 4063) (hzero : n = 0 → s.next s.slobfree ≠ s.arena) :
    ∃ p s', kmalloc s n = .ok (p, s') ∧
      Holds ⟨s', if p = NULL then live else (p, n) :: live⟩ bigs := by
  obtain ⟨p, s', heap', free', l', hk, ⟨rfl, hb'⟩ | ⟨a, rfl, hnull, hb'⟩⟩ :=
    kmalloc_served hb hmax (slobAlloc_small hb hmax hzero)
  · exact ⟨_, s', hk, _, _, _, _, hb', ht⟩
  · refine ⟨_, s', hk, _, _, _, _, hb', ?_⟩
    rw [if_neg (by unfold NULL SLOB_UNIT; omega)]
    exact ht.addSmall hmax

theorem kmallocBig_holds (hb : Blocks s smalls bigs heap free l) (ht : Objects live smalls bigs)
    (hlarge : 4080 ≤ n) :
    ∃ p s' bigs', kmalloc s n = .ok (p, s') ∧
      Holds ⟨s', if p = NULL then live else (p, n) :: live⟩ bigs' := by
  obtain ⟨p, s', heap', free', l', hk, ⟨rfl, hb'⟩ | ⟨b, rfl, rfl, hnull, hb'⟩⟩ := kmalloc_big hb hlarge
  · exact ⟨_, s', bigs, hk, _, _, _, _, hb', ht⟩
  · refine ⟨_, s', b :: bigs, hk, _, _, _, _, hb', ?_⟩
    rw [if_neg hnull]
    exact ht.addBig hlarge

-- kfree takes the object, where no other one that is a big block has the pointer.
theorem kfree_holds (hb : Blocks s smalls bigs heap free l) (ht : Objects live smalls bigs)
    (hp : live.Perm (r :: rest)) (hone : ∀ b ∈ bigs, (b.page, b.size) ∈ rest → b.page ≠ r.1) :
    ∃ s' bigs', kfree s r.1 = .ok s' ∧ Holds ⟨s', rest⟩ bigs' ∧ bigs' ⊆ bigs := by
  rcases ht.cases hp with ⟨a, smalls', hra, hperm, _, ht'⟩ | ⟨m, b, n, rfl, rfl, _, ht'⟩
  · have hno : ∀ b ∈ bigs, b.page ≠ a + SLOB_UNIT := by
      intro b hin
      rw [← hra]
      apply hone b hin
      rw [ht'.perm.mem_iff]
      exact List.mem_append_right _
        (List.mem_map_of_mem (f := fun b : BigBlock => (b.page, b.size)) hin)
    obtain ⟨s', l', hk, hb', _⟩ := kfree_header (hb.permSmalls hperm) hno
    exact ⟨s', bigs, hra ▸ hk, ⟨_, _, _, _, hb', ht'⟩, fun _ => id⟩
  · obtain ⟨s', l', hk, hb', _⟩ := kfree_big hb
    refine ⟨s', m ++ n, hk, ⟨_, _, _, _, hb', ht'⟩, fun c hc => ?_⟩
    rw [List.perm_middle.mem_iff]
    exact List.mem_cons_of_mem b hc

-- What kfree takes out of the list of the live objects
theorem live_split (hr : ∃ r ∈ live, r.1 = block) :
    ∃ r rest, r.1 = block ∧ live.Perm (r :: rest) ∧ live.eraseP (fun q => q.1 = block) = rest ∧
      live.countP (fun q => q.1 = block) = rest.countP (fun q => q.1 = block) + 1 := by
  obtain ⟨r, hr, he⟩ := hr
  obtain ⟨q, m, n, _, hq, hlive, herase⟩ := List.exists_of_eraseP hr (p := fun q => q.1 = block)
    (decide_eq_true he)
  have hperm : live.Perm (q :: (m ++ n)) := hlive ▸ List.perm_middle
  refine ⟨q, m ++ n, of_decide_eq_true hq, hperm, herase, ?_⟩
  rw [hperm.countP_eq, List.countP_cons, if_pos hq]

theorem kfree_step (hb : Blocks t.heap smalls bigs heap free l) (ht : Objects t.live smalls bigs)
    (hr : ∃ r ∈ t.live, r.1 = block)
    (hone : bigs = [] ∨ t.live.countP (fun q => q.1 = block) = 1) :
    ∃ t' bigs', step t (.kfree block) = .ok t' ∧ Holds t' bigs' ∧ bigs' ⊆ bigs := by
  obtain ⟨r, rest, rfl, hperm, herase, hcount⟩ := live_split hr
  obtain ⟨s', bigs', hk, hholds, hsub⟩ := kfree_holds hb ht hperm (by
    intro b hin hrest he
    rcases hone with rfl | hone
    · exact absurd hin List.not_mem_nil
    · have hpos : 0 < rest.countP (fun q => q.1 = r.1) :=
        List.countP_pos_iff.mpr ⟨_, hrest, decide_eq_true he⟩
      omega)
  refine ⟨⟨s', rest⟩, bigs', ?_, hholds, hsub⟩
  simp [step, hk, herase]

-- The arena is free and not in a block of an object.
theorem Holds.guarded (h : Holds t []) : Guarded t := by
  obtain ⟨smalls, heap, free, l, hb, ht⟩ := h
  have hlist := hb.pool.list
  refine ⟨?_, fun r hr he => ?_, fun r hr => ?_⟩
  · by_cases hrover : t.heap.slobfree = t.heap.arena
    · exact ⟨0, hrover⟩
    · obtain ⟨seg, hlead, _⟩ := hlist.round.leads hlist.rover List.mem_cons_self hrover
      exact ⟨seg.length + 1, hlead.iterate⟩
  · rcases ht.cases (List.perm_cons_erase hr) with ⟨a, smalls', hra, hperm, _⟩ | ⟨m, b, n, hnil, _⟩
    · have habove := (hb.permSmalls hperm).pool.used_above (mem_small List.mem_cons_self)
      simp only at habove
      omega
    · exact absurd hnil.symm (by simp)
  · obtain ⟨s', _, hk, _⟩ := kfree_holds hb ht (List.perm_cons_erase hr) (by simp)
    exact ⟨s', hk⟩

theorem small_step (h : Holds t []) (hsmall : Small t op) (hspares : Spares t op) :
    ∃ t', step t op = .ok t' ∧ Holds t' [] := by
  obtain ⟨smalls, heap, free, l, hb, ht⟩ := h
  cases op with
  | kmalloc size supply =>
      obtain ⟨p, s', hk, hholds⟩ := kmalloc_holds (hb.resupply supply) ht hsmall hspares
      refine ⟨_, ?_, hholds⟩
      simp [step, hk]
  | kfree block =>
      obtain ⟨t', bigs', hk, hholds, hsub⟩ := kfree_step hb ht hsmall (Or.inl rfl)
      obtain rfl := List.subset_nil.mp hsub
      exact ⟨t', hk, hholds⟩
  | write r lo hi => exact ⟨_, rfl, smalls, heap, free, l, hb.write ht hsmall lo hi, ht⟩

theorem Run.small (h : Run (fun t op => Small t op ∧ Spares t op) t) : Holds t [] := by
  induction h with
  | init hinit _ => exact hinit.holds
  | step _ hop hstep ih =>
      obtain ⟨t₁, ht₁, hholds⟩ := small_step ih hop.1 hop.2
      rw [hstep] at ht₁
      cases ht₁
      exact hholds

-- The arena stays on the free list exactly in the runs that never ask for 0 bytes with the
-- rover at the last block.
theorem arena_guarded_exact (h : Run (fun t op => Small t op ∧ Spares t op) t) :
    Guarded t ∧ ∀ op, Small t op → ((∃ t', step t op = .ok t' ∧ Guarded t') ↔ Spares t op) := by
  refine ⟨h.small.guarded, fun op hop => ⟨?_, fun hspares => ?_⟩⟩
  · rintro ⟨t', hstep, hguard⟩
    cases op with
    | kmalloc size supply =>
        rintro rfl hnext
        obtain ⟨smalls, heap, free, l, hb, _⟩ := h.small
        have hfirst := slobAlloc_first (hb.resupply supply).pool.list
        have hsmall : 0 < PAGE_SIZE - SLOB_UNIT := by decide
        have hnull := h.arena_ne
        have hk : kmalloc { t.heap with supply := supply } 0 = .ok (t.heap.arena + SLOB_UNIT,
            take { t.heap with supply := supply } t.heap.slobfree t.heap.arena 1) := by
          have hnext' : Heap.next { t.heap with supply := supply } t.heap.slobfree = t.heap.arena :=
            hnext
          rw [hnext'] at hfirst
          rw [kmalloc, if_pos hsmall, Nat.zero_add, hfirst, ok_bind]
          simp only [if_pos hnull, pure_eq_ok]
        have hsome : t.heap.arena + SLOB_UNIT ≠ NULL := by
          unfold NULL SLOB_UNIT
          omega
        have harena := step_arena hstep
        simp only [step, hk, ok_bind, if_neg hsome, pure_eq_ok] at hstep
        cases hstep
        exact hguard.kept _ List.mem_cons_self (by rw [harena])
    | kfree block => trivial
    | write r lo hi => trivial
  · obtain ⟨t', hstep, hholds⟩ := small_step h.small hop hspares
    exact ⟨t', hstep, hholds.guarded⟩

theorem ok_of_map {α β : Type} {x : Except Halt α} {f : α → β} {b : β} (h : x.map f = .ok b) :
    ∃ a, x = .ok a ∧ f a = b := by
  cases x with
  | error e => cases h
  | ok a => exact ⟨a, rfl, Except.ok.inj h⟩

-- The first object, with the rover before the rest of its page
theorem startState_kmalloc (allowed : State → Op → Prop)
    (hallowed : allowed startState (.kmalloc 100 [some 4096])) :
    ∃ t : State, Run allowed t ∧ t.live = [(4112, 100)] ∧ t.heap.next t.heap.slobfree ≠ t.heap.arena := by
  have hmap : (step startState (.kmalloc 100 [some 4096])).map (fun t => (t.live,
      decide (t.heap.next t.heap.slobfree ≠ t.heap.arena))) = .ok ([(4112, 100)], true) := by
    decide +kernel
  obtain ⟨t, ht, he⟩ := ok_of_map hmap
  obtain ⟨hlive, hnext⟩ := Prod.mk.inj he
  have hrun : Run allowed startState := .init ⟨rfl, rfl, rfl, rfl, rfl, rfl⟩ (by decide)
  exact ⟨t, hrun.step hallowed ht, hlive, of_decide_eq_true hnext⟩

theorem arena_guarded_object : ∃ t : State, t.live = [(4112, 100)] ∧ Guarded t ∧
    ∃ t', step t (.kmalloc 0 []) = .ok t' ∧ Guarded t' := by
  obtain ⟨t, hrun, hlive, hnext⟩ := startState_kmalloc (fun t op => Small t op ∧ Spares t op)
    ⟨show 100 ≤ 4063 by decide, fun h => absurd h (by decide)⟩
  obtain ⟨hguard, hiff⟩ := arena_guarded_exact hrun
  exact ⟨t, hlive, hguard, (hiff (.kmalloc 0 []) (Nat.zero_le _)).mpr fun _ => hnext⟩

-- The first kmalloc(0) gets the arena, and its kfree does not end.
theorem arena_handed_out : ∃ t : State, Run Small t ∧ t.live = [(80, 0)] ∧ t.heap.arena + SLOB_UNIT = 80 ∧
    kfree t.heap 80 = .error .hang ∧ ¬Guarded t := by
  have hmap : (step startState (.kmalloc 0 [])).map (fun t => (t.live, t.heap.arena,
      decide (kfree t.heap 80 = .error .hang))) = .ok ([(80, 0)], 64, true) := by
    decide +kernel
  obtain ⟨t, ht, he⟩ := ok_of_map hmap
  obtain ⟨hlive, he⟩ := Prod.mk.inj he
  obtain ⟨harena, hkfree⟩ := Prod.mk.inj he
  have hrun : Run Small startState := .init ⟨rfl, rfl, rfl, rfl, rfl, rfl⟩ (by decide)
  have hbehind : t.heap.arena + SLOB_UNIT = 80 := by
    rw [harena]
    rfl
  refine ⟨t, hrun.step (Nat.zero_le _) ht, hlive, hbehind, of_decide_eq_true hkfree, fun h => ?_⟩
  exact h.kept (80, 0) (hlive ▸ List.mem_cons_self) hbehind.symm

-- The threshold of kmalloc counts the header once, and the assertion counts it twice.
theorem kmalloc_gap (hlo : 4064 ≤ n) (hhi : n < 4080) :
    kmalloc s n = .error (.panic "assertion failed: (size + SLOB_UNIT) < PAGE_SIZE") := by
  have hsmall : n < PAGE_SIZE - SLOB_UNIT := hhi
  have hassert : decide (n + SLOB_UNIT + SLOB_UNIT < PAGE_SIZE) = false := by
    apply decide_eq_false
    unfold SLOB_UNIT PAGE_SIZE
    omega
  rw [kmalloc, if_pos hsmall, slobAlloc, hassert]
  rfl

theorem sound_step (h : Holds t bigs) (hop : Sound t op) (hstep : step t op = .ok t') :
    ∃ bigs', Holds t' bigs' := by
  obtain ⟨smalls, heap, free, l, hb, ht⟩ := h
  cases op with
  | kmalloc size supply =>
      have hb := hb.resupply supply
      rcases lt_or_ge size 4064 with hlt | hge
      · obtain ⟨p, s', hk, hholds⟩ := kmalloc_holds hb ht (Nat.le_of_lt_succ hlt) hop
        simp only [step, hk, ok_bind, pure_eq_ok, Except.ok.injEq] at hstep
        exact ⟨bigs, hstep ▸ hholds⟩
      · rcases lt_or_ge size 4080 with hlt | hlarge
        · simp only [step, kmalloc_gap hge hlt, error_bind] at hstep
          cases hstep
        · obtain ⟨p, s', bigs', hk, hholds⟩ := kmallocBig_holds hb ht hlarge
          simp only [step, hk, ok_bind, pure_eq_ok, Except.ok.injEq] at hstep
          exact ⟨bigs', hstep ▸ hholds⟩
  | kfree block =>
      have hone : t.live.countP (fun r => r.1 = block) = 1 := hop
      have hpos : 0 < t.live.countP (fun r => r.1 = block) := by
        rw [hone]
        exact Nat.one_pos
      obtain ⟨r, hr, he⟩ := List.countP_pos_iff.mp hpos
      obtain ⟨t₁, bigs', hk, hholds, _⟩ := kfree_step hb ht ⟨r, hr, of_decide_eq_true he⟩ (Or.inr hone)
      rw [hstep] at hk
      cases hk
      exact ⟨bigs', hholds⟩
  | write r lo hi =>
      cases hstep
      exact ⟨bigs, smalls, heap, free, l, hb.write ht hop lo hi, ht⟩

theorem Run.sound (h : Run Sound t) : ∃ bigs, Holds t bigs := by
  induction h with
  | init hinit _ => exact ⟨[], hinit.holds⟩
  | step _ hop hstep ih =>
      obtain ⟨bigs, hholds⟩ := ih
      exact sound_step hholds hop hstep

-- kmalloc returns but for the sizes that the threshold lets through to the assertion.
theorem kmalloc_returns_exact (h : Run Sound t) (hn : 1 ≤ n) (supply : List (Option Nat)) :
    (∃ p s', kmalloc { t.heap with supply := supply } n = .ok (p, s')) ↔ ¬(4064 ≤ n ∧ n < 4080) := by
  constructor
  · rintro ⟨p, s', hk⟩ ⟨hlo, hhi⟩
    rw [kmalloc_gap hlo hhi] at hk
    cases hk
  · intro hgap
    obtain ⟨bigs, smalls, heap, free, l, hb, ht⟩ := h.sound
    have hb := hb.resupply supply
    rcases lt_or_ge n 4064 with hlt | hge
    · obtain ⟨p, s', hk, _⟩ := kmalloc_holds hb ht (Nat.le_of_lt_succ hlt) (by omega)
      exact ⟨p, s', hk⟩
    · have hlarge : 4080 ≤ n := by omega
      obtain ⟨p, s', _, hk, _⟩ := kmallocBig_holds hb ht hlarge
      exact ⟨p, s', hk⟩

theorem kmalloc_returns_object : ∃ t : State, t.live = [(4112, 100)] ∧
    ∃ p s', kmalloc { t.heap with supply := [some 8192] } 4063 = .ok (p, s') := by
  obtain ⟨t, hrun, hlive, _⟩ := startState_kmalloc Sound fun h => absurd h (by decide)
  exact ⟨t, hlive, (kmalloc_returns_exact hrun (by decide) [some 8192]).mpr (by omega)⟩

theorem kmalloc_trips : ¬∀ (t : State) n supply, Run Sound t → 1 ≤ n →
    ∃ p s', kmalloc { t.heap with supply := supply } n = .ok (p, s') := by
  intro hall
  have hrun : Run Sound startState := .init ⟨rfl, rfl, rfl, rfl, rfl, rfl⟩ (by decide)
  obtain ⟨p, s', hk⟩ := hall startState 4064 [some 4096] hrun (by decide)
  rw [kmalloc_gap (by decide) (by decide)] at hk
  cases hk

end Ucore.Slob
