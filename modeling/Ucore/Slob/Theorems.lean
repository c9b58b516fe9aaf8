import Ucore.Slob.Blocks

namespace Ucore.Slob

open Lib

-- The addresses met along `next` from `a` back to the arena.
def walk (s : Heap) : Nat → Nat → List Nat
  | 0, a => [a]
  | fuel + 1, a => if s.next a = s.arena then [a] else a :: walk s fuel (s.next a)

def Heap.members (s : Heap) : List Nat := walk s s.limit s.arena

-- The free blocks, with their numbers of units, and the bytes of them
def Heap.freeBlocks (s : Heap) : List (Nat × Nat) := s.members.map fun a => (a, s.units a)
def Heap.Free (s : Heap) (i : Nat) : Prop := ∃ r ∈ s.freeBlocks, InBlock r i

-- The entries of `bigblocks` from `bb` on
def bigWalk (s : Heap) : Nat → Nat → List Nat
  | 0, _ => []
  | fuel + 1, bb => if bb = NULL then [] else bb :: bigWalk s fuel (s.bigNext bb)

def Heap.entries (s : Heap) : List Nat := bigWalk s (s.out.length + 1) s.bigblocks

-- A live object is the pointer of kmalloc with the size that it was asked for.
def isSmall (r : Nat × Nat) : Bool := r.2 < PAGE_SIZE - SLOB_UNIT

-- What kmalloc grants: units with the header in front of the pointer, or a run of pages.
def header (r : Nat × Nat) : Nat × Nat := (r.1 - SLOB_UNIT, SLOB_UNITS (r.2 + SLOB_UNIT))
def run (r : Nat × Nat) : Nat × Nat := (r.1, findOrder 32 (toInt r.2))
def extent (r : Nat × Nat) : Nat × Nat :=
  if isSmall r then header r else (r.1, 256 * 2 ^ (run r).2)

structure State where
  heap : Heap
  live : List (Nat × Nat)

-- What the kernel does with the heap: it takes memory, where alloc_pages has `supply` to
-- propose, gives it back, and writes what it was granted.
inductive Op
  | kmalloc (size : Nat) (supply : List (Option Nat))
  | kfree (block : Nat)
  | write (r : Nat × Nat) (lo hi : Nat → Nat)

-- The bytes that the owner of an object may write: not its header.
def Writable (r : Nat × Nat) (i : Nat) : Prop := r.1 ≤ i ∧ InBlock (extent r) i

instance (r : Nat × Nat) (i : Nat) : Decidable (Writable r i) :=
  inferInstanceAs (Decidable (_ ∧ _ ∧ _))

def Heap.write (s : Heap) (r : Nat × Nat) (lo hi : Nat → Nat) : Heap :=
  { s with
    lo := fun i => if Writable r i then lo i else s.lo i
    hi := fun i => if Writable r i then hi i else s.hi i }

def step (s : State) : Op → Except Halt State
  | .kmalloc size supply => do
      let (p, h) ← kmalloc { s.heap with supply := supply } size
      pure ⟨h, if p = NULL then s.live else (p, size) :: s.live⟩
  | .kfree block => do
      let h ← kfree s.heap block
      pure ⟨h, s.live.eraseP fun r => r.1 = block⟩
  | .write r lo hi => pure ⟨s.heap.write r lo hi, s.live⟩

def Permitted (s : State) : Op → Prop
  | .kmalloc size _ => (1 ≤ size ∧ size ≤ 4063) ∨ 4080 ≤ size
  | .kfree block => ∃ r ∈ s.live, r.1 = block
  | .write r _ _ => r ∈ s.live

-- The heap before the first kmalloc: `arena` is the only entry of the free list.
structure Initial (s : State) : Prop where
  next : s.heap.next s.heap.arena = s.heap.arena
  units : s.heap.units s.heap.arena = 1
  slobfree : s.heap.slobfree = s.heap.arena
  bigblocks : s.heap.bigblocks = NULL
  out : s.heap.out = []
  live : s.live = []

inductive Reachable : State → Prop
  | init {s : State} : Initial s → Reachable s
  | step {s s' : State} {op : Op} : Reachable s → Permitted s op → step s op = .ok s' → Reachable s'

-- The free blocks, the blocks of small objects and the entries of `bigblocks`
def blocks (s : Heap) (live : List (Nat × Nat)) : List (Nat × Nat) :=
  s.freeBlocks ++ (live.filter isSmall).map header ++ s.entries.map fun bb => (bb, 2)

def bigRuns (live : List (Nat × Nat)) : List (Nat × Nat) :=
  (live.filter fun r => !isSmall r).map run

def Apart (r q : Nat × Nat) : Prop := ∀ i, InBlock r i → ¬InBlock q i

-- The integrity of a heap with these live objects, whose pages are `heap`.
structure Integrity (s : Heap) (live : List (Nat × Nat)) (heap : List Nat) : Prop where
  circle : Round s.next s.members
  first : s.members.head? = some s.arena
  rover : s.slobfree ∈ s.members
  ascending : s.freeBlocks.Pairwise fun r q => r.1 + r.2 * SLOB_UNIT < q.1
  partition : (blocks s live).Pairwise Apart ∧
    ∀ i, (∃ r ∈ blocks s live, InBlock r i) ↔ InHeap s.arena heap i
  pages : s.out.Perm (heap.map (fun p => (p, 0)) ++ bigRuns live)
  disjoint : (live.map extent ++ s.freeBlocks).Pairwise Apart
  units : ∀ r ∈ live, isSmall r → s.units (header r).1 = (header r).2
  bigblocks : (s.entries.map fun bb => (s.pages bb, s.order bb)).Perm (bigRuns live)
  distinct : (live.map Prod.fst).Nodup

-- kfree of `r` takes `s` to `s'`: what was granted for it is given back.
def Returned (s s' : Heap) (r : Nat × Nat) : Prop :=
  if isSmall r then (∀ i, s'.Free i ↔ s.Free i ∨ InBlock (header r) i) ∧ s'.out = s.out
  else ∃ bb ∈ s.entries, s.pages bb = r.1 ∧ (∀ i, s'.Free i ↔ s.Free i ∨ InBlock (bb, 2) i) ∧
    s'.out = s.out.erase (run r)

variable {s s' : Heap} {free : Finset Nat} {l : List Nat} {smalls : List (Nat × Nat)}
  {bigs : List BigBlock} {heap : List Nat} {live rest : List (Nat × Nat)} {r : Nat × Nat}
  {a fuel i : Nat}

theorem walk_eq (h : Leads s.next a l s.arena) (harena : s.arena ∉ l) (hfuel : l.length ≤ fuel) :
    walk s fuel a = a :: l := by
  induction l generalizing a fuel with
  | nil =>
      have hnext := leads_nil.mp h
      cases fuel with
      | zero => rfl
      | succ fuel => rw [walk, if_pos hnext]
  | cons x l ih =>
      obtain ⟨fuel, rfl⟩ := Nat.exists_eq_add_of_le' (Nat.one_le_of_lt hfuel)
      obtain ⟨hnext, hrest⟩ := leads_cons.mp h
      obtain ⟨hx, hl⟩ := List.ne_and_not_mem_of_not_mem_cons harena
      rw [walk, hnext, if_neg (Ne.symm hx), ih hrest hl (Nat.le_of_succ_le_succ hfuel)]

theorem FreeList.members_eq (h : FreeList s free l) (hroom : free.card < SLOB_UNIT * s.limit) :
    s.members = s.arena :: l := by
  have hlen := h.length_lt hroom
  rw [List.length_cons] at hlen
  exact walk_eq (round_cons.mp h.round) (List.nodup_cons.mp h.nodup).1 (by omega)

theorem bigWalk_eq (h : BigChain s a bigs) (hfuel : bigs.length < fuel) :
    bigWalk s fuel a = bigs.map BigBlock.addr := by
  induction bigs generalizing a fuel with
  | nil =>
      obtain ⟨fuel, rfl⟩ := Nat.exists_eq_succ_of_ne_zero (Nat.ne_of_gt hfuel)
      exact if_pos h
  | cons b rest ih =>
      obtain ⟨fuel, rfl⟩ := Nat.exists_eq_succ_of_ne_zero (Nat.ne_zero_of_lt hfuel)
      obtain ⟨rfl, hnull, _, _, hrest⟩ := h
      rw [bigWalk, if_neg hnull, ih hrest (Nat.lt_of_succ_lt_succ hfuel), List.map_cons]

namespace Blocks

theorem members (h : Blocks s smalls bigs heap free l) : s.members = s.arena :: l :=
  h.pool.list.members_eq h.pool.room

theorem free_iff (h : Blocks s smalls bigs heap free l) : s.Free i ↔ i ∈ free := by
  unfold Heap.Free Heap.freeBlocks
  rw [h.members, h.pool.list.runs.mem]
  simp [Heap.blocks, InBlock]

theorem entries (h : Blocks s smalls bigs heap free l) : s.entries = bigs.map BigBlock.addr := by
  refine bigWalk_eq h.chain ?_
  rw [h.pool.out.length_eq, List.length_append, List.length_map, List.length_map]
  omega

end Blocks

-- The objects of `live` are those of the small and the big blocks.
structure Tracks (live smalls : List (Nat × Nat)) (bigs : List BigBlock) : Prop where
  perm : live.Perm
    (smalls.map (fun r => (r.1 + SLOB_UNIT, r.2)) ++ bigs.map fun b => (b.page, b.size))
  small : ∀ r ∈ smalls, 1 ≤ r.2 ∧ r.2 ≤ 4063
  big : ∀ b ∈ bigs, 4080 ≤ b.size

-- The invariant of a run
def Inv (s : State) : Prop :=
  ∃ smalls bigs heap free l, Blocks s.heap smalls bigs heap free l ∧ Tracks s.live smalls bigs

-- The same, where an object can be of no bytes
structure Objects (live smalls : List (Nat × Nat)) (bigs : List BigBlock) : Prop where
  perm : live.Perm
    (smalls.map (fun r => (r.1 + SLOB_UNIT, r.2)) ++ bigs.map fun b => (b.page, b.size))
  small : ∀ r ∈ smalls, r.2 ≤ 4063
  big : ∀ b ∈ bigs, 4080 ≤ b.size

theorem Tracks.objects (h : Tracks live smalls bigs) : Objects live smalls bigs :=
  ⟨h.perm, fun r hr => (h.small r hr).2, h.big⟩

namespace Objects

-- A live object is a small block that can be taken out, or a big one.
theorem cases (h : Objects live smalls bigs) (hp : live.Perm (r :: rest)) :
    (∃ a smalls', r.1 = a + SLOB_UNIT ∧ smalls.Perm ((a, r.2) :: smalls') ∧
      isSmall r ∧ Objects rest smalls' bigs) ∨
    ∃ m b n, bigs = m ++ b :: n ∧ r = (b.page, b.size) ∧ isSmall r = false ∧
      Objects rest smalls (m ++ n) := by
  have hmem := h.perm.mem_iff.mp (hp.mem_iff.mpr List.mem_cons_self)
  rcases List.mem_append.mp hmem with hs | hb
  · obtain ⟨q, hq, rfl⟩ := List.mem_map.mp hs
    have hmax := h.small q hq
    have hperm := List.perm_cons_erase hq
    refine Or.inl ⟨q.1, smalls.erase q, rfl, hperm, ?_, ?_,
      fun r hr => h.small r (List.mem_of_mem_erase hr), h.big⟩
    · exact decide_eq_true (show q.2 < PAGE_SIZE - SLOB_UNIT by
        unfold PAGE_SIZE SLOB_UNIT
        omega)
    · have hall := (hp.symm.trans h.perm).trans ((hperm.map _).append_right _)
      rw [List.map_cons, List.cons_append] at hall
      exact hall.cons_inv
  · obtain ⟨b, hin, rfl⟩ := List.mem_map.mp hb
    have hsize := h.big b hin
    obtain ⟨m, n, rfl⟩ := List.append_of_mem hin
    refine Or.inr ⟨m, b, n, rfl, rfl, ?_, ?_, h.small, fun c hc => ?_⟩
    · exact decide_eq_false (show ¬b.size < PAGE_SIZE - SLOB_UNIT by
        unfold PAGE_SIZE SLOB_UNIT
        omega)
    · have hall := (hp.symm.trans h.perm).trans
        (((List.perm_middle.map _).append_left _).trans List.perm_middle)
      exact hall.cons_inv
    · exact h.big c (List.perm_middle.mem_iff.mpr (List.mem_cons_of_mem b hc))

-- One more small object, or one more big one
theorem addSmall {a n : Nat} (h : Objects live smalls bigs) (hmax : n ≤ 4063) :
    Objects ((a + SLOB_UNIT, n) :: live) ((a, n) :: smalls) bigs where
  perm := h.perm.cons _
  small := fun r hr => by
    rcases List.mem_cons.mp hr with rfl | hr
    · exact hmax
    · exact h.small r hr
  big := h.big

theorem addBig {b : BigBlock} (h : Objects live smalls bigs) (hlarge : 4080 ≤ b.size) :
    Objects ((b.page, b.size) :: live) smalls (b :: bigs) where
  perm := (h.perm.cons _).trans List.perm_middle.symm
  small := h.small
  big := fun c hc => by
    rcases List.mem_cons.mp hc with rfl | hc
    · exact hlarge
    · exact h.big c hc

end Objects

theorem Objects.tracks (h : Objects live smalls bigs) (hpos : ∀ r ∈ smalls, 1 ≤ r.2) :
    Tracks live smalls bigs :=
  ⟨h.perm, fun r hr => ⟨hpos r hr, h.small r hr⟩, h.big⟩

theorem Tracks.cases (h : Tracks live smalls bigs) (hp : live.Perm (r :: rest)) :
    (∃ a smalls', r.1 = a + SLOB_UNIT ∧ 1 ≤ r.2 ∧ smalls.Perm ((a, r.2) :: smalls') ∧
      isSmall r ∧ Tracks rest smalls' bigs) ∨
    ∃ m b n, bigs = m ++ b :: n ∧ r = (b.page, b.size) ∧ isSmall r = false ∧
      Tracks rest smalls (m ++ n) := by
  have hpos : ∀ q ∈ smalls, 1 ≤ q.2 := fun q hq => (h.small q hq).1
  rcases h.objects.cases hp with ⟨a, smalls', hra, hperm, hsmall, hrest⟩ |
    ⟨m, b, n, hbigs, hr, hbig, hrest⟩
  · refine Or.inl ⟨a, smalls', hra, ?_, hperm, hsmall, hrest.tracks fun q hq => ?_⟩
    · exact hpos (a, r.2) (hperm.mem_iff.mpr List.mem_cons_self)
    · exact hpos q (hperm.mem_iff.mpr (List.mem_cons_of_mem _ hq))
  · exact Or.inr ⟨m, b, n, hbigs, hr, hbig, hrest.tracks hpos⟩

theorem Initial.inv {s : State} (h : Initial s) : Inv s := by
  have hround : Round s.heap.next [s.heap.arena] := round_cons.mpr (leads_nil.mpr h.next)
  have hin : ∀ i, i ∈ Finset.Ico s.heap.arena (s.heap.arena + SLOB_UNIT) ↔
      s.heap.arena ≤ i ∧ i < s.heap.arena + SLOB_UNIT := fun i => Finset.mem_Ico
  refine ⟨[], [], [], Finset.Ico s.heap.arena (s.heap.arena + SLOB_UNIT), [], ?_, ?_⟩
  · refine ⟨⟨⟨hround, ?_, ⟨?_, List.pairwise_singleton _ _, ?_⟩, h.units⟩, ?_, ?_, ?_, ?_, ?_, ?_, ?_⟩,
      ?_, h.bigblocks⟩
    · rw [h.slobfree]
      exact List.mem_singleton_self _
    · simp [Heap.blocks, h.units, SLOB_UNIT]
    · simp [Heap.blocks, h.units]
    all_goals simp [h.out, usedBlocks, InHeap]
  · exact ⟨by simp [h.live], by simp, by simp⟩

theorem Blocks.permSmalls {smalls' : List (Nat × Nat)} (h : Blocks s smalls bigs heap free l)
    (hp : smalls.Perm smalls') : Blocks s smalls' bigs heap free l where
  pool := h.pool.perm ((hp.map _).append_right _)
  headers := fun r hr => h.headers r (hp.mem_iff.mpr hr)
  chain := h.chain

-- The owner of an object writes no byte of another block, and no header.
theorem Blocks.writable (h : Blocks s smalls bigs heap free l) (ht : Objects live smalls bigs)
    (hr : r ∈ live) (hi : Writable r i) :
    i ∉ free ∧ (∀ q ∈ smalls, q.1 ≠ i) ∧ ∀ b ∈ bigs, ¬InBlock (b.addr, 2) i := by
  obtain ⟨hlo, hin⟩ := hi
  rcases ht.cases (List.perm_cons_erase hr) with
    ⟨a, smalls', hra, hperm, hsmall, _⟩ | ⟨m, b, n, rfl, rfl, hbig, _⟩
  · have hb := h.permSmalls hperm
    rw [extent, if_pos hsmall, header, hra, Nat.add_sub_cancel] at hin
    rw [hra] at hlo
    have hne : a ≠ i := by
      unfold SLOB_UNIT at hlo
      omega
    obtain ⟨hapart, _⟩ := List.pairwise_cons.mp hb.pool.usedApart
    refine ⟨hb.pool.usedFree _ List.mem_cons_self i hin, fun q hq he => ?_, fun c hc => ?_⟩
    · rcases List.mem_cons.mp (hperm.mem_iff.mp hq) with rfl | hq
      · exact hne he
      · refine hapart _ (mem_small hq) i hin ⟨he.le, ?_⟩
        have hpos := hb.pool.pos _ (mem_small (List.mem_cons_of_mem _ hq))
        exact he ▸ Nat.lt_add_of_pos_right (Nat.mul_pos hpos (by decide))
    · exact hapart _ (mem_big hc) i hin
  · have hrun : (b.page, b.order) ∈ (m ++ b :: n).map fun b => (b.page, b.order) :=
      List.mem_map_of_mem (f := fun b : BigBlock => (b.page, b.order)) (by simp)
    have hhi : i < b.page + PAGE_SIZE * 2 ^ b.order := by
      rw [extent, if_neg (by rw [hbig]; exact Bool.false_ne_true)] at hin
      have hlt : i < b.page + 256 * 2 ^ b.order * SLOB_UNIT := hin.2
      unfold SLOB_UNIT at hlt
      unfold PAGE_SIZE
      omega
    have hout := h.pool.run_outside hrun hlo hhi
    have hused : ∀ q ∈ usedBlocks smalls (m ++ b :: n), ¬InBlock q i := fun q hq hqi =>
      hout ((h.pool.cover i).mp (Or.inr ⟨q, hq, hqi⟩))
    refine ⟨fun hf => hout ((h.pool.cover i).mp (Or.inl hf)), fun q hq he => ?_,
      fun c hc => hused _ (mem_big hc)⟩
    have hpos := h.pool.pos _ (mem_small hq)
    refine hused _ (mem_small hq) ⟨he.le, ?_⟩
    exact he ▸ Nat.lt_add_of_pos_right (Nat.mul_pos hpos (by decide))

theorem Blocks.write (h : Blocks s smalls bigs heap free l) (ht : Objects live smalls bigs)
    (hr : r ∈ live) (lo hi : Nat → Nat) : Blocks (s.write r lo hi) smalls bigs heap free l := by
  have hkeep : ∀ {i}, ¬Writable r i →
      (s.write r lo hi).lo i = s.lo i ∧ (s.write r lo hi).hi i = s.hi i := fun hi =>
    ⟨if_neg hi, if_neg hi⟩
  refine ⟨h.pool.congr rfl rfl rfl fun i hi => hkeep fun hw => (h.writable ht hr hw).1 hi,
    fun q hq => ?_, h.chain.congr fun b hb => ?_⟩
  · have hu := (hkeep fun hw => (h.writable ht hr hw).2.1 q hq rfl).1
    exact hu.trans (h.headers q hq)
  · have hentry : ∀ i, InBlock (b.addr, 2) i → ¬Writable r i := fun i hi hw =>
      (h.writable ht hr hw).2.2 b hb hi
    obtain ⟨h₁, h₂⟩ := hkeep (hentry _ inBlock_start)
    exact ⟨h₁, h₂, (hkeep (hentry _ inBlock_word)).1⟩

theorem Blocks.resupply (h : Blocks s smalls bigs heap free l) (supply : List (Option Nat)) :
    Blocks { s with supply := supply } smalls bigs heap free l where
  pool := h.pool.congr rfl rfl rfl fun _ _ => ⟨rfl, rfl⟩
  headers := h.headers
  chain := h.chain.congr fun _ _ => ⟨rfl, rfl, rfl⟩

theorem kmalloc_inv {size : Nat} (hb : Blocks s smalls bigs heap free l)
    (ht : Tracks live smalls bigs) (hsize : (1 ≤ size ∧ size ≤ 4063) ∨ 4080 ≤ size) :
    ∃ p s', kmalloc s size = .ok (p, s') ∧
      Inv ⟨s', if p = NULL then live else (p, size) :: live⟩ := by
  have hpos : ∀ q ∈ smalls, 1 ≤ q.2 := fun q hq => (ht.small q hq).1
  rcases hsize with ⟨hlo, hhi⟩ | hlarge
  · obtain ⟨p, s', heap', free', l', hk, ⟨rfl, hb'⟩ | ⟨a, rfl, hnull, hb'⟩⟩ := kmalloc_small hb hlo hhi
    · exact ⟨_, s', hk, _, _, _, _, _, hb', ht⟩
    · refine ⟨_, s', hk, _, _, _, _, _, hb', ?_⟩
      rw [if_neg (by unfold NULL SLOB_UNIT; omega)]
      refine (ht.objects.addSmall hhi).tracks fun q hq => ?_
      rcases List.mem_cons.mp hq with rfl | hq
      · exact hlo
      · exact hpos q hq
  · obtain ⟨p, s', heap', free', l', hk, ⟨rfl, hb'⟩ | ⟨b, rfl, rfl, hnull, hb'⟩⟩ :=
      kmalloc_big hb hlarge
    · exact ⟨_, s', hk, _, _, _, _, _, hb', ht⟩
    · refine ⟨_, s', hk, _, _, _, _, _, hb', ?_⟩
      rw [if_neg hnull]
      exact (ht.objects.addBig hlarge).tracks hpos

theorem kfree_inv (hb : Blocks s smalls bigs heap free l) (ht : Tracks live smalls bigs)
    (hp : live.Perm (r :: rest)) :
    ∃ s', kfree s r.1 = .ok s' ∧ Returned s s' r ∧ Inv ⟨s', rest⟩ := by
  rcases ht.cases hp with ⟨a, smalls', hra, hpos, hperm, hsmall, ht'⟩ |
    ⟨m, b, n, rfl, rfl, hbig, ht'⟩
  · obtain ⟨s', l', hk, hb', hout⟩ := kfree_small (hb.permSmalls hperm) hpos
    refine ⟨s', hra ▸ hk, ?_, _, _, _, _, _, hb', ht'⟩
    rw [Returned, if_pos hsmall]
    refine ⟨fun i => ?_, hout⟩
    rw [hb'.free_iff, hb.free_iff, Finset.mem_union, Finset.mem_Ico, header, hra, Nat.add_sub_cancel]
    rfl
  · obtain ⟨s', l', hk, hb', hout⟩ := kfree_big hb
    refine ⟨s', hk, ?_, _, _, _, _, _, hb', ht'⟩
    rw [Returned, if_neg (by rw [hbig]; exact Bool.false_ne_true)]
    refine ⟨b.addr, ?_, (hb.chain.mem (by simp)).2.1, fun i => ?_, hout⟩
    · rw [hb.entries]
      simp
    · rw [hb'.free_iff, hb.free_iff, Finset.mem_union, Finset.mem_Ico]
      rfl

theorem step_inv {t : State} {op : Op} (h : Inv t) (hop : Permitted t op) :
    ∃ t', step t op = .ok t' ∧ Inv t' := by
  obtain ⟨smalls, bigs, heap, free, l, hb, ht⟩ := h
  cases op with
  | kmalloc size supply =>
      obtain ⟨p, s', hk, hinv⟩ := kmalloc_inv (hb.resupply supply) ht hop
      refine ⟨_, ?_, hinv⟩
      simp [step, hk]
  | kfree block =>
      obtain ⟨r, hr, rfl⟩ := hop
      obtain ⟨q, m, n, _, hq, hlive, herase⟩ := List.exists_of_eraseP hr (p := fun q => q.1 = r.1)
        (decide_eq_true rfl)
      have hpq : q.1 = r.1 := of_decide_eq_true hq
      obtain ⟨s', hk, _, hinv⟩ := kfree_inv hb ht (hlive ▸ List.perm_middle)
      refine ⟨_, ?_, hinv⟩
      rw [hpq] at hk
      simp [step, hk, herase]
  | write r lo hi => exact ⟨_, rfl, smalls, bigs, heap, free, l, hb.write ht.objects hop lo hi, ht⟩

theorem Reachable.inv {t : State} (h : Reachable t) : Inv t := by
  induction h with
  | init hinit => exact hinit.inv
  | step _ hop hstep ih =>
      obtain ⟨t', ht', hinv⟩ := step_inv ih hop
      rw [hstep] at ht'
      cases ht'
      exact hinv

namespace Tracks

theorem isSmall_small (h : Tracks live smalls bigs) :
    ∀ q ∈ smalls, isSmall (q.1 + SLOB_UNIT, q.2) := fun q hq =>
  decide_eq_true (show q.2 < PAGE_SIZE - SLOB_UNIT by
    have hmax := (h.small q hq).2
    unfold PAGE_SIZE SLOB_UNIT
    omega)

theorem isSmall_big (h : Tracks live smalls bigs) :
    ∀ b ∈ bigs, isSmall (b.page, b.size) = false := fun b hb =>
  decide_eq_false (show ¬b.size < PAGE_SIZE - SLOB_UNIT by
    have hmin := h.big b hb
    unfold PAGE_SIZE SLOB_UNIT
    omega)

theorem filter_small (h : Tracks live smalls bigs) :
    (live.filter isSmall).Perm (smalls.map fun r => (r.1 + SLOB_UNIT, r.2)) := by
  have hs : ∀ r ∈ smalls.map fun r => (r.1 + SLOB_UNIT, r.2), isSmall r :=
    List.forall_mem_map.mpr h.isSmall_small
  have hb : ∀ r ∈ bigs.map fun b => (b.page, b.size), ¬isSmall r :=
    List.forall_mem_map.mpr fun b hb => by simp [h.isSmall_big b hb]
  have hp := h.perm.filter isSmall
  rwa [List.filter_append, List.filter_eq_self.mpr hs, List.filter_eq_nil_iff.mpr hb,
    List.append_nil] at hp

theorem filter_big (h : Tracks live smalls bigs) :
    (live.filter fun r => !isSmall r).Perm (bigs.map fun b => (b.page, b.size)) := by
  have hs : ∀ r ∈ smalls.map fun r => (r.1 + SLOB_UNIT, r.2), ¬(!isSmall r) :=
    List.forall_mem_map.mpr fun q hq => by simp [h.isSmall_small q hq]
  have hb : ∀ r ∈ bigs.map fun b => (b.page, b.size), !isSmall r :=
    List.forall_mem_map.mpr fun b hb => by simp [h.isSmall_big b hb]
  have hp := h.perm.filter fun r => !isSmall r
  rwa [List.filter_append, List.filter_eq_self.mpr hb, List.filter_eq_nil_iff.mpr hs,
    List.nil_append] at hp

theorem headers (h : Tracks live smalls bigs) :
    ((live.filter isSmall).map header).Perm
      (smalls.map fun r => (r.1, SLOB_UNITS (r.2 + SLOB_UNIT))) := by
  have hp := h.filter_small.map header
  rw [List.map_map] at hp
  exact hp

theorem runs (h : Tracks live smalls bigs) :
    (bigRuns live).Perm (bigs.map fun b => (b.page, b.order)) := by
  have hp := h.filter_big.map run
  rw [List.map_map] at hp
  exact hp

theorem extents (h : Tracks live smalls bigs) :
    (live.map extent).Perm (smalls.map (fun r => (r.1, SLOB_UNITS (r.2 + SLOB_UNIT))) ++
      bigs.map fun b => (b.page, 256 * 2 ^ b.order)) := by
  have hp := h.perm.map extent
  rw [List.map_append, List.map_map, List.map_map] at hp
  have hs : smalls.map (extent ∘ fun r => (r.1 + SLOB_UNIT, r.2)) =
      smalls.map fun r => (r.1, SLOB_UNITS (r.2 + SLOB_UNIT)) :=
    List.map_congr_left fun q hq => if_pos (h.isSmall_small q hq)
  have hb : bigs.map (extent ∘ fun b => (b.page, b.size)) =
      bigs.map fun b => (b.page, 256 * 2 ^ b.order) :=
    List.map_congr_left fun b hb => if_neg (by simp [h.isSmall_big b hb])
  rwa [hs, hb] at hp

-- The pointer lies in what was granted for it.
theorem pointer (h : Tracks live smalls bigs) (hr : r ∈ live) : InBlock (extent r) r.1 := by
  rcases h.cases (List.perm_cons_erase hr) with
    ⟨a, _, hra, hpos, _, hsmall, _⟩ | ⟨m, b, n, _, _, hbig, _⟩
  · have hk := SLOB_UNITS_gt hpos
    rw [extent, if_pos hsmall]
    refine ⟨Nat.sub_le _ _, ?_⟩
    simp only [header, hra, SLOB_UNIT] at hk ⊢
    omega
  · rw [extent, if_neg (by rw [hbig]; exact Bool.false_ne_true)]
    exact ⟨le_rfl, Nat.lt_add_of_pos_right
      (Nat.mul_pos (Nat.mul_pos (by decide) (Nat.two_pow_pos _)) (by decide))⟩

end Tracks

theorem Blocks.perm_blocks (h : Blocks s smalls bigs heap free l) (ht : Tracks live smalls bigs) :
    (Slob.blocks s live).Perm (s.freeBlocks ++ usedBlocks smalls bigs) := by
  unfold Slob.blocks usedBlocks
  rw [h.entries, List.append_assoc, List.map_map]
  exact (ht.headers.append_right _).append_left _

theorem Blocks.free_apart (h : Blocks s smalls bigs heap free l) :
    s.freeBlocks.Pairwise fun r q => r.1 + r.2 * SLOB_UNIT < q.1 := by
  have hgap := h.pool.list.runs.gap
  unfold Heap.freeBlocks Heap.blocks at *
  rw [h.members, List.pairwise_map]
  rwa [List.pairwise_map] at hgap

theorem Apart.of_lt {r q : Nat × Nat} (h : r.1 + r.2 * SLOB_UNIT < q.1) : Apart r q := by
  rintro i ⟨_, hi⟩ ⟨hq, _⟩
  omega

theorem Apart.symm {r q : Nat × Nat} (h : Apart r q) : Apart q r := fun i hq hr => h i hr hq

theorem inBlock_pages {page k : Nat} :
    InBlock (page, 256 * 2 ^ k) i ↔ page ≤ i ∧ i < page + PAGE_SIZE * 2 ^ k := by
  have hsize : 256 * 2 ^ k * SLOB_UNIT = PAGE_SIZE * 2 ^ k := by
    unfold SLOB_UNIT PAGE_SIZE
    omega
  rw [InBlock, hsize]

theorem Blocks.disjoint (h : Blocks s smalls bigs heap free l) (ht : Tracks live smalls bigs) :
    (live.map extent ++ s.freeBlocks).Pairwise Apart := by
  obtain ⟨hsmall, _, _⟩ := List.pairwise_append.mp h.pool.usedApart
  have hinheap : ∀ r ∈ smalls.map (fun r => (r.1, SLOB_UNITS (r.2 + SLOB_UNIT))), ∀ i,
      InBlock r i → InHeap s.arena heap i := fun r hr i hi =>
    (h.pool.cover i).mp (Or.inr ⟨r, List.mem_append_left _ hr, hi⟩)
  have hrun : ∀ q ∈ bigs.map (fun b => (b.page, 256 * 2 ^ b.order)), ∀ i, InBlock q i →
      ¬InHeap s.arena heap i := by
    intro q hq i hi
    obtain ⟨b, hb, rfl⟩ := List.mem_map.mp hq
    obtain ⟨hlo, hhi⟩ := inBlock_pages.mp hi
    exact h.pool.run_outside (List.mem_map_of_mem (f := fun b : BigBlock => (b.page, b.order)) hb)
      hlo hhi
  have hbig : (bigs.map fun b => (b.page, 256 * 2 ^ b.order)).Pairwise Apart := by
    have hruns := (List.pairwise_append.mp h.pool.runs_apart).2.1
    rw [List.pairwise_map] at hruns ⊢
    refine hruns.imp fun {b c} hbc i hb hc => ?_
    obtain ⟨hb₁, hb₂⟩ := inBlock_pages.mp hb
    obtain ⟨hc₁, hc₂⟩ := inBlock_pages.mp hc
    simp only at hbc
    omega
  have hfree : ∀ q ∈ s.freeBlocks, ∀ i, InBlock q i → i ∈ free := fun q hq i hi =>
    h.free_iff.mp ⟨q, hq, hi⟩
  refine List.pairwise_append.mpr ⟨?_, h.free_apart.imp Apart.of_lt, fun r hr q hq i hri hqi => ?_⟩
  · refine List.Pairwise.perm (List.pairwise_append.mpr ⟨hsmall, hbig, ?_⟩) ht.extents.symm Apart.symm
    exact fun r hr q hq i hri hqi => hrun q hq i hqi (hinheap r hr i hri)
  · rcases List.mem_append.mp (ht.extents.mem_iff.mp hr) with hr | hr
    · exact h.pool.usedFree r (List.mem_append_left _ hr) i hri (hfree q hq i hqi)
    · exact hrun r hr i hri ((h.pool.cover i).mp (Or.inl (hfree q hq i hqi)))

theorem Blocks.integrity (h : Blocks s smalls bigs heap free l) (ht : Tracks live smalls bigs) :
    Integrity s live heap where
  circle := by
    rw [h.members]
    exact h.pool.list.round
  first := by
    rw [h.members]
    rfl
  rover := by
    rw [h.members]
    exact h.pool.list.rover
  ascending := h.free_apart
  partition := by
    have hperm := h.perm_blocks ht
    refine ⟨?_, fun i => ?_⟩
    · refine List.Pairwise.perm (List.pairwise_append.mpr ⟨h.free_apart.imp Apart.of_lt,
        h.pool.usedApart, fun r hr q hq i hi hqi => ?_⟩) hperm.symm Apart.symm
      exact h.pool.usedFree q hq i hqi (h.free_iff.mp ⟨r, hr, hi⟩)
    · rw [← h.pool.cover i, ← h.free_iff]
      simp only [hperm.mem_iff, List.mem_append, or_and_right, exists_or]
      rfl
  pages := h.pool.out.trans (ht.runs.symm.append_left _)
  disjoint := h.disjoint ht
  units := fun r hr hsmall => by
    have hmem := ht.filter_small.mem_iff.mp (List.mem_filter.mpr ⟨hr, hsmall⟩)
    obtain ⟨q, hq, rfl⟩ := List.mem_map.mp hmem
    exact h.headers q hq
  bigblocks := by
    have hsame : (bigs.map BigBlock.addr).map (fun bb => (s.pages bb, s.order bb)) =
        bigs.map fun b => (b.page, b.order) := by
      rw [List.map_map]
      refine List.map_congr_left fun b hb => ?_
      obtain ⟨_, hpage, horder⟩ := h.chain.mem hb
      exact Prod.ext hpage horder
    rw [h.entries, hsame]
    exact ht.runs.symm
  distinct := by
    obtain ⟨hlive, _, _⟩ := List.pairwise_append.mp (h.disjoint ht)
    rw [List.pairwise_map] at hlive
    refine List.pairwise_map.mpr (hlive.imp_of_mem fun hr hq hapart he => ?_)
    exact hapart _ (ht.pointer hr) (he ▸ ht.pointer hq)

-- The heap keeps its integrity, every operation returns, and kfree gives back what was
-- granted.
theorem slob_integrity {t : State} (h : Reachable t) :
    (∃ heap, Integrity t.heap t.live heap) ∧
      (∀ op, Permitted t op → ∃ t', step t op = .ok t') ∧
      ∀ r ∈ t.live, ∃ s', kfree t.heap r.1 = .ok s' ∧ Returned t.heap s' r := by
  refine ⟨?_, fun op hop => ?_, fun r hr => ?_⟩
  · obtain ⟨smalls, bigs, heap, free, l, hb, ht⟩ := h.inv
    exact ⟨heap, hb.integrity ht⟩
  · obtain ⟨t', ht', _⟩ := step_inv h.inv hop
    exact ⟨t', ht'⟩
  · obtain ⟨smalls, bigs, heap, free, l, hb, ht⟩ := h.inv
    obtain ⟨s', hk, hret, _⟩ := kfree_inv hb ht (List.perm_cons_erase hr)
    exact ⟨s', hk, hret⟩

instance (t : State) (op : Op) : Decidable (Permitted t op) :=
  match op with
  | .kmalloc size _ => inferInstanceAs (Decidable ((1 ≤ size ∧ size ≤ 4063) ∨ 4080 ≤ size))
  | .kfree block => inferInstanceAs (Decidable (∃ r ∈ t.live, r.1 = block))
  | .write r _ _ => inferInstanceAs (Decidable (r ∈ t.live))

-- The state after these operations, if they are permitted and return.
def after : State → List Op → Option State
  | t, [] => some t
  | t, op :: ops =>
      if Permitted t op then
        match step t op with
        | .ok t' => after t' ops
        | .error _ => none
      else none

theorem Reachable.after {t t' : State} {ops : List Op} (h : Reachable t)
    (ht : after t ops = some t') : Reachable t' := by
  induction ops generalizing t with
  | nil =>
      cases ht
      exact h
  | cons op ops ih =>
      rw [Slob.after] at ht
      split at ht
      · rename_i hop
        cases hstep : Slob.step t op with
        | error e =>
            rw [hstep] at ht
            cases ht
        | ok t₁ =>
            rw [hstep] at ht
            exact ih (h.step hop hstep) ht
      · cases ht

def startState : State where
  heap :=
    { lo := fun i => if i = 64 then 1 else 0
      hi := fun i => if i = 64 then 64 else 0
      arena := 64
      slobfree := 64
      bigblocks := NULL
      out := []
      supply := [] }
  live := []

-- The second page lies behind the first, and the second object starts with it.
def pageRun : List Op :=
  [.kmalloc 4063 [some 4096], .kmalloc 100 [some 8192], .write (8192, 100) (fun _ => 7) fun _ => 7,
    .kmalloc 4080 [some 12288]]

theorem slob_integrity_page : ∃ t : State, t.live = [(12288, 4080), (8192, 100), (4112, 4063)] ∧
    (∃ heap, Integrity t.heap t.live heap) ∧
      ∃ s', kfree t.heap 8192 = .ok s' ∧ Returned t.heap s' (8192, 100) := by
  have hlive : (after startState pageRun).map State.live =
      some [(12288, 4080), (8192, 100), (4112, 4063)] := by decide +kernel
  obtain ⟨t, ht, hl⟩ := Option.map_eq_some_iff.mp hlive
  have hreach : Reachable t := Reachable.after (.init ⟨rfl, rfl, rfl, rfl, rfl, rfl⟩) ht
  have hr : (8192, 100) ∈ t.live := by
    rw [hl]
    decide
  exact ⟨t, hl, (slob_integrity hreach).1, (slob_integrity hreach).2.2 _ hr⟩

end Ucore.Slob
