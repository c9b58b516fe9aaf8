import Ucore.Mm.Pte

namespace Ucore.Mm

-- The number of pages below USERTOP, and the indices of page `v` in the three levels
def UPAGES : Nat := 524288

def dirIx (v : Nat) : Nat := v / 262144
def tabIx (v : Nat) : Nat := v / 512 % 512
def pteIx (v : Nat) : Nat := v % 512

-- The table that a directory entry points to, and the leaf in an entry of a page table
def subTable (w : Nat) : Option Nat := if w &&& PTE_V = 0 then none else some (PPN (PTE_ADDR w) - nbase)

def decode (w : Nat) : Option Leaf :=
  if w &&& PTE_V = 0 then none else some ⟨PPN (PTE_ADDR w) - nbase, w % 1024⟩

-- The page table for page `v` below the root `r`, and the leaf in it
def tabAt (mem : Nat → Words) (r v : Nat) : Option Nat :=
  (subTable (mem r (dirIx v))).bind fun d => subTable (mem d (tabIx v))

def leaf (mem : Nat → Words) (r v : Nat) : Option Leaf :=
  (tabAt mem r v).bind fun t => decode (mem t (pteIx v))

def Leaf.Valid (lf : Leaf) : Prop := lf.perm < 1024 ∧ lf.perm &&& PTE_V ≠ 0

-- What a page is used for. A page is held between alloc_pages and its use; a lost one is
-- a table that no directory points to any more.
inductive Role
  | free
  | other
  | held
  | lost
  | heap
  | kstack (base : Nat)
  | frame
  | root
  | dir (root i : Nat)
  | table (dir j : Nat)
  deriving DecidableEq

def Role.isNode : Role → Bool
  | .root => true
  | .dir _ _ => true
  | .table _ _ => true
  | _ => false

-- The entries of the tables follow the roles of the pages.
structure Tree (mem : Nat → Words) (role : Nat → Role) : Prop where
  bound : ∀ {p}, role p ≠ .other → p < 4294967296
  rootEntry : ∀ {r i}, role r = .root → i < 511 →
    mem r i = 0 ∨ i < 2 ∧ ∃ d, mem r i = pde d ∧ role d = .dir r i
  dirUp : ∀ {d r i}, role d = .dir r i → role r = .root ∧ i < 2 ∧ mem r i = pde d
  dirEntry : ∀ {d r i j}, role d = .dir r i → j < 512 →
    mem d j = 0 ∨ ∃ t, mem d j = pde t ∧ role t = .table d j
  tableUp : ∀ {t d j}, role t = .table d j →
    (∃ r i, role d = .dir r i) ∧ j < 512 ∧ mem d j = pde t
  tableEntry : ∀ {t d j k}, role t = .table d j → k < 512 →
    mem t k = 0 ∨ ∃ lf : Leaf, mem t k = lf.pte ∧ lf.Valid ∧ role lf.frame = .frame

variable {mem mem' : Nat → Words} {role role' : Nat → Role} {r d t p q i j k u v w : Nat} {lf : Leaf}
  {X : Nat → Prop}

theorem ix_inj (hd : dirIx v = dirIx w) (ht : tabIx v = tabIx w) (hp : pteIx v = pteIx w) :
    v = w := by
  unfold dirIx tabIx pteIx at *
  omega

theorem tabIx_lt : tabIx v < 512 := Nat.mod_lt _ (by decide)

theorem pteIx_lt : pteIx v < 512 := Nat.mod_lt _ (by decide)

theorem dirIx_lt (h : v < UPAGES) : dirIx v < 2 := by
  unfold dirIx UPAGES at *
  omega

@[simp] theorem subTable_zero : subTable 0 = none := by decide

@[simp] theorem decode_zero : decode 0 = none := by decide

theorem subTable_pde (h : d < 4294967296) : subTable (pde d) = some d := by
  rw [subTable, if_neg pde_valid, PPN_PTE_ADDR_pde h]
  exact congrArg some (Nat.add_sub_cancel ..)

theorem decode_pte (h : lf.Valid) (hf : lf.frame < 4294967296) : decode lf.pte = some lf := by
  have hppn := PPN_PTE_ADDR h.1 hf
  have hv : lf.pte &&& PTE_V ≠ 0 := by
    rw [Leaf.pte_and h.1 (by decide)]
    exact h.2
  have hperm : lf.pte % 1024 = lf.perm := by
    have := h.1
    unfold Leaf.pte
    omega
  rw [decode, if_neg hv, hppn, hperm, Nat.add_sub_cancel]

namespace Tree

theorem subTable_root (h : Tree mem role) (hr : role r = .root) (hi : i < 2) :
    subTable (mem r i) = some d ↔ role d = .dir r i := by
  constructor
  · intro hs
    rcases h.rootEntry hr (show i < 511 by omega) with h0 | ⟨_, d', hd', hrole⟩
    · rw [h0] at hs
      cases hs
    · rw [hd', subTable_pde (h.bound (by rw [hrole]; simp))] at hs
      cases hs
      exact hrole
  · intro hd
    rw [(h.dirUp hd).2.2]
    exact subTable_pde (h.bound (by rw [hd]; simp))

theorem subTable_dir (h : Tree mem role) (hd : role d = .dir r i) (hj : j < 512) :
    subTable (mem d j) = some t ↔ role t = .table d j := by
  constructor
  · intro hs
    rcases h.dirEntry hd hj with h0 | ⟨t', ht', hrole⟩
    · rw [h0] at hs
      cases hs
    · rw [ht', subTable_pde (h.bound (by rw [hrole]; simp))] at hs
      cases hs
      exact hrole
  · intro ht
    rw [(h.tableUp ht).2.2]
    exact subTable_pde (h.bound (by rw [ht]; simp))

theorem tabAt_iff (h : Tree mem role) (hr : role r = .root) (hv : v < UPAGES) :
    tabAt mem r v = some t ↔ ∃ d, role d = .dir r (dirIx v) ∧ role t = .table d (tabIx v) := by
  unfold tabAt
  rw [Option.bind_eq_some_iff]
  constructor
  · rintro ⟨d, hd, ht⟩
    have hd' := (h.subTable_root hr (dirIx_lt hv)).mp hd
    exact ⟨d, hd', (h.subTable_dir hd' tabIx_lt).mp ht⟩
  · rintro ⟨d, hd, ht⟩
    exact ⟨d, (h.subTable_root hr (dirIx_lt hv)).mpr hd, (h.subTable_dir hd tabIx_lt).mpr ht⟩

theorem decode_eq (h : Tree mem role) (ht : role t = .table d j) (hk : k < 512) :
    decode (mem t k) = some lf ↔ mem t k = lf.pte ∧ lf.Valid ∧ role lf.frame = .frame := by
  constructor
  · intro hs
    rcases h.tableEntry ht hk with h0 | ⟨lf', he, hvalid, hf⟩
    · rw [h0] at hs
      cases hs
    · rw [he, decode_pte hvalid (h.bound (by rw [hf]; simp))] at hs
      cases hs
      exact ⟨he, hvalid, hf⟩
  · rintro ⟨he, hvalid, hf⟩
    rw [he]
    exact decode_pte hvalid (h.bound (by rw [hf]; simp))

theorem leaf_iff (h : Tree mem role) (hr : role r = .root) (hv : v < UPAGES) :
    leaf mem r v = some lf ↔ ∃ d t, role d = .dir r (dirIx v) ∧ role t = .table d (tabIx v) ∧
      mem t (pteIx v) = lf.pte ∧ lf.Valid ∧ role lf.frame = .frame := by
  unfold leaf
  rw [Option.bind_eq_some_iff]
  constructor
  · rintro ⟨t, ht, hl⟩
    obtain ⟨d, hd, ht⟩ := (h.tabAt_iff hr hv).mp ht
    exact ⟨d, t, hd, ht, (h.decode_eq ht pteIx_lt).mp hl⟩
  · rintro ⟨d, t, hd, ht, hl⟩
    exact ⟨t, (h.tabAt_iff hr hv).mpr ⟨d, hd, ht⟩, (h.decode_eq ht pteIx_lt).mpr hl⟩

-- A page that is no table may be written.
theorem congr (h : Tree mem role) (hmem : ∀ p, (role p).isNode → mem' p = mem p) :
    Tree mem' role := by
  have hroot : ∀ r, role r = .root → mem' r = mem r := fun r hr => hmem r (by rw [hr]; rfl)
  have hdir : ∀ d r i, role d = .dir r i → mem' d = mem d := fun d r i hd => hmem d (by rw [hd]; rfl)
  have htab : ∀ t d j, role t = .table d j → mem' t = mem t := fun t d j ht => hmem t (by rw [ht]; rfl)
  refine ⟨h.bound, fun hr hi => ?_, fun hd => ?_, fun hd hj => ?_, fun ht => ?_, fun ht hk => ?_⟩
  · rw [hroot _ hr]
    exact h.rootEntry hr hi
  · rw [hroot _ (h.dirUp hd).1]
    exact h.dirUp hd
  · rw [hdir _ _ _ hd]
    exact h.dirEntry hd hj
  · obtain ⟨⟨r, i, hd⟩, _⟩ := h.tableUp ht
    rw [hdir _ _ _ hd]
    exact h.tableUp ht
  · rw [htab _ _ _ ht]
    exact h.tableEntry ht hk

end Tree

theorem pde_ne_zero : pde p ≠ 0 := by
  intro h
  have hv := pde_valid (p := p)
  rw [h] at hv
  exact hv rfl

theorem Leaf.pte_ne_zero (h : lf.Valid) : lf.pte ≠ 0 := by
  intro h0
  have hv := Leaf.pte_and h.1 (show PTE_V < 1024 by decide)
  rw [h0, Nat.zero_and] at hv
  exact h.2 hv.symm

-- A held page becomes a directory below the root `r`.
structure AddDir (mem mem' : Nat → Words) (role role' : Nat → Role) (r i p : Nat) : Prop where
  root : role r = .root
  index : i < 2
  empty : mem r i = 0
  held : role p = .held
  page : ∀ k, mem' p k = 0
  entry : ∀ k, mem' r k = if k = i then pde p else mem r k
  rest : ∀ q, q ≠ p → q ≠ r → mem' q = mem q
  role : ∀ q, role' q = if q = p then .dir r i else role q

-- A held page becomes a page table below the directory `d`.
structure AddTable (mem mem' : Nat → Words) (role role' : Nat → Role) (d j p : Nat) : Prop where
  dir : ∃ r i, role d = .dir r i
  index : j < 512
  empty : mem d j = 0
  held : role p = .held
  page : ∀ k, mem' p k = 0
  entry : ∀ k, mem' d k = if k = j then pde p else mem d k
  rest : ∀ q, q ≠ p → q ≠ d → mem' q = mem q
  role : ∀ q, role' q = if q = p then .table d j else role q

theorem AddDir.tree (a : AddDir mem mem' role role' r i p) (h : Tree mem role) : Tree mem' role' := by
  obtain ⟨hr, hi, hempty, hp, hself, hentry, hrest, hrole⟩ := a
  have hsame : ∀ q k, q ≠ p → q ≠ r → mem' q k = mem q k := fun q k h₁ h₂ => by rw [hrest q h₁ h₂]
  refine ⟨?_, ?_, ?_, ?_, ?_, ?_⟩
  · intro q hq
    have := h.bound (p := q)
    grind
  · intro r' i' hr' hi'
    have := h.rootEntry (r := r') (i := i')
    grind
  · intro d' r' i' hd'
    have := h.dirUp (d := d') (r := r') (i := i')
    grind [pde_ne_zero]
  · intro d' r' i' j hd' hj
    have := h.dirEntry (d := d') (r := r') (i := i') (j := j)
    grind
  · intro t d' j ht
    have := h.tableUp (t := t) (d := d') (j := j)
    grind
  · intro t d' j k ht hk
    have := h.tableEntry (t := t) (d := d') (j := j) (k := k)
    grind

theorem AddTable.tree (a : AddTable mem mem' role role' d j p) (h : Tree mem role) : Tree mem' role' := by
  obtain ⟨⟨r, i, hd⟩, hj, hempty, hp, hself, hentry, hrest, hrole⟩ := a
  have hsame : ∀ q k, q ≠ p → q ≠ d → mem' q k = mem q k := fun q k h₁ h₂ => by rw [hrest q h₁ h₂]
  refine ⟨?_, ?_, ?_, ?_, ?_, ?_⟩
  · intro q hq
    have := h.bound (p := q)
    grind
  · intro r' i' hr' hi'
    have := h.rootEntry (r := r') (i := i')
    grind
  · intro d' r' i' hd'
    have := h.dirUp (d := d') (r := r') (i := i')
    grind
  · intro d' r' i' j hd' hj
    have := h.dirEntry (d := d') (r := r') (i := i') (j := j)
    grind
  · intro t d' j ht
    have := h.tableUp (t := t) (d := d') (j := j)
    grind [pde_ne_zero]
  · intro t d' j k ht hk
    have := h.tableEntry (t := t) (d := d') (j := j) (k := k)
    grind

theorem AddDir.leaf (a : AddDir mem mem' role role' r i p) (h : Tree mem role) (hq : role q = .root)
    (hv : v < UPAGES) : leaf mem' q v = leaf mem q v := by
  have h' := a.tree h
  obtain ⟨hr, hi, hempty, hp, hself, hentry, hrest, hrole⟩ := a
  have hq' : role' q = .root := by grind
  refine Option.ext fun lf => ?_
  rw [h.leaf_iff hq hv, h'.leaf_iff hq' hv]
  constructor
  · rintro ⟨d, t, hd, ht, hm, hl, hf⟩
    have := h.tableUp (t := t) (d := d) (j := tabIx v)
    exact ⟨d, t, by grind⟩
  · rintro ⟨d, t, hd, ht, hm, hl, hf⟩
    exact ⟨d, t, by grind⟩

theorem AddTable.leaf (a : AddTable mem mem' role role' d j p) (h : Tree mem role) (hq : role q = .root)
    (hv : v < UPAGES) : leaf mem' q v = leaf mem q v := by
  have h' := a.tree h
  obtain ⟨⟨r, i, hd⟩, hj, hempty, hp, hself, hentry, hrest, hrole⟩ := a
  have hq' : role' q = .root := by grind
  refine Option.ext fun lf => ?_
  rw [h.leaf_iff hq hv, h'.leaf_iff hq' hv]
  constructor
  · rintro ⟨d', t, hd', ht, hm, hl, hf⟩
    have := lf.pte_ne_zero hl
    exact ⟨d', t, by grind⟩
  · rintro ⟨d', t, hd', ht, hm, hl, hf⟩
    exact ⟨d', t, by grind⟩

-- The entry for page `v` below `r` in the page table `t` is set to `w`.
structure SetLeaf (mem mem' : Nat → Words) (role : Nat → Role) (r v d t w : Nat) : Prop where
  dir : role d = .dir r (dirIx v)
  table : role t = .table d (tabIx v)
  value : w = 0 ∨ ∃ lf : Leaf, w = lf.pte ∧ lf.Valid ∧ role lf.frame = .frame
  entry : ∀ k, mem' t k = if k = pteIx v then w else mem t k
  rest : ∀ q, q ≠ t → mem' q = mem q

-- The tables in `X` are given up: the entries that point to them are cleared.
structure Prune (mem mem' : Nat → Words) (role role' : Nat → Role) (X : Nat → Prop) : Prop where
  node : ∀ p, X p → (role p).isNode
  gone : ∀ p, X p → role' p ≠ .frame ∧ (role' p).isNode = false
  keep : ∀ p, ¬X p → role' p = role p
  dirDown : ∀ d r i, role d = .dir r i → X r → X d
  tabDown : ∀ t d j, role t = .table d j → X d → X t
  cutDir : ∀ d r i, role d = .dir r i → X d → ¬X r → mem' r i = 0
  cutTab : ∀ t d j, role t = .table d j → X t → ¬X d → mem' d j = 0
  root : ∀ r i, role r = .root → ¬X r → (∀ d, role d = .dir r i → ¬X d) → mem' r i = mem r i
  dir : ∀ d r i j, role d = .dir r i → ¬X d → (∀ t, role t = .table d j → ¬X t) → mem' d j = mem d j
  table : ∀ t d j k, role t = .table d j → ¬X t → mem' t k = mem t k

theorem SetLeaf.tree (a : SetLeaf mem mem' role r v d t w) (h : Tree mem role) : Tree mem' role := by
  obtain ⟨hd, ht, hw, hentry, hrest⟩ := a
  have hsame : ∀ q k, q ≠ t → mem' q k = mem q k := fun q k h₁ => by rw [hrest q h₁]
  refine ⟨h.bound, ?_, ?_, ?_, ?_, ?_⟩
  · intro r' i' hr' hi'
    have := h.rootEntry hr' hi'
    grind
  · intro d' r' i' hd'
    have := h.dirUp hd'
    grind
  · intro d' r' i' j hd' hj
    have := h.dirEntry hd' hj
    grind
  · intro t' d' j ht'
    have := h.tableUp ht'
    grind
  · intro t' d' j k ht' hk
    have := h.tableEntry ht' hk
    grind

theorem SetLeaf.leaf_self (a : SetLeaf mem mem' role r v d t w) (h : Tree mem role) (hv : v < UPAGES) :
    leaf mem' r v = decode w := by
  have h' := a.tree h
  have hr := (h.dirUp a.dir).1
  have htab := (h'.tabAt_iff hr hv).mpr ⟨d, a.dir, a.table⟩
  rw [leaf, htab, Option.bind_some, a.entry, if_pos rfl]

theorem SetLeaf.leaf_other (a : SetLeaf mem mem' role r v d t w) (h : Tree mem role) (hq : role q = .root)
    (hu : u < UPAGES) (hne : q ≠ r ∨ u ≠ v) : leaf mem' q u = leaf mem q u := by
  have h' := a.tree h
  obtain ⟨hd, ht, hw, hentry, hrest⟩ := a
  refine Option.ext fun lf => ?_
  rw [h.leaf_iff hq hu, h'.leaf_iff hq hu]
  have hix := @ix_inj u v
  constructor
  · rintro ⟨d', t', hd', ht', hm, hl, hf⟩
    exact ⟨d', t', by grind⟩
  · rintro ⟨d', t', hd', ht', hm, hl, hf⟩
    exact ⟨d', t', by grind⟩

theorem Tree.dir_unique (h : Tree mem role) (hd : role d = .dir r i) (hp : role p = .dir r i) : d = p :=
  pde_inj ((h.dirUp hd).2.2.symm.trans (h.dirUp hp).2.2)

theorem Tree.table_unique (h : Tree mem role) (ht : role t = .table d j) (hp : role p = .table d j) :
    t = p :=
  pde_inj ((h.tableUp ht).2.2.symm.trans (h.tableUp hp).2.2)

theorem Prune.tree (a : Prune mem mem' role role' X) (h : Tree mem role) : Tree mem' role' := by
  obtain ⟨hnode, hgone, hkeep, hdd, htd, hcd, hct, hroot, hdir, htab⟩ := a
  refine ⟨?_, ?_, ?_, ?_, ?_, ?_⟩
  · intro q hq
    have := h.bound (p := q)
    have : (Role.other).isNode = false := rfl
    grind
  · intro r' i' hr' hi'
    have : (Role.root).isNode = true := rfl
    have := h.rootEntry (r := r') (i := i')
    grind
  · intro d' r' i' hd'
    have : (Role.dir r' i').isNode = true := rfl
    have hup := h.dirUp (d := d') (r := r') (i := i')
    have hone := fun p => h.dir_unique (d := d') (r := r') (i := i') (p := p)
    grind
  · intro d' r' i' j hd' hj
    have : (Role.dir r' i').isNode = true := rfl
    have := h.dirEntry (d := d') (r := r') (i := i') (j := j)
    grind
  · intro t d' j ht
    have : (Role.table d' j).isNode = true := rfl
    have := h.tableUp (t := t) (d := d') (j := j)
    have hone := fun p => h.table_unique (t := t) (d := d') (j := j) (p := p)
    grind
  · intro t d' j k ht hk
    have : (Role.table d' j).isNode = true := rfl
    have : (Role.frame).isNode = false := rfl
    have := h.tableEntry (t := t) (d := d') (j := j) (k := k)
    grind

-- A page that is not below a root in `X` loses the leaves in tables of `X`.
theorem Prune.leaf (a : Prune mem mem' role role' X) (h : Tree mem role) (hr : role r = .root) (hx : ¬X r)
    (hv : v < UPAGES) :
    leaf mem' r v = leaf mem r v ∨ leaf mem' r v = none ∧ ∃ t, tabAt mem r v = some t ∧ X t := by
  have h' := a.tree h
  have hr' : role' r = .root := (a.keep r hx).trans hr
  by_cases hex : ∃ t, tabAt mem r v = some t ∧ X t
  · refine Or.inr ⟨?_, hex⟩
    obtain ⟨t, ht, hxt⟩ := hex
    obtain ⟨d, hd, ht⟩ := (h.tabAt_iff hr hv).mp ht
    rw [Option.eq_none_iff_forall_ne_some]
    intro lf hlf
    obtain ⟨d', t', hd', ht', _⟩ := (h'.leaf_iff hr' hv).mp hlf
    obtain ⟨hnode, hgone, hkeep, hdd, htd, hcd, hct, hroot, hdir, htab⟩ := a
    have : (Role.dir r (dirIx v)).isNode = true := rfl
    have : (Role.table d' (tabIx v)).isNode = true := rfl
    have hone := fun p => h.table_unique (t := t) (d := d) (j := tabIx v) (p := p)
    have hone := fun p => h.dir_unique (d := d) (r := r) (i := dirIx v) (p := p)
    grind
  · left
    refine Option.ext fun lf => ?_
    rw [h.leaf_iff hr hv, h'.leaf_iff hr' hv]
    have htab : ∀ d t, role d = .dir r (dirIx v) → role t = .table d (tabIx v) → ¬X t := by
      intro d t hd ht hxt
      exact hex ⟨t, (h.tabAt_iff hr hv).mpr ⟨d, hd, ht⟩, hxt⟩
    obtain ⟨hnode, hgone, hkeep, hdd, htd, hcd, hct, hroot, hdir, htabs⟩ := a
    constructor
    · rintro ⟨d, t, hd, ht, hm, hl, hf⟩
      have : (Role.dir r (dirIx v)).isNode = true := rfl
      have : (Role.table d (tabIx v)).isNode = true := rfl
      have : (Role.frame).isNode = false := rfl
      exact ⟨d, t, by grind⟩
    · rintro ⟨d, t, hd, ht, hm, hl, hf⟩
      have : (Role.frame).isNode = false := rfl
      have hxt := htab d t hd ht
      exact ⟨d, t, by grind⟩

-- A page that the tables have nothing to do with
def Role.isPlain (ρ : Role) : Bool := !ρ.isNode && ρ != .frame

-- A held page becomes a root table.
structure AddRoot (mem mem' : Nat → Words) (role role' : Nat → Role) (p : Nat) : Prop where
  held : role p = .held
  page : mem' p = bootPageTable
  rest : ∀ q, q ≠ p → mem' q = mem q
  role : ∀ q, role' q = if q = p then .root else role q

theorem AddRoot.tree (a : AddRoot mem mem' role role' p) (h : Tree mem role) : Tree mem' role' := by
  obtain ⟨hp, hpage, hrest, hrole⟩ := a
  have hsame : ∀ q k, q ≠ p → mem' q k = mem q k := fun q k h₁ => by rw [hrest q h₁]
  have hboot : ∀ i < 511, mem' p i = 0 := fun i hi => by
    rw [hpage]
    exact if_neg (by omega)
  refine ⟨?_, ?_, ?_, ?_, ?_, ?_⟩
  · intro q hq
    have := h.bound (p := q)
    grind
  · intro r' i' hr' hi'
    have := h.rootEntry (r := r') (i := i')
    grind
  · intro d' r' i' hd'
    have := h.dirUp (d := d') (r := r') (i := i')
    grind
  · intro d' r' i' j hd' hj
    have := h.dirEntry (d := d') (r := r') (i := i') (j := j)
    grind
  · intro t d' j ht
    have := h.tableUp (t := t) (d := d') (j := j)
    grind
  · intro t d' j k ht hk
    have := h.tableEntry (t := t) (d := d') (j := j) (k := k)
    grind

theorem AddRoot.leaf_self (a : AddRoot mem mem' role role' p) (hv : v < UPAGES) : leaf mem' p v = none := by
  have hi := dirIx_lt hv
  have hzero : bootPageTable (dirIx v) = 0 := if_neg (by omega)
  rw [leaf, tabAt, a.page, hzero]
  rfl

theorem AddRoot.leaf_other (a : AddRoot mem mem' role role' p) (h : Tree mem role) (hq : role q = .root)
    (hv : v < UPAGES) : leaf mem' q v = leaf mem q v := by
  have h' := a.tree h
  obtain ⟨hp, hpage, hrest, hrole⟩ := a
  have hq' : role' q = .root := by grind
  refine Option.ext fun lf => ?_
  rw [h.leaf_iff hq hv, h'.leaf_iff hq' hv]
  constructor
  · rintro ⟨d, t, hd, ht, hm, hl, hf⟩
    exact ⟨d, t, by grind⟩
  · rintro ⟨d, t, hd, ht, hm, hl, hf⟩
    exact ⟨d, t, by grind⟩

-- Pages that the tables have nothing to do with change their use.
theorem Tree.rerole (h : Tree mem role)
    (hsame : ∀ p, role' p = role p ∨ (role p).isPlain ∧ (role' p).isPlain)
    (hother : ∀ p, role p = .other → role' p = .other) : Tree mem role' := by
  have hkeep : ∀ p, role p = .frame ∨ (role p).isNode ∨ role' p = .frame ∨ (role' p).isNode →
      role' p = role p := by
    intro p hp
    have := hsame p
    unfold Role.isPlain at this
    grind
  have hroot : (Role.root).isNode := rfl
  have hdir : ∀ r i, (Role.dir r i).isNode := fun _ _ => rfl
  have htab : ∀ d j, (Role.table d j).isNode := fun _ _ => rfl
  refine ⟨?_, ?_, ?_, ?_, ?_, ?_⟩
  · intro q hq
    have := h.bound (p := q)
    grind
  · intro r' i' hr' hi'
    have := h.rootEntry (r := r') (i := i')
    grind
  · intro d' r' i' hd'
    have := h.dirUp (d := d') (r := r') (i := i')
    grind
  · intro d' r' i' j hd' hj
    have := h.dirEntry (d := d') (r := r') (i := i') (j := j)
    grind
  · intro t d' j ht
    have := h.tableUp (t := t) (d := d') (j := j)
    grind
  · intro t d' j k ht hk
    have := h.tableEntry (t := t) (d := d') (j := j) (k := k)
    grind

-- A page that is no table becomes a frame; a frame that no leaf maps may become anything
-- plain.
theorem Tree.reframe (h : Tree mem role) (hother : role p ≠ .other) (hp : (role p).isNode = false)
    (hrole : ∀ q, role' q = if q = p then .frame else role q) : Tree mem role' := by
  have hnot : ∀ ρ : Role, ρ.isNode → role p ≠ ρ := by
    rintro ρ hρ rfl
    rw [hp] at hρ
    cases hρ
  have hroot := hnot .root rfl
  have hdir := fun r i => hnot (.dir r i) rfl
  have htable := fun d j => hnot (.table d j) rfl
  refine ⟨?_, ?_, ?_, ?_, ?_, ?_⟩
  · intro q hq
    have := h.bound (p := q)
    grind
  · intro r' i' hr' hi'
    have := h.rootEntry (r := r') (i := i')
    grind
  · intro d' r' i' hd'
    have := h.dirUp (d := d') (r := r') (i := i')
    grind
  · intro d' r' i' j hd' hj
    have := h.dirEntry (d := d') (r := r') (i := i') (j := j)
    grind
  · intro t d' j ht
    have := h.tableUp (t := t) (d := d') (j := j)
    grind
  · intro t d' j k ht hk
    have := h.tableEntry (t := t) (d := d') (j := j) (k := k)
    grind

theorem Tree.addFrame (h : Tree mem role) (hp : role p = .held)
    (hrole : ∀ q, role' q = if q = p then .frame else role q) : Tree mem role' :=
  h.reframe (by rw [hp]; simp) (by rw [hp]; rfl) hrole

theorem Tree.dropFrame (h : Tree mem role) (hp : role p = .frame)
    (hno : ∀ q v lf, role q = .root → v < UPAGES → leaf mem q v = some lf → lf.frame ≠ p)
    (hrole : ∀ q, role' q = if q = p then .free else role q) : Tree mem role' := by
  have hnone : ∀ t d j k (lf : Leaf), role t = .table d j → k < 512 → mem t k = lf.pte → lf.Valid →
      role lf.frame = .frame → lf.frame ≠ p := by
    intro t d j k lf ht hk hm hl hf
    obtain ⟨⟨r, i, hd⟩, hj, _⟩ := h.tableUp ht
    obtain ⟨hr, hi, _⟩ := h.dirUp hd
    have hi' : dirIx (i * 262144 + j * 512 + k) = i := by
      unfold dirIx
      omega
    have hj' : tabIx (i * 262144 + j * 512 + k) = j := by
      unfold tabIx
      omega
    have hk' : pteIx (i * 262144 + j * 512 + k) = k := by
      unfold pteIx
      omega
    have hv : i * 262144 + j * 512 + k < UPAGES := by
      unfold UPAGES
      omega
    refine hno r (i * 262144 + j * 512 + k) lf hr hv ((h.leaf_iff hr hv).mpr ⟨d, t, ?_⟩)
    rw [hi', hj', hk']
    exact ⟨hd, ht, hm, hl, hf⟩
  refine ⟨?_, ?_, ?_, ?_, ?_, ?_⟩
  · intro q hq
    have := h.bound (p := q)
    grind
  · intro r' i' hr' hi'
    have := h.rootEntry (r := r') (i := i')
    grind
  · intro d' r' i' hd'
    have := h.dirUp (d := d') (r := r') (i := i')
    grind
  · intro d' r' i' j hd' hj
    have := h.dirEntry (d := d') (r := r') (i := i') (j := j)
    grind
  · intro t d' j ht
    have := h.tableUp (t := t) (d := d') (j := j)
    grind
  · intro t d' j k ht hk
    have := h.tableEntry (t := t) (d := d') (j := j) (k := k)
    have := hnone t d' j k
    grind

end Ucore.Mm
