import Ucore.Mm.Teardown

namespace Ucore.Mm

open Lib Pmm

variable {vm vm' : VM} {managed : Finset Nat} {role role' : Nat → Role} {mem : Nat → Words} {i j p r J : Nat}
  {vmas : List VmaStruct}

-- The page `p` is the root table `r` or one of the tables below it.
def TableOf (mem : Nat → Words) (r p : Nat) : Prop :=
  p = r ∨ (∃ i < 511, mem r i = pde p) ∨ ∃ d, (∃ i < 511, mem r i = pde d) ∧ ∃ j < 512, mem d j = pde p

-- The page table `J` below the root `r`, counted through the directories
def PageTable (mem : Nat → Words) (r J : Nat) : Prop :=
  ∃ d, (J / 512 < 511 ∧ mem r (J / 512) = pde d) ∧ ∃ t, mem d (J % 512) = pde t

-- In each directory the first vma whose page tables are all there finds no others left.
def TidySpace (mem : Nat → Words) (r : Nat) (vmas : List VmaStruct) : Prop :=
  ∀ i < 511, (∃ d, mem r i = pde d) →
    Tidy (fun J => J / 512 = i ∧ PageTable mem r J) (vmas.map (VmaStruct.slot i))

-- The root table that a table belongs to
inductive Under (role : Nat → Role) (r : Nat) : Nat → Prop
  | root : role r = .root → Under role r r
  | dir {d i : Nat} : role d = .dir r i → Under role r d
  | table {t d i j : Nat} : role d = .dir r i → role t = .table d j → Under role r t

theorem Under.node (h : Under role r p) : (role p).isNode := by
  cases h with
  | root hp => rw [hp]; rfl
  | dir hp => rw [hp]; rfl
  | table _ hp => rw [hp]; rfl

theorem Under.unique {r' : Nat} (h : Under role r p) (h' : Under role r' p) : r = r' := by
  cases h with
  | root hp =>
      cases h' with
      | root _ => rfl
      | dir hp' => rw [hp] at hp'; cases hp'
      | table _ hp' => rw [hp] at hp'; cases hp'
  | dir hp =>
      cases h' with
      | root hp' => rw [hp] at hp'; cases hp'
      | dir hp' => rw [hp] at hp'; cases hp'; rfl
      | table _ hp' => rw [hp] at hp'; cases hp'
  | table hd hp =>
      cases h' with
      | root hp' => rw [hp] at hp'; cases hp'
      | dir hp' => rw [hp] at hp'; cases hp'
      | table hd' hp' =>
          rw [hp] at hp'
          cases hp'
          rw [hd] at hd'
          cases hd'
          rfl

namespace Tree

theorem root_pde (h : Tree mem role) (hr : role r = .root) (hi : i < 511) : mem r i = pde p ↔ role p = .dir r i := by
  constructor
  · intro he
    rcases h.rootEntry hr hi with h0 | ⟨_, d, hd, hrole⟩
    · rw [he] at h0
      exact absurd h0 pde_ne_zero
    · rwa [pde_inj (he.symm.trans hd)]
  · exact fun hp => (h.dirUp hp).2.2

theorem dir_pde (h : Tree mem role) {d : Nat} (hd : role d = .dir r i) (hj : j < 512) :
    mem d j = pde p ↔ role p = .table d j := by
  constructor
  · intro he
    rcases h.dirEntry hd hj with h0 | ⟨t, ht, hrole⟩
    · rw [he] at h0
      exact absurd h0 pde_ne_zero
    · rwa [pde_inj (he.symm.trans ht)]
  · exact fun hp => (h.tableUp hp).2.2

theorem pageTable_iff (h : Tree mem role) (hr : role r = .root) : PageTable mem r J ↔ HasTable role r J := by
  constructor
  · rintro ⟨d, ⟨hJ, hd⟩, t, ht⟩
    have hd := (h.root_pde hr hJ).mp hd
    exact ⟨d, t, hd, (h.dir_pde hd (Nat.mod_lt _ (by decide))).mp ht⟩
  · rintro ⟨d, t, hd, ht⟩
    have hJ := (h.dirUp hd).2.1
    exact ⟨d, ⟨by omega, (h.dirUp hd).2.2⟩, t, (h.tableUp ht).2.2⟩

theorem tableOf_iff (h : Tree mem role) (hr : role r = .root) : TableOf mem r p ↔ Under role r p := by
  constructor
  · rintro (rfl | ⟨i, hi, hp⟩ | ⟨d, ⟨i, hi, hd⟩, j, hj, hp⟩)
    · exact .root hr
    · exact .dir ((h.root_pde hr hi).mp hp)
    · have hd := (h.root_pde hr hi).mp hd
      exact .table hd ((h.dir_pde hd hj).mp hp)
  · intro hp
    cases hp with
    | root => exact Or.inl rfl
    | dir hp =>
        have hi := (h.dirUp hp).2.1
        exact Or.inr (Or.inl ⟨_, by omega, (h.dirUp hp).2.2⟩)
    | table hd hp =>
        have hi := (h.dirUp hd).2.1
        exact Or.inr (Or.inr ⟨_, ⟨_, by omega, (h.dirUp hd).2.2⟩, _, (h.tableUp hp).2.1, (h.tableUp hp).2.2⟩)

end Tree

-- The tables are given back, all of them, if the address space is tidy.
theorem TornDown.tables (h : TornDown vm vm' role role' r vmas) (htree : Tree vm.mem role) (hr : role r = .root) :
    (∀ p, Under role r p → role' p = .free) ↔ TidySpace vm.mem r vmas := by
  have hslot : ∀ i, (fun J => J / 512 = i ∧ PageTable vm.mem r J) = slotTables role r i := by
    intro i
    funext J
    exact propext (and_congr_right fun _ => htree.pageTable_iff hr)
  constructor
  · rintro hall i hi ⟨d, hd⟩
    have hrole := (htree.root_pde hr hi).mp hd
    rw [hslot, h.tidy d i hrole]
    exact ⟨hall d (.dir hrole), fun t j ht => hall t (.table hrole ht)⟩
  · intro htidy p hp
    have hdir : ∀ {d i}, role d = .dir r i → role' d = .free ∧ ∀ t j, role t = .table d j → role' t = .free := by
      intro d i hd
      have hi := (htree.dirUp hd).2.1
      rw [← h.tidy d i hd, ← hslot]
      exact htidy i (by omega) ⟨d, (htree.dirUp hd).2.2⟩
    cases hp with
    | root => exact h.root
    | dir hd => exact (hdir hd).1
    | table hd ht => exact (hdir hd).2 p _ ht

-- A frame is in use as long as a leaf points to it.
theorem Rep.mapped (h : Rep vm managed role none) (hp : role p = .frame) :
    ∃ q v lf, role q = .root ∧ v < UPAGES ∧ leaf vm.mem q v = some lf ∧ lf.frame = p := by
  obtain ⟨⟨q, v⟩, hin, hf⟩ := count_pos.mp (h.used p hp)
  unfold frameAt at hf
  split_ifs at hf with hq
  obtain ⟨lf, hlf, he⟩ := Option.map_eq_some_iff.mp hf
  exact ⟨q, v, lf, hq, Finset.mem_range.mp (Finset.mem_product.mp hin).2, hlf, he⟩

-- The page `p` lies in a block of the free list.
def OnFreeList (area : FreeArea) (p : Nat) : Prop :=
  ∃ b ∈ area.members, b ≤ p ∧ p < b + (area.pages b).property

instance onFreeList_decidable (area : FreeArea) (p : Nat) : Decidable (OnFreeList area p) :=
  inferInstanceAs (Decidable (∃ b ∈ area.members, b ≤ p ∧ p < b + (area.pages b).property))

theorem onFreeList_iff {free : Finset Nat} {l : List Nat} {area : FreeArea} (h : FreeList area managed free l) :
    OnFreeList area p ↔ p ∈ free := by
  rw [OnFreeList, h.members_eq, h.runs.mem]
  constructor
  · rintro ⟨b, hb, hlo, hhi⟩
    exact ⟨(b, (area.pages b).property), mem_blocks.mpr ⟨hb, rfl⟩, hlo, hhi⟩
  · rintro ⟨b, hb, hlo, hhi⟩
    obtain ⟨hmem, hsize⟩ := mem_blocks.mp hb
    rw [← hsize] at hhi
    exact ⟨b.1, hmem, hlo, hhi⟩

end Ucore.Mm
