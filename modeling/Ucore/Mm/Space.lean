import Ucore.Mm.Tables

namespace Ucore.Mm

open Lib

variable {mem : Nat → Words} {role : Nat → Role} {flags perm q r u : Nat} {lf : Leaf}
  {vmas : List VmaStruct}

def Leaf.cow (lf : Leaf) : Leaf := ⟨lf.frame, Mm.cow lf.perm⟩

-- The permissions of a leaf in a vma with these flags. A writable page that is shared has
-- PTE_COW in the place of PTE_W; pages of the stack may be executed.
structure PermOk (flags perm : Nat) : Prop where
  low : perm < 1024
  valid : perm &&& PTE_V ≠ 0
  user : perm &&& PTE_U ≠ 0
  read : perm &&& PTE_R ≠ 0 ↔ flags &&& VM_READ ≠ 0 ∨ flags &&& VM_WRITE ≠ 0
  write : perm &&& PTE_W ≠ 0 ∨ perm &&& PTE_COW ≠ 0 ↔ flags &&& VM_WRITE ≠ 0
  once : perm &&& PTE_W = 0 ∨ perm &&& PTE_COW = 0
  exec : perm &&& PTE_X ≠ 0 ↔ flags &&& VM_EXEC ≠ 0 ∨ flags &&& VM_STACK ≠ 0

-- A property of the low ten bits is checked by evaluation.
theorem forall_low {P : Nat → Prop} [DecidablePred P]
    (h : ((List.range 1024).all fun p => decide (P p)) = true) : ∀ perm < 1024, P perm :=
  fun perm hp => of_decide_eq_true (List.all_eq_true.mp h perm (List.mem_range.mpr hp))

-- The bits of `cow perm` and of `uncow perm`
theorem cow_bits : ∀ perm < 1024, cow perm < 1024 ∧ cow perm &&& PTE_W = 0 ∧
    (perm &&& PTE_V ≠ 0 → cow perm &&& PTE_V ≠ 0) ∧ cow perm &&& PTE_U = perm &&& PTE_U ∧
    cow perm &&& PTE_R = perm &&& PTE_R ∧ cow perm &&& PTE_X = perm &&& PTE_X ∧
    (cow perm &&& PTE_COW ≠ 0 ↔ perm &&& PTE_W ≠ 0 ∨ perm &&& PTE_COW ≠ 0) :=
  forall_low (by decide +kernel)

theorem uncow_bits : ∀ perm < 1024, uncow perm < 1024 ∧ uncow perm &&& PTE_W ≠ 0 ∧
    uncow perm &&& PTE_COW = 0 ∧ uncow perm &&& PTE_V = perm &&& PTE_V ∧
    uncow perm &&& PTE_U = perm &&& PTE_U ∧ uncow perm &&& PTE_R = perm &&& PTE_R ∧
    uncow perm &&& PTE_X = perm &&& PTE_X :=
  forall_low (by decide +kernel)

namespace PermOk

theorem leaf_valid (h : PermOk flags lf.perm) : lf.Valid := ⟨h.low, h.valid⟩

theorem cow (h : PermOk flags perm) : PermOk flags (Mm.cow perm) := by
  obtain ⟨hlow, hw, hv, hu, hr, hx, hcow⟩ := cow_bits perm h.low
  refine ⟨hlow, hv h.valid, ?_, ?_, ?_, Or.inl hw, ?_⟩
  · rw [hu]
    exact h.user
  · rw [hr]
    exact h.read
  · rw [hcow, hw, ← h.write]
    tauto
  · rw [hx]
    exact h.exec

theorem uncow (h : PermOk flags perm) (hwrite : flags &&& VM_WRITE ≠ 0) :
    PermOk flags (Mm.uncow perm) := by
  obtain ⟨hlow, hw, hcow, hv, hu, hr, hx⟩ := uncow_bits perm h.low
  refine ⟨hlow, ?_, ?_, ?_, ⟨fun _ => hwrite, fun _ => Or.inl hw⟩, Or.inr hcow, ?_⟩
  · rw [hv]
    exact h.valid
  · rw [hu]
    exact h.user
  · rw [hr]
    exact h.read
  · rw [hx]
    exact h.exec

end PermOk

-- What copy_range and do_pgfault write
theorem cow_insert (hw : perm &&& PTE_W ≠ 0) :
    (clearBit (perm &&& PTE_PERM) PTE_W ||| PTE_COW) ||| PTE_V = cow perm := by
  rw [cow, if_pos hw]

theorem keep_insert : ∀ perm < 1024, perm &&& PTE_V ≠ 0 → perm &&& PTE_W = 0 →
    (perm &&& PTE_PERM) ||| PTE_V = cow perm :=
  forall_low (by decide +kernel)

theorem uncow_insert : ∀ perm < 1024, perm &&& PTE_V ≠ 0 →
    clearBit ((perm &&& PTE_PERM) ||| PTE_W) PTE_COW ||| PTE_V = uncow perm :=
  forall_low (by decide +kernel)

theorem uncow_pte (hp : lf.perm < 1024) :
    clearBit lf.pte PTE_COW ||| PTE_W = (Leaf.mk lf.frame (uncow lf.perm)).pte := by
  have hbit : lf.perm &&& PTE_COW < 1024 := lt_of_le_of_lt Nat.and_le_left hp
  have hclear : clearBit lf.perm PTE_COW < 1024 := Nat.xor_lt_two_pow (n := 10) hp hbit
  have hor : clearBit lf.perm PTE_COW ||| PTE_W = uncow lf.perm := rfl
  unfold Leaf.pte
  simp only
  generalize lf.frame + nbase = n
  rw [clearBit, low_and hp (by decide), low_xor hp hbit, ← clearBit, low_or hclear (by decide), hor]

-- The address space below the root `r` belongs to these vmas.
structure Space (mem : Nat → Words) (r : Nat) (vmas : List VmaStruct) : Prop where
  ok : ∀ vma ∈ vmas, vma.Ok
  sorted : vmas.Pairwise fun a b => a.vmEnd ≤ b.vmStart
  leaf : ∀ u lf, u < UPAGES → leaf mem r u = some lf →
    ∃ vma ∈ vmas, vma.Covers u ∧ PermOk vma.vmFlags lf.perm

-- A frame with two leaves has no writable one.
def CowSafe (mem : Nat → Words) (role : Nat → Role) : Prop :=
  ∀ q u lf q' u' lf', role q = .root → role q' = .root → u < UPAGES → u' < UPAGES →
    leaf mem q u = some lf → leaf mem q' u' = some lf' → lf.frame = lf'.frame → ¬(q = q' ∧ u = u') →
    lf.perm &&& PTE_W = 0

theorem CowSafe.of_refs {managed : Finset Nat} {x : Nat × Nat} (h : CowSafe mem role)
    (hroot : ∀ q, role q = .root → q ∈ managed)
    (hx : role x.1 = .root) (hu : x.2 < UPAGES) (hlf : leaf mem x.1 x.2 = some lf)
    (hmany : 1 < refs managed mem role lf.frame) : lf.perm &&& PTE_W = 0 := by
  by_contra hw
  refine absurd hmany (not_lt.mpr (le_of_eq (refs_one hx (hroot _ hx) hu hlf fun q u lf' hq hu' hlf' he => ?_)))
  by_contra hne
  exact hw (h x.1 x.2 lf q u lf' hx hq hu hu' hlf hlf' he.symm fun hno => hne ⟨hno.1.symm, hno.2.symm⟩)

-- Vmas that overlap are one.
theorem Space.unique (h : Space mem r vmas) {a b : VmaStruct} (ha : a ∈ vmas) (hb : b ∈ vmas)
    (hca : a.Covers u) (hcb : b.Covers u) : a = b := by
  have htri : ∀ {l : List VmaStruct}, l.Pairwise (fun a b => a.vmEnd ≤ b.vmStart) → a ∈ l → b ∈ l →
      a = b := by
    intro l hl
    induction hl with
    | nil => simp
    | cons hhead _ ih =>
        intro ha hb
        unfold VmaStruct.Covers at hca hcb
        rcases List.mem_cons.mp ha with rfl | ha'
        · rcases List.mem_cons.mp hb with rfl | hb'
          · rfl
          · have := hhead b hb'
            omega
        · rcases List.mem_cons.mp hb with rfl | hb'
          · have := hhead a ha'
            omega
          · exact ih ha' hb'
  exact htri h.sorted ha hb

end Ucore.Mm
