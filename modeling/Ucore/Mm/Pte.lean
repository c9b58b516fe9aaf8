import Ucore.Mm.Pmm

namespace Ucore.Mm

-- A valid entry of a page table: the page it maps and its low ten bits.
structure Leaf where
  frame : Nat
  perm : Nat
  deriving DecidableEq, Repr

def Leaf.pte (lf : Leaf) : Nat := (lf.frame + nbase) * 1024 + lf.perm

-- The entry for a table in the page `p`.
def pde (p : Nat) : Nat := (Leaf.mk p (PTE_U ||| PTE_V)).pte

variable {n a m perm p : Nat}

-- The low bits of an entry are worked on by themselves.
theorem low_and (ha : a < 1024) (hm : m < 1024) : (n * 1024 + a) &&& m = a &&& m := by
  refine Nat.eq_of_testBit_eq fun i => ?_
  have h := Nat.testBit_two_pow_mul_add n (i := 10) (b := a) (by simpa using ha) i
  rw [Nat.mul_comm, show 1024 = 2 ^ 10 from rfl, Nat.testBit_and, Nat.testBit_and, h]
  split_ifs with hi
  · rfl
  · rw [Nat.testBit_lt_two_pow (x := m) (i := i) (lt_of_lt_of_le hm (Nat.pow_le_pow_right (by omega)
      (not_lt.mp hi) : 2 ^ 10 ≤ 2 ^ i))]
    simp

theorem low_or (ha : a < 1024) (hm : m < 1024) : (n * 1024 + a) ||| m = n * 1024 + (a ||| m) := by
  have hor : a ||| m < 2 ^ 10 := Nat.or_lt_two_pow ha hm
  rw [Nat.mul_comm, show 1024 = 2 ^ 10 from rfl, Nat.two_pow_add_eq_or_of_lt ha,
    Nat.two_pow_add_eq_or_of_lt hor, Nat.or_assoc]

theorem low_xor (ha : a < 1024) (hm : m < 1024) : (n * 1024 + a) ^^^ m = n * 1024 + (a ^^^ m) := by
  refine Nat.eq_of_testBit_eq fun i => ?_
  have hxor : a ^^^ m < 2 ^ 10 := Nat.xor_lt_two_pow ha hm
  rw [Nat.mul_comm, show 1024 = 2 ^ 10 from rfl, Nat.testBit_xor,
    Nat.testBit_two_pow_mul_add n ha, Nat.testBit_two_pow_mul_add n hxor]
  split_ifs with hi
  · rw [Nat.testBit_xor]
  · rw [Nat.testBit_lt_two_pow (x := m) (i := i) (lt_of_lt_of_le hm (Nat.pow_le_pow_right (by omega)
      (not_lt.mp hi) : 2 ^ 10 ≤ 2 ^ i))]
    simp

theorem Leaf.pte_and {lf : Leaf} (hp : lf.perm < 1024) (hm : m < 1024) :
    lf.pte &&& m = lf.perm &&& m :=
  low_and hp hm

theorem Leaf.pte_inj {lf lf' : Leaf} (hp : lf.perm < 1024) (hp' : lf'.perm < 1024)
    (h : lf.pte = lf'.pte) : lf = lf' := by
  unfold Leaf.pte at h
  rcases lf with ⟨f, q⟩
  rcases lf' with ⟨f', q'⟩
  simp only at hp hp' h
  have hf : f = f' := by omega
  have hq : q = q' := by omega
  rw [hf, hq]

theorem pde_perm : PTE_U ||| PTE_V < 1024 := by decide

theorem pde_inj {q : Nat} (h : pde p = pde q) : p = q :=
  congrArg Leaf.frame (Leaf.pte_inj (show (Leaf.mk p (PTE_U ||| PTE_V)).perm < 1024 from pde_perm)
    (show (Leaf.mk q (PTE_U ||| PTE_V)).perm < 1024 from pde_perm) h)

theorem pde_valid : pde p &&& PTE_V ≠ 0 := by
  rw [pde, Leaf.pte_and pde_perm (by decide)]
  show (PTE_U ||| PTE_V) &&& PTE_V ≠ 0
  decide

-- PPN(PTE_ADDR(pte)) is the page number of the entry.
theorem PPN_PTE_ADDR {lf : Leaf} (hp : lf.perm < 1024) (hf : lf.frame < 4294967296) :
    PPN (PTE_ADDR lf.pte) = lf.frame + nbase := by
  have hdiv : lf.pte >>> PTE_PPN_SHIFT = lf.frame + nbase := by
    rw [Nat.shiftRight_eq_div_pow]
    unfold Leaf.pte PTE_PPN_SHIFT
    omega
  unfold PTE_ADDR PPN u64
  rw [hdiv]
  simp only [Nat.shiftLeft_eq, Nat.shiftRight_eq_div_pow, PTE_PPN_SHIFT, PTXSHIFT, nbase]
  omega

theorem PPN_PTE_ADDR_pde (h : p < 4294967296) : PPN (PTE_ADDR (pde p)) = p + nbase := by
  unfold pde
  exact PPN_PTE_ADDR pde_perm h

theorem pteCreate_eq (hp : perm < 1024) :
    pteCreate (page2ppn p) perm = (Leaf.mk p (perm ||| PTE_V)).pte := by
  unfold pteCreate Leaf.pte page2ppn PTE_PPN_SHIFT
  generalize p + nbase = k
  have hv : PTE_V ||| perm < 1024 := Nat.or_lt_two_pow (n := 10) (by decide) hp
  have h : (k * 1024 + 0) ||| (PTE_V ||| perm) = k * 1024 + (0 ||| (PTE_V ||| perm)) :=
    low_or (by decide) hv
  rw [Nat.add_zero, Nat.zero_or] at h
  rw [Nat.shiftLeft_eq, Nat.or_assoc, show 2 ^ 10 = 1024 from rfl, h, Nat.or_comm]

theorem pteCreate_pde : pteCreate (page2ppn p) (PTE_U ||| PTE_V) = pde p := by
  have hv : (PTE_U ||| PTE_V) ||| PTE_V = PTE_U ||| PTE_V := by decide
  rw [pteCreate_eq pde_perm, hv, pde]

-- What fork makes of the permissions of a page, and what a write fault makes of them.
def cow (perm : Nat) : Nat :=
  if perm &&& PTE_W ≠ 0 then (clearBit (perm &&& PTE_PERM) PTE_W ||| PTE_COW) ||| PTE_V else perm

def uncow (perm : Nat) : Nat := clearBit perm PTE_COW ||| PTE_W

end Ucore.Mm
