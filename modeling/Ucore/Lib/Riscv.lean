import Mathlib.Logic.Function.Basic
import Mathlib.Data.List.Nodup

namespace Ucore.Lib.Riscv

abbrev Word := BitVec 64

abbrev Reg := Fin 32

instance registers : @NeZero Nat Zero.ofOfNat0 32 := ⟨Nat.succ_ne_zero 31⟩

inductive Mode
  | user
  | supervisor
  deriving DecidableEq, Repr

inductive Csr
  | sstatus
  | sepc
  | stval
  | scause
  | sscratch
  deriving DecidableEq, Repr

-- A hart. The register x0 reads as 0, and the memory consists of double words at addresses
-- that are multiples of eight.
@[ext] structure Hart where
  x : Reg → Word
  csr : Csr → Word
  mem : Word → Word
  mode : Mode
  pc : Word

-- The instructions of straight code with branches forward: `bnez` skips some of those
-- behind it.
inductive Instr
  | sd (rs : Reg) (off : Nat) (base : Reg)
  | ld (rd : Reg) (off : Nat) (base : Reg)
  | addi (rd rs : Reg) (imm : Word)
  | andi (rd rs : Reg) (imm : Word)
  | csrrw (rd : Reg) (csr : Csr) (rs : Reg)
  | csrr (rd : Reg) (csr : Csr)
  | bnez (rs : Reg) (skip : Nat)
  deriving DecidableEq, Repr

-- The pseudo instructions for these
def mv (rd rs : Reg) : Instr := .addi rd rs 0

def csrw (csr : Csr) (rs : Reg) : Instr := .csrrw 0 csr rs

namespace Hart

def reg (h : Hart) (r : Reg) : Word := if r = 0 then 0 else h.x r

def set (h : Hart) (r : Reg) (w : Word) : Hart := { h with x := Function.update h.x r w }

def setCsr (h : Hart) (c : Csr) (w : Word) : Hart := { h with csr := Function.update h.csr c w }

-- One instruction; an access that is not aligned is left out.
def exec (h : Hart) : Instr → Option Hart
  | .sd rs off base =>
      let addr := h.reg base + BitVec.ofNat 64 off
      if addr.toNat % 8 = 0 then some { h with mem := Function.update h.mem addr (h.reg rs) } else none
  | .ld rd off base =>
      let addr := h.reg base + BitVec.ofNat 64 off
      if addr.toNat % 8 = 0 then some (h.set rd (h.mem addr)) else none
  | .addi rd rs imm => some (h.set rd (h.reg rs + imm))
  | .andi rd rs imm => some (h.set rd (h.reg rs &&& imm))
  | .csrrw rd csr rs => some ((h.set rd (h.csr csr)).setCsr csr (h.reg rs))
  | .csrr rd csr => some (h.set rd (h.csr csr))
  | .bnez _ _ => some h

-- The instructions in turn, but for the first `skip`
def run : Nat → List Instr → Hart → Option Hart
  | _, [], h => some h
  | skip + 1, _ :: i, h => run skip i h
  | 0, .bnez rs skip :: i, h => run (if h.reg rs = 0 then 0 else skip) i h
  | 0, .sd rs off base :: i, h => (h.exec (.sd rs off base)).bind (run 0 i)
  | 0, .ld rd off base :: i, h => (h.exec (.ld rd off base)).bind (run 0 i)
  | 0, .addi rd rs imm :: i, h => (h.exec (.addi rd rs imm)).bind (run 0 i)
  | 0, .andi rd rs imm :: i, h => (h.exec (.andi rd rs imm)).bind (run 0 i)
  | 0, .csrrw rd csr rs :: i, h => (h.exec (.csrrw rd csr rs)).bind (run 0 i)
  | 0, .csrr rd csr :: i, h => (h.exec (.csrr rd csr)).bind (run 0 i)

end Hart

def SIE : Word := 0x2
def SPIE : Word := 0x20
def SPP : Word := 0x100

-- What a trap makes of sstatus, and sret
def enterStatus (status : Word) (mode : Mode) : Word :=
  (status &&& ~~~(SIE ||| SPIE ||| SPP)) ||| (if status &&& SIE = 0 then 0 else SPIE) |||
    (if mode = .supervisor then SPP else 0)

def leaveStatus (status : Word) : Word :=
  (status &&& ~~~(SIE ||| SPIE ||| SPP)) ||| (if status &&& SPIE = 0 then 0 else SIE) ||| SPIE

def previous (status : Word) : Mode := if status &&& SPP = 0 then .user else .supervisor

namespace Hart

-- The hart takes a trap: the handler runs in supervisor mode, without interrupts.
def trap (h : Hart) (cause tval : Word) : Hart where
  x := h.x
  csr
    | .sstatus => enterStatus (h.csr .sstatus) h.mode
    | .sepc => h.pc
    | .stval => tval
    | .scause => cause
    | .sscratch => h.csr .sscratch
  mem := h.mem
  mode := .supervisor
  pc := h.pc

def sret (h : Hart) : Hart :=
  { h.setCsr .sstatus (leaveStatus (h.csr .sstatus)) with
    mode := previous (h.csr .sstatus)
    pc := h.csr .sepc }

end Hart

variable {h : Hart} {i : List Instr} {b w : Word} {c : Csr} {r r' : Reg} {k k' : Nat}

section Status

theorem bits (i : Nat) (hi : i < 64) : SIE.getLsbD i = decide (i = 1) ∧ SPIE.getLsbD i = decide (i = 5) ∧
    SPP.getLsbD i = decide (i = 8) := by
  decide +revert

-- A bit of sstatus by itself
theorem and_bit {m : Word} {n : Nat} (status : Word) (hm : ∀ i < 64, m.getLsbD i = decide (i = n)) (hn : n < 64) :
    status &&& m = 0 ↔ status.getLsbD n = false := by
  constructor
  · intro h
    have hbit := congrArg (BitVec.getLsbD · n) h
    simp only [BitVec.getLsbD_and, hm n hn, decide_true, Bool.and_true] at hbit
    rw [hbit]
    exact BitVec.getLsbD_zero
  · intro h
    apply BitVec.eq_of_getLsbD_eq
    intro i hi
    rw [BitVec.getLsbD_and, hm i hi]
    by_cases hin : i = n
    · rw [hin, h, Bool.false_and]
      exact BitVec.getLsbD_zero.symm
    · rw [decide_eq_false hin, Bool.and_false]
      exact BitVec.getLsbD_zero.symm

theorem enterStatus_bit (status : Word) (mode : Mode) (i : Nat) (hi : i < 64) :
    (enterStatus status mode).getLsbD i =
      if i = 1 then false else if i = 5 then status.getLsbD 1 else if i = 8 then decide (mode = .supervisor)
      else status.getLsbD i := by
  obtain ⟨hsie, hspie, hspp⟩ := bits i hi
  unfold enterStatus
  simp only [and_bit status (fun j hj => (bits j hj).1) (by decide)]
  simp only [BitVec.getLsbD_or, BitVec.getLsbD_and, BitVec.getLsbD_not, hsie, hspie, hspp, hi]
  grind

theorem leaveStatus_bit (status : Word) (i : Nat) (hi : i < 64) :
    (leaveStatus status).getLsbD i =
      if i = 1 then status.getLsbD 5 else if i = 5 then true else if i = 8 then false else status.getLsbD i := by
  obtain ⟨hsie, hspie, hspp⟩ := bits i hi
  unfold leaveStatus
  simp only [and_bit status (fun j hj => (bits j hj).2.1) (by decide)]
  simp only [BitVec.getLsbD_or, BitVec.getLsbD_and, BitVec.getLsbD_not, hsie, hspie, hspp, hi]
  grind

theorem previous_eq (status : Word) : previous status = if status.getLsbD 8 then .supervisor else .user := by
  unfold previous
  simp only [and_bit status (fun j hj => (bits j hj).2.2) (by decide)]
  cases status.getLsbD 8 <;> rfl

theorem previous_enter (status : Word) (mode : Mode) : previous (enterStatus status mode) = mode := by
  rw [previous_eq, enterStatus_bit _ _ _ (by decide)]
  cases mode <;> rfl

-- Behind a trap the interrupts are as they were.
theorem leave_enter (status : Word) (mode : Mode) :
    leaveStatus (enterStatus status mode) = (status ||| SPIE) &&& ~~~SPP := by
  apply BitVec.eq_of_getLsbD_eq
  intro i hi
  obtain ⟨_, hspie, hspp⟩ := bits i hi
  rw [leaveStatus_bit _ _ hi, enterStatus_bit _ _ _ hi, enterStatus_bit _ _ _ (by decide)]
  simp only [BitVec.getLsbD_or, BitVec.getLsbD_and, BitVec.getLsbD_not, hspie, hspp, hi]
  grind

end Status

-- The double word number `k` behind the address `b`
def slot (b : Word) (k : Nat) : Word := b + BitVec.ofNat 64 (8 * k)

theorem slot_toNat (b : Word) (k : Nat) : (slot b k).toNat = (b.toNat + 8 * k) % 18446744073709551616 := by
  rw [slot, BitVec.toNat_add, BitVec.toNat_ofNat]
  omega

theorem slot_aligned (hb : b.toNat % 8 = 0) (k : Nat) : (slot b k).toNat % 8 = 0 := by
  rw [slot_toNat]
  omega

theorem slot_inj (hk : k < 2305843009213693952) (hk' : k' < 2305843009213693952) (h : slot b k = slot b k') :
    k = k' := by
  have ht := congrArg BitVec.toNat h
  rw [slot_toNat, slot_toNat] at ht
  omega

section Assign

variable {κ β : Type} [DecidableEq κ] {f : κ → β} {l : List (κ × β)} {p : κ × β} {a : κ}

-- Assignments one after another
def assign (f : κ → β) (l : List (κ × β)) : κ → β := l.foldl (fun f p => Function.update f p.1 p.2) f

theorem assign_other (ha : a ∉ l.map Prod.fst) : assign f l a = f a := by
  induction l generalizing f with
  | nil => rfl
  | cons p l ih =>
      rw [List.map_cons, List.mem_cons, not_or] at ha
      rw [assign, List.foldl_cons, ← assign, ih ha.2, Function.update_of_ne ha.1]

theorem assign_mem (hnodup : (l.map Prod.fst).Nodup) (hp : p ∈ l) : assign f l p.1 = p.2 := by
  induction l generalizing f with
  | nil => cases hp
  | cons q l ih =>
      rw [List.map_cons, List.nodup_cons] at hnodup
      rw [assign, List.foldl_cons, ← assign]
      rcases List.mem_cons.mp hp with rfl | hp
      · rw [assign_other hnodup.1, Function.update_self]
      · exact ih hnodup.2 hp

end Assign

-- The first `n` double words behind `b`
def fill (mem : Word → Word) (b : Word) (n : Nat) (g : Nat → Word) : Word → Word :=
  assign mem ((List.range n).map fun k => (slot b k, g k))

theorem fill_slot {mem : Word → Word} {n : Nat} {g : Nat → Word} (hn : n ≤ 2305843009213693952) (hk : k < n) :
    fill mem b n g (slot b k) = g k := by
  have hslots : (((List.range n).map fun k => (slot b k, g k)).map Prod.fst).Nodup := by
    rw [List.map_map]
    refine (List.nodup_map_iff_inj_on List.nodup_range).mpr fun i hi j hj he => ?_
    rw [List.mem_range] at hi hj
    exact slot_inj (by omega) (by omega) he
  exact assign_mem (p := (slot b k, g k)) hslots (List.mem_map_of_mem (List.mem_range.mpr hk))

theorem fill_other {mem : Word → Word} {n : Nat} {g : Nat → Word} (hw : ∀ k < n, w ≠ slot b k) :
    fill mem b n g w = mem w := by
  apply assign_other
  rw [List.map_map, List.mem_map]
  rintro ⟨k, hk, he⟩
  exact hw k (List.mem_range.mp hk) he.symm

namespace Hart

theorem reg_of_ne (hr : r ≠ 0) : h.reg r = h.x r := if_neg hr

theorem set_reg (hr : r ≠ 0) : (h.set r w).reg r' = if r' = r then w else h.reg r' := by
  simp only [reg, set]
  by_cases hr' : r' = r
  · rw [if_pos hr', hr', if_neg hr, Function.update_self]
  · rw [if_neg hr', Function.update_of_ne hr']

@[simp] theorem set_x : (h.set r w).x = Function.update h.x r w := rfl

@[simp] theorem set_csr : (h.set r w).csr = h.csr := rfl

@[simp] theorem set_mem : (h.set r w).mem = h.mem := rfl

@[simp] theorem set_mode : (h.set r w).mode = h.mode := rfl

@[simp] theorem set_pc : (h.set r w).pc = h.pc := rfl

@[simp] theorem setCsr_x : (h.setCsr c w).x = h.x := rfl

@[simp] theorem setCsr_reg : (h.setCsr c w).reg r = h.reg r := rfl

@[simp] theorem setCsr_csr : (h.setCsr c w).csr = Function.update h.csr c w := rfl

@[simp] theorem setCsr_mem : (h.setCsr c w).mem = h.mem := rfl

@[simp] theorem setCsr_mode : (h.setCsr c w).mode = h.mode := rfl

@[simp] theorem setCsr_pc : (h.setCsr c w).pc = h.pc := rfl

theorem run_sd {rs base : Reg} {off : Nat} (ha : (h.reg base + BitVec.ofNat 64 off).toNat % 8 = 0) :
    run 0 (.sd rs off base :: i) h =
      run 0 i { h with mem := Function.update h.mem (h.reg base + BitVec.ofNat 64 off) (h.reg rs) } := by
  rw [run, exec, if_pos ha]
  rfl

theorem run_ld {rd base : Reg} {off : Nat} (ha : (h.reg base + BitVec.ofNat 64 off).toNat % 8 = 0) :
    run 0 (.ld rd off base :: i) h = run 0 i (h.set rd (h.mem (h.reg base + BitVec.ofNat 64 off))) := by
  rw [run, exec, if_pos ha]
  rfl

@[simp] theorem run_nil : run 0 [] h = some h := rfl

@[simp] theorem run_addi : run 0 (.addi r r' w :: i) h = run 0 i (h.set r (h.reg r' + w)) := rfl

@[simp] theorem run_mv : run 0 (mv r r' :: i) h = run 0 i (h.set r (h.reg r')) := by
  have hzero : h.reg r' + (0 : Word) = h.reg r' := BitVec.add_zero _
  rw [mv, run_addi, hzero]

@[simp] theorem run_andi : run 0 (.andi r r' w :: i) h = run 0 i (h.set r (h.reg r' &&& w)) := rfl

@[simp] theorem run_csrr : run 0 (.csrr r c :: i) h = run 0 i (h.set r (h.csr c)) := rfl

@[simp] theorem run_csrrw :
    run 0 (.csrrw r c r' :: i) h = run 0 i ((h.set r (h.csr c)).setCsr c (h.reg r')) := rfl

@[simp] theorem run_bnez : run 0 (.bnez r k :: i) h = run (if h.reg r = 0 then 0 else k) i h := rfl

@[simp] theorem run_skip {j : Instr} : run (k + 1) (j :: i) h = run k i h := rfl

end Hart

-- Registers to the slots behind `base`, and back
def stores (l : List (Reg × Nat)) (base : Reg) : List Instr := l.map fun p => .sd p.1 (8 * p.2) base

def loads (l : List (Reg × Nat)) (base : Reg) : List Instr := l.map fun p => .ld p.1 (8 * p.2) base

section Blocks

variable {l : List (Reg × Nat)} {base : Reg} {mem : Word → Word} {x : Reg → Word} {p : Reg × Nat} {a : Word}

def stored (x : Reg → Word) (b : Word) (l : List (Reg × Nat)) (mem : Word → Word) : Word → Word :=
  assign mem (l.map fun p => (slot b p.2, x p.1))

def loaded (mem : Word → Word) (b : Word) (l : List (Reg × Nat)) (x : Reg → Word) : Reg → Word :=
  assign x (l.map fun p => (p.1, mem (slot b p.2)))

theorem stored_other (ha : ∀ p ∈ l, a ≠ slot b p.2) : stored x b l mem a = mem a := by
  apply assign_other
  rw [List.map_map, List.mem_map]
  rintro ⟨p, hp, he⟩
  exact ha p hp he.symm

theorem stored_slot (hnodup : (l.map Prod.snd).Nodup) (hlt : ∀ p ∈ l, p.2 < 2305843009213693952) (hp : p ∈ l) :
    stored x b l mem (slot b p.2) = x p.1 := by
  have hslots : ((l.map fun p => (slot b p.2, x p.1)).map Prod.fst).Nodup := by
    rw [List.map_map]
    refine (List.nodup_map_iff_inj_on hnodup.of_map).mpr fun q hq q' hq' he => ?_
    exact List.inj_on_of_nodup_map hnodup hq hq' (slot_inj (hlt q hq) (hlt q' hq') he)
  exact assign_mem hslots (List.mem_map_of_mem (f := fun p => (slot b p.2, x p.1)) hp)

theorem loaded_other (hr : r ∉ l.map Prod.fst) : loaded mem b l x r = x r := by
  apply assign_other
  rw [List.map_map]
  exact hr

theorem loaded_reg (hnodup : (l.map Prod.fst).Nodup) (hp : p ∈ l) : loaded mem b l x p.1 = mem (slot b p.2) := by
  have hregs : ((l.map fun p => (p.1, mem (slot b p.2))).map Prod.fst).Nodup := by
    rw [List.map_map]
    exact hnodup
  exact assign_mem hregs (List.mem_map_of_mem (f := fun p => (p.1, mem (slot b p.2))) hp)

theorem run_stores (hb : (h.reg base).toNat % 8 = 0) :
    Hart.run 0 (stores l base ++ i) h = Hart.run 0 i { h with mem := stored h.reg (h.reg base) l h.mem } := by
  induction l generalizing h with
  | nil => rfl
  | cons p l ih =>
      show Hart.run 0 (.sd p.1 (8 * p.2) base :: (stores l base ++ i)) h = _
      rw [Hart.run_sd (slot_aligned hb p.2), ih (by exact hb)]
      rfl

theorem run_loads (hb : (h.reg base).toNat % 8 = 0) (hbase : base ∉ l.map Prod.fst) (hzero : 0 ∉ l.map Prod.fst) :
    Hart.run 0 (loads l base ++ i) h = Hart.run 0 i { h with x := loaded h.mem (h.reg base) l h.x } := by
  induction l generalizing h with
  | nil => rfl
  | cons p l ih =>
      rw [List.map_cons, List.mem_cons, not_or] at hbase hzero
      have hkeep : (h.set p.1 (h.mem (slot (h.reg base) p.2))).reg base = h.reg base := by
        rw [Hart.set_reg (Ne.symm hzero.1), if_neg hbase.1]
      show Hart.run 0 (.ld p.1 (8 * p.2) base :: (loads l base ++ i)) h = _
      rw [Hart.run_ld (slot_aligned hb p.2)]
      rw [← slot, ih (by rw [hkeep]; exact hb) hbase.2 hzero.2, hkeep]
      rfl

end Blocks

section CopyDown

variable {src dst tmp : Reg} {n : Nat} {s d a : Word}

-- The double words number `n - 1` to 0 behind `src` to those behind `dst`, the last one first
def copyDown (src dst tmp : Reg) : Nat → List Instr
  | 0 => []
  | n + 1 => .ld tmp (8 * n) src :: .sd tmp (8 * n) dst :: copyDown src dst tmp n

-- The copy is right also where the two overlap, if it goes up.
theorem run_copyDown (hsrc : src ≠ tmp) (hdst : dst ≠ tmp) (htmp : tmp ≠ 0) (hs : h.reg src = s) (hd : h.reg dst = d)
    (hals : s.toNat % 8 = 0) (hald : d.toNat % 8 = 0) (hle : s.toNat ≤ d.toNat)
    (hfits : d.toNat + 8 * n ≤ 18446744073709551616) :
    ∃ h', Hart.run 0 (copyDown src dst tmp n ++ i) h = Hart.run 0 i h' ∧ (∀ r, r ≠ tmp → h'.x r = h.x r) ∧
      h'.csr = h.csr ∧ h'.mode = h.mode ∧ h'.pc = h.pc ∧
      (∀ k < n, h'.mem (slot d k) = h.mem (slot s k)) ∧ ∀ a, (∀ k < n, a ≠ slot d k) → h'.mem a = h.mem a := by
  induction n generalizing h with
  | zero => exact ⟨h, rfl, fun _ _ => rfl, rfl, rfl, rfl, fun k hk => absurd hk (Nat.not_lt_zero k), fun _ _ => rfl⟩
  | succ n ih =>
      have hload : (h.reg src + BitVec.ofNat 64 (8 * n)).toNat % 8 = 0 := by
        rw [hs]
        exact slot_aligned hals n
      have hkeep : (h.set tmp (h.mem (slot s n))).reg dst = d := by
        rw [Hart.set_reg htmp, if_neg hdst, hd]
      have hstore : ((h.set tmp (h.mem (slot s n))).reg dst + BitVec.ofNat 64 (8 * n)).toNat % 8 = 0 := by
        rw [hkeep]
        exact slot_aligned hald n
      -- the hart behind the copy of the last word
      generalize hh₁ : { h.set tmp (h.mem (slot s n)) with
        mem := Function.update h.mem (slot d n) (h.mem (slot s n)) } = h₁
      have hrun : Hart.run 0 (copyDown src dst tmp (n + 1) ++ i) h = Hart.run 0 (copyDown src dst tmp n ++ i) h₁ := by
        show Hart.run 0 (.ld tmp (8 * n) src :: .sd tmp (8 * n) dst :: (copyDown src dst tmp n ++ i)) h = _
        rw [Hart.run_ld hload, hs, ← slot, Hart.run_sd hstore, hkeep, ← slot, Hart.set_reg htmp, if_pos rfl, ← hh₁]
        rfl
      have hreg₁ : ∀ r, r ≠ tmp → h₁.x r = h.x r := fun r hr => by
        rw [← hh₁]
        exact Function.update_of_ne hr _ _
      have hget₁ : ∀ r, r ≠ tmp → h₁.reg r = h.reg r := fun r hr => by
        unfold Hart.reg
        rw [hreg₁ r hr]
      have hmem₁ : ∀ a, a ≠ slot d n → h₁.mem a = h.mem a := fun a ha => by
        rw [← hh₁]
        exact Function.update_of_ne ha _ _
      obtain ⟨h', hrest, hreg, hcsr, hmode, hpc, hcopy, hother⟩ := ih ((hget₁ src hsrc).trans hs)
        ((hget₁ dst hdst).trans hd) (by omega)
      refine ⟨h', hrun.trans hrest, fun r hr => (hreg r hr).trans (hreg₁ r hr), ?_, ?_, ?_, fun k hk => ?_,
        fun a ha => ?_⟩
      · rw [hcsr, ← hh₁, Hart.set_csr]
      · rw [hmode, ← hh₁, Hart.set_mode]
      · rw [hpc, ← hh₁, Hart.set_pc]
      · by_cases hkn : k = n
        · subst hkn
          rw [hother _ fun j hj he => absurd (slot_inj (by omega) (by omega) he) (by omega), ← hh₁]
          exact Function.update_self _ _ _
        · have hne : slot s k ≠ slot d n := fun he => by
            have ht := congrArg BitVec.toNat he
            rw [slot_toNat, slot_toNat] at ht
            omega
          rw [hcopy k (by omega), hmem₁ _ hne]
      · rw [hother a fun k hk => ha k (by omega), hmem₁ a (ha n (Nat.lt_succ_self n))]

end CopyDown

end Ucore.Lib.Riscv
