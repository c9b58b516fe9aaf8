import Ucore.Trap.Nesting

namespace Ucore.Trap

open Lib.Riscv

-- struct context: ra, sp and s0 to s11
def context : List (Reg × Nat) :=
  [(ra, 0), (sp, 1), (s0, 2), (s1, 3), (s2, 4), (s3, 5), (s4, 6), (21, 7), (22, 8), (23, 9), (24, 10), (25, 11),
    (26, 12), (27, 13)]

-- switch_to up to its ret
def switchTo : List Instr := stores context a0 ++ loads context a1

variable {P : Type} {ctx : P → Word} {own : P → Word → Prop} {h h' h₁ h₂ h₃ h₄ h₅ h₆ : Hart} {p q t : P}
  {lo hi : Nat} {b cause tval : Word} {f g : TrapFrame}

theorem context_slot : ∀ c ∈ context, c.2 < 14 := by decide

theorem context_reg : ∀ c ∈ context, c.1 ≠ 0 := by decide

theorem context_bound : ∀ c ∈ context, c.2 < 2305843009213693952 := fun c hc =>
  Nat.lt_trans (context_slot c hc) (by decide)

-- Each process owns memory that no other one uses; its context is among it.
structure Owners (ctx : P → Word) (own : P → Word → Prop) : Prop where
  aligned : ∀ p, (ctx p).toNat % 8 = 0
  context : ∀ p k, k < 14 → own p (slot (ctx p) k)
  apart : ∀ p q a, own p a → own q a → p = q

-- The context of `p` holds these registers.
def Holds (ctx : P → Word) (p : P) (x : Reg → Word) (mem : Word → Word) : Prop :=
  ∀ c ∈ context, mem (slot (ctx p) c.2) = x c.1

-- Memory of `p` outside of its context
def Private (ctx : P → Word) (own : P → Word → Prop) (p : P) (a : Word) : Prop :=
  own p a ∧ ∀ k < 14, a ≠ slot (ctx p) k

-- switch_to(&p->context, &q->context)
theorem run_switchTo (hown : Owners ctx own) (hpq : p ≠ q) (hprev : h.x a0 = ctx p) (hnext : h.x a1 = ctx q) :
    ∃ h', Hart.run 0 switchTo h = some h' ∧ Holds ctx p h.x h'.mem ∧ Holds ctx q h'.x h.mem ∧
      (∀ t a, t ≠ p → own t a → h'.mem a = h.mem a) ∧ (∀ a, Private ctx own p a → h'.mem a = h.mem a) ∧
      h'.csr = h.csr ∧ h'.mode = h.mode := by
  have hreg : h.reg a0 = ctx p := (Hart.reg_of_ne (by decide)).trans hprev
  have hreg₁ : ∀ mem, Hart.reg { h with mem := mem } a1 = ctx q := fun _ => (Hart.reg_of_ne (by decide)).trans hnext
  have hother : ∀ t a, t ≠ p → own t a → stored h.reg (ctx p) context h.mem a = h.mem a := by
    rintro t a ht hta
    refine stored_other fun c hc he => ht ?_
    rw [he] at hta
    exact hown.apart t p _ hta (hown.context p c.2 (context_slot c hc))
  have hsave : ∀ c ∈ context, stored h.reg (ctx p) context h.mem (slot (ctx p) c.2) = h.x c.1 := fun c hc =>
    (stored_slot (by decide) context_bound hc).trans (Hart.reg_of_ne (context_reg c hc))
  have hrest : ∀ a, Private ctx own p a → stored h.reg (ctx p) context h.mem a = h.mem a := fun a ha =>
    stored_other fun c hc => ha.2 c.2 (context_slot c hc)
  have hrun : Hart.run 0 switchTo h = Hart.run 0 (loads context a1 ++ [])
      { h with mem := stored h.reg (ctx p) context h.mem } := by
    rw [switchTo, run_stores (by rw [hreg]; exact hown.aligned p), hreg, List.append_nil]
  rw [run_loads (by rw [hreg₁]; exact hown.aligned q) (by decide) (by decide), hreg₁] at hrun
  refine ⟨_, hrun, hsave, fun c hc => ?_, hother, hrest, rfl, rfl⟩
  have hload : loaded (stored h.reg (ctx p) context h.mem) (ctx q) context h.x c.1 = _ := loaded_reg (by decide) hc
  exact (hload.trans (hother q _ (Ne.symm hpq) (hown.context q c.2 (context_slot c hc)))).symm

-- What happens while `p` is not the running process: another one works, on all but the
-- memory of the others, or it calls switch_to for the next one.
inductive Away (ctx : P → Word) (own : P → Word → Prop) (p : P) : P → Hart → P → Hart → Prop
  | done {q : P} {h : Hart} : Away ctx own p q h q h
  | work {q t : P} {h h' h'' : Hart} (keep : ∀ t a, t ≠ q → own t a → h'.mem a = h.mem a)
      (rest : Away ctx own p q h' t h'') : Away ctx own p q h t h''
  | switch {q t u : P} {h h' h'' : Hart} (other : t ≠ p) (change : q ≠ t) (prev : h.x a0 = ctx q)
      (next : h.x a1 = ctx t) (run : Hart.run 0 switchTo h = some h') (rest : Away ctx own p t h' u h'') :
      Away ctx own p q h u h''

theorem Away.spec (haway : Away ctx own p q h t h') (hown : Owners ctx own) (hq : q ≠ p) :
    t ≠ p ∧ ∀ a, own p a → h'.mem a = h.mem a := by
  induction haway with
  | done => exact ⟨hq, fun _ _ => rfl⟩
  | work keep rest ih =>
      obtain ⟨ht, hkeep⟩ := ih hq
      exact ⟨ht, fun a ha => (hkeep a ha).trans (keep p a (Ne.symm hq) ha)⟩
  | switch other change prev next run rest ih =>
      obtain ⟨ht, hkeep⟩ := ih other
      obtain ⟨_, hrun, _, _, hothers, _⟩ := run_switchTo hown change prev next
      rw [run] at hrun
      obtain rfl := Option.some.inj hrun
      exact ⟨ht, fun a ha => (hkeep a ha).trans (hothers p a (Ne.symm hq) ha)⟩

-- A process that switches to others and is switched back to, by whichever one of them
structure Switched (ctx : P → Word) (own : P → Word → Prop) (p q t : P) (h h₁ h₂ h₃ : Hart) : Prop where
  leave : h.x a0 = ctx p ∧ h.x a1 = ctx q ∧ q ≠ p ∧ Hart.run 0 switchTo h = some h₁
  away : Away ctx own p q h₁ t h₂
  back : h₂.x a0 = ctx t ∧ h₂.x a1 = ctx p ∧ Hart.run 0 switchTo h₂ = some h₃

-- The process finds the registers of its context and its memory as they were.
theorem Switched.restores (hsw : Switched ctx own p q t h h₁ h₂ h₃) (hown : Owners ctx own) :
    (∀ c ∈ context, h₃.x c.1 = h.x c.1) ∧ (∀ a, Private ctx own p a → h₃.mem a = h.mem a) ∧ h₃.csr = h₂.csr ∧
      h₃.mode = h₂.mode := by
  obtain ⟨hprev, hnext, hqp, hrun⟩ := hsw.leave
  obtain ⟨hprev', hnext', hrun'⟩ := hsw.back
  obtain ⟨_, hrun₁, hsave, _, _, hprivate, _, _⟩ := run_switchTo hown (Ne.symm hqp) hprev hnext
  rw [hrun] at hrun₁
  obtain rfl := Option.some.inj hrun₁
  obtain ⟨htp, hkeep⟩ := hsw.away.spec hown hqp
  obtain ⟨_, hrun₃, _, hload, hothers, _, hcsr, hmode⟩ := run_switchTo hown htp hprev' hnext'
  rw [hrun'] at hrun₃
  obtain rfl := Option.some.inj hrun₃
  refine ⟨fun c hc => ?_, fun a ha => ?_, hcsr, hmode⟩
  · rw [← hload c hc, hkeep _ (hown.context p c.2 (context_slot c hc))]
    exact hsave c hc
  · rw [hothers p a (Ne.symm htp) ha.1, hkeep a ha.1]
    exact hprivate a ha

theorem Activity.trans {e : TrapFrame} (hact : Activity lo hi b e f h h₁) (hact' : Activity lo hi b f g h₁ h₂) :
    Activity lo hi b e g h h₂ := by
  induction hact with
  | done => exact hact'
  | code step frame rest ih => exact .code step frame (ih hact')
  | nested room save inner balanced restore back stack rest _ ih =>
      exact .nested room save inner balanced restore back stack (ih hact')

-- To the stack of the process, the switch is code like any other.
theorem Switched.code (hsw : Switched ctx own p q t h h₁ h₂ h₃) (hown : Owners ctx own) (hk : InKernel lo b h)
    (hmode : h₂.mode = .supervisor) (hscratch : h₂.csr .sscratch = 0)
    (hstack : ∀ a : Word, lo ≤ a.toNat → a.toNat < hi → Private ctx own p a) :
    Code lo hi b h h₃ ∧ ∀ a : Word, lo ≤ a.toNat → a.toNat < hi → h₃.mem a = h.mem a := by
  obtain ⟨hreg, hmem, hcsr, hmode₃⟩ := hsw.restores hown
  have hsp : h₃.x sp = h.x sp := hreg (sp, 1) (by decide)
  have hlow := hk.low
  have hhigh := hk.high
  have hkernel : InKernel lo b h₃ := by
    refine ⟨hmode₃.trans hmode, hcsr ▸ hscratch, ?_, ?_, ?_⟩ <;> rw [hsp]
    · exact hlow
    · exact hhigh
    · exact hk.aligned
  exact ⟨⟨hkernel, fun a hlo hhi => hmem a (hstack a (by omega) hhi)⟩, fun a hlo hhi => hmem a (hstack a hlo hhi)⟩

-- A process is interrupted, and the handler gives the processor to others: when one of them
-- gives it back, the process goes on with what the handler left in its trapframe, and
-- notices nothing if the handler left it alone.
theorem preempted (hready : Ready lo hi h) (hfits : hi < 18446744073709551616) (hown : Owners ctx own)
    (hstack : ∀ a : Word, lo ≤ a.toNat → a.toNat < hi → Private ctx own p a)
    (hsave : Hart.run 0 alltraps (h.trap cause tval) = some h₁)
    (hbefore : Activity lo hi (h₁.x sp) (.of (h.trap cause tval)) f h₁ h₂)
    (hsw : Switched ctx own p q t h₂ h₃ h₄ h₅) (hmode : h₄.mode = .supervisor) (hscratch : h₄.csr .sscratch = 0)
    (hafter : Activity lo hi (h₁.x sp) f g h₅ h₆) (hbal : h₆.x sp = h₁.x sp) :
    ∃ h₇, Hart.run 0 trapret h₆ = some h₇ ∧ Resumed g h₇.sret ∧ (g = .of (h.trap cause tval) → Unnoticed h h₇.sret) := by
  obtain ⟨h₁', hsave', _, hsp, hframe, hk₁, htop, _⟩ := hready.enter cause tval
  rw [hsave] at hsave'
  obtain rfl := Option.some.inj hsave'
  obtain ⟨hk₂, hf₂, _⟩ := hbefore.spec hk₁ hframe htop hfits
  obtain ⟨hcode, hkeep⟩ := hsw.code hown hk₂ hmode hscratch hstack
  have hlow := hk₁.low
  have hframe₅ : frameAt h₅.mem (h₁.x sp) = f := by
    rw [← hf₂]
    refine frameAt_congr fun k hk => hkeep _ ?_ ?_ <;> rw [slot_toNat] <;> omega
  obtain ⟨hk₆, hf₆, _⟩ := (hbefore.trans (.code hcode hframe₅ hafter)).spec hk₁ hframe htop hfits
  obtain ⟨h₇, hrestore, hres, _, hunnoticed, _⟩ := hready.leave cause tval hsp hk₁ hk₆ hf₆ hbal
  exact ⟨h₇, hrestore, hres, hunnoticed⟩

-- Two processes, the first of which is interrupted and preempted
def twoContexts (p : Bool) : Word := if p then 32768 else 16384

def twoOwners (p : Bool) (a : Word) : Prop := p = decide (32768 ≤ a.toNat)

theorem twoContexts_owners : Owners twoContexts twoOwners where
  aligned p := by cases p <;> decide
  context p k hk := by
    cases p <;> simp only [twoContexts, twoOwners, slot_toNat, Bool.false_eq_true, if_false, if_true] <;>
      simp <;> omega
  apart _ _ _ hp hq := hp.trans hq.symm

theorem firstPrivate (a : Word) (ha : a.toNat < 16384) : Private twoContexts twoOwners false a := by
  refine ⟨(decide_eq_false (by omega)).symm, ?_⟩
  rintro k hk rfl
  have hctx : (twoContexts false).toNat = 16384 := by decide
  rw [slot_toNat, hctx] at ha
  omega

-- The arguments of switch_to
def switchArgs (p q : Bool) (h : Hart) : Hart := (h.set a0 (twoContexts p)).set a1 (twoContexts q)

theorem switchArgs_a0 (p q : Bool) (h : Hart) : (switchArgs p q h).x a0 = twoContexts p := by
  simp [switchArgs, a0, a1]

theorem switchArgs_a1 (p q : Bool) (h : Hart) : (switchArgs p q h).x a1 = twoContexts q := by
  simp [switchArgs]

theorem switchArgs_sp (p q : Bool) (h : Hart) : (switchArgs p q h).x sp = h.x sp := by
  simp [switchArgs, a0, a1, sp]

theorem switched_twice (h : Hart) :
    ∃ h₁ h₂ h₃, Switched twoContexts twoOwners false true true (switchArgs false true h) h₁ h₂ h₃ ∧
      h₂.mode = h.mode ∧ h₂.csr = h.csr := by
  obtain ⟨h₁, hrun, _, _, _, _, hcsr, hmode⟩ := run_switchTo twoContexts_owners (p := false) (q := true) (by decide)
    (switchArgs_a0 false true h) (switchArgs_a1 false true h)
  obtain ⟨h₃, hrun₃, _⟩ := run_switchTo twoContexts_owners (p := true) (q := false) (by decide)
    (switchArgs_a0 true false h₁) (switchArgs_a1 true false h₁)
  refine ⟨h₁, switchArgs true false h₁, h₃, ⟨⟨switchArgs_a0 _ _ _, switchArgs_a1 _ _ _, by decide, hrun⟩, ?_,
    switchArgs_a0 _ _ _, switchArgs_a1 _ _ _, hrun₃⟩, hmode, hcsr⟩
  have hkeep : ∀ t a, t ≠ true → twoOwners t a → (switchArgs true false h₁).mem a = h₁.mem a := fun _ _ _ _ => rfl
  exact .work hkeep .done

theorem preempted_twice : ∃ h₂ h₃ h₄ h₅ h₇, Switched twoContexts twoOwners false true true h₂ h₃ h₄ h₅ ∧
    Hart.run 0 trapret h₅ = some h₇ ∧ Unnoticed userHart h₇.sret := by
  have hready : Ready 4096 8192 userHart :=
    ⟨fun _ => by decide, fun hno => absurd hno (by decide), by decide, by decide, by decide⟩
  have hstack : ∀ a : Word, 4096 ≤ a.toNat → a.toNat < 8192 → Private twoContexts twoOwners false a := fun a _ hhi =>
    firstPrivate a (by omega)
  obtain ⟨h₁, hsave, _, _, hframe, hk₁, _, _⟩ := hready.enter 5 0
  have hk₂ : InKernel 4096 (h₁.x sp) (switchArgs false true h₁) := by
    have hsp := switchArgs_sp false true h₁
    refine ⟨hk₁.mode, hk₁.scratch, ?_, Nat.le_of_eq (congrArg BitVec.toNat hsp), ?_⟩
    · rw [hsp]
      exact hk₁.low
    · rw [hsp]
      exact hk₁.aligned
  obtain ⟨h₃, h₄, h₅, hsw, hmode, hcsr⟩ := switched_twice h₁
  have hsp : h₅.x sp = h₁.x sp := ((hsw.restores twoContexts_owners).1 (sp, 1) (by decide)).trans (switchArgs_sp _ _ _)
  obtain ⟨h₇, hrestore, _, hsame⟩ := preempted hready (by decide) twoContexts_owners hstack hsave
    (.code ⟨hk₂, fun _ _ _ => rfl⟩ hframe .done) hsw (hmode.trans hk₁.mode) (hcsr ▸ hk₁.scratch) .done hsp
  exact ⟨_, h₃, h₄, h₅, h₇, hsw, hrestore, hsame rfl⟩

end Ucore.Trap
