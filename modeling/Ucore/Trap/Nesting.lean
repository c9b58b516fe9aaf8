import Ucore.Trap.Entry

namespace Ucore.Trap

open Lib.Riscv

-- The kernel stack of the running process: the addresses from `lo` up to `hi`
variable {lo hi : Nat} {h h' h₁ h₂ h₃ : Hart} {b a w cause tval : Word} {f f' g : TrapFrame}

-- A hart that runs kernel code on the stack below the trapframe at `b`
structure InKernel (lo : Nat) (b : Word) (h : Hart) : Prop where
  mode : h.mode = .supervisor
  scratch : h.csr .sscratch = 0
  low : lo ≤ (h.x sp).toNat
  high : (h.x sp).toNat ≤ b.toNat
  aligned : (h.x sp).toNat % 8 = 0

-- Kernel code works on its part of the stack and on its own trapframe.
structure Code (lo hi : Nat) (b : Word) (h h' : Hart) : Prop where
  kernel : InKernel lo b h'
  above : ∀ a : Word, b.toNat + 288 ≤ a.toNat → a.toNat < hi → h'.mem a = h.mem a

-- What the handler of a trap does with the trapframe at `b`: it runs code, which changes
-- the frame from `f` to `f'`, and it is interrupted by other traps.
inductive Activity (lo hi : Nat) : Word → TrapFrame → TrapFrame → Hart → Hart → Prop
  | done {b : Word} {f : TrapFrame} {h : Hart} : Activity lo hi b f f h h
  | code {b : Word} {f f' f'' : TrapFrame} {h h' h'' : Hart} (step : Code lo hi b h h')
      (frame : frameAt h'.mem b = f') (rest : Activity lo hi b f' f'' h' h'') : Activity lo hi b f f'' h h''
  | nested {b cause tval : Word} {f f' g : TrapFrame} {h h₁ h₂ h₃ h' : Hart} (room : lo + 288 ≤ (h.x sp).toNat)
      (save : Hart.run 0 alltraps (h.trap cause tval) = some h₁)
      (inner : Activity lo hi (h₁.x sp) (frameAt h₁.mem (h₁.x sp)) g h₁ h₂) (balanced : h₂.x sp = h₁.x sp)
      (restore : Hart.run 0 trapret h₂ = some h₃) (back : previous g.status = .supervisor) (stack : g.gpr sp = h.x sp)
      (rest : Activity lo hi b f f' h₃.sret h') : Activity lo hi b f f' h h'

theorem FRAME_toNat : FRAME.toNat = 288 := by decide

theorem sub_FRAME (hw : 288 ≤ w.toNat) : (w - FRAME).toNat = w.toNat - 288 := by
  rw [BitVec.toNat_sub, FRAME_toNat]
  have := w.isLt
  omega

theorem outside_of (hb : b.toNat + 288 < 18446744073709551616) (ha : a.toNat < b.toNat ∨ b.toNat + 288 ≤ a.toNat) :
    Outside b a := by
  rintro k hk rfl
  rw [slot_toNat] at ha
  omega

-- __alltraps
theorem run_alltraps (hal : (trapTop h).toNat % 8 = 0) (hroom : 288 ≤ (trapTop h).toNat) :
    ∃ h', Hart.run 0 alltraps h = some h' ∧ h'.x sp = trapTop h - FRAME ∧ h'.x a0 = trapTop h - FRAME ∧
      frameAt h'.mem (trapTop h - FRAME) = .of h ∧ h'.mode = h.mode ∧ h'.csr .sscratch = 0 ∧
      ∀ a, Outside (trapTop h - FRAME) a → h'.mem a = h.mem a := by
  have hal' : (trapTop h - FRAME).toNat % 8 = 0 := by
    rw [sub_FRAME hroom]
    omega
  obtain ⟨x, mem, hrun, hsp, hframe, hother⟩ := run_saveAll (i := [mv a0 sp]) hal'
  refine ⟨{ h with x := Function.update x a0 (x sp), csr := Function.update h.csr .sscratch 0, mem := mem },
    ?_, ?_, ?_, hframe, rfl, Function.update_self Csr.sscratch 0 h.csr, hother⟩
  · rw [alltraps, hrun, Hart.run_mv, Hart.run_nil, Hart.reg_of_ne sp_ne]
    rfl
  · show Function.update x a0 (x sp) sp = _
    rw [Function.update_of_ne (by decide), hsp]
  · show Function.update x a0 (x sp) a0 = _
    rw [Function.update_self, hsp]

theorem InKernel.trapTop (hk : InKernel lo b h) : trapTop (h.trap cause tval) = h.x sp :=
  if_pos hk.scratch

-- The hart behind a trap whose handler leaves the trapframe `f`
structure Resumed (f : TrapFrame) (h : Hart) : Prop where
  reg : ∀ r, r ≠ 0 → h.x r = f.gpr r
  pc : h.pc = f.epc
  mode : h.mode = previous f.status
  status : h.csr .sstatus = leaveStatus f.status

theorem run_trapret (hsp : h.x sp = b) (hal : b.toNat % 8 = 0) (hf : frameAt h.mem b = f) :
    ∃ h', Hart.run 0 trapret h = some h' ∧ Resumed f h'.sret ∧ h'.sret.mem = h.mem ∧
      h'.sret.csr .sscratch = if previous f.status = .user then b + FRAME else h.csr .sscratch := by
  obtain ⟨x, csr, hrun, hreg, hstatus, hepc, hscratch⟩ := run_restoreAll hsp hal hf
  refine ⟨{ h with x := x, csr := csr }, hrun, ⟨hreg, hepc, congrArg previous hstatus, ?_⟩, rfl, ?_⟩
  · show Function.update csr .sstatus (leaveStatus (csr .sstatus)) .sstatus = _
    rw [Function.update_self, hstatus]
  · show Function.update csr .sstatus (leaveStatus (csr .sstatus)) .sscratch = _
    rw [Function.update_of_ne (by decide), hscratch]
    unfold previous
    by_cases hspp : f.status &&& SPP = 0
    · simp only [if_pos hspp, if_true]
    · simp only [if_neg hspp, reduceCtorEq, if_false]

-- The trapframe of the handler is below the stack that it interrupts.
theorem nested_frame (hroom : lo + 288 ≤ w.toNat) (ha : w.toNat ≤ a.toNat) : Outside (w - FRAME) a := by
  have hw := sub_FRAME (w := w) (by omega)
  have hlt := w.isLt
  exact outside_of (by omega) (by omega)

theorem frameAt_congr {mem mem' : Word → Word} (hmem : ∀ k < 36, mem' (slot b k) = mem (slot b k)) :
    frameAt mem' b = frameAt mem b :=
  TrapFrame.ext (funext fun r => hmem r.val (Nat.lt_trans r.isLt (by decide))) (hmem 32 (by decide)) (hmem 33 (by decide))
    (hmem 34 (by decide)) (hmem 35 (by decide))

-- Each trapframe outlives the traps behind it.
theorem Activity.spec (hact : Activity lo hi b f f' h h') (hk : InKernel lo b h) (hf : frameAt h.mem b = f)
    (htop : b.toNat + 288 ≤ hi) (hfits : hi < 18446744073709551616) :
    InKernel lo b h' ∧ frameAt h'.mem b = f' ∧
      ∀ a : Word, b.toNat + 288 ≤ a.toNat → a.toNat < hi → h'.mem a = h.mem a := by
  induction hact with
  | done => exact ⟨hk, hf, fun _ _ _ => rfl⟩
  | code step frame rest ih =>
      obtain ⟨hk', hf', habove⟩ := ih step.kernel frame htop
      exact ⟨hk', hf', fun a hlo hhi => (habove a hlo hhi).trans (step.above a hlo hhi)⟩
  | nested room save inner balanced restore back stack rest ihinner ihrest =>
      rename_i b cause tval f f' g h h₁ h₂ h₃ h'
      have htrap : trapTop (h.trap cause tval) = h.x sp := hk.trapTop
      have hlow := hk.low
      have hhigh := hk.high
      have hal := hk.aligned
      obtain ⟨h₁', hsave, hsp, -, hframe, hmode, hscratch, hother⟩ := run_alltraps (h := h.trap cause tval)
        (by rw [htrap]; exact hal) (by rw [htrap]; omega)
      rw [save] at hsave
      obtain rfl := Option.some.inj hsave
      rw [htrap] at hsp hframe hother
      have hframe_toNat := sub_FRAME (w := h.x sp) (by omega)
      -- the inner handler, on the stack below the interrupted one
      have hk₁ : InKernel lo (h₁.x sp) h₁ := by
        refine ⟨hmode, hscratch, ?_, Nat.le_refl _, ?_⟩ <;> rw [hsp, hframe_toNat] <;> omega
      obtain ⟨hk₂, hf₂, habove⟩ := ihinner hk₁ rfl (by rw [hsp, hframe_toNat]; omega)
      have hkeep : ∀ a : Word, (h.x sp).toNat ≤ a.toNat → a.toNat < hi → h₂.mem a = h.mem a := by
        intro a hlo hhi
        rw [habove a (by rw [hsp, hframe_toNat]; omega) hhi]
        exact hother a (nested_frame room hlo)
      obtain ⟨h₃', hrestore, hres, hmem, hscratch₃⟩ := run_trapret (h := h₂) balanced hk₁.aligned hf₂
      rw [restore] at hrestore
      obtain rfl := Option.some.inj hrestore
      have hsp₃ : h₃.sret.x sp = h.x sp := (hres.reg sp sp_ne).trans stack
      have hk₃ : InKernel lo b h₃.sret := by
        refine ⟨hres.mode.trans back, ?_, ?_, ?_, ?_⟩
        · rw [hscratch₃, back, if_neg (by decide)]
          exact hk₂.scratch
        · rw [hsp₃]
          exact hlow
        · rw [hsp₃]
          exact hhigh
        · rw [hsp₃]
          exact hal
      have hf₃ : frameAt h₃.sret.mem b = f := by
        rw [hmem, ← hf]
        refine frameAt_congr fun k hk => hkeep _ ?_ ?_ <;> rw [slot_toNat] <;> omega
      obtain ⟨hk', hf', habove'⟩ := ihrest hk₃ hf₃ htop
      refine ⟨hk', hf', fun a hlo hhi => ?_⟩
      rw [habove' a hlo hhi, hmem]
      exact hkeep a (by omega) hhi

-- A hart that can take a trap: in user mode sscratch holds the end of the kernel stack, in
-- supervisor mode it is 0 and sp is in this stack.
structure Ready (lo hi : Nat) (h : Hart) : Prop where
  user : h.mode = .user → (h.csr .sscratch).toNat = hi
  kernel : h.mode = .supervisor → h.csr .sscratch = 0
  low : lo + 288 ≤ (trapTop h).toNat
  high : (trapTop h).toNat ≤ hi
  aligned : (trapTop h).toNat % 8 = 0

theorem Ready.scratch (hr : Ready lo hi h) (hmode : h.mode = .user) : trapTop h = h.csr .sscratch := by
  refine if_neg fun hzero => ?_
  have huser := hr.user hmode
  have hlow := hr.low
  have hhigh := hr.high
  rw [hzero] at huser
  simp only [BitVec.ofNat_eq_ofNat, BitVec.toNat_zero] at huser
  omega

-- The interrupted code finds all as it was, with the interrupts on if they were on.
structure Unnoticed (h h' : Hart) : Prop where
  reg : ∀ r, r ≠ 0 → h'.x r = h.x r
  pc : h'.pc = h.pc
  mode : h'.mode = h.mode
  scratch : h'.csr .sscratch = h.csr .sscratch
  status : h'.csr .sstatus = (h.csr .sstatus ||| SPIE) &&& ~~~SPP

theorem Resumed.unnoticed (hres : Resumed (.of (h.trap cause tval)) h')
    (hscratch : h'.csr .sscratch = h.csr .sscratch) : Unnoticed h h' := by
  refine ⟨fun r hr => (hres.reg r hr).trans (Hart.reg_of_ne hr), hres.pc, hres.mode.trans ?_, hscratch,
    hres.status.trans ?_⟩
  · exact previous_enter _ _
  · exact leave_enter _ _

-- The handler starts on the kernel stack, with what the hart was in its trapframe.
theorem Ready.enter (hready : Ready lo hi h) (cause tval : Word) :
    ∃ h₁, Hart.run 0 alltraps (h.trap cause tval) = some h₁ ∧ h₁.x a0 = h₁.x sp ∧ h₁.x sp = trapTop h - FRAME ∧
      frameAt h₁.mem (h₁.x sp) = .of (h.trap cause tval) ∧ InKernel lo (h₁.x sp) h₁ ∧ (h₁.x sp).toNat + 288 ≤ hi ∧
      ∀ a : Word, (trapTop h).toNat ≤ a.toNat → h₁.mem a = h.mem a := by
  have htop : trapTop (h.trap cause tval) = trapTop h := rfl
  have hlow := hready.low
  have hhigh := hready.high
  have hal := hready.aligned
  have hframe_toNat := sub_FRAME (w := trapTop h) (by omega)
  obtain ⟨h₁, hsave, hsp, harg, hframe, hmode, hscratch, hother⟩ := run_alltraps (h := h.trap cause tval)
    (by rw [htop]; exact hal) (by rw [htop]; omega)
  rw [htop] at hsp harg hframe hother
  have hk₁ : InKernel lo (h₁.x sp) h₁ := by
    refine ⟨hmode, hscratch, ?_, Nat.le_refl _, ?_⟩ <;> rw [hsp, hframe_toNat] <;> omega
  refine ⟨h₁, hsave, harg.trans hsp.symm, hsp, by rw [hsp, hframe], hk₁, ?_, fun a hlo => ?_⟩
  · rw [hsp, hframe_toNat]
    omega
  · exact hother a (nested_frame hlow hlo)

-- The way back, with sp and the trapframe as the handler must leave them
theorem Ready.leave (hready : Ready lo hi h) (cause tval : Word) (hsp : h₁.x sp = trapTop h - FRAME) (hk₁ : InKernel lo (h₁.x sp) h₁)
    (hk₂ : InKernel lo (h₁.x sp) h₂) (hf : frameAt h₂.mem (h₁.x sp) = f) (hbal : h₂.x sp = h₁.x sp) :
    ∃ h₃, Hart.run 0 trapret h₂ = some h₃ ∧ Resumed f h₃.sret ∧
      (previous f.status = h.mode → h₃.sret.csr .sscratch = h.csr .sscratch) ∧
      (f = .of (h.trap cause tval) → Unnoticed h h₃.sret) ∧ h₃.sret.mem = h₂.mem := by
  obtain ⟨h₃, hrestore, hres, hmem, hscratch₃⟩ := run_trapret (h := h₂) hbal hk₁.aligned hf
  have hsame : previous f.status = h.mode → h₃.sret.csr .sscratch = h.csr .sscratch := by
    intro hback
    rw [hscratch₃, hback]
    cases hm : h.mode with
    | user => rw [if_pos rfl, hsp, BitVec.sub_add_cancel, hready.scratch hm]
    | supervisor => rw [if_neg (by decide), hk₂.scratch, hready.kernel hm]
  refine ⟨h₃, hrestore, hres, hsame, fun hf => ?_, hmem⟩
  subst hf
  exact hres.unnoticed (hsame (previous_enter _ _))

-- A trap, with those that interrupt its handler: the handler finds in its trapframe what
-- the hart was, and the hart becomes what it leaves there.
theorem trap_returns (hready : Ready lo hi h) (hfits : hi < 18446744073709551616) (cause tval : Word) :
    ∃ h₁, Hart.run 0 alltraps (h.trap cause tval) = some h₁ ∧ h₁.x a0 = h₁.x sp ∧
      frameAt h₁.mem (h₁.x sp) = .of (h.trap cause tval) ∧
      ∀ f h₂, Activity lo hi (h₁.x sp) (.of (h.trap cause tval)) f h₁ h₂ → h₂.x sp = h₁.x sp →
        ∃ h₃, Hart.run 0 trapret h₂ = some h₃ ∧ Resumed f h₃.sret ∧
          (previous f.status = h.mode → h₃.sret.csr .sscratch = h.csr .sscratch) ∧
          (f = .of (h.trap cause tval) → Unnoticed h h₃.sret) ∧
          ∀ a : Word, (trapTop h).toNat ≤ a.toNat → a.toNat < hi → h₃.sret.mem a = h.mem a := by
  obtain ⟨h₁, hsave, harg, hsp, hframe, hk₁, htop, hbefore⟩ := hready.enter cause tval
  refine ⟨h₁, hsave, harg, hframe, fun f h₂ hact hbal => ?_⟩
  obtain ⟨hk₂, hf₂, habove⟩ := hact.spec hk₁ hframe htop hfits
  obtain ⟨h₃, hrestore, hres, hsame, hunnoticed, hmem⟩ := hready.leave cause tval hsp hk₁ hk₂ hf₂ hbal
  refine ⟨h₃, hrestore, hres, hsame, hunnoticed, fun a hlo hhi => ?_⟩
  have hlow := hready.low
  rw [hmem, habove a (by rw [hsp, sub_FRAME (by omega)]; omega) hhi]
  exact hbefore a hlo

-- A user process is interrupted, and its handler is interrupted again.
def userHart : Hart where
  x _ := 5
  csr c := if c = .sscratch then 8192 else 0
  mem _ := 0
  mode := .user
  pc := 0x800020

theorem trap_returns_user : ∃ h₁ h₂ h₃ h₄, Hart.run 0 alltraps (userHart.trap 5 0) = some h₁ ∧
    Hart.run 0 alltraps (h₁.trap 7 0) = some h₂ ∧ Hart.run 0 trapret h₂ = some h₃ ∧
    Hart.run 0 trapret h₃.sret = some h₄ ∧ Unnoticed userHart h₄.sret := by
  have hready : Ready 4096 8192 userHart :=
    ⟨fun _ => by decide, fun hno => absurd hno (by decide), by decide, by decide, by decide⟩
  obtain ⟨h₁, hsave, _, hsp, hframe, hk₁, htop, _⟩ := hready.enter 5 0
  have htop₁ : trapTop h₁ = h₁.x sp := if_pos hk₁.scratch
  have hsp₁ : h₁.x sp = 7904 := hsp
  have hready₁ : Ready 4096 8192 h₁ := by
    refine ⟨fun hno => ?_, fun _ => hk₁.scratch, ?_, ?_, ?_⟩
    · rw [hk₁.mode] at hno
      cases hno
    all_goals
      rw [htop₁, hsp₁]
      decide
  obtain ⟨h₂, hsave₂, _, hframe₂, hall₂⟩ := trap_returns hready₁ (by decide) 7 0
  obtain ⟨h₃, hrestore₃, _, _, hsame₃, _⟩ := hall₂ _ h₂ .done rfl
  have hunnoticed := hsame₃ rfl
  have hinner : Activity 4096 8192 (h₂.x sp) (frameAt h₂.mem (h₂.x sp)) (.of (h₁.trap 7 0)) h₂ h₂ := by
    rw [hframe₂]
    exact .done
  have hact : Activity 4096 8192 (h₁.x sp) (.of (userHart.trap 5 0)) (.of (userHart.trap 5 0)) h₁ h₃.sret := by
    refine .nested ?_ hsave₂ hinner rfl hrestore₃ ?_ (Hart.reg_of_ne sp_ne) .done
    · rw [hsp₁]
      decide
    · exact (previous_enter _ _).trans hk₁.mode
  obtain ⟨h₁', hsave', _, _, hall⟩ := trap_returns hready (by decide) 5 0
  obtain rfl := Option.some.inj (hsave'.symm.trans hsave)
  obtain ⟨h₄, hrestore, _, _, hsame, _⟩ := hall _ h₃.sret hact (hunnoticed.reg sp sp_ne)
  exact ⟨_, h₂, h₃, h₄, hsave', hsave₂, hrestore₃, hrestore, hsame rfl⟩

end Ucore.Trap
