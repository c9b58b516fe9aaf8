import Ucore.Trap.Switch
import Ucore.Trap.Dispatch

namespace Ucore.Trap

open Lib.Riscv

def KSTACKSIZE : Word := 8192

-- The trapframe in the last bytes of the kernel stack
def topFrame (kstack : Word) : Word := kstack + KSTACKSIZE - FRAME

-- The trapframe that copy_thread makes for the child; without a user stack, its sp is the
-- address of the trapframe.
def childFrame (kstack esp : Word) (tf : TrapFrame) : TrapFrame :=
  { tf with
    gpr := Function.update (Function.update tf.gpr a0 0) sp (if esp = 0 then topFrame kstack else esp) }

-- copy_thread for a child with the context at `ctx`
def copyThread (forkret ctx kstack esp : Word) (tf : TrapFrame) (mem : Word → Word) : Word → Word :=
  assign (putFrame mem (topFrame kstack) (childFrame kstack esp tf))
    [(slot ctx 0, forkret), (slot ctx 1, topFrame kstack)]

-- forkrets up to the sret of __trapret
def forkrets : List Instr := mv sp a0 :: trapret

variable {P : Type} {ctx : P → Word} {own : P → Word → Prop} {p c t : P} {lo hi k : Nat}
  {forkret kstack esp b w tval : Word} {pid : BitVec 32} {f tf : TrapFrame} {h h' h₁ h₂ h₃ h₄ h₅ h₆ h₇ : Hart} {mem : Word → Word}

-- The kernel stack of a process
structure Stack (ctx : P → Word) (own : P → Word → Prop) (p : P) (kstack : Word) : Prop where
  aligned : kstack.toNat % 8 = 0
  fits : kstack.toNat + 8192 < 18446744073709551616
  mine : ∀ a : Word, kstack.toNat ≤ a.toNat → a.toNat < kstack.toNat + 8192 → Private ctx own p a

theorem KSTACKSIZE_toNat : KSTACKSIZE.toNat = 8192 := by decide

theorem Stack.top (hst : Stack ctx own c kstack) : (kstack + KSTACKSIZE).toNat = kstack.toNat + 8192 := by
  have := hst.fits
  rw [BitVec.toNat_add, KSTACKSIZE_toNat]
  omega

theorem Stack.topFrame (hst : Stack ctx own c kstack) : (topFrame kstack).toNat = kstack.toNat + 7904 := by
  have htop := hst.top
  unfold Trap.topFrame
  rw [sub_FRAME (by omega), htop]
  omega

theorem Stack.slot (hst : Stack ctx own c kstack) (hk : k < 36) :
    Private ctx own c (slot (Trap.topFrame kstack) k) := by
  have htop := hst.topFrame
  have hfits := hst.fits
  refine hst.mine _ ?_ ?_ <;> rw [slot_toNat] <;> omega

-- What copy_thread leaves: the trapframe and the context of the child
theorem copyThread_spec (forkret esp : Word) (tf : TrapFrame) (mem : Word → Word) (hown : Owners ctx own) (hst : Stack ctx own c kstack) :
    frameAt (copyThread forkret (ctx c) kstack esp tf mem) (topFrame kstack) = childFrame kstack esp tf ∧
      copyThread forkret (ctx c) kstack esp tf mem (slot (ctx c) 0) = forkret ∧
      copyThread forkret (ctx c) kstack esp tf mem (slot (ctx c) 1) = topFrame kstack ∧
      ∀ a, ¬own c a → copyThread forkret (ctx c) kstack esp tf mem a = mem a := by
  have hnodup : ([(slot (ctx c) 0, forkret), (slot (ctx c) 1, topFrame kstack)].map Prod.fst).Nodup := by
    have hne : slot (ctx c) 0 ≠ slot (ctx c) 1 := fun he => absurd (slot_inj (by decide) (by decide) he) (by decide)
    simpa using hne
  have hpair : ∀ q ∈ [(slot (ctx c) 0, forkret), (slot (ctx c) 1, topFrame kstack)],
      copyThread forkret (ctx c) kstack esp tf mem q.1 = q.2 := fun q hq => assign_mem hnodup hq
  have hother : ∀ a, a ≠ slot (ctx c) 0 → a ≠ slot (ctx c) 1 → copyThread forkret (ctx c) kstack esp tf mem a =
      putFrame mem (topFrame kstack) (childFrame kstack esp tf) a := by
    intro a h0 h1
    apply assign_other
    simpa using And.intro h0 h1
  refine ⟨?_, hpair (slot (ctx c) 0, forkret) (by simp), hpair (slot (ctx c) 1, topFrame kstack) (by simp),
    fun a ha => ?_⟩
  · have hput : frameAt (putFrame mem (topFrame kstack) (childFrame kstack esp tf)) (topFrame kstack) =
        childFrame kstack esp tf := frameAt_putFrame
    rw [← hput]
    refine frameAt_congr fun k hk => hother _ ?_ ?_
    · exact (hst.slot hk).2 0 (by decide)
    · exact (hst.slot hk).2 1 (by decide)
  · rw [hother a (fun he => ha (he ▸ hown.context c 0 (by decide))) (fun he => ha (he ▸ hown.context c 1 (by decide)))]
    exact putFrame_outside fun k hk he => ha (he ▸ (hst.slot hk).1)

theorem run_forkrets (harg : h.x a0 = b) (hal : b.toNat % 8 = 0) (hf : frameAt h.mem b = f) :
    ∃ h', Hart.run 0 forkrets h = some h' ∧ Resumed f h'.sret ∧ h'.sret.mem = h.mem ∧
      h'.sret.csr .sscratch = if previous f.status = .user then b + FRAME else h.csr .sscratch := by
  have hmv : Hart.run 0 forkrets h = Hart.run 0 trapret (h.set sp b) := by
    rw [forkrets, Hart.run_mv, Hart.reg_of_ne (by decide), harg]
  have hsp : (h.set sp b).x sp = b := by rw [Hart.set_x, Function.update_self]
  rw [hmv]
  exact run_trapret hsp hal hf

-- A new process until another one switches to it for the first time
structure First (ctx : P → Word) (own : P → Word → Prop) (c p t : P) (h h₁ h₂ : Hart) : Prop where
  away : Away ctx own c p h t h₁
  kernel : h₁.mode = .supervisor ∧ h₁.csr .sscratch = 0
  enter : h₁.x a0 = ctx t ∧ h₁.x a1 = ctx c ∧ Hart.run 0 switchTo h₁ = some h₂

-- It begins at forkret, on its own stack below its trapframe.
theorem First.begins (hfirst : First ctx own c p t h h₁ h₂) (hown : Owners ctx own) (hst : Stack ctx own c kstack)
    (hpc : p ≠ c) (hmem : h.mem = copyThread forkret (ctx c) kstack esp tf mem) :
    h₂.x ra = forkret ∧ InKernel kstack.toNat (topFrame kstack) h₂ ∧
      frameAt h₂.mem (topFrame kstack) = childFrame kstack esp tf := by
  obtain ⟨hframe, hra, hsp, _⟩ := copyThread_spec forkret esp tf mem hown hst
  obtain ⟨hprev, hnext, hrun⟩ := hfirst.enter
  obtain ⟨htc, hkeep⟩ := hfirst.away.spec hown hpc
  obtain ⟨_, hrun', _, hload, hothers, _, hcsr, hmode⟩ := run_switchTo hown htc hprev hnext
  rw [hrun] at hrun'
  obtain rfl := Option.some.inj hrun'
  -- neither its context nor its stack has changed
  have hctx : ∀ q ∈ context, h₂.x q.1 = h.mem (slot (ctx c) q.2) := fun q hq =>
    (hload q hq).symm.trans (hkeep _ (hown.context c q.2 (context_slot q hq)))
  have hra₂ : h₂.x ra = forkret := (hctx (ra, 0) (by decide)).trans (by rw [hmem]; exact hra)
  have hsp₂ : h₂.x sp = topFrame kstack := (hctx (sp, 1) (by decide)).trans (by rw [hmem]; exact hsp)
  have hframe₂ : frameAt h₂.mem (topFrame kstack) = childFrame kstack esp tf := by
    rw [← hframe, ← hmem]
    refine frameAt_congr fun k hk => ?_
    exact (hothers c _ (Ne.symm htc) (hst.slot hk).1).trans (hkeep _ (hst.slot hk).1)
  have htop := hst.topFrame
  have hal := hst.aligned
  have hk₂ : InKernel kstack.toNat (topFrame kstack) h₂ := by
    refine ⟨hmode.trans hfirst.kernel.1, hcsr ▸ hfirst.kernel.2, ?_, ?_, ?_⟩ <;> rw [hsp₂, htop] <;> omega
  exact ⟨hra₂, hk₂, hframe₂⟩

-- From there it comes to its trapframe through forkrets.
theorem First.starts (hfirst : First ctx own c p t h h₁ h₂) (hown : Owners ctx own) (hst : Stack ctx own c kstack)
    (hpc : p ≠ c) (hmem : h.mem = copyThread forkret (ctx c) kstack esp tf mem)
    (hact : Activity kstack.toNat (kstack.toNat + 8192) (topFrame kstack) (childFrame kstack esp tf) f h₂ h₃)
    (harg : h₃.x a0 = topFrame kstack) :
    ∃ h₄, Hart.run 0 forkrets h₃ = some h₄ ∧ Resumed f h₄.sret ∧
      h₄.sret.csr .sscratch = if previous f.status = .user then kstack + KSTACKSIZE else 0 := by
  obtain ⟨_, hk₂, hframe₂⟩ := hfirst.begins hown hst hpc hmem
  have htop := hst.topFrame
  have hal := hst.aligned
  obtain ⟨hk₃, hf₃, _⟩ := hact.spec hk₂ hframe₂ (by omega) hst.fits
  obtain ⟨h₄, hrun₄, hres, _, hscratch⟩ := run_forkrets harg (by omega) hf₃
  refine ⟨h₄, hrun₄, hres, ?_⟩
  rw [hscratch, topFrame, BitVec.sub_add_cancel, hk₃.scratch]

theorem childFrame_returned {cause : Word} (hsp : h.x sp ≠ 0)
    (hres : Resumed (childFrame kstack (h.x sp) (skipped (.of (h.trap cause tval)))) h')
    (hscratch : h'.csr .sscratch = w) : Returned h 0 w h' := by
  refine ⟨fun r hr => ?_, hres.pc, hres.mode.trans (previous_enter _ _), hscratch, hres.status.trans (leave_enter _ _)⟩
  rw [hres.reg r hr]
  show Function.update (Function.update h.reg a0 0) sp (if h.x sp = 0 then topFrame kstack else h.x sp) r = _
  rw [if_neg hsp, Function.update_apply, Function.update_apply, Hart.reg_of_ne hr]
  by_cases hrsp : r = sp
  · rw [if_pos hrsp, hrsp, if_neg (by decide)]
  · rw [if_neg hrsp]

-- fork: the parent and the child are both behind the ecall with the registers of the call,
-- the parent with the pid and the child with 0. The parent returns as from any call; the
-- child is made by copy_thread, waits until it is switched to, and comes to user mode
-- through forkret.
theorem fork_returns_twice (hready : Ready lo hi h) (hfits : hi < 18446744073709551616) (hown : Owners ctx own)
    (hparent : ∀ a : Word, lo ≤ a.toNat → a.toNat < hi → Private ctx own p a) (hst : Stack ctx own c kstack)
    (hpc : p ≠ c) (huser : h.mode = .user) (hsp : h.x sp ≠ 0)
    (hsave : Hart.run 0 alltraps (h.trap CAUSE_USER_ECALL tval) = some h₁)
    (hbefore : Activity lo hi (h₁.x sp) (.of (h.trap CAUSE_USER_ECALL tval))
      (skipped (.of (h.trap CAUSE_USER_ECALL tval))) h₁ h₂)
    (hcopy : h₃ = { h₂ with
      mem := copyThread forkret (ctx c) kstack (h.x sp) (frameAt h₂.mem (h₁.x sp)) h₂.mem })
    (hafter : Activity lo hi (h₁.x sp) (skipped (.of (h.trap CAUSE_USER_ECALL tval)))
      (answer (skipped (.of (h.trap CAUSE_USER_ECALL tval))) pid) h₃ h₄)
    (hbal : h₄.x sp = h₁.x sp) (hfirst : First ctx own c p t h₃ h₅ h₆)
    (hchild : Activity kstack.toNat (kstack.toNat + 8192) (topFrame kstack)
      (childFrame kstack (h.x sp) (skipped (.of (h.trap CAUSE_USER_ECALL tval))))
      (childFrame kstack (h.x sp) (skipped (.of (h.trap CAUSE_USER_ECALL tval)))) h₆ h₇)
    (harg : h₇.x a0 = topFrame kstack) :
    ∃ hp hc, Hart.run 0 trapret h₄ = some hp ∧ Returned h (pid.signExtend 64) (h.csr .sscratch) hp.sret ∧
      h₆.x ra = forkret ∧ Hart.run 0 forkrets h₇ = some hc ∧ Returned h 0 (kstack + KSTACKSIZE) hc.sret := by
  obtain ⟨h₁', hsave', _, hsp₁, hframe, hk₁, htop, _⟩ := hready.enter CAUSE_USER_ECALL tval
  rw [hsave] at hsave'
  obtain rfl := Option.some.inj hsave'
  obtain ⟨hk₂, hf₂, _⟩ := hbefore.spec hk₁ hframe htop hfits
  rw [hf₂] at hcopy
  obtain ⟨_, _, _, hother⟩ := copyThread_spec forkret (h.x sp)
    (skipped (.of (h.trap CAUSE_USER_ECALL tval))) h₂.mem hown hst
  have hlow := hk₁.low
  -- copy_thread does not touch the stack of the parent
  have hkeep : ∀ a : Word, lo ≤ a.toNat → a.toNat < hi → h₃.mem a = h₂.mem a := by
    intro a hlo hhi
    rw [hcopy]
    exact hother a fun hc => hpc (hown.apart p c a (hparent a hlo hhi).1 hc)
  have hcode : Code lo hi (h₁.x sp) h₂ h₃ := by
    refine ⟨?_, fun a hlo hhi => hkeep a (by omega) hhi⟩
    rw [hcopy]
    exact ⟨hk₂.mode, hk₂.scratch, hk₂.low, hk₂.high, hk₂.aligned⟩
  have hf₃ : frameAt h₃.mem (h₁.x sp) = skipped (.of (h.trap CAUSE_USER_ECALL tval)) := by
    rw [← hf₂]
    refine frameAt_congr fun k hk => hkeep _ ?_ ?_ <;> rw [slot_toNat] <;> omega
  obtain ⟨hk₄, hf₄, _⟩ := hafter.spec hcode.kernel hf₃ htop hfits
  obtain ⟨hp, hrestore, hres, hscratch, _, _⟩ := hready.leave CAUSE_USER_ECALL tval hsp₁ hk₁ hk₄
    hf₄ hbal
  have hmem₃ : h₃.mem = copyThread forkret (ctx c) kstack (h.x sp) (skipped (.of (h.trap CAUSE_USER_ECALL tval))) h₂.mem :=
    congrArg Hart.mem hcopy
  obtain ⟨hra, _, _⟩ := hfirst.begins hown hst hpc hmem₃
  obtain ⟨hc, hrun, hres', hscratch'⟩ := hfirst.starts hown hst hpc hmem₃ hchild harg
  have hback : previous (childFrame kstack (h.x sp) (skipped (.of (h.trap CAUSE_USER_ECALL tval)))).status = .user :=
    (previous_enter _ _).trans huser
  rw [if_pos hback] at hscratch'
  exact ⟨hp, hc, hrestore, hres.returned (hscratch (previous_enter _ _)), hra, hrun,
    childFrame_returned hsp hres' hscratch'⟩

theorem childStack : Stack twoContexts twoOwners true 65536 where
  aligned := by decide
  fits := by decide
  mine a hlo _ := by
    have hkstack : (65536 : Word).toNat = 65536 := by decide
    rw [hkstack] at hlo
    refine ⟨(decide_eq_true (by omega)).symm, ?_⟩
    rintro k hk rfl
    have hctx : (twoContexts true).toNat = 32768 := by decide
    rw [slot_toNat, hctx] at hlo
    omega

-- The kernel code of a process sets a register.
theorem InKernel.set (hk : InKernel lo b h) {r : Reg} (hr : sp ≠ r) : InKernel lo b (h.set r w) := by
  have hsp : (h.set r w).x sp = h.x sp := Function.update_of_ne hr _ _
  exact ⟨hk.mode, hk.scratch, hsp ▸ hk.low, hsp ▸ hk.high, hsp ▸ hk.aligned⟩

-- The second process is switched to for the first time.
theorem first_next (hmode : h.mode = .supervisor) (hscratch : h.csr .sscratch = 0) :
    ∃ h₂, First twoContexts twoOwners true false false h (switchArgs false true h) h₂ := by
  obtain ⟨h₂, hrun, _⟩ := run_switchTo twoContexts_owners (p := false) (q := true) (by decide)
    (switchArgs_a0 false true h) (switchArgs_a1 false true h)
  have hkeep : ∀ t a, t ≠ false → twoOwners t a → (switchArgs false true h).mem a = h.mem a := fun _ _ _ _ => rfl
  exact ⟨h₂, .work hkeep .done, ⟨hmode, hscratch⟩, switchArgs_a0 _ _ _, switchArgs_a1 _ _ _, hrun⟩

theorem set_arg (h : Hart) (w : Word) : (h.set a0 w).x a0 = w := by
  rw [Hart.set_x, Function.update_self]

-- userHart forks, and its child is the next process.
theorem fork_returns_twice_user : ∃ h₄ h₆ h₇ hp hc : Hart, Hart.run 0 trapret h₄ = some hp ∧
    Returned userHart ((3 : BitVec 32).signExtend 64) 8192 hp.sret ∧ h₆.x ra = 0x80 ∧
    Hart.run 0 forkrets h₇ = some hc ∧ Returned userHart 0 (65536 + KSTACKSIZE) hc.sret := by
  have hready : Ready 4096 8192 userHart :=
    ⟨fun _ => by decide, fun hno => absurd hno (by decide), by decide, by decide, by decide⟩
  obtain ⟨h₁, hsave, _, _, hframe, hk₁, htop, _⟩ := hready.enter CAUSE_USER_ECALL 0
  obtain ⟨h₂, hcode₂, hframe₂, hsp₂⟩ := code_putFrame hk₁ htop (by decide)
    (skipped (.of (userHart.trap CAUSE_USER_ECALL 0)))
  have hk₂ := hcode₂.kernel
  generalize hcopy : { h₂ with
    mem := copyThread 0x80 (twoContexts true) 65536 (userHart.x sp) (frameAt h₂.mem (h₁.x sp)) h₂.mem } = h₃
  have hk₃ : InKernel 4096 (h₁.x sp) h₃ := by
    rw [← hcopy]
    exact ⟨hk₂.mode, hk₂.scratch, hk₂.low, hk₂.high, hk₂.aligned⟩
  have hmem₃ : h₃.mem = copyThread 0x80 (twoContexts true) 65536 (userHart.x sp) (frameAt h₂.mem (h₁.x sp)) h₂.mem :=
    (congrArg Hart.mem hcopy).symm
  have hsp₃ : h₃.x sp = h₁.x sp := (congrFun (congrArg Hart.x hcopy.symm) sp).trans hsp₂
  -- the parent puts the result in its trapframe
  obtain ⟨h₄, hcode₄, hframe₄, hsp₄⟩ := code_putFrame hk₃ htop (by decide)
    (answer (skipped (.of (userHart.trap CAUSE_USER_ECALL 0))) 3)
  -- and gives the processor to its child
  obtain ⟨h₆, hfirst⟩ := first_next hk₃.mode hk₃.scratch
  obtain ⟨_, hk₆, hframe₆⟩ := hfirst.begins twoContexts_owners childStack (by decide) hmem₃
  rw [hframe₂] at hframe₆
  have hstack : ∀ a : Word, 4096 ≤ a.toNat → a.toNat < 8192 → Private twoContexts twoOwners false a := fun a _ hhi =>
    firstPrivate a (by omega)
  obtain ⟨hp, hc, hall⟩ := fork_returns_twice hready (by decide) twoContexts_owners hstack childStack (by decide) rfl
    (by decide) hsave (.code hcode₂ hframe₂ .done) hcopy.symm (.code hcode₄ hframe₄ .done) (hsp₄.trans hsp₃) hfirst
    (.code ⟨hk₆.set (by decide), fun _ _ _ => rfl⟩ hframe₆ .done) (set_arg h₆ _)
  exact ⟨h₄, h₆, _, hp, hc, hall⟩

end Ucore.Trap
