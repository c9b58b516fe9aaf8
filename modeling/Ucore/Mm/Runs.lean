import Ucore.Mm.Exec
import Ucore.Mm.Refine
import Ucore.Mm.Boot

namespace Ucore.Mm

open Lib Pmm

variable {s s' : Sys} {managed : Finset Nat} {role role' : Nat → Role} {bad : Obs → Prop} {act : Act}
  {addr i j k len name r value : Nat} {img : Image} {mm : MmStruct} {space space' : Nat → Option (List VmaStruct)}
  {t : Task} {E : Halt → Prop} {Q : Reply → Sys → Prop} {reply : Reply}

-- The steps that may end in a panic: a page fault of the kernel, an assertion of load_icode,
-- and what would end idleproc or initproc.
def Sys.MayPanic (s : Sys) : Act → Prop
  | .fork _ _ _ _ => False
  | .exec _ _ _ _ _ => True
  | .exit i => s.current i ≠ .other
  | .load i _ => s.current i ≠ .other
  | .store i _ _ => s.current i ≠ .other
  | .code _ _ _ => True
  | .reap i => s.current i ≠ .other

namespace SysInv

-- do_execve gives the process another address space, or takes its own.
theorem execs (h : SysInv s managed role space) (ht : s.task i = some t) {t' : Task} {ret : Int} {vm' : VM}
    {good : Prop} (hex : Execs space t img good s.vm.mem vm'.mem ret t' space') (hvm : VmInv vm' managed role' space')
    (hev : Evolves s.vm vm' role role' fun q => ∃ mm, t.mm = some mm ∧ q = mm.pgdir) (hz : t.zombie = false) :
    SysInv (s.put vm' i (some t')) managed role' space' := by
  have hold : s.mm i = t.mm := Sys.mm_eq ht
  have hks : s.kstack i = t.kstack := Sys.kstack_eq ht
  cases hex with
  | refused same none _ =>
      rename_i mm'
      cases hmm : t.mm with
      | none =>
          obtain rfl := none hmm
          have htask : { t with mm := Option.none } = t := by rw [← hmm]
          rw [htask, Sys.put_self ht]
          refine (h.evolve hvm (hev.mono fun q _ hq => ?_)).1
          obtain ⟨mm, hm, _⟩ := hq
          rw [hmm] at hm
          cases hm
      | some mm =>
          obtain ⟨mm₁, rfl, hsame⟩ := same mm hmm
          exact h.same hvm ht hmm hsame hev.kstack
  | loaded fresh owned image =>
      rename_i mm
      refine h.put hvm ?_ ?_ (fun r hr => ?_) (fun k hk => ?_) (fun j k hj hk => ⟨fun hik => ?_, ?_⟩) ?_ ?_
      · rintro _ ⟨⟩
        exact owned
      · rintro _ ⟨⟩
        rw [without_apply] at fresh
        split_ifs at fresh with hex
        · obtain ⟨mm', hmm', he⟩ := hex
          exact Or.inr ⟨mm', hold.trans hmm', he.symm⟩
        · exact Or.inl fresh
      · rw [Function.update_of_ne (Ne.symm (hr mm rfl)), hold]
        exact without_apply t.mm r
      · exact h.others_stack hev (hks.trans hk)
      · exact hj (h.single j i k hk (hks.trans hik))
      · exact h.others_stack hev hk
      · rintro _ ⟨⟩ hno
        exact absurd (hz.symm.trans hno) (by decide)
      · rintro _ ⟨⟩ hcur
        exact h.stack i t ht hcur
  | failed fails bad => exact h.drop hvm hev ht true

-- The others keep their memory when the address space of `i` changes.
theorem others (h : SysInv s managed role space) (ht : s.task i = some t) {vm' : VM} {o : Option Task}
    (hev : Evolves s.vm vm' role role' fun q => ∃ mm, t.mm = some mm ∧ q = mm.pgdir) (hj : j ≠ i) :
    (s.put vm' i o).memory j = s.memory j := by
  refine (congrFun (Sys.memory_put fun j' mm hj' hm v => hev.view _ v (h.root hm) ?_) j).trans ?_
  · rintro ⟨mm', hm', he⟩
    exact hj' (h.apart j' i mm mm' hm ((Sys.mm_eq ht).trans hm') he)
  · rw [Function.update_of_ne hj]

theorem wp_exec {room : List Bool} (h : SysInv s managed role space) (hbad : bad .tail) (hcare : Careless bad E img.Mapped)
    (hname : len < 2 ^ 64 ∧ (∀ mm, t.mm = some mm → Present s.vm.mem mm.pgdir name (min len PROC_NAME_LEN)) ∨
      E (.panic "kernel page fault.\n")) (ht : s.task i = some t) (hz : t.zombie = false)
    (hq : ∀ reply s' role' space', SysInv s' managed role' space' → (∀ j, j ≠ i → s'.memory j = s.memory j) →
      Q reply s') :
    Prog.wp bad (step (.exec i name len img room)) s Q E := by
  have h₀ := h.room room
  have hmm : ∀ vm, Sys.mm { s with vm := vm } i = t.mm := fun vm => Sys.mm_eq ht
  simp only [step, Act.task, Prog.wp_bind, Prog.wp_get, ht, Prog.wp_modify, wp_onVm]
  refine wp_doExecve h₀.vm hbad hname (Or.inr hcare) (fun mm hm => h₀.owned i mm ((hmm _).trans hm))
    fun ret t' vm' role' space' hex hvm hev => ?_
  simp only [wp_setTask, Prog.wp_pure]
  exact hq _ _ role' space' (h₀.execs ht hex hvm hev hz) fun j hj => h₀.others ht hev hj

-- The store of the exit code changes only the memory of the parent.
theorem wp_code (h : SysInv s managed role space) (ht : s.task i = some t) (hmm : t.mm = some mm)
    (hpanic : (∃ k < 4, ¬Writable s.vm mm.pgdir (addr + k)) → E (.panic "kernel page fault.\n"))
    (hq : ∀ s', (∀ k < 4, Writable s.vm mm.pgdir (addr + k)) → SysInv s' managed role space →
      (∀ j, j ≠ i → s'.memory j = s.memory j) → Q (.done 0) s') :
    Prog.wp bad (step (.code i addr value)) s Q E := by
  have hi : s.mm i = some mm := (Sys.mm_eq ht).trans hmm
  simp only [step, Act.task, Prog.wp_bind, Prog.wp_get, ht, hmm, wp_onVm]
  refine wp_storeBytes h.vm (h.owned i mm hi).space hpanic fun vm' hall hvm hview => ?_
  have hput : s.put vm' i (some t) = { s with vm := vm' } := Sys.put_self ht
  rw [Prog.wp_pure, ← hput]
  have hinv : SysInv (s.put vm' i (some t)) managed role space := by
    rw [hput]
    exact ⟨hvm, h.owned, h.owner, h.apart, h.kstack, h.single, h.zombie, h.stack⟩
  refine hq _ hall hinv fun j hj => ?_
  refine (congrFun (Sys.memory_put fun j' mm' hj' hm v => hview _ v (h.root hm) fun he => ?_) j).trans ?_
  · exact hj' (h.apart j' i mm' mm hm hi he)
  · rw [Function.update_of_ne hj]

end SysInv

-- One step: the invariant is kept, and the memory of the other processes.
theorem SysInv.wp_step (h : SysInv s managed role space) (hbad : bad .tail) (hcare : s.MayPanic act → Careless bad E False)
    (hen : Enabled s act)
    (hq : ∀ reply s' role' space', SysInv s' managed role' space' →
      (∀ j, j ≠ act.task → act.child ≠ some j → s'.memory j = s.memory j) → Q reply s') :
    Prog.wp bad (step act) s Q E := by
  have hkill : ∀ {s' : Sys} {i j}, s'.eager = s.eager.kill i → j ≠ i → s'.memory j = s.memory j := by
    intro s' i j he hj
    exact (congrFun (congrArg Eager.memory he) j).trans (Function.update_of_ne hj ..)
  cases act with
  | fork i child stack room =>
      obtain ⟨⟨t, ht, _⟩, hchild⟩ := hen
      refine h.wp_fork hbad ht hchild (fun s' _ h' _ he => hq _ s' role space h' fun j _ _ => ?_)
        (fun s' role' space' _ _ _ h' _ _ he => hq _ s' role' space' h' fun j _ hj => ?_)
        fun s' role' _ _ h' _ he => hq _ s' role' space h' fun j _ _ => ?_
      · exact congrFun (congrArg Eager.memory he) j
      · refine (congrFun (congrArg Eager.memory he) j).trans (Function.update_of_ne ?_ ..)
        rintro rfl
        exact hj rfl
      · exact congrFun (congrArg Eager.memory he) j
  | exec i name len img room =>
      obtain ⟨t, ht, hz⟩ := hen
      have hcare := hcare trivial
      exact h.wp_exec hbad (hcare.imp False.elim) (Or.inr (hcare.panics not_false _)) ht hz fun reply s' role' space' h' hmem =>
        hq reply s' role' space' h' fun j hj _ => hmem j hj
  | exit i =>
      obtain ⟨t, ht, _⟩ := hen
      simp only [step, Act.task, Prog.wp_bind, Prog.wp_get, ht]
      exact h.wp_kill hbad ht (fun hcur => (hcare hcur).asserts) fun s' role' space' h' he =>
        hq _ s' role' space' h' fun j hj _ => hkill he hj
  | load i addr =>
      obtain ⟨t, ht, _, hsome⟩ := hen
      obtain ⟨mm, hmm⟩ := Option.isSome_iff_exists.mp hsome
      refine h.wp_load hbad ht hmm (fun hcur => (hcare hcur).asserts)
        (fun s' role' space' p _ _ h' he => hq _ s' role' space' h' fun j _ _ => ?_)
        (fun s' role' space' _ h' he => hq _ s' role' space' h' fun j hj _ => hkill he hj)
        fun s' role' space' _ h' he => hq _ s' role' space' h' fun j hj _ => hkill he hj
      exact congrFun (congrArg Eager.memory he) j
  | store i addr value =>
      obtain ⟨t, ht, _, hsome⟩ := hen
      obtain ⟨mm, hmm⟩ := Option.isSome_iff_exists.mp hsome
      refine h.wp_store hbad ht hmm (fun hcur => (hcare hcur).asserts)
        (fun s' role' space' p _ _ h' he => hq _ s' role' space' h' fun j hj _ => ?_)
        (fun s' role' space' _ h' he => hq _ s' role' space' h' fun j hj _ => hkill he hj)
        fun s' role' space' _ h' he => hq _ s' role' space' h' fun j hj _ => hkill he hj
      exact (congrFun (congrArg Eager.memory he) j).trans (Function.update_of_ne hj ..)
  | code i addr value =>
      obtain ⟨t, mm, ht, _, hmm, _⟩ := hen
      exact h.wp_code ht hmm (fun _ => (hcare trivial).panics not_false _) fun s' _ h' hmem =>
        hq _ s' role space h' fun j hj _ => hmem j hj
  | reap i =>
      obtain ⟨t, ht, hz⟩ := hen
      refine h.wp_reap hbad ht hz (fun hcur => (hcare hcur).asserts) fun s' role' h' he =>
        hq _ s' role' space h' fun j hj _ => ?_
      exact (congrFun (congrArg Eager.memory he) j).trans (Function.update_of_ne hj ..)

end Ucore.Mm
