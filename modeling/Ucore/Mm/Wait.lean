import Ucore.Mm.Theorems

namespace Ucore.Mm

open Lib Pmm

variable {s s₀ s₁ s' : Sys} {vm : VM} {managed : Finset Nat} {role : Nat → Role} {bad : Obs → Prop} {addr i r value : Nat}
  {mm : MmStruct} {space : Nat → Option (List VmaStruct)} {vmas : List VmaStruct} {vma : VmaStruct} {t : Task}
  {E : Halt → Prop} {Q : Bool → Sys → Prop}

-- The beginning of do_wait: user_mem_check for the place of the exit code
def waitCheck (i addr : Nat) : SysM Bool := do
  let s ← Prog.get
  match s.task i with
  | none => pure false
  | some task => do
      let (ok, mm) ← onVm (userMemCheck task.mm addr 4 true)
      setTask i (some { task with mm := mm })
      pure ok

-- Process `i` sleeps in do_wait while the others run.
inductive Sleeps (i : Nat) : Sys → Sys → Prop
  | refl (s : Sys) : Sleeps i s s
  | step {s s' s'' : Sys} {act : Act} {reply : Reply} (sleep : Sleeps i s s') (other : act.task ≠ i)
      (enabled : Enabled s' act) (result : (Mm.step act s').result = .ok (reply, s''))
      (tame : ∀ o ∈ (Mm.step act s').log, Tame o) : Sleeps i s s''

theorem Sleeps.inv (hsleep : Sleeps i s s') (h : SysInv s managed role space) :
    ∃ role space, SysInv s' managed role space := by
  induction hsleep with
  | refl => exact ⟨role, space, h⟩
  | step sleep other enabled result tame ih =>
      obtain ⟨role, space, h'⟩ := ih
      exact h'.next enabled result tame

theorem Sleeps.task (hsleep : Sleeps i s s') (ht : s.task i = some t) : s'.task i = some t := by
  induction hsleep with
  | refl => exact ht
  | step sleep other enabled result tame ih =>
      rename_i s' s'' act reply
      have hchild : act.child ≠ some i := by
        intro hchild
        cases act with
        | fork j child stack room =>
            obtain rfl : child = i := Option.some.inj hchild
            rw [enabled.2] at ih
            cases ih
        | exec | exit | load | store | code | reap => cases hchild
      rw [Prog.wp_ok (step_tasks act s') (fun o ho hno => hno) result i (Ne.symm other) hchild]
      exact ih

-- A page of a writable vma may be written at once unless its leaf is missing or shared.
theorem Space.writable_iff (h : Space vm.mem r vmas) (haddr : addr < USERTOP) (hvma : vma ∈ vmas)
    (hin : vma.contains addr = true) (hflag : vma.vmFlags &&& VM_WRITE ≠ 0) :
    Writable vm r addr ↔ ∃ lf, Mm.leaf vm.mem r (addr / PGSIZE) = some lf ∧ lf.perm &&& PTE_COW = 0 := by
  refine (and_iff_right haddr).trans (exists_congr fun lf => and_congr_right fun hlf => ?_)
  obtain ⟨w, hw, hcovw, hperm⟩ := h.leaf _ lf (page_lt haddr) hlf
  obtain rfl := h.unique hw hvma hcovw ((h.ok vma hvma).covers hin)
  constructor
  · exact fun hbit => hperm.once.resolve_left hbit
  · exact fun hcow => (hperm.write.mpr hflag).resolve_right (not_not.mpr hcow)

namespace SysInv

-- What the check lets through lies in writable vmas; nothing else has changed then.
theorem wp_waitCheck (h : SysInv s managed role space) (ht : s.task i = some t) (hmm : t.mm = some mm)
    (hq : ∀ ok s₁ mm₁, SysInv s₁ managed role space → s₁.task i = some { t with mm := some mm₁ } → SameMm mm mm₁ →
      (ok = true → ∀ k < 4, addr + k < USERTOP ∧ mm.Allows true (addr + k)) → Q ok s₁) :
    Prog.wp bad (waitCheck i addr) s Q E := by
  have hown := h.owned i mm ((Sys.mm_eq ht).trans hmm)
  have hspace := h.vm.space _ _ hown.space
  simp only [waitCheck, Prog.wp_bind, Prog.wp_get, ht, hmm, wp_onVm]
  refine wp_userMemCheck ⟨fun vma hvma => (hspace.ok vma hvma).lt, hspace.sorted, hown.cache⟩ fun ok mm₁ hsame hok => ?_
  simp only [wp_setTask, Prog.wp_pure]
  refine hq ok _ mm₁ (h.same h.vm ht hmm hsame fun _ _ hk => hk) (Function.update_self ..) hsame fun hyes k hk => ?_
  obtain ⟨haccess, hall⟩ := hok hyes
  obtain ⟨_, hlt, htop⟩ := of_decide_eq_true haccess
  have hu : u64 (addr + 4) = addr + 4 := by
    unfold u64 at hlt ⊢
    omega
  rw [hu] at htop hall
  exact ⟨by omega, hall _ (by omega) (by omega)⟩

-- The store succeeds, or the kernel panics, as the pages are.
theorem code_exact (h : SysInv s managed role space) (ht : s.task i = some t) (hmm : t.mm = some mm) (addr value : Nat) :
    ((∀ k < 4, Writable s.vm mm.pgdir (addr + k)) ∧ ∃ s', (step (.code i addr value) s).result = .ok (.done 0, s')) ∨
      (¬∀ k < 4, Writable s.vm mm.pgdir (addr + k)) ∧
        (step (.code i addr value) s).result = .error (.panic "kernel page fault.\n") := by
  have hwp : Prog.wp (fun _ => False) (step (.code i addr value)) s
      (fun reply _ => reply = .done 0 ∧ ∀ k < 4, Writable s.vm mm.pgdir (addr + k))
      fun e => (¬∀ k < 4, Writable s.vm mm.pgdir (addr + k)) ∧ e = .panic "kernel page fault.\n" :=
    h.wp_code ht hmm (fun ⟨k, hk, hno⟩ => ⟨fun hall => hno (hall k hk), rfl⟩) fun s' hall _ _ => ⟨rfl, hall⟩
  rcases Prog.wp_total hwp with ⟨reply, s', hr, rfl, hall⟩ | ⟨e, hr, hno, rfl⟩
  · exact Or.inl ⟨hall, s', hr⟩
  · exact Or.inr ⟨hno, hr⟩

end SysInv

-- Every byte of the number is on a page that is there and is not shared.
def Sys.Private (s : Sys) (mm : MmStruct) (addr : Nat) : Prop :=
  ∀ k < 4, ∃ lf, leaf s.vm.mem mm.pgdir ((addr + k) / PGSIZE) = some lf ∧ lf.perm &&& PTE_COW = 0

-- The check looks at vmas, and the store at pages.
theorem wait_store_exact (hboot : s₀.Booted managed) (hrun : Run Tame s₀ s) (hmm : s.mm i = some mm)
    (hcheck : (waitCheck i addr s).result = .ok (true, s₁)) (hsleep : Sleeps i s₁ s') :
    ((step (.code i addr value) s').result ≠ .error (.panic "kernel page fault.\n") ↔ s'.Private mm addr) ∧
      (s'.Private mm addr → ∃ s'', (step (.code i addr value) s').result = .ok (.done 0, s'')) := by
  obtain ⟨role, space, h⟩ := hrun.inv hboot
  obtain ⟨t, ht, hmm⟩ := Option.bind_eq_some_iff.mp hmm
  have hwp : Prog.wp (fun _ => False) (waitCheck i addr) s (fun ok s₁ => ∃ mm₁, SysInv s₁ managed role space ∧
      s₁.task i = some { t with mm := some mm₁ } ∧ SameMm mm mm₁ ∧
      (ok = true → ∀ k < 4, addr + k < USERTOP ∧ mm.Allows true (addr + k))) fun _ => True :=
    h.wp_waitCheck ht hmm fun ok s₁ mm₁ h₁ ht₁ hsame hok => ⟨mm₁, h₁, ht₁, hsame, hok⟩
  obtain ⟨mm₁, h₁, ht₁, hsame, hok⟩ := Prog.wp_ok hwp (fun _ _ hno => hno) hcheck
  obtain ⟨role', space', h'⟩ := hsleep.inv h₁
  have ht' := hsleep.task ht₁
  have hspace := h'.vm.space _ _ (h'.owned i mm₁ (Sys.mm_eq ht')).space
  have hwrite : (∀ k < 4, Writable s'.vm mm₁.pgdir (addr + k)) ↔ s'.Private mm addr := by
    refine forall_congr' fun k => forall_congr' fun hk => ?_
    obtain ⟨haddr, ⟨vma, hvma, hin, hflag⟩, _⟩ := hok rfl k hk
    rw [← hsame.mmapList] at hvma
    rw [hspace.writable_iff haddr hvma hin hflag, hsame.pgdir]
  rw [← hwrite]
  rcases h'.code_exact ht' rfl addr value with ⟨hall, s'', hr⟩ | ⟨hno, hr⟩
  · rw [hr]
    exact ⟨⟨fun _ => hall, fun _ hno => by cases hno⟩, fun _ => ⟨s'', rfl⟩⟩
  · exact ⟨⟨fun hne => absurd hr hne, fun hall => absurd hall hno⟩, fun hall => absurd hall hno⟩

-- The others run while process `i` sleeps, if the check lets its address through.
def Sys.sleeps (s : Sys) (i addr : Nat) (acts : List Act) : Option Sys :=
  match (waitCheck i addr s).result with
  | .ok (true, s) => s.runs Tame acts
  | _ => none

theorem Sys.sleeps_spec {acts : List Act} (hs : s.sleeps i addr acts = some s') (hother : ∀ act ∈ acts, act.task ≠ i) :
    ∃ s₁, (waitCheck i addr s).result = .ok (true, s₁) ∧ Sleeps i s₁ s' := by
  unfold Sys.sleeps at hs
  split at hs
  · rename_i s₁ hcheck
    exact ⟨s₁, hcheck, Sys.runs_induction (.refl s₁) hs fun act hact _ _ _ hsleep hen hr hlog =>
      .step hsleep (hother act hact) hen hr hlog⟩
  · cases hs

-- The exit code goes to the segment of the image. The parent has written there behind the fork.
def writtenActs : List Act := firstActs ++ [forkHello, .store 2 0x7FE00012 1]

def Sys.stores (s : Sys) : Bool :=
  (s.sleeps 2 0x7FE00010 [.exit 3]).any fun s' => (s.mm 2).any fun mm => (List.range 4).all fun k =>
    (leaf s'.vm.mem mm.pgdir ((0x7FE00010 + k) / PGSIZE)).any fun lf => decide (lf.perm &&& PTE_COW = 0)

theorem wait_store_exact_written : ∃ s₁ s' s'', Sleeps 2 s₁ s' ∧ (step (.code 2 0x7FE00010 7) s').result = .ok (.done 0, s'') := by
  have hruns : (bootSys.runs Tame writtenActs).any Sys.stores = true := by decide +kernel
  obtain ⟨s, hs, hstores⟩ := (Option.any_eq_true ..).mp hruns
  simp only [Sys.stores, Option.any_eq_true, List.all_eq_true, List.mem_range, decide_eq_true_eq] at hstores
  obtain ⟨s', hs', mm, hmm, hprivate⟩ := hstores
  obtain ⟨s₁, hcheck, hsleep⟩ := Sys.sleeps_spec hs' fun act hact => by
    obtain rfl := List.mem_singleton.mp hact
    decide
  obtain ⟨s'', hr⟩ := (wait_store_exact bootSys_booted (Run.runs (.refl bootSys) hs) hmm hcheck hsleep).2 hprivate
  exact ⟨s₁, s', s'', hsleep, hr⟩

-- It has not, and the page is shared with the child, or with a zombie.
theorem wait_store_faults : ∃ s s₁ s' mm, Run Tame bootSys s ∧ s.mm 2 = some mm ∧
    (waitCheck 2 0x7FE00010 s).result = .ok (true, s₁) ∧ Sleeps 2 s₁ s' ∧
    (step (.code 2 0x7FE00010 7) s').result = .error (.panic "kernel page fault.\n") := by
  have hruns : (bootSys.runs Tame (firstActs ++ [forkHello])).any (fun s => (s.mm 2).isSome &&
      (s.sleeps 2 0x7FE00010 [.exit 3]).any fun s' => s'.faults (.code 2 0x7FE00010 7)) = true := by
    decide +kernel
  obtain ⟨s, hs, hfaults⟩ := (Option.any_eq_true ..).mp hruns
  obtain ⟨hmm, hfaults⟩ := Bool.and_eq_true_iff.mp hfaults
  obtain ⟨mm, hmm⟩ := Option.isSome_iff_exists.mp hmm
  obtain ⟨s', hs', hfaults⟩ := (Option.any_eq_true ..).mp hfaults
  obtain ⟨s₁, hcheck, hsleep⟩ := Sys.sleeps_spec hs' fun act hact => by
    obtain rfl := List.mem_singleton.mp hact
    decide
  exact ⟨s, s₁, s', mm, Run.runs (.refl bootSys) hs, hmm, hcheck, hsleep, Sys.faults_result hfaults⟩

end Ucore.Mm
