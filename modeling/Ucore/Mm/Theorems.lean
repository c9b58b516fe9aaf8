import Ucore.Mm.Reachable
import Ucore.Mm.Elf

namespace Ucore.Mm

open Lib Pmm

variable {s s₀ s' : Sys} {managed : Finset Nat} {acts : List Act} {act : Act} {i child stack len name : Nat}
  {img : Image} {reply : Reply} {room : List Bool} {t : Task}

-- A step that the kernel may take, in runs without the end of do_wait
def Sys.ready (s : Sys) : Act → Bool
  | .fork i child _ _ => ((s.task i).any fun t => !t.zombie) && (s.task child).isNone
  | .exec i _ _ _ _ => (s.task i).any fun t => !t.zombie
  | .exit i => (s.task i).any fun t => !t.zombie
  | .load i _ => (s.task i).any fun t => !t.zombie && t.mm.isSome
  | .store i _ _ => (s.task i).any fun t => !t.zombie && t.mm.isSome
  | .code _ _ _ => false
  | .reap i => (s.task i).any fun t => t.zombie

theorem Sys.enabled (h : s.ready act = true) : Enabled s act := by
  cases act with
  | fork i child stack room =>
      simp only [Sys.ready, Bool.and_eq_true, Option.any_eq_true, Bool.not_eq_true', Option.isNone_iff_eq_none] at h
      exact h
  | exec i name len img room =>
      simp only [Sys.ready, Option.any_eq_true, Bool.not_eq_true'] at h
      exact h
  | exit i =>
      simp only [Sys.ready, Option.any_eq_true, Bool.not_eq_true'] at h
      exact h
  | load i addr =>
      simp only [Sys.ready, Option.any_eq_true, Bool.and_eq_true, Bool.not_eq_true'] at h
      exact h
  | store i addr value =>
      simp only [Sys.ready, Option.any_eq_true, Bool.and_eq_true, Bool.not_eq_true'] at h
      exact h
  | code i addr value => exact absurd h Bool.false_ne_true
  | reap i =>
      simp only [Sys.ready, Option.any_eq_true] at h
      exact h

-- Where a list of steps leads, if each of them is enabled, ends and notes only what is allowed.
def Sys.runs (ok : Obs → Prop) [DecidablePred ok] (s : Sys) : List Act → Option Sys
  | [] => some s
  | act :: acts =>
      if s.ready act && (step act s).log.all fun o => decide (ok o) then
        match (step act s).result with
        | .error _ => none
        | .ok (_, s) => s.runs ok acts
      else none

-- What each of these steps keeps holds at the end.
theorem Sys.runs_induction {ok : Obs → Prop} [DecidablePred ok] {P : Sys → Prop} (hp : P s) (hs : s.runs ok acts = some s')
    (hstep : ∀ act ∈ acts, ∀ s reply s', P s → Enabled s act → (step act s).result = .ok (reply, s') →
      (∀ o ∈ (step act s).log, ok o) → P s') : P s' := by
  induction acts generalizing s with
  | nil =>
      obtain rfl : s = s' := Option.some.inj hs
      exact hp
  | cons act acts ih =>
      rw [Sys.runs] at hs
      split_ifs at hs with hgo
      obtain ⟨hready, hlog⟩ := Bool.and_eq_true_iff.mp hgo
      cases hr : (step act s).result with
      | error e =>
          rw [hr] at hs
          cases hs
      | ok r =>
          obtain ⟨reply, s₁⟩ := r
          rw [hr] at hs
          have hp₁ := hstep act (List.mem_cons_self ..) s reply s₁ hp (Sys.enabled hready) hr fun o ho =>
            of_decide_eq_true (List.all_eq_true.mp hlog o ho)
          exact ih hp₁ hs fun act' hact => hstep act' (List.mem_cons_of_mem _ hact)

theorem Run.runs {ok : Obs → Prop} [DecidablePred ok] (hrun : Run ok s₀ s) (hs : s.runs ok acts = some s') :
    Run ok s₀ s' :=
  Sys.runs_induction hrun hs fun _ _ _ _ _ hrun hen hr hlog => .step hrun hen hr hlog

-- What the steps of a list reply, if each of them ends and notes only what is allowed.
def Sys.replies (ok : Obs → Prop) [DecidablePred ok] (s : Sys) : List Act → Option (List Reply)
  | [] => some []
  | act :: acts =>
      if (step act s).log.all fun o => decide (ok o) then
        match (step act s).result with
        | .error _ => none
        | .ok (reply, s) => (s.replies ok acts).map fun replies => reply :: replies
      else none

theorem Sys.replies_steps {ok : Obs → Prop} [DecidablePred ok] {replies : List Reply}
    (hs : s.replies ok acts = some replies) :
    (∀ o ∈ (steps acts s).log, ok o) ∧ (steps acts s).result.toOption.map Prod.fst = some replies := by
  induction acts generalizing s replies with
  | nil =>
      cases hs
      exact ⟨fun _ ho => absurd ho List.not_mem_nil, rfl⟩
  | cons act acts ih =>
      rw [Sys.replies] at hs
      split_ifs at hs with hlog
      cases hr : (Mm.step act s).result with
      | error e =>
          rw [hr] at hs
          cases hs
      | ok r =>
          obtain ⟨reply, s₁⟩ := r
          simp only [hr, Option.map_eq_some_iff] at hs
          obtain ⟨rest, hrest, rfl⟩ := hs
          obtain ⟨hgood, hreplies⟩ := ih hrest
          have hr₂ := Prog.result_ok hreplies s₁
          rw [steps, Prog.bind_log hr, Prog.bind_log hr₂, Prog.bind_ok hr, Prog.bind_ok hr₂]
          refine ⟨fun o ho => ?_, rfl⟩
          rcases List.mem_append.mp ho with ho | ho
          · exact of_decide_eq_true (List.all_eq_true.mp hlog o ho)
          · exact (List.mem_append.mp ho).elim (hgood o) fun hno => absurd hno List.not_mem_nil

-- One step, that ends with this reply and notes only what is allowed in the runs
def Sys.replied (s : Sys) (act : Act) (reply : Reply) : Bool :=
  s.ready act && (step act s).log.all (fun o => decide (Tame o)) &&
    decide ((step act s).result.toOption.map Prod.fst = some reply)

theorem Sys.replied_result (h : s.replied act reply = true) : s.ready act = true ∧ (∀ o ∈ (step act s).log, Tame o) ∧
    ∃ s', (step act s).result = .ok (reply, s') := by
  simp only [Sys.replied, Bool.and_eq_true, List.all_eq_true, decide_eq_true_eq] at h
  obtain ⟨⟨hready, htame⟩, hreply⟩ := h
  exact ⟨hready, htame, _, Prog.result_ok hreply s⟩

-- The kernel has a page fault of its own.
def Sys.faults (s : Sys) (act : Act) : Bool :=
  match (step act s).result with
  | .error e => decide (e = .panic "kernel page fault.\n")
  | .ok _ => false

theorem Sys.faults_result (h : s.faults act = true) : (step act s).result = .error (.panic "kernel page fault.\n") := by
  unfold Sys.faults at h
  cases hr : (step act s).result with
  | error e =>
      rw [hr] at h
      rw [of_decide_eq_true h]
  | ok r =>
      rw [hr] at h
      cases h

-- A machine with 22 pages, where only idleproc is there
def smallPages : FreeArea := { twoPages with npages := 22, fits := by decide }

def smallBooted : FreeArea :=
  ((defaultInitMemmap (defaultInit smallPages) 0 22).toOption).getD smallPages

def bootSys : Sys where
  vm := ⟨smallBooted, fun _ => Words.zero, [], []⟩
  task i := if i = 0 then some ⟨none, none, none, ⟨fun _ => 0, 0, 0, 0, 0⟩, false⟩ else none
  idleproc := 0
  initproc := 1
  nrProcess := 1

theorem bootSys_booted : bootSys.Booted (Finset.Ico 0 (0 + 22)) := by
  have hbooted : Pmm.Booted 0 22 smallBooted := ⟨smallPages, le_rfl, fun _ _ _ => rfl, rfl⟩
  have hl := hbooted.represents.freeList
  rw [Finset.sdiff_empty] at hl
  refine ⟨⟨_, hl⟩, rfl, fun i t ht => ?_⟩
  unfold bootSys at ht
  simp only at ht
  split_ifs at ht with hi
  cases ht
  exact ⟨hi, rfl, rfl, rfl⟩

def USTACK : Nat := 0x7FFFFFF0

-- initproc and the first user process, which forks
def initActs : List Act := [.fork 0 1 0 [], .fork 1 2 0 []]

def firstActs : List Act := initActs ++ [.exec 2 Pmm.KERNBASE 5 helloImage []]

def forkHello : Act := .fork 2 3 USTACK []

-- Two processes use all of the memory.
def pairActs : List Act := firstActs ++
  [.store 2 0x7FFFD008 0x1F, .store 2 0x7FFFD00B 0x20, .fork 2 5 USTACK [], .exec 2 0x7FE00010 3 helloImage []]

def userSys : Sys := (bootSys.runs Tame firstActs).getD bootSys

def forkSys : Sys := (bootSys.runs Tame (firstActs ++ [forkHello])).getD bootSys

theorem Run.getD {ok : Obs → Prop} [DecidablePred ok] (hs : (s.runs ok acts).isSome = true) :
    Run ok s ((s.runs ok acts).getD s) := by
  obtain ⟨s', he⟩ := Option.isSome_iff_exists.mp hs
  rw [he]
  exact Run.runs (.refl s) he

def fullSys : Sys := (bootSys.runs Tame (firstActs ++ [forkHello, .fork 2 4 USTACK []])).getD bootSys

theorem userSys_run : Run Tame bootSys userSys := Run.getD (by decide +kernel)

theorem forkSys_run : Run Tame bootSys forkSys := Run.getD (by decide +kernel)

-- In every run the processes share frames only by copy-on-write, and each frame knows
-- how many leaves point to it.
theorem run_coherent (hboot : s₀.Booted managed) (hrun : Run Tame s₀ s) : s.Coherent := by
  obtain ⟨role, space, h⟩ := hrun.inv hboot
  exact h.coherent

-- Parent and child share five frames.
theorem run_coherent_fork : forkSys.Coherent := run_coherent bootSys_booted forkSys_run

-- When one of them exits, default_free_pages adds a block twice, and pages are allocated
-- twice: a child gets its page table as a page, with a leaf in it that its parent wrote there.
def crashActs : List Act :=
  [.exit 2, .fork 5 3 USTACK [], .store 3 0x7FFFE008 7, .store 3 0x7FFFD010 1]

-- Process 3 has the kernel stack of initproc as one of its pages.
def Sys.crashed (s : Sys) : Bool :=
  decide (s.kstack 1 = some 0) &&
    (s.mm 3).any fun mm => decide (leaf s.vm.mem mm.pgdir 0x7FE01 = some ⟨0, 31⟩)

theorem run_incoherent : ∃ s, Run Unwrapped bootSys s ∧ ¬s.Coherent := by
  have hruns : (bootSys.runs Unwrapped (pairActs ++ crashActs)).any Sys.crashed = true := by decide +kernel
  obtain ⟨s, hs, hcrashed⟩ := (Option.any_eq_true ..).mp hruns
  simp only [Sys.crashed, Bool.and_eq_true, decide_eq_true_eq, Option.any_eq_true] at hcrashed
  obtain ⟨hstack, mm, hmm, hlf⟩ := hcrashed
  have hmaps : s.Maps 3 0x7FE01 ⟨0, 31⟩ := ⟨mm, hmm, by decide, hlf⟩
  exact ⟨s, Run.runs (.refl bootSys) hs, fun h => (h.kstack 3 _ _ 1 0 hmaps hstack).1 rfl⟩

-- In every run the page tables grant what the vmas of the process allow.
theorem run_guarded (hboot : s₀.Booted managed) (hrun : Run Tame s₀ s) : s.Guarded := by
  obtain ⟨role, space, h⟩ := hrun.inv hboot
  exact h.guarded

theorem run_guarded_fork : forkSys.Guarded := run_guarded bootSys_booted forkSys_run

-- The pages of the stack are executable, and its vma is not.
def Sys.executes (s : Sys) : Bool :=
  (s.mm 2).any fun mm =>
    (leaf s.vm.mem mm.pgdir 0x7FFFF).any (fun lf => decide (lf.perm &&& PTE_X ≠ 0)) &&
      mm.mmapList.all fun vma => decide (0x7FFFF * PGSIZE < vma.vmStart ∨ vma.vmEnd ≤ 0x7FFFF * PGSIZE) ||
        decide (vma.vmFlags &&& VM_EXEC = 0)

theorem stack_executable : ∃ s, Run Tame bootSys s ∧ ∃ i mm v lf, s.mm i = some mm ∧ s.Maps i v lf ∧
    lf.perm &&& PTE_X ≠ 0 ∧ ∀ vma ∈ mm.mmapList, vma.Covers v → vma.vmFlags &&& VM_EXEC = 0 := by
  have hruns : (bootSys.runs Tame firstActs).any Sys.executes = true := by decide +kernel
  obtain ⟨s, hs, hexec⟩ := (Option.any_eq_true ..).mp hruns
  simp only [Sys.executes, Bool.and_eq_true, Bool.or_eq_true, decide_eq_true_eq, Option.any_eq_true,
    List.all_eq_true] at hexec
  obtain ⟨mm, hmm, ⟨lf, hlf, hx⟩, hvmas⟩ := hexec
  refine ⟨s, Run.runs (.refl bootSys) hs, 2, mm, 0x7FFFF, lf, hmm, ⟨mm, hmm, by decide, hlf⟩, hx, fun vma hvma hcov => ?_⟩
  refine (hvmas vma hvma).resolve_left fun hout => hout.elim (fun hlt => ?_) fun hle => ?_
  · exact absurd hcov.1 (not_le.mpr hlt)
  · exact absurd hcov.2 (not_lt.mpr hle)

-- The processes cannot tell copy-on-write from a copy at each fork.
theorem cow_refines_eager {role : Nat → Role} {space : Nat → Option (List VmaStruct)}
    (h : SysInv s managed role space) (hlegal : s.eager.Legal acts)
    (hlog : ∀ o ∈ (steps acts s).log, o ≠ .tail ∧ o ≠ .noMem) :
    ∃ s', (steps acts s).result = .ok ((s.eager.steps acts).1, s') ∧ s'.eager = (s.eager.steps acts).2 := by
  have hwp : Prog.wp (fun o => o = .tail ∨ o = .noMem) (steps acts) s _ _ := h.wp_steps (Or.inl rfl) (Or.inr rfl) hlegal
  have hgood : ∀ o ∈ (steps acts s).log, ¬(o = .tail ∨ o = .noMem) := fun o ho => not_or.mpr (hlog o ho)
  cases hr : (steps acts s).result with
  | error e => exact (Prog.wp_error hwp hgood hr).elim
  | ok r =>
      obtain ⟨replies, s'⟩ := r
      have he := Prog.wp_ok hwp hgood hr
      exact ⟨s', by rw [← he], by rw [← he]⟩

-- Behind a fork the child writes a byte of its segment; the parent keeps its own.
def storeActs : List Act := [forkHello, .store 3 0x7FE00011 7, .load 2 0x7FE00011, .load 3 0x7FE00011]

theorem cow_refines_eager_fork :
    ∃ s', (steps storeActs userSys).result = .ok ([.done 0, .done 0, .byte 66, .byte 7], s') := by
  obtain ⟨role, space, h⟩ := userSys_run.inv bootSys_booted
  have hreplies : (userSys.eager.steps storeActs).1 = [.done 0, .done 0, .byte 66, .byte 7] := by decide +kernel
  have hlog : (userSys.replies (fun o => o ≠ .tail ∧ o ≠ .noMem) storeActs).isSome = true := by decide +kernel
  obtain ⟨replies, hlog⟩ := Option.isSome_iff_exists.mp hlog
  obtain ⟨s', hr, _⟩ := cow_refines_eager h (by decide +kernel) (Sys.replies_steps hlog).1
  exact ⟨s', by rw [hr, hreplies]⟩

-- Process 3 reads a byte of its own page table, in a page of zeroes.
def lateActs : List Act := crashActs ++ [.load 3 0x7FFFDFE8]

def Sys.differs (s : Sys) : Bool :=
  decide (s.eager.Legal lateActs) &&
    decide (s.replies (fun o => o ≠ .noMem) lateActs = some [.killed, .done 0, .done 0, .done 0, .byte 31]) &&
    decide ((s.eager.steps lateActs).1 = [.killed, .done 0, .done 0, .done 0, .byte 0])

theorem cow_differs_from_eager : ∃ s role space, SysInv s (Finset.Ico 0 (0 + 22)) role space ∧
    s.eager.Legal lateActs ∧ (∀ o ∈ (steps lateActs s).log, o ≠ .noMem) ∧
    (steps lateActs s).result.toOption.map Prod.fst = some [.killed, .done 0, .done 0, .done 0, .byte 31] ∧
    (s.eager.steps lateActs).1 = [.killed, .done 0, .done 0, .done 0, .byte 0] := by
  have hruns : (bootSys.runs Tame pairActs).any Sys.differs = true := by decide +kernel
  obtain ⟨s, hs, hdiffers⟩ := (Option.any_eq_true ..).mp hruns
  have hrun : Run Tame bootSys s := Run.runs (.refl bootSys) hs
  obtain ⟨role, space, h⟩ := hrun.inv bootSys_booted
  simp only [Sys.differs, Bool.and_eq_true, decide_eq_true_eq] at hdiffers
  obtain ⟨⟨hlegal, hreplies⟩, heager⟩ := hdiffers
  obtain ⟨hlog, hresult⟩ := Sys.replies_steps hreplies
  exact ⟨s, role, space, h, hlegal, hlog, hresult, heager⟩

-- A step that a process may take leaves the others alone, and it comes to an end or panics
-- where it may.
theorem step_isolates (act : Act) (hboot : s₀.Booted managed) (hrun : Run Tame s₀ s) (hen : Enabled s act)
    (htame : ∀ o ∈ (step act s).log, Tame o) :
    (s.MayPanic act ∧ ∃ text, (step act s).result = .error (.panic text)) ∨
      ∃ reply s', (step act s).result = .ok (reply, s') ∧
        ∀ j, j ≠ act.task → act.child ≠ some j → s'.task j = s.task j ∧ s'.memory j = s.memory j := by
  obtain ⟨role, space, h⟩ := hrun.inv hboot
  have hcare : s.MayPanic act → Careless (fun o => ¬Tame o) (fun e => s.MayPanic act ∧ Panics e) False := fun hmay =>
    careless _ fun text => ⟨hmay, text, rfl⟩
  have hstep : Prog.wp (fun o => ¬Tame o) (step act) s (fun _ s' =>
      ∀ j, j ≠ act.task → act.child ≠ some j → s'.memory j = s.memory j) fun e => s.MayPanic act ∧ Panics e :=
    h.wp_step not_tame_tail hcare hen fun _ _ _ _ _ hmem => hmem
  have hgood : ∀ o ∈ (step act s).log, ¬¬Tame o := fun o ho => not_not.mpr (htame o ho)
  cases hr : (step act s).result with
  | error e =>
      obtain ⟨hmay, text, rfl⟩ := Prog.wp_error hstep hgood hr
      exact Or.inl ⟨hmay, text, rfl⟩
  | ok r =>
      obtain ⟨reply, s'⟩ := r
      have hmem := Prog.wp_ok hstep hgood hr
      have htasks := Prog.wp_ok (step_tasks act s) (fun o ho hno => hno) hr
      exact Or.inr ⟨reply, s', rfl, fun j hj hchild => ⟨htasks j hj hchild, hmem j hj hchild⟩⟩

-- The child stores into a page that it shares with its parent.
theorem step_isolates_store : ∃ s', (step (.store 3 0x7FE00011 7) forkSys).result = .ok (.done 0, s') ∧
    s'.memory 2 = forkSys.memory 2 := by
  have hreplies : forkSys.replied (.store 3 0x7FE00011 7) (.done 0) = true := by decide +kernel
  obtain ⟨hready, htame, s', hr⟩ := Sys.replied_result hreplies
  rcases step_isolates (.store 3 0x7FE00011 7) bootSys_booted forkSys_run (Sys.enabled hready) htame with
    ⟨_, text, hno⟩ | ⟨reply, s'', hr', hall⟩
  · rw [hr] at hno
    cases hno
  · rw [hr] at hr'
    cases hr'
    exact ⟨s', hr, (hall 2 (by decide) (by simp [Act.child])).2⟩

-- do_fork does all or nothing.
theorem fork_atomic (stack : Nat) (room : List Bool) (hboot : s₀.Booted managed) (hrun : Run Tame s₀ s)
    (ht : s.task i = some t) (hchild : s.task child = none)
    (htame : ∀ o ∈ (step (.fork i child stack room) s).log, Tame o) :
    (∃ s' k mm, s.nrProcess < MAX_PROCESS ∧ (step (.fork i child stack room) s).result = .ok (.done 0, s') ∧
      s'.task = Function.update s.task child
        (some ⟨some k, mm, mm.map MmStruct.pgdir, copyThread k stack t.tf, false⟩) ∧
      mm.map MmStruct.mmapList = t.mm.map MmStruct.mmapList ∧ s'.eager = s.eager.fork i child) ∨
    (∃ s', (step (.fork i child stack room) s).result = .ok (.done (-E_NO_FREE_PROC), s') ∧
      s.nrProcess ≥ MAX_PROCESS ∧ s'.task = s.task ∧ s'.eager = s.eager) ∨
    ∃ s', (step (.fork i child stack room) s).result = .ok (.done (-E_NO_MEM), s') ∧
      .noMem ∈ (step (.fork i child stack room) s).log ∧ s'.task = s.task ∧ s'.eager = s.eager := by
  obtain ⟨role, space, h⟩ := hrun.inv hboot
  -- without memory shortage the last case is left out
  have hwp : ∀ bad : Obs → Prop, bad .tail → Prog.wp bad (step (.fork i child stack room)) s (fun reply s' =>
      (∃ k mm, s.nrProcess < MAX_PROCESS ∧ reply = .done 0 ∧ s'.task = Function.update s.task child
        (some ⟨some k, mm, mm.map MmStruct.pgdir, copyThread k stack t.tf, false⟩) ∧
        mm.map MmStruct.mmapList = t.mm.map MmStruct.mmapList ∧ s'.eager = s.eager.fork i child) ∨
      (reply = .done (-E_NO_FREE_PROC) ∧ s.nrProcess ≥ MAX_PROCESS ∧ s'.task = s.task ∧ s'.eager = s.eager) ∨
      reply = .done (-E_NO_MEM) ∧ ¬bad .noMem ∧ s'.task = s.task ∧ s'.eager = s.eager) fun _ => False := by
    intro bad hbad
    exact h.wp_fork hbad ht hchild (fun s' hfull _ htask he => Or.inr (Or.inl ⟨rfl, hfull, htask, he⟩))
      (fun s' _ _ k mm hnr _ htask hlist he => Or.inl ⟨k, mm, hnr, rfl, htask, hlist, he⟩)
      fun s' _ _ hno _ htask he => Or.inr (Or.inr ⟨rfl, hno, htask, he⟩)
  have hgood : ∀ o ∈ (step (.fork i child stack room) s).log, ¬¬Tame o := fun o ho => not_not.mpr (htame o ho)
  cases hr : (step (.fork i child stack room) s).result with
  | error e => exact (Prog.wp_error (hwp (fun o => ¬Tame o) not_tame_tail) hgood hr).elim
  | ok r =>
      obtain ⟨reply, s'⟩ := r
      rcases Prog.wp_ok (hwp (fun o => ¬Tame o) not_tame_tail) hgood hr with
        ⟨k, mm, hnr, rfl, hall⟩ | ⟨rfl, hfull, hall⟩ | ⟨rfl, _, hall⟩
      · exact Or.inl ⟨s', k, mm, hnr, rfl, hall⟩
      · exact Or.inr (Or.inl ⟨s', rfl, hfull, hall⟩)
      · refine Or.inr (Or.inr ⟨s', rfl, by_contra fun hno => ?_, hall⟩)
        have hlog : ∀ o ∈ (step (.fork i child stack room) s).log, ¬(¬Tame o ∨ o = .noMem) := by
          rintro o ho (hbad | rfl)
          · exact hgood o ho hbad
          · exact hno ho
        rcases Prog.wp_ok (hwp (fun o => ¬Tame o ∨ o = .noMem) (Or.inl not_tame_tail)) hlog hr with
          ⟨k, mm, _, he, _⟩ | ⟨he, _⟩ | ⟨_, hno, _⟩
        · cases he
        · cases he
        · exact hno (Or.inr rfl)

-- A third child finds no memory.
theorem fork_atomic_full : ∃ s', (step (.fork 2 5 USTACK []) fullSys).result = .ok (.done (-E_NO_MEM), s') ∧
    s'.eager = fullSys.eager := by
  have hfull : (bootSys.runs Tame (firstActs ++ [forkHello, .fork 2 4 USTACK []])).any
      (fun s => s.replied (.fork 2 5 USTACK []) (.done (-E_NO_MEM))) = true := by
    decide +kernel
  obtain ⟨s, hs, hreplies⟩ := (Option.any_eq_true ..).mp hfull
  have hrun : Run Tame bootSys s := Run.runs (.refl bootSys) hs
  rw [show fullSys = s by rw [fullSys, hs, Option.getD_some]]
  obtain ⟨hready, htame, s₁, hr₁⟩ := Sys.replied_result hreplies
  obtain ⟨⟨t, ht, _⟩, hchild⟩ := Sys.enabled hready
  rcases fork_atomic USTACK [] bootSys_booted hrun ht hchild htame with
    ⟨s', _, _, _, hr, _⟩ | ⟨s', hr, _⟩ | ⟨s', hr, _, _, he⟩
  · rw [hr₁] at hr
    cases hr
  · rw [hr₁] at hr
    cases hr
  · exact ⟨s', hr, he⟩

end Ucore.Mm
