import Ucore.Proc.Boot

namespace Ucore.Proc

open Ucore.Lib

inductive Reachable : Procs → Prop
  | boot {a b : Addr} {kstack : Nat} {s : Procs} : a ≠ NULL → b ≠ NULL → b ≠ a →
      procInit a b kstack = .ok s → Reachable s
  | step {s s' : Procs} {act : Act} {r : Result} : Reachable s → Enabled s act →
      step s act = .ok (r, s') → Reachable s'

-- A run from `s` to `s'`, with the events on its way.
inductive Run : Procs → List Event → Procs → Prop
  | nil (s : Procs) : Run s [] s
  | snoc {s s' s'' : Procs} {events : List Event} {act : Act} {r : Result} : Run s events s' →
      Enabled s' act → step s' act = .ok (r, s'') → Run s (events ++ [event s' act r]) s''

-- A process of the list has the processor; only at boot it is idleproc.
structure Inv (s : Procs) : Prop where
  table : Table s NULL
  current : s.current = s.idleproc ∨ Running s

variable {s s' : Procs} {a b x : Addr} {act : Act} {r : Result} {events : List Event}

theorem Inv.of_running (h : Running s) : Inv s := ⟨h.table, Or.inr h⟩

theorem Inv.current_known (h : Inv s) : s.current = s.idleproc ∨ s.current ∈ s.procList :=
  h.current.imp_right Running.mem

theorem Inv.running (h : Inv s) (hc : s.current ≠ s.idleproc) : Running s :=
  h.current.resolve_left hc

-- A step from a state with the invariant returns, or initproc exits.
theorem Inv.step (h : Inv s) (he : Enabled s act) :
    (∃ r s', step s act = .ok (r, s') ∧ After s act r s') ∨
      InitExits s act ∧ step s act = .error (.panic "initproc exit.\n") := by
  rcases h.current with hc | hrun
  · rcases he with ⟨_, hne, _⟩ | ⟨⟨pid, codeStore, hk⟩, _⟩ | ⟨_, _, rfl⟩
    · exact absurd hc hne
    · rw [hc, h.table.idle_ready] at hk
      cases hk
    · obtain ⟨s', hs⟩ := after_schedule h.table (Or.inl hc) (by rw [hc, h.table.idle_ready])
      exact Or.inl ⟨_, s', hs⟩
  · exact step_spec hrun he

theorem Inv.after (h : Inv s) (he : Enabled s act) (hs : Proc.step s act = .ok (r, s')) :
    After s act r s' := by
  rcases h.step he with ⟨r', s'', hs', ha⟩ | ⟨_, herr⟩
  · rw [hs] at hs'
    cases hs'
    exact ha
  · rw [hs] at herr
    cases herr

theorem Reachable.inv (h : Reachable s) : Inv s := by
  induction h with
  | boot ha hb hab hs =>
      rw [procInit_eq ha hb hab] at hs
      cases hs
      exact ⟨booted_table ha hb hab, Or.inl rfl⟩
  | step _ he hs ih => exact .of_running (ih.after he hs).running

theorem Run.inv (h : Run s events s') (hs : Inv s) : Inv s' := by
  induction h with
  | nil => exact hs
  | snoc _ he hst ih => exact .of_running (ih.after he hst).running

theorem Run.initproc (h : Run s events s') (hs : Inv s) : s'.initproc = s.initproc := by
  induction h with
  | nil => rfl
  | snoc hrun he hst ih => exact ((hrun.inv hs).after he hst).initproc.trans ih

-- The run of the process table is a run of the lives of the processes.
theorem Run.lives (h : Run s events s') (hs : Inv s) :
    Lives.Run s.initproc (lives s) events (lives s') := by
  induction h with
  | nil => exact .nil _
  | snoc hrun he hst ih =>
      have hlast := ((hrun.inv hs).after he hst).lives
      rw [hrun.initproc hs] at hlast
      exact .snoc ih hlast

-- The parent pointers lead to initproc.
theorem Depth.iterate {procs : Addr → ProcStruct} {list : List Addr} {init : Addr} {n : Nat}
    (h : Depth procs list init n a) : (fun c => (procs c).parent)^[n] a = init := by
  induction h with
  | zero _ => rfl
  | succ _ _ _ ih => exact ih

-- Without children of initproc there is no other process.
theorem Depth.only {procs : Addr → ProcStruct} {list : List Addr} {init : Addr} {n : Nat}
    (h : Depth procs list init n a) (hno : ∀ b ∈ list, (procs b).parent ≠ init) : a = init := by
  induction h with
  | zero _ => rfl
  | succ hm _ _ ih => exact absurd ih (hno _ hm)

theorem Family.alone {procs : Addr → ProcStruct} {list : List Addr} {idle init : Addr}
    (h : Family procs list idle init NULL) (hno : ∀ b ∈ list, (procs b).parent ≠ init) :
    list = [init] := by
  have hall : ∀ c ∈ list, c = init := by
    intro c hc
    obtain ⟨n, hd⟩ := h.depth c hc
    exact hd.only hno
  have hnodup := h.nodup
  have hmem := h.init_mem
  cases list with
  | nil => cases hmem
  | cons c rest =>
      obtain rfl := hall c List.mem_cons_self
      cases rest with
      | nil => rfl
      | cons d rest =>
          obtain rfl := hall d (by simp)
          simp at hnodup

-- do_wait returns to its caller: with -E_BAD_PROC exactly when there is nothing to
-- wait for, and then nothing has changed.
theorem waitLoop_value (h : Running s) {pid : Int} {codeStore : Addr}
    (hw : waitLoop s pid codeStore = .ok (r, s')) :
    (r.value = some (-E_BAD_PROC) ↔ ∀ b, ¬Awaited s s.current pid b) ∧
      ∀ v, r.value = some v → v ≠ 0 → (∀ b, ¬Awaited s s.current pid b) ∧ s' = s := by
  rcases waitLoop_spec h pid codeStore with ⟨hno, he⟩ | ⟨x, hx, _, he, _⟩ | ⟨⟨b, hb⟩, _, t, he, _⟩
  · rw [hw] at he
    cases he
    exact ⟨iff_of_true rfl hno, fun _ _ _ => ⟨hno, rfl⟩⟩
  · rw [hw] at he
    cases he
    have hne : some (0 : Int) ≠ some (-E_BAD_PROC) := by decide
    refine ⟨iff_of_false hne fun hno => hno x hx, fun v hv hne => ?_⟩
    cases hv
    exact absurd rfl hne
  · rw [hw] at he
    cases he
    exact ⟨iff_of_false (by decide) fun hno => hno b hb, fun v hv _ => by cases hv⟩

theorem Awaited.resumed {pid : Int} :
    Awaited (s.modify s.current ProcStruct.resumed) a pid b ↔ Awaited s a pid b := by
  have hparent : ((s.modify s.current ProcStruct.resumed).procs b).parent = (s.procs b).parent := by
    rw [Procs.modify_apply]
    split <;> rfl
  have hpid : ((s.modify s.current ProcStruct.resumed).procs b).pid = (s.procs b).pid := by
    rw [Procs.modify_apply]
    split <;> rfl
  unfold Awaited
  rw [hparent, hpid]
  rfl

-- The same about a step that runs do_wait, be it from the start or after a sleep.
theorem wait_value (h : Running s) (he : Enabled s act) {pid : Int} {codeStore : Addr}
    (hargs : waitArgs s act = some (pid, codeStore)) (hs : step s act = .ok (r, s'))
    (hvalid : ∀ pid valid, act = .wait pid codeStore valid → codeStore ≠ NULL → valid = true)
    (hret : r ≠ .exited) :
    (r.value = some (-E_BAD_PROC) ↔ ∀ b, ¬Awaited s s.current pid b) ∧
      ∀ v, r.value = some v → v ≠ 0 → (∀ b, ¬Awaited s s.current pid b) ∧
        (s' = s ∨ s' = s.modify s.current ProcStruct.resumed) := by
  cases act with
  | wait pid' codeStore' valid =>
      cases hargs
      rw [step, doWait] at hs
      by_cases hv : codeStore ≠ NULL ∧ valid = false
      · have hv' := hvalid pid valid rfl hv.1
        rw [hv.2] at hv'
        cases hv'
      · rw [if_neg hv] at hs
        obtain ⟨h1, h2⟩ := waitLoop_value h hs
        exact ⟨h1, fun v hv hne => (h2 v hv hne).imp_right Or.inl⟩
  | resume =>
      rw [step] at hs
      cases hk : (s.procs s.current).kont with
      | ready => simp [waitArgs, hk] at hargs
      | waiting pid' codeStore' =>
          simp only [waitArgs, hk, Option.some.injEq, Prod.mk.injEq] at hargs
          obtain ⟨rfl, rfl⟩ := hargs
          rw [hk] at hs
          dsimp only at hs
          rw [resumeWait_eq h] at hs
          by_cases hx : (s.procs s.current).flags &&& PF_EXITING ≠ 0
          · rw [if_pos hx] at hs
            obtain ⟨t, _, ht⟩ := bind_eq_ok.mp hs
            cases ht
            exact absurd rfl hret
          · rw [if_neg hx] at hs
            obtain ⟨h1, h2⟩ := waitLoop_value h.resume hs
            have hno : (∀ b, ¬Awaited (s.modify s.current ProcStruct.resumed)
                (s.modify s.current ProcStruct.resumed).current pid' b) ↔
                ∀ b, ¬Awaited s s.current pid' b :=
              forall_congr' fun b => not_congr Awaited.resumed
            exact ⟨h1.trans hno, fun v hv hne =>
              ⟨hno.mp (h2 v hv hne).1, Or.inr (h2 v hv hne).2⟩⟩
  | _ => cases hargs

-- The assertions of init_main hold when initproc has no child.
theorem initChecks_ok (h : Running s) (hc : s.current = s.initproc)
    (hno : ∀ b, ¬Awaited s s.current 0 b) :
    initChecks s = .ok () := by
  have hkids : ∀ b ∈ s.procList, (s.procs b).parent ≠ s.initproc :=
    fun b hb hp => hno b ⟨hb, hp.trans hc.symm, fun hne => absurd rfl hne⟩
  have halone := h.table.family.alone hkids
  have hcount := h.table.count
  have hpar := h.table.family.init_parent
  obtain ⟨_, l, _, hl, hmem⟩ := h.table.family.kids s.initproc (Or.inr h.table.family.init_mem)
  have hcptr : (s.procs s.initproc).cptr = NULL := by
    cases l with
    | nil => exact hl
    | cons y rest =>
        obtain ⟨hy, hp⟩ := (hmem y).mp List.mem_cons_self
        exact absurd hp (hkids y hy)
  obtain ⟨before, l', hbefore, hl', hmem'⟩ := h.table.family.kids s.idleproc (Or.inl rfl)
  have hnull : before = NULL := hbefore h.table.family.idle_ne_null
  -- initproc is the only child of idleproc
  have hl'only : l' = [s.initproc] := by
    have hall : ∀ c ∈ l', c = s.initproc := by
      intro c hc
      have hm := ((hmem' c).mp hc).1
      rw [halone] at hm
      exact List.mem_singleton.mp hm
    have hin : s.initproc ∈ l' := (hmem' _).mpr ⟨h.table.family.init_mem, hpar⟩
    have hnodup := Chain.nodup hl'
    cases l' with
    | nil => cases hin
    | cons c rest =>
        obtain rfl := hall c List.mem_cons_self
        cases rest with
        | nil => rfl
        | cons d rest =>
            obtain rfl := hall d (by simp)
            simp at hnodup
  rw [hl'only, hnull] at hl'
  obtain ⟨_, _, hyptr, hoptr⟩ := hl'
  have hoptr : (s.procs s.initproc).optr = NULL := hoptr
  have hyptr : (s.procs s.initproc).yptr = NULL := hyptr
  have htwo : s.nrProcess = 2 := by
    rw [hcount, halone]
    rfl
  unfold initChecks
  rw [Procs.deref_eq h.table.init_live, ok_bind]
  simp [hcptr, hyptr, hoptr, htwo, halone]

theorem initChecks_after_wait (h : Running s) (hc : s.current = s.initproc) (he : Enabled s act)
    (hargs : waitArgs s act = some (0, NULL)) (hs : step s act = .ok (r, s')) {v : Int}
    (hv : r.value = some v) (hne : v ≠ 0) : initChecks s' = .ok () := by
  have hret : r ≠ .exited := by
    rintro rfl
    cases hv
  obtain ⟨hno, rfl | rfl⟩ :=
    (wait_value h he hargs hs (fun _ _ _ hn => absurd rfl hn) hret).2 v hv hne
  · exact initChecks_ok h hc hno
  · exact initChecks_ok h.resume hc fun b hb => hno b (Awaited.resumed.mp hb)

-- The state after these steps, if all of them are enabled and return.
def runSteps : Procs → List Act → Option Procs
  | s, [] => some s
  | s, act :: acts =>
      if Enabled s act then
        match step s act with
        | .ok (_, s') => runSteps s' acts
        | .error _ => none
      else none

theorem Reachable.runSteps (h : Reachable s) {acts : List Act}
    (hs : Proc.runSteps s acts = some s') : Reachable s' := by
  induction acts generalizing s with
  | nil =>
      cases hs
      exact h
  | cons act acts ih =>
      rw [Proc.runSteps] at hs
      by_cases he : Enabled s act
      · rw [if_pos he] at hs
        cases hr : Proc.step s act with
        | error e =>
            rw [hr] at hs
            cases hs
        | ok p =>
            rw [hr] at hs
            exact ih (h.step he hr) hs
      · rw [if_neg he] at hs
        cases hs

theorem Reachable.booted : Reachable (booted 1 2 0) :=
  .boot (by decide) (by decide) (by decide) (procInit_eq (by decide) (by decide) (by decide))

theorem Reachable.of_isSome {acts : List Act}
    (hs : (Proc.runSteps (Proc.booted 1 2 0) acts).isSome = true) :
    Reachable ((Proc.runSteps (Proc.booted 1 2 0) acts).get hs) :=
  Reachable.booted.runSteps (Option.some_get hs).symm

-- The process graph in every reachable state.
theorem process_graph (h : Reachable s) :
    (∀ p, p = s.idleproc ∨ p ∈ s.procList → ∃ l, l.Nodup ∧
      Siblings s.procs NULL (s.procs p).cptr l ∧
      ∀ b, b ∈ l ↔ b ∈ s.procList ∧ (s.procs b).parent = p) ∧
    (∀ p ∈ s.procList, (s.procs p).parent ∈ s.live ∧
      (s.procs (s.procs p).parent).state ≠ .ZOMBIE ∧
      (∃ n, (fun q => (s.procs q).parent)^[n] p = s.initproc) ∧
      (s.procs s.initproc).parent = s.idleproc) ∧
    (∀ p i, p ∈ s.hashList i ↔ p ∈ s.procList ∧ pidHashfn (s.procs p).pid = i) ∧
    (∀ pid, (∃ p ∈ s.procList, (s.procs p).pid = pid ∧ findProc s pid = .ok p ∧
        ∀ q ∈ s.procList, (s.procs q).pid = pid → q = p) ∨
      (∀ p ∈ s.procList, (s.procs p).pid ≠ pid) ∧ findProc s pid = .ok NULL) ∧
    s.nrProcess = s.procList.length + 1 ∧
    ∀ act r s' v, s.current = s.initproc → Enabled s act → waitArgs s act = some (0, NULL) →
      step s act = .ok (r, s') → r.value = some v → v ≠ 0 → initChecks s' = .ok () := by
  have ht := h.inv.table
  refine ⟨fun p hp => ?_, fun p hp => ?_, fun p i => ht.hash_mem i p, fun pid => ?_, ht.count,
    fun act r s' v hc he hargs hs hv hne => ?_⟩
  · obtain ⟨before, l, hb, hl, hmem⟩ := ht.family.kids p hp
    have hpn : p ≠ NULL := hp.elim (fun hi => hi ▸ ht.family.idle_ne_null) ht.family.ne_null
    obtain rfl := hb hpn
    exact ⟨l, Chain.nodup hl, hl, hmem⟩
  · obtain ⟨n, hd⟩ := ht.family.depth p hp
    exact ⟨ht.parent_live hp, ht.parent_alive hp, ⟨n, hd.iterate⟩, ht.family.init_parent⟩
  · rcases findProc_spec ht pid with ⟨p, hp, hpid, hf⟩ | hno
    · exact Or.inl ⟨p, hp, hpid, hf, fun q hq hqp => ht.pid_inj q hq p hp (hqp.trans hpid.symm)⟩
    · exact Or.inr hno
  · have hrun := h.inv.running fun hi => ht.family.init_ne_idle (hc ▸ hi)
    exact initChecks_after_wait hrun hc he hargs hs hv hne

-- initproc has reaped its only child and looks for another one.
def reapedRun : List Act :=
  [.schedule, .fork 3 (.ok 0 NULL), .wait 0 NULL true, .exit 5, .resume, .schedule]

theorem reapedRun_isSome : (runSteps (booted 1 2 0) reapedRun).isSome = true := by decide +kernel

theorem process_graph_reaped : ∃ s',
    step ((runSteps (booted 1 2 0) reapedRun).get reapedRun_isSome) (.wait 0 NULL true) =
      .ok (.ret (-E_BAD_PROC), s') ∧ initChecks s' = .ok () := by
  obtain ⟨s', hs⟩ : ∃ s', step ((runSteps (booted 1 2 0) reapedRun).get reapedRun_isSome)
      (.wait 0 NULL true) = .ok (.ret (-E_BAD_PROC), s') := by decide +kernel
  exact ⟨s', hs, (process_graph (.of_isSome reapedRun_isSome)).2.2.2.2.2 _ _ s' _
    (by decide +kernel) (by decide +kernel) rfl hs rfl (by decide)⟩

-- Every sleeper has a reason to sleep, some process can run, and once booted the
-- kernel never falls back to idleproc.
theorem no_lost_wakeup (h : Reachable s) :
    (∀ p ∈ s.procList, (s.procs p).state = .SLEEPING → Asleep s p) ∧
    (∃ p ∈ s.procList, (s.procs p).state = .RUNNABLE) ∧
    ∀ act, Enabled s act →
      (∃ r s', step s act = .ok (r, s') ∧ s'.current ≠ s'.idleproc ∧ s'.current ∈ s'.procList ∧
        (s'.procs s'.current).state = .RUNNABLE) ∨
      InitExits s act := by
  refine ⟨h.inv.table.asleep, h.inv.table.exists_runnable, fun act he => ?_⟩
  rcases h.inv.step he with ⟨r, s', hs, ha⟩ | ⟨hx, _⟩
  · exact Or.inl ⟨r, s', hs, fun hc => ha.running.table.family.idle_notMem (hc ▸ ha.running.mem),
      ha.running.mem, ha.running.state⟩
  · exact Or.inr hx

-- initproc sleeps, and so does its child: the grandchild runs.
def asleepRun : List Act :=
  [.schedule, .fork 3 (.ok 0 NULL), .wait 0 NULL true, .fork 4 (.ok 0 NULL), .wait 3 100 true]

theorem asleepRun_isSome : (runSteps (booted 1 2 0) asleepRun).isSome = true := by decide +kernel

theorem no_lost_wakeup_asleep :
    Asleep ((runSteps (booted 1 2 0) asleepRun).get asleepRun_isSome) 3 :=
  (no_lost_wakeup (.of_isSome asleepRun_isSome)).1 3 (by decide +kernel) (by decide +kernel)

-- get_pid in the do_fork of a running process
theorem getPid_fresh (h : Running s) (ha : a ∉ s.live) (hmax : s.nrProcess < MAX_PROCESS)
    (kstack : Nat) (mm : Addr) :
    ∃ s₁ s₂ pid s₃, forkProc s a = .ok s₁ ∧ copyThread s₁ a kstack mm = .ok s₂ ∧
      getPid s₂ = .ok (pid, s₃) ∧ 1 ≤ pid ∧ pid < MAX_PID ∧
      s₂.procList = s.procList ∧ ∀ b ∈ s₂.procList, (s₂.procs b).pid ≠ pid := by
  have hw := h.table.awake s.current h.mem (by rw [h.state]; decide)
  have hpids : ((unnamed s a kstack mm).procList.map
      fun b => ((unnamed s a kstack mm).procs b).pid) = s.procList.map fun b => (s.procs b).pid := by
    refine List.map_congr_left fun b hb => ?_
    have hne : b ≠ a := fun he => ha (he ▸ h.table.live_of_mem hb)
    rw [unnamed_of_ne hne]
  have hcount := h.table.count
  have hM : MAX_PROCESS = 4096 := rfl
  have hM' : MAX_PID = 8192 := rfl
  obtain ⟨pid, next, hget, h1, h2, h3, _⟩ := getPid_spec (unnamed s a kstack mm)
    (fun b hb => List.mem_cons_of_mem _ (h.table.live_of_mem hb))
    (by rw [hpids]; exact h.table.pids_safe)
    (by change (s.procList.length : Int) < _; omega)
  exact ⟨_, _, pid, _, forkProc_eq (h.table.live_of_mem h.mem) ha hw, copyThread_eq, hget, h1, h2, rfl,
    fun b hb he => h3 (List.mem_map.mpr ⟨b, hb, he⟩)⟩

-- get_pid finds an unused pid at boot and in every do_fork after it.
theorem pid_allocation :
    (∀ a b kstack, a ≠ NULL → b ≠ NULL → b ≠ a →
      ∃ s, procInit a b kstack = .ok s ∧ s.procList = [b] ∧ (s.procs b).pid = 1) ∧
    ∀ s a mem kstack mm, Reachable s → Enabled s (.fork a mem) → s.nrProcess < MAX_PROCESS →
      ∃ s₁ s₂ pid s₃, forkProc s a = .ok s₁ ∧ copyThread s₁ a kstack mm = .ok s₂ ∧
        getPid s₂ = .ok (pid, s₃) ∧ 1 ≤ pid ∧ pid < MAX_PID ∧
        s₂.procList = s.procList ∧ ∀ b ∈ s₂.procList, (s₂.procs b).pid ≠ pid := by
  refine ⟨fun a b kstack ha hb hab => ?_, fun s a mem kstack mm h he hmax => ?_⟩
  · exact ⟨_, procInit_eq ha hb hab, rfl, by rw [booted_init]⟩
  · rcases he with ⟨_, hne, _, ha⟩ | ⟨_, hr⟩ | ⟨_, _, hr⟩
    · exact getPid_fresh (h.inv.running hne) ha hmax kstack mm
    · cases hr
    · cases hr

theorem pid_allocation_asleep : ∃ s₁ s₂ pid s₃,
    forkProc ((runSteps (booted 1 2 0) asleepRun).get asleepRun_isSome) 5 = .ok s₁ ∧
      copyThread s₁ 5 0 NULL = .ok s₂ ∧ getPid s₂ = .ok (pid, s₃) ∧ 1 ≤ pid ∧ pid < MAX_PID ∧
      ∀ b ∈ s₂.procList, (s₂.procs b).pid ≠ pid := by
  obtain ⟨s₁, s₂, pid, s₃, h1, h2, h3, h4, h5, _, h6⟩ := pid_allocation.2
    ((runSteps (booted 1 2 0) asleepRun).get asleepRun_isSome) 5 .noProc 0 NULL
    (.of_isSome asleepRun_isSome) (by decide +kernel) (by decide +kernel)
  exact ⟨s₁, s₂, pid, s₃, h1, h2, h3, h4, h5, h6⟩

-- What do_wait reaps is a zombie child of its caller, which is gone afterwards.
theorem waitLoop_reaped (h : Running s) {pid : Int} {codeStore : Addr} {stored : Option (Addr × Int)}
    (hw : waitLoop s pid codeStore = .ok (.reaped x stored, s')) :
    Awaited s s.current pid x ∧ (s.procs x).state = .ZOMBIE ∧
      stored = (if codeStore ≠ NULL then some (codeStore, (s.procs x).exitCode) else none) ∧
      x ∉ s'.live ∧ x ∉ s'.procList ∧ findProc s' (s.procs x).pid = .ok NULL := by
  rcases waitLoop_spec h pid codeStore with ⟨_, he⟩ | ⟨y, hy, hz, he, hr⟩ | ⟨_, _, t, he, _⟩
  · rw [hw] at he
    cases he
  · rw [hw] at he
    cases he
    refine ⟨hy, hz, rfl, ?_, ?_, ?_⟩
    · exact fun hm => (h.table.live_nodup.mem_erase_iff.mp hm).1 rfl
    · exact fun hm => (h.table.family.nodup.mem_erase_iff.mp hm).1 rfl
    · refine (findProc_eq_null hr.table).mpr fun b hb hp => ?_
      obtain ⟨hne, hbm⟩ := h.table.family.nodup.mem_erase_iff.mp hb
      exact hne (h.table.pid_inj b hbm x hy.1 hp)
  · rw [hw] at he
    cases he

theorem reap_step (h : Running s) (hs : step s act = .ok (r, s')) {p : Addr} {code : Int}
    (hevent : event s act r = .reap p x code) :
    p = s.current ∧ code = (s.procs x).exitCode ∧ ∃ pid codeStore,
      waitArgs s act = some (pid, codeStore) ∧ Awaited s s.current pid x ∧
      (s.procs x).state = .ZOMBIE ∧
      r = .reaped x (if codeStore ≠ NULL then some (codeStore, code) else none) ∧
      x ∉ s'.live ∧ x ∉ s'.procList ∧ findProc s' (s.procs x).pid = .ok NULL := by
  have hlive := h.table.live_of_mem h.mem
  cases act with
  | wait pid codeStore valid =>
      rw [step, doWait] at hs
      split at hs
      · cases hs
        cases hevent
      · cases r with
        | reaped y stored =>
            cases hevent
            obtain ⟨h1, h2, rfl, h4⟩ := waitLoop_reaped h hs
            exact ⟨rfl, rfl, pid, codeStore, rfl, h1, h2, rfl, h4⟩
        | _ => cases hevent
  | resume =>
      rw [step] at hs
      cases hk : (s.procs s.current).kont with
      | ready =>
          rw [hk] at hs
          cases hs
      | waiting pid codeStore =>
          rw [hk] at hs
          dsimp only at hs
          rw [resumeWait_eq h] at hs
          split at hs
          · obtain ⟨t, _, ht⟩ := bind_eq_ok.mp hs
            cases ht
            cases hevent
          · cases r with
            | reaped y stored =>
                cases hevent
                have hsame : ∀ b, ((s.modify s.current ProcStruct.resumed).procs b).state =
                    (s.procs b).state ∧
                    ((s.modify s.current ProcStruct.resumed).procs b).exitCode =
                      (s.procs b).exitCode ∧
                    ((s.modify s.current ProcStruct.resumed).procs b).pid = (s.procs b).pid := by
                  intro b
                  rw [Procs.modify_apply]
                  split <;> exact ⟨rfl, rfl, rfl⟩
                obtain ⟨h1, h2, rfl, h4, h5, h6⟩ := waitLoop_reaped h.resume hs
                rw [(hsame x).2.2] at h6
                refine ⟨rfl, rfl, pid, codeStore, by simp [waitArgs, hk], Awaited.resumed.mp h1,
                  (hsame x).1.symm.trans h2, ?_, h4, h5, h6⟩
                rw [(hsame x).2.1]
            | _ => cases hevent
  | exit code => cases hevent
  | fork a mem =>
      obtain ⟨q, _, hq⟩ := bind_eq_ok.mp hs
      cases hq
      rw [event] at hevent
      split at hevent <;> cases hevent
  | kill pid =>
      obtain ⟨q, _, hq⟩ := bind_eq_ok.mp hs
      cases hq
      rw [event] at hevent
      split at hevent <;> cases hevent
  | _ =>
      obtain ⟨q, _, hq⟩ := bind_eq_ok.mp hs
      cases hq
      cases hevent

-- do_exit leaves a zombie with the exit code, which has not changed its parent.
theorem exit_step (h : Running s) (ha : After s act r s') {p : Addr} {code : Int}
    (hevent : event s act r = .exit p code) :
    p = s.current ∧ p ∈ s'.procList ∧ (s'.procs p).state = .ZOMBIE ∧
      (s'.procs p).exitCode = code ∧ (s'.procs p).parent = (s.procs p).parent := by
  have hl := ha.lives
  have hp : p = s.current := by
    revert hevent
    cases act <;> cases r <;> simp only [event, Event.exit.injEq, reduceCtorEq, false_imp_iff] <;>
      intro he
    all_goals first | exact he.1.symm | (split at he <;> cases he)
  rw [hevent] at hl
  have hlife : lives s' p = (lives s).exit s.initproc p code p := congrFun hl.exit_eq p
  rw [Lives.exit, hp, lives_of_mem h.mem, Option.map_some, if_pos rfl] at hlife
  obtain ⟨hm, hq⟩ := lives_eq_some.mp hlife
  obtain ⟨hz, hc⟩ := ProcStruct.life_code.mp (congrArg Life.code hq)
  subst hp
  exact ⟨rfl, hm, hz, hc, congrArg Life.parent hq⟩

theorem fork_step (ha : After s act r s') {p x : Addr} {pid : Int}
    (hevent : event s act r = .fork p x pid) :
    p = s.current ∧ x ∉ s.procList ∧ x ∈ s'.procList ∧ (s'.procs x).pid = pid ∧
      (s'.procs x).parent = p ∧ (s'.procs x).state ≠ .ZOMBIE := by
  have hl := ha.lives
  have hp : p = s.current := by
    revert hevent
    cases act <;> cases r <;> simp only [event, reduceCtorEq, false_imp_iff] <;> intro he
    all_goals
      split at he
      · cases he <;> rfl
      · cases he
  rw [hevent] at hl
  obtain ⟨hnone, hlives⟩ := hl.fork_eq
  have hlife : lives s' x = some ⟨pid, p, false, none⟩ := by
    rw [hlives, Function.update_self]
  obtain ⟨hm, hq⟩ := lives_eq_some.mp hlife
  refine ⟨hp, lives_eq_none.mp hnone, hm, congrArg Life.pid hq, congrArg Life.parent hq, fun hz => ?_⟩
  have hcode := congrArg Life.code hq
  rw [ProcStruct.life_code.mpr ⟨hz, rfl⟩] at hcode
  cases hcode

-- Until it is reaped a process keeps its pid, has its creator or initproc as its
-- parent, and once a zombie stays one with its exit code and never runs.
theorem Run.keeps (h : Run s events s') (hs : Inv s) (hx : x ∈ s.procList)
    (hevents : ∀ e ∈ events, ¬Event.Reaps x e) :
    x ∈ s'.procList ∧ (s'.procs x).pid = (s.procs x).pid ∧
      ((s'.procs x).parent = (s.procs x).parent ∨ (s'.procs x).parent = s.initproc) ∧
      ((s.procs x).state = .ZOMBIE → (s'.procs x).state = .ZOMBIE ∧
        (s'.procs x).exitCode = (s.procs x).exitCode ∧ s'.current ≠ x) := by
  obtain ⟨p, hp, hpid, hparent, hcode⟩ := (h.lives hs).keeps (lives_of_mem hx) hevents
  obtain ⟨hm, rfl⟩ := lives_eq_some.mp hp
  refine ⟨hm, hpid, hparent, fun hz => ?_⟩
  obtain ⟨hz', hc'⟩ := ProcStruct.life_code.mp
    (hcode _ (ProcStruct.life_code.mpr ⟨hz, rfl⟩))
  refine ⟨hz', hc', fun hcur => ?_⟩
  have hs' := h.inv hs
  rcases hs'.current with hi | hr
  · exact hs'.table.family.idle_notMem (hi ▸ hcur ▸ hm)
  · have hstate := hr.state
    rw [hcur, hz'] at hstate
    cases hstate

-- From the exit of a process to the do_wait that collects its status.
theorem exit_status_delivery (h : Reachable s) :
    (∀ act r s' p code, Enabled s act → step s act = .ok (r, s') →
      event s act r = .exit p code →
      p = s.current ∧ p ∈ s'.procList ∧ (s'.procs p).state = .ZOMBIE ∧
        (s'.procs p).exitCode = code ∧ (s'.procs p).parent = (s.procs p).parent) ∧
    (∀ act r s' p x pid, Enabled s act → step s act = .ok (r, s') →
      event s act r = .fork p x pid →
      p = s.current ∧ x ∉ s.procList ∧ x ∈ s'.procList ∧ (s'.procs x).pid = pid ∧
        (s'.procs x).parent = p ∧ (s'.procs x).state ≠ .ZOMBIE) ∧
    (∀ events s' x, Run s events s' → x ∈ s.procList → (∀ e ∈ events, ¬Event.Reaps x e) →
      x ∈ s'.procList ∧ (s'.procs x).pid = (s.procs x).pid ∧
        ((s'.procs x).parent = (s.procs x).parent ∨ (s'.procs x).parent = s.initproc) ∧
        ((s.procs x).state = .ZOMBIE → (s'.procs x).state = .ZOMBIE ∧
          (s'.procs x).exitCode = (s.procs x).exitCode ∧ s'.current ≠ x)) ∧
    (∀ act r s' p x code, Enabled s act → step s act = .ok (r, s') →
      event s act r = .reap p x code →
      p = s.current ∧ code = (s.procs x).exitCode ∧ ∃ pid codeStore,
        waitArgs s act = some (pid, codeStore) ∧ Awaited s s.current pid x ∧
        (s.procs x).state = .ZOMBIE ∧ r.value = some 0 ∧
        r = .reaped x (if codeStore ≠ NULL then some (codeStore, code) else none) ∧
        x ∉ s'.live ∧ x ∉ s'.procList ∧ findProc s' (s.procs x).pid = .ok NULL) ∧
    (∀ events s' x, Run s events s' → x ∉ s.procList → (∀ e ∈ events, ¬Event.Creates x e) →
      x ∉ s'.procList ∧ ∀ e ∈ events, ¬Event.Reaps x e) ∧
    (∀ events s' pid, Run s events s' → findProc s pid = .ok NULL →
      (∀ e ∈ events, ¬Event.Forks pid e) → findProc s' pid = .ok NULL) ∧
    (∀ act r s' pid codeStore, Enabled s act → waitArgs s act = some (pid, codeStore) →
      step s act = .ok (r, s') →
      (∀ pid valid, act = .wait pid codeStore valid → codeStore ≠ NULL → valid = true) →
      r ≠ .exited →
      (r.value = some (-E_BAD_PROC) ↔ ∀ b, ¬Awaited s s.current pid b)) ∧
    ∀ act, Enabled s act →
      step s act ≠ .error (.panic "assertion failed: proc->state != PROC_ZOMBIE") := by
  have hi := h.inv
  have hrunning : ∀ act, Enabled s act → act ≠ .schedule → Running s := by
    rintro act (⟨_, hne, _⟩ | ⟨⟨pid, codeStore, hk⟩, _⟩ | ⟨_, _, rfl⟩) hact
    · exact hi.running hne
    · refine hi.running fun hc => ?_
      rw [hc, hi.table.idle_ready] at hk
      cases hk
    · exact absurd rfl hact
  refine ⟨fun act r s' p code he hs hev => ?_, fun act r s' p x pid he hs hev => ?_,
    fun events s' x hr hx hev => hr.keeps hi hx hev, fun act r s' p x code he hs hev => ?_,
    fun events s' x hr hx hev => ?_, fun events s' pid hr hf hev => ?_,
    fun act r s' pid codeStore he hargs hs hvalid hret => ?_, fun act he herr => ?_⟩
  · have hne : act ≠ .schedule := by
      rintro rfl
      cases r <;> cases hev
    exact exit_step (hrunning act he hne) (hi.after he hs) hev
  · have hne : act ≠ .schedule := by
      rintro rfl
      cases r <;> cases hev
    exact fork_step (hi.after he hs) hev
  · have hne : act ≠ .schedule := by
      rintro rfl
      obtain ⟨q, _, hq⟩ := bind_eq_ok.mp hs
      cases hq
      cases hev
    obtain ⟨h1, h2, pid, codeStore, h3, h4, h5, h6, h7⟩ :=
      reap_step (hrunning act he hne) hs hev
    exact ⟨h1, h2, pid, codeStore, h3, h4, h5, by rw [h6]; rfl, h6, h7⟩
  · obtain ⟨hnone, hno⟩ := (hr.lives hi).gone hev (lives_eq_none.mpr hx)
    exact ⟨lives_eq_none.mp hnone, hno⟩
  · rw [findProc_eq_null hi.table] at hf
    rw [findProc_eq_null (hr.inv hi).table]
    have hunused := (hr.lives hi).unused hev fun b q hq => by
      obtain ⟨hb, rfl⟩ := lives_eq_some.mp hq
      exact hf b hb
    exact fun b hb => hunused b _ (lives_of_mem hb)
  · have hne : act ≠ .schedule := by
      rintro rfl
      cases hargs
    exact (wait_value (hrunning act he hne) he hargs hs hvalid hret).1
  · rcases hi.step he with ⟨r, s', hs, _⟩ | ⟨_, hs⟩
    · rw [herr] at hs
      cases hs
    · rw [herr] at hs
      simp at hs

-- The grandchild exits with status 7 and its parent, which waits for it, is about to
-- collect the status at address 100.
def exitedRun : List Act := asleepRun ++ [.exit 7]

theorem exitedRun_isSome : (runSteps (booted 1 2 0) exitedRun).isSome = true := by decide +kernel

theorem exit_status_delivered : ∃ s',
    step ((runSteps (booted 1 2 0) exitedRun).get exitedRun_isSome) .resume =
      .ok (.reaped 4 (some (100, 7)), s') ∧ 4 ∉ s'.procList ∧ findProc s' 3 = .ok NULL := by
  obtain ⟨s', hs⟩ : ∃ s', step ((runSteps (booted 1 2 0) exitedRun).get exitedRun_isSome) .resume =
      .ok (.reaped 4 (some (100, 7)), s') := by decide +kernel
  have hdeliver := (exit_status_delivery (.of_isSome exitedRun_isSome)).2.2.2.1 .resume _ s' 3 4 7
    (by decide +kernel) hs (by decide +kernel)
  obtain ⟨_, _, pid, codeStore, _, _, _, _, _, _, hmem, hfind⟩ := hdeliver
  have hpid : (((runSteps (booted 1 2 0) exitedRun).get exitedRun_isSome).procs 4).pid = 3 := by
    decide +kernel
  exact ⟨s', hs, hmem, hpid ▸ hfind⟩

end Ucore.Proc
