import Ucore.Proc.Theorems

namespace Ucore.Proc

-- Where init_main stands: before its kernel_thread, at its do_wait(0, NULL), at the
-- schedule() in the loop, and behind the loop.
inductive InitPc
  | start
  | loop
  | yield
  | done
  deriving DecidableEq

def InitPc.Allows : InitPc → Act → Prop
  | .start, .fork _ _ => True
  | .loop, .wait pid codeStore _ => pid = 0 ∧ codeStore = NULL
  | .loop, .resume => True
  | .yield, .schedule => True
  | .done, .exit code => code = 0
  | _, _ => False

-- Where it stands after a call; `none` where it does not go on, because it panics
-- ("create user_main failed") or has left.
def InitPc.next : InitPc → Result → Option InitPc
  | .start, .ret pid => if pid ≤ 0 then none else some .loop
  | .loop, .blocked => some .loop
  | .loop, r => r.value.map fun v => if v = 0 then .yield else .done
  | .yield, .ret _ => some .loop
  | _, _ => none

-- What initproc does is given by its program; every other process makes any system
-- call it likes.
def Permitted (s : Procs) (pc : InitPc) (act : Act) : Prop :=
  Enabled s act ∧ (s.current = s.initproc → pc.Allows act)

instance (pc : InitPc) (act : Act) : Decidable (pc.Allows act) := by
  unfold InitPc.Allows
  split <;> infer_instance

instance (s : Procs) (pc : InitPc) (act : Act) : Decidable (Permitted s pc act) :=
  inferInstanceAs (Decidable (_ ∧ _))

-- The runs of the system, with the steps made on the way.
inductive InitRun : Procs → InitPc → List Act → Prop
  | boot {a b : Addr} {kstack : Nat} {s : Procs} : a ≠ NULL → b ≠ NULL → b ≠ a →
      procInit a b kstack = .ok s → InitRun s .start []
  | step {s s' : Procs} {pc pc' : InitPc} {acts : List Act} {act : Act} {r : Result} :
      InitRun s pc acts → Permitted s pc act → step s act = .ok (r, s') →
      (if s.current = s.initproc then pc.next r else some pc) = some pc' →
      InitRun s' pc' (acts ++ [act])

-- What holds along a run in which nobody kills initproc.
structure InitInv (s : Procs) (pc : InitPc) : Prop where
  inv : Inv s
  pid : (s.procs s.initproc).pid = 1
  spared : (s.procs s.initproc).flags &&& PF_EXITING = 0
  booting : s.current = s.idleproc → pc = .start
  kont : (s.procs s.initproc).kont = .ready ∨
    pc = .loop ∧ (s.procs s.initproc).kont = .waiting 0 NULL
  done : pc = .done → s.procList = [s.initproc]

variable {s s' : Procs} {pc pc' : InitPc} {acts : List Act} {act : Act} {r : Result}

theorem InitInv.boot {a b : Addr} {kstack : Nat} (ha : a ≠ NULL) (hb : b ≠ NULL) (hab : b ≠ a) :
    InitInv (booted a b kstack) .start where
  inv := ⟨booted_table ha hb hab, Or.inl rfl⟩
  pid := congrArg ProcStruct.pid booted_init
  spared := by
    change ((booted a b kstack).procs b).flags &&& _ = _
    rw [booted_init]
    exact (by decide : (0 : BitVec 32) &&& PF_EXITING = 0)
  booting := fun _ => rfl
  kont := Or.inl (congrArg ProcStruct.kont booted_init)
  done := by
    intro h
    cases h

-- A do_wait(0, NULL) of initproc that returns something other than 0 finds no other
-- process left.
theorem alone_after_wait (h : Running s) (hc : s.current = s.initproc) (he : Enabled s act)
    (hargs : waitArgs s act = some (0, NULL)) (hs : step s act = .ok (r, s')) {v : Int}
    (hv : r.value = some v) (hne : v ≠ 0) : s'.procList = [s'.initproc] := by
  have hret : r ≠ .exited := by
    rintro rfl
    cases hv
  obtain ⟨hno, hs'⟩ := (wait_value h he hargs hs (fun _ _ _ hn => absurd rfl hn) hret).2 v hv hne
  have hkids : ∀ b ∈ s.procList, (s.procs b).parent ≠ s.initproc :=
    fun b hb hp => hno b ⟨hb, hp.trans hc.symm, fun hn => absurd rfl hn⟩
  have halone := h.table.family.alone hkids
  rcases hs' with rfl | rfl <;> exact halone

-- The steps of the others, and those of initproc that return, leave initproc with its
-- pid; only do_kill marks it.
theorem InitInv.self (h : InitInv s pc) (ha : After s act r s') (hkill : act ≠ .kill 1) :
    (s'.procs s'.initproc).pid = 1 ∧ (s'.procs s'.initproc).flags &&& PF_EXITING = 0 := by
  have hmem := h.inv.table.family.init_mem
  have hlife := lives_of_mem hmem
  have hreap : ¬(event s act r).Reaps s.initproc := by
    rintro ⟨a, code, hev⟩
    have hl := ha.lives
    rw [hev] at hl
    obtain ⟨p, hp, hcode⟩ := hl.reap_eq
    rw [hlife] at hp
    cases hp
    exact h.inv.table.init_alive (ProcStruct.life_code.mp hcode).1
  obtain ⟨p, hp, hpid, _⟩ := ha.lives.keeps hlife hreap
  have hev : event s act r ≠ .kill (s.procs s.initproc).life.pid := by
    change event s act r ≠ .kill (s.procs s.initproc).pid
    rw [h.pid]
    intro hev
    cases act <;> cases r <;> simp only [event, reduceCtorEq] at hev
    all_goals
      split at hev
      · cases hev <;> exact hkill rfl
      · cases hev
  have hspared := ha.lives.spared hlife (by simp [ProcStruct.life, h.spared]) hev hp
  rw [ha.initproc]
  obtain ⟨_, rfl⟩ := lives_eq_some.mp hp
  refine ⟨hpid.trans h.pid, ?_⟩
  simpa [ProcStruct.life] using hspared

-- While initproc stands at its do_wait, only that do_wait runs in it.
theorem InitInv.waitArgs_eq (h : InitInv s pc) (hp : Permitted s pc act)
    (hc : s.current = s.initproc) {pid : Int} {codeStore : Addr}
    (hargs : waitArgs s act = some (pid, codeStore)) :
    pc = .loop ∧ pid = 0 ∧ codeStore = NULL := by
  have hallow := hp.2 hc
  cases act with
  | wait pid' codeStore' valid =>
      cases hargs
      cases pc with
      | loop => exact ⟨rfl, hallow⟩
      | _ => cases hallow
  | resume =>
      cases pc with
      | loop =>
          rcases h.kont with hk | ⟨_, hk⟩
          · simp [waitArgs, hc, hk] at hargs
          · simp only [waitArgs, hc, hk, Option.some.injEq, Prod.mk.injEq] at hargs
            exact ⟨rfl, hargs.1.symm, hargs.2.symm⟩
      | _ => cases hallow
  | _ => cases hargs

theorem InitPc.next_done (h : pc.next r = some .done) :
    pc = .loop ∧ ∃ v, r.value = some v ∧ v ≠ 0 := by
  cases pc with
  | start =>
      cases r with
      | ret pid =>
          simp only [InitPc.next] at h
          split at h <;> cases h
      | _ => cases h
  | loop =>
      refine ⟨rfl, ?_⟩
      cases r with
      | blocked => cases h
      | exited => cases h
      | reaped x stored => cases h
      | ret v =>
          refine ⟨v, rfl, fun hz => ?_⟩
          subst hz
          cases h
  | yield => cases r <;> cases h
  | done => cases h

theorem waitArgs_of_loop (hp : Permitted s .loop act) (hc : s.current = s.initproc)
    (hrun : Running s) : ∃ pid codeStore, waitArgs s act = some (pid, codeStore) := by
  have hallow := hp.2 hc
  cases act with
  | wait pid codeStore valid => exact ⟨pid, codeStore, rfl⟩
  | resume =>
      rcases hp.1 with ⟨_, _, hact⟩ | ⟨⟨pid, codeStore, hk⟩, _⟩ | ⟨hi, _⟩
      · exact absurd hact id
      · exact ⟨pid, codeStore, by simp [waitArgs, hk]⟩
      · exact absurd (hi ▸ hrun.mem) hrun.table.family.idle_notMem
  | _ => cases hallow

theorem InitInv.step (h : InitInv s pc) (hp : Permitted s pc act) (hkill : act ≠ .kill 1)
    (hs : step s act = .ok (r, s'))
    (hpc : (if s.current = s.initproc then pc.next r else some pc) = some pc') :
    InitInv s' pc' := by
  have ha := h.inv.after hp.1 hs
  obtain ⟨hpid, hspared⟩ := h.self ha hkill
  have hkont := ha.kont s.initproc h.inv.table.family.init_mem
  have hidle : s'.current ≠ s'.idleproc :=
    fun hc => ha.running.table.family.idle_notMem (hc ▸ ha.running.mem)
  by_cases hc : s.current = s.initproc
  · rw [if_pos hc] at hpc
    rw [← hc] at hkont
    have hrun := h.inv.running fun hi => h.inv.table.family.init_ne_idle (hc.symm.trans hi)
    refine ⟨.of_running ha.running, hpid, hspared, fun hc => absurd hc hidle, ?_, fun hd => ?_⟩
    · rw [ha.initproc, ← hc, hkont]
      by_cases hr : r = .blocked
      · subst hr
        rcases kontAfter_blocked s act with hk | ⟨pid, codeStore, hargs, hk⟩
        · exact Or.inl hk
        · obtain ⟨rfl, rfl, rfl⟩ := h.waitArgs_eq hp hc hargs
          cases hpc
          exact Or.inr ⟨rfl, hk⟩
      · exact Or.inl (kontAfter_ready hr)
    · subst hd
      obtain ⟨rfl, v, hv, hne⟩ := InitPc.next_done hpc
      have hargs : waitArgs s act = some (0, NULL) := by
        obtain ⟨pid, codeStore, hargs⟩ := waitArgs_of_loop hp hc hrun
        obtain ⟨_, rfl, rfl⟩ := h.waitArgs_eq hp hc hargs
        exact hargs
      exact alone_after_wait hrun hc hp.1 hargs hs hv hne
  · rw [if_neg hc] at hpc
    cases hpc
    refine ⟨.of_running ha.running, hpid, hspared, fun hc => absurd hc hidle, ?_, fun hd => ?_⟩
    · rw [ha.initproc, hkont, kontAfter_of_ne (Ne.symm hc)]
      exact h.kont
    · have honly := h.done hd
      rcases h.inv.current_known with hi | hm
      · have := h.booting hi
        rw [hd] at this
        cases this
      · rw [honly] at hm
        exact absurd (List.mem_singleton.mp hm) hc

theorem InitRun.inv (h : InitRun s pc acts) (hacts : ∀ act ∈ acts, act ≠ .kill 1) :
    InitInv s pc := by
  induction h with
  | boot ha hb hab hs =>
      rw [procInit_eq ha hb hab] at hs
      cases hs
      exact .boot ha hb hab
  | step _ hp hs hpc ih =>
      have hlast := hacts _ (List.mem_append_right _ List.mem_cons_self)
      exact (ih fun act hact => hacts act (List.mem_append_left _ hact)).step hp hlast hs hpc

-- Without a kill of initproc, whatever the processes do, it leaves only when it is the
-- last one.
theorem init_exits_last (h : InitRun s pc acts) (hacts : ∀ act ∈ acts, act ≠ .kill 1)
    (hp : Permitted s pc act) (hpanic : step s act = .error (.panic "initproc exit.\n")) :
    ∀ p ∈ s.procList, p = s.initproc := by
  have hi := h.inv hacts
  rcases hi.inv.step hp.1 with ⟨r, s', hs, _⟩ | ⟨⟨hc, hx⟩, _⟩
  · rw [hpanic] at hs
    cases hs
  · have hallow := hp.2 hc
    rcases hx with ⟨code, rfl⟩ | ⟨_, hflags⟩
    · cases pc with
      | done =>
          intro p hm
          rw [hi.done rfl] at hm
          exact List.mem_singleton.mp hm
      | _ => cases hallow
    · exact absurd hi.spared hflags

def runInit : Procs → InitPc → List Act → Option (Procs × InitPc)
  | s, pc, [] => some (s, pc)
  | s, pc, act :: acts =>
      if Permitted s pc act then
        match step s act with
        | .ok (r, s') =>
            match if s.current = s.initproc then pc.next r else some pc with
            | some pc' => runInit s' pc' acts
            | none => none
        | .error _ => none
      else none

theorem InitRun.runInit {more : List Act} (h : InitRun s pc acts)
    (hs : Proc.runInit s pc more = some (s', pc')) : InitRun s' pc' (acts ++ more) := by
  induction more generalizing s pc acts with
  | nil =>
      cases hs
      rw [List.append_nil]
      exact h
  | cons act more ih =>
      rw [Proc.runInit] at hs
      by_cases hp : Permitted s pc act
      · rw [if_pos hp] at hs
        cases hr : Proc.step s act with
        | error e =>
            rw [hr] at hs
            cases hs
        | ok p =>
            rw [hr] at hs
            dsimp only at hs
            cases hpc : (if s.current = s.initproc then pc.next p.1 else some pc) with
            | none =>
                rw [hpc] at hs
                cases hs
            | some pc'' =>
                rw [hpc] at hs
                rw [List.append_cons]
                exact ih (h.step hp hr hpc) hs
      · rw [if_neg hp] at hs
        cases hs

theorem InitRun.start : InitRun (booted 1 2 0) .start [] :=
  .boot (by decide) (by decide) (by decide) (procInit_eq (by decide) (by decide) (by decide))

theorem InitRun.of_isSome {more : List Act} (h : InitRun s pc acts)
    (hs : (Proc.runInit s pc more).isSome = true) :
    InitRun ((Proc.runInit s pc more).get hs).1 ((Proc.runInit s pc more).get hs).2
      (acts ++ more) :=
  h.runInit (Option.some_get hs).symm

-- The run of init_main with one user process that ends: initproc is the last to leave.
def lastRun : List Act :=
  [.schedule, .fork 3 (.ok 0 NULL), .wait 0 NULL true, .exec 9, .exit 5, .resume, .schedule,
    .wait 0 NULL true]

theorem lastRun_isSome : (runInit (booted 1 2 0) .start lastRun).isSome = true := by decide +kernel

def lastState : Procs × InitPc := (runInit (booted 1 2 0) .start lastRun).get lastRun_isSome

theorem init_exits_last_run :
    step lastState.1 (.exit 0) = .error (.panic "initproc exit.\n") ∧
      ∀ p ∈ lastState.1.procList, p = lastState.1.initproc := by
  have hpanic : step lastState.1 (.exit 0) = .error (.panic "initproc exit.\n") := by
    decide +kernel
  exact ⟨hpanic, init_exits_last (InitRun.start.of_isSome lastRun_isSome) (by decide)
    (by decide +kernel) hpanic⟩

-- A user process kills initproc, which waits for it, and gives the processor up:
-- initproc leaves before it.
def killRun : List Act :=
  [.schedule, .fork 3 (.ok 0 NULL), .wait 0 NULL true, .exec 9, .kill 1, .schedule]

theorem killRun_isSome : (runInit (booted 1 2 0) .start killRun).isSome = true := by decide +kernel

def killState : Procs × InitPc := (runInit (booted 1 2 0) .start killRun).get killRun_isSome

theorem init_exits_before_child :
    InitRun killState.1 killState.2 killRun ∧ Permitted killState.1 killState.2 .resume ∧
      step killState.1 .resume = .error (.panic "initproc exit.\n") ∧
      3 ∈ killState.1.procList ∧ 3 ≠ killState.1.initproc :=
  ⟨InitRun.start.of_isSome killRun_isSome, by decide +kernel, by decide +kernel,
    by decide +kernel, by decide +kernel⟩

end Ucore.Proc
