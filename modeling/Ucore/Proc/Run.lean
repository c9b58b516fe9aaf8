import Ucore.Proc.Wait

namespace Ucore.Proc

open Ucore.Lib

variable {s s' : Procs} {a b x : Addr} {pid : Int} {codeStore : Addr}

def ProcStruct.sleeping (pid : Int) (codeStore : Addr) (p : ProcStruct) : ProcStruct :=
  { p with state := .SLEEPING, waitState := WT_CHILD, kont := .waiting pid codeStore }

-- The caller of do_wait may sleep: it has something to wait for, and nothing that it
-- waits for is a zombie already.
theorem Table.sleep (h : Table s NULL) (codeStore : Addr) (hcur : s.current ∈ s.procList)
    (hex : ∃ b, Awaited s s.current pid b)
    (hall : ∀ b, Awaited s s.current pid b → (s.procs b).state ≠ .ZOMBIE) :
    Table (s.modify s.current (ProcStruct.sleeping pid codeStore)) NULL := by
  have hidle : s.idleproc ≠ s.current := fun he => h.family.idle_notMem (he ▸ hcur)
  let f := (s.modify s.current (ProcStruct.sleeping pid codeStore)).procs
  have hother : ∀ b, b ≠ s.current → f b = s.procs b := fun b hb => Procs.modify_of_ne hb
  have hself : f s.current = (s.procs s.current).sleeping pid codeStore := Procs.modify_self
  have hlink : ∀ b, (f b).pid = (s.procs b).pid ∧ (f b).parent = (s.procs b).parent ∧
      (f b).cptr = (s.procs b).cptr ∧ (f b).yptr = (s.procs b).yptr ∧
      (f b).optr = (s.procs b).optr := by
    intro b
    by_cases hb : b = s.current
    · rw [hb, hself]
      exact ⟨rfl, rfl, rfl, rfl, rfl⟩
    · rw [hother b hb]
      exact ⟨rfl, rfl, rfl, rfl, rfl⟩
  have hzombie : ∀ b, (f b).state = .ZOMBIE → (s.procs b).state = .ZOMBIE := by
    intro b hz
    by_cases hb : b = s.current
    · rw [hb, hself] at hz
      cases hz
    · rwa [hother b hb] at hz
  refine h.rebuild (f := f) (c := s.current) ?_ (fun b _ => (hlink b).1) ?_ ?_ ?_ ?_ ?_
    (by rw [hother _ hidle]) (by rw [hother _ hidle]) (by rw [hother _ hidle])
  · exact h.family.congr (fun b _ => (hlink b).2.1) (fun b _ => (hlink b).2.2.1)
      (fun b _ => (hlink b).2.2.2.1) (fun b _ => (hlink b).2.2.2.2)
  · intro b hb
    by_cases hc : b = s.current
    · rw [hc, hself]
      simp [ProcStruct.sleeping]
    · rw [hother b hc]
      exact h.known b hb
  · intro b hb hs
    by_cases hc : b = s.current
    · subst hc
      refine ⟨congrArg ProcStruct.waitState hself, pid, codeStore,
        congrArg ProcStruct.kont hself, ?_, ?_⟩
      · obtain ⟨c, hc, hp, hcp⟩ := hex
        exact ⟨c, hc, (hlink c).2.1.trans hp, fun hn => (hlink c).1.trans (hcp hn)⟩
      · rintro c ⟨hc, hp, hcp⟩ hz
        exact hall c ⟨hc, (hlink c).2.1.symm.trans hp, fun hn => (hlink c).1.symm.trans (hcp hn)⟩
          (hzombie c hz)
    · rw [hother b hc] at hs
      exact (h.asleep b hb hs).keep (congrArg ProcStruct.waitState (hother b hc))
        (congrArg ProcStruct.kont (hother b hc))
        (fun c hcm hp => ⟨hcm, (hlink c).2.1.trans hp, (hlink c).1⟩)
        (fun c hcm hp hz => ⟨hcm, (hlink c).2.1.symm.trans hp, (hlink c).1.symm, hzombie c hz⟩)
  · intro b hb hs
    by_cases hc : b = s.current
    · rw [hc, hself] at hs
      exact absurd rfl hs
    · rw [hother b hc] at hs ⊢
      exact h.awake b hb hs
  · intro b hb hz hne
    rw [(hlink b).2.2.1]
    exact h.leaf b hb (hzombie b hz) hne
  · exact fun hz => h.init_alive (hzombie _ hz)

-- A process that has the processor, and the table around it.
structure Running (s : Procs) : Prop where
  table : Table s NULL
  mem : s.current ∈ s.procList
  state : (s.procs s.current).state = .RUNNABLE

-- What do_wait does from the label `repeat` on.
theorem waitLoop_spec (h : Running s) (pid : Int) (codeStore : Addr) :
    ((∀ b, ¬Awaited s s.current pid b) ∧
      waitLoop s pid codeStore = .ok (.ret (-E_BAD_PROC), s)) ∨
    (∃ x, Awaited s s.current pid x ∧ (s.procs x).state = .ZOMBIE ∧
      waitLoop s pid codeStore = .ok (.reaped x
        (if codeStore ≠ NULL then some (codeStore, (s.procs x).exitCode) else none), without s x) ∧
      Running (without s x)) ∨
    (∃ b, Awaited s s.current pid b) ∧
      (∀ b, Awaited s s.current pid b → (s.procs b).state ≠ .ZOMBIE) ∧
      ∃ s', waitLoop s pid codeStore = .ok (.blocked, s') ∧ Running s' ∧
        s'.idleproc = s.idleproc ∧ s'.initproc = s.initproc ∧ lives s' = lives s ∧
        ∀ b, (s'.procs b).kont =
          if b = s.current then .waiting pid codeStore else (s.procs b).kont := by
  unfold waitLoop
  rcases waitScan_spec h.table h.mem pid with ⟨hno, hw⟩ | ⟨x, hx, hz, hw⟩ | ⟨hex, hall, hw⟩
  · exact Or.inl ⟨hno, by rw [hw]; rfl⟩
  · refine Or.inr (Or.inl ⟨x, hx, hz, ?_, ?_⟩)
    · have hxi : x ≠ s.idleproc := fun he => h.table.family.idle_notMem (he ▸ hx.1)
      have hxn : x ≠ s.initproc := by
        rintro rfl
        exact h.table.init_alive hz
      simp only [hw, ok_bind, hxi, hxn, or_self, if_false,
        Procs.deref_eq (h.table.live_of_mem hx.1), reap_eq h.table hx.1, pure_eq_ok]
    · have hxc : s.current ≠ x := by
        rintro he
        rw [← he, h.state] at hz
        cases hz
      refine ⟨h.table.without hx.1 hz ?_, ?_, h.state⟩
      · rw [hx.2.1, h.state]
        decide
      · exact (h.table.family.nodup.mem_erase_iff).mpr ⟨hxc, h.mem⟩
  · refine Or.inr (Or.inr ⟨hex, hall, ?_⟩)
    have ht := h.table.sleep codeStore h.mem hex hall
    obtain ⟨f, next, hs, hsame, hnext, hnrun⟩ := schedule_spec ht (Or.inr h.mem)
    refine ⟨_, ?_, ⟨ht.congr fun a _ => hsame.core a, hnext, ?_⟩, rfl, rfl, ?_, fun b => ?_⟩
    · simp only [hw, ok_bind, Procs.store_eq _ (h.table.live_of_mem h.mem)]
      change (schedule (s.modify s.current (ProcStruct.sleeping pid codeStore)) >>= _) = _
      rw [hs]
      rfl
    · exact (congrArg ProcStruct.state (hsame next)).trans hnrun
    · refine lives_congr rfl fun b hb => ?_
      change (f b).life = _
      rw [hsame.life b]
      by_cases hc : b = s.current
      · subst hc
        rw [Procs.modify_self]
        simp only [ProcStruct.life, ProcStruct.sleeping, h.state, reduceCtorEq, if_false]
        rfl
      · rw [Procs.modify_of_ne hc]
    · change (f b).kont = _
      rw [hsame b]
      by_cases hc : b = s.current
      · subst hc
        rw [if_pos rfl, Procs.modify_self]
        rfl
      · rw [if_neg hc, Procs.modify_of_ne hc]

-- A change of fields that the table does not speak about, in the running process
theorem Running.modify (h : Running s) {f : ProcStruct → ProcStruct}
    (hf : (f (s.procs s.current)).core = (s.procs s.current).core) :
    Running (s.modify s.current f) where
  table := h.table.modify hf
  mem := h.mem
  state := by
    rw [Procs.modify_current, Procs.modify_self, (ProcStruct.core_eq_iff.mp hf).1, h.state]

theorem lives_modify {f : ProcStruct → ProcStruct} (hf : (f (s.procs a)).life = (s.procs a).life) :
    lives (s.modify a f) = lives s := by
  refine lives_congr rfl fun b _ => ?_
  by_cases hb : b = a
  · rw [hb, Procs.modify_self, hf]
  · rw [Procs.modify_of_ne hb]

def ProcStruct.marked (p : ProcStruct) : ProcStruct := { p with flags := p.flags ||| PF_EXITING }

theorem PF_EXITING_set (flags : BitVec 32) : (flags ||| PF_EXITING) &&& PF_EXITING ≠ 0 := by
  intro he
  have hbit := congrArg (fun v => v.getLsbD 0) he
  simp [PF_EXITING] at hbit

theorem lives_marked (h : Table s NULL) (hx : x ∈ s.procList) :
    lives (s.modify x ProcStruct.marked) = (lives s).kill (s.procs x).pid := by
  funext b
  by_cases hb : b ∈ s.procList
  · rw [lives_of_mem (by exact hb), Lives.kill, lives_of_mem hb, Option.map_some]
    by_cases hbx : b = x
    · subst hbx
      rw [Procs.modify_self, if_pos (by rfl)]
      simp only [ProcStruct.life, ProcStruct.marked, PF_EXITING_set, ne_eq, not_false_eq_true,
        decide_true]
      rfl
    · have hne : (s.procs b).life.pid ≠ (s.procs x).pid :=
        fun he => hbx (h.pid_inj b hb x hx he)
      rw [Procs.modify_of_ne hbx, if_neg hne]
  · rw [lives_eq_none.mpr (by exact hb), Lives.kill, lives_eq_none.mpr hb, Option.map_none]

def ProcStruct.resumed (p : ProcStruct) : ProcStruct := { p with kont := .ready }

-- The same for the place where it goes on, which matters only while it sleeps.
theorem Running.resume (h : Running s) : Running (s.modify s.current ProcStruct.resumed) := by
  let f := (s.modify s.current ProcStruct.resumed).procs
  have hidle : s.idleproc ≠ s.current := fun he => h.table.family.idle_notMem (he ▸ h.mem)
  have hother : ∀ b, b ≠ s.current → f b = s.procs b := fun b hb => Procs.modify_of_ne hb
  have hself : f s.current = (s.procs s.current).resumed := Procs.modify_self
  have hsame : ∀ b, f b = { s.procs b with kont := (f b).kont } := by
    intro b
    by_cases hb : b = s.current
    · rw [hb, hself]
      rfl
    · rw [hother b hb]
  have hstate : ∀ b, (f b).state = (s.procs b).state := fun b => by rw [hsame b]
  have hparent : ∀ b, (f b).parent = (s.procs b).parent := fun b => by rw [hsame b]
  have hpid : ∀ b, (f b).pid = (s.procs b).pid := fun b => by rw [hsame b]
  have hcptr : ∀ b, (f b).cptr = (s.procs b).cptr := fun b => by rw [hsame b]
  have hwait : ∀ b, (f b).waitState = (s.procs b).waitState := fun b => by rw [hsame b]
  have hfamily : Family f s.procList s.idleproc s.initproc NULL :=
    h.table.family.congr (fun b _ => hparent b) (fun b _ => hcptr b)
      (fun b _ => by rw [hsame b]) (fun b _ => by rw [hsame b])
  refine ⟨h.table.rebuild (f := f) (c := s.current) hfamily (fun b _ => hpid b) (fun b hb => ?_)
    (fun b hb hs => ?_) (fun b hb hs => ?_) (fun b hb hz hne => ?_) ?_ (hstate _) (hwait _) ?_,
    h.mem, (hstate _).trans h.state⟩
  · rw [hstate b]
    exact h.table.known b hb
  · rw [hstate b] at hs
    have hne : b ≠ s.current := by
      rintro rfl
      rw [h.state] at hs
      cases hs
    exact (h.table.asleep b hb hs).keep (hwait b) (congrArg ProcStruct.kont (hother b hne))
      (fun c hc hp => ⟨hc, (hparent c).trans hp, hpid c⟩)
      (fun c hc hp hz => ⟨hc, (hparent c).symm.trans hp, (hpid c).symm, (hstate c).symm.trans hz⟩)
  · rw [hwait b]
    exact h.table.awake b hb (by rwa [← hstate b])
  · rw [hcptr b]
    exact h.table.leaf b hb (by rwa [← hstate b]) hne
  · rw [hstate]
    exact h.table.init_alive
  · rw [hother _ hidle]

-- do_kill marks the process with this pid and wakes it if it sleeps; it fails if
-- there is none, or if it is marked already.
theorem doKill_spec (h : Running s) (pid : Int) :
    (∃ v, v ≠ 0 ∧ doKill s pid = .ok (v, s)) ∨
    ∃ s', doKill s pid = .ok (0, s') ∧ Running s' ∧ s'.idleproc = s.idleproc ∧
      s'.initproc = s.initproc ∧ lives s' = (lives s).kill pid ∧
      ∀ b, (s'.procs b).kont = (s.procs b).kont := by
  unfold doKill
  rcases findProc_spec h.table pid with ⟨x, hx, hp, hf⟩ | ⟨_, hf⟩
  · have hlx := h.table.live_of_mem hx
    rw [hf, ok_bind, if_neg (h.table.family.ne_null hx), Procs.deref_eq hlx, ok_bind]
    by_cases hk : (s.procs x).flags &&& PF_EXITING ≠ 0
    · rw [if_pos hk]
      exact Or.inl ⟨-E_KILLED, by decide, rfl⟩
    · rw [if_neg hk, Procs.store_eq _ hlx, ok_bind, Procs.deref_eq (by exact hlx), ok_bind]
      change _ ∨ ∃ s', (do
        let s ← if ((s.modify x ProcStruct.marked).procs x).waitState &&& WT_INTERRUPTED ≠ 0
          then wakeupProc (s.modify x ProcStruct.marked) x else pure (s.modify x ProcStruct.marked)
        pure ((0 : Int), s)) = _ ∧ _
      have ht : Table (s.modify x ProcStruct.marked) NULL := h.table.modify rfl
      have hlives := lives_marked h.table hx
      rw [hp] at hlives
      have hsame : ∀ b, ((s.modify x ProcStruct.marked).procs b).state = (s.procs b).state ∧
          ((s.modify x ProcStruct.marked).procs b).kont = (s.procs b).kont := by
        intro b
        by_cases hb : b = x
        · rw [hb, Procs.modify_self]
          exact ⟨rfl, rfl⟩
        · rw [Procs.modify_of_ne hb]
          exact ⟨rfl, rfl⟩
      have hwait : ((s.modify x ProcStruct.marked).procs x).waitState = (s.procs x).waitState := by
        rw [Procs.modify_self]
        rfl
      refine Or.inr ?_
      by_cases hs : (s.procs x).state = .SLEEPING
      · have hne : s.current ≠ x := by
          rintro rfl
          rw [h.state] at hs
          cases hs
        have hsx := (hsame x).1.trans hs
        refine ⟨_, ?_, ⟨ht.wake hx hsx, h.mem, ?_⟩, rfl, rfl, ?_, fun b => ?_⟩
        · rw [hwait, (h.table.waitState_iff hx).mpr hs, if_pos WT_CHILD_interrupted,
            wakeupProc_eq (by exact hlx) hsx]
          rfl
        · rw [Procs.modify_current, Procs.modify_of_ne (by exact hne)]
          exact (hsame _).1.trans h.state
        · rw [← hlives, lives_modify (ProcStruct.life_woken hsx)]
        · rw [← (hsame b).2]
          by_cases hb : b = x
          · rw [hb, Procs.modify_self]
            rfl
          · rw [Procs.modify_of_ne hb]
      · refine ⟨_, ?_, ⟨ht, h.mem, (hsame _).1.trans h.state⟩, rfl, rfl, hlives,
          fun b => (hsame b).2⟩
        rw [hwait, h.table.awake x hx hs]
        rfl
  · rw [hf, ok_bind, if_pos rfl]
    exact Or.inl ⟨-E_INVAL, by decide, rfl⟩

-- The event that a step of the running process is.
def event (s : Procs) : Act → Result → Event
  | .fork a _, .ret pid => if 0 < pid then .fork s.current a pid else .silent
  | .exit code, _ => .exit s.current code
  | .kill pid, .ret v => if v = 0 then .kill pid else .silent
  | .resume, .exited => .exit s.current (-E_KILLED)
  | _, .reaped x _ => .reap s.current x (s.procs x).exitCode
  | _, _ => .silent

-- The arguments of the do_wait that a step runs.
def waitArgs (s : Procs) : Act → Option (Int × Addr)
  | .wait pid codeStore _ => some (pid, codeStore)
  | .resume =>
      match (s.procs s.current).kont with
      | .waiting pid codeStore => some (pid, codeStore)
      | .ready => none
  | _ => none

-- Where a process goes on after a step: the running one inside do_wait if it blocks.
def kontAfter (s : Procs) (act : Act) (r : Result) (b : Addr) : Kont :=
  if b = s.current then
    match r, waitArgs s act with
    | .blocked, some (pid, codeStore) => .waiting pid codeStore
    | _, _ => .ready
  else (s.procs b).kont

theorem kontAfter_of_ne {act : Act} {r : Result} (hb : b ≠ s.current) :
    kontAfter s act r b = (s.procs b).kont := by
  unfold kontAfter
  rw [if_neg hb]

theorem kontAfter_ready {act : Act} {r : Result} (hr : r ≠ .blocked) :
    kontAfter s act r s.current = .ready := by
  unfold kontAfter
  rw [if_pos rfl]
  cases r with
  | blocked => exact absurd rfl hr
  | _ => rfl

theorem kontAfter_blocked (s : Procs) (act : Act) :
    kontAfter s act .blocked s.current = .ready ∨ ∃ pid codeStore,
      waitArgs s act = some (pid, codeStore) ∧
        kontAfter s act .blocked s.current = .waiting pid codeStore := by
  unfold kontAfter
  rw [if_pos rfl]
  cases hw : waitArgs s act with
  | none => exact Or.inl rfl
  | some args => exact Or.inr ⟨args.1, args.2, rfl, rfl⟩

-- What a step leaves behind: one of the processes runs, and the lives of all of them
-- have changed by the step's event.
structure After (s : Procs) (act : Act) (r : Result) (s' : Procs) : Prop where
  running : Running s'
  idleproc : s'.idleproc = s.idleproc
  initproc : s'.initproc = s.initproc
  lives : Lives.Step s.initproc (lives s) (event s act r) (Proc.lives s')
  kont : ∀ b ∈ s.procList, (s'.procs b).kont = kontAfter s act r b

theorem kontAfter_eq {act : Act} {r : Result} (hk : (s.procs s.current).kont = .ready)
    (hr : r ≠ .blocked) (b : Addr) : kontAfter s act r b = (s.procs b).kont := by
  by_cases hb : b = s.current
  · rw [hb, kontAfter_ready hr, hk]
  · exact kontAfter_of_ne hb

-- initproc leaves: it calls do_exit, or it comes back from its sleep and has been killed.
def InitExits (s : Procs) (act : Act) : Prop :=
  s.current = s.initproc ∧ ((∃ code, act = .exit code) ∨
    act = .resume ∧ (s.procs s.initproc).flags &&& PF_EXITING ≠ 0)

theorem doExit_init (h : Table s NULL) (hc : s.current = s.initproc) (code : Int) :
    doExit s code = .error (.panic "initproc exit.\n") := by
  have hidle : s.current ≠ s.idleproc := hc ▸ h.family.init_ne_idle
  unfold doExit
  rw [if_neg hidle, if_pos hc]
  rfl

theorem after_exit (h : Running s) (hinit : s.current ≠ s.initproc) (code : Int) :
    ∃ s', doExit s code = .ok s' ∧ Running s' ∧ s'.idleproc = s.idleproc ∧
      s'.initproc = s.initproc ∧
      Lives.Step s.initproc (lives s) (.exit s.current code) (lives s') ∧
      ∀ b, (s'.procs b).kont = (s.procs b).kont := by
  obtain ⟨f, next, he, ht, hnext, hrun, hkont, hlives⟩ :=
    doExit_spec h.table h.mem h.state hinit code
  refine ⟨_, he, ⟨ht, hnext, hrun⟩, rfl, rfl, ?_, hkont⟩
  rw [hlives]
  refine .exit (lives_of_mem h.mem) ?_ hinit
  simp [ProcStruct.life, h.state]

theorem after_wait (h : Running s) (pid : Int) (codeStore : Addr) :
    ∃ r s', waitLoop s pid codeStore = .ok (r, s') ∧ Running s' ∧ s'.idleproc = s.idleproc ∧
      s'.initproc = s.initproc ∧
      (∀ b, (s'.procs b).kont = if r = .blocked ∧ b = s.current then .waiting pid codeStore
        else (s.procs b).kont) ∧
      ((r = .ret (-E_BAD_PROC) ∧ s' = s) ∨ (r = .blocked ∧ lives s' = lives s) ∨
        ∃ x stored, r = .reaped x stored ∧ Lives.Step s.initproc (lives s)
          (.reap s.current x (s.procs x).exitCode) (lives s')) := by
  rcases waitLoop_spec h pid codeStore with ⟨_, hw⟩ | ⟨x, hx, hz, hw, hr⟩ |
    ⟨_, _, s', hw, hr, hidle, hinit, hlives, hkont⟩
  · exact ⟨_, _, hw, h, rfl, rfl, fun _ => rfl, Or.inl ⟨rfl, rfl⟩⟩
  · refine ⟨_, _, hw, hr, rfl, rfl, fun _ => rfl, Or.inr (Or.inr ⟨_, _, rfl, ?_⟩)⟩
    rw [lives_without h.table x]
    refine .reap (lives_of_mem hx.1) ?_ hx.2.1
    simp [ProcStruct.life, hz]
  · refine ⟨_, _, hw, hr, hidle, hinit, fun b => ?_, Or.inr (Or.inl ⟨rfl, hlives⟩)⟩
    rw [hkont b]
    simp only [true_and]

theorem lives_withChild {next : Int} {kstack : Nat} {mm : Addr} (ha : a ∉ s.procList) :
    lives (withChild s a pid next kstack mm) =
      Function.update (lives s) a (some ⟨pid, s.current, false, none⟩) := by
  funext b
  by_cases hb : b = a
  · subst hb
    rw [Function.update_self, lives_of_mem (by exact List.mem_cons_self)]
    change some (born s b pid kstack mm b).life = _
    rw [born_self]
    simp [ProcStruct.life, newborn]
  · rw [Function.update_of_ne hb]
    by_cases hm : b ∈ s.procList
    · rw [lives_of_mem hm, lives_of_mem (by exact List.mem_cons_of_mem _ hm)]
      change some (born s a pid kstack mm b).life = _
      rw [(born_of_ne _ _ _ hb).2.2.2.2.2]
    · rw [lives_eq_none.mpr hm, lives_eq_none.mpr fun hc => ?_]
      exact hm ((List.mem_cons.mp hc).resolve_left hb)

-- The table after a step that only writes fields of the running process which it
-- does not speak about.
theorem after_modify (h : Running s) (hk : (s.procs s.current).kont = .ready) {act : Act}
    {r : Result} (hr : r ≠ .blocked) {f : ProcStruct → ProcStruct}
    (hcore : (f (s.procs s.current)).core = (s.procs s.current).core)
    (hlife : (f (s.procs s.current)).life = (s.procs s.current).life)
    (hevent : event s act r = .silent) : After s act r (s.modify s.current f) where
  running := h.modify hcore
  idleproc := rfl
  initproc := rfl
  lives := by
    rw [hevent, lives_modify hlife]
    exact .silent _
  kont := fun b _ => by
    rw [kontAfter_eq hk hr, Procs.modify_apply]
    split
    · rename_i hb
      rw [hb, (ProcStruct.core_eq_iff.mp hcore).2.2.2.2.2.2.2]
    · rfl

theorem after_fork (h : Running s) (hk : (s.procs s.current).kont = .ready) (hnull : a ≠ NULL) (ha : a ∉ s.live) (mem : ForkMem) :
    ∃ r s', step s (.fork a mem) = .ok (r, s') ∧ After s (.fork a mem) r s' := by
  have hal : a ∉ s.procList := fun hm => ha (h.table.live_of_mem hm)
  rcases doFork_spec h.table h.mem h.state hnull ha mem with
    ⟨f, err, hf, herr, hsame⟩ | ⟨pid, next, kstack, mm, hf, ht, hpos, hnew⟩
  · have hold : ∀ b ∈ s.live, f b = s.procs b := fun b hb => hsame b fun he => ha (he ▸ hb)
    refine ⟨.ret err, { s with procs := f }, by rw [step, hf]; rfl,
      { running := ⟨h.table.congr (c := s.current) fun b hb => by rw [hold b hb], h.mem, ?_⟩
        idleproc := rfl
        initproc := rfl
        lives := ?_
        kont := fun b hb => (congrArg ProcStruct.kont (hold b (h.table.live_of_mem hb))).trans
          (kontAfter_eq hk Result.noConfusion b).symm }⟩
    · exact (congrArg ProcStruct.state (hold _ (h.table.live_of_mem h.mem))).trans h.state
    · have hno : ¬(0 < err) := not_lt.mpr (le_of_lt herr)
      have hlives : lives { s with procs := f } = lives s :=
        lives_congr rfl fun b hb => congrArg ProcStruct.life (hold b (h.table.live_of_mem hb))
      rw [event, if_neg hno, hlives]
      exact .silent _
  · have hold : ∀ b ∈ s.procList, b ≠ a := fun b hb he => hal (he ▸ hb)
    refine ⟨.ret pid, _, by rw [step, hf]; rfl,
      { running := ⟨ht, List.mem_cons_of_mem _ h.mem, ?_⟩
        idleproc := rfl
        initproc := rfl
        lives := ?_
        kont := fun b hb => (born_of_ne _ _ _ (hold b hb)).2.2.2.2.1.trans
          (kontAfter_eq hk Result.noConfusion b).symm }⟩
    · exact (born_of_ne _ _ _ (hold _ h.mem)).2.2.1.trans h.state
    · have hpos : 0 < pid := by omega
      rw [event, if_pos hpos, lives_withChild hal]
      refine .fork (lives_of_mem h.mem) ?_ (lives_eq_none.mpr hal) fun b p hb => ?_
      · simp [ProcStruct.life, h.state]
      · obtain ⟨hbm, rfl⟩ := lives_eq_some.mp hb
        exact hnew b hbm

theorem after_schedule (h : Table s NULL) (hcur : s.current = s.idleproc ∨ s.current ∈ s.procList)
    (hk : (s.procs s.current).kont = .ready) :
    ∃ s', step s .schedule = .ok (.ret 0, s') ∧ After s .schedule (.ret 0) s' := by
  obtain ⟨f, next, hs, hsame, hnext, hrun⟩ := schedule_spec h hcur
  refine ⟨_, by rw [step, hs]; rfl,
    { running := ⟨h.congr fun b _ => hsame.core b, hnext,
        (congrArg ProcStruct.state (hsame next)).trans hrun⟩
      idleproc := rfl
      initproc := rfl
      lives := ?_
      kont := fun b _ => (congrArg ProcStruct.kont (hsame b) : (f b).kont = _).trans
        (kontAfter_eq hk Result.noConfusion b).symm }⟩
  have hlives : lives { s with procs := f, current := next } = lives s :=
    lives_congr rfl fun b _ => hsame.life b
  rw [hlives]
  exact .silent _

theorem resumeWait_eq (h : Running s) (pid : Int) (codeStore : Addr) :
    resumeWait s pid codeStore =
      if (s.procs s.current).flags &&& PF_EXITING ≠ 0 then do
        let s ← doExit (s.modify s.current ProcStruct.resumed) (-E_KILLED)
        pure (Result.exited, s)
      else waitLoop (s.modify s.current ProcStruct.resumed) pid codeStore := by
  have hlive := h.table.live_of_mem h.mem
  rw [resumeWait, Procs.store_eq _ hlive, ok_bind, Procs.deref_eq (by exact hlive), ok_bind,
    Procs.modify_current, Procs.modify_self]
  rfl

-- do_wait goes on in a process that has slept in it.
theorem after_resume (h : Running s) {pid : Int} {codeStore : Addr}
    (hk : (s.procs s.current).kont = .waiting pid codeStore) :
    (∃ r s', resumeWait s pid codeStore = .ok (r, s') ∧ After s .resume r s') ∨
      InitExits s .resume ∧ resumeWait s pid codeStore = .error (.panic "initproc exit.\n") := by
  have h' := h.resume
  have hlives : lives (s.modify s.current ProcStruct.resumed) = lives s := lives_modify rfl
  have hkont : ∀ b, ((s.modify s.current ProcStruct.resumed).procs b).kont =
      if b = s.current then .ready else (s.procs b).kont := by
    intro b
    rw [Procs.modify_apply]
    split <;> rfl
  have hargs : waitArgs s .resume = some (pid, codeStore) := by simp [waitArgs, hk]
  rw [resumeWait_eq h]
  by_cases hx : (s.procs s.current).flags &&& PF_EXITING ≠ 0
  · rw [if_pos hx]
    by_cases hinit : s.current = s.initproc
    · rw [doExit_init h'.table (by exact hinit)]
      exact Or.inr ⟨⟨hinit, Or.inr ⟨rfl, hinit ▸ hx⟩⟩, rfl⟩
    · obtain ⟨s', hs, hr, hi, hn, hl, hk'⟩ := after_exit h' (by exact hinit) (-E_KILLED)
      rw [hs]
      rw [hlives] at hl
      exact Or.inl ⟨.exited, s', rfl, hr, hi, hn, hl, fun b _ => (hk' b).trans (hkont b)⟩
  · rw [if_neg hx]
    obtain ⟨r, s', hw, hr, hi, hn, hk', hcase⟩ := after_wait h' pid codeStore
    refine Or.inl ⟨r, s', hw, hr, hi, hn, ?_, fun b _ => ?_⟩
    swap
    · rw [hk' b, hkont b]
      cases r with
      | blocked => by_cases hb : b = s.current <;> simp [hb, kontAfter, hargs]
      | _ => simp [kontAfter]
    rcases hcase with ⟨rfl, rfl⟩ | ⟨rfl, hl⟩ | ⟨x, stored, rfl, hl⟩
    · rw [hlives]
      exact .silent _
    · rw [hl, hlives]
      exact .silent _
    · have hcode : ((s.modify s.current ProcStruct.resumed).procs x).exitCode =
          (s.procs x).exitCode := by
        rw [Procs.modify_apply]
        split <;> rfl
      rw [hlives, hcode] at hl
      exact hl

-- A system call of a running process returns, blocks or ends it; the kernel panics
-- only when initproc exits.
theorem step_spec (h : Running s) {act : Act} (he : Enabled s act) :
    (∃ r s', step s act = .ok (r, s') ∧ After s act r s') ∨
      InitExits s act ∧ step s act = .error (.panic "initproc exit.\n") := by
  have hidle : s.current ≠ s.idleproc := fun hc => h.table.family.idle_notMem (hc ▸ h.mem)
  have hlive := h.table.live_of_mem h.mem
  rcases he with ⟨hk, _, hact⟩ | ⟨⟨pid, codeStore, hk⟩, rfl⟩ | ⟨hc, _, _⟩
  · cases act with
    | fork a mem => exact Or.inl (after_fork h hk hact.1 hact.2 mem)
    | exit code =>
        by_cases hinit : s.current = s.initproc
        · refine Or.inr ⟨⟨hinit, Or.inl ⟨code, rfl⟩⟩, ?_⟩
          rw [step, doExit_init h.table hinit]
          rfl
        · obtain ⟨s', hs, hr, hi, hn, hl, hkont⟩ := after_exit h hinit code
          exact Or.inl ⟨.exited, s', by rw [step, hs]; rfl, hr, hi, hn, hl,
            fun b _ => (hkont b).trans (kontAfter_eq hk Result.noConfusion b).symm⟩
    | exec mm =>
        refine Or.inl ⟨.ret 0, _, ?_,
          after_modify h hk Result.noConfusion (f := fun p => { p with mm := mm }) rfl rfl rfl⟩
        rw [step, Procs.store_eq _ hlive]
        rfl
    | wait pid codeStore valid =>
        rw [step, doWait]
        by_cases hv : codeStore ≠ NULL ∧ valid = false
        · rw [if_pos hv]
          exact Or.inl ⟨_, _, rfl, h, rfl, rfl, .silent _,
            fun b _ => (kontAfter_eq hk Result.noConfusion b).symm⟩
        · rw [if_neg hv]
          obtain ⟨r, s', hw, hr, hi, hn, hkont, hcase⟩ := after_wait h pid codeStore
          refine Or.inl ⟨r, s', hw, hr, hi, hn, ?_, fun b _ => ?_⟩
          swap
          · rw [hkont b]
            cases r with
            | blocked => by_cases hb : b = s.current <;> simp [hb, kontAfter, waitArgs]
            | _ => exact (kontAfter_eq hk Result.noConfusion b).symm
          rcases hcase with ⟨rfl, rfl⟩ | ⟨rfl, hl⟩ | ⟨x, stored, rfl, hl⟩
          · exact .silent _
          · rw [hl]
            exact .silent _
          · exact hl
    | resume => exact absurd hact id
    | yield =>
        refine Or.inl ⟨.ret 0, _, ?_,
          after_modify h hk Result.noConfusion (f := fun p => { p with needResched := true })
            rfl rfl rfl⟩
        rw [step, Procs.store_eq _ hlive]
        rfl
    | kill pid =>
        rw [step]
        rcases doKill_spec h pid with ⟨v, hv, hd⟩ | ⟨s', hd, hr, hi, hn, hl, hkont⟩
        · refine Or.inl ⟨.ret v, s, by rw [hd]; rfl, h, rfl, rfl, ?_,
            fun b _ => (kontAfter_eq hk Result.noConfusion b).symm⟩
          rw [event, if_neg hv]
          exact .silent _
        · refine Or.inl ⟨.ret 0, s', by rw [hd]; rfl, hr, hi, hn, ?_,
            fun b _ => (hkont b).trans (kontAfter_eq hk Result.noConfusion b).symm⟩
          rw [hl]
          exact .kill _ _
    | getpid =>
        refine Or.inl ⟨.ret (s.procs s.current).pid, s, ?_, h, rfl, rfl, .silent _,
          fun b _ => (kontAfter_eq hk Result.noConfusion b).symm⟩
        rw [step, Procs.deref_eq hlive]
        rfl
    | schedule =>
        obtain ⟨s', hs⟩ := after_schedule h.table (Or.inr h.mem) hk
        exact Or.inl ⟨_, s', hs⟩
  · rw [step, hk]
    exact after_resume h hk
  · exact absurd hc hidle

end Ucore.Proc
