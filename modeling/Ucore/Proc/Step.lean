import Ucore.Proc.Pid

namespace Ucore.Proc

-- wakeup_proc
def wakeupProc (s : Procs) (proc : Addr) : Except Halt Procs := do
  let p ← s.deref proc
  assert (p.state ≠ .ZOMBIE) "proc->state != PROC_ZOMBIE"
  if p.state ≠ .RUNNABLE then
    s.store proc fun p => { p with state := .RUNNABLE, waitState := 0 }
  else
    pure s

-- The nodes that the do-while loop of schedule visits, in its order. The loop
-- starts behind the node of the running process and ends with that node; for
-- idleproc, which has none, it starts and ends at the list head.
def scanOrder (s : Procs) : Except Halt (List Addr) :=
  if s.current = s.idleproc then .ok s.procList
  else if s.current ∈ s.procList then
    let i := s.procList.idxOf s.current + 1
    .ok (s.procList.drop i ++ s.procList.take i)
  else .error .wild

-- The first runnable process of the walk, and idleproc when there is none.
def pickNext (s : Procs) : List Addr → Except Halt Addr
  | [] => .ok s.idleproc
  | a :: rest => do
      let p ← s.deref a
      if p.state = .RUNNABLE then .ok a else pickNext s rest

-- schedule and proc_run
def schedule (s : Procs) : Except Halt Procs := do
  let s ← s.store s.current fun p => { p with needResched := false }
  let order ← scanOrder s
  let next ← pickNext s order
  let s ← s.store next fun p => { p with runs := p.runs + 1 }
  pure { s with current := next }

-- What becomes of do_fork's allocations: kmalloc or a later allocation fails, or
-- all succeed with this kernel stack and address space.
inductive ForkMem
  | noProc
  | noMem
  | ok (kstack : Nat) (mm : Addr)
  deriving DecidableEq

-- The part of do_fork that follows copy_thread.
def publish (s : Procs) (proc : Addr) : Except Halt (Int × Procs) := do
  let (pid, s) ← getPid s
  let s ← s.store proc fun p => { p with pid := pid }
  let s ← hashProc s proc
  let s ← setLinks s proc
  let s ← wakeupProc s proc
  pure (pid, s)

-- do_fork up to the first allocation after alloc_proc
def forkProc (s : Procs) (a : Addr) : Except Halt Procs := do
  let s := allocProc s a
  let s ← s.store a fun p => { p with parent := s.current }
  let cur ← s.deref s.current
  assert (cur.waitState = 0) "current->wait_state == 0"
  pure s

-- setup_kstack, copy_mm and copy_thread, as far as the process table shows them
def copyThread (s : Procs) (a : Addr) (kstack : Nat) (mm : Addr) : Except Halt Procs :=
  s.store a fun p => { p with kstack := kstack, mm := mm, kont := .ready }

-- do_fork; `a` is the address that kmalloc returns when it returns one
def doFork (s : Procs) (a : Addr) (mem : ForkMem) : Except Halt (Int × Procs) :=
  if s.nrProcess ≥ MAX_PROCESS then .ok (-E_NO_FREE_PROC, s)
  else match mem with
    | .noProc => .ok (-E_NO_MEM, s)
    | .noMem => do
        let s ← forkProc s a
        pure (-E_NO_MEM, freeProc s a)
    | .ok kstack mm => do
        let s ← forkProc s a
        let s ← copyThread s a kstack mm
        publish s a

-- do_exit up to its loop over the children
def die (s : Procs) (code : Int) : Except Halt Procs := do
  let s ← s.store s.current fun p => { p with mm := NULL }
  let s ← s.store s.current fun p => { p with state := .ZOMBIE, exitCode := code }
  let parent := (← s.deref s.current).parent
  if (← s.deref parent).waitState = WT_CHILD then wakeupProc s parent else pure s

-- One turn of that loop: `proc` leaves the running process and becomes the youngest
-- child of initproc, which is woken if it can collect `proc`.
def relink (s : Procs) (proc : Addr) : Except Halt Procs := do
  let optr := (← s.deref proc).optr
  let s ← s.store s.current fun p => { p with cptr := optr }
  let s ← s.store proc fun p => { p with yptr := NULL }
  let first := (← s.deref s.initproc).cptr
  let s ← s.store proc fun p => { p with optr := first }
  let s ← if first ≠ NULL then s.store first fun p => { p with yptr := proc } else pure s
  let s ← s.store proc fun p => { p with parent := s.initproc }
  s.store s.initproc fun p => { p with cptr := proc }

def adopt (s : Procs) (proc : Addr) : Except Halt Procs := do
  let s ← relink s proc
  if (← s.deref proc).state = .ZOMBIE then
    if (← s.deref s.initproc).waitState = WT_CHILD then wakeupProc s s.initproc else pure s
  else pure s

def reparent : Nat → Procs → Except Halt Procs
  | 0, _ => .error .hang
  | fuel + 1, s => do
      let proc := (← s.deref s.current).cptr
      if proc = NULL then pure s
      else do
        let s ← adopt s proc
        reparent fuel s

-- do_exit. It leaves the processor to the next process and does not return.
def doExit (s : Procs) (code : Int) : Except Halt Procs := do
  if s.current = s.idleproc then throw (.panic "idleproc exit.\n")
  if s.current = s.initproc then throw (.panic "initproc exit.\n")
  let s ← die s code
  let s ← reparent (s.live.length + 1) s
  schedule s

-- How one turn of the loop of do_wait ends.
inductive WaitScan
  | badProc
  | found (proc : Addr)
  | asleep
  deriving DecidableEq

-- The walk over the children: the first zombie, or NULL, and `haskid`.
def scanKids (s : Procs) : Nat → Addr → Bool → Except Halt (Addr × Bool)
  | 0, _, _ => .error .hang
  | fuel + 1, proc, haskid =>
      if proc = NULL then .ok (NULL, haskid)
      else do
        let p ← s.deref proc
        if p.state = .ZOMBIE then pure (proc, true) else scanKids s fuel p.optr true

def waitScan (s : Procs) (pid : Int) : Except Halt WaitScan :=
  if pid ≠ 0 then do
    let proc ← findProc s pid
    if proc = NULL then pure .badProc
    else do
      let p ← s.deref proc
      if p.parent ≠ s.current then pure .badProc
      else if p.state = .ZOMBIE then pure (.found proc)
      else pure .asleep
  else do
    let first := (← s.deref s.current).cptr
    let (proc, haskid) ← scanKids s (s.live.length + 1) first false
    if proc ≠ NULL then pure (.found proc)
    else if haskid then pure .asleep
    else pure .badProc

-- unhash_proc, remove_links and kfree of a reaped child
def reap (s : Procs) (proc : Addr) : Except Halt Procs := do
  let s ← unhashProc s proc
  let s ← removeLinks s proc
  pure (freeProc s proc)

-- What the caller of a system call sees. A reaped child carries the store to user
-- memory that do_wait makes for it, if `code_store` is not NULL; do_wait then
-- returns 0. After `blocked` and `exited` the call has not returned.
inductive Result
  | ret (value : Int)
  | reaped (proc : Addr) (stored : Option (Addr × Int))
  | blocked
  | exited
  deriving DecidableEq

-- The value that the call returns, when it does.
def Result.value : Result → Option Int
  | .ret value => some value
  | .reaped _ _ => some 0
  | .blocked | .exited => none

-- do_wait from the label `repeat`
def waitLoop (s : Procs) (pid : Int) (codeStore : Addr) : Except Halt (Result × Procs) := do
  match ← waitScan s pid with
  | .badProc => pure (.ret (-E_BAD_PROC), s)
  | .asleep =>
      let s ← s.store s.current fun p =>
        { p with state := .SLEEPING, waitState := WT_CHILD, kont := .waiting pid codeStore }
      let s ← schedule s
      pure (.blocked, s)
  | .found proc =>
      if proc = s.idleproc ∨ proc = s.initproc then throw (.panic "wait idleproc or initproc.\n")
      let code := (← s.deref proc).exitCode
      let s ← reap s proc
      pure (.reaped proc (if codeStore ≠ NULL then some (codeStore, code) else none), s)

-- do_wait; `valid` is what user_mem_check answers about `codeStore`
def doWait (s : Procs) (pid : Int) (codeStore : Addr) (valid : Bool) :
    Except Halt (Result × Procs) :=
  if codeStore ≠ NULL ∧ valid = false then .ok (.ret (-E_INVAL), s)
  else waitLoop s pid codeStore

-- do_wait from the return of `schedule` on
def resumeWait (s : Procs) (pid : Int) (codeStore : Addr) : Except Halt (Result × Procs) := do
  let s ← s.store s.current fun p => { p with kont := .ready }
  if (← s.deref s.current).flags &&& PF_EXITING ≠ 0 then
    let s ← doExit s (-E_KILLED)
    pure (.exited, s)
  else waitLoop s pid codeStore

-- do_kill
def doKill (s : Procs) (pid : Int) : Except Halt (Int × Procs) := do
  let proc ← findProc s pid
  if proc = NULL then pure (-E_INVAL, s)
  else
    let p ← s.deref proc
    if p.flags &&& PF_EXITING ≠ 0 then pure (-E_KILLED, s)
    else
      let s ← s.store proc fun p => { p with flags := p.flags ||| PF_EXITING }
      let s ← if (← s.deref proc).waitState &&& WT_INTERRUPTED ≠ 0 then wakeupProc s proc
        else pure s
      pure (0, s)

-- What the running process can make the kernel do. A do_execve that fails ends in
-- do_exit; one that succeeds only replaces the address space. `yield` is do_yield
-- and what a timer tick does.
inductive Act
  | fork (a : Addr) (mem : ForkMem)
  | exit (code : Int)
  | exec (mm : Addr)
  | wait (pid : Int) (codeStore : Addr) (valid : Bool)
  | resume
  | yield
  | kill (pid : Int)
  | getpid
  | schedule
  deriving DecidableEq

-- kmalloc returns memory that is not in use. Only `do_wait` goes on in a process
-- that sleeps in it; idleproc does nothing but call `schedule` while its
-- `need_resched` is set (cpu_idle).
def Enabled (s : Procs) (act : Act) : Prop :=
  (s.procs s.current).kont = .ready ∧ s.current ≠ s.idleproc ∧
      (match act with
        | .fork a _ => a ≠ NULL ∧ a ∉ s.live
        | .resume => False
        | _ => True) ∨
    (∃ pid codeStore, (s.procs s.current).kont = .waiting pid codeStore) ∧ act = .resume ∨
    s.current = s.idleproc ∧ (s.procs s.current).needResched = true ∧ act = .schedule

instance (k : Kont) : Decidable (∃ pid codeStore, k = .waiting pid codeStore) :=
  match k with
  | .ready => isFalse fun ⟨_, _, h⟩ => Kont.noConfusion h
  | .waiting pid codeStore => isTrue ⟨pid, codeStore, rfl⟩

instance (s : Procs) (act : Act) : Decidable (Enabled s act) :=
  match act with
  | .fork _ _ => inferInstanceAs (Decidable (_ ∧ _ ∧ (_ ∧ _) ∨ _ ∧ _ ∨ _ ∧ _ ∧ _))
  | .resume => inferInstanceAs (Decidable (_ ∧ _ ∧ False ∨ _ ∧ _ ∨ _ ∧ _ ∧ _))
  | .exit _ | .exec _ | .wait _ _ _ | .yield | .kill _ | .getpid | .schedule =>
      inferInstanceAs (Decidable (_ ∧ _ ∧ True ∨ _ ∧ _ ∨ _ ∧ _ ∧ _))

def step (s : Procs) : Act → Except Halt (Result × Procs)
  | .fork a mem => do
      let (pid, s) ← doFork s a mem
      pure (.ret pid, s)
  | .exit code => do
      let s ← doExit s code
      pure (.exited, s)
  | .exec mm => do
      let s ← s.store s.current fun p => { p with mm := mm }
      pure (.ret 0, s)
  | .wait pid codeStore valid => doWait s pid codeStore valid
  | .resume =>
      match (s.procs s.current).kont with
      | .waiting pid codeStore => resumeWait s pid codeStore
      | .ready => .error .wild
  | .yield => do
      let s ← s.store s.current fun p => { p with needResched := true }
      pure (.ret 0, s)
  | .kill pid => do
      let (value, s) ← doKill s pid
      pure (.ret value, s)
  | .getpid => do
      let p ← s.deref s.current
      pure (.ret p.pid, s)
  | .schedule => do
      let s ← schedule s
      pure (.ret 0, s)

-- The assertions at the end of init_main
def initChecks (s : Procs) : Except Halt Unit := do
  let p ← s.deref s.initproc
  assert (p.cptr = NULL ∧ p.yptr = NULL ∧ p.optr = NULL)
    "initproc->cptr == NULL && initproc->yptr == NULL && initproc->optr == NULL"
  assert (s.nrProcess = 2) "nr_process == 2"
  assert (s.procList.head? = some s.initproc) "list_next(&proc_list) == &(initproc->list_link)"
  assert (s.procList.getLast? = some s.initproc) "list_prev(&proc_list) == &(initproc->list_link)"

def blank : ProcStruct :=
  { state := .UNINIT, pid := -1, runs := 0, kstack := 0, needResched := false, parent := NULL,
    mm := NULL, flags := 0, exitCode := 0, waitState := 0, cptr := NULL, yptr := NULL,
    optr := NULL, kont := .ready }

-- proc_init up to its kernel_thread; idleproc is at address `a`
def initIdle (a : Addr) : Except Halt Procs := do
  let s : Procs :=
    { procs := fun _ => blank, live := [], procList := [], hashList := fun _ => [],
      idleproc := NULL, initproc := NULL, current := NULL, nrProcess := 0,
      lastPid := MAX_PID, nextSafe := MAX_PID }
  let s := { allocProc s a with idleproc := a }
  let s ← s.store a fun p => { p with pid := 0, state := .RUNNABLE, needResched := true }
  pure { s with nrProcess := s.nrProcess + 1, current := a }

-- proc_init; initproc is at address `b` and has kernel stack `kstack`
def procInit (a b : Addr) (kstack : Nat) : Except Halt Procs := do
  let s ← initIdle a
  let (pid, s) ← doFork s b (.ok kstack NULL)
  if pid ≤ 0 then throw (.panic "create init_main failed.\n")
  let init ← findProc s pid
  let s := { s with initproc := init }
  assert (s.idleproc ≠ NULL ∧ (← s.deref s.idleproc).pid = 0) "idleproc != NULL && idleproc->pid == 0"
  assert (s.initproc ≠ NULL ∧ (← s.deref s.initproc).pid = 1) "initproc != NULL && initproc->pid == 1"
  pure s

end Ucore.Proc
