import Ucore.Basic

namespace Ucore.Proc

-- Kernel addresses of heap objects; address 0 is the NULL pointer.
abbrev Addr := Nat

def NULL : Addr := 0

inductive ProcState
  | UNINIT
  | SLEEPING
  | RUNNABLE
  | ZOMBIE
  deriving DecidableEq, Repr

def PF_EXITING : BitVec 32 := 0x00000001#32
def WT_INTERRUPTED : BitVec 32 := 0x80000000#32
def WT_CHILD : BitVec 32 := 0x00000001#32 ||| WT_INTERRUPTED

def MAX_PROCESS : Int := 4096
def MAX_PID : Int := MAX_PROCESS * 2

-- Where a process goes on when `switch_to` returns to it: in the code that
-- called `schedule` last, or inside `do_wait`, which has its arguments on the
-- kernel stack.
inductive Kont
  | ready
  | waiting (pid : Int) (codeStore : Addr)
  deriving DecidableEq, Repr

structure ProcStruct where
  state : ProcState
  pid : Int
  runs : Nat
  kstack : Nat
  needResched : Bool
  parent : Addr
  mm : Addr
  flags : BitVec 32
  exitCode : Int
  waitState : BitVec 32
  cptr : Addr
  yptr : Addr
  optr : Addr
  kont : Kont
  deriving DecidableEq

-- The process table. `live` are the addresses that `kmalloc` handed out for a
-- `proc_struct` and `kfree` has not taken back; a freed object keeps its bytes.
structure Procs where
  procs : Addr → ProcStruct
  live : List Addr
  procList : List Addr
  hashList : Nat → List Addr
  idleproc : Addr
  initproc : Addr
  current : Addr
  nrProcess : Int
  lastPid : Int
  nextSafe : Int

namespace Procs

def deref (s : Procs) (a : Addr) : Except Halt ProcStruct :=
  if a ∈ s.live then .ok (s.procs a) else .error .wild

def modify (s : Procs) (a : Addr) (f : ProcStruct → ProcStruct) : Procs :=
  { s with procs := Function.update s.procs a (f (s.procs a)) }

def store (s : Procs) (a : Addr) (f : ProcStruct → ProcStruct) : Except Halt Procs :=
  if a ∈ s.live then .ok (s.modify a f) else .error .wild

variable {s : Procs} {a b : Addr} {f : ProcStruct → ProcStruct}

theorem deref_eq (h : a ∈ s.live) : s.deref a = .ok (s.procs a) := by
  simp [deref, h]

theorem store_eq (f : ProcStruct → ProcStruct) (h : a ∈ s.live) :
    s.store a f = .ok (s.modify a f) := by
  simp [store, h]

@[simp] theorem modify_self : (s.modify a f).procs a = f (s.procs a) := by
  simp [modify]

@[simp] theorem modify_of_ne (h : b ≠ a) : (s.modify a f).procs b = s.procs b := by
  simp [modify, h]

theorem modify_apply :
    (s.modify a f).procs b = if b = a then f (s.procs b) else s.procs b := by
  by_cases h : b = a
  · subst h
    simp
  · simp [h]

@[simp] theorem modify_live : (s.modify a f).live = s.live := by simp only [modify]
@[simp] theorem modify_procList : (s.modify a f).procList = s.procList := by simp only [modify]
@[simp] theorem modify_hashList : (s.modify a f).hashList = s.hashList := by simp only [modify]
@[simp] theorem modify_idleproc : (s.modify a f).idleproc = s.idleproc := by simp only [modify]
@[simp] theorem modify_initproc : (s.modify a f).initproc = s.initproc := by simp only [modify]
@[simp] theorem modify_current : (s.modify a f).current = s.current := by simp only [modify]
@[simp] theorem modify_nrProcess : (s.modify a f).nrProcess = s.nrProcess := by simp only [modify]
@[simp] theorem modify_lastPid : (s.modify a f).lastPid = s.lastPid := by simp only [modify]
@[simp] theorem modify_nextSafe : (s.modify a f).nextSafe = s.nextSafe := by simp only [modify]

end Procs

-- alloc_proc, at the address that kmalloc returned
def allocProc (s : Procs) (a : Addr) : Procs :=
  { s with live := a :: s.live }.modify a fun p =>
    { p with
      state := .UNINIT
      pid := -1
      runs := 0
      kstack := 0
      needResched := false
      parent := NULL
      mm := NULL
      flags := 0
      waitState := 0
      cptr := NULL
      optr := NULL
      yptr := NULL }

-- kfree(proc)
def freeProc (s : Procs) (a : Addr) : Procs :=
  { s with live := s.live.erase a }

-- set_links
def setLinks (s : Procs) (proc : Addr) : Except Halt Procs := do
  let s := { s with procList := proc :: s.procList }
  let s ← s.store proc fun p => { p with yptr := NULL }
  let parent := (← s.deref proc).parent
  let optr := (← s.deref parent).cptr
  let s ← s.store proc fun p => { p with optr := optr }
  let s ← if optr ≠ NULL then s.store optr fun p => { p with yptr := proc } else pure s
  let s ← s.store parent fun p => { p with cptr := proc }
  pure { s with nrProcess := s.nrProcess + 1 }

-- remove_links
def removeLinks (s : Procs) (proc : Addr) : Except Halt Procs := do
  let s := { s with procList := s.procList.erase proc }
  let p ← s.deref proc
  let s ← if p.optr ≠ NULL then s.store p.optr fun o => { o with yptr := p.yptr } else pure s
  let s ← if p.yptr ≠ NULL then s.store p.yptr fun y => { y with optr := p.optr }
    else s.store p.parent fun q => { q with cptr := p.optr }
  pure { s with nrProcess := s.nrProcess - 1 }

-- hash32 of hash.c and pid_hashfn
def hash32 (val bits : Nat) : Nat := (val * 0x9e370001 % 2 ^ 32) >>> (32 - bits)

def HASH_SHIFT : Nat := 10

def pidHashfn (pid : Int) : Nat := hash32 (pid % 2 ^ 32).toNat HASH_SHIFT

-- hash_proc
def hashProc (s : Procs) (proc : Addr) : Except Halt Procs := do
  let p ← s.deref proc
  let h := pidHashfn p.pid
  pure { s with hashList := Function.update s.hashList h (proc :: s.hashList h) }

-- unhash_proc: the node leaves the list it is in, which is that of its pid
def unhashProc (s : Procs) (proc : Addr) : Except Halt Procs := do
  let p ← s.deref proc
  let h := pidHashfn p.pid
  pure { s with hashList := Function.update s.hashList h ((s.hashList h).erase proc) }

-- The loop of find_proc over one hash list.
def findIn (s : Procs) (pid : Int) : List Addr → Except Halt Addr
  | [] => pure NULL
  | proc :: rest => do
      let p ← s.deref proc
      if p.pid = pid then pure proc else findIn s pid rest

-- find_proc
def findProc (s : Procs) (pid : Int) : Except Halt Addr :=
  if 0 < pid ∧ pid < MAX_PID then findIn s pid (s.hashList (pidHashfn pid)) else pure NULL

end Ucore.Proc
