import Ucore.Mm.Task

namespace Ucore.Mm

open Lib Pmm

-- The memory system and its processes.
structure Sys where
  vm : VM
  task : Nat → Option Task
  idleproc : Nat
  initproc : Nat
  nrProcess : Int

def Sys.current (s : Sys) (i : Nat) : Current :=
  if i = s.idleproc then .idleproc else if i = s.initproc then .initproc else .other

abbrev SysM := Prog Halt Sys Obs

def onVm {α : Type} (x : M α) : SysM α := Prog.zoom Sys.vm (fun s vm => { s with vm := vm }) x

def setTask (i : Nat) (task : Option Task) : SysM Unit :=
  Prog.modify fun s => { s with task := Function.update s.task i task }

-- What process `i` does: system calls and accesses to its memory. The lists tell which
-- calls of kmalloc find room. The end of do_wait are two steps: `code` stores the exit code
-- in the memory of the parent, and `reap` removes the child `i`.
inductive Act
  | fork (i child stack : Nat) (room : List Bool)
  | exec (i name len : Nat) (img : Image) (room : List Bool)
  | exit (i : Nat)
  | load (i addr : Nat)
  | store (i addr value : Nat)
  | code (i addr value : Nat)
  | reap (i : Nat)

-- What the process sees of it: nothing, a byte, or the end of itself.
inductive Reply
  | done (ret : Int)
  | byte (value : Nat)
  | killed
  deriving DecidableEq, Repr

def Act.task : Act → Nat
  | .fork i _ _ _ => i
  | .exec i _ _ _ _ => i
  | .exit i => i
  | .load i _ => i
  | .store i _ _ => i
  | .code i _ _ => i
  | .reap i => i

-- do_wait has let this address through, while the vmas were what they are.
def Checked (vm : VM) (mm : MmStruct) (addr : Nat) : Prop :=
  ∃ mm' vm', (userMemCheck (some mm) addr 4 true vm).result = .ok ((true, mm'), vm')

def Enabled (s : Sys) : Act → Prop
  | .fork i child _ _ => (∃ t, s.task i = some t ∧ t.zombie = false) ∧ s.task child = none
  | .exec i _ _ _ _ => ∃ t, s.task i = some t ∧ t.zombie = false
  | .exit i => ∃ t, s.task i = some t ∧ t.zombie = false
  | .load i _ => ∃ t, s.task i = some t ∧ t.zombie = false ∧ t.mm.isSome
  | .store i _ _ => ∃ t, s.task i = some t ∧ t.zombie = false ∧ t.mm.isSome
  | .code i addr _ => ∃ t mm, s.task i = some t ∧ t.zombie = false ∧ t.mm = some mm ∧ Checked s.vm mm addr
  | .reap i => ∃ t, s.task i = some t ∧ t.zombie = true

-- do_exit; a refused access ends in it as well.
def kill (i : Nat) (task : Task) : SysM Reply := do
  let s ← Prog.get
  let task ← onVm (doExit (s.current i) task)
  setTask i (some task)
  pure .killed

def step (act : Act) : SysM Reply := do
  let s ← Prog.get
  match s.task act.task with
  | none => pure (.done 0)
  | some task =>
      match act with
      | .fork i child stack room => do
          Prog.modify fun s => { s with vm := { s.vm with room := room } }
          let (ret, born, task) ← onVm (doFork s.nrProcess task stack)
          setTask i (some task)
          match born with
          | none => pure (.done ret)
          | some newTask => do
              setTask child (some newTask)
              Prog.modify fun s => { s with nrProcess := s.nrProcess + 1 }
              pure (.done ret)
      | .exec i name len img room => do
          Prog.modify fun s => { s with vm := { s.vm with room := room } }
          let (ret, task) ← onVm (doExecve (s.current i) task name len img)
          setTask i (some task)
          pure (.done ret)
      | .exit i => kill i task
      | .load i addr =>
          match task.mm with
          | none => pure (.done 0)
          | some mm => do
              let (value, mm) ← onVm (userLoad mm addr)
              let task := { task with mm := some mm }
              setTask i (some task)
              match value with
              | none => kill i task
              | some value => pure (.byte value)
      | .store i addr value =>
          match task.mm with
          | none => pure (.done 0)
          | some mm => do
              let (stored, mm) ← onVm (userStore mm addr value)
              let task := { task with mm := some mm }
              setTask i (some task)
              match stored with
              | none => kill i task
              | some _ => pure (.done 0)
      | .code _ addr value =>
          match task.mm with
          | none => pure (.done 0)
          | some mm => do
              onVm (storeBytes mm addr value 4)
              pure (.done 0)
      | .reap i =>
          if s.current i ≠ .other then Prog.halt (.panic "wait idleproc or initproc.\n")
          else
            match task.kstack with
            | none => pure (.done 0)
            | some kstack => do
                Prog.modify fun s => { s with nrProcess := s.nrProcess - 1 }
                onVm (putKstack kstack)
                setTask i none
                pure (.done 0)

-- A list of steps, with what each of them replied.
def steps : List Act → SysM (List Reply)
  | [] => pure []
  | act :: rest => do
      let reply ← step act
      let replies ← steps rest
      pure (reply :: replies)

end Ucore.Mm
