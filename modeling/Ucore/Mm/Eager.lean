import Ucore.Mm.Tasks
import Ucore.Mm.System

namespace Ucore.Mm

open Lib

-- A page of memory that a process has for itself
structure Private where
  words : Words
  readable : Bool
  writable : Bool

-- The memories of processes that share nothing
abbrev Memories := Nat → Option (Nat → Option Private)

namespace Memories

def page (m : Memories) (i addr : Nat) : Option Private := (m i).bind fun mem => mem (addr / PGSIZE)

def drop (m : Memories) (i : Nat) : Memories := Function.update m i none

-- The byte at `addr` is written, in the memory of process `i` only.
def write (m : Memories) (i addr value : Nat) : Memories :=
  Function.update m i ((m i).map fun mem => Function.update mem (addr / PGSIZE)
    ((mem (addr / PGSIZE)).map fun p => { p with words := p.words.write (addr % PGSIZE) 1 fun _ => value }))

end Memories

inductive Life
  | absent
  | live
  | zombie
  deriving DecidableEq, Repr

-- A system in which fork copies the memory at once
structure Eager where
  memory : Memories
  life : Nat → Life
  idleproc : Nat
  initproc : Nat
  nrProcess : Int

namespace Eager

def kill (m : Eager) (i : Nat) : Eager :=
  { m with memory := m.memory.drop i, life := Function.update m.life i .zombie }

def write (m : Eager) (i addr value : Nat) : Eager := { m with memory := m.memory.write i addr value }

def fork (m : Eager) (i child : Nat) : Eager :=
  { m with
    memory := Function.update m.memory child (m.memory i)
    life := Function.update m.life child .live
    nrProcess := m.nrProcess + 1 }

def reap (m : Eager) (i : Nat) : Eager :=
  { m with memory := m.memory.drop i, life := Function.update m.life i .absent, nrProcess := m.nrProcess - 1 }

-- A load or store that is refused ends the process.
def step (m : Eager) : Act → Reply × Eager
  | .fork i child _ _ =>
      if m.nrProcess ≥ MAX_PROCESS then (.done (-E_NO_FREE_PROC), m) else (.done 0, m.fork i child)
  | .exit i => (.killed, m.kill i)
  | .load i addr =>
      match m.memory.page i addr with
      | some p => if p.readable then (.byte (p.words.byte (addr % PGSIZE)), m) else (.killed, m.kill i)
      | none => (.killed, m.kill i)
  | .store i addr value =>
      match m.memory.page i addr with
      | some p => if p.writable then (.done 0, m.write i addr value) else (.killed, m.kill i)
      | none => (.killed, m.kill i)
  | .reap i => (.done 0, m.reap i)
  | .exec _ _ _ _ _ => (.done 0, m)
  | .code _ _ _ => (.done 0, m)

def steps (m : Eager) : List Act → List Reply × Eager
  | [] => ([], m)
  | act :: rest =>
      let (reply, m) := m.step act
      let (replies, m) := m.steps rest
      (reply :: replies, m)

-- A user process that is there
def Alive (m : Eager) (i : Nat) : Prop := (m.memory i).isSome ∧ i ≠ m.idleproc ∧ i ≠ m.initproc

-- What a process can do while it lives, and its parent behind its end; a child gets a number
-- that nobody has.
def Allowed (m : Eager) : Act → Prop
  | .fork i child _ _ => m.Alive i ∧ m.life child = .absent
  | .exit i => m.Alive i
  | .load i _ => m.Alive i
  | .store i _ _ => m.Alive i
  | .reap i => m.life i = .zombie ∧ i ≠ m.idleproc ∧ i ≠ m.initproc
  | .exec _ _ _ _ _ => False
  | .code _ _ _ => False

def Legal (m : Eager) : List Act → Prop
  | [] => True
  | act :: rest => m.Allowed act ∧ (m.step act).2.Legal rest

instance allowed_decidable (m : Eager) : (act : Act) → Decidable (m.Allowed act)
  | .fork i child _ _ => inferInstanceAs (Decidable (((m.memory i).isSome ∧ _ ∧ _) ∧ m.life child = .absent))
  | .exit i => inferInstanceAs (Decidable ((m.memory i).isSome ∧ _ ∧ _))
  | .load i _ => inferInstanceAs (Decidable ((m.memory i).isSome ∧ _ ∧ _))
  | .store i _ _ => inferInstanceAs (Decidable ((m.memory i).isSome ∧ _ ∧ _))
  | .reap i => inferInstanceAs (Decidable (m.life i = .zombie ∧ _ ∧ _))
  | .exec _ _ _ _ _ => inferInstanceAs (Decidable False)
  | .code _ _ _ => inferInstanceAs (Decidable False)

instance legal_decidable : (m : Eager) → (acts : List Act) → Decidable (m.Legal acts)
  | _, [] => inferInstanceAs (Decidable True)
  | m, act :: rest =>
      have := legal_decidable (m.step act).2 rest
      inferInstanceAs (Decidable (m.Allowed act ∧ (m.step act).2.Legal rest))

end Eager

-- What a process has in a page, and the memories of all processes
def pageOf (mem : Nat → Words) (r v : Nat) : Option Private :=
  if v < UPAGES then (leaf mem r v).map fun lf =>
    ⟨mem lf.frame, lf.perm &&& PTE_R ≠ 0, lf.perm &&& PTE_W ≠ 0 ∨ lf.perm &&& PTE_COW ≠ 0⟩
  else none

def Sys.memory (s : Sys) : Memories := fun i =>
  (s.task i).bind fun t => t.mm.map fun mm => pageOf s.vm.mem mm.pgdir

def lifeOf : Option Task → Life
  | none => .absent
  | some t => if t.zombie then .zombie else .live

def Sys.life (s : Sys) (i : Nat) : Life := lifeOf (s.task i)

def Sys.eager (s : Sys) : Eager := ⟨s.memory, s.life, s.idleproc, s.initproc, s.nrProcess⟩

variable {s : Sys} {mem mem' : Nat → Words} {addr i r r' v : Nat} {w : View} {p : Private} {t : Task}
  {mm : MmStruct}

def Private.view (p : Private) : View := ⟨p.words, p.readable = true, p.writable = true⟩

theorem Private.view_inj {p q : Private} (h : p.view = q.view) : p = q := by
  obtain ⟨words, readable, writable⟩ := p
  obtain ⟨words', readable', writable'⟩ := q
  unfold Private.view at h
  simp only [View.mk.injEq, eq_iff_iff] at h
  obtain ⟨rfl, hr, hw⟩ := h
  have hr : readable = readable' := Bool.eq_iff_iff.mpr hr
  have hw : writable = writable' := Bool.eq_iff_iff.mpr hw
  rw [hr, hw]

theorem view_pageOf (mem : Nat → Words) (r v : Nat) : view mem r v = (pageOf mem r v).map Private.view := by
  unfold view pageOf
  split_ifs with hv
  · cases leaf mem r v with
    | none => rfl
    | some lf => simp [Private.view, Leaf.view]
  · rfl

theorem pageOf_congr (h : view mem' r' v = view mem r v) : pageOf mem' r' v = pageOf mem r v := by
  rw [view_pageOf, view_pageOf] at h
  exact Option.map_injective (fun _ _ => Private.view_inj) h

theorem Sys.memory_eq (ht : s.task i = some t) (hmm : t.mm = some mm) :
    s.memory i = some (pageOf s.vm.mem mm.pgdir) := by
  simp only [Sys.memory, ht, Option.bind_some, hmm, Option.map_some]

theorem Sys.memory_page (ht : s.task i = some t) (hmm : t.mm = some mm) :
    s.memory.page i addr = pageOf s.vm.mem mm.pgdir (addr / PGSIZE) := by
  rw [Memories.page, Sys.memory_eq ht hmm, Option.bind_some]

-- What the page is there for, seen from both sides
theorem pageOf_some (h : view mem r v = some w) : ∃ p, pageOf mem r v = some p ∧ p.view = w := by
  rw [view_pageOf, Option.map_eq_some_iff] at h
  exact h

theorem view_of_pageOf (h : pageOf mem r v = some p) : view mem r v = some p.view := by
  rw [view_pageOf, h, Option.map_some]

end Ucore.Mm
