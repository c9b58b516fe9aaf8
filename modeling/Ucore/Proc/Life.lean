import Ucore.Proc.Invariant

namespace Ucore.Proc

-- What fork, exit, wait and kill are about: every process has a pid, a parent and,
-- once it has exited, a status that waits to be collected.
structure Life where
  pid : Int
  parent : Addr
  killed : Bool
  code : Option Int
  deriving DecidableEq

abbrev Lives := Addr → Option Life

-- An event of the life of some process; every other step is `silent`.
inductive Event
  | silent
  | fork (parent child : Addr) (pid : Int)
  | exit (a : Addr) (code : Int)
  | reap (parent child : Addr) (code : Int)
  | kill (pid : Int)
  deriving DecidableEq

-- The children of a process that exits go to `init`.
def Lives.exit (lives : Lives) (init a : Addr) (code : Int) : Lives := fun b =>
  (lives b).map fun p =>
    if b = a then { p with code := some code }
    else if p.parent = a then { p with parent := init }
    else p

def Lives.kill (lives : Lives) (pid : Int) : Lives := fun b =>
  (lives b).map fun p => if p.pid = pid then { p with killed := true } else p

inductive Lives.Step (init : Addr) : Lives → Event → Lives → Prop
  | silent (lives : Lives) : Step init lives .silent lives
  | fork {lives : Lives} {a c : Addr} {p : Life} {pid : Int} : lives a = some p → p.code = none →
      lives c = none → (∀ b p, lives b = some p → p.pid ≠ pid) →
      Step init lives (.fork a c pid) (Function.update lives c (some ⟨pid, a, false, none⟩))
  | exit {lives : Lives} {a : Addr} {p : Life} {code : Int} : lives a = some p → p.code = none →
      a ≠ init → Step init lives (.exit a code) (lives.exit init a code)
  | reap {lives : Lives} {a c : Addr} {p : Life} {code : Int} : lives c = some p →
      p.code = some code → p.parent = a →
      Step init lives (.reap a c code) (Function.update lives c none)
  | kill (lives : Lives) (pid : Int) : Step init lives (.kill pid) (lives.kill pid)

inductive Lives.Run (init : Addr) : Lives → List Event → Lives → Prop
  | nil (lives : Lives) : Run init lives [] lives
  | snoc {lives lives' lives'' : Lives} {events : List Event} {e : Event} :
      Run init lives events lives' → Lives.Step init lives' e lives'' →
      Run init lives (events ++ [e]) lives''

def Event.Reaps (x : Addr) (e : Event) : Prop := ∃ a code, e = .reap a x code

def Event.Forks (pid : Int) (e : Event) : Prop := ∃ a c, e = .fork a c pid

def Event.Creates (x : Addr) (e : Event) : Prop := ∃ a pid, e = .fork a x pid

namespace Lives

variable {init x : Addr} {lives lives' : Lives} {events : List Event} {e : Event} {p : Life}

theorem Step.exit_eq {a : Addr} {code : Int} (h : Step init lives (.exit a code) lives') :
    lives' = lives.exit init a code := by
  cases h
  rfl

theorem Step.reap_eq {a c : Addr} {code : Int} (h : Step init lives (.reap a c code) lives') :
    ∃ p, lives c = some p ∧ p.code = some code := by
  cases h
  exact ⟨_, by assumption, by assumption⟩

theorem Step.fork_eq {a c : Addr} {pid : Int} (h : Step init lives (.fork a c pid) lives') :
    lives c = none ∧ lives' = Function.update lives c (some ⟨pid, a, false, none⟩) := by
  cases h
  exact ⟨by assumption, rfl⟩

-- One step keeps the pid of a process that is not reaped; it keeps its parent or
-- gives it to `init`, and it never touches an exit status.
theorem Step.keeps (h : Step init lives e lives') (hx : lives x = some p) (he : ¬e.Reaps x) :
    ∃ p', lives' x = some p' ∧ p'.pid = p.pid ∧ (p'.parent = p.parent ∨ p'.parent = init) ∧
      ∀ code, p.code = some code → p'.code = some code := by
  cases h with
  | silent => exact ⟨p, hx, rfl, Or.inl rfl, fun _ h => h⟩
  | @fork a c _ pid _ _ hc _ =>
      have hne : x ≠ c := by
        rintro rfl
        rw [hx] at hc
        cases hc
      exact ⟨p, by rw [Function.update_of_ne hne, hx], rfl, Or.inl rfl, fun _ h => h⟩
  | @exit a q code ha hq _ =>
      by_cases hxa : x = a
      · subst hxa
        rw [hx] at ha
        cases ha
        refine ⟨{ p with code := some code }, by simp [Lives.exit, hx], rfl, Or.inl rfl, ?_⟩
        intro c hc
        rw [hq] at hc
        cases hc
      · by_cases hp : p.parent = a
        · exact ⟨{ p with parent := init }, by simp [Lives.exit, hx, hxa, hp], rfl, Or.inr rfl,
            fun _ h => h⟩
        · exact ⟨p, by simp [Lives.exit, hx, hxa, hp], rfl, Or.inl rfl, fun _ h => h⟩
  | @reap a c _ code _ _ _ =>
      have hne : x ≠ c := by
        rintro rfl
        exact he ⟨a, code, rfl⟩
      exact ⟨p, by rw [Function.update_of_ne hne, hx], rfl, Or.inl rfl, fun _ h => h⟩
  | kill pid =>
      by_cases hp : p.pid = pid
      · exact ⟨{ p with killed := true }, by simp [Lives.kill, hx, hp], rfl, Or.inl rfl,
          fun _ h => h⟩
      · exact ⟨p, by simp [Lives.kill, hx, hp], rfl, Or.inl rfl, fun _ h => h⟩

theorem Run.keeps (h : Run init lives events lives') (hx : lives x = some p)
    (hevents : ∀ e ∈ events, ¬Event.Reaps x e) :
    ∃ p', lives' x = some p' ∧ p'.pid = p.pid ∧ (p'.parent = p.parent ∨ p'.parent = init) ∧
      ∀ code, p.code = some code → p'.code = some code := by
  induction h with
  | nil => exact ⟨p, hx, rfl, Or.inl rfl, fun _ h => h⟩
  | snoc _ hstep ih =>
      obtain ⟨q, hq, hpid, hparent, hcode⟩ :=
        ih fun e he => hevents e (List.mem_append_left _ he)
      obtain ⟨p', hp', hpid', hparent', hcode'⟩ := hstep.keeps hq (hevents _ (by simp))
      refine ⟨p', hp', hpid'.trans hpid, ?_, fun c hc => hcode' c (hcode c hc)⟩
      rcases hparent' with hp | hp
      · rw [hp]
        exact hparent
      · exact Or.inr hp

-- A pid that no process has stays unused until fork hands it out again.
theorem Step.unused {pid : Int} (h : Step init lives e lives') (he : ¬e.Forks pid)
    (hpid : ∀ b q, lives b = some q → q.pid ≠ pid) : ∀ b q, lives' b = some q → q.pid ≠ pid := by
  intro b q hb
  cases h with
  | silent => exact hpid b q hb
  | @fork a c _ pid' _ _ _ _ =>
      by_cases hbc : b = c
      · subst hbc
        rw [Function.update_self] at hb
        cases hb
        rintro rfl
        exact he ⟨a, b, rfl⟩
      · rw [Function.update_of_ne hbc] at hb
        exact hpid b q hb
  | exit _ _ _ =>
      obtain ⟨q', hq', rfl⟩ := Option.map_eq_some_iff.mp hb
      have := hpid b q' hq'
      split
      · exact this
      · split <;> exact this
  | @reap a c _ _ _ _ _ =>
      by_cases hbc : b = c
      · subst hbc
        rw [Function.update_self] at hb
        cases hb
      · rw [Function.update_of_ne hbc] at hb
        exact hpid b q hb
  | kill pid' =>
      obtain ⟨q', hq', rfl⟩ := Option.map_eq_some_iff.mp hb
      have := hpid b q' hq'
      split <;> exact this

theorem Run.unused {pid : Int} (h : Run init lives events lives')
    (hevents : ∀ e ∈ events, ¬Event.Forks pid e)
    (hpid : ∀ b q, lives b = some q → q.pid ≠ pid) : ∀ b q, lives' b = some q → q.pid ≠ pid := by
  induction h with
  | nil => exact hpid
  | snoc _ hstep ih =>
      exact hstep.unused (hevents _ (by simp))
        (ih fun e he => hevents e (List.mem_append_left _ he))

-- What is reaped is gone until fork creates a process in its place.
theorem Step.gone (h : Step init lives e lives') (he : ¬e.Creates x) (hx : lives x = none) :
    lives' x = none ∧ ¬e.Reaps x := by
  cases h with
  | silent => exact ⟨hx, fun ⟨_, _, hr⟩ => by cases hr⟩
  | @fork a c _ pid _ _ _ _ =>
      have hne : x ≠ c := by
        rintro rfl
        exact he ⟨a, pid, rfl⟩
      exact ⟨by rw [Function.update_of_ne hne, hx], fun ⟨_, _, hr⟩ => by cases hr⟩
  | exit _ _ _ => exact ⟨by simp [Lives.exit, hx], fun ⟨_, _, hr⟩ => by cases hr⟩
  | @reap a c _ _ hc _ _ =>
      have hne : x ≠ c := by
        rintro rfl
        rw [hx] at hc
        cases hc
      refine ⟨by rw [Function.update_of_ne hne, hx], ?_⟩
      rintro ⟨_, _, hr⟩
      cases hr
      exact hne rfl
  | kill pid => exact ⟨by simp [Lives.kill, hx], fun ⟨_, _, hr⟩ => by cases hr⟩

theorem Run.gone (h : Run init lives events lives') (hevents : ∀ e ∈ events, ¬Event.Creates x e)
    (hx : lives x = none) : lives' x = none ∧ ∀ e ∈ events, ¬Event.Reaps x e := by
  induction h with
  | nil => exact ⟨hx, by simp⟩
  | snoc _ hstep ih =>
      obtain ⟨hx', hno⟩ := ih fun e he => hevents e (List.mem_append_left _ he)
      obtain ⟨hx'', hlast⟩ := hstep.gone (hevents _ (by simp)) hx'
      refine ⟨hx'', fun e he => ?_⟩
      rcases List.mem_append.mp he with he | he
      · exact hno e he
      · exact (List.mem_singleton.mp he) ▸ hlast

-- Only a kill of its pid marks a process as killed.
theorem Step.spared (h : Step init lives e lives') (hx : lives x = some p)
    (hk : p.killed = false) (he : e ≠ .kill p.pid) {p' : Life} (hx' : lives' x = some p') :
    p'.killed = false := by
  cases h with
  | silent =>
      rw [hx] at hx'
      cases hx'
      exact hk
  | @fork a c _ _ _ _ _ _ =>
      by_cases hxc : x = c
      · subst hxc
        rw [Function.update_self] at hx'
        cases hx'
        rfl
      · rw [Function.update_of_ne hxc, hx] at hx'
        cases hx'
        exact hk
  | exit _ _ _ =>
      obtain ⟨q, hq, rfl⟩ := Option.map_eq_some_iff.mp hx'
      rw [hx] at hq
      cases hq
      split
      · exact hk
      · split <;> exact hk
  | @reap a c _ _ _ _ _ =>
      by_cases hxc : x = c
      · subst hxc
        rw [Function.update_self] at hx'
        cases hx'
      · rw [Function.update_of_ne hxc, hx] at hx'
        cases hx'
        exact hk
  | kill pid =>
      obtain ⟨q, hq, rfl⟩ := Option.map_eq_some_iff.mp hx'
      rw [hx] at hq
      cases hq
      have hne : p.pid ≠ pid := fun hp => he (by rw [hp])
      rw [if_neg hne]
      exact hk

end Lives

-- The life of a process as its `proc_struct` records it.
def ProcStruct.life (p : ProcStruct) : Life :=
  { pid := p.pid, parent := p.parent, killed := decide (p.flags &&& PF_EXITING ≠ 0),
    code := if p.state = .ZOMBIE then some p.exitCode else none }

def lives (s : Procs) : Lives := fun a =>
  if a ∈ s.procList then some (s.procs a).life else none

variable {s s' : Procs} {a : Addr}

theorem lives_of_mem (ha : a ∈ s.procList) : lives s a = some (s.procs a).life := if_pos ha

theorem lives_eq_none : lives s a = none ↔ a ∉ s.procList := by
  simp [lives]

theorem lives_eq_some {p : Life} : lives s a = some p ↔ a ∈ s.procList ∧ (s.procs a).life = p := by
  simp [lives]

theorem ProcStruct.life_code {p : ProcStruct} {code : Int} :
    p.life.code = some code ↔ p.state = .ZOMBIE ∧ p.exitCode = code := by
  simp [ProcStruct.life]

theorem lives_congr (hlist : s'.procList = s.procList)
    (hlife : ∀ b ∈ s.procList, (s'.procs b).life = (s.procs b).life) : lives s' = lives s := by
  funext b
  by_cases hb : b ∈ s.procList
  · rw [lives_of_mem hb, lives_of_mem (hlist ▸ hb), hlife b hb]
  · rw [lives_eq_none.mpr hb, lives_eq_none.mpr (by rwa [hlist])]

end Ucore.Proc
