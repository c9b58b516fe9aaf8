import Mathlib.Data.List.Basic
import Ucore.Proc.Family

namespace Ucore.Proc

open Ucore.Lib

-- The children that a do_wait of `a` with this pid waits for.
def Awaited (s : Procs) (a : Addr) (pid : Int) (b : Addr) : Prop :=
  b ∈ s.procList ∧ (s.procs b).parent = a ∧ (pid ≠ 0 → (s.procs b).pid = pid)

-- `a` sleeps in a do_wait that has something to wait for and nothing to collect.
structure Asleep (s : Procs) (a : Addr) : Prop where
  waitState : (s.procs a).waitState = WT_CHILD
  waits : ∃ pid codeStore, (s.procs a).kont = .waiting pid codeStore ∧
    (∃ b, Awaited s a pid b) ∧ ∀ b, Awaited s a pid b → (s.procs b).state ≠ .ZOMBIE

-- The invariant of the process table. `dying` is the process whose children
-- do_exit is handing over, NULL outside of that loop.
structure Table (s : Procs) (dying : Addr) : Prop where
  family : Family s.procs s.procList s.idleproc s.initproc dying
  live_iff : ∀ a, a ∈ s.live ↔ a = s.idleproc ∨ a ∈ s.procList
  live_nodup : s.live.Nodup
  count : s.nrProcess = s.procList.length + 1
  hash_mem : ∀ i a, a ∈ s.hashList i ↔ a ∈ s.procList ∧ pidHashfn (s.procs a).pid = i
  hash_nodup : ∀ i, (s.hashList i).Nodup
  pid_inj : ∀ a ∈ s.procList, ∀ b ∈ s.procList, (s.procs a).pid = (s.procs b).pid → a = b
  pid_range : ∀ a ∈ s.procList, 1 ≤ (s.procs a).pid ∧ (s.procs a).pid < MAX_PID
  pids_safe : PidsSafe (s.procList.map fun a => (s.procs a).pid) s.lastPid s.nextSafe
  known : ∀ a ∈ s.procList, (s.procs a).state ≠ .UNINIT
  asleep : ∀ a ∈ s.procList, (s.procs a).state = .SLEEPING → Asleep s a
  awake : ∀ a ∈ s.procList, (s.procs a).state ≠ .SLEEPING → (s.procs a).waitState = 0
  leaf : ∀ a ∈ s.procList, (s.procs a).state = .ZOMBIE → a ≠ dying → (s.procs a).cptr = NULL
  init_alive : (s.procs s.initproc).state ≠ .ZOMBIE
  idle_state : (s.procs s.idleproc).state = .RUNNABLE
  idle_awake : (s.procs s.idleproc).waitState = 0
  idle_ready : (s.procs s.idleproc).kont = .ready

variable {s s' : Procs} {dying a b : Addr}

theorem WT_CHILD_ne_zero : WT_CHILD ≠ 0 := by decide

theorem WT_CHILD_interrupted : WT_CHILD &&& WT_INTERRUPTED ≠ 0 := by decide

namespace Table

theorem live_of_mem (h : Table s dying) (ha : a ∈ s.procList) : a ∈ s.live :=
  (h.live_iff a).mpr (Or.inr ha)

theorem idle_live (h : Table s dying) : s.idleproc ∈ s.live :=
  (h.live_iff _).mpr (Or.inl rfl)

theorem init_live (h : Table s dying) : s.initproc ∈ s.live :=
  h.live_of_mem h.family.init_mem

theorem parent_live (h : Table s dying) (ha : a ∈ s.procList) : (s.procs a).parent ∈ s.live :=
  (h.live_iff _).mpr (h.family.parent_known ha)

theorem state_cases (h : Table s dying) (ha : a ∈ s.procList) :
    (s.procs a).state = .SLEEPING ∨ (s.procs a).state = .RUNNABLE ∨
      (s.procs a).state = .ZOMBIE := by
  have hk := h.known a ha
  cases hs : (s.procs a).state <;> simp_all

-- A wait state is set exactly in the processes that sleep.
theorem waitState_iff (h : Table s dying) (ha : a ∈ s.procList) :
    (s.procs a).waitState = WT_CHILD ↔ (s.procs a).state = .SLEEPING := by
  constructor
  · intro hw
    by_contra hs
    exact WT_CHILD_ne_zero (hw.symm.trans (h.awake a ha hs))
  · exact fun hs => (h.asleep a ha hs).waitState

-- (b): parents are neither freed nor zombies.
theorem parent_alive (h : Table s NULL) (ha : a ∈ s.procList) :
    (s.procs (s.procs a).parent).state ≠ .ZOMBIE := by
  intro hz
  rcases h.family.parent_known ha with hi | hm
  · rw [hi, h.idle_state] at hz
    cases hz
  · have hc := h.leaf _ hm hz (h.family.ne_null hm)
    exact h.family.no_kids (Or.inr hm) hc a ha rfl

theorem kids_length (h : Table s dying) {before head : Addr} {l : List Addr}
    (hl : Siblings s.procs before head l) (hsub : ∀ b ∈ l, b ∈ s.procList) :
    l.length ≤ s.live.length :=
  (List.subperm_of_subset (Chain.nodup hl) fun b hb => h.live_of_mem (hsub b hb)).length_le

end Table

-- A sleeper still has its reason to sleep: none of its children is lost, and none
-- becomes a zombie.
theorem Asleep.keep (h : Asleep s a)
    (hwait : (s'.procs a).waitState = (s.procs a).waitState)
    (hkont : (s'.procs a).kont = (s.procs a).kont)
    (hold : ∀ b ∈ s.procList, (s.procs b).parent = a →
      b ∈ s'.procList ∧ (s'.procs b).parent = a ∧ (s'.procs b).pid = (s.procs b).pid)
    (hnew : ∀ b ∈ s'.procList, (s'.procs b).parent = a → (s'.procs b).state = .ZOMBIE →
      b ∈ s.procList ∧ (s.procs b).parent = a ∧ (s.procs b).pid = (s'.procs b).pid ∧
        (s.procs b).state = .ZOMBIE) : Asleep s' a := by
  obtain ⟨hw, pid, codeStore, hk, ⟨b, hb, hp, hpid⟩, hall⟩ := h
  refine ⟨hwait.trans hw, pid, codeStore, hkont.trans hk, ⟨b, ?_⟩, ?_⟩
  · obtain ⟨h1, h2, h3⟩ := hold b hb hp
    exact ⟨h1, h2, fun hne => h3.trans (hpid hne)⟩
  · rintro c ⟨hc, hcp, hcpid⟩ hz
    obtain ⟨h1, h2, h3, h4⟩ := hnew c hc hcp hz
    exact hall c ⟨h1, h2, fun hne => h3.trans (hcpid hne)⟩ h4

-- An operation that creates and reaps no process has to account for the tree and
-- for the states only.
theorem Table.rebuild (h : Table s dying) {f : Addr → ProcStruct} {c dying' : Addr}
    (family : Family f s.procList s.idleproc s.initproc dying')
    (hpid : ∀ a ∈ s.procList, (f a).pid = (s.procs a).pid)
    (known : ∀ a ∈ s.procList, (f a).state ≠ .UNINIT)
    (asleep : ∀ a ∈ s.procList, (f a).state = .SLEEPING →
      Asleep { s with procs := f, current := c } a)
    (awake : ∀ a ∈ s.procList, (f a).state ≠ .SLEEPING → (f a).waitState = 0)
    (leaf : ∀ a ∈ s.procList, (f a).state = .ZOMBIE → a ≠ dying' → (f a).cptr = NULL)
    (hinit : (f s.initproc).state ≠ .ZOMBIE)
    (hstate : (f s.idleproc).state = (s.procs s.idleproc).state)
    (hwait : (f s.idleproc).waitState = (s.procs s.idleproc).waitState)
    (hkont : (f s.idleproc).kont = (s.procs s.idleproc).kont) :
    Table { s with procs := f, current := c } dying' where
  family := family
  live_iff := h.live_iff
  live_nodup := h.live_nodup
  count := h.count
  hash_mem := by
    intro i a
    rw [h.hash_mem i a]
    refine and_congr_right fun ha => ?_
    rw [hpid a ha]
  hash_nodup := h.hash_nodup
  pid_inj := by
    intro a ha b hb he
    rw [hpid a ha, hpid b hb] at he
    exact h.pid_inj a ha b hb he
  pid_range := by
    intro a ha
    rw [hpid a ha]
    exact h.pid_range a ha
  pids_safe := by
    have he : (s.procList.map fun a => (f a).pid) = s.procList.map fun a => (s.procs a).pid :=
      List.map_congr_left hpid
    rw [he]
    exact h.pids_safe
  known := known
  asleep := asleep
  awake := awake
  leaf := leaf
  init_alive := hinit
  idle_state := hstate.trans h.idle_state
  idle_awake := hwait.trans h.idle_awake
  idle_ready := hkont.trans h.idle_ready

-- The fields that the invariant of the table speaks about.
def ProcStruct.core (p : ProcStruct) : ProcStruct :=
  { p with runs := 0, kstack := 0, needResched := false, mm := NULL, flags := 0, exitCode := 0 }

theorem ProcStruct.core_eq_iff {p q : ProcStruct} :
    p.core = q.core ↔ p.state = q.state ∧ p.pid = q.pid ∧ p.parent = q.parent ∧
      p.waitState = q.waitState ∧ p.cptr = q.cptr ∧ p.yptr = q.yptr ∧ p.optr = q.optr ∧
      p.kont = q.kont := by
  simp [core]

theorem Table.congr (h : Table s dying) {f : Addr → ProcStruct} {c : Addr}
    (hf : ∀ a ∈ s.live, (f a).core = (s.procs a).core) :
    Table { s with procs := f, current := c } dying := by
  have hcore : ∀ a, a = s.idleproc ∨ a ∈ s.procList → _ :=
    fun a ha => ProcStruct.core_eq_iff.mp (hf a ((h.live_iff a).mpr ha))
  have hlist : ∀ a ∈ s.procList, _ := fun a ha => hcore a (Or.inr ha)
  have hidle := hcore s.idleproc (Or.inl rfl)
  have hinit := hlist s.initproc h.family.init_mem
  refine h.rebuild ?_ (fun a ha => (hlist a ha).2.1) (fun a ha => ?_) (fun a ha hs => ?_)
    (fun a ha hs => ?_) (fun a ha hz hne => ?_) ?_ hidle.1 hidle.2.2.2.1 hidle.2.2.2.2.2.2.2
  · exact h.family.congr (fun b hb => (hcore b hb).2.2.1) (fun b hb => (hcore b hb).2.2.2.2.1)
      (fun b hb => (hcore b hb).2.2.2.2.2.1) (fun b hb => (hcore b hb).2.2.2.2.2.2.1)
  · rw [(hlist a ha).1]
    exact h.known a ha
  · rw [(hlist a ha).1] at hs
    refine (h.asleep a ha hs).keep (hlist a ha).2.2.2.1 (hlist a ha).2.2.2.2.2.2.2
      (fun b hb hp => ⟨hb, (hlist b hb).2.2.1.trans hp, (hlist b hb).2.1⟩) (fun b hb hp hz => ?_)
    obtain ⟨h1, h2, h3, _⟩ := hlist b hb
    exact ⟨hb, h3.symm.trans hp, h2.symm, h1.symm.trans hz⟩
  · rw [(hlist a ha).2.2.2.1]
    exact h.awake a ha (by rwa [← (hlist a ha).1])
  · rw [(hlist a ha).2.2.2.2.1]
    exact h.leaf a ha (by rwa [← (hlist a ha).1]) hne
  · rw [hinit.1]
    exact h.init_alive

theorem Table.modify (h : Table s dying) {f : ProcStruct → ProcStruct}
    (hf : (f (s.procs a)).core = (s.procs a).core) : Table (s.modify a f) dying :=
  h.congr (c := s.current) fun b _ => by
    change ((s.modify a f).procs b).core = _
    by_cases hb : b = a
    · rw [hb, Procs.modify_self, hf]
    · rw [Procs.modify_of_ne hb]

-- Some sleeper would wait for a child that is asleep too, and so on: without a
-- runnable process the tree would be infinitely deep.
theorem Table.exists_runnable (h : Table s NULL) :
    ∃ a ∈ s.procList, (s.procs a).state = .RUNNABLE := by
  by_contra hno
  push Not at hno
  have hdeep : ∀ n, ∃ a ∈ s.procList, (s.procs a).state = .SLEEPING ∧
      Depth s.procs s.procList s.initproc n a := by
    intro n
    induction n with
    | zero =>
        refine ⟨s.initproc, h.family.init_mem, ?_, .zero h.family.init_mem⟩
        rcases h.state_cases h.family.init_mem with hs | hs | hs
        · exact hs
        · exact absurd hs (hno _ h.family.init_mem)
        · exact absurd hs h.init_alive
    | succ n ih =>
        obtain ⟨a, ha, hs, hd⟩ := ih
        obtain ⟨_, pid, cs, _, ⟨b, hb⟩, hall⟩ := h.asleep a ha hs
        have hbz := hall b hb
        obtain ⟨hbm, hbp, _⟩ := hb
        refine ⟨b, hbm, ?_, .succ hbm ?_ (by rw [hbp]; exact hd)⟩
        · rcases h.state_cases hbm with hs | hs | hs
          · exact hs
          · exact absurd hs (hno b hbm)
          · exact absurd hs hbz
        · rintro rfl
          rw [h.family.init_parent] at hbp
          exact h.family.idle_notMem (hbp ▸ ha)
  have hbound : ∀ l : List Addr, (∀ a ∈ l, a ∈ s.procList) →
      ∃ m, ∀ a ∈ l, ∀ n, Depth s.procs s.procList s.initproc n a → n < m := by
    intro l
    induction l with
    | nil => exact fun _ => ⟨0, by simp⟩
    | cons x rest ih =>
        intro hsub
        obtain ⟨m, hm⟩ := ih fun a ha => hsub a (List.mem_cons_of_mem _ ha)
        obtain ⟨k, hk⟩ := h.family.depth x (hsub x List.mem_cons_self)
        refine ⟨max m (k + 1), fun a ha n hd => ?_⟩
        rcases List.mem_cons.mp ha with rfl | ha
        · have := hd.unique hk
          omega
        · have := hm a ha n hd
          omega
  obtain ⟨m, hm⟩ := hbound s.procList fun _ ha => ha
  obtain ⟨a, ha, _, hd⟩ := hdeep m
  exact absurd (hm a ha m hd) (lt_irrefl m)

end Ucore.Proc
