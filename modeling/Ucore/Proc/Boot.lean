import Ucore.Proc.Run

namespace Ucore.Proc

open Ucore.Lib

variable {a b : Addr} {kstack : Nat}

-- idleproc alone, as proc_init has it before its do_fork
def idleOnly (a : Addr) : Procs where
  procs := fun x =>
    if x = a then { blank with state := .RUNNABLE, pid := 0, needResched := true } else blank
  live := [a]
  procList := []
  hashList := fun _ => []
  idleproc := a
  initproc := NULL
  current := a
  nrProcess := 1
  lastPid := MAX_PID
  nextSafe := MAX_PID

theorem doFork_idleOnly (hab : b ≠ a) :
    doFork (idleOnly a) b (.ok kstack NULL) =
      .ok (1, withChild (idleOnly a) b 1 MAX_PID kstack NULL) := by
  have hcur : (idleOnly a).current ∈ (idleOnly a).live := List.mem_cons_self
  have hb : b ∉ (idleOnly a).live := fun hm => hab (List.mem_singleton.mp hm)
  have hself : (idleOnly a).procs (idleOnly a).current =
      { blank with state := .RUNNABLE, pid := 0, needResched := true } := if_pos rfl
  have hget : getPid (unnamed (idleOnly a) b kstack NULL) = .ok (1,
      { unnamed (idleOnly a) b kstack NULL with lastPid := 1, nextSafe := MAX_PID }) := rfl
  have hmax : ¬(1 : Int) ≥ MAX_PROCESS := by decide
  rw [doFork, if_neg (by exact hmax)]
  simp only [forkProc_eq hcur hb (by rw [hself]; rfl), ok_bind, copyThread_eq]
  exact publish_eq hcur hb (fun hn => absurd (by rw [hself]; rfl) hn) hget

-- The table that proc_init leaves: idleproc at `a` runs, initproc at `b` is its child.
def booted (a b : Addr) (kstack : Nat) : Procs :=
  { withChild (idleOnly a) b 1 MAX_PID kstack NULL with initproc := b }

theorem initIdle_eq : initIdle a = .ok (idleOnly a) := by
  simp only [initIdle, allocProc, Procs.store, Procs.modify, List.mem_singleton, if_true, ok_bind,
    pure_eq_ok, Function.update_self, Function.update_idem, idleOnly]
  congr 2
  funext x
  by_cases hx : x = a
  · subst hx
    simp [blank]
  · simp [hx]

theorem booted_init : (booted a b kstack).procs b =
    { blank with state := .RUNNABLE, pid := 1, kstack := kstack, parent := a } := by
  have hself : (booted a b kstack).procs b = newborn (idleOnly a) b 1 kstack NULL := born_self
  rw [hself]
  by_cases hb : b = a <;> simp [newborn, idleOnly, blank, hb]

theorem booted_idle (hab : b ≠ a) : (booted a b kstack).procs a =
    { blank with state := .RUNNABLE, pid := 0, needResched := true, cptr := b } := by
  change born (idleOnly a) b 1 kstack NULL a = _
  simp [born, hab.symm, idleOnly, blank]

-- proc_init runs through, its assertions included.
theorem procInit_eq (ha : a ≠ NULL) (hb : b ≠ NULL) (hab : b ≠ a) :
    procInit a b kstack = .ok (booted a b kstack) := by
  have hfind : findProc (withChild (idleOnly a) b 1 MAX_PID kstack NULL) 1 = .ok b := by
    have hbucket : (withChild (idleOnly a) b 1 MAX_PID kstack NULL).hashList (pidHashfn 1) = [b] := by
      simp [withChild, idleOnly]
    rw [findProc, if_pos (by decide), hbucket, findIn, Procs.deref_eq (by exact List.mem_cons_self)]
    simp [withChild, born_self, newborn]
  have hla : a ∈ (booted a b kstack).live := List.mem_cons_of_mem _ List.mem_cons_self
  have hlb : b ∈ (booted a b kstack).live := List.mem_cons_self
  have hpos : ¬(1 : Int) ≤ 0 := by decide
  simp only [procInit, initIdle_eq, ok_bind, doFork_idleOnly hab, hpos, if_false, hfind,
    pure_eq_ok]
  change (do
    assert (a ≠ NULL ∧ (← (booted a b kstack).deref a).pid = 0) _
    assert (b ≠ NULL ∧ (← (booted a b kstack).deref b).pid = 1) _
    pure (booted a b kstack)) = _
  rw [Procs.deref_eq hla, Procs.deref_eq hlb, booted_init, booted_idle hab]
  simp [ha, hb]

theorem booted_family (ha : a ≠ NULL) (hb : b ≠ NULL) (hab : b ≠ a) :
    Family (booted a b kstack).procs [b] a b NULL where
  nodup := List.nodup_singleton b
  null_notMem := fun hm => hb (List.mem_singleton.mp hm).symm
  idle_ne_null := ha
  idle_notMem := fun hm => hab (List.mem_singleton.mp hm).symm
  init_mem := List.mem_cons_self
  init_parent := by rw [booted_init]
  kids := by
    have hpar : ((booted a b kstack).procs b).parent = a := by rw [booted_init]
    rintro x (rfl | hx)
    · refine ⟨NULL, [b], fun _ => rfl, ?_, fun y => ?_⟩
      · rw [booted_idle hab]
        refine ⟨rfl, hb, ?_, ?_⟩
        · change ((booted x b kstack).procs b).yptr = NULL
          rw [booted_init]
          rfl
        · simp only [booted_init]
          rfl
      · constructor
        · intro hy
          exact ⟨hy, (List.mem_singleton.mp hy) ▸ hpar⟩
        · exact fun hy => hy.1
    · obtain rfl := List.mem_singleton.mp hx
      refine ⟨NULL, [], fun _ => rfl, ?_, fun y => ?_⟩
      · rw [booted_init]
        rfl
      · simp only [List.not_mem_nil, List.mem_singleton, false_iff, not_and]
        rintro rfl
        rw [hpar]
        exact hab.symm
  depth := by
    intro x hx
    obtain rfl := List.mem_singleton.mp hx
    exact ⟨0, .zero List.mem_cons_self⟩

theorem booted_table (ha : a ≠ NULL) (hb : b ≠ NULL) (hab : b ≠ a) :
    Table (booted a b kstack) NULL where
  family := booted_family ha hb hab
  live_iff := by
    intro x
    change x ∈ [b, a] ↔ x = a ∨ x ∈ [b]
    simp only [List.mem_cons, List.not_mem_nil, or_false]
    exact or_comm
  live_nodup := List.nodup_cons.mpr ⟨fun hm => hab (List.mem_singleton.mp hm), List.nodup_singleton a⟩
  count := rfl
  hash_mem := by
    intro i x
    change x ∈ Function.update (fun _ => []) (pidHashfn 1) [b] i ↔
      x ∈ [b] ∧ pidHashfn ((booted a b kstack).procs x).pid = i
    by_cases hi : i = pidHashfn 1
    · subst hi
      rw [Function.update_self]
      refine ⟨fun hx => ⟨hx, ?_⟩, And.left⟩
      rw [List.mem_singleton.mp hx, booted_init]
    · rw [Function.update_of_ne hi]
      refine iff_of_false List.not_mem_nil ?_
      rintro ⟨hx, hp⟩
      rw [List.mem_singleton.mp hx, booted_init] at hp
      exact hi hp.symm
  hash_nodup := by
    intro i
    change (Function.update (fun _ => []) (pidHashfn 1) [b] i).Nodup
    by_cases hi : i = pidHashfn 1
    · subst hi
      rw [Function.update_self]
      exact List.nodup_singleton b
    · rw [Function.update_of_ne hi]
      exact List.nodup_nil
  pid_inj := fun x hx y hy _ => (List.mem_singleton.mp hx).trans (List.mem_singleton.mp hy).symm
  pid_range := by
    intro x hx
    rw [List.mem_singleton.mp hx, booted_init]
    exact ⟨le_refl 1, (by decide : (1 : Int) < MAX_PID)⟩
  pids_safe := by
    refine ⟨le_refl 1, (by decide : (1 : Int) ≤ MAX_PID), le_refl MAX_PID, ?_⟩
    intro p hp
    obtain ⟨x, hx, rfl⟩ := List.mem_map.mp hp
    rw [List.mem_singleton.mp hx, booted_init]
    exact fun hlt => absurd hlt.1 (lt_irrefl (1 : Int))
  known := by
    intro x hx
    rw [List.mem_singleton.mp hx, booted_init]
    exact ProcState.noConfusion
  asleep := by
    intro x hx hs
    rw [List.mem_singleton.mp hx, booted_init] at hs
    cases hs
  awake := by
    intro x hx _
    rw [List.mem_singleton.mp hx, booted_init]
    rfl
  leaf := by
    intro x hx hz _
    rw [List.mem_singleton.mp hx, booted_init] at hz
    cases hz
  init_alive := by
    change ((booted a b kstack).procs b).state ≠ _
    rw [booted_init]
    exact ProcState.noConfusion
  idle_state := congrArg ProcStruct.state (booted_idle hab)
  idle_awake := congrArg ProcStruct.waitState (booted_idle hab)
  idle_ready := congrArg ProcStruct.kont (booted_idle hab)

end Ucore.Proc
