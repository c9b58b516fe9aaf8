import Ucore.Proc.Ops

namespace Ucore.Proc

open Ucore.Lib

variable {s : Procs} {a b : Addr} {kstack : Nat} {mm : Addr}

-- `a` in front of the children of its parent
def linked (s : Procs) (a b : Addr) : ProcStruct :=
  { s.procs b with
    cptr := if b = (s.procs a).parent then a else (s.procs b).cptr
    yptr := if b = (s.procs (s.procs a).parent).cptr ∧ (s.procs (s.procs a).parent).cptr ≠ NULL
      then a else if b = a then NULL else (s.procs b).yptr
    optr := if b = a then (s.procs (s.procs a).parent).cptr else (s.procs b).optr }

theorem setLinks_eq (ha : a ∈ s.live) (hq : (s.procs a).parent ∈ s.live)
    (hf : (s.procs (s.procs a).parent).cptr ≠ NULL → (s.procs (s.procs a).parent).cptr ∈ s.live)
    (hne : (s.procs a).parent ≠ a)
    (hfa : (s.procs (s.procs a).parent).cptr ≠ NULL → (s.procs (s.procs a).parent).cptr ≠ a) :
    setLinks s a = .ok { s with
      procs := linked s a, procList := a :: s.procList, nrProcess := s.nrProcess + 1 } := by
  obtain ⟨q, hqq⟩ : ∃ q, q = (s.procs a).parent := ⟨_, rfl⟩
  obtain ⟨first, hff⟩ : ∃ first, first = (s.procs q).cptr := ⟨_, rfl⟩
  rw [← hqq] at hq hf hne hfa
  rw [← hff] at hf hfa
  simp only [setLinks, Procs.store_eq, Procs.deref_eq, ha, hq, ok_bind, Procs.modify_live,
    Procs.modify_self, Procs.modify_of_ne, ← hqq, ← hff, ne_eq, hne, not_false_eq_true]
  by_cases hn : first = NULL
  · simp only [hn, not_true, if_false, pure_eq_ok, ok_bind, Procs.store_eq, hq,
      Procs.modify_live]
    simp only [Procs.modify]
    congr 2
    funext b
    simp only [Function.update_apply, linked, ← hqq, ← hff, hn]
    by_cases hb : b = a
    · simp [hb, Ne.symm hne]
      exact hqq
    · by_cases hbq : b = q <;> simp [hb, hbq, hne]
  · simp only [hn, not_false_eq_true, if_true, ok_bind, pure_eq_ok, Procs.store_eq, hq, hf hn,
      Procs.modify_live]
    simp only [Procs.modify]
    congr 2
    funext b
    have hfa := hfa hn
    simp only [Function.update_apply, linked, ← hqq, ← hff]
    by_cases hb : b = a
    · simp [hb, Ne.symm hne, Ne.symm hfa]
      exact hqq
    · by_cases hbf : b = first
      · by_cases hbq : first = q
        · simp [hbf, ← hbq, hfa, hn]
        · simp [hbf, hbq, hfa, hn]
      · by_cases hbq : b = q
        · simp [hbq, hne, hbq ▸ hbf]
        · simp [hb, hbf, hbq]

-- A new process as do_fork leaves it.
def newborn (s : Procs) (a : Addr) (pid : Int) (kstack : Nat) (mm : Addr) : ProcStruct :=
  { s.procs a with
    state := .RUNNABLE, pid := pid, runs := 0, kstack := kstack, needResched := false
    parent := s.current, mm := mm, flags := 0, waitState := 0, cptr := NULL, yptr := NULL
    optr := (s.procs s.current).cptr, kont := .ready }

def born (s : Procs) (a : Addr) (pid : Int) (kstack : Nat) (mm : Addr) (b : Addr) : ProcStruct :=
  if b = a then newborn s a pid kstack mm
  else
    { s.procs b with
      cptr := if b = s.current then a else (s.procs b).cptr
      yptr := if b = (s.procs s.current).cptr ∧ (s.procs s.current).cptr ≠ NULL then a
        else (s.procs b).yptr }

def withChild (s : Procs) (a : Addr) (pid next : Int) (kstack : Nat) (mm : Addr) : Procs :=
  { s with
    procs := born s a pid kstack mm
    live := a :: s.live
    procList := a :: s.procList
    hashList := Function.update s.hashList (pidHashfn pid) (a :: s.hashList (pidHashfn pid))
    nrProcess := s.nrProcess + 1
    lastPid := pid
    nextSafe := next }

-- What do_fork has built before and after copy_thread.
def forked (s : Procs) (a : Addr) : Procs :=
  { s with
    live := a :: s.live
    procs := Function.update s.procs a
      { s.procs a with
        state := .UNINIT, pid := -1, runs := 0, kstack := 0, needResched := false
        parent := s.current, mm := NULL, flags := 0, waitState := 0, cptr := NULL, yptr := NULL
        optr := NULL } }

def unnamed (s : Procs) (a : Addr) (kstack : Nat) (mm : Addr) : Procs :=
  (forked s a).modify a fun p => { p with kstack := kstack, mm := mm, kont := .ready }

theorem forkProc_eq (hcur : s.current ∈ s.live) (ha : a ∉ s.live)
    (hw : (s.procs s.current).waitState = 0) : forkProc s a = .ok (forked s a) := by
  have hne : s.current ≠ a := fun he => ha (he ▸ hcur)
  simp only [forkProc, allocProc, Procs.store_eq, Procs.deref_eq, Procs.modify_live, ok_bind,
    List.mem_cons, true_or, Procs.modify_current, hcur, or_true, Procs.modify_of_ne, ne_eq, hne,
    not_false_eq_true, hw, decide_true, assert_true, pure_eq_ok]
  simp [Procs.modify, forked]

theorem copyThread_eq : copyThread (forked s a) a kstack mm = .ok (unnamed s a kstack mm) :=
  Procs.store_eq _ List.mem_cons_self

theorem unnamed_of_ne (hb : b ≠ a) : (unnamed s a kstack mm).procs b = s.procs b := by
  simp [unnamed, forked, hb]

theorem Table.first_live (h : Table s NULL) (hcur : s.current ∈ s.procList)
    (hn : (s.procs s.current).cptr ≠ NULL) : (s.procs s.current).cptr ∈ s.live := by
  obtain ⟨_, l, _, hl, hmem⟩ := h.family.kids s.current (Or.inr hcur)
  cases l with
  | nil => exact absurd hl hn
  | cons y rest =>
      rw [hl.1]
      exact h.live_of_mem ((hmem y).mp List.mem_cons_self).1

theorem publish_eq (hcur : s.current ∈ s.live) (ha : a ∉ s.live)
    (hfm : (s.procs s.current).cptr ≠ NULL → (s.procs s.current).cptr ∈ s.live)
    {pid next : Int} (hpid : getPid (unnamed s a kstack mm) =
      .ok (pid, { unnamed s a kstack mm with lastPid := pid, nextSafe := next })) :
    publish (unnamed s a kstack mm) a = .ok (pid, withChild s a pid next kstack mm) := by
  have hne : s.current ≠ a := fun he => ha (he ▸ hcur)
  let t : Procs :=
    { (unnamed s a kstack mm).modify a (fun p => { p with pid := pid }) with
      lastPid := pid
      nextSafe := next
      hashList := Function.update s.hashList (pidHashfn pid) (a :: s.hashList (pidHashfn pid)) }
  have hta : t.procs a =
      { newborn s a pid kstack mm with state := .UNINIT, optr := NULL } := by
    simp [t, unnamed, forked, newborn]
  have htne : ∀ b, b ≠ a → t.procs b = s.procs b := by
    intro b hb
    simp [t, hb, unnamed_of_ne]
  have hal : a ∈ t.live := List.mem_cons_self
  have hpa : (t.procs a).parent = s.current := by
    rw [hta]
    rfl
  have hpc : t.procs (t.procs a).parent = s.procs s.current := by
    rw [hpa, htne _ hne]
  have hset := setLinks_eq (s := t) (a := a) hal
    (by rw [hpa]; exact List.mem_cons_of_mem _ hcur)
    (by rw [hpc]; exact fun hn => List.mem_cons_of_mem _ (hfm hn)) (by rw [hpa]; exact hne)
    (by rw [hpc]; exact fun hn he => ha (he ▸ hfm hn))
  have hhash : publish (unnamed s a kstack mm) a =
      (do let s ← setLinks t a; let s ← wakeupProc s a; pure (pid, s)) := by
    unfold publish
    rw [hpid]
    simp only [ok_bind]
    rw [Procs.store_eq _ (by exact hal), ok_bind, hashProc, Procs.deref_eq (by exact hal), ok_bind,
      pure_eq_ok, ok_bind, Procs.modify_self]
    rfl
  have hstate : (linked t a a).state = .UNINIT := by
    simp [linked, hta]
  rw [hhash, hset, ok_bind, wakeupProc, Procs.deref_eq (by exact hal), ok_bind]
  simp only [hstate, ne_eq, reduceCtorEq, not_false_eq_true, decide_true, assert_true, ok_bind,
    if_true]
  rw [Procs.store_eq _ (by exact hal), ok_bind, pure_eq_ok]
  congr 2
  simp only [Procs.modify, withChild]
  have hprocs : (Function.update (linked t a) a
      { linked t a a with state := .RUNNABLE, waitState := 0 }) = born s a pid kstack mm := by
    funext b
    have hfirst : ¬(a = (s.procs s.current).cptr ∧ (s.procs s.current).cptr ≠ NULL) :=
      fun hc => ha (hc.1 ▸ hfm hc.2)
    by_cases hb : b = a
    · subst hb
      simp only [Function.update_self, born, linked, hta, newborn, if_true, htne _ hne,
        Ne.symm hne, if_false, hfirst]
    · simp only [Function.update_of_ne hb, born, linked, hb, if_false, htne b hb, hpa,
        htne _ hne]
  rw [hprocs]
  simp [t, unnamed, forked]

section Born

variable {pid next : Int}

theorem born_self : born s a pid kstack mm a = newborn s a pid kstack mm := if_pos rfl

theorem born_of_ne (pid : Int) (kstack : Nat) (mm : Addr) (hb : b ≠ a) :
    (born s a pid kstack mm b).pid = (s.procs b).pid ∧
      (born s a pid kstack mm b).parent = (s.procs b).parent ∧
      (born s a pid kstack mm b).state = (s.procs b).state ∧
      (born s a pid kstack mm b).waitState = (s.procs b).waitState ∧
      (born s a pid kstack mm b).kont = (s.procs b).kont ∧
      (born s a pid kstack mm b).life = (s.procs b).life := by
  unfold born
  rw [if_neg hb]
  exact ⟨rfl, rfl, rfl, rfl, rfl, rfl⟩

theorem born_links (pid : Int) (kstack : Nat) (mm : Addr) (hac : a ≠ s.current)
    (hfirst : ¬(a = (s.procs s.current).cptr ∧ (s.procs s.current).cptr ≠ NULL)) (b : Addr) :
    (born s a pid kstack mm b).parent = (if b = a then s.current else (s.procs b).parent) ∧
      (born s a pid kstack mm b).cptr =
        (if b = s.current then a else if b = a then NULL else (s.procs b).cptr) ∧
      (born s a pid kstack mm b).yptr =
        (if b = (s.procs s.current).cptr ∧ (s.procs s.current).cptr ≠ NULL then a
          else if b = a then NULL else (s.procs b).yptr) ∧
      (born s a pid kstack mm b).optr =
        (if b = a then (s.procs s.current).cptr else (s.procs b).optr) := by
  by_cases hb : b = a
  · subst hb
    simp only [born, newborn, if_true, hac, hfirst, if_false, and_self]
  · simp only [born, hb, if_false, and_self]

theorem Table.born (h : Table s NULL) (hcur : s.current ∈ s.procList)
    (hrun : (s.procs s.current).state = .RUNNABLE) (hnull : a ≠ NULL) (ha : a ∉ s.live)
    (hpid : 1 ≤ pid ∧ pid < MAX_PID) (hnew : pid ∉ s.procList.map fun b => (s.procs b).pid)
    (hsafe : PidsSafe (pid :: s.procList.map fun b => (s.procs b).pid) pid next) :
    Table (withChild s a pid next kstack mm) NULL := by
  have hac : a ≠ s.current := fun he => ha (he ▸ h.live_of_mem hcur)
  have hal : a ∉ s.procList := fun hm => ha (h.live_of_mem hm)
  have hai : a ≠ s.idleproc := fun he => ha (he ▸ h.idle_live)
  have hold : ∀ b ∈ s.procList, b ≠ a := fun b hb he => hal (he ▸ hb)
  have hpids : ∀ b ∈ s.procList, (s.procs b).pid ≠ pid :=
    fun b hb he => hnew (List.mem_map.mpr ⟨b, hb, he⟩)
  have hself : (Proc.born s a pid kstack mm a) = newborn s a pid kstack mm := born_self
  refine
    { family := ?_
      live_iff := ?_
      live_nodup := List.nodup_cons.mpr ⟨ha, h.live_nodup⟩
      count := ?_
      hash_mem := ?_
      hash_nodup := ?_
      pid_inj := ?_
      pid_range := ?_
      pids_safe := ?_
      known := ?_
      asleep := ?_
      awake := ?_
      leaf := ?_
      init_alive := ?_
      idle_state := (born_of_ne _ _ _ hai.symm).2.2.1.trans h.idle_state
      idle_awake := (born_of_ne _ _ _ hai.symm).2.2.2.1.trans h.idle_awake
      idle_ready := (born_of_ne _ _ _ hai.symm).2.2.2.2.1.trans h.idle_ready }
  · have hfirst : ¬(a = (s.procs s.current).cptr ∧ (s.procs s.current).cptr ≠ NULL) := by
      rintro ⟨he, hn⟩
      obtain ⟨_, l, _, hl, hmem⟩ := h.family.kids s.current (Or.inr hcur)
      cases l with
      | nil => exact hn hl
      | cons y rest => exact hal ((he.trans hl.1) ▸ ((hmem y).mp List.mem_cons_self).1)
    have hlinks := born_links pid kstack mm hac hfirst
    exact h.family.add hal hnull hai hcur (fun b => (hlinks b).1) (fun b => (hlinks b).2.1)
      (fun b => (hlinks b).2.2.1) (fun b => (hlinks b).2.2.2)
  · intro b
    change b ∈ a :: s.live ↔ b = s.idleproc ∨ b ∈ a :: s.procList
    simp only [List.mem_cons, h.live_iff b]
    exact or_left_comm
  · change s.nrProcess + 1 = ((a :: s.procList).length : Int) + 1
    rw [h.count, List.length_cons]
    rfl
  · intro i b
    change b ∈ Function.update s.hashList (pidHashfn pid) (a :: s.hashList (pidHashfn pid)) i ↔
      b ∈ a :: s.procList ∧ pidHashfn (Proc.born s a pid kstack mm b).pid = i
    by_cases hb : b = a
    · subst hb
      rw [hself]
      by_cases hi : i = pidHashfn pid
      · subst hi
        simp [newborn]
      · have hno : b ∉ s.hashList i := fun hm => hal ((h.hash_mem i b).mp hm).1
        simp [newborn, hi, hno, Ne.symm hi]
    · rw [(born_of_ne _ _ _ hb).1]
      by_cases hi : i = pidHashfn pid
      · subst hi
        simp [hb, h.hash_mem]
      · simp [hb, hi, h.hash_mem]
  · intro i
    change (Function.update s.hashList (pidHashfn pid) (a :: s.hashList (pidHashfn pid)) i).Nodup
    by_cases hi : i = pidHashfn pid
    · subst hi
      rw [Function.update_self]
      exact List.nodup_cons.mpr ⟨fun hm => hal ((h.hash_mem _ a).mp hm).1, h.hash_nodup _⟩
    · rw [Function.update_of_ne hi]
      exact h.hash_nodup i
  · intro b hb c hc he
    change (Proc.born s a pid kstack mm b).pid = (Proc.born s a pid kstack mm c).pid at he
    rcases List.mem_cons.mp hb with hba | hb
    · rcases List.mem_cons.mp hc with hca | hc
      · rw [hba, hca]
      · rw [hba, hself, (born_of_ne _ _ _ (hold c hc)).1] at he
        exact absurd he.symm (hpids c hc)
    · rcases List.mem_cons.mp hc with hca | hc
      · rw [hca, hself, (born_of_ne _ _ _ (hold b hb)).1] at he
        exact absurd he (hpids b hb)
      · rw [(born_of_ne _ _ _ (hold b hb)).1, (born_of_ne _ _ _ (hold c hc)).1] at he
        exact h.pid_inj b hb c hc he
  · intro b hb
    change 1 ≤ (Proc.born s a pid kstack mm b).pid ∧ (Proc.born s a pid kstack mm b).pid < MAX_PID
    rcases List.mem_cons.mp hb with rfl | hb
    · rw [hself]
      exact hpid
    · rw [(born_of_ne _ _ _ (hold b hb)).1]
      exact h.pid_range b hb
  · have he : ((a :: s.procList).map fun b => (Proc.born s a pid kstack mm b).pid) =
        pid :: s.procList.map fun b => (s.procs b).pid := by
      rw [List.map_cons, hself]
      exact congrArg _ (List.map_congr_left fun b hb => (born_of_ne _ _ _ (hold b hb)).1)
    change PidsSafe ((a :: s.procList).map fun b => (Proc.born s a pid kstack mm b).pid) pid next
    rw [he]
    exact hsafe
  · intro b hb
    change (Proc.born s a pid kstack mm b).state ≠ .UNINIT
    rcases List.mem_cons.mp hb with rfl | hb
    · rw [hself]
      simp [newborn]
    · rw [(born_of_ne _ _ _ (hold b hb)).2.2.1]
      exact h.known b hb
  · intro b hb hs
    change (Proc.born s a pid kstack mm b).state = .SLEEPING at hs
    rcases List.mem_cons.mp hb with rfl | hb
    · rw [hself] at hs
      cases hs
    · obtain ⟨_, _, hbs, hbw, hbk, _⟩ := born_of_ne (s := s) pid kstack mm (hold b hb)
      rw [hbs] at hs
      refine (h.asleep b hb hs).keep hbw hbk (fun c hc hp => ?_) (fun c hc hp hz => ?_)
      · obtain ⟨hcpid, hcp, _⟩ := born_of_ne (s := s) pid kstack mm (hold c hc)
        exact ⟨List.mem_cons_of_mem _ hc, hcp.trans hp, hcpid⟩
      · change (Proc.born s a pid kstack mm c).parent = b at hp
        change (Proc.born s a pid kstack mm c).state = .ZOMBIE at hz
        rcases List.mem_cons.mp hc with rfl | hc
        · rw [hself] at hz
          cases hz
        · obtain ⟨hcpid, hcp, hcs, _⟩ := born_of_ne (s := s) pid kstack mm (hold c hc)
          exact ⟨hc, hcp.symm.trans hp, hcpid.symm, hcs.symm.trans hz⟩
  · intro b hb hs
    change (Proc.born s a pid kstack mm b).state ≠ .SLEEPING at hs
    change (Proc.born s a pid kstack mm b).waitState = 0
    rcases List.mem_cons.mp hb with rfl | hb
    · rw [hself]
      rfl
    · obtain ⟨_, _, hbs, hbw, _⟩ := born_of_ne (s := s) pid kstack mm (hold b hb)
      rw [hbw]
      exact h.awake b hb (by rwa [← hbs])
  · intro b hb hz hne
    change (Proc.born s a pid kstack mm b).state = .ZOMBIE at hz
    change (Proc.born s a pid kstack mm b).cptr = NULL
    rcases List.mem_cons.mp hb with rfl | hb
    · rw [hself]
      rfl
    · rw [(born_of_ne _ _ _ (hold b hb)).2.2.1] at hz
      have hbc : b ≠ s.current := by
        rintro rfl
        rw [hrun] at hz
        cases hz
      simp only [Proc.born, if_neg (hold b hb), if_neg hbc]
      exact h.leaf b hb hz hne
  · change (Proc.born s a pid kstack mm s.initproc).state ≠ .ZOMBIE
    rw [(born_of_ne _ _ _ (hold _ h.family.init_mem)).2.2.1]
    exact h.init_alive

-- do_fork fails and changes nothing but memory that is free again, or it creates a
-- child of the running process with an unused pid.
theorem doFork_spec (h : Table s NULL) (hcur : s.current ∈ s.procList)
    (hrun : (s.procs s.current).state = .RUNNABLE) (hnull : a ≠ NULL) (ha : a ∉ s.live)
    (mem : ForkMem) :
    (∃ f err, doFork s a mem = .ok (err, { s with procs := f }) ∧ err < 0 ∧
      ∀ b, b ≠ a → f b = s.procs b) ∨
    ∃ pid next kstack mm, doFork s a mem = .ok (pid, withChild s a pid next kstack mm) ∧
      Table (withChild s a pid next kstack mm) NULL ∧ 1 ≤ pid ∧
      ∀ b ∈ s.procList, (s.procs b).pid ≠ pid := by
  have hw := h.awake s.current hcur (by rw [hrun]; decide)
  have hlive := h.live_of_mem hcur
  unfold doFork
  by_cases hmax : s.nrProcess ≥ MAX_PROCESS
  · exact Or.inl ⟨s.procs, _, if_pos hmax, by decide, fun _ _ => rfl⟩
  · rw [if_neg hmax]
    cases mem with
    | noProc => exact Or.inl ⟨s.procs, _, rfl, by decide, fun _ _ => rfl⟩
    | noMem =>
        refine Or.inl ⟨(forked s a).procs, -E_NO_MEM, ?_, by decide, fun b hb => by simp [forked, hb]⟩
        simp only [forkProc_eq hlive ha hw, ok_bind, pure_eq_ok, freeProc, forked,
          List.erase_cons_head]
    | ok kstack mm =>
        have hpids : ((unnamed s a kstack mm).procList.map
            fun b => ((unnamed s a kstack mm).procs b).pid) =
            s.procList.map fun b => (s.procs b).pid := by
          refine List.map_congr_left fun b hb => ?_
          have hne : b ≠ a := fun he => ha (he ▸ h.live_of_mem hb)
          rw [unnamed_of_ne hne]
        have hcount := h.count
        have hM : MAX_PROCESS = 4096 := rfl
        have hM' : MAX_PID = 8192 := rfl
        obtain ⟨pid, next, hget, h1, h2, h3, h4⟩ := getPid_spec (unnamed s a kstack mm)
          (fun b hb => List.mem_cons_of_mem _ (h.live_of_mem hb))
          (by rw [hpids]; exact h.pids_safe)
          (by change (s.procList.length : Int) < _; omega)
        rw [hpids] at h3 h4
        refine Or.inr ⟨pid, next, kstack, mm, ?_, h.born hcur hrun hnull ha ⟨h1, h2⟩ h3 h4, h1,
          fun b hb he => h3 (List.mem_map.mpr ⟨b, hb, he⟩)⟩
        simp only [forkProc_eq hlive ha hw, ok_bind, copyThread_eq,
          publish_eq hlive ha (h.first_live hcur) hget]

end Born

end Ucore.Proc
