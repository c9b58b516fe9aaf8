import Mathlib.Data.Int.Interval
import Ucore.Proc.Struct

namespace Ucore.Proc

-- What one pass of the `while` loop of get_pid ends with: the list is at its end,
-- or `goto repeat`.
inductive Scan
  | done (lastPid nextSafe : Int)
  | again (lastPid nextSafe : Int)

def scan : List Int → Int → Int → Scan
  | [], lastPid, nextSafe => .done lastPid nextSafe
  | pid :: rest, lastPid, nextSafe =>
      if pid = lastPid then
        if lastPid + 1 ≥ nextSafe then
          .again (if lastPid + 1 ≥ MAX_PID then 1 else lastPid + 1) MAX_PID
        else scan rest (lastPid + 1) nextSafe
      else if pid > lastPid ∧ nextSafe > pid then scan rest lastPid pid
      else scan rest lastPid nextSafe

def repeatScan (pids : List Int) : Nat → Int → Int → Except Halt (Int × Int)
  | 0, _, _ => .error .hang
  | fuel + 1, lastPid, nextSafe =>
      match scan pids lastPid nextSafe with
      | .done lastPid nextSafe => .ok (lastPid, nextSafe)
      | .again lastPid nextSafe => repeatScan pids fuel lastPid nextSafe

-- The pids met by a walk over proc_list.
def listPids (s : Procs) : List Addr → Except Halt (List Int)
  | [] => pure []
  | a :: rest => do
      let p ← s.deref a
      let pids ← listPids s rest
      pure (p.pid :: pids)

-- get_pid. The statics `last_pid` and `next_safe` are part of the state.
def getPid (s : Procs) : Except Halt (Int × Procs) := do
  let pids ← listPids s s.procList
  let lastPid := s.lastPid + 1
  let (lastPid, nextSafe) ←
    if lastPid ≥ MAX_PID then repeatScan pids MAX_PID.toNat 1 MAX_PID
    else if lastPid ≥ s.nextSafe then repeatScan pids MAX_PID.toNat lastPid MAX_PID
    else pure (lastPid, s.nextSafe)
  pure (lastPid, { s with lastPid := lastPid, nextSafe := nextSafe })

-- No pid in use lies between the last one handed out and `next_safe`.
structure PidsSafe (pids : List Int) (lastPid nextSafe : Int) : Prop where
  pos : 1 ≤ lastPid
  last_le : lastPid ≤ MAX_PID
  next_le : nextSafe ≤ MAX_PID
  gap : ∀ pid ∈ pids, ¬(lastPid < pid ∧ pid < nextSafe)

theorem listPids_eq (s : Procs) (l : List Addr) (h : ∀ a ∈ l, a ∈ s.live) :
    listPids s l = .ok (l.map fun a => (s.procs a).pid) := by
  induction l with
  | nil => rfl
  | cons a rest ih =>
      rw [listPids, Procs.deref_eq (h a List.mem_cons_self),
        ih fun b hb => h b (List.mem_cons_of_mem _ hb)]
      rfl

-- What a pass over `rest` has established when `seen` was already passed. Every
-- candidate it skips is the pid of some process.
theorem scan_spec (seen rest : List Int) (lastPid nextSafe : Int)
    (hlt : lastPid < nextSafe) (hmax : nextSafe ≤ MAX_PID)
    (hseen : ∀ pid ∈ seen, ¬(lastPid ≤ pid ∧ pid < nextSafe)) :
    (∃ last next, scan rest lastPid nextSafe = .done last next ∧
      lastPid ≤ last ∧ last < next ∧ next ≤ MAX_PID ∧
      ∀ pid ∈ seen ++ rest, ¬(last ≤ pid ∧ pid < next)) ∨
    (∃ stop, scan rest lastPid nextSafe =
        .again (if stop ≥ MAX_PID then 1 else stop) MAX_PID ∧
      lastPid < stop ∧ stop ≤ MAX_PID ∧ ∀ pid, lastPid ≤ pid → pid < stop → pid ∈ rest) := by
  induction rest generalizing seen lastPid nextSafe with
  | nil => exact Or.inl ⟨lastPid, nextSafe, rfl, le_refl _, hlt, hmax, by simpa using hseen⟩
  | cons pid rest ih =>
      simp only [scan]
      split
      · rename_i he
        subst he
        split
        · rename_i hge
          refine Or.inr ⟨pid + 1, rfl, by omega, by omega, ?_⟩
          intro p h1 h2
          have hp : p = pid := by omega
          exact hp ▸ List.mem_cons_self
        · rename_i hge
          have hnext : ∀ p ∈ seen ++ [pid], ¬(pid + 1 ≤ p ∧ p < nextSafe) := by
            intro p hp
            rcases List.mem_append.mp hp with hp | hp
            · have := hseen p hp
              omega
            · have : p = pid := by simpa using hp
              omega
          rcases ih (seen ++ [pid]) (pid + 1) nextSafe (by omega) hmax hnext with
            ⟨last, next, hr, h1, h2, h3, h4⟩ | ⟨stop, hr, h1, h2, h3⟩
          · exact Or.inl ⟨last, next, hr, by omega, h2, h3, by simpa using h4⟩
          · refine Or.inr ⟨stop, hr, by omega, h2, ?_⟩
            intro p hp1 hp2
            by_cases hp : p = pid
            · exact hp ▸ List.mem_cons_self
            · exact List.mem_cons_of_mem _ (h3 p (by omega) hp2)
      · rename_i hne
        split
        · rename_i hbetween
          have hnext : ∀ p ∈ seen ++ [pid], ¬(lastPid ≤ p ∧ p < pid) := by
            intro p hp
            rcases List.mem_append.mp hp with hp | hp
            · have := hseen p hp
              omega
            · have : p = pid := by simpa using hp
              omega
          rcases ih (seen ++ [pid]) lastPid pid (by omega) (by omega) hnext with
            ⟨last, next, hr, h1, h2, h3, h4⟩ | ⟨stop, hr, h1, h2, h3⟩
          · exact Or.inl ⟨last, next, hr, h1, h2, h3, by simpa using h4⟩
          · exact Or.inr ⟨stop, hr, h1, h2, fun p hp1 hp2 =>
              List.mem_cons_of_mem _ (h3 p hp1 hp2)⟩
        · rename_i hbetween
          have hnext : ∀ p ∈ seen ++ [pid], ¬(lastPid ≤ p ∧ p < nextSafe) := by
            intro p hp
            rcases List.mem_append.mp hp with hp | hp
            · exact hseen p hp
            · have : p = pid := by simpa using hp
              omega
          rcases ih (seen ++ [pid]) lastPid nextSafe hlt hmax hnext with
            ⟨last, next, hr, h1, h2, h3, h4⟩ | ⟨stop, hr, h1, h2, h3⟩
          · exact Or.inl ⟨last, next, hr, h1, h2, h3, by simpa using h4⟩
          · exact Or.inr ⟨stop, hr, h1, h2, fun p hp1 hp2 =>
              List.mem_cons_of_mem _ (h3 p hp1 hp2)⟩

-- The passes still needed at most: the way from the candidate up to a free pid,
-- around the end of the pid space when the free pid lies below.
def pidDistance (free lastPid : Int) : Int :=
  if lastPid ≤ free then free - lastPid else free - lastPid + (MAX_PID - 1)

-- A pass that restarts has skipped pids in use only, so it never jumps over the
-- free pid and comes strictly closer to it.
theorem repeatScan_spec (pids : List Int) (free : Int) (hpos : 1 ≤ free) (hfree : free < MAX_PID)
    (hnot : free ∉ pids) (fuel : Nat) (lastPid : Int) (h1 : 1 ≤ lastPid) (hlt : lastPid < MAX_PID)
    (hfuel : pidDistance free lastPid < fuel) :
    ∃ last next, repeatScan pids fuel lastPid MAX_PID = .ok (last, next) ∧
      1 ≤ last ∧ last < next ∧ next ≤ MAX_PID ∧ ∀ pid ∈ pids, ¬(last ≤ pid ∧ pid < next) := by
  induction fuel generalizing lastPid with
  | zero =>
      exfalso
      unfold pidDistance at hfuel
      split at hfuel <;> omega
  | succ fuel ih =>
      rw [repeatScan]
      rcases scan_spec [] pids lastPid MAX_PID hlt (le_refl _) (by simp) with
        ⟨last, next, hr, ha, hb, hc, hd⟩ | ⟨stop, hr, ha, hb, hc⟩
      · rw [hr]
        exact ⟨last, next, rfl, by omega, hb, hc, by simpa using hd⟩
      · rw [hr]
        have hout : ¬(lastPid ≤ free ∧ free < stop) := fun h => hnot (hc free h.1 h.2)
        have hM : MAX_PID = 8192 := rfl
        by_cases hwrap : stop ≥ MAX_PID
        · simp only [if_pos hwrap]
          apply ih 1 (le_refl _) (by omega)
          unfold pidDistance at hfuel ⊢
          split at hfuel <;> split <;> omega
        · simp only [if_neg hwrap]
          apply ih stop (by omega) (by omega)
          unfold pidDistance at hfuel ⊢
          split at hfuel <;> split <;> omega

-- Fewer pids in use than there are pids leave one free.
theorem exists_free_pid (pids : List Int) (hlen : (pids.length : Int) < MAX_PID - 1) :
    ∃ free, 1 ≤ free ∧ free < MAX_PID ∧ free ∉ pids := by
  by_contra hno
  push Not at hno
  have hsub : Finset.Ico 1 MAX_PID ⊆ pids.toFinset := by
    intro pid hp
    obtain ⟨h1, h2⟩ := Finset.mem_Ico.mp hp
    exact List.mem_toFinset.mpr (hno pid h1 h2)
  have hcard := Finset.card_le_card hsub
  have hle := List.toFinset_card_le pids
  have hM : MAX_PID = 8192 := rfl
  rw [Int.card_Ico] at hcard
  omega

-- get_pid returns a pid that no process of the list has, on the fast path as on
-- the slow one, and keeps the gap that the next fast path relies on.
theorem getPid_spec (s : Procs) (hlive : ∀ a ∈ s.procList, a ∈ s.live)
    (hsafe : PidsSafe (s.procList.map fun a => (s.procs a).pid) s.lastPid s.nextSafe)
    (hlen : (s.procList.length : Int) < MAX_PID - 1) :
    ∃ pid next, getPid s = .ok (pid, { s with lastPid := pid, nextSafe := next }) ∧
      1 ≤ pid ∧ pid < MAX_PID ∧ pid ∉ (s.procList.map fun a => (s.procs a).pid) ∧
      PidsSafe (pid :: s.procList.map fun a => (s.procs a).pid) pid next := by
  generalize hpids : (s.procList.map fun a => (s.procs a).pid) = pids at hsafe ⊢
  have hplen : (pids.length : Int) < MAX_PID - 1 := by simpa [← hpids] using hlen
  have hM : MAX_PID = 8192 := rfl
  obtain ⟨free, hf1, hf2, hf3⟩ := exists_free_pid pids hplen
  have hfinish : ∀ last next, 1 ≤ last → last < next → next ≤ MAX_PID →
      (∀ pid ∈ pids, ¬(last ≤ pid ∧ pid < next)) →
      1 ≤ last ∧ last < MAX_PID ∧ last ∉ pids ∧ PidsSafe (last :: pids) last next := by
    intro last next h1 h2 h3 h4
    refine ⟨h1, by omega, fun hm => h4 last hm ⟨le_refl _, h2⟩, h1, by omega, h3, ?_⟩
    intro pid hp
    rcases List.mem_cons.mp hp with rfl | hp
    · omega
    · have := h4 pid hp
      omega
  have hslow : ∀ start, 1 ≤ start → start < MAX_PID →
      ∃ last next, repeatScan pids MAX_PID.toNat start MAX_PID = .ok (last, next) ∧
        1 ≤ last ∧ last < MAX_PID ∧ last ∉ pids ∧ PidsSafe (last :: pids) last next := by
    intro start h1 h2
    have hdist : pidDistance free start < MAX_PID.toNat := by
      unfold pidDistance
      split <;> omega
    obtain ⟨last, next, hr, ha, hb, hc, hd⟩ :=
      repeatScan_spec pids free hf1 hf2 hf3 MAX_PID.toNat start h1 h2 hdist
    exact ⟨last, next, hr, hfinish last next ha hb hc hd⟩
  unfold getPid
  rw [listPids_eq s s.procList hlive, hpids]
  simp only [ok_bind]
  have hpos := hsafe.pos
  by_cases hwrap : s.lastPid + 1 ≥ MAX_PID
  · obtain ⟨last, next, hr, hrest⟩ := hslow 1 (le_refl _) (by omega)
    rw [if_pos hwrap, hr]
    exact ⟨last, next, rfl, hrest⟩
  · rw [if_neg hwrap]
    by_cases hnext : s.lastPid + 1 ≥ s.nextSafe
    · obtain ⟨last, next, hr, hrest⟩ := hslow (s.lastPid + 1) (by omega) (by omega)
      rw [if_pos hnext, hr]
      exact ⟨last, next, rfl, hrest⟩
    · rw [if_neg hnext]
      refine ⟨s.lastPid + 1, s.nextSafe, rfl,
        hfinish _ _ (by omega) (by omega) hsafe.next_le ?_⟩
      intro pid hp
      have := hsafe.gap pid hp
      omega

theorem PidsSafe.of_subset {pids pids' : List Int} {lastPid nextSafe : Int}
    (h : PidsSafe pids lastPid nextSafe) (hsub : ∀ pid ∈ pids', pid ∈ pids) :
    PidsSafe pids' lastPid nextSafe :=
  ⟨h.pos, h.last_le, h.next_le, fun pid hp => h.gap pid (hsub pid hp)⟩

end Ucore.Proc
