import Ucore.Lib.Turns
import Ucore.Proc.Theorems

namespace Ucore.Proc

open Ucore.Lib

variable {s s' t : Procs} {a p q x : Addr} {act : Act} {r : Result}

-- What the scan of schedule goes by, the states of the processes apart.
def Procs.queue (s : Procs) : List Addr × Addr × Addr := (s.procList, s.current, s.idleproc)

theorem store_queue {f : ProcStruct → ProcStruct} (h : s.store a f = .ok s') :
    s'.queue = s.queue := by
  unfold Procs.store at h
  split at h
  · cases h
    rfl
  · cases h

theorem wakeupProc_queue (h : wakeupProc s a = .ok s') : s'.queue = s.queue := by
  unfold wakeupProc at h
  obtain ⟨p, _, h⟩ := bind_eq_ok.mp h
  obtain ⟨_, _, h⟩ := bind_eq_ok.mp h
  split at h
  · exact store_queue h
  · cases h
    rfl

theorem die_queue {code : Int} (h : die s code = .ok s') : s'.queue = s.queue := by
  unfold die at h
  obtain ⟨s₁, h₁, h⟩ := bind_eq_ok.mp h
  obtain ⟨s₂, h₂, h⟩ := bind_eq_ok.mp h
  obtain ⟨p, _, h⟩ := bind_eq_ok.mp h
  obtain ⟨q, _, h⟩ := bind_eq_ok.mp h
  have hq : s₂.queue = s.queue := (store_queue h₂).trans (store_queue h₁)
  split at h
  · exact (wakeupProc_queue h).trans hq
  · cases h
    exact hq

theorem relink_queue (h : relink s a = .ok s') : s'.queue = s.queue := by
  unfold relink at h
  obtain ⟨p, _, h⟩ := bind_eq_ok.mp h
  obtain ⟨s₁, h₁, h⟩ := bind_eq_ok.mp h
  obtain ⟨s₂, h₂, h⟩ := bind_eq_ok.mp h
  obtain ⟨q, _, h⟩ := bind_eq_ok.mp h
  obtain ⟨s₃, h₃, h⟩ := bind_eq_ok.mp h
  have hq : s₃.queue = s.queue :=
    (store_queue h₃).trans ((store_queue h₂).trans (store_queue h₁))
  dsimp only at h
  split at h
  · obtain ⟨s₄, h₄, h⟩ := bind_eq_ok.mp h
    obtain ⟨s₅, h₅, h⟩ := bind_eq_ok.mp h
    exact (store_queue h).trans ((store_queue h₅).trans ((store_queue h₄).trans hq))
  · obtain ⟨s₄, h₄, h⟩ := bind_eq_ok.mp h
    cases h₄
    obtain ⟨s₅, h₅, h⟩ := bind_eq_ok.mp h
    exact (store_queue h).trans ((store_queue h₅).trans hq)

theorem adopt_queue (h : adopt s a = .ok s') : s'.queue = s.queue := by
  unfold adopt at h
  obtain ⟨s₁, h₁, h⟩ := bind_eq_ok.mp h
  obtain ⟨p, _, h⟩ := bind_eq_ok.mp h
  have hq := relink_queue h₁
  split at h
  · obtain ⟨q, _, h⟩ := bind_eq_ok.mp h
    split at h
    · exact (wakeupProc_queue h).trans hq
    · cases h
      exact hq
  · cases h
    exact hq

theorem reparent_queue {fuel : Nat} (h : reparent fuel s = .ok s') : s'.queue = s.queue := by
  induction fuel generalizing s with
  | zero => cases h
  | succ fuel ih =>
      unfold reparent at h
      obtain ⟨p, _, h⟩ := bind_eq_ok.mp h
      dsimp only at h
      split at h
      · cases h
        rfl
      · obtain ⟨s₁, h₁, h⟩ := bind_eq_ok.mp h
        exact (ih h).trans (adopt_queue h₁)

-- Whom schedule called in `s` has chosen in `s'`: the first runnable process of its
-- scan, and idleproc when there is none.
structure Chosen (s s' : Procs) : Prop where
  procList : s'.procList = s.procList
  idleproc : s'.idleproc = s.idleproc
  first : ∃ order, scanOrder s = .ok order ∧
    (s'.current = s.idleproc ∧ (∀ a ∈ order, (s'.procs a).state ≠ .RUNNABLE) ∨
      ∃ m n, order = m ++ s'.current :: n ∧ (s'.procs s'.current).state = .RUNNABLE ∧
        ∀ a ∈ m, (s'.procs a).state ≠ .RUNNABLE)

theorem pickNext_first {order : List Addr} {next : Addr} (h : pickNext s order = .ok next) :
    (next = s.idleproc ∧ ∀ a ∈ order, (s.procs a).state ≠ .RUNNABLE) ∨
      ∃ m n, order = m ++ next :: n ∧ (s.procs next).state = .RUNNABLE ∧
        ∀ a ∈ m, (s.procs a).state ≠ .RUNNABLE := by
  induction order with
  | nil =>
      cases h
      exact Or.inl ⟨rfl, fun a ha => absurd ha List.not_mem_nil⟩
  | cons b rest ih =>
      unfold pickNext at h
      obtain ⟨p, hp, h⟩ := bind_eq_ok.mp h
      obtain rfl : s.procs b = p := by
        unfold Procs.deref at hp
        split at hp <;> cases hp
        rfl
      split at h
      · rename_i hrun
        cases h
        exact Or.inr ⟨[], rest, rfl, hrun, fun a ha => absurd ha List.not_mem_nil⟩
      · rename_i hrun
        rcases ih h with ⟨hn, hall⟩ | ⟨m, n, rfl, hnext, hall⟩
        · refine Or.inl ⟨hn, fun a ha => ?_⟩
          rcases List.mem_cons.mp ha with rfl | ha
          · exact hrun
          · exact hall a ha
        · refine Or.inr ⟨b :: m, n, rfl, hnext, fun a ha => ?_⟩
          rcases List.mem_cons.mp ha with rfl | ha
          · exact hrun
          · exact hall a ha

theorem scanOrder_congr (h : t.queue = s.queue) : scanOrder t = scanOrder s := by
  obtain ⟨hl, hc⟩ := Prod.mk.inj h
  obtain ⟨hc, hi⟩ := Prod.mk.inj hc
  unfold scanOrder
  rw [hl, hc, hi]

theorem Chosen.of_queue (h : Chosen t s') (hq : t.queue = s.queue) : Chosen s s' := by
  obtain ⟨hl, hc⟩ := Prod.mk.inj hq
  obtain ⟨hc, hi⟩ := Prod.mk.inj hc
  obtain ⟨order, horder, hfirst⟩ := h.first
  refine ⟨h.procList.trans hl, h.idleproc.trans hi, order, ?_, ?_⟩
  · rw [← scanOrder_congr hq, horder]
  · rwa [hi] at hfirst

theorem store_state {f : ProcStruct → ProcStruct} (h : s.store a f = .ok s')
    (hf : ∀ p, (f p).state = p.state) (b : Addr) : (s'.procs b).state = (s.procs b).state := by
  unfold Procs.store at h
  split at h
  · cases h
    rw [Procs.modify_apply]
    split
    · exact hf _
    · rfl
  · cases h

theorem schedule_chosen (h : schedule s = .ok s') : Chosen s s' := by
  unfold schedule at h
  obtain ⟨s₁, h₁, h⟩ := bind_eq_ok.mp h
  obtain ⟨order, horder, h⟩ := bind_eq_ok.mp h
  obtain ⟨next, hnext, h⟩ := bind_eq_ok.mp h
  obtain ⟨s₂, h₂, h⟩ := bind_eq_ok.mp h
  cases h
  have hq₁ := store_queue h₁
  have hq₂ := store_queue h₂
  have hstate := store_state h₂ fun _ => rfl
  refine Chosen.of_queue (t := s₁) ⟨congrArg Prod.fst hq₂, congrArg (fun c => c.2.2) hq₂,
    order, horder, ?_⟩ hq₁
  rcases pickNext_first hnext with ⟨hn, hall⟩ | ⟨m, n, ho, hrun, hall⟩
  · refine Or.inl ⟨hn, fun a ha => ?_⟩
    show (s₂.procs a).state ≠ .RUNNABLE
    rw [hstate a]
    exact hall a ha
  · refine Or.inr ⟨m, n, ho, (hstate next).trans hrun, fun a ha => ?_⟩
    show (s₂.procs a).state ≠ .RUNNABLE
    rw [hstate a]
    exact hall a ha

theorem doExit_chosen {code : Int} (h : doExit s code = .ok s') : Chosen s s' := by
  unfold doExit at h
  dsimp only at h
  split at h
  · obtain ⟨_, hidle, _⟩ := bind_eq_ok.mp h
    cases hidle
  · split at h
    · obtain ⟨_, hinit, _⟩ := bind_eq_ok.mp h
      cases hinit
    · obtain ⟨s₁, h₁, h⟩ := bind_eq_ok.mp h
      obtain ⟨s₂, h₂, h⟩ := bind_eq_ok.mp h
      exact (schedule_chosen h).of_queue ((reparent_queue h₂).trans (die_queue h₁))

theorem waitLoop_chosen {pid : Int} {codeStore : Addr}
    (h : waitLoop s pid codeStore = .ok (r, s')) (hr : r = .blocked ∨ r = .exited) :
    Chosen s s' := by
  unfold waitLoop at h
  obtain ⟨w, _, h⟩ := bind_eq_ok.mp h
  cases w with
  | badProc =>
      cases h
      simp at hr
  | asleep =>
      obtain ⟨s₁, h₁, h⟩ := bind_eq_ok.mp h
      obtain ⟨s₂, h₂, h⟩ := bind_eq_ok.mp h
      cases h
      exact (schedule_chosen h₂).of_queue (store_queue h₁)
  | found b =>
      dsimp only at h
      split at h
      · obtain ⟨_, hinit, _⟩ := bind_eq_ok.mp h
        cases hinit
      · obtain ⟨p, _, h⟩ := bind_eq_ok.mp h
        obtain ⟨s₁, _, h⟩ := bind_eq_ok.mp h
        cases h
        simp at hr

-- Whether a step of the running process comes to a call of schedule.
def Schedules (act : Act) (r : Result) : Prop := act = .schedule ∨ r = .blocked ∨ r = .exited

instance : Decidable (Schedules act r) := inferInstanceAs (Decidable (_ ∨ _ ∨ _))

-- Whom a step selects by it.
def selected (act : Act) (r : Result) (s' : Procs) : Option Addr :=
  if Schedules act r then some s'.current else none

theorem step_chosen (h : step s act = .ok (r, s')) (hsel : Schedules act r) : Chosen s s' := by
  cases act with
  | fork b mem =>
      obtain ⟨v, _, h⟩ := bind_eq_ok.mp h
      cases h
      simp [Schedules] at hsel
  | exit code =>
      obtain ⟨s₁, h₁, h⟩ := bind_eq_ok.mp h
      cases h
      exact doExit_chosen h₁
  | exec mm =>
      obtain ⟨s₁, _, h⟩ := bind_eq_ok.mp h
      cases h
      simp [Schedules] at hsel
  | wait pid codeStore valid =>
      rw [step, doWait] at h
      split at h
      · cases h
        simp [Schedules] at hsel
      · exact waitLoop_chosen h (hsel.resolve_left Act.noConfusion)
  | resume =>
      have hr := hsel.resolve_left Act.noConfusion
      rw [step] at h
      split at h
      · unfold resumeWait at h
        obtain ⟨s₁, h₁, h⟩ := bind_eq_ok.mp h
        obtain ⟨p, _, h⟩ := bind_eq_ok.mp h
        split at h
        · obtain ⟨s₂, h₂, h⟩ := bind_eq_ok.mp h
          cases h
          exact (doExit_chosen h₂).of_queue (store_queue h₁)
        · exact (waitLoop_chosen h hr).of_queue (store_queue h₁)
      · cases h
  | yield =>
      obtain ⟨s₁, _, h⟩ := bind_eq_ok.mp h
      cases h
      simp [Schedules] at hsel
  | kill pid =>
      obtain ⟨v, _, h⟩ := bind_eq_ok.mp h
      cases h
      simp [Schedules] at hsel
  | getpid =>
      obtain ⟨p, _, h⟩ := bind_eq_ok.mp h
      cases h
      simp [Schedules] at hsel
  | schedule =>
      obtain ⟨s₁, h₁, h⟩ := bind_eq_ok.mp h
      cases h
      exact schedule_chosen h₁

theorem doKill_queue {pid v : Int} (h : doKill s pid = .ok (v, s')) : s'.queue = s.queue := by
  unfold doKill at h
  obtain ⟨b, _, h⟩ := bind_eq_ok.mp h
  split at h
  · cases h
    rfl
  · obtain ⟨p, _, h⟩ := bind_eq_ok.mp h
    split at h
    · cases h
      rfl
    · obtain ⟨s₁, h₁, h⟩ := bind_eq_ok.mp h
      obtain ⟨q, _, h⟩ := bind_eq_ok.mp h
      dsimp only at h
      split at h
      · obtain ⟨s₂, h₂, h⟩ := bind_eq_ok.mp h
        cases h
        exact (wakeupProc_queue h₂).trans (store_queue h₁)
      · obtain ⟨s₂, h₂, h⟩ := bind_eq_ok.mp h
        cases h₂
        cases h
        exact store_queue h₁

-- The changes of the list of processes: a newcomer at its head, and a reaped process
-- less.
inductive Moved (s : Procs) : Result → Procs → Prop
  | same {r : Result} {s' : Procs} : s'.queue = s.queue → Moved s r s'
  | born {r : Result} {s' : Procs} {a : Addr} : a ∉ s.procList →
      s'.queue = (a :: s.procList, s.current, s.idleproc) → Moved s r s'
  | reaped {s' : Procs} {x : Addr} {stored : Option (Addr × Int)} : x ≠ s.current →
      s'.queue = (s.procList.erase x, s.current, s.idleproc) → Moved s (.reaped x stored) s'

theorem waitLoop_moved (h : Running s) {pid : Int} {codeStore : Addr}
    (hw : waitLoop s pid codeStore = .ok (r, s')) (hr : r ≠ .blocked) : Moved s r s' := by
  rcases waitLoop_spec h pid codeStore with ⟨_, hw'⟩ | ⟨y, hy, hz, hw', _⟩ | ⟨_, _, t, hw', _⟩
  · rw [hw] at hw'
    cases hw'
    exact .same rfl
  · rw [hw] at hw'
    cases hw'
    refine .reaped ?_ rfl
    rintro rfl
    rw [h.state] at hz
    cases hz
  · rw [hw] at hw'
    cases hw'
    exact absurd rfl hr

theorem step_moved (h : Running s) (he : Enabled s act) (hs : step s act = .ok (r, s'))
    (hsel : ¬Schedules act r) : Moved s r s' := by
  have hr : r ≠ .blocked := fun hr => hsel (Or.inr (Or.inl hr))
  cases act with
  | fork b mem =>
      rcases he with ⟨_, _, hb⟩ | ⟨_, hact⟩ | ⟨_, _, hact⟩
      · rw [step] at hs
        rcases doFork_spec h.table h.mem h.state hb.1 hb.2 mem with
          ⟨f, err, hf, _⟩ | ⟨pid, next, kstack, mm, hf, _⟩
        · rw [hf] at hs
          cases hs
          exact .same rfl
        · rw [hf] at hs
          cases hs
          exact .born (fun hm => hb.2 (h.table.live_of_mem hm)) rfl
      · cases hact
      · cases hact
  | exit code =>
      obtain ⟨s₁, _, hs⟩ := bind_eq_ok.mp hs
      cases hs
      simp [Schedules] at hsel
  | exec mm =>
      obtain ⟨s₁, h₁, hs⟩ := bind_eq_ok.mp hs
      cases hs
      exact .same (store_queue h₁)
  | wait pid codeStore valid =>
      rw [step, doWait] at hs
      split at hs
      · cases hs
        exact .same rfl
      · exact waitLoop_moved h hs hr
  | resume =>
      rw [step] at hs
      split at hs
      · rw [resumeWait_eq h] at hs
        split at hs
        · obtain ⟨s₁, _, hs⟩ := bind_eq_ok.mp hs
          cases hs
          simp [Schedules] at hsel
        · cases waitLoop_moved h.resume hs hr with
          | same hq => exact .same hq
          | born hm hq => exact .born hm hq
          | reaped hx hq => exact .reaped hx hq
      · cases hs
  | yield =>
      obtain ⟨s₁, h₁, hs⟩ := bind_eq_ok.mp hs
      cases hs
      exact .same (store_queue h₁)
  | kill pid =>
      obtain ⟨⟨v, s₁⟩, h₁, hs⟩ := bind_eq_ok.mp hs
      cases hs
      exact .same (doKill_queue h₁)
  | getpid =>
      obtain ⟨p, _, hs⟩ := bind_eq_ok.mp hs
      cases hs
      exact .same rfl
  | schedule => exact absurd (Or.inl rfl) hsel

-- A step of a run, with what it selects and the state it leads to.
structure Turn where
  act : Act
  result : Result
  state : Procs

def Turn.selected (turn : Turn) : Option Addr := Proc.selected turn.act turn.result turn.state

inductive Turns : Procs → List Turn → Prop
  | nil (s : Procs) : Turns s []
  | cons {s s' : Procs} {act : Act} {r : Result} {turns : List Turn} : Enabled s act →
      step s act = .ok (r, s') → Turns s' turns → Turns s (⟨act, r, s'⟩ :: turns)

-- `p` has its turn before `q` comes round again, and both can be waited for.
structure Ahead (s : Procs) (p q : Addr) : Prop where
  running : Running s
  before : Before s.procList s.current p q

theorem Ahead.of_selected (h : Running s) (hp : p ∈ s.procList) (hne : p ≠ s.current) :
    Ahead s p s.current :=
  ⟨h, .of_self h.table.family.nodup h.mem hp hne⟩

-- As long as `p` is runnable a step selects `p`, or it keeps `p` ahead of `q`.
theorem Ahead.step (h : Ahead s p q) (he : Enabled s act) (hs : step s act = .ok (r, s'))
    (hp : (s'.procs p).state = .RUNNABLE) (hq : ∀ stored, r ≠ .reaped q stored)
    (hpr : p ∈ s'.procList) :
    selected act r s' = some p ∨ selected act r s' ≠ some q ∧ Ahead s' p q := by
  have hafter := (Inv.of_running h.running).after he hs
  have hnodup := h.running.table.family.nodup
  have hidle : s.current ≠ s.idleproc := fun hc =>
    h.running.table.family.idle_notMem (hc ▸ h.running.mem)
  unfold selected
  by_cases hsel : Schedules act r
  · rw [if_pos hsel]
    have hc := step_chosen hs hsel
    obtain ⟨order, horder, hfirst⟩ := hc.first
    obtain rfl : turn s.procList s.current = order := by
      rw [scanOrder, if_neg hidle, if_pos h.running.mem] at horder
      exact Except.ok.inj horder
    have hmem : p ∈ turn s.procList s.current := mem_turn.mpr (hc.procList ▸ hpr)
    rcases hfirst with ⟨_, hall⟩ | ⟨m, n, hsplit, _, hall⟩
    · exact absurd hp (hall p hmem)
    · by_cases hx : s'.current = p
      · exact Or.inl (congrArg some hx)
      · have hpm : p ∉ m := fun hm => hall p hm hp
        obtain ⟨hqx, hb⟩ := h.before.skip hnodup h.running.mem hsplit hpm hx
        refine Or.inr ⟨fun hc' => hqx (Option.some.inj hc').symm, hafter.running, ?_⟩
        rw [hc.procList]
        exact hb
  · rw [if_neg hsel]
    refine Or.inr ⟨nofun, hafter.running, ?_⟩
    cases step_moved h.running he hs hsel with
    | same hqueue =>
        obtain ⟨hl, hc⟩ := Prod.mk.inj hqueue
        rw [hl, (Prod.mk.inj hc).1]
        exact h.before
    | born ha hqueue =>
        obtain ⟨hl, hc⟩ := Prod.mk.inj hqueue
        rw [hl, (Prod.mk.inj hc).1]
        exact h.before.cons h.running.mem fun he => ha (he ▸ h.running.mem)
    | @reaped _ x stored hx hqueue =>
        obtain ⟨hl, hc⟩ := Prod.mk.inj hqueue
        rw [hl] at hpr
        rw [hl, (Prod.mk.inj hc).1]
        refine h.before.erase hnodup h.running.mem hx ?_ fun he => hq stored (by rw [he])
        rintro rfl
        exact (List.Nodup.not_mem_erase hnodup) hpr

-- Before the last of these steps selects `q`, one of the others has selected `p`.
theorem Ahead.turns (h : Ahead s p q) {turns : List Turn} {last : Turn}
    (hrun : Turns s (turns ++ [last])) (hpq : p ≠ q)
    (hp : ∀ turn ∈ turns ++ [last], p ∈ turn.state.procList ∧
      (turn.state.procs p).state = .RUNNABLE)
    (hq : ∀ turn ∈ turns ++ [last], ∀ stored, turn.result ≠ .reaped q stored)
    (hlast : last.selected = some q) : ∃ turn ∈ turns, turn.selected = some p := by
  induction turns generalizing s with
  | nil =>
      cases hrun with
      | cons he hs _ =>
          have hmem := hp _ List.mem_cons_self
          rcases h.step he hs hmem.2 (hq _ List.mem_cons_self) hmem.1 with hsel | ⟨hsel, _⟩
          · exact absurd (Option.some.inj (hsel.symm.trans hlast)) hpq
          · exact absurd hlast hsel
  | cons turn turns ih =>
      cases hrun with
      | cons he hs hrest =>
          have hmem := hp _ List.mem_cons_self
          rcases h.step he hs hmem.2 (hq _ List.mem_cons_self) hmem.1 with hsel | ⟨_, h'⟩
          · exact ⟨_, List.mem_cons_self, hsel⟩
          · obtain ⟨t, ht, htp⟩ := ih h' hrest (fun t ht => hp t (List.mem_cons_of_mem _ ht))
              (fun t ht => hq t (List.mem_cons_of_mem _ ht))
            exact ⟨t, List.mem_cons_of_mem _ ht, htp⟩

-- Between two selections of `q` every process that stays runnable is selected, and
-- idleproc is selected only if no process is runnable.
theorem round_robin (h : Reachable s) :
    (∀ first turns last p q, Turns s (first :: (turns ++ [last])) → p ≠ q →
      first.selected = some q → last.selected = some q →
      (∀ turn ∈ first :: (turns ++ [last]), p ∈ turn.state.procList ∧
        (turn.state.procs p).state = .RUNNABLE) →
      (∀ turn ∈ turns ++ [last], ∀ stored, turn.result ≠ .reaped q stored) →
      ∃ turn ∈ turns, turn.selected = some p) ∧
    ∀ act r s', Enabled s act → step s act = .ok (r, s') →
      selected act r s' = some s'.idleproc → ∀ a ∈ s'.procList, (s'.procs a).state ≠ .RUNNABLE := by
  constructor
  · intro first turns last p q hrun hpq hfirst hlast hp hq
    cases hrun with
    | cons he hs hrest =>
        have hafter := (h.inv.after he hs).running
        have hc : _ = q := Option.some.inj ((if_pos ?_).symm.trans hfirst)
        · subst hc
          have hmem := hp _ List.mem_cons_self
          exact (Ahead.of_selected hafter hmem.1 hpq).turns hrest hpq
            (fun turn ht => hp turn (List.mem_cons_of_mem _ ht)) hq hlast
        · by_contra hno
          rw [Turn.selected, selected, if_neg hno] at hfirst
          cases hfirst
  · intro act r s' he hs hsel a ha
    have hafter := (h.inv.after he hs).running
    have hc : s'.current = s'.idleproc := by
      unfold selected at hsel
      split at hsel
      · exact Option.some.inj hsel
      · cases hsel
    exact absurd (hc ▸ hafter.mem) hafter.table.family.idle_notMem

-- These steps and the states they lead to, if all of them are enabled and return.
def play : Procs → List Act → Option (List Turn)
  | _, [] => some []
  | s, act :: acts =>
      if Enabled s act then
        match step s act with
        | .ok (r, s') => (play s' acts).map (⟨act, r, s'⟩ :: ·)
        | .error _ => none
      else none

theorem Turns.play {acts : List Act} {turns : List Turn} (h : Proc.play s acts = some turns) :
    Turns s turns := by
  induction acts generalizing s turns with
  | nil =>
      cases h
      exact .nil s
  | cons act acts ih =>
      rw [Proc.play] at h
      split at h
      · rename_i he
        cases hs : step s act with
        | error e =>
            rw [hs] at h
            cases h
        | ok p =>
            rw [hs] at h
            obtain ⟨rest, hrest, rfl⟩ := Option.map_eq_some_iff.mp h
            exact .cons he hs (ih hrest)
      · cases h

-- initproc and its child run in turn.
def turnRun : List Act := [.schedule, .fork 3 (.ok 0 NULL), .schedule]

theorem turnRun_isSome : (runSteps (booted 1 2 0) turnRun).isSome = true := by decide +kernel

def turnState : Procs := (runSteps (booted 1 2 0) turnRun).get turnRun_isSome

def turnTurns : List Turn := (play turnState [.schedule, .schedule, .schedule]).getD []

theorem turnTurns_play : Turns turnState turnTurns := by
  have hplay : (play turnState [.schedule, .schedule, .schedule]).isSome = true := by
    decide +kernel
  obtain ⟨turns, hturns⟩ := Option.isSome_iff_exists.mp hplay
  rw [turnTurns, hturns]
  exact .play hturns

theorem round_robin_two : ∃ first second last, Turns turnState [first, second, last] ∧
    first.selected = some 2 ∧ last.selected = some 2 ∧ second.selected = some 3 := by
  have hsel : turnTurns.map Turn.selected = [some 2, some 3, some 2] := by decide +kernel
  have hp : ∀ turn ∈ turnTurns, 3 ∈ turn.state.procList ∧
      (turn.state.procs 3).state = .RUNNABLE := by decide +kernel
  have hr : ∀ turn ∈ turnTurns, turn.result = .ret 0 := by decide +kernel
  have hturns := turnTurns_play
  obtain ⟨first, second, last, he⟩ :=
    List.length_eq_three.mp (show turnTurns.length = 3 by decide +kernel)
  rw [he] at hsel hp hr hturns
  obtain ⟨h₁, hsel⟩ := List.cons.inj hsel
  obtain ⟨_, hsel⟩ := List.cons.inj hsel
  have h₃ : last.selected = some 2 := (List.cons.inj hsel).1
  obtain ⟨turn, ht, hturn⟩ := (round_robin (.of_isSome turnRun_isSome)).1 first [second] last 3 2
    hturns (by decide) h₁ h₃ hp fun turn ht stored hs => by
      rw [hr turn (List.mem_cons_of_mem _ ht)] at hs
      cases hs
  rw [List.mem_singleton] at ht
  exact ⟨first, second, last, hturns, h₁, h₃, ht ▸ hturn⟩

end Ucore.Proc
