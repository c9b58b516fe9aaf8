import Ucore.Proc.Life

namespace Ucore.Proc

open Ucore.Lib

variable {s s' : Procs} {dying a b x : Addr}

def ProcStruct.woken (p : ProcStruct) : ProcStruct := { p with state := .RUNNABLE, waitState := 0 }

-- wakeup_proc finds its assertion satisfied for every process that is asleep.
theorem wakeupProc_eq (ha : a ∈ s.live) (hs : (s.procs a).state = .SLEEPING) :
    wakeupProc s a = .ok (s.modify a ProcStruct.woken) := by
  simp [wakeupProc, Procs.deref_eq ha, Procs.store_eq _ ha, hs]
  rfl

theorem Table.wake (h : Table s dying) (ha : a ∈ s.procList)
    (hs : (s.procs a).state = .SLEEPING) : Table (s.modify a ProcStruct.woken) dying := by
  have hidle : s.idleproc ≠ a := fun he => h.family.idle_notMem (he ▸ ha)
  have hother : ∀ b, b ≠ a → (s.modify a ProcStruct.woken).procs b = s.procs b :=
    fun b hb => Procs.modify_of_ne hb
  have hlink : ∀ b, (((s.modify a ProcStruct.woken).procs b).pid = (s.procs b).pid) ∧
      ((s.modify a ProcStruct.woken).procs b).parent = (s.procs b).parent ∧
      ((s.modify a ProcStruct.woken).procs b).cptr = (s.procs b).cptr ∧
      ((s.modify a ProcStruct.woken).procs b).yptr = (s.procs b).yptr ∧
      ((s.modify a ProcStruct.woken).procs b).optr = (s.procs b).optr := by
    intro b
    by_cases hb : b = a
    · subst hb
      simp [ProcStruct.woken]
    · simp [hother b hb]
  have hstate : ((s.modify a ProcStruct.woken).procs a).state = .RUNNABLE := by
    simp [ProcStruct.woken]
  refine h.rebuild (c := s.current) ?_ (fun b _ => (hlink b).1) ?_ ?_ ?_ ?_ ?_
    (by rw [← hother _ hidle]; rfl) (by rw [← hother _ hidle]; rfl) (by rw [← hother _ hidle]; rfl)
  · exact h.family.congr (fun b _ => (hlink b).2.1) (fun b _ => (hlink b).2.2.1)
      (fun b _ => (hlink b).2.2.2.1) (fun b _ => (hlink b).2.2.2.2)
  · intro b hbm
    change ((s.modify a ProcStruct.woken).procs b).state ≠ _
    by_cases hb : b = a
    · rw [hb, hstate]
      decide
    · rw [hother b hb]
      exact h.known b hbm
  · intro b hbm hbs
    change ((s.modify a ProcStruct.woken).procs b).state = _ at hbs
    have hb : b ≠ a := by
      rintro rfl
      rw [hstate] at hbs
      cases hbs
    rw [hother b hb] at hbs
    refine (h.asleep b hbm hbs).keep (congrArg _ (hother b hb)) (congrArg _ (hother b hb))
      (fun c hc hp => ⟨hc, (hlink c).2.1.trans hp, (hlink c).1⟩) (fun c hc hp hz => ?_)
    refine ⟨hc, (hlink c).2.1.symm.trans hp, (hlink c).1.symm, ?_⟩
    change ((s.modify a ProcStruct.woken).procs c).state = _ at hz
    by_cases hca : c = a
    · rw [hca, hstate] at hz
      cases hz
    · rwa [hother c hca] at hz
  · intro b hbm hbs
    change ((s.modify a ProcStruct.woken).procs b).state ≠ _ at hbs
    change ((s.modify a ProcStruct.woken).procs b).waitState = _
    by_cases hb : b = a
    · subst hb
      simp [ProcStruct.woken]
    · rw [hother b hb] at hbs ⊢
      exact h.awake b hbm hbs
  · intro b hbm hz hne
    change ((s.modify a ProcStruct.woken).procs b).state = _ at hz
    refine (hlink b).2.2.1.trans (h.leaf b hbm ?_ hne)
    by_cases hb : b = a
    · rw [hb, hstate] at hz
      cases hz
    · rwa [hother b hb] at hz
  · change ((s.modify a ProcStruct.woken).procs s.initproc).state ≠ _
    by_cases hi : s.initproc = a
    · rw [hi, hstate]
      decide
    · rw [hother _ hi]
      exact h.init_alive

theorem scanOrder_spec (hcur : s.current = s.idleproc ∨ s.current ∈ s.procList) :
    ∃ order, scanOrder s = .ok order ∧ ∀ a, a ∈ order ↔ a ∈ s.procList := by
  unfold scanOrder
  by_cases hi : s.current = s.idleproc
  · exact ⟨s.procList, if_pos hi, fun _ => Iff.rfl⟩
  · have hm := hcur.resolve_left hi
    refine ⟨_, by rw [if_neg hi, if_pos hm], fun a => ?_⟩
    rw [List.mem_append, or_comm, ← List.mem_append, List.take_append_drop]

theorem pickNext_spec (order : List Addr) (hlive : ∀ a ∈ order, a ∈ s.live)
    (hrun : ∃ a ∈ order, (s.procs a).state = .RUNNABLE) :
    ∃ next ∈ order, pickNext s order = .ok next ∧ (s.procs next).state = .RUNNABLE := by
  induction order with
  | nil => simp at hrun
  | cons a rest ih =>
      rw [pickNext, Procs.deref_eq (hlive a List.mem_cons_self), ok_bind]
      by_cases hs : (s.procs a).state = .RUNNABLE
      · exact ⟨a, List.mem_cons_self, if_pos hs, hs⟩
      · rw [if_neg hs]
        obtain ⟨b, hb, hbs⟩ := hrun
        have hba : b ≠ a := fun he => hs (he ▸ hbs)
        obtain ⟨next, hm, hn⟩ := ih (fun c hc => hlive c (List.mem_cons_of_mem _ hc))
          ⟨b, (List.mem_cons.mp hb).resolve_left hba, hbs⟩
        exact ⟨next, List.mem_cons_of_mem _ hm, hn⟩

-- The fields that schedule writes.
def SameBut (f g : Addr → ProcStruct) : Prop :=
  ∀ a, f a = { g a with runs := (f a).runs, needResched := (f a).needResched }

-- Whoever calls schedule, a runnable process of the list is next: idleproc is
-- never chosen.
theorem schedule_spec (h : Table s NULL)
    (hcur : s.current = s.idleproc ∨ s.current ∈ s.procList) :
    ∃ f next, schedule s = .ok { s with procs := f, current := next } ∧ SameBut f s.procs ∧
      next ∈ s.procList ∧ (s.procs next).state = .RUNNABLE := by
  have hlive : s.current ∈ s.live := (h.live_iff _).mpr hcur
  let s₁ := s.modify s.current fun p => { p with needResched := false }
  have hsame : ∀ a, s₁.procs a = { s.procs a with needResched := (s₁.procs a).needResched } := by
    intro a
    by_cases ha : a = s.current
    · subst ha
      simp [s₁]
    · simp [s₁, ha]
  have hstate : ∀ a, (s₁.procs a).state = (s.procs a).state := fun a => by rw [hsame a]
  obtain ⟨order, horder, hmem⟩ := scanOrder_spec (s := s₁) hcur
  obtain ⟨a, ha, hrun⟩ := h.exists_runnable
  obtain ⟨next, hnext, hpick, hs⟩ := pickNext_spec (s := s₁) order
    (fun b hb => h.live_of_mem ((hmem b).mp hb)) ⟨a, (hmem a).mpr ha, (hstate a).trans hrun⟩
  have hnlist : next ∈ s.procList := (hmem next).mp hnext
  refine ⟨(s₁.modify next fun p => { p with runs := p.runs + 1 }).procs, next, ?_, ?_, hnlist,
    (hstate next).symm.trans hs⟩
  · unfold schedule
    rw [Procs.store_eq _ hlive, ok_bind, horder, ok_bind, hpick, ok_bind,
      Procs.store_eq (s := s₁) _ (h.live_of_mem hnlist)]
    rfl
  · intro b
    by_cases hb : b = next
    · subst hb
      rw [Procs.modify_self, hsame b]
    · rw [Procs.modify_of_ne hb, hsame b]

theorem SameBut.core {f g : Addr → ProcStruct} (h : SameBut f g) (a : Addr) :
    (f a).core = (g a).core := by
  rw [h a]
  rfl

theorem SameBut.life {f g : Addr → ProcStruct} (h : SameBut f g) (a : Addr) :
    (f a).life = (g a).life := by
  rw [h a]
  rfl

-- The same processes are there, and each goes on where it was.
structure Frame (s s' : Procs) : Prop where
  live : s'.live = s.live
  procList : s'.procList = s.procList
  idleproc : s'.idleproc = s.idleproc
  initproc : s'.initproc = s.initproc
  current : s'.current = s.current
  kont : ∀ a, (s'.procs a).kont = (s.procs a).kont

theorem Frame.trans {s s' s'' : Procs} (h : Frame s s') (h' : Frame s' s'') : Frame s s'' where
  live := h'.live.trans h.live
  procList := h'.procList.trans h.procList
  idleproc := h'.idleproc.trans h.idleproc
  initproc := h'.initproc.trans h.initproc
  current := h'.current.trans h.current
  kont := fun a => (h'.kont a).trans (h.kont a)

theorem Frame.modify {f : ProcStruct → ProcStruct} (h : ∀ p, (f p).kont = p.kont) :
    Frame s (s.modify a f) :=
  ⟨rfl, rfl, rfl, rfl, rfl, fun b => by
    rw [Procs.modify_apply]
    split
    · exact h _
    · rfl⟩

theorem ProcStruct.life_woken {p : ProcStruct} (h : p.state = .SLEEPING) : p.woken.life = p.life := by
  simp only [ProcStruct.life, ProcStruct.woken, h, reduceCtorEq, if_false]
  rfl

def ProcStruct.dead (code : Int) (p : ProcStruct) : ProcStruct :=
  { p with mm := NULL, state := .ZOMBIE, exitCode := code }

-- The running process becomes a zombie, and its parent is awake afterwards.
def afterDeath (s : Procs) (code : Int) (b : Addr) : ProcStruct :=
  if b = s.current then (s.procs b).dead code
  else if b = (s.procs s.current).parent ∧ (s.procs b).state = .SLEEPING then (s.procs b).woken
  else s.procs b

section Death

variable {k : Int}

theorem afterDeath_self : afterDeath s k s.current = (s.procs s.current).dead k :=
  if_pos rfl

theorem afterDeath_of_ne (hb : b ≠ s.current) :
    afterDeath s k b = s.procs b ∨
      (s.procs b).state = .SLEEPING ∧ afterDeath s k b = (s.procs b).woken := by
  unfold afterDeath
  rw [if_neg hb]
  split
  · rename_i hp
    exact Or.inr ⟨hp.2, rfl⟩
  · exact Or.inl rfl

-- It leaves the tree alone.
theorem afterDeath_links (b : Addr) :
    (afterDeath s k b).pid = (s.procs b).pid ∧
      (afterDeath s k b).parent = (s.procs b).parent ∧
      (afterDeath s k b).cptr = (s.procs b).cptr ∧
      (afterDeath s k b).yptr = (s.procs b).yptr ∧
      (afterDeath s k b).optr = (s.procs b).optr ∧
      (afterDeath s k b).kont = (s.procs b).kont := by
  unfold afterDeath
  split
  · exact ⟨rfl, rfl, rfl, rfl, rfl, rfl⟩
  · split <;> exact ⟨rfl, rfl, rfl, rfl, rfl, rfl⟩

theorem afterDeath_asleep (hb : (afterDeath s k b).state = .SLEEPING) :
    b ≠ s.current ∧ b ≠ (s.procs s.current).parent ∧ afterDeath s k b = s.procs b := by
  unfold afterDeath at hb ⊢
  split at hb
  · cases hb
  · rename_i hne
    split at hb
    · cases hb
    · rename_i hp
      exact ⟨hne, fun he => hp ⟨he, hb⟩, by rw [if_neg hne, if_neg hp]⟩

theorem afterDeath_zombie (hb : (afterDeath s k b).state = .ZOMBIE) (hne : b ≠ s.current) :
    (s.procs b).state = .ZOMBIE := by
  rcases afterDeath_of_ne (k := k) hne with he | ⟨_, he⟩
  · rwa [he] at hb
  · rw [he] at hb
    cases hb

theorem die_eq (h : Table s NULL) (hcur : s.current ∈ s.procList) (hinit : s.current ≠ s.initproc) :
    die s k = .ok { s with procs := afterDeath s k } := by
  let s₁ := s.modify s.current (ProcStruct.dead k)
  obtain ⟨parent, hparent⟩ : ∃ parent, parent = (s.procs s.current).parent := ⟨_, rfl⟩
  have hpar : parent ∈ s.procList := by
    rcases h.family.parent_mem hcur with ⟨_, he⟩ | ⟨hm, _⟩
    · exact absurd he hinit
    · exact hparent ▸ hm
  have hne : parent ≠ s.current := hparent ▸ h.family.parent_ne_self hcur
  have hs₁ : ∀ b, b ≠ s.current → s₁.procs b = s.procs b := fun b hb => Procs.modify_of_ne hb
  have hdead : s₁.procs s.current = (s.procs s.current).dead k := Procs.modify_self
  have hlive := h.live_of_mem hcur
  have hw := h.waitState_iff hpar
  unfold die
  rw [Procs.store_eq _ hlive, ok_bind, Procs.store_eq _ (by exact hlive), ok_bind,
    Procs.deref_eq (by exact hlive), ok_bind]
  have hmm : (s.modify s.current fun p => { p with mm := NULL }).modify s.current
      (fun p => { p with state := .ZOMBIE, exitCode := k }) = s₁ := by
    simp only [s₁, Procs.modify, Function.update_self, Function.update_idem]
    rfl
  have hp : (s₁.procs s₁.current).parent = parent := by
    change (s₁.procs s.current).parent = parent
    rw [hdead, hparent]
    rfl
  simp only [Procs.modify_current, hmm, hp]
  rw [Procs.deref_eq (show parent ∈ s₁.live from h.live_of_mem hpar), ok_bind, hs₁ _ hne]
  by_cases hs : (s.procs parent).state = .SLEEPING
  · rw [if_pos (hw.mpr hs),
      wakeupProc_eq (s := s₁) (h.live_of_mem hpar) (by rw [hs₁ _ hne, hs])]
    have hf : afterDeath s k = (s₁.modify parent ProcStruct.woken).procs := by
      funext b
      by_cases hb : b = parent
      · subst hb
        rw [Procs.modify_self, hs₁ _ hne]
        simp only [afterDeath, hne, ← hparent, hs, if_false, and_self, if_true]
      · rw [Procs.modify_of_ne hb]
        by_cases hc : b = s.current
        · subst hc
          rw [afterDeath_self, hdead]
        · rw [hs₁ b hc]
          simp only [afterDeath, hc, ← hparent, hb, false_and, if_false]
    rw [hf]
    rfl
  · rw [if_neg (fun hc => hs (hw.mp hc))]
    have hf : afterDeath s k = s₁.procs := by
      funext b
      by_cases hc : b = s.current
      · subst hc
        rw [afterDeath_self, hdead]
      · rw [hs₁ b hc]
        have hn : ¬(b = parent ∧ (s.procs b).state = .SLEEPING) := by
          rintro ⟨rfl, hb⟩
          exact hs hb
        simp only [afterDeath, hc, ← hparent, hn, if_false]
    rw [hf]
    rfl

theorem Table.die (h : Table s NULL) (hcur : s.current ∈ s.procList)
    (hrun : (s.procs s.current).state = .RUNNABLE) (hinit : s.current ≠ s.initproc) :
    Table { s with procs := afterDeath s k } s.current := by
  have hlinks := afterDeath_links (s := s) (k := k)
  have hidle : afterDeath s k s.idleproc = s.procs s.idleproc := by
    have hne : s.idleproc ≠ s.current := fun he => h.family.idle_notMem (he ▸ hcur)
    rcases afterDeath_of_ne (k := k) hne with he | ⟨hs, _⟩
    · exact he
    · rw [h.idle_state] at hs
      cases hs
  refine h.rebuild (c := s.current) ?_ (fun b _ => (hlinks b).1) ?_ ?_ ?_ ?_ ?_
    (by rw [hidle]) (by rw [hidle]) (by rw [hidle])
  · exact (h.family.mark s.current).congr (fun b _ => (hlinks b).2.1)
      (fun b _ => (hlinks b).2.2.1) (fun b _ => (hlinks b).2.2.2.1)
      (fun b _ => (hlinks b).2.2.2.2.1)
  · intro b hb
    by_cases hc : b = s.current
    · rw [hc, afterDeath_self]
      simp [ProcStruct.dead]
    · rcases afterDeath_of_ne (k := k) hc with he | ⟨_, he⟩
      · rw [he]
        exact h.known b hb
      · rw [he]
        simp [ProcStruct.woken]
  · intro b hb hs
    obtain ⟨_, hp, he⟩ := afterDeath_asleep hs
    rw [he] at hs
    refine (h.asleep b hb hs).keep (congrArg _ he) (congrArg _ he)
      (fun c hc hcp => ⟨hc, (hlinks c).2.1.trans hcp, (hlinks c).1⟩) (fun c hc hcp hz => ?_)
    have hcp : (s.procs c).parent = b := (hlinks c).2.1.symm.trans hcp
    have hne : c ≠ s.current := fun hcc => hp (by rw [← hcp, hcc])
    exact ⟨hc, hcp, (hlinks c).1.symm, afterDeath_zombie hz hne⟩
  · intro b hb hs
    by_cases hc : b = s.current
    · rw [hc, afterDeath_self]
      exact h.awake s.current hcur (by rw [hrun]; decide)
    · rcases afterDeath_of_ne (k := k) hc with he | ⟨_, he⟩
      · rw [he] at hs ⊢
        exact h.awake b hb hs
      · rw [he]
        rfl
  · intro b hb hz hne
    rw [(hlinks b).2.2.1]
    exact h.leaf b hb (afterDeath_zombie hz hne) (h.family.ne_null hb)
  · intro hz
    exact h.init_alive (afterDeath_zombie hz hinit.symm)

theorem afterDeath_life (b : Addr) : (afterDeath s k b).life =
    if b = s.current then { (s.procs b).life with code := some k } else (s.procs b).life := by
  by_cases hb : b = s.current
  · subst hb
    rw [if_pos rfl, afterDeath_self]
    rfl
  · rw [if_neg hb]
    rcases afterDeath_of_ne (k := k) hb with he | ⟨hs, he⟩
    · rw [he]
    · rw [he, ProcStruct.life_woken hs]

end Death

-- `x`, the youngest child of the running process, becomes that of initproc.
def relinked (s : Procs) (x b : Addr) : ProcStruct :=
  { s.procs b with
    parent := if b = x then s.initproc else (s.procs b).parent
    cptr := if b = s.initproc then x else if b = s.current then (s.procs x).optr
      else (s.procs b).cptr
    yptr := if b = (s.procs s.initproc).cptr ∧ (s.procs s.initproc).cptr ≠ NULL then x
      else if b = x then NULL else (s.procs b).yptr
    optr := if b = x then (s.procs s.initproc).cptr else (s.procs b).optr }

theorem relink_eq (hlc : s.current ∈ s.live) (hli : s.initproc ∈ s.live) (hlx : x ∈ s.live)
    (hlf : (s.procs s.initproc).cptr ≠ NULL → (s.procs s.initproc).cptr ∈ s.live)
    (hci : s.current ≠ s.initproc) (hxc : x ≠ s.current) (hxi : x ≠ s.initproc)
    (hfx : (s.procs s.initproc).cptr ≠ NULL → (s.procs s.initproc).cptr ≠ x)
    (hfi : (s.procs s.initproc).cptr ≠ NULL → (s.procs s.initproc).cptr ≠ s.initproc) :
    relink s x = .ok { s with procs := relinked s x } := by
  simp only [relink, Procs.deref_eq, Procs.store_eq, hlx, hlc, hli, ok_bind, Procs.modify_live,
    Procs.modify_initproc, Procs.modify_of_ne, ne_eq, Ne.symm hxi, Ne.symm hci,
    not_false_eq_true]
  by_cases hn : (s.procs s.initproc).cptr = NULL
  · simp only [hn, not_true, if_false, pure_eq_ok, ok_bind, Procs.store_eq, hlx, hli,
      Procs.modify_live, Procs.modify_initproc]
    simp only [Procs.modify]
    congr 2
    funext b
    simp only [Function.update_apply, relinked, hn]
    by_cases hbx : b = x
    · simp [hbx, hxc, hxi]
    · by_cases hbi : b = s.initproc
      · simp [hbi, Ne.symm hxi, Ne.symm hci]
      · by_cases hbc : b = s.current <;> simp [hbc, hbi, hbx, hci, Ne.symm hxc]
  · obtain ⟨first, hfirst⟩ : ∃ first, first = (s.procs s.initproc).cptr := ⟨_, rfl⟩
    rw [← hfirst] at hn hlf hfx hfi
    simp only [← hfirst, hn, not_false_eq_true, if_true, ok_bind, Procs.store_eq, hlx, hli,
      hlf hn, Procs.modify_live, Procs.modify_initproc]
    simp only [Procs.modify]
    congr 2
    funext b
    have hfx := hfx hn
    have hfi := hfi hn
    simp only [Function.update_apply, relinked, ← hfirst]
    by_cases hbx : b = x
    · simp [hbx, hxc, hxi, Ne.symm hfx]
    · by_cases hbi : b = s.initproc
      · simp [hbi, Ne.symm hxi, Ne.symm hci, Ne.symm hfi]
      · by_cases hbf : b = first
        · by_cases hfc : first = s.current
          · simp [hbf, hfx, hfi, ← hfc, hn]
          · simp [hbf, hfx, hfi, hfc, hn]
        · by_cases hbc : b = s.current
          · subst hbc
            simp [hbf, hbi, hbx]
          · simp [hbc, hbf, hbi, hbx]

-- ... and initproc is awake afterwards if `x` is a zombie.
def adopted (s : Procs) (x b : Addr) : ProcStruct :=
  if b = s.initproc ∧ (s.procs x).state = .ZOMBIE ∧ (s.procs b).state = .SLEEPING
  then (relinked s x b).woken else relinked s x b

theorem adopt_eq (h : Table s s.current) (hcur : s.current ∈ s.procList)
    (hinit : s.current ≠ s.initproc) (hxm : x ∈ s.procList)
    (hxp : (s.procs x).parent = s.current) :
    adopt s x = .ok { s with procs := adopted s x } := by
  obtain ⟨_, l, _, hl, hmem⟩ := h.family.kids s.initproc (Or.inr h.family.init_mem)
  have hfm : (s.procs s.initproc).cptr ≠ NULL → (s.procs s.initproc).cptr ∈ s.procList ∧
      (s.procs (s.procs s.initproc).cptr).parent = s.initproc := by
    intro hn
    cases l with
    | nil => exact absurd hl hn
    | cons y rest =>
        rw [hl.1]
        exact (hmem y).mp List.mem_cons_self
  have hxi : x ≠ s.initproc := by
    rintro rfl
    rw [h.family.init_parent] at hxp
    exact h.family.idle_notMem (hxp ▸ hcur)
  have hw := h.waitState_iff h.family.init_mem
  unfold adopt
  rw [relink_eq (h.live_of_mem hcur) h.init_live (h.live_of_mem hxm)
    (fun hn => h.live_of_mem (hfm hn).1) hinit
    (fun he => h.family.parent_ne_self hxm (hxp.trans he.symm)) hxi
    (fun hn he => hinit (hxp.symm.trans (he ▸ (hfm hn).2)))
    (fun hn he => h.family.parent_ne_self (hfm hn).1 ((hfm hn).2.trans he.symm)), ok_bind,
    Procs.deref_eq (by exact h.live_of_mem hxm), ok_bind]
  change (if (s.procs x).state = .ZOMBIE then _ else _) = _
  by_cases hz : (s.procs x).state = .ZOMBIE
  · rw [if_pos hz, Procs.deref_eq (by exact h.init_live), ok_bind]
    change (if (s.procs s.initproc).waitState = WT_CHILD then _ else _) = _
    by_cases hs : (s.procs s.initproc).state = .SLEEPING
    · rw [if_pos (hw.mpr hs), wakeupProc_eq (by exact h.init_live) (by exact hs)]
      simp only [Procs.modify]
      congr 2
      funext b
      by_cases hb : b = s.initproc
      · subst hb
        simp [adopted, hz, hs]
      · simp [adopted, hb]
    · rw [if_neg fun hc => hs (hw.mp hc)]
      have hf : adopted s x = relinked s x := by
        funext b
        refine if_neg ?_
        rintro ⟨rfl, _, hb⟩
        exact hs hb
      rw [hf]
      rfl
  · rw [if_neg hz]
    have hf : adopted s x = relinked s x := by
      funext b
      exact if_neg fun hb => hz hb.2.1
    rw [hf]
    rfl

theorem adopted_of_zombie (hz : (adopted s x b).state = .ZOMBIE) :
    (s.procs b).state = .ZOMBIE := by
  unfold adopted at hz
  split at hz
  · cases hz
  · exact hz

theorem adopted_asleep (hs : (adopted s x b).state = .SLEEPING) :
    (s.procs b).state = .SLEEPING ∧ (b = s.initproc → (s.procs x).state ≠ .ZOMBIE) ∧
      adopted s x b = relinked s x b := by
  unfold adopted at hs ⊢
  split at hs
  · cases hs
  · rename_i hn
    have hb : (s.procs b).state = .SLEEPING := hs
    exact ⟨hb, fun he hz => hn ⟨he, hz, hb⟩, if_neg hn⟩

theorem adopted_links (b : Addr) :
    (adopted s x b).pid = (s.procs b).pid ∧
      (adopted s x b).parent = (if b = x then s.initproc else (s.procs b).parent) ∧
      (adopted s x b).cptr = (relinked s x b).cptr ∧
      (adopted s x b).yptr = (relinked s x b).yptr ∧
      (adopted s x b).optr = (relinked s x b).optr ∧
      (adopted s x b).kont = (s.procs b).kont := by
  unfold adopted
  split <;> exact ⟨rfl, rfl, rfl, rfl, rfl, rfl⟩

theorem adopted_life (b : Addr) : (adopted s x b).life =
    if b = x then { (s.procs b).life with parent := s.initproc } else (s.procs b).life := by
  have hrel : (relinked s x b).life =
      if b = x then { (s.procs b).life with parent := s.initproc } else (s.procs b).life := by
    by_cases hb : b = x <;> simp [relinked, ProcStruct.life, hb]
  unfold adopted
  split
  · rename_i hs
    rw [ProcStruct.life_woken (by exact hs.2.2), hrel]
  · exact hrel

theorem Table.adopt (h : Table s s.current) (hcur : s.current ∈ s.procList)
    (hz : (s.procs s.current).state = .ZOMBIE) (hinit : s.current ≠ s.initproc)
    (hx : x = (s.procs s.current).cptr) (hnull : x ≠ NULL) (hxm : x ∈ s.procList)
    (hxp : (s.procs x).parent = s.current) :
    Table { s with procs := adopted s x } s.current := by
  have hlinks := adopted_links (s := s) (x := x)
  have hidle : s.idleproc ≠ s.initproc := h.family.init_ne_idle.symm
  have hidle' : ¬(s.idleproc = s.initproc ∧ (s.procs x).state = .ZOMBIE ∧
      (s.procs s.idleproc).state = .SLEEPING) := fun hc => hidle hc.1
  refine h.rebuild (c := s.current) ?_ (fun b _ => (hlinks b).1) ?_ ?_ ?_ ?_ ?_
    (by rw [adopted, if_neg hidle']; rfl) (by rw [adopted, if_neg hidle']; rfl)
    (hlinks s.idleproc).2.2.2.2.2
  · exact h.family.adopt hcur hinit hx hnull (fun b => (hlinks b).2.1)
      (fun b => (hlinks b).2.2.1) (fun b => (hlinks b).2.2.2.1)
      (fun b => (hlinks b).2.2.2.2.1)
  · intro b hb
    unfold adopted
    split
    · simp [ProcStruct.woken]
    · exact h.known b hb
  · intro b hb hs
    obtain ⟨hs, hxz, he⟩ := adopted_asleep hs
    have hbc : b ≠ s.current := by
      rintro rfl
      rw [hs] at hz
      cases hz
    have hw : (adopted s x b).waitState = (s.procs b).waitState := by
      rw [he]
      rfl
    refine (h.asleep b hb hs).keep hw (hlinks b).2.2.2.2.2 (fun c hc hcp => ?_)
      (fun c hc hcp hcz => ?_)
    · have hcx : c ≠ x := by
        rintro rfl
        exact hbc (hcp.symm.trans hxp)
      exact ⟨hc, by rw [(hlinks c).2.1, if_neg hcx, hcp], (hlinks c).1⟩
    · have hcp : (if c = x then s.initproc else (s.procs c).parent) = b := by
        rw [← (hlinks c).2.1, hcp]
      have hcz : (s.procs c).state = .ZOMBIE := adopted_of_zombie hcz
      by_cases hcx : c = x
      · rw [if_pos hcx] at hcp
        exact absurd (hcx ▸ hcz) (hxz hcp.symm)
      · rw [if_neg hcx] at hcp
        exact ⟨hc, hcp, (hlinks c).1.symm, hcz⟩
  · intro b hb hs
    by_cases hc : b = s.initproc ∧ (s.procs x).state = .ZOMBIE ∧ (s.procs b).state = .SLEEPING
    · rw [adopted, if_pos hc]
      rfl
    · rw [adopted, if_neg hc] at hs ⊢
      exact h.awake b hb hs
  · intro b hb hbz hne
    have hbz : (s.procs b).state = .ZOMBIE := adopted_of_zombie hbz
    have hbi : b ≠ s.initproc := by
      rintro rfl
      exact h.init_alive hbz
    rw [(hlinks b).2.2.1]
    simp only [relinked, if_neg hbi, if_neg hne]
    exact h.leaf b hb hbz hne
  · exact fun hiz => h.init_alive (adopted_of_zombie hiz)

-- The loop is over: nothing points back into the dying process.
theorem Table.settle (h : Table s dying) (hc : (s.procs dying).cptr = NULL) : Table s NULL :=
  h.rebuild (c := s.current) (h.family.settle hc) (fun _ _ => rfl) h.known h.asleep h.awake
    (fun a ha hz _ => by
      by_cases hd : a = dying
      · rw [hd, hc]
      · exact h.leaf a ha hz hd)
    h.init_alive rfl rfl rfl

-- The loop runs once for every child, and all of them end up with initproc.
theorem reparent_spec (fuel : Nat) (s : Procs) (h : Table s s.current)
    (hcur : s.current ∈ s.procList) (hz : (s.procs s.current).state = .ZOMBIE)
    (hinit : s.current ≠ s.initproc) {before : Addr} {l : List Addr}
    (hl : Siblings s.procs before (s.procs s.current).cptr l)
    (hmem : ∀ b, b ∈ l ↔ b ∈ s.procList ∧ (s.procs b).parent = s.current)
    (hfuel : l.length < fuel) :
    ∃ f, reparent fuel s = .ok { s with procs := f } ∧ Table { s with procs := f } NULL ∧
      (∀ b, (f b).kont = (s.procs b).kont) ∧
      ∀ b ∈ s.procList, (f b).life =
        if (s.procs b).parent = s.current then { (s.procs b).life with parent := s.initproc }
        else (s.procs b).life := by
  induction fuel generalizing s before l with
  | zero => omega
  | succ fuel ih =>
      rw [reparent, Procs.deref_eq (h.live_of_mem hcur), ok_bind]
      cases l with
      | nil =>
          have hnil : (s.procs s.current).cptr = NULL := hl
          refine ⟨s.procs, if_pos hnil, h.settle hnil, fun _ => rfl, fun b hb => ?_⟩
          have hno : ¬(s.procs b).parent = s.current :=
            fun hp => List.not_mem_nil ((hmem b).mpr ⟨hb, hp⟩)
          rw [if_neg hno]
      | cons x rest =>
          have hx : (s.procs s.current).cptr = x := hl.1
          have hnull : x ≠ NULL := hl.2.1
          obtain ⟨hxm, hxp⟩ := (hmem x).mp List.mem_cons_self
          have h' := h.adopt hcur hz hinit hx.symm hnull hxm hxp
          have hlinks := adopted_links (s := s) (x := x)
          have hself : (adopted s x s.current).state = .ZOMBIE := by
            rw [adopted, if_neg (fun hc => hinit hc.1)]
            exact hz
          obtain ⟨before', l', _, hl', hmem'⟩ := h'.family.kids s.current (Or.inr hcur)
          have hshort : (x :: l').length ≤ (x :: rest).length := by
            have hx' : x ∉ l' := by
              intro hm
              have hp := ((hmem' x).mp hm).2
              rw [(hlinks x).2.1, if_pos rfl] at hp
              exact hinit hp.symm
            refine (List.subperm_of_subset (List.nodup_cons.mpr ⟨hx', Chain.nodup hl'⟩) ?_).length_le
            intro b hb
            rcases List.mem_cons.mp hb with rfl | hb
            · exact List.mem_cons_self
            · obtain ⟨hbm, hp⟩ := (hmem' b).mp hb
              rw [(hlinks b).2.1] at hp
              refine (hmem b).mpr ⟨hbm, ?_⟩
              by_cases hbx : b = x
              · rw [hbx, hxp]
              · rwa [if_neg hbx] at hp
          obtain ⟨f, hf, ht, hkont, hlife⟩ := ih { s with procs := adopted s x } h' hcur hself hinit
            hl' hmem' (by simp only [List.length_cons] at hshort hfuel ⊢; omega)
          refine ⟨f, ?_, ht, fun b => (hkont b).trans (hlinks b).2.2.2.2.2, fun b hb => ?_⟩
          · rw [hx, if_neg hnull, adopt_eq h hcur hinit hxm hxp, ok_bind, hf]
          · rw [hlife b hb, adopted_life]
            simp only [(hlinks b).2.1]
            by_cases hbx : b = x
            · subst hbx
              simp [hxp, hinit.symm]
            · simp [hbx]

-- do_exit: the running process is a zombie with this exit code, its children are
-- those of initproc, and another process runs.
theorem doExit_spec (h : Table s NULL) (hcur : s.current ∈ s.procList)
    (hrun : (s.procs s.current).state = .RUNNABLE) (hinit : s.current ≠ s.initproc) (code : Int) :
    ∃ f next, doExit s code = .ok { s with procs := f, current := next } ∧
      Table { s with procs := f, current := next } NULL ∧
      next ∈ s.procList ∧ (f next).state = .RUNNABLE ∧ (∀ b, (f b).kont = (s.procs b).kont) ∧
      lives { s with procs := f, current := next } =
        (lives s).exit s.initproc s.current code := by
  have hidle : s.current ≠ s.idleproc := fun he => h.family.idle_notMem (he ▸ hcur)
  have hdead := h.die (k := code) hcur hrun hinit
  obtain ⟨before, l, _, hl, hmem⟩ := hdead.family.kids s.current (Or.inr hcur)
  have hz : (afterDeath s code s.current).state = .ZOMBIE := by
    rw [afterDeath_self]
    rfl
  obtain ⟨g, hg, hgt, hgk, hgl⟩ := reparent_spec (s.live.length + 1)
    { s with procs := afterDeath s code } hdead hcur hz hinit hl hmem
    (Nat.lt_succ_of_le (hdead.kids_length hl fun b hb => ((hmem b).mp hb).1))
  obtain ⟨f, next, hs, hsame, hnext, hnrun⟩ := schedule_spec hgt (Or.inr hcur)
  refine ⟨f, next, ?_, hgt.congr fun a _ => hsame.core a, hnext, ?_, fun b => ?_, ?_⟩
  · unfold doExit
    simp only [hidle, hinit, if_false, die_eq h hcur hinit, ok_bind, hg, hs]
  · rw [hsame next]
    exact hnrun
  · rw [hsame b]
    exact (hgk b).trans (afterDeath_links b).2.2.2.2.2
  · funext b
    by_cases hb : b ∈ s.procList
    · rw [lives_of_mem (by exact hb)]
      simp only [Lives.exit, lives_of_mem hb, Option.map_some]
      rw [hsame.life b, hgl b hb, afterDeath_life b, (afterDeath_links b).2.1]
      by_cases hc : b = s.current
      · subst hc
        rw [if_neg (h.family.parent_ne_self hcur), if_pos rfl, if_pos rfl]
      · simp only [hc, if_false]
        rfl
    · rw [lives_eq_none.mpr (by exact hb)]
      simp only [Lives.exit, lives_eq_none.mpr hb, Option.map_none]

end Ucore.Proc
