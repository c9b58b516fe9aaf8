import Ucore.Proc.Fork

namespace Ucore.Proc

open Ucore.Lib

variable {s : Procs} {a b x dying : Addr} {pid : Int}

theorem findIn_spec (pid : Int) (l : List Addr) (hlive : ∀ a ∈ l, a ∈ s.live) :
    (∃ a ∈ l, (s.procs a).pid = pid ∧ findIn s pid l = .ok a) ∨
      (∀ a ∈ l, (s.procs a).pid ≠ pid) ∧ findIn s pid l = .ok NULL := by
  induction l with
  | nil => exact Or.inr ⟨by simp, rfl⟩
  | cons a rest ih =>
      rw [findIn, Procs.deref_eq (hlive a List.mem_cons_self), ok_bind]
      by_cases hp : (s.procs a).pid = pid
      · exact Or.inl ⟨a, List.mem_cons_self, hp, if_pos hp⟩
      · rw [if_neg hp]
        rcases ih fun b hb => hlive b (List.mem_cons_of_mem _ hb) with ⟨b, hb, hbp, hr⟩ | ⟨hno, hr⟩
        · exact Or.inl ⟨b, List.mem_cons_of_mem _ hb, hbp, hr⟩
        · refine Or.inr ⟨fun b hb => ?_, hr⟩
          rcases List.mem_cons.mp hb with rfl | hb
          · exact hp
          · exact hno b hb

-- find_proc finds the process with this pid if there is one, and NULL otherwise.
theorem findProc_spec (h : Table s dying) (pid : Int) :
    (∃ a ∈ s.procList, (s.procs a).pid = pid ∧ findProc s pid = .ok a) ∨
      (∀ a ∈ s.procList, (s.procs a).pid ≠ pid) ∧ findProc s pid = .ok NULL := by
  unfold findProc
  by_cases hr : 0 < pid ∧ pid < MAX_PID
  · rw [if_pos hr]
    have hbucket := h.hash_mem (pidHashfn pid)
    rcases findIn_spec pid (s.hashList (pidHashfn pid))
      (fun a ha => h.live_of_mem ((hbucket a).mp ha).1) with ⟨a, ha, hp, hf⟩ | ⟨hno, hf⟩
    · exact Or.inl ⟨a, ((hbucket a).mp ha).1, hp, hf⟩
    · refine Or.inr ⟨fun a ha hp => ?_, hf⟩
      exact hno a ((hbucket a).mpr ⟨ha, by rw [hp]⟩) hp
  · rw [if_neg hr]
    refine Or.inr ⟨fun a ha hp => hr ?_, rfl⟩
    have := h.pid_range a ha
    omega

theorem findProc_eq_null (h : Table s dying) :
    findProc s pid = .ok NULL ↔ ∀ a ∈ s.procList, (s.procs a).pid ≠ pid := by
  rcases findProc_spec h pid with ⟨b, hb, hp, hf⟩ | ⟨hno, hf⟩
  · refine iff_of_false (fun hn => ?_) (fun hno => hno b hb hp)
    rw [hf] at hn
    exact h.family.ne_null hb (Except.ok.inj hn)
  · exact iff_of_true hf hno

-- The walk over the children ends with the first zombie, if there is one.
theorem scanKids_spec (fuel : Nat) (haskid : Bool) {before head : Addr} {l : List Addr}
    (hl : Siblings s.procs before head l) (hlive : ∀ b ∈ l, b ∈ s.live) (hfuel : l.length < fuel) :
    (∃ b ∈ l, (s.procs b).state = .ZOMBIE ∧ scanKids s fuel head haskid = .ok (b, true)) ∨
      (∀ b ∈ l, (s.procs b).state ≠ .ZOMBIE) ∧
        scanKids s fuel head haskid = .ok (NULL, haskid || !l.isEmpty) := by
  induction l generalizing fuel before head haskid with
  | nil =>
      obtain ⟨fuel, rfl⟩ : ∃ n, fuel = n + 1 := ⟨fuel - 1, by simp at hfuel; omega⟩
      have hn : head = NULL := hl
      refine Or.inr ⟨by simp, ?_⟩
      rw [scanKids, if_pos hn]
      simp
  | cons x rest ih =>
      obtain ⟨fuel, rfl⟩ : ∃ n, fuel = n + 1 := ⟨fuel - 1, by simp at hfuel; omega⟩
      obtain ⟨rfl, hn, _, hr⟩ := hl
      rw [scanKids, if_neg hn, Procs.deref_eq (hlive head List.mem_cons_self), ok_bind]
      by_cases hz : (s.procs head).state = .ZOMBIE
      · exact Or.inl ⟨head, List.mem_cons_self, hz, by rw [if_pos hz]; rfl⟩
      · rw [if_neg hz]
        rcases ih fuel true hr (fun b hb => hlive b (List.mem_cons_of_mem _ hb))
          (by simpa using hfuel) with ⟨b, hb, hbz, hs⟩ | ⟨hno, hs⟩
        · exact Or.inl ⟨b, List.mem_cons_of_mem _ hb, hbz, hs⟩
        · refine Or.inr ⟨fun b hb => ?_, ?_⟩
          · rcases List.mem_cons.mp hb with rfl | hb
            · exact hz
            · exact hno b hb
          · rw [hs]
            simp

-- One turn of do_wait: it fails if the caller has no child to wait for, finds a
-- child that is a zombie, or has the caller sleep for children that are not.
theorem waitScan_spec (h : Table s NULL) (hcur : s.current ∈ s.procList) (pid : Int) :
    ((∀ b, ¬Awaited s s.current pid b) ∧ waitScan s pid = .ok .badProc) ∨
    (∃ x, Awaited s s.current pid x ∧ (s.procs x).state = .ZOMBIE ∧
      waitScan s pid = .ok (.found x)) ∨
    (∃ b, Awaited s s.current pid b) ∧
      (∀ b, Awaited s s.current pid b → (s.procs b).state ≠ .ZOMBIE) ∧
      waitScan s pid = .ok .asleep := by
  unfold waitScan
  by_cases hp : pid = 0
  · rw [if_neg (not_not.mpr hp), Procs.deref_eq (h.live_of_mem hcur), ok_bind]
    dsimp only
    subst hp
    obtain ⟨_, l, _, hl, hmem⟩ := h.family.kids s.current (Or.inr hcur)
    have hawait : ∀ b, Awaited s s.current 0 b ↔ b ∈ l := by
      intro b
      rw [hmem b]
      exact ⟨fun ha => ⟨ha.1, ha.2.1⟩, fun ha => ⟨ha.1, ha.2, fun hne => absurd rfl hne⟩⟩
    have hsub : ∀ b ∈ l, b ∈ s.procList := fun b hb => ((hmem b).mp hb).1
    rcases scanKids_spec (s.live.length + 1) false hl
      (fun b hb => h.live_of_mem (hsub b hb)) (Nat.lt_succ_of_le (h.kids_length hl hsub)) with
      ⟨x, hx, hz, hs⟩ | ⟨hno, hs⟩
    · refine Or.inr (Or.inl ⟨x, (hawait x).mpr hx, hz, ?_⟩)
      rw [hs, ok_bind]
      simp [h.family.ne_null (hsub x hx)]
    · rw [hs, ok_bind]
      cases l with
      | nil => exact Or.inl ⟨fun b hb => by simpa using (hawait b).mp hb, by simp⟩
      | cons y rest =>
          refine Or.inr (Or.inr ⟨⟨y, (hawait y).mpr List.mem_cons_self⟩,
            fun b hb => hno b ((hawait b).mp hb), by simp⟩)
  · rw [if_pos hp]
    rcases findProc_spec h pid with ⟨x, hx, hxp, hf⟩ | ⟨hno, hf⟩
    · have honly : ∀ b, Awaited s s.current pid b → b = x := by
        intro b hb
        exact h.pid_inj b hb.1 x hx ((hb.2.2 hp).trans hxp.symm)
      rw [hf, ok_bind, if_neg (h.family.ne_null hx), Procs.deref_eq (h.live_of_mem hx), ok_bind]
      by_cases hpar : (s.procs x).parent = s.current
      · have hax : Awaited s s.current pid x := ⟨hx, hpar, fun _ => hxp⟩
        rw [if_neg (not_not.mpr hpar)]
        by_cases hz : (s.procs x).state = .ZOMBIE
        · exact Or.inr (Or.inl ⟨x, hax, hz, by rw [if_pos hz]; rfl⟩)
        · refine Or.inr (Or.inr ⟨⟨x, hax⟩, fun b hb => ?_, by rw [if_neg hz]; rfl⟩)
          rw [honly b hb]
          exact hz
      · refine Or.inl ⟨fun b hb => hpar ?_, by rw [if_pos hpar]; rfl⟩
        rw [← honly b hb]
        exact hb.2.1
    · refine Or.inl ⟨fun b hb => hno b hb.1 (hb.2.2 hp), ?_⟩
      rw [hf, ok_bind, if_pos rfl]
      rfl

-- The siblings of `x` closed over it
def unlinked (s : Procs) (x b : Addr) : ProcStruct :=
  { s.procs b with
    cptr := if (s.procs x).yptr = NULL ∧ b = (s.procs x).parent then (s.procs x).optr
      else (s.procs b).cptr
    yptr := if b = (s.procs x).optr ∧ (s.procs x).optr ≠ NULL then (s.procs x).yptr
      else (s.procs b).yptr
    optr := if b = (s.procs x).yptr ∧ (s.procs x).yptr ≠ NULL then (s.procs x).optr
      else (s.procs b).optr }

theorem removeLinks_eq (hx : x ∈ s.live) (hp : (s.procs x).parent ∈ s.live)
    (ho : (s.procs x).optr ≠ NULL → (s.procs x).optr ∈ s.live)
    (hy : (s.procs x).yptr ≠ NULL → (s.procs x).yptr ∈ s.live) :
    removeLinks s x = .ok { s with
      procs := unlinked s x, procList := s.procList.erase x, nrProcess := s.nrProcess - 1 } := by
  obtain ⟨o, hoo⟩ : ∃ o, o = (s.procs x).optr := ⟨_, rfl⟩
  obtain ⟨y, hyy⟩ : ∃ y, y = (s.procs x).yptr := ⟨_, rfl⟩
  obtain ⟨q, hqq⟩ : ∃ q, q = (s.procs x).parent := ⟨_, rfl⟩
  rw [← hoo] at ho
  rw [← hyy] at hy
  rw [← hqq] at hp
  let s₀ : Procs := { s with procList := s.procList.erase x }
  have hkey : ∃ t : Procs, removeLinks s x = .ok { t with nrProcess := t.nrProcess - 1 } ∧
      t = { s₀ with procs := t.procs } ∧ t.procs = unlinked s x := by
    unfold removeLinks
    simp only [Procs.deref_eq, hx, ok_bind, ← hoo, ← hyy, ← hqq]
    by_cases hon : o = NULL
    · by_cases hyn : y = NULL
      · refine ⟨s₀.modify q fun p => { p with cptr := o }, ?_, rfl, ?_⟩
        · simp only [hon, hyn, ne_eq, not_true, if_false, pure_eq_ok, ok_bind, Procs.store_eq, hp]
          rfl
        · funext b
          simp only [Procs.modify_apply, unlinked, ← hoo, ← hyy, ← hqq, hon, hyn]
          by_cases hb : b = q <;> simp [hb, s₀]
      · refine ⟨s₀.modify y fun p => { p with optr := o }, ?_, rfl, ?_⟩
        · simp only [hon, hyn, ne_eq, not_true, not_false_eq_true, if_false, if_true, pure_eq_ok,
            ok_bind, Procs.store_eq, hy hyn]
          rfl
        · funext b
          simp only [Procs.modify_apply, unlinked, ← hoo, ← hyy, ← hqq, hon]
          by_cases hb : b = y <;> simp [hb, hyn, s₀]
    · by_cases hyn : y = NULL
      · refine ⟨(s₀.modify o fun p => { p with yptr := y }).modify q fun p => { p with cptr := o },
          ?_, rfl, ?_⟩
        · simp only [hon, hyn, ne_eq, not_true, not_false_eq_true, if_false, if_true, pure_eq_ok,
            ok_bind, Procs.store_eq, hp, ho hon, Procs.modify_live]
          rfl
        · funext b
          simp only [Procs.modify_apply, unlinked, ← hoo, ← hyy, ← hqq, hyn]
          by_cases hb : b = q
          · by_cases hbo : b = o
            · simp [eq_true hb, eq_true hbo, hon, s₀]
            · simp [eq_true hb, hbo, s₀]
          · by_cases hbo : b = o
            · simp [hb, eq_true hbo, hon, s₀]
            · simp [hb, hbo, s₀]
      · refine ⟨(s₀.modify o fun p => { p with yptr := y }).modify y fun p => { p with optr := o },
          ?_, rfl, ?_⟩
        · simp only [hon, hyn, ne_eq, not_false_eq_true, if_true, pure_eq_ok,
            ok_bind, Procs.store_eq, hy hyn, ho hon, Procs.modify_live]
          rfl
        · funext b
          simp only [Procs.modify_apply, unlinked, ← hoo, ← hyy, ← hqq]
          by_cases hb : b = y
          · by_cases hbo : b = o
            · simp [eq_true hb, eq_true hbo, hon, hyn, s₀]
            · simp [eq_true hb, hbo, hyn, s₀]
          · by_cases hbo : b = o
            · simp [hb, eq_true hbo, hon, hyn, s₀]
            · simp [hb, hbo, hyn, s₀]
  obtain ⟨t, hr, ht, hprocs⟩ := hkey
  rw [hr, ht, hprocs]

def without (s : Procs) (x : Addr) : Procs :=
  { s with
    procs := unlinked s x
    live := s.live.erase x
    procList := s.procList.erase x
    hashList := Function.update s.hashList (pidHashfn (s.procs x).pid)
      ((s.hashList (pidHashfn (s.procs x).pid)).erase x)
    nrProcess := s.nrProcess - 1 }

theorem reap_eq (h : Table s NULL) (hx : x ∈ s.procList) : reap s x = .ok (without s x) := by
  have hlx := h.live_of_mem hx
  obtain ⟨before, l, hbefore, hl, hmem⟩ :=
    h.family.kids (s.procs x).parent (h.family.parent_known hx)
  have hqn : (s.procs x).parent ≠ NULL :=
    (h.family.parent_known hx).elim (fun he => he ▸ h.family.idle_ne_null) h.family.ne_null
  obtain rfl : before = NULL := hbefore hqn
  obtain ⟨l₁, l₂, rfl⟩ := List.append_of_mem ((hmem x).mpr ⟨hx, rfl⟩)
  have hlist : ∀ b ∈ l₁ ++ x :: l₂, b ∈ s.live := fun b hb => h.live_of_mem ((hmem b).mp hb).1
  have ho : (s.procs x).optr ≠ NULL → (s.procs x).optr ∈ s.live := by
    intro hn
    have he : (s.procs x).optr = l₂.head?.getD NULL := Chain.next_eq hl
    cases l₂ with
    | nil => exact absurd he hn
    | cons z rest => exact hlist _ (by rw [he]; simp)
  have hy : (s.procs x).yptr ≠ NULL → (s.procs x).yptr ∈ s.live := by
    intro hn
    have he : (s.procs x).yptr = l₁.getLast?.getD NULL := Chain.prev_eq hl
    cases hlast : l₁.getLast? with
    | none => rw [hlast] at he; exact absurd he hn
    | some z =>
        rw [hlast] at he
        exact hlist _ (by rw [he]; exact List.mem_append_left _ (List.mem_of_getLast? hlast))
  unfold reap unhashProc
  rw [Procs.deref_eq hlx, ok_bind, pure_eq_ok, ok_bind,
    removeLinks_eq (by exact hlx) (by exact h.parent_live hx) (by exact ho) (by exact hy), ok_bind]
  rfl

theorem Table.without (h : Table s NULL) (hx : x ∈ s.procList) (hz : (s.procs x).state = .ZOMBIE)
    (hawake : (s.procs (s.procs x).parent).state ≠ .SLEEPING) : Table (without s x) NULL := by
  have hxi : x ≠ s.initproc := by
    rintro rfl
    exact h.init_alive hz
  have hxidle : s.idleproc ≠ x := fun he => h.family.idle_notMem (he ▸ hx)
  have hcx : (s.procs x).cptr = NULL := h.leaf x hx hz (h.family.ne_null hx)
  have hsub : ∀ b, b ∈ s.procList.erase x ↔ b ∈ s.procList ∧ b ≠ x := fun b => by
    rw [h.family.nodup.mem_erase_iff, and_comm]
  refine
    { family := h.family.remove hx hxi hcx (fun _ => rfl) (fun _ => rfl) (fun _ => rfl)
        (fun _ => rfl)
      live_iff := ?_
      live_nodup := h.live_nodup.erase x
      count := ?_
      hash_mem := ?_
      hash_nodup := ?_
      pid_inj := fun b hb c hc => h.pid_inj b ((hsub b).mp hb).1 c ((hsub c).mp hc).1
      pid_range := fun b hb => h.pid_range b ((hsub b).mp hb).1
      pids_safe := ?_
      known := fun b hb => h.known b ((hsub b).mp hb).1
      asleep := ?_
      awake := fun b hb => h.awake b ((hsub b).mp hb).1
      leaf := ?_
      init_alive := h.init_alive
      idle_state := h.idle_state
      idle_awake := h.idle_awake
      idle_ready := h.idle_ready }
  · intro b
    change b ∈ s.live.erase x ↔ b = s.idleproc ∨ b ∈ s.procList.erase x
    rw [h.live_nodup.mem_erase_iff, h.live_iff b, hsub b]
    constructor
    · rintro ⟨hne, he | hm⟩
      · exact Or.inl he
      · exact Or.inr ⟨hm, hne⟩
    · rintro (rfl | ⟨hm, hne⟩)
      · exact ⟨hxidle, Or.inl rfl⟩
      · exact ⟨hne, Or.inr hm⟩
  · change s.nrProcess - 1 = ((s.procList.erase x).length : Int) + 1
    have hpos : 0 < s.procList.length := List.length_pos_of_mem hx
    rw [List.length_erase_of_mem hx, h.count]
    omega
  · intro i b
    change b ∈ Function.update s.hashList (pidHashfn (s.procs x).pid)
      ((s.hashList (pidHashfn (s.procs x).pid)).erase x) i ↔
        b ∈ s.procList.erase x ∧ pidHashfn (s.procs b).pid = i
    rw [hsub b]
    by_cases hi : i = pidHashfn (s.procs x).pid
    · subst hi
      rw [Function.update_self, (h.hash_nodup _).mem_erase_iff, h.hash_mem]
      constructor
      · exact fun hb => ⟨⟨hb.2.1, hb.1⟩, hb.2.2⟩
      · exact fun hb => ⟨hb.1.2, hb.1.1, hb.2⟩
    · rw [Function.update_of_ne hi, h.hash_mem]
      constructor
      · exact fun hb => ⟨⟨hb.1, fun he => hi (he ▸ hb.2.symm)⟩, hb.2⟩
      · exact fun hb => ⟨hb.1.1, hb.2⟩
  · intro i
    change (Function.update s.hashList (pidHashfn (s.procs x).pid)
      ((s.hashList (pidHashfn (s.procs x).pid)).erase x) i).Nodup
    by_cases hi : i = pidHashfn (s.procs x).pid
    · subst hi
      rw [Function.update_self]
      exact (h.hash_nodup _).erase x
    · rw [Function.update_of_ne hi]
      exact h.hash_nodup i
  · refine h.pids_safe.of_subset fun pid hp => ?_
    obtain ⟨b, hb, rfl⟩ := List.mem_map.mp hp
    exact List.mem_map.mpr ⟨b, ((hsub b).mp hb).1, rfl⟩
  · intro b hb hs
    refine (h.asleep b ((hsub b).mp hb).1 hs).keep rfl rfl (fun c hc hp => ?_)
      (fun c hc hp hcz => ⟨((hsub c).mp hc).1, hp, rfl, hcz⟩)
    refine ⟨(hsub c).mpr ⟨hc, ?_⟩, hp, rfl⟩
    rintro rfl
    exact hawake (hp ▸ hs)
  · intro b hb hbz hne
    have hbm := ((hsub b).mp hb).1
    change (if (s.procs x).yptr = NULL ∧ b = (s.procs x).parent then _ else _) = NULL
    rw [if_neg, h.leaf b hbm hbz hne]
    rintro ⟨_, rfl⟩
    exact h.parent_alive hx hbz

theorem lives_without (h : Table s dying) (x : Addr) :
    lives (without s x) = Function.update (lives s) x none := by
  funext b
  by_cases hb : b = x
  · subst hb
    rw [Function.update_self]
    exact lives_eq_none.mpr fun hm => (h.family.nodup.mem_erase_iff.mp hm).1 rfl
  · rw [Function.update_of_ne hb]
    by_cases hm : b ∈ s.procList
    · rw [lives_of_mem hm]
      exact lives_of_mem (s := without s x) (h.family.nodup.mem_erase_iff.mpr ⟨hb, hm⟩)
    · rw [lives_eq_none.mpr hm]
      exact lives_eq_none.mpr fun hc => hm (h.family.nodup.mem_erase_iff.mp hc).2

end Ucore.Proc
