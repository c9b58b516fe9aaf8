import Ucore.Mm.Procs

namespace Ucore.Mm

open Lib Pmm

variable {s : Sys} {vm' : VM} {managed : Finset Nat} {role role' : Nat → Role} {bad : Obs → Prop}
  {addr i j k r stack value : Nat} {mm mm' : MmStruct} {space space' : Nat → Option (List VmaStruct)}
  {t : Task} {o : Option Task} {E : Halt → Prop} {α : Type}
  {Q : Reply → Sys → Prop}

theorem wp_onVm {x : M α} {Q : α → Sys → Prop} :
    Prog.wp bad (onVm x) s Q E ↔ Prog.wp bad x s.vm (fun a vm => Q a { s with vm := vm }) E :=
  Prog.wp_zoom

@[simp] theorem wp_setTask {Q : Unit → Sys → Prop} :
    Prog.wp bad (setTask i o) s Q E ↔ Q () (s.put s.vm i o) := by
  rw [setTask, Prog.wp_modify]
  exact Iff.rfl

-- do_exit ends the process: its memory is gone.
theorem SysInv.wp_kill (h : SysInv s managed role space) (hbad : bad .tail) (ht : s.task i = some t)
    (hcur : s.current i ≠ .other → Asserts E)
    (hq : ∀ s' role' space', SysInv s' managed role' space' → s'.eager = s.eager.kill i → Q .killed s') :
    Prog.wp bad (kill i t) s Q E := by
  have hmm := Sys.mm_eq ht
  rw [kill, Prog.wp_bind, Prog.wp_get, Prog.wp_bind, wp_onVm]
  refine wp_doExit h.vm hbad hcur (fun mm hm => h.owned i mm (hmm.trans hm)) fun vm' role' hvm hev => ?_
  rw [Prog.wp_bind, wp_setTask, Prog.wp_pure]
  refine hq _ role' _ (h.drop hvm hev ht true) ?_
  refine Sys.eager_put (Sys.memory_put fun j mm hj hm v => hev.view _ v (h.root hm) ?_)
  rintro ⟨mm', hm', he⟩
  exact hj (h.apart j i mm mm' hm (hmm.trans hm') he)

-- The tasks stay what they are.
theorem SysInv.evolve (h : SysInv s managed role space) (hvm : VmInv vm' managed role' space)
    (hev : Evolves s.vm vm' role role' fun _ => False) :
    SysInv { s with vm := vm' } managed role' space ∧ Sys.memory { s with vm := vm' } = s.memory := by
  refine ⟨⟨hvm, h.owned, h.owner, h.apart, fun i k hk => h.others_stack hev hk, h.single, h.zombie, h.stack⟩, ?_⟩
  funext i
  rw [Sys.memory_mm, Sys.memory_mm]
  show (s.mm i).map _ = _
  cases hmm : s.mm i with
  | none => rw [Option.map_none, Option.map_none]
  | some mm =>
      rw [Option.map_some, Option.map_some]
      exact congrArg some (funext fun v => pageOf_congr (hev.view _ v (h.root hmm) id))

theorem Forked.vmas {m m' : Option MmStruct} (h : Forked s.vm vm' space m m' space') :
    m'.map MmStruct.mmapList = m.map MmStruct.mmapList := by
  cases h with
  | none => rfl
  | some fresh list own view => exact congrArg Option.some list

-- The child of fork sees what the parent sees.
theorem SysInv.wp_fork {child : Nat} {room : List Bool} (h : SysInv s managed role space) (hbad : bad .tail)
    (ht : s.task i = some t) (hchild : s.task child = none)
    (hfull : ∀ s', s.nrProcess ≥ MAX_PROCESS → SysInv s' managed role space → s'.task = s.task → s'.eager = s.eager →
      Q (.done (-E_NO_FREE_PROC)) s')
    (hok : ∀ s' role' space' k mm', s.nrProcess < MAX_PROCESS → SysInv s' managed role' space' →
      s'.task = Function.update s.task child
        (some ⟨some k, mm', mm'.map MmStruct.pgdir, copyThread k stack t.tf, false⟩) →
      mm'.map MmStruct.mmapList = t.mm.map MmStruct.mmapList → s'.eager = s.eager.fork i child → Q (.done 0) s')
    (hfail : ∀ s' role', s.nrProcess < MAX_PROCESS → ¬bad .noMem → SysInv s' managed role' space →
      s'.task = s.task → s'.eager = s.eager → Q (.done (-E_NO_MEM)) s') :
    Prog.wp bad (step (.fork i child stack room)) s Q E := by
  have h₀ := h.room room
  have hmm : ∀ vm, Sys.mm { s with vm := vm } i = t.mm := fun vm => Sys.mm_eq ht
  have hput : ∀ vm, Sys.put { s with vm := vm } vm i (some t) = { s with vm := vm } := fun vm => Sys.put_self ht
  simp only [step, Act.task, Prog.wp_bind, Prog.wp_get, ht, Prog.wp_modify, wp_onVm]
  refine wp_doFork h₀.vm hbad (fun mm hm => h₀.owned i mm ((hmm _).trans hm)) (fun hnr => ?_)
    (fun vm' role' space' k mm' hnr hfree hstack hfork hvm hev => ?_) fun vm' role' hnr hno hvm hev => ?_
  · simp only [wp_setTask, Prog.wp_pure, hput]
    exact hfull _ hnr h₀ rfl rfl
  · simp only [wp_setTask, Prog.wp_pure, Prog.wp_bind, Prog.wp_modify, hput]
    obtain ⟨hinv, hmem⟩ := h₀.born (mm'.map MmStruct.pgdir) (copyThread k stack t.tf) hchild (hmm _) hfree
      hstack hfork hvm hev
    refine hok _ _ _ k mm' hnr (hinv.number _) rfl hfork.vmas ?_
    have heager := Sys.eager_put hmem
    exact congrArg (fun m : Eager => { m with nrProcess := s.nrProcess + 1 }) heager
  · simp only [wp_setTask, Prog.wp_pure, hput]
    obtain ⟨hinv, hmem⟩ := h₀.evolve hvm hev
    exact hfail _ role' hnr hno hinv rfl (congrArg (fun m => (⟨m, s.life, s.idleproc, s.initproc, s.nrProcess⟩ : Eager)) hmem)

-- An access may change the cached vma of the process.
theorem SysInv.cached (h : SysInv s managed role space) (ht : s.task i = some t) (hmm : t.mm = some mm)
    (hsame : SameMm mm mm') : SysInv (s.put s.vm i (some { t with mm := some mm' })) managed role space ∧
      (s.put s.vm i (some { t with mm := some mm' })).eager = s.eager := by
  refine ⟨h.same h.vm ht hmm hsame fun _ _ hp => hp, ?_⟩
  have hmem := Sys.memory_put (s := s) (i := i) (o := some { t with mm := some mm' }) fun _ _ _ _ _ => rfl
  rw [Option.bind_some, Option.map_some, hsame.pgdir, ← Sys.memory_eq ht hmm] at hmem
  rw [Sys.eager_put hmem, Function.update_eq_self]
  have hlife : lifeOf (some { t with mm := some mm' }) = s.life i := (Sys.life_eq ht).symm
  rw [hlife, Function.update_eq_self]
  rfl

-- A load returns a byte of the memory of the process or ends it.
theorem SysInv.wp_load (h : SysInv s managed role space) (hbad : bad .tail) (ht : s.task i = some t)
    (hmm : t.mm = some mm) (hcur : s.current i ≠ .other → Asserts E)
    (hload : ∀ s' role' space' p, s.memory.page i addr = some p → p.readable = true → SysInv s' managed role' space' →
      s'.eager = s.eager → Q (.byte (p.words.byte (addr % PGSIZE))) s')
    (hrefuse : ∀ s' role' space', (∀ p, s.memory.page i addr = some p → p.readable = false) →
      SysInv s' managed role' space' → s'.eager = s.eager.kill i → Q .killed s')
    (hfail : ∀ s' role' space', ¬bad .noMem → SysInv s' managed role' space' → s'.eager = s.eager.kill i →
      Q .killed s') :
    Prog.wp bad (step (.load i addr)) s Q E := by
  have hi : s.mm i = some mm := (Sys.mm_eq ht).trans hmm
  have hpage : s.memory.page i addr = pageOf s.vm.mem mm.pgdir (addr / PGSIZE) := Sys.memory_page ht hmm
  have hput : ∀ mm', (s.put s.vm i (some { t with mm := some mm' })).task i = some { t with mm := some mm' } := by
    intro mm'
    rw [Sys.put_task, if_pos rfl]
  simp only [step, Act.task, Prog.wp_bind, Prog.wp_get, ht, hmm, wp_onVm]
  refine wp_userLoad h.vm (h.owned i mm hi) (fun w hw hread => ?_) (fun mm' hsame hno => ?_) fun mm' hno hsame => ?_
  · simp only [wp_setTask, Prog.wp_pure]
    obtain ⟨p, hp, rfl⟩ := pageOf_some hw
    obtain ⟨hinv, heager⟩ := h.cached ht hmm ⟨rfl, rfl, rfl, rfl, rfl, (h.owned i mm hi).cache⟩
    exact hload _ role space p (hpage.trans hp) hread hinv heager
  · simp only [wp_setTask]
    obtain ⟨hinv, heager⟩ := h.cached ht hmm hsame
    refine hinv.wp_kill hbad (hput mm') hcur fun s' role' space' hinv' heager' => ?_
    refine hrefuse s' role' space' (fun p hp => ?_) hinv' (by rw [heager', heager])
    exact Bool.eq_false_iff.mpr (hno p.view (view_of_pageOf (hpage.symm.trans hp)))
  · simp only [wp_setTask]
    obtain ⟨hinv, heager⟩ := h.cached ht hmm hsame
    refine hinv.wp_kill hbad (hput mm') hcur fun s' role' space' hinv' heager' => ?_
    exact hfail s' role' space' hno hinv' (by rw [heager', heager])

-- A store changes a byte of the memory of the process or ends it.
theorem SysInv.stored (h : SysInv s managed role space) (ht : s.task i = some t) (hmm : t.mm = some mm)
    {w : View} (hw : view s.vm.mem mm.pgdir (addr / PGSIZE) = some w)
    (hst : Stored s.vm vm' role role' mm.pgdir (addr / PGSIZE) (addr % PGSIZE) value w) (hsame : SameMm mm mm') :
    (s.put vm' i (some { t with mm := some mm' })).eager = s.eager.write i addr value := by
  have hi : s.mm i = some mm := (Sys.mm_eq ht).trans hmm
  have hmem := Sys.memory_put (s := s) (o := some { t with mm := some mm' }) fun j mm₁ hj hm v =>
    hst.rest _ v (h.root hm) fun hno => hj (h.apart j i mm₁ mm hm hi hno.1)
  rw [Sys.eager_put hmem, Eager.write, Memories.write]
  have hlife : lifeOf (some { t with mm := some mm' }) = s.life i := (Sys.life_eq ht).symm
  rw [hlife, Function.update_eq_self, Option.bind_some, Option.map_some, hsame.pgdir]
  have hpage : pageOf vm'.mem mm.pgdir = Function.update (pageOf s.vm.mem mm.pgdir) (addr / PGSIZE)
      ((pageOf s.vm.mem mm.pgdir (addr / PGSIZE)).map fun p =>
        { p with words := p.words.write (addr % PGSIZE) 1 fun _ => value }) := by
    funext v
    rw [Function.update_apply]
    split_ifs with hv
    · obtain ⟨p, hp, rfl⟩ := pageOf_some hw
      rw [hv, hp, Option.map_some]
      have hpage := hst.page
      rw [view_pageOf] at hpage
      exact Option.map_injective (fun _ _ => Private.view_inj) (hpage.trans rfl)
    · exact pageOf_congr (hst.rest _ v (h.root hi) fun hno => hv hno.2)
  have hold : s.eager.memory i = some (pageOf s.vm.mem mm.pgdir) := Sys.memory_eq ht hmm
  rw [hold, hpage]
  rfl

theorem SysInv.wp_store (h : SysInv s managed role space) (hbad : bad .tail) (ht : s.task i = some t)
    (hmm : t.mm = some mm) (hcur : s.current i ≠ .other → Asserts E)
    (hstore : ∀ s' role' space' p, s.memory.page i addr = some p → p.writable = true → SysInv s' managed role' space' →
      s'.eager = s.eager.write i addr value → Q (.done 0) s')
    (hrefuse : ∀ s' role' space', (∀ p, s.memory.page i addr = some p → p.writable = false) →
      SysInv s' managed role' space' → s'.eager = s.eager.kill i → Q .killed s')
    (hfail : ∀ s' role' space', ¬bad .noMem → SysInv s' managed role' space' → s'.eager = s.eager.kill i →
      Q .killed s') :
    Prog.wp bad (step (.store i addr value)) s Q E := by
  have hi : s.mm i = some mm := (Sys.mm_eq ht).trans hmm
  have hpage : s.memory.page i addr = pageOf s.vm.mem mm.pgdir (addr / PGSIZE) := Sys.memory_page ht hmm
  have hput : ∀ mm', (s.put s.vm i (some { t with mm := some mm' })).task i = some { t with mm := some mm' } := by
    intro mm'
    rw [Sys.put_task, if_pos rfl]
  simp only [step, Act.task, Prog.wp_bind, Prog.wp_get, ht, hmm, wp_onVm]
  refine wp_userStore h.vm (h.owned i mm hi) (fun vm' role' mm' w hw hwrite hvm hst hsame => ?_)
    (fun mm' hsame hno => ?_) fun mm' hno hsame => ?_
  · simp only [wp_setTask, Prog.wp_pure]
    obtain ⟨p, hp, hview⟩ := pageOf_some hw
    rw [← hview] at hwrite
    exact hstore _ role' space p (hpage.trans hp) hwrite
      (h.same hvm ht hmm hsame fun p b hp => (hst.keep p (by rw [hp]; simp)).trans hp) (h.stored ht hmm hw hst hsame)
  · simp only [wp_setTask]
    obtain ⟨hinv, heager⟩ := h.cached ht hmm hsame
    refine hinv.wp_kill hbad (hput mm') hcur fun s' role' space' hinv' heager' => ?_
    refine hrefuse s' role' space' (fun p hp => ?_) hinv' (by rw [heager', heager])
    exact Bool.eq_false_iff.mpr (hno p.view (view_of_pageOf (hpage.symm.trans hp)))
  · simp only [wp_setTask]
    obtain ⟨hinv, heager⟩ := h.cached ht hmm hsame
    refine hinv.wp_kill hbad (hput mm') hcur fun s' role' space' hinv' heager' => ?_
    exact hfail s' role' space' hno hinv' (by rw [heager', heager])

-- The end of a zombie gives its kernel stack back.
theorem SysInv.wp_reap (h : SysInv s managed role space) (hbad : bad .tail) (ht : s.task i = some t)
    (hz : t.zombie = true) (hcur : s.current i ≠ .other → Asserts E)
    (hq : ∀ s' role', SysInv s' managed role' space → s'.eager = s.eager.reap i → Q (.done 0) s') :
    Prog.wp bad (step (.reap i)) s Q E := by
  simp only [step, Act.task, Prog.wp_bind, Prog.wp_get, ht]
  by_cases hother : s.current i = .other
  · obtain ⟨k, hk⟩ := Option.isSome_iff_exists.mp (h.stack i t ht hother)
    have hks : s.kstack i = some k := (Sys.kstack_eq ht).trans hk
    have h₀ := h.number (s.nrProcess - 1)
    simp only [hother, ne_eq, not_true_eq_false, if_false, hk, Prog.wp_bind, Prog.wp_modify, wp_onVm]
    refine wp_putKstack h.vm hbad (h.kstack i k hks) fun vm' role' hd hvm => ?_
    simp only [wp_setTask, Prog.wp_pure]
    refine hq _ role' (h₀.reaped ht hz hk hvm hd) ?_
    have hmem := Sys.memory_put (s := { s with nrProcess := s.nrProcess - 1 }) (i := i) (o := none)
      fun j mm _ _ v => (by rw [hd.mem])
    exact Sys.eager_put hmem
  · rw [if_pos hother]
    exact Prog.wp_halt.mpr (hcur hother _ (by decide))

-- The process that a step makes
def Act.child : Act → Option Nat
  | .fork _ child _ _ => some child
  | _ => none

theorem wp_onVm_true {x : M α} {Q : α → Sys → Prop} (hq : ∀ a vm, Q a { s with vm := vm }) :
    Prog.wp bad (onVm x) s Q (fun _ => True) :=
  wp_onVm.mpr (Prog.wp_mono Prog.wp_true (fun a vm _ => hq a vm) fun _ _ => trivial)

theorem wp_kill_task {Q : Reply → Sys → Prop}
    (hq : ∀ vm o, Q .killed (s.put vm i o)) : Prog.wp bad (kill i t) s Q (fun _ => True) := by
  rw [kill, Prog.wp_bind, Prog.wp_get, Prog.wp_bind]
  refine wp_onVm_true fun task vm => ?_
  rw [Prog.wp_bind, wp_setTask, Prog.wp_pure]
  exact hq vm _

-- A step changes no task but that of its process and its child.
theorem step_tasks (act : Act) (s : Sys) : Prog.wp bad (step act) s
    (fun _ s' => ∀ j, j ≠ act.task → act.child ≠ some j → s'.task j = s.task j) (fun _ => True) := by
  have hput : ∀ {s' : Sys} {i j vm o}, j ≠ i → s'.task j = s.task j → (s'.put vm i o).task j = s.task j := by
    intro s' i j vm o hj hs
    rw [Sys.put_task, if_neg hj, hs]
  cases ht : s.task act.task with
  | none =>
      simp only [step, Prog.wp_bind, Prog.wp_get, ht, Prog.wp_pure]
      exact fun _ _ _ => trivial
  | some t =>
      simp only [step, Prog.wp_bind, Prog.wp_get, ht]
      cases act with
      | fork i child stack room =>
          rw [Prog.wp_bind, Prog.wp_modify, Prog.wp_bind]
          refine wp_onVm_true fun r vm => ?_
          obtain ⟨ret, born, parent⟩ := r
          simp only [Prog.wp_bind, wp_setTask]
          cases born with
          | none =>
              rw [Prog.wp_pure]
              exact fun j hj _ => hput hj rfl
          | some newTask =>
              simp only [Prog.wp_bind, wp_setTask, Prog.wp_modify, Prog.wp_pure]
              exact fun j hj hchild => hput (fun he => hchild (congrArg some he.symm)) (hput hj rfl)
      | exec i name len img room =>
          rw [Prog.wp_bind, Prog.wp_modify, Prog.wp_bind]
          refine wp_onVm_true fun r vm => ?_
          simp only [Prog.wp_bind, wp_setTask, Prog.wp_pure]
          exact fun j hj _ => hput hj rfl
      | exit i => exact wp_kill_task fun vm o j hj _ => hput hj rfl
      | load i addr =>
          cases t.mm with
          | none =>
              rw [Prog.wp_pure]
              exact fun _ _ _ => rfl
          | some mm =>
              rw [Prog.wp_bind]
              refine wp_onVm_true fun r vm => ?_
              obtain ⟨value, mm'⟩ := r
              simp only [Prog.wp_bind, wp_setTask]
              cases value with
              | none => exact wp_kill_task fun vm o j hj _ => hput hj (hput hj rfl)
              | some value =>
                  rw [Prog.wp_pure]
                  exact fun j hj _ => hput hj rfl
      | store i addr value =>
          cases t.mm with
          | none =>
              rw [Prog.wp_pure]
              exact fun _ _ _ => rfl
          | some mm =>
              rw [Prog.wp_bind]
              refine wp_onVm_true fun r vm => ?_
              obtain ⟨value, mm'⟩ := r
              simp only [Prog.wp_bind, wp_setTask]
              cases value with
              | none => exact wp_kill_task fun vm o j hj _ => hput hj (hput hj rfl)
              | some value =>
                  rw [Prog.wp_pure]
                  exact fun j hj _ => hput hj rfl
      | code i addr value =>
          cases t.mm with
          | none =>
              rw [Prog.wp_pure]
              exact fun _ _ _ => rfl
          | some mm =>
              rw [Prog.wp_bind]
              refine wp_onVm_true fun r vm => ?_
              rw [Prog.wp_pure]
              exact fun _ _ _ => rfl
      | reap i =>
          simp only [Prog.wp_ite, Prog.wp_halt, implies_true, true_and]
          intro _
          cases t.kstack with
          | none =>
              rw [Prog.wp_pure]
              exact fun _ _ _ => rfl
          | some kstack =>
              rw [Prog.wp_bind, Prog.wp_modify, Prog.wp_bind]
              refine wp_onVm_true fun _ vm => ?_
              simp only [Prog.wp_bind, wp_setTask, Prog.wp_pure]
              exact fun j hj _ => hput hj rfl

theorem Sys.memory_some (h : (s.memory i).isSome) : ∃ t mm, s.task i = some t ∧ t.mm = some mm := by
  obtain ⟨m, hm⟩ := Option.isSome_iff_exists.mp h
  rw [Sys.memory_mm, Option.map_eq_some_iff] at hm
  obtain ⟨mm, hmm, _⟩ := hm
  obtain ⟨t, ht, hm⟩ := Option.bind_eq_some_iff.mp hmm
  exact ⟨t, mm, ht, hm⟩

theorem Sys.current_other (hidle : i ≠ s.idleproc) (hinit : i ≠ s.initproc) : s.current i = .other := by
  rw [Sys.current, if_neg hidle, if_neg hinit]

theorem Sys.alive (h : s.eager.Alive i) : (∃ t mm, s.task i = some t ∧ t.mm = some mm) ∧ s.current i = .other :=
  ⟨Sys.memory_some h.1, Sys.current_other h.2.1 h.2.2⟩

theorem Sys.life_absent (h : s.life i = .absent) : s.task i = none := by
  unfold Sys.life lifeOf at h
  cases ht : s.task i with
  | none => rfl
  | some t =>
      simp only [ht] at h
      split_ifs at h

theorem Sys.life_zombie (h : s.life i = .zombie) : ∃ t, s.task i = some t ∧ t.zombie = true := by
  unfold Sys.life lifeOf at h
  cases ht : s.task i with
  | none =>
      simp only [ht] at h
      cases h
  | some t =>
      simp only [ht] at h
      split_ifs at h with hz
      exact ⟨t, rfl, hz⟩

-- One step of the system and of the reference
theorem SysInv.wp_match {act : Act} (h : SysInv s managed role space) (hbad : bad .tail) (hmem : bad .noMem)
    (hall : s.eager.Allowed act) :
    Prog.wp bad (step act) s
      (fun reply s' => (∃ role' space', SysInv s' managed role' space') ∧ (reply, s'.eager) = s.eager.step act) E := by
  have hspecial : ∀ {j}, s.current j = .other → s.current j ≠ .other → Asserts E := fun h hno =>
    absurd h hno
  cases act with
  | fork i child stack room =>
      obtain ⟨⟨t, mm, ht, _⟩, _⟩ := Sys.alive hall.1
      have hnr : s.eager.nrProcess = s.nrProcess := rfl
      refine h.wp_fork hbad ht (Sys.life_absent hall.2) (fun s' hfull h' _ he => ⟨⟨role, space, h'⟩, ?_⟩)
        (fun s' role' space' _ _ hlt h' _ _ he => ⟨⟨role', space', h'⟩, ?_⟩) fun _ _ _ hno => absurd hmem hno
      · rw [he, Eager.step, if_pos (hnr ▸ hfull)]
      · rw [he, Eager.step, if_neg (hnr ▸ not_le.mpr hlt)]
  | exit i =>
      obtain ⟨⟨t, mm, ht, _⟩, hother⟩ := Sys.alive hall
      simp only [step, Act.task, Prog.wp_bind, Prog.wp_get, ht]
      exact h.wp_kill hbad ht (hspecial hother) fun s' role' space' h' he => ⟨⟨role', space', h'⟩, by rw [he]; rfl⟩
  | load i addr =>
      obtain ⟨⟨t, mm, ht, hmm⟩, hother⟩ := Sys.alive hall
      have hpage : s.eager.memory.page i addr = s.memory.page i addr := rfl
      refine h.wp_load hbad ht hmm (hspecial hother) (fun s' role' space' p hp hread h' he => ⟨⟨role', space', h'⟩, ?_⟩)
        (fun s' role' space' hno h' he => ⟨⟨role', space', h'⟩, ?_⟩) fun _ _ _ hno => absurd hmem hno
      · simp only [Eager.step, hpage, hp, if_pos hread, he]
      · simp only [Eager.step, hpage]
        cases hp : s.memory.page i addr with
        | none => rw [he]
        | some p => simp only [hno p hp, Bool.false_eq_true, if_false, he]
  | store i addr value =>
      obtain ⟨⟨t, mm, ht, hmm⟩, hother⟩ := Sys.alive hall
      have hpage : s.eager.memory.page i addr = s.memory.page i addr := rfl
      refine h.wp_store hbad ht hmm (hspecial hother) (fun s' role' space' p hp hwrite h' he => ⟨⟨role', space', h'⟩, ?_⟩)
        (fun s' role' space' hno h' he => ⟨⟨role', space', h'⟩, ?_⟩) fun _ _ _ hno => absurd hmem hno
      · simp only [Eager.step, hpage, hp, if_pos hwrite, he]
      · simp only [Eager.step, hpage]
        cases hp : s.memory.page i addr with
        | none => rw [he]
        | some p => simp only [hno p hp, Bool.false_eq_true, if_false, he]
  | reap i =>
      obtain ⟨hzombie, hidle, hinit⟩ := hall
      obtain ⟨t, ht, hz⟩ := Sys.life_zombie hzombie
      exact h.wp_reap hbad ht hz (hspecial (Sys.current_other hidle hinit)) fun s' role' h' he => ⟨⟨role', space, h'⟩, by rw [he]; rfl⟩
  | exec i name len img room => exact hall.elim
  | code i addr value => exact hall.elim

-- A run of the system and of the reference
theorem SysInv.wp_steps {acts : List Act} (h : SysInv s managed role space) (hbad : bad .tail) (hmem : bad .noMem)
    (hlegal : s.eager.Legal acts) :
    Prog.wp bad (steps acts) s (fun replies s' => (replies, s'.eager) = s.eager.steps acts) (fun _ => False) := by
  induction acts generalizing s role space with
  | nil =>
      rw [steps, Prog.wp_pure]
      rfl
  | cons act acts ih =>
      rw [steps, Prog.wp_bind]
      refine Prog.wp_conseq (h.wp_match hbad hmem hlegal.1) fun reply s' ⟨⟨role', space', h'⟩, he⟩ => ?_
      have heager : s'.eager = (s.eager.step act).2 := congrArg Prod.snd he
      rw [Prog.wp_bind]
      refine Prog.wp_conseq (ih h' (by rw [heager]; exact hlegal.2)) fun replies s'' he' => ?_
      rw [Prog.wp_pure, Eager.steps, ← he]
      simp only [← he']

end Ucore.Mm
