import Ucore.Mm.Eager

namespace Ucore.Mm

open Lib Pmm

-- The mm and the kernel stack of a process, if it has them
def Sys.mm (s : Sys) (i : Nat) : Option MmStruct := (s.task i).bind Task.mm

def Sys.kstack (s : Sys) (i : Nat) : Option Nat := (s.task i).bind Task.kstack

-- The processes of a memory system: each has its address space for itself, and every
-- address space belongs to one.
structure SysInv (s : Sys) (managed : Finset Nat) (role : Nat → Role)
    (space : Nat → Option (List VmaStruct)) : Prop where
  vm : VmInv s.vm managed role space
  owned : ∀ i mm, s.mm i = some mm → Owned space mm
  owner : ∀ r, (space r).isSome → ∃ i mm, s.mm i = some mm ∧ mm.pgdir = r
  apart : ∀ i j mm mm', s.mm i = some mm → s.mm j = some mm' → mm.pgdir = mm'.pgdir → i = j
  kstack : ∀ i k, s.kstack i = some k → role k = .kstack k ∧ role (k + 1) = .kstack k
  single : ∀ i j k, s.kstack i = some k → s.kstack j = some k → i = j
  zombie : ∀ i t, s.task i = some t → t.zombie = true → t.mm = none
  stack : ∀ i t, s.task i = some t → s.current i = .other → t.kstack.isSome

variable {s : Sys} {vm' : VM} {managed : Finset Nat} {role role' : Nat → Role}
  {child i j k r stack : Nat} {mm mm' : MmStruct} {space space' : Nat → Option (List VmaStruct)}
  {t : Task} {o : Option Task} {R : Nat → Prop}

namespace Sys

theorem mm_eq (ht : s.task i = some t) : s.mm i = t.mm := by
  rw [mm, ht, Option.bind_some]

theorem kstack_eq (ht : s.task i = some t) : s.kstack i = t.kstack := by
  rw [kstack, ht, Option.bind_some]

theorem memory_mm (s : Sys) (i : Nat) : s.memory i = (s.mm i).map fun mm => pageOf s.vm.mem mm.pgdir := by
  unfold memory mm
  cases s.task i <;> rfl

-- One task is another one.
def put (s : Sys) (vm : VM) (i : Nat) (o : Option Task) : Sys :=
  { s with vm := vm, task := Function.update s.task i o }

theorem put_task (j : Nat) : (s.put vm' i o).task j = if j = i then o else s.task j :=
  Function.update_apply ..

theorem put_mm (j : Nat) : (s.put vm' i o).mm j = if j = i then o.bind Task.mm else s.mm j := by
  rw [mm, put_task]
  split_ifs <;> rfl

theorem put_kstack (j : Nat) :
    (s.put vm' i o).kstack j = if j = i then o.bind Task.kstack else s.kstack j := by
  rw [kstack, put_task]
  split_ifs <;> rfl

theorem put_vm : (s.put vm' i o).vm = vm' := rfl

theorem put_self (ht : s.task i = some t) : s.put vm' i (some t) = { s with vm := vm' } := by
  unfold put
  rw [← ht, Function.update_eq_self]

theorem put_life : (s.put vm' i o).life = Function.update s.life i (lifeOf o) := by
  funext j
  rw [life, put_task, Function.update_apply]
  split_ifs <;> rfl

theorem eager_put {m : Option (Nat → Option Private)} (hmem : (s.put vm' i o).memory = Function.update s.memory i m) :
    (s.put vm' i o).eager = { s.eager with
      memory := Function.update s.memory i m
      life := Function.update s.life i (lifeOf o) } := by
  unfold eager
  rw [hmem, put_life]
  rfl

theorem life_eq (ht : s.task i = some t) : s.life i = if t.zombie then .zombie else .live := by
  rw [life, ht]
  rfl

-- What the others see does not change.
theorem memory_put (hview : ∀ j mm, j ≠ i → s.mm j = some mm → ∀ v, view vm'.mem mm.pgdir v = view s.vm.mem mm.pgdir v) :
    (s.put vm' i o).memory =
      Function.update s.memory i ((o.bind Task.mm).map fun mm => pageOf vm'.mem mm.pgdir) := by
  funext j
  rw [memory_mm, put_mm, put_vm, Function.update_apply]
  by_cases hj : j = i
  · rw [if_pos hj, if_pos hj]
  · rw [if_neg hj, if_neg hj, memory_mm]
    cases hmm : s.mm j with
    | none => rw [Option.map_none, Option.map_none]
    | some mm =>
        have hpage : pageOf vm'.mem mm.pgdir = pageOf s.vm.mem mm.pgdir :=
          funext fun v => pageOf_congr (hview j mm hj hmm v)
        rw [Option.map_some, Option.map_some, hpage]

end Sys

namespace SysInv

theorem room (h : SysInv s managed role space) (room : List Bool) :
    SysInv { s with vm := { s.vm with room := room } } managed role space := by
  have hr := h.vm.rep
  have hvm : VmInv { s.vm with room := room } managed role space :=
    h.vm.reuse ⟨hr.tree, hr.list, hr.other, hr.ref, hr.used, hr.lock, hr.heap⟩ (fun _ => Iff.rfl) fun _ _ _ _ => rfl
  exact ⟨hvm, h.owned, h.owner, h.apart, h.kstack, h.single, h.zombie, h.stack⟩

-- The number of processes says nothing about memory.
theorem number (h : SysInv s managed role space) (n : Int) : SysInv { s with nrProcess := n } managed role space :=
  ⟨h.vm, h.owned, h.owner, h.apart, h.kstack, h.single, h.zombie, h.stack⟩

theorem root (h : SysInv s managed role space) (hmm : s.mm i = some mm) : role mm.pgdir = .root :=
  h.vm.root_of (h.owned i mm hmm).space

-- Process `i` gets another address space or none, while the others keep theirs.
theorem put (h : SysInv s managed role space) (hvm : VmInv vm' managed role' space')
    (hown : ∀ mm, o.bind Task.mm = some mm → Owned space' mm)
    (hnew : ∀ mm, o.bind Task.mm = some mm → space mm.pgdir = none ∨ ∃ mm', s.mm i = some mm' ∧ mm.pgdir = mm'.pgdir)
    (hspace : ∀ r, (∀ mm, o.bind Task.mm = some mm → mm.pgdir ≠ r) →
      space' r = if ∃ mm, s.mm i = some mm ∧ mm.pgdir = r then none else space r)
    (hkstack : ∀ k, o.bind Task.kstack = some k → role' k = .kstack k ∧ role' (k + 1) = .kstack k)
    (hstacks : ∀ j k, j ≠ i → s.kstack j = some k → o.bind Task.kstack ≠ some k ∧
      role' k = .kstack k ∧ role' (k + 1) = .kstack k)
    (hzombie : ∀ t, o = some t → t.zombie = true → t.mm = none)
    (hstack : ∀ t, o = some t → s.current i = .other → t.kstack.isSome) :
    SysInv (s.put vm' i o) managed role' space' := by
  -- the root of another process is neither the new nor the old one
  have hother : ∀ j mm, j ≠ i → s.mm j = some mm → (∀ mm', o.bind Task.mm = some mm' → mm'.pgdir ≠ mm.pgdir) ∧
      ¬∃ mm', s.mm i = some mm' ∧ mm'.pgdir = mm.pgdir := by
    intro j mm hj hmm
    have hno : ¬∃ mm', s.mm i = some mm' ∧ mm'.pgdir = mm.pgdir := by
      rintro ⟨mm', hmm', he⟩
      exact hj (h.apart j i mm mm' hmm hmm' he.symm)
    refine ⟨fun mm' hmm' he => ?_, hno⟩
    rcases hnew mm' hmm' with hnone | ⟨old, hold, he'⟩
    · rw [he, (h.owned j mm hmm).space] at hnone
      cases hnone
    · exact hno ⟨old, hold, he'.symm.trans he⟩
  refine ⟨hvm, fun j mm hmm => ?_, fun r hr => ?_, fun j j' mm mm' hmm hmm' he => ?_, fun j k hk => ?_,
    fun j j' k hk hk' => ?_, fun j t ht hz => ?_, fun j t ht hcur => ?_⟩
  · rw [Sys.put_mm] at hmm
    split_ifs at hmm with hj
    · exact hown mm hmm
    · obtain ⟨hne, hno⟩ := hother j mm hj hmm
      have ho := h.owned j mm hmm
      refine ⟨?_, ho.cache, ho.count, ho.lock⟩
      rw [hspace mm.pgdir hne, if_neg hno, ho.space]
  · by_cases hin : ∃ mm, o.bind Task.mm = some mm ∧ mm.pgdir = r
    · obtain ⟨mm, hmm, he⟩ := hin
      exact ⟨i, mm, by rw [Sys.put_mm, if_pos rfl, hmm], he⟩
    · rw [hspace r fun mm hmm he => hin ⟨mm, hmm, he⟩] at hr
      split_ifs at hr with hold
      · cases hr
      · obtain ⟨j, mm, hmm, he⟩ := h.owner r hr
        have hj : j ≠ i := by
          rintro rfl
          exact hold ⟨mm, hmm, he⟩
        exact ⟨j, mm, by rw [Sys.put_mm, if_neg hj, hmm], he⟩
  · rw [Sys.put_mm] at hmm hmm'
    split_ifs at hmm with hj <;> split_ifs at hmm' with hj'
    · rw [hj, hj']
    · exact absurd he ((hother j' mm' hj' hmm').1 mm hmm)
    · exact absurd he.symm ((hother j mm hj hmm).1 mm' hmm')
    · exact h.apart j j' mm mm' hmm hmm' he
  · rw [Sys.put_kstack] at hk
    split_ifs at hk with hj
    · exact hkstack k hk
    · exact (hstacks j k hj hk).2
  · rw [Sys.put_kstack] at hk hk'
    split_ifs at hk with hj <;> split_ifs at hk' with hj'
    · rw [hj, hj']
    · exact absurd hk (hstacks j' k hj' hk').1
    · exact absurd hk' (hstacks j k hj hk).1
    · exact h.single j j' k hk hk'
  · rw [Sys.put_task] at ht
    split_ifs at ht with hj
    · exact hzombie t ht hz
    · exact h.zombie j t ht hz
  · rw [Sys.put_task] at ht
    split_ifs at ht with hj
    · exact hstack t ht (hj ▸ hcur)
    · exact h.stack j t ht hcur

-- The other processes keep their kernel stacks.
theorem others_stack (h : SysInv s managed role space) (hev : Evolves s.vm vm' role role' R) (hk : s.kstack i = some k) :
    role' k = .kstack k ∧ role' (k + 1) = .kstack k :=
  ⟨hev.kstack _ _ (h.kstack i k hk).1, hev.kstack _ _ (h.kstack i k hk).2⟩

-- Process `i` keeps its address space and its kernel stack.
theorem same (h : SysInv s managed role space) (hvm : VmInv vm' managed role' space) (ht : s.task i = some t)
    (hmm : t.mm = some mm) (hsame : SameMm mm mm') (hkeep : ∀ p b, role p = .kstack b → role' p = .kstack b) :
    SysInv (s.put vm' i (some { t with mm := some mm' })) managed role' space := by
  have hold : s.mm i = some mm := (Sys.mm_eq ht).trans hmm
  have hks : ∀ j k, s.kstack j = some k → role' k = .kstack k ∧ role' (k + 1) = .kstack k := by
    intro j k hk
    obtain ⟨hlo, hhi⟩ := h.kstack j k hk
    exact ⟨hkeep _ _ hlo, hkeep _ _ hhi⟩
  refine h.put hvm ?_ ?_ (fun r hr => ?_) (fun k hk => ?_) (fun j k hj hk => ⟨fun hik => ?_, hks j k hk⟩) ?_ ?_
  · rintro _ ⟨⟩
    exact (h.owned i mm hold).same hsame
  · rintro _ ⟨⟩
    exact Or.inr ⟨mm, hold, hsame.pgdir⟩
  · have hne := hr mm' rfl
    rw [if_neg]
    rintro ⟨old, ho, rfl⟩
    rw [hold] at ho
    cases ho
    exact hne hsame.pgdir
  · exact hks i k ((Sys.kstack_eq ht).trans hk)
  · exact hj (h.single j i k hk ((Sys.kstack_eq ht).trans hik))
  · rintro _ ⟨⟩ hz
    have hno := h.zombie i t ht hz
    rw [hmm] at hno
    cases hno
  · rintro _ ⟨⟩ hcur
    exact h.stack i t ht hcur

theorem without_apply (o : Option MmStruct) (r : Nat) :
    without space o r = if ∃ mm, o = some mm ∧ mm.pgdir = r then none else space r := by
  cases o with
  | none => simp [without]
  | some mm =>
      rw [without, Function.update_apply]
      by_cases he : r = mm.pgdir
      · rw [if_pos he, if_pos ⟨mm, rfl, he.symm⟩]
      · rw [if_neg he, if_neg]
        rintro ⟨_, ⟨⟩, hr⟩
        exact he hr.symm

-- Process `i` loses its address space.
theorem drop (h : SysInv s managed role space) (hvm : VmInv vm' managed role' (without space t.mm))
    (hev : Evolves s.vm vm' role role' fun q => ∃ mm, t.mm = some mm ∧ q = mm.pgdir) (ht : s.task i = some t)
    (zombie : Bool) :
    SysInv (s.put vm' i (some { t with mm := none, zombie := zombie })) managed role' (without space t.mm) := by
  have hold : s.mm i = t.mm := Sys.mm_eq ht
  refine h.put hvm ?_ ?_ (fun r hr => ?_) (fun k hk => ?_) (fun j k hj hk => ⟨fun hik => ?_, h.others_stack hev hk⟩) ?_ ?_
  · rintro _ ⟨⟩
  · rintro _ ⟨⟩
  · rw [hold]
    exact without_apply t.mm r
  · exact h.others_stack hev ((Sys.kstack_eq ht).trans hk)
  · exact hj (h.single j i k hk ((Sys.kstack_eq ht).trans hik))
  · rintro _ ⟨⟩ _
    rfl
  · rintro _ ⟨⟩ hcur
    exact h.stack i t ht hcur

-- A new process has a copy of the address space of `i`.
theorem born (h : SysInv s managed role space) (root : Option Nat) (tf : TrapFrame) (hchild : s.task child = none)
    {m : Option MmStruct} (hmm : s.mm i = m) {o' : Option MmStruct} (hfree : role k = .free ∧ role (k + 1) = .free)
    (hstack : role' k = .kstack k ∧ role' (k + 1) = .kstack k) (hfork : Forked s.vm vm' space m o' space')
    (hvm : VmInv vm' managed role' space') (hev : Evolves s.vm vm' role role' fun _ => False) :
    SysInv (s.put vm' child (some ⟨some k, o', root, tf, false⟩)) managed role' space' ∧
      (s.put vm' child (some ⟨some k, o', root, tf, false⟩)).memory =
        Function.update s.memory child (s.memory i) := by
  have hnone : s.mm child = none := by rw [Sys.mm, hchild, Option.bind_none]
  constructor
  · refine h.put hvm ?_ ?_ (fun r hr => ?_) ?_ (fun j k' hj hk => ⟨?_, h.others_stack hev hk⟩) ?_ ?_
    · rintro mm' hmm'
      cases hfork with
      | none => cases hmm'
      | some fresh list own view =>
          cases hmm'
          exact own
    · rintro mm' hmm'
      cases hfork with
      | none => cases hmm'
      | some fresh list own view =>
          cases hmm'
          exact Or.inl fresh
    · rw [if_neg fun hex => by rw [hnone] at hex; obtain ⟨_, ⟨⟩, _⟩ := hex]
      cases hfork with
      | none => rfl
      | some fresh list own view => exact Function.update_of_ne (Ne.symm (hr _ rfl)) ..
    · rintro k' ⟨⟩
      exact hstack
    · rintro ⟨⟩
      have hk := (h.kstack j k hk).1
      rw [hfree.1] at hk
      cases hk
    · rintro _ ⟨⟩ hz
      cases hz
    · rintro _ ⟨⟩ _
      rfl
  · rw [Sys.memory_put fun j mm _ hj v => hev.view _ v (h.root hj) id]
    congr 1
    rw [Sys.memory_mm, hmm, Option.bind_some]
    cases hfork with
    | none => rw [Option.map_none, Option.map_none]
    | some fresh list own view =>
        rw [Option.map_some, Option.map_some]
        exact congrArg some (funext fun u => pageOf_congr (view u))

-- Process `i` is gone, and its kernel stack is free.
theorem reaped (h : SysInv s managed role space) (ht : s.task i = some t) (hz : t.zombie = true)
    (hk : t.kstack = some k) (hvm : VmInv vm' managed role' space) (hd : DropStack s.vm vm' role role' k) :
    SysInv (s.put vm' i none) managed role' space := by
  have hik : s.kstack i = some k := (Sys.kstack_eq ht).trans hk
  have hnone : s.mm i = none := (Sys.mm_eq ht).trans (h.zombie i t ht hz)
  refine h.put hvm ?_ ?_ (fun r hr => ?_) ?_ (fun j k' hj hk' => ?_) ?_ ?_
  · rintro _ ⟨⟩
  · rintro _ ⟨⟩
  · rw [if_neg fun hex => by rw [hnone] at hex; obtain ⟨_, ⟨⟩, _⟩ := hex]
  · rintro _ ⟨⟩
  · have hno : ¬Option.bind none Task.kstack = some k' := by simp
    refine ⟨hno, ?_⟩
    have hne : k' ≠ k := by
      rintro rfl
      exact hj (h.single j i k' hk' hik)
    have hrole := h.kstack i k hik
    have hrole' := h.kstack j k' hk'
    have hkeep : ∀ q, role q = .kstack k' → role' q = .kstack k' := by
      intro q hq
      rw [hd.role, if_neg, hq]
      rintro (rfl | rfl)
      · rw [hrole.1] at hq
        exact hne (Role.kstack.inj hq).symm
      · rw [hrole.2] at hq
        exact hne (Role.kstack.inj hq).symm
    exact ⟨hkeep k' hrole'.1, hkeep (k' + 1) hrole'.2⟩
  · rintro _ ⟨⟩
  · rintro _ ⟨⟩

end SysInv

end Ucore.Mm
