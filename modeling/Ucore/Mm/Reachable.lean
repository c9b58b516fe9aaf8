import Mathlib.Data.Set.Card
import Ucore.Mm.Runs

namespace Ucore.Mm

open Lib Pmm

variable {s s₀ s' : Sys} {managed : Finset Nat} {role : Nat → Role} {act : Act} {f i j k p r v : Nat}
  {lf : Leaf} {mm : MmStruct} {space : Nat → Option (List VmaStruct)} {t : Task} {reply : Reply}

-- The system behind proc_init: all pages are free, and idleproc is there, without memory of
-- its own.
structure Sys.Booted (s : Sys) (managed : Finset Nat) : Prop where
  list : ∃ l, FreeList s.vm.area managed managed l
  heap : s.vm.heap = []
  task : ∀ i t, s.task i = some t → i = s.idleproc ∧ t.mm = none ∧ t.kstack = none ∧ t.zombie = false

theorem SysInv.boot (h : s.Booted managed) : SysInv s managed (bootRole managed) fun _ => none := by
  obtain ⟨l, hl⟩ := h.list
  have hmm : ∀ i, s.mm i = none := by
    intro i
    cases ht : s.task i with
    | none => rw [Sys.mm, ht, Option.bind_none]
    | some t => rw [Sys.mm_eq ht, (h.task i t ht).2.1]
  have hks : ∀ i, s.kstack i = none := by
    intro i
    cases ht : s.task i with
    | none => rw [Sys.kstack, ht, Option.bind_none]
    | some t => rw [Sys.kstack_eq ht, (h.task i t ht).2.2.1]
  refine ⟨VmInv.boot hl h.heap, fun i mm hm => ?_, fun r hr => ?_, fun i _ mm _ hm => ?_, fun i k hk => ?_,
    fun i _ k hk => ?_, fun i t ht _ => (h.task i t ht).2.1, fun i t ht hcur => ?_⟩
  · rw [hmm] at hm
    cases hm
  · cases hr
  · rw [hmm] at hm
    cases hm
  · rw [hks] at hk
    cases hk
  · rw [hks] at hk
    cases hk
  · rw [Sys.current, if_pos (h.task i t ht).1] at hcur
    cases hcur

-- A segment that wraps around
def Unwrapped : Obs → Prop
  | .segment va memsz => va + memsz < 18446744073709551616
  | _ => True

instance unwrapped_decidable : DecidablePred Unwrapped
  | .tail => inferInstanceAs (Decidable True)
  | .segment va memsz => inferInstanceAs (Decidable (va + memsz < 18446744073709551616))
  | .noMem => inferInstanceAs (Decidable True)
  | .read _ _ => inferInstanceAs (Decidable True)
  | .pte _ _ _ => inferInstanceAs (Decidable True)
  | .fence _ => inferInstanceAs (Decidable True)

-- What else is left out of the runs below: a block that default_free_pages puts behind the
-- last member of its list
def Tame (o : Obs) : Prop := o ≠ .tail ∧ Unwrapped o

instance tame_decidable : DecidablePred Tame := fun o => inferInstanceAs (Decidable (o ≠ .tail ∧ Unwrapped o))

-- A run whose steps note only what is allowed
inductive Run (ok : Obs → Prop) : Sys → Sys → Prop
  | refl (s : Sys) : Run ok s s
  | step {s s' s'' : Sys} {act : Act} {reply : Reply} (run : Run ok s s') (enabled : Enabled s' act)
      (result : (Mm.step act s').result = .ok (reply, s'')) (allowed : ∀ o ∈ (Mm.step act s').log, ok o) : Run ok s s''

theorem not_tame_tail : ¬Tame .tail := fun h => h.1 rfl

theorem careless (E : Halt → Prop) (hE : ∀ text, E (.panic text)) : Careless (fun o => ¬Tame o) E False :=
  ⟨fun text _ => hE text, fun _ _ hle h => absurd h.2 (not_lt.mpr hle), Or.inr (hE _)⟩

def Panics (h : Halt) : Prop := ∃ text, h = .panic text

theorem SysInv.next (h : SysInv s managed role space) (hen : Enabled s act) (hr : (Mm.step act s).result = .ok (reply, s'))
    (htame : ∀ o ∈ (Mm.step act s).log, Tame o) : ∃ role space, SysInv s' managed role space := by
  have hcare := careless Panics fun text => ⟨text, rfl⟩
  have hstep := h.wp_step not_tame_tail (fun _ => hcare) hen
    (Q := fun _ s' => ∃ role space, SysInv s' managed role space) fun _ s' role' space' h' _ => ⟨role', space', h'⟩
  exact Prog.wp_ok hstep (fun o ho hno => hno (htame o ho)) hr

theorem Run.inv (hboot : s₀.Booted managed) (hrun : Run Tame s₀ s) : ∃ role space, SysInv s managed role space := by
  induction hrun with
  | refl => exact ⟨_, _, SysInv.boot hboot⟩
  | step run enabled result tame ih =>
      obtain ⟨role, space, h⟩ := ih
      exact h.next enabled result tame

section Frames

-- Process `i` has this leaf for its page `v`.
def Sys.Maps (s : Sys) (i v : Nat) (lf : Leaf) : Prop :=
  ∃ mm, s.mm i = some mm ∧ v < UPAGES ∧ leaf s.vm.mem mm.pgdir v = some lf

-- The frames of the processes are counted and nothing else besides.
structure Sys.Coherent (s : Sys) : Prop where
  counted : ∀ i v lf, s.Maps i v lf → ∃ n : ℕ, (s.vm.area.pages lf.frame).ref = n ∧
    {x : ℕ × ℕ | ∃ lf', s.Maps x.1 x.2 lf' ∧ lf'.frame = lf.frame}.encard = n
  free : ∀ i v lf, s.Maps i v lf → ¬OnFreeList s.vm.area lf.frame
  table : ∀ i v lf j mm, s.Maps i v lf → s.mm j = some mm → ¬TableOf s.vm.mem mm.pgdir lf.frame
  kstack : ∀ i v lf j k, s.Maps i v lf → s.kstack j = some k → lf.frame ≠ k ∧ lf.frame ≠ k + 1
  heap : ∀ i v lf, s.Maps i v lf → lf.frame ∉ s.vm.heap
  shared : ∀ i v lf, s.Maps i v lf → 2 ≤ (s.vm.area.pages lf.frame).ref → lf.perm &&& PTE_W = 0
  once : ∀ i v lf, s.Maps i v lf → lf.perm &&& PTE_W = 0 ∨ lf.perm &&& PTE_COW = 0
  apart : ∀ i j mm mm' p, s.mm i = some mm → s.mm j = some mm' → TableOf s.vm.mem mm.pgdir p →
    TableOf s.vm.mem mm'.pgdir p → i = j

-- Each process has its mm for itself, with sorted vmas, and its leaves grant what these do.
structure Sys.Guarded (s : Sys) : Prop where
  vma : ∀ i mm vma, s.mm i = some mm → vma ∈ mm.mmapList → vma.Ok
  sorted : ∀ i mm, s.mm i = some mm → mm.mmapList.Pairwise fun a b => a.vmEnd ≤ b.vmStart
  leaf : ∀ i mm v lf, s.mm i = some mm → s.Maps i v lf → ∃ vma ∈ mm.mmapList, vma.Covers v ∧ PermOk vma.vmFlags lf.perm
  alone : ∀ i mm, s.mm i = some mm → mm.mmCount = 1 ∧ mm.mmLock = false
  zombie : ∀ i t, s.task i = some t → t.zombie = true → t.mm = none

namespace SysInv

theorem frame (h : SysInv s managed role space) (hmaps : s.Maps i v lf) : role lf.frame = .frame := by
  obtain ⟨mm, hmm, hv, hlf⟩ := hmaps
  exact h.vm.leaf_frame (h.root hmm) hv hlf

-- The leaves of all processes are those that the count of a frame counts.
theorem leaves (h : SysInv s managed role space) (f : Nat) :
    {x : ℕ × ℕ | ∃ lf, s.Maps x.1 x.2 lf ∧ lf.frame = f}.encard = refs managed s.vm.mem role f := by
  have hkeys : (fun x : ℕ × ℕ => (((s.mm x.1).map MmStruct.pgdir).getD 0, x.2)) ''
      {x | ∃ lf, s.Maps x.1 x.2 lf ∧ lf.frame = f} =
      ↑((managed ×ˢ Finset.range UPAGES).filter fun x => frameAt s.vm.mem role x = some f) := by
    ext ⟨r, v⟩
    rw [Set.mem_image, Finset.mem_coe, Finset.mem_filter, Finset.mem_product, Finset.mem_range]
    constructor
    · rintro ⟨⟨i, u⟩, ⟨lf, ⟨mm, hmm, hu, hlf⟩, hf⟩, he⟩
      have hroot := h.root hmm
      simp only [hmm, Option.map_some, Option.getD_some, Prod.mk.injEq] at he
      obtain ⟨rfl, rfl⟩ := he
      refine ⟨⟨h.vm.rep.mem_managed (by rw [hroot]; decide), hu⟩, ?_⟩
      rw [frameAt, if_pos hroot]
      simp only [hlf, Option.map_some, hf]
    · rintro ⟨⟨_, hv⟩, hf⟩
      unfold frameAt at hf
      split_ifs at hf with hroot
      rw [Option.map_eq_some_iff] at hf
      obtain ⟨lf, hlf, he⟩ := hf
      obtain ⟨i, mm, hmm, rfl⟩ := h.owner r ((h.vm.root r).mp hroot)
      refine ⟨(i, v), ⟨lf, ⟨mm, hmm, hv, hlf⟩, he⟩, ?_⟩
      simp only [hmm, Option.map_some, Option.getD_some]
  rw [refs, count, ← Set.encard_coe_eq_coe_finsetCard, ← hkeys, Set.InjOn.encard_image]
  rintro ⟨i, u⟩ ⟨lf, ⟨mm, hmm, _⟩, _⟩ ⟨j, v⟩ ⟨lf', ⟨mm', hmm', _⟩, _⟩ he
  simp only [hmm, hmm', Option.map_some, Option.getD_some, Prod.mk.injEq] at he
  rw [h.apart i j mm mm' hmm hmm' he.1, he.2]

theorem coherent (h : SysInv s managed role space) : s.Coherent := by
  refine ⟨fun i v lf hmaps => ⟨_, h.vm.rep.ref _ (h.frame hmaps), h.leaves _⟩, fun i v lf hmaps hin => ?_,
    fun i v lf j mm hmaps hmm htable => ?_, fun i v lf j k hmaps hk => ?_, fun i v lf hmaps hin => ?_,
    fun i v lf hmaps hmany => ?_, fun i v lf hmaps => ?_, fun i j mm mm' p hmm hmm' hp hp' => ?_⟩
  · obtain ⟨free, l, hl, hfree⟩ := h.vm.rep.list
    have hrole := (hfree _).mpr ((onFreeList_iff hl).mp hin)
    rw [h.frame hmaps] at hrole
    cases hrole
  · have hnode := ((h.vm.rep.tree.tableOf_iff (h.root hmm)).mp htable).node
    rw [h.frame hmaps] at hnode
    cases hnode
  · obtain ⟨hlo, hhi⟩ := h.kstack j k hk
    have hframe := h.frame hmaps
    constructor
    · intro he
      rw [he, hlo] at hframe
      cases hframe
    · intro he
      rw [he, hhi] at hframe
      cases hframe
  · have hrole := (h.vm.rep.heap _).mpr hin
    rw [h.frame hmaps] at hrole
    cases hrole
  · have href := h.vm.rep.ref _ (h.frame hmaps)
    obtain ⟨mm, hmm, hv, hlf⟩ := hmaps
    refine h.vm.safe.of_refs (x := (mm.pgdir, v)) (fun q hq => h.vm.rep.mem_managed (by rw [hq]; decide))
      (h.root hmm) hv hlf ?_
    rw [href] at hmany
    exact_mod_cast hmany
  · obtain ⟨mm, hmm, hv, hlf⟩ := hmaps
    obtain ⟨_, _, _, hperm⟩ := (h.vm.space _ _ (h.owned i mm hmm).space).leaf v lf hv hlf
    exact hperm.once
  · have hunder := (h.vm.rep.tree.tableOf_iff (h.root hmm)).mp hp
    exact h.apart i j mm mm' hmm hmm' (hunder.unique ((h.vm.rep.tree.tableOf_iff (h.root hmm')).mp hp'))

theorem guarded (h : SysInv s managed role space) : s.Guarded := by
  have hspace : ∀ i mm, s.mm i = some mm → Space s.vm.mem mm.pgdir mm.mmapList := fun i mm hmm =>
    h.vm.space _ _ (h.owned i mm hmm).space
  refine ⟨fun i mm vma hmm => (hspace i mm hmm).ok vma, fun i mm hmm => (hspace i mm hmm).sorted,
    fun i mm v lf hmm hmaps => ?_, fun i mm hmm => ⟨(h.owned i mm hmm).count, (h.owned i mm hmm).lock⟩, h.zombie⟩
  obtain ⟨mm', hmm', hv, hlf⟩ := hmaps
  rw [hmm] at hmm'
  cases hmm'
  exact (hspace i mm hmm).leaf v lf hv hlf

end SysInv

end Frames

end Ucore.Mm
