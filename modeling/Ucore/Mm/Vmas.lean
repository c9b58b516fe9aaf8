import Mathlib.Data.List.Sort
import Ucore.Mm.Rep
import Ucore.Mm.Vmm

namespace Ucore.Mm

open Lib

variable {vm : VM} {bad : Obs → Prop} {mm mm' : MmStruct} {vma : VmaStruct} {vmas : List VmaStruct}
  {addr : Nat} {E : Halt → Prop}

-- The same address space, with another cached vma
structure SameMm (mm mm' : MmStruct) : Prop where
  mmapList : mm'.mmapList = mm.mmapList
  pgdir : mm'.pgdir = mm.pgdir
  mapCount : mm'.mapCount = mm.mapCount
  mmCount : mm'.mmCount = mm.mmCount
  mmLock : mm'.mmLock = mm.mmLock
  cache : ∀ vma, mm'.mmapCache = some vma → vma ∈ mm'.mmapList

theorem SameMm.trans {mm' mm'' : MmStruct} (h : SameMm mm mm') (h' : SameMm mm' mm'') : SameMm mm mm'' :=
  ⟨h'.mmapList.trans h.mmapList, h'.pgdir.trans h.pgdir, h'.mapCount.trans h.mapCount,
    h'.mmCount.trans h.mmCount, h'.mmLock.trans h.mmLock, h'.cache⟩

theorem findVma_eq (mm : MmStruct) (addr : Nat) : ∃ found,
    (found = mm.mmapList.find? (·.contains addr) ∨
      ∃ vma, found = some vma ∧ mm.mmapCache = some vma ∧ vma.contains addr = true) ∧
    findVma mm addr = (found, found.elim mm fun vma => { mm with mmapCache := some vma }) := by
  refine ⟨(findVma mm addr).1, ?_, ?_⟩ <;> unfold findVma <;> cases hc : mm.mmapCache with
  | none => cases mm.mmapList.find? (·.contains addr) <;> simp
  | some vma => by_cases hin : vma.contains addr <;> cases mm.mmapList.find? (·.contains addr) <;> simp [hin]

-- find_vma finds a vma of the list that contains the address, if there is one.
theorem findVma_spec (hcache : ∀ vma, mm.mmapCache = some vma → vma ∈ mm.mmapList) (addr : Nat) :
    ∃ found mm', findVma mm addr = (found, mm') ∧ SameMm mm mm' ∧
      (∀ vma, found = some vma → vma ∈ mm.mmapList ∧ vma.contains addr = true) ∧
      (found = none → ∀ vma ∈ mm.mmapList, vma.contains addr = false) := by
  obtain ⟨found, hfound, he⟩ := findVma_eq mm addr
  have hs : ∀ vma, found = some vma → vma ∈ mm.mmapList ∧ vma.contains addr = true := by
    rintro vma rfl
    rcases hfound with hf | ⟨w, hw, hc, hin⟩
    · exact ⟨List.mem_of_find?_eq_some hf.symm, by simpa using List.find?_some hf.symm⟩
    · cases hw
      exact ⟨hcache vma hc, hin⟩
  refine ⟨found, _, he, ?_, hs, fun hn => ?_⟩
  · cases found with
    | none => exact ⟨rfl, rfl, rfl, rfl, rfl, hcache⟩
    | some vma =>
        refine ⟨rfl, rfl, rfl, rfl, rfl, fun w hw => ?_⟩
        cases hw
        exact (hs vma rfl).1
  · rcases hfound with hf | ⟨w, hw, _⟩
    · rw [hn] at hf
      simpa using hf.symm
    · rw [hn] at hw
      cases hw

-- The vmas do not overlap and stand in their order.
structure MmStruct.Sorted (mm : MmStruct) : Prop where
  nonempty : ∀ vma ∈ mm.mmapList, vma.vmStart < vma.vmEnd
  sorted : mm.mmapList.Pairwise fun a b => a.vmEnd ≤ b.vmStart
  cache : ∀ vma, mm.mmapCache = some vma → vma ∈ mm.mmapList

def VmaStruct.Meets (a b : VmaStruct) : Prop := a.vmStart < b.vmEnd ∧ b.vmStart < a.vmEnd

-- Where insert_vma_struct puts a vma
def insertSorted (vma : VmaStruct) (vmas : List VmaStruct) : List VmaStruct :=
  (vmas.takeWhile fun prev => !(prev.vmStart > vma.vmStart)) ++
    vma :: vmas.dropWhile fun prev => !(prev.vmStart > vma.vmStart)

theorem insertSorted_perm : (insertSorted vma vmas).Perm (vma :: vmas) := by
  refine List.perm_middle.trans (List.Perm.cons vma ?_)
  rw [List.takeWhile_append_dropWhile]

namespace MmStruct.Sorted

theorem starts (h : mm.Sorted) : mm.mmapList.Pairwise fun a b => a.vmStart < b.vmStart := by
  refine h.sorted.imp_of_mem fun ha _ hab => ?_
  exact lt_of_lt_of_le (h.nonempty _ ha) hab

theorem same (h : mm.Sorted) (hs : SameMm mm mm') : mm'.Sorted := by
  obtain ⟨hlist, _, _, _, _, hcache⟩ := hs
  refine ⟨?_, ?_, hcache⟩
  · rw [hlist]
    exact h.nonempty
  · rw [hlist]
    exact h.sorted

theorem apart (h : mm.Sorted) {a b : VmaStruct} (ha : a ∈ mm.mmapList) (hb : b ∈ mm.mmapList) :
    a = b ∨ a.vmEnd ≤ b.vmStart ∨ b.vmEnd ≤ a.vmStart := by
  refine List.Pairwise.forall_of_forall_of_flip
    (R := fun a b => a = b ∨ a.vmEnd ≤ b.vmStart ∨ b.vmEnd ≤ a.vmStart) (fun _ _ => Or.inl rfl) ?_ ?_ ha hb
  · exact h.sorted.imp fun hab => Or.inr (Or.inl hab)
  · exact h.sorted.imp fun hab => Or.inr (Or.inr hab)

-- At most one vma contains an address.
theorem unique (h : mm.Sorted) {a b : VmaStruct} (ha : a ∈ mm.mmapList) (hb : b ∈ mm.mmapList)
    (hca : a.contains addr = true) (hcb : b.contains addr = true) : a = b := by
  have hca := of_decide_eq_true hca
  have hcb := of_decide_eq_true hcb
  rcases h.apart ha hb with he | hlt | hlt
  · exact he
  · omega
  · omega

-- What find_vma returns does not depend on the cached vma.
theorem findVma_iff (h : mm.Sorted) :
    (findVma mm addr).1 = some vma ↔ vma ∈ mm.mmapList ∧ vma.vmStart ≤ addr ∧ addr < vma.vmEnd := by
  obtain ⟨found, mm', he, _, hs, hn⟩ := findVma_spec h.cache addr
  rw [he]
  constructor
  · intro hf
    obtain ⟨hmem, hin⟩ := hs vma hf
    exact ⟨hmem, of_decide_eq_true hin⟩
  · rintro ⟨hmem, hin⟩
    have hin : vma.contains addr = true := decide_eq_true hin
    cases found with
    | none =>
        have hno := hn rfl vma hmem
        rw [hin] at hno
        cases hno
    | some w =>
        obtain ⟨hw, hcw⟩ := hs w rfl
        exact congrArg some (h.unique hw hmem hcw hin)

-- A vma that meets no other one has a place in the list.
theorem insert (h : mm.Sorted) (hlt : vma.vmStart < vma.vmEnd) (hno : ∀ v ∈ mm.mmapList, ¬v.Meets vma) :
    ({ mm with mmapList := insertSorted vma mm.mmapList, mapCount := mm.mapCount + 1 } : MmStruct).Sorted := by
  have hmem : ∀ {v}, v ∈ insertSorted vma mm.mmapList → v = vma ∨ v ∈ mm.mmapList := fun hv =>
    List.mem_cons.mp (insertSorted_perm.mem_iff.mp hv)
  refine ⟨fun v hv => ?_, ?_, fun v hv => ?_⟩
  · rcases hmem hv with rfl | hv
    · exact hlt
    · exact h.nonempty v hv
  · have hsplit := List.takeWhile_append_dropWhile (p := fun prev : VmaStruct => !(prev.vmStart > vma.vmStart))
      (l := mm.mmapList)
    have hsorted := h.sorted
    rw [← hsplit] at hsorted hno
    obtain ⟨hbefore, hbehind, hacross⟩ := List.pairwise_append.mp hsorted
    refine List.pairwise_append.mpr ⟨hbefore, List.pairwise_cons.mpr ⟨fun v hv => ?_, hbehind⟩, ?_⟩
    · -- the first vma behind starts above the new one, and so do those behind that
      have hstart : vma.vmStart < v.vmStart := by
        cases hrest : mm.mmapList.dropWhile fun prev => !(prev.vmStart > vma.vmStart) with
        | nil => simp [hrest] at hv
        | cons next rest =>
            have hhead := List.head?_dropWhile_not (fun prev : VmaStruct => !(prev.vmStart > vma.vmStart))
              mm.mmapList
            rw [hrest] at hhead hv hbehind
            have hnext : vma.vmStart < next.vmStart := by simpa using hhead
            have hmemNext : next ∈ mm.mmapList := by
              rw [← hsplit, hrest]
              exact List.mem_append_right _ List.mem_cons_self
            rcases List.mem_cons.mp hv with rfl | hv
            · exact hnext
            · have := (List.pairwise_cons.mp hbehind).1 v hv
              have := h.nonempty next hmemNext
              omega
      have := hno v (List.mem_append_right _ hv)
      unfold VmaStruct.Meets at this
      have := h.nonempty v (by rw [← hsplit]; exact List.mem_append_right _ hv)
      omega
    · intro v hv w hw
      rcases List.mem_cons.mp hw with rfl | hw
      · have hle : v.vmStart ≤ w.vmStart := by simpa using List.all_eq_true.mp List.all_takeWhile v hv
        have := hno v (List.mem_append_left _ hv)
        unfold VmaStruct.Meets at this
        omega
      · exact hacross v hv w hw
  · exact insertSorted_perm.mem_iff.mpr (List.mem_cons_of_mem _ (h.cache v hv))

end MmStruct.Sorted

-- What may end in any panic but a page fault of the kernel
def Asserts (E : Halt → Prop) : Prop := ∀ text, text ≠ "kernel page fault.\n" → E (.panic text)

theorem wp_assertM {Q : Unit → VM → Prop} {holds : Bool} {text : String} (hq : holds = true → Q () vm)
    (he : holds = false → E (.panic ("assertion failed: " ++ text))) :
    Prog.wp bad (assertM holds text) vm Q E := by
  cases holds with
  | false => exact Prog.wp_halt.mpr (he rfl)
  | true => exact Prog.wp_pure.mpr (hq rfl)

theorem wp_checkVmaOverlap {prev next : VmaStruct} {Q : Unit → VM → Prop}
    (hprev : prev.vmStart < prev.vmEnd) (hnext : next.vmStart < next.vmEnd)
    (hq : prev.vmEnd ≤ next.vmStart → Q () vm)
    (he : ¬prev.vmEnd ≤ next.vmStart → Asserts E) :
    Prog.wp bad (checkVmaOverlap prev next) vm Q E := by
  rw [checkVmaOverlap, Prog.wp_bind]
  refine wp_assertM (fun _ => ?_) fun hno => absurd hprev (of_decide_eq_false hno)
  rw [Prog.wp_bind]
  refine wp_assertM (fun hle => ?_) fun hno => he (of_decide_eq_false hno) _ (by decide)
  exact wp_assertM (fun _ => hq (of_decide_eq_true hle)) fun hno => absurd hnext (of_decide_eq_false hno)

theorem insertVmaStruct_eq (mm : MmStruct) (vma : VmaStruct) : insertVmaStruct mm vma = (do
    assertM (vma.vmStart < vma.vmEnd) "vma->vm_start < vma->vm_end"
    let before := mm.mmapList.takeWhile fun prev => !(prev.vmStart > vma.vmStart)
    let behind := mm.mmapList.drop before.length
    before.getLast?.elim (pure ()) fun prev => checkVmaOverlap prev vma
    behind.head?.elim (pure ()) fun next => checkVmaOverlap vma next
    pure { mm with mmapList := before ++ vma :: behind, mapCount := mm.mapCount + 1 }) := by
  unfold insertVmaStruct
  congr 1
  funext _
  simp only
  generalize mm.mmapList.takeWhile (fun prev => !(prev.vmStart > vma.vmStart)) = before
  generalize mm.mmapList.drop before.length = behind
  cases before.getLast? <;> cases behind.head? <;> rfl

-- insert_vma_struct looks at the neighbours only, which is enough in a sorted list.
theorem wp_insertVmaStruct {Q : MmStruct → VM → Prop} (h : mm.Sorted)
    (hok : vma.vmStart < vma.vmEnd → (∀ v ∈ mm.mmapList, ¬v.Meets vma) →
      Q { mm with mmapList := insertSorted vma mm.mmapList, mapCount := mm.mapCount + 1 } vm)
    (hpanic : (vma.vmEnd ≤ vma.vmStart ∨ ∃ v ∈ mm.mmapList, v.Meets vma) → Asserts E) :
    Prog.wp bad (insertVmaStruct mm vma) vm Q E := by
  rw [insertVmaStruct_eq, Prog.wp_bind]
  refine wp_assertM (fun hlt => ?_) fun hno => hpanic (Or.inl (not_lt.mp (of_decide_eq_false hno))) _ (by decide)
  have hlt : vma.vmStart < vma.vmEnd := of_decide_eq_true hlt
  have hsplit := List.takeWhile_append_dropWhile (p := fun prev : VmaStruct => !(prev.vmStart > vma.vmStart))
    (l := mm.mmapList)
  have hbefore : ∀ v ∈ mm.mmapList.takeWhile fun prev => !(prev.vmStart > vma.vmStart),
      v.vmStart ≤ vma.vmStart := by
    intro v hv
    have := List.all_eq_true.mp List.all_takeWhile v hv
    simpa using this
  unfold insertSorted at hok
  generalize hB : (mm.mmapList.takeWhile fun prev => !(prev.vmStart > vma.vmStart)) = before at *
  have hdrop : mm.mmapList.drop before.length =
      mm.mmapList.dropWhile fun prev => !(prev.vmStart > vma.vmStart) := by
    conv_lhs => rw [← hsplit]
    exact List.drop_left ..
  have hhead : ∀ v, (mm.mmapList.dropWhile fun prev => !(prev.vmStart > vma.vmStart)).head? = some v →
      vma.vmStart < v.vmStart := by
    intro v hv
    have := List.head?_dropWhile_not (fun prev : VmaStruct => !(prev.vmStart > vma.vmStart)) mm.mmapList
    rw [hv] at this
    simpa using this
  simp only [hdrop]
  generalize (mm.mmapList.dropWhile fun prev => !(prev.vmStart > vma.vmStart)) = behind at *
  have hmem : ∀ v, v ∈ mm.mmapList ↔ v ∈ before ∨ v ∈ behind := fun v => by
    rw [← hsplit, List.mem_append]
  have hsorted := h.sorted
  rw [← hsplit] at hsorted
  obtain ⟨hsb, hsh, _⟩ := List.pairwise_append.mp hsorted
  have hlow : ∀ v ∈ before, v.vmStart < v.vmEnd ∧ (v.Meets vma ↔ ¬v.vmEnd ≤ vma.vmStart) := by
    intro v hv
    have := hbefore v hv
    refine ⟨h.nonempty v ((hmem v).mpr (Or.inl hv)), ?_⟩
    unfold VmaStruct.Meets
    omega
  -- the part of the check behind the vma
  have hnext : (∀ v ∈ before, ¬v.Meets vma) → Prog.wp bad
      (behind.head?.elim (pure ()) fun next => checkVmaOverlap vma next) vm (fun _ vm' => Prog.wp bad
        (pure { mm with mmapList := before ++ vma :: behind, mapCount := mm.mapCount + 1 }) vm' Q E) E := by
    intro hno
    cases behind with
    | nil =>
        rw [List.head?_nil, Option.elim_none, Prog.wp_pure, Prog.wp_pure]
        refine hok hlt fun v hv => ?_
        rcases (hmem v).mp hv with hv | hv
        · exact hno v hv
        · cases hv
    | cons next rest =>
        have hnextlt := hhead next rfl
        have hnonempty := h.nonempty next ((hmem next).mpr (Or.inr List.mem_cons_self))
        have hrest := (List.pairwise_cons.mp hsh).1
        rw [List.head?_cons, Option.elim_some]
        refine wp_checkVmaOverlap hlt hnonempty (fun hle => ?_) fun hle => hpanic ?_
        · rw [Prog.wp_pure]
          refine hok hlt fun v hv => ?_
          rcases (hmem v).mp hv with hv | hv
          · exact hno v hv
          · unfold VmaStruct.Meets
            rcases List.mem_cons.mp hv with rfl | hv
            · omega
            · have := hrest v hv
              omega
        · refine Or.inr ⟨next, (hmem next).mpr (Or.inr List.mem_cons_self), ?_⟩
          unfold VmaStruct.Meets
          omega
  rw [Prog.wp_bind]
  cases hlast : before.getLast? with
  | none =>
      have hnil := List.getLast?_eq_none_iff.mp hlast
      rw [Option.elim_none, Prog.wp_pure, Prog.wp_bind]
      refine hnext fun v hv => ?_
      rw [hnil] at hv
      cases hv
  | some prev =>
      obtain ⟨init, rfl⟩ := List.getLast?_eq_some_iff.mp hlast
      have hin : prev ∈ init ++ [prev] := List.mem_append_right _ (List.mem_singleton.mpr rfl)
      have hinit := (List.pairwise_append.mp hsb).2.2
      have hstart := hbefore prev hin
      rw [Option.elim_some]
      refine wp_checkVmaOverlap (hlow prev hin).1 hlt (fun hle => ?_) fun hle => hpanic ?_
      · rw [Prog.wp_bind]
        refine hnext fun v hv => ?_
        rw [(hlow v hv).2, not_not]
        rcases List.mem_append.mp hv with hv | hv
        · have := hinit v hv prev (List.mem_singleton.mpr rfl)
          omega
        · rw [List.mem_singleton.mp hv]
          exact hle
      · exact Or.inr ⟨prev, (hmem prev).mpr (Or.inl hin), (hlow prev hin).2.mpr hle⟩

end Ucore.Mm
