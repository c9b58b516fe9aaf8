import Ucore.Mm.Vmas

namespace Ucore.Mm

open Lib

variable {vm vm' : VM} {mm mm' mm₀ : MmStruct} {vma : VmaStruct} {addr len flags : Nat}

-- insert_vma_struct returns unless an assertion fails, and says which of both happens.
def MmStruct.Free (mm : MmStruct) (vma : VmaStruct) : Prop :=
  vma.vmStart < vma.vmEnd ∧ ∀ v ∈ mm.mmapList, ¬v.Meets vma

theorem MmStruct.not_free (h : ¬mm.Free vma) : vma.vmEnd ≤ vma.vmStart ∨ ∃ v ∈ mm.mmapList, v.Meets vma := by
  by_contra hno
  obtain ⟨hlt, hmeets⟩ := not_or.mp hno
  exact h ⟨not_le.mp hlt, fun v hv hmeet => hmeets ⟨v, hv, hmeet⟩⟩

theorem insertVmaStruct_free (vm : VM) (h : mm.Sorted) (hfree : mm.Free vma) :
    (insertVmaStruct mm vma vm).result = .ok
      ({ mm with mmapList := insertSorted vma mm.mmapList, mapCount := mm.mapCount + 1 }, vm) := by
  have hwp : Prog.wp (fun _ => False) (insertVmaStruct mm vma) vm (fun mm' vm' => mm' =
      { mm with mmapList := insertSorted vma mm.mmapList, mapCount := mm.mapCount + 1 } ∧ vm' = vm)
      fun _ => False := by
    refine wp_insertVmaStruct h (fun _ _ => ⟨rfl, rfl⟩) fun hno => ?_
    rcases hno with hle | ⟨v, hv, hmeet⟩
    · exact absurd hfree.1 (not_lt.mpr hle)
    · exact absurd hmeet (hfree.2 v hv)
  rcases Prog.wp_total hwp with ⟨mm', vm', hr, rfl, rfl⟩ | ⟨e, _, he⟩
  · exact hr
  · exact absurd he not_false

theorem insertVmaStruct_panics (vm : VM) (h : mm.Sorted) (hno : ¬mm.Free vma) :
    ∃ text, (insertVmaStruct mm vma vm).result = .error (.panic text) := by
  have hwp : Prog.wp (fun _ => False) (insertVmaStruct mm vma) vm (fun _ _ => False)
      fun e => ∃ text, e = .panic text := by
    exact wp_insertVmaStruct h (fun hlt hfree => hno ⟨hlt, hfree⟩) fun _ text _ => ⟨text, rfl⟩
  rcases Prog.wp_total hwp with ⟨mm', vm', _, hfalse⟩ | ⟨e, hr, text, rfl⟩
  · exact absurd hfalse not_false
  · exact ⟨text, hr⟩

-- The calls that a list of vmas sees
inductive VmaCall
  | insert (vma : VmaStruct)
  | find (addr : Nat)
  deriving DecidableEq, Repr

def vmaCalls : List VmaCall → MmStruct → M MmStruct
  | [], mm => pure mm
  | .insert vma :: calls, mm => do
      let mm ← insertVmaStruct mm vma
      vmaCalls calls mm
  | .find addr :: calls, mm => vmaCalls calls (findVma mm addr).2

def inserted : List VmaCall → List VmaStruct
  | [] => []
  | .insert vma :: calls => vma :: inserted calls
  | .find _ :: calls => inserted calls

-- What the calls keep: the list is sorted and counted.
structure MmStruct.Listed (mm : MmStruct) (vmas : List VmaStruct) : Prop where
  sorted : mm.Sorted
  perm : mm.mmapList.Perm vmas
  count : mm.mapCount = mm.mmapList.length

theorem MmStruct.Listed.calls {calls : List VmaCall} {vmas : List VmaStruct} (h : mm.Listed vmas)
    (hrun : (vmaCalls calls mm vm).result = .ok (mm', vm')) : mm'.Listed (inserted calls ++ vmas) := by
  induction calls generalizing mm vmas with
  | nil =>
      cases hrun
      exact h
  | cons call calls ih =>
      cases call with
      | find addr =>
          refine ih ?_ hrun
          obtain ⟨found, mm'', he, hsame, _, _⟩ := findVma_spec h.sorted.cache addr
          rw [he]
          refine ⟨h.sorted.same hsame, ?_, ?_⟩
          · rw [hsame.mmapList]
            exact h.perm
          · rw [hsame.mapCount, hsame.mmapList]
            exact h.count
      | insert vma =>
          by_cases hfree : mm.Free vma
          · have hins := insertVmaStruct_free vm h.sorted hfree
            have hrest := ih ⟨h.sorted.insert hfree.1 hfree.2,
              insertSorted_perm.trans (h.perm.cons vma), ?_⟩ ((Prog.bind_ok hins).symm.trans hrun)
            · exact ⟨hrest.sorted, hrest.perm.trans List.perm_middle, hrest.count⟩
            · rw [h.count, insertSorted_perm.length_eq, List.length_cons]
          · obtain ⟨text, hpanic⟩ := insertVmaStruct_panics vm h.sorted hfree
            have herror := Prog.bind_error (f := vmaCalls calls) hpanic
            exact nomatch herror.symm.trans hrun

def VmaStruct.upTo (a b : VmaStruct) : Bool := a.vmStart ≤ b.vmStart

-- A list of vmas in their order is what sorting makes of its vmas in any order.
theorem MmStruct.Listed.sort {vmas : List VmaStruct} (h : mm.Listed vmas) :
    mm.mmapList = vmas.mergeSort VmaStruct.upTo := by
  have hstarts : mm.mmapList.Pairwise fun a b => VmaStruct.upTo a b = true :=
    h.sorted.starts.imp fun hlt => decide_eq_true hlt.le
  refine List.Perm.eq_of_pairwise (fun a b ha hb hab hba => ?_) hstarts ?_
    (h.perm.trans (List.mergeSort_perm vmas VmaStruct.upTo).symm)
  · show a = b
    have hb : b ∈ mm.mmapList := h.perm.mem_iff.mpr (List.mem_mergeSort.mp hb)
    have hab : a.vmStart ≤ b.vmStart := of_decide_eq_true hab
    have hba : b.vmStart ≤ a.vmStart := of_decide_eq_true hba
    have := h.sorted.nonempty a ha
    have := h.sorted.nonempty b hb
    rcases h.sorted.apart ha hb with he | hlt | hlt
    · exact he
    · omega
    · omega
  · refine List.pairwise_mergeSort (fun a b c hab hbc => ?_) (fun a b => ?_) vmas
    · exact decide_eq_true ((of_decide_eq_true hab : a.vmStart ≤ b.vmStart).trans (of_decide_eq_true hbc))
    · rw [Bool.or_eq_true]
      exact (le_total a.vmStart b.vmStart).imp (fun hle => decide_eq_true hle) fun hle => decide_eq_true hle

theorem MmStruct.Sorted.findVma_none (h : mm.Sorted) :
    (findVma mm addr).1 = none ↔ ∀ v ∈ mm.mmapList, ¬(v.vmStart ≤ addr ∧ addr < v.vmEnd) := by
  constructor
  · intro hnone v hv hin
    rw [h.findVma_iff.mpr ⟨hv, hin⟩] at hnone
    cases hnone
  · intro hno
    cases hf : (findVma mm addr).1 with
    | none => rfl
    | some v =>
        obtain ⟨hv, hin⟩ := h.findVma_iff.mp hf
        exact absurd hin (hno v hv)

theorem vma_list_sorted {vm₀ : VM} (calls : List VmaCall) (hmm : (mmCreate vm₀).result = .ok (some mm₀, vm))
    (hrun : (vmaCalls calls mm₀ vm).result = .ok (mm, vm')) :
    mm.mmapList.Pairwise (fun a b => a.vmStart < b.vmStart ∧ ¬a.Meets b) ∧
      (∀ v ∈ mm.mmapList, v.vmStart < v.vmEnd) ∧ mm.mapCount = mm.mmapList.length ∧
      (∀ vmas : List VmaStruct, vmas.Perm (inserted calls) → mm.mmapList = vmas.mergeSort VmaStruct.upTo) ∧
      (∀ vma vm, (vma.vmStart < vma.vmEnd ∧ ∀ v ∈ mm.mmapList, ¬v.Meets vma) →
        ∃ mm', (insertVmaStruct mm vma vm).result = .ok (mm', vm)) ∧
      (∀ vma vm, (∃ text, (insertVmaStruct mm vma vm).result = .error (.panic text)) ↔
        vma.vmEnd ≤ vma.vmStart ∨ ∃ v ∈ mm.mmapList, v.Meets vma) ∧
      ∀ addr, (∀ v, (findVma mm addr).1 = some v ↔
          v ∈ mm.mmapList ∧ v.vmStart ≤ addr ∧ addr < v.vmEnd) ∧
        ((findVma mm addr).1 = none ↔ ∀ v ∈ mm.mmapList, ¬(v.vmStart ≤ addr ∧ addr < v.vmEnd)) ∧
        ∀ cache, (∀ v, cache = some v → v ∈ mm.mmapList) →
          (findVma { mm with mmapCache := cache } addr).1 = (findVma mm addr).1 := by
  have hnew : mm₀.Listed [] := by
    unfold mmCreate at hmm
    cases hk : (kmalloc vm₀).result with
    | error e =>
        rw [Prog.bind_error hk] at hmm
        cases hmm
    | ok r =>
        obtain ⟨room, vm₁⟩ := r
        rw [Prog.bind_ok hk] at hmm
        cases room with
        | false => cases hmm
        | true =>
            cases hmm
            exact ⟨⟨nofun, List.Pairwise.nil, nofun⟩, .refl _, rfl⟩
  have h := hnew.calls hrun
  rw [List.append_nil] at h
  refine ⟨?_, h.sorted.nonempty, h.count, fun vmas hperm => ?_, fun vma vm hfree => ?_, fun vma vm => ?_,
    fun addr => ⟨fun v => h.sorted.findVma_iff, h.sorted.findVma_none, fun cache hcache => ?_⟩⟩
  · refine (h.sorted.starts.and h.sorted.sorted).imp fun hab => ⟨hab.1, fun hmeet => ?_⟩
    exact absurd hmeet.2 (not_lt.mpr hab.2)
  · exact MmStruct.Listed.sort ⟨h.sorted, h.perm.trans hperm.symm, h.count⟩
  · exact ⟨_, insertVmaStruct_free vm h.sorted hfree⟩
  · constructor
    · rintro ⟨text, hpanic⟩
      refine MmStruct.not_free fun hfree => ?_
      rw [insertVmaStruct_free vm h.sorted hfree] at hpanic
      cases hpanic
    · intro hno
      refine insertVmaStruct_panics vm h.sorted fun hfree => ?_
      rcases hno with hle | ⟨v, hv, hmeet⟩
      · exact absurd hfree.1 (not_lt.mpr hle)
      · exact hfree.2 v hv hmeet
  · have hcached : ({ mm with mmapCache := cache } : MmStruct).Sorted :=
      ⟨h.sorted.nonempty, h.sorted.sorted, hcache⟩
    ext v
    rw [hcached.findVma_iff, h.sorted.findVma_iff]

-- Two pages, with room in the heap
def bareVm : VM := ⟨Pmm.twoPagesBooted, fun _ => Words.zero, [], []⟩

theorem vma_list_sorted_two :
    (⟨[⟨5, 10, 0⟩, ⟨10, 20, 0⟩], some ⟨10, 20, 0⟩, 0, 2, 0, false⟩ : MmStruct).mmapList =
      [⟨10, 20, 0⟩, ⟨5, 10, 0⟩].mergeSort VmaStruct.upTo :=
  (vma_list_sorted [.find 3, .insert ⟨10, 20, 0⟩, .find 12, .insert ⟨5, 10, 0⟩]
    (show (mmCreate bareVm).result = _ from rfl) rfl).2.2.2.1 _ (.refl _)

-- What user_mem_check asks of a byte. Only the bytes of a vma are in its first page.
def MmStruct.Allows (mm : MmStruct) (write : Bool) (a : Nat) : Prop :=
  (∃ vma ∈ mm.mmapList, vma.contains a ∧ vma.vmFlags &&& (if write then VM_WRITE else VM_READ) ≠ 0) ∧
    (write = true → ∀ vma ∈ mm.mmapList, vma.vmFlags &&& VM_STACK ≠ 0 → vma.contains a →
      vma.vmStart + PGSIZE ≤ a)

variable {write : Bool} {start stop fuel : Nat}

theorem VmaStruct.contains_iff : vma.contains addr = true ↔ vma.vmStart ≤ addr ∧ addr < vma.vmEnd :=
  decide_eq_true_iff

theorem MmStruct.Sorted.allows_iff (h : mm.Sorted) (hmem : vma ∈ mm.mmapList) (write : Bool)
    (addr : Nat) (hin : vma.contains addr = true) :
    mm.Allows write addr ↔ vma.vmFlags &&& (if write then VM_WRITE else VM_READ) ≠ 0 ∧
      ¬(write = true ∧ vma.vmFlags &&& VM_STACK ≠ 0 ∧ addr < vma.vmStart + PGSIZE) := by
  constructor
  · rintro ⟨⟨w, hw, hwin, hflag⟩, hguard⟩
    refine ⟨h.unique hw hmem hwin hin ▸ hflag, fun ⟨hwrite, hstack, hlt⟩ => ?_⟩
    exact absurd (hguard hwrite vma hmem hstack hin) (not_le.mpr hlt)
  · rintro ⟨hflag, hguard⟩
    refine ⟨⟨vma, hmem, hin, hflag⟩, fun hwrite w hw hstack hwin => ?_⟩
    rw [h.unique hw hmem hwin hin] at hstack ⊢
    exact not_lt.mp fun hlt => hguard ⟨hwrite, hstack, hlt⟩

-- Where the loop enters a vma decides about the rest of the vma.
theorem memCheckLoop_spec (vm : VM) (write : Bool) (h : mm.Sorted) (hfuel : stop - start < fuel) :
    ∃ ok mm', (memCheckLoop write stop fuel mm start vm).result = .ok ((ok, mm'), vm) ∧ SameMm mm mm' ∧
      (ok = true ↔ ∀ a, start ≤ a → a < stop → mm.Allows write a) := by
  induction fuel generalizing mm start with
  | zero => omega
  | succ fuel ih =>
      unfold memCheckLoop
      by_cases hlt : start < stop
      · obtain ⟨found, mm', he, hsame, hsome, hnone⟩ := findVma_spec h.cache start
        have hfail : ¬mm.Allows write start →
            (false = true ↔ ∀ a, start ≤ a → a < stop → mm.Allows write a) := fun hno =>
          ⟨nofun, fun hall => absurd (hall start le_rfl hlt) hno⟩
        rw [if_pos hlt, he]
        cases found with
        | none =>
            refine ⟨false, mm', rfl, hsame, hfail fun ⟨⟨w, hw, hwin, _⟩, _⟩ => ?_⟩
            rw [hnone rfl w hw] at hwin
            cases hwin
        | some vma =>
            obtain ⟨hmem, hin⟩ := hsome vma rfl
            have hallows := h.allows_iff hmem write
            obtain ⟨hle, hend⟩ := VmaStruct.contains_iff.mp hin
            simp only [if_neg (not_lt.mpr hle)]
            by_cases hflag : vma.vmFlags &&& (if write then VM_WRITE else VM_READ) = 0
            · rw [if_pos hflag]
              exact ⟨false, mm', rfl, hsame, hfail fun hok => ((hallows start hin).mp hok).1 hflag⟩
            · rw [if_neg hflag]
              by_cases hguard : write = true ∧ vma.vmFlags &&& VM_STACK ≠ 0 ∧ start < vma.vmStart + PGSIZE
              · rw [if_pos hguard]
                exact ⟨false, mm', rfl, hsame, hfail fun hok => ((hallows start hin).mp hok).2 hguard⟩
              · rw [if_neg hguard]
                obtain ⟨ok, mm'', hr, hsame', hok⟩ := ih (h.same hsame) (show stop - vma.vmEnd < fuel by omega)
                have hlist : ∀ a, mm'.Allows write a ↔ mm.Allows write a := fun a => by
                  unfold MmStruct.Allows
                  rw [hsame.mmapList]
                refine ⟨ok, mm'', hr, hsame.trans hsame', hok.trans ⟨fun hall a ha hlt' => ?_, ?_⟩⟩
                · by_cases hbehind : vma.vmEnd ≤ a
                  · exact (hlist a).mp (hall a hbehind hlt')
                  · have hain := VmaStruct.contains_iff.mpr ⟨hle.trans ha, not_le.mp hbehind⟩
                    exact (hallows a hain).mpr ⟨hflag, fun ⟨hw, hstack, hfirst⟩ =>
                      hguard ⟨hw, hstack, ha.trans_lt hfirst⟩⟩
                · exact fun hall a ha hlt' => (hlist a).mpr (hall a (hend.le.trans ha) hlt')
      · rw [if_neg hlt]
        exact ⟨true, mm, rfl, ⟨rfl, rfl, rfl, rfl, rfl, h.cache⟩, fun _ a ha hlt' =>
          absurd (ha.trans_lt hlt') hlt, fun _ => rfl⟩

theorem user_mem_check_coverage (h : mm.Sorted) (hlen : len < 2 ^ 64) :
    ∃ ok mm', (userMemCheck (some mm) addr len write vm).result = .ok ((ok, some mm'), vm) ∧
      SameMm mm mm' ∧
      (ok = true ↔ 0 < len ∧ addr + len < 2 ^ 64 ∧ USERBASE ≤ addr ∧ addr + len ≤ USERTOP ∧
        ∀ a, addr ≤ a → a < addr + len → mm.Allows write a) := by
  have hsame : SameMm mm mm := ⟨rfl, rfl, rfl, rfl, rfl, h.cache⟩
  unfold userMemCheck
  simp only
  by_cases haccess : USER_ACCESS addr (u64 (addr + len)) = true
  · obtain ⟨hbase, hlt, htop⟩ := of_decide_eq_true haccess
    have hu : u64 (addr + len) = addr + len := by
      unfold u64 at hlt ⊢
      omega
    rw [hu] at hlt htop
    rw [haccess, hu]
    obtain ⟨ok, mm', hr, hs, hok⟩ := memCheckLoop_spec vm write h
      (show addr + len - addr < len + 1 by omega)
    refine ⟨ok, mm', (Prog.bind_ok hr).trans rfl, hs, hok.trans ⟨fun hall => ⟨?_, ?_, hbase, htop, hall⟩, ?_⟩⟩
    · omega
    · unfold USERTOP at htop
      omega
    · exact fun hall => hall.2.2.2.2
  · rw [Bool.not_eq_true] at haccess
    rw [haccess]
    refine ⟨false, mm, rfl, hsame, nofun, fun ⟨hpos, hwrap, hbase, htop, _⟩ => ?_⟩
    have hu : u64 (addr + len) = addr + len := Nat.mod_eq_of_lt hwrap
    rw [hu] at haccess
    exact absurd ⟨hbase, Nat.lt_add_of_pos_right hpos, htop⟩ (of_decide_eq_false haccess)

-- An address space with the stack of load_icode
def stackMm : MmStruct := ⟨[⟨0x7ff00000, 0x80000000, 11⟩], none, 0, 1, 1, false⟩

theorem stackMm_sorted : stackMm.Sorted := ⟨by decide, List.pairwise_singleton _ _, nofun⟩

theorem user_mem_check_coverage_stack :
    ∃ ok mm', (userMemCheck (some stackMm) 0x7ff01000 4096 true bareVm).result =
        .ok ((ok, some mm'), bareVm) ∧ SameMm stackMm mm' ∧
      (ok = true ↔ 0 < 4096 ∧ 0x7ff01000 + 4096 < 2 ^ 64 ∧ USERBASE ≤ 0x7ff01000 ∧
        0x7ff01000 + 4096 ≤ USERTOP ∧
        ∀ a, 0x7ff01000 ≤ a → a < 0x7ff01000 + 4096 → stackMm.Allows true a) :=
  user_mem_check_coverage stackMm_sorted (by decide)

-- The range that mm_map is asked for, in pages, without wrap-around
def mapStart (addr : Nat) : Nat := addr / PGSIZE * PGSIZE
def mapStop (addr len : Nat) : Nat := (addr + len + (PGSIZE - 1)) / PGSIZE * PGSIZE

-- It is in user space and meets no vma.
def MmStruct.FreeRange (mm : MmStruct) (start stop : Nat) : Prop :=
  USERBASE ≤ start ∧ start < stop ∧ stop ≤ USERTOP ∧ ∀ v ∈ mm.mmapList, ¬v.Meets ⟨start, stop, 0⟩

-- What mm_map should do.
def MapsFree (mm : MmStruct) (addr len flags : Nat) (vm : VM) : Prop :=
  ∃ ret mm' vm', (mmMap mm addr len flags vm).result = .ok ((ret, mm'), vm') ∧
    (mm.FreeRange (mapStart addr) (mapStop addr len) → ∀ vm'', (kmalloc vm).result = .ok (true, vm'') →
      ret = 0 ∧ mm'.Sorted ∧ mm'.mmapList.Perm (⟨mapStart addr, mapStop addr len, flags⟩ :: mm.mmapList)) ∧
    (¬mm.FreeRange (mapStart addr) (mapStop addr len) → ret = -E_INVAL ∧ mm'.mmapList = mm.mmapList)

-- Where it does not: find_vma is asked about the first address only, and the sum may wrap.
def MapMisses (mm : MmStruct) (addr len : Nat) : Prop :=
  let start := ROUNDDOWN addr PGSIZE
  let stop := ROUNDUP (u64 (addr + len)) PGSIZE
  USER_ACCESS start stop = true ∧ (∀ v ∈ mm.mmapList, v.contains start = false) ∧
    (2 ^ 64 ≤ addr + len ∨ ∃ v ∈ mm.mmapList, start < v.vmStart ∧ v.vmStart < stop)

-- kmalloc returns as long as the free list is one.
theorem kmalloc_returns {managed free : Finset Nat} {l : List Nat} (hl : Pmm.FreeList vm.area managed free l) :
    ∃ ok vm', (kmalloc vm).result = .ok (ok, vm') := by
  have hwp : Prog.wp (fun _ => False) kmalloc vm (fun _ _ => True) fun _ => False := by
    simp only [kmalloc, Prog.wp_bind, Prog.wp_get, Prog.wp_modify, Prog.wp_ite, Prog.wp_pure]
    refine ⟨fun _ => trivial, fun _ => wp_allocPages hl Nat.one_pos (fun p area l' _ _ _ => ?_) fun _ _ => ?_⟩
    · simp only [Prog.wp_bind, Prog.wp_modify, Prog.wp_pure]
    · exact Prog.wp_pure.mpr trivial
  rcases Prog.wp_total hwp with ⟨ok, vm', hr, _⟩ | ⟨_, _, hfalse⟩
  · exact ⟨ok, vm', hr⟩
  · exact absurd hfalse not_false

-- What mm_map does, test by test.
section MapResult

variable {ok : Bool}

theorem mmMap_outside (mm : MmStruct) (flags : Nat) (vm : VM)
    (haccess : USER_ACCESS (ROUNDDOWN addr PGSIZE) (ROUNDUP (u64 (addr + len)) PGSIZE) = false) :
    (mmMap mm addr len flags vm).result = .ok ((-E_INVAL, mm), vm) := by
  unfold mmMap
  simp only [haccess]
  rfl

theorem mmMap_taken (flags : Nat) (vm : VM) (h : mm.Sorted)
    (haccess : USER_ACCESS (ROUNDDOWN addr PGSIZE) (ROUNDUP (u64 (addr + len)) PGSIZE) = true)
    (hvma : vma ∈ mm.mmapList) (hin : vma.contains (ROUNDDOWN addr PGSIZE) = true) :
    ∃ mm', SameMm mm mm' ∧ (mmMap mm addr len flags vm).result = .ok ((-E_INVAL, mm'), vm) := by
  obtain ⟨_, hlt, _⟩ := of_decide_eq_true haccess
  unfold mmMap
  simp only [haccess]
  generalize ROUNDDOWN addr PGSIZE = start at hin hlt
  generalize ROUNDUP (u64 (addr + len)) PGSIZE = stop at hlt
  obtain ⟨found, mm', he, hsame, _, _⟩ := findVma_spec h.cache start
  have hfound : found = some vma := by
    have hiff : (findVma mm start).1 = some vma :=
      h.findVma_iff.mpr ⟨hvma, VmaStruct.contains_iff.mp hin⟩
    rw [he] at hiff
    exact hiff
  have hstop : stop > vma.vmStart := (VmaStruct.contains_iff.mp hin).1.trans_lt hlt
  simp only [he, hfound, Option.any_some, hstop, decide_true]
  exact ⟨mm', hsame, rfl⟩

theorem mmMap_untaken (flags : Nat) (h : mm.Sorted) {start stop : Nat} (hstart : ROUNDDOWN addr PGSIZE = start)
    (hstop : ROUNDUP (u64 (addr + len)) PGSIZE = stop) (haccess : USER_ACCESS start stop = true)
    (hno : ∀ v ∈ mm.mmapList, v.contains start = false) (hk : (kmalloc vm).result = .ok (ok, vm')) :
    (ok = false → (mmMap mm addr len flags vm).result = .ok ((-E_NO_MEM, mm), vm')) ∧
      (ok = true → mm.Free ⟨start, stop, flags⟩ → (mmMap mm addr len flags vm).result = .ok
        ((0, { mm with
          mmapList := insertSorted ⟨start, stop, flags⟩ mm.mmapList
          mapCount := mm.mapCount + 1 }), vm')) ∧
      (ok = true → ¬mm.Free ⟨start, stop, flags⟩ →
        ∃ text, (mmMap mm addr len flags vm).result = .error (.panic text)) := by
  have hnone : findVma mm start = (none, mm) := by
    unfold findVma
    have hfind : mm.mmapList.find? (·.contains start) = none := by
      rw [List.find?_eq_none]
      intro v hv hin
      rw [hno v hv] at hin
      cases hin
    cases hc : mm.mmapCache with
    | none => simp only [hfind]
    | some vma =>
        simp only [hno vma (h.cache vma hc), Bool.false_eq_true, if_false, hfind]
  have hcreate : (vmaCreate start stop flags vm).result =
      .ok (if ok then some ⟨start, stop, flags⟩ else none, vm') := by
    unfold vmaCreate
    rw [Prog.bind_ok hk]
    cases ok <;> rfl
  unfold mmMap
  simp only [hstart, hstop, haccess, hnone, Option.any_none]
  refine ⟨?_, ?_, ?_⟩
  · rintro rfl
    exact (Prog.bind_ok hcreate).trans rfl
  · rintro rfl hfree
    exact (Prog.bind_ok hcreate).trans (Prog.bind_ok (insertVmaStruct_free vm' h hfree))
  · rintro rfl hfree
    obtain ⟨text, hpanic⟩ := insertVmaStruct_panics vm' h hfree
    exact ⟨text, (Prog.bind_ok hcreate).trans (Prog.bind_error hpanic)⟩

end MapResult

theorem mapStart_eq : ROUNDDOWN addr PGSIZE = mapStart addr := by
  unfold ROUNDDOWN mapStart PGSIZE
  omega

-- The end in the code is the right one, except that a sum that wraps is taken for a smaller one.
theorem mapStop_eq (haddr : addr < 2 ^ 64) (hlen : len < 2 ^ 64)
    (hlt : mapStart addr < ROUNDUP (u64 (addr + len)) PGSIZE) (hwrap : addr + len < 2 ^ 64) :
    ROUNDUP (u64 (addr + len)) PGSIZE = mapStop addr len := by
  unfold ROUNDUP ROUNDDOWN mapStart u64 PGSIZE at *
  unfold mapStop PGSIZE
  omega

theorem mapStop_user (hlen : mapStop addr len ≤ USERTOP) :
    addr + len < 2 ^ 64 ∧ ROUNDUP (u64 (addr + len)) PGSIZE = mapStop addr len := by
  unfold mapStop PGSIZE USERTOP at *
  unfold ROUNDUP ROUNDDOWN u64
  omega

theorem mm_map_free (h : mm.Sorted) (haddr : addr < 2 ^ 64) (hlen : len < 2 ^ 64)
    {managed free : Finset Nat} {l : List Nat} (hl : Pmm.FreeList vm.area managed free l) :
    MapsFree mm addr len flags vm ↔ ¬MapMisses mm addr len := by
  obtain ⟨ok, vm', hk⟩ := kmalloc_returns hl
  by_cases haccess : USER_ACCESS (ROUNDDOWN addr PGSIZE) (ROUNDUP (u64 (addr + len)) PGSIZE) = true
  · obtain ⟨hbase, hlt, htop⟩ := of_decide_eq_true haccess
    by_cases htaken : ∃ v ∈ mm.mmapList, v.contains (ROUNDDOWN addr PGSIZE) = true
    · obtain ⟨v, hv, hin⟩ := htaken
      obtain ⟨mm', hsame, hr⟩ := mmMap_taken flags vm h haccess hv hin
      refine ⟨fun _ hmiss => ?_, fun _ => ⟨_, _, _, hr, fun hfree => ?_, fun _ => ⟨rfl, hsame.mmapList⟩⟩⟩
      · rw [hmiss.2.1 v hv] at hin
        cases hin
      · rw [mapStart_eq] at hin
        obtain ⟨hle, hend⟩ := VmaStruct.contains_iff.mp hin
        exact absurd ⟨hle.trans_lt hfree.2.1, hend⟩ (hfree.2.2.2 v hv)
    · have hno : ∀ v ∈ mm.mmapList, v.contains (ROUNDDOWN addr PGSIZE) = false := fun v hv =>
        Bool.eq_false_iff.mpr fun hin => htaken ⟨v, hv, hin⟩
      obtain ⟨hfail, hmapped, hpanic⟩ := mmMap_untaken flags h rfl rfl haccess hno hk
      -- past the tests only a free range goes well
      have hbad : ¬mm.FreeRange (mapStart addr) (mapStop addr len) → ¬MapsFree mm addr len flags vm := by
        rintro hrange ⟨ret, mm', vm'', hr, _, hinval⟩
        obtain ⟨rfl, _⟩ := hinval hrange
        cases ok with
        | false => exact nomatch (hfail rfl).symm.trans hr
        | true =>
            by_cases hfree : mm.Free ⟨ROUNDDOWN addr PGSIZE, ROUNDUP (u64 (addr + len)) PGSIZE, flags⟩
            · exact nomatch (hmapped rfl hfree).symm.trans hr
            · obtain ⟨text, ht⟩ := hpanic rfl hfree
              exact nomatch ht.symm.trans hr
      by_cases hwrap : 2 ^ 64 ≤ addr + len
      · refine ⟨fun hmaps _ => hbad (fun hrange => ?_) hmaps, fun hmiss => ?_⟩
        · exact absurd (mapStop_user hrange.2.2.1).1 (not_lt.mpr hwrap)
        · exact absurd ⟨haccess, hno, Or.inl hwrap⟩ hmiss
      · have hstop := mapStop_eq haddr hlen (mapStart_eq ▸ hlt) (not_le.mp hwrap)
        rw [mapStart_eq, hstop] at hmapped
        rw [mapStart_eq] at hno hbase hlt
        rw [hstop] at hlt htop
        by_cases hmeets : ∃ v ∈ mm.mmapList, mapStart addr < v.vmStart ∧ v.vmStart < mapStop addr len
        · refine ⟨fun hmaps _ => hbad (fun hrange => ?_) hmaps, fun hmiss => absurd ?_ hmiss⟩
          · obtain ⟨v, hv, hlo, hhi⟩ := hmeets
            exact hrange.2.2.2 v hv ⟨hhi, hlo.trans (h.nonempty v hv)⟩
          · refine ⟨haccess, ?_, Or.inr ?_⟩
            · rw [mapStart_eq]
              exact hno
            · rw [mapStart_eq, hstop]
              exact hmeets
        · have hapart : ∀ v ∈ mm.mmapList, ¬v.Meets ⟨mapStart addr, mapStop addr len, flags⟩ := by
            rintro v hv ⟨hlo, hhi⟩
            have hout := of_decide_eq_false (hno v hv)
            refine hmeets ⟨v, hv, not_le.mp fun hle => hout ⟨hle, hhi⟩, hlo⟩
          refine ⟨fun _ hmiss => ?_, fun _ => ?_⟩
          · rcases hmiss.2.2 with hw | ⟨v, hv, hlo, hhi⟩
            · exact hwrap hw
            · rw [mapStart_eq] at hlo
              rw [hstop] at hhi
              exact hmeets ⟨v, hv, hlo, hhi⟩
          · have hrange : mm.FreeRange (mapStart addr) (mapStop addr len) := ⟨hbase, hlt, htop, hapart⟩
            cases ok with
            | false =>
                refine ⟨_, _, _, hfail rfl, fun _ vm'' hk' => ?_, fun hno => absurd hrange hno⟩
                rw [hk] at hk'
                cases hk'
            | true =>
                exact ⟨_, _, _, hmapped rfl ⟨hlt, hapart⟩,
                  fun _ _ _ => ⟨rfl, h.insert hlt hapart, insertSorted_perm⟩, fun hno => absurd hrange hno⟩
  · rw [Bool.not_eq_true] at haccess
    have hr := mmMap_outside mm flags vm haccess
    refine ⟨fun _ hmiss => ?_, fun _ => ⟨_, _, _, hr, fun hfree => ?_, fun _ => ⟨rfl, rfl⟩⟩⟩
    · rw [hmiss.1] at haccess
      cases haccess
    · rw [mapStart_eq, (mapStop_user hfree.2.2.1).2] at haccess
      exact absurd ⟨hfree.1, hfree.2.1, hfree.2.2.1⟩ (of_decide_eq_false haccess)

theorem bareVm_freeList :
    Pmm.FreeList bareVm.area (Finset.Ico 0 (0 + 2)) (Finset.Ico 0 (0 + 2) \ ∅) bareVm.area.members :=
  Pmm.twoPages_booted.represents.freeList

-- Below the stack there is room.
theorem mm_map_free_below :
    MapsFree stackMm 0x800000 0x1000 3 bareVm ↔ ¬MapMisses stackMm 0x800000 0x1000 :=
  mm_map_free stackMm_sorted (by decide) (by decide) bareVm_freeList

-- A range that starts below the stack and reaches into it stops the kernel.
theorem mm_map_panics : ¬∀ mm : MmStruct, mm.Sorted → ∀ addr < 2 ^ 64, ∀ len < 2 ^ 64, ∀ flags vm,
    (∃ managed free l, Pmm.FreeList vm.area managed free l) → MapsFree mm addr len flags vm := by
  intro hall
  obtain ⟨ret, mm', vm', hr, _⟩ := hall stackMm stackMm_sorted 0x7fef0000 (by decide) 0x20000 (by decide) 3
    bareVm ⟨_, _, _, bareVm_freeList⟩
  cases hr

end Ucore.Mm
