import Ucore.Mm.Fill
import Ucore.Mm.Ranges

namespace Ucore.Mm

open Lib Pmm

variable {vm vm' vm₁ : VM} {managed : Finset Nat} {role role' role₁ : Nat → Role} {bad : Obs → Prop}
  {addr flags hi len lo n perm ph q r u : Nat} {mm mm' : MmStruct} {vma : VmaStruct} {vmas vmas' : List VmaStruct}
  {space : Nat → Option (List VmaStruct)} {img : Image} {byte : Nat → Option Nat} {W W' : Nat → Prop} {E : Halt → Prop}

-- A number in the image
def imgField (img : Image) (addr n : Nat) : Nat := littleEndian (fun k => img.byte (u64 addr + k) % 256) n

theorem wp_readField {Q : Nat → VM → Prop} (hn : 0 < n) (hread : Readable (u64 addr) n → Q (imgField img addr n) vm)
    (hpanic : ¬Readable (u64 addr) n → E (.panic "kernel page fault.\n")) :
    Prog.wp bad (readField img addr n) vm Q E := by
  simp only [readField, readImage, Prog.wp_bind, Prog.wp_note, Prog.wp_ite, Prog.wp_pure, Prog.wp_halt]
  refine fun _ => ⟨fun hin => hread (hin.resolve_left (by omega)), fun hno => hpanic fun hin => hno (Or.inr hin)⟩

theorem littleEndian_lt {g : Nat → Nat} (hg : ∀ k, g k < 256) (n : Nat) : littleEndian g n < 256 ^ n := by
  induction n with
  | zero => exact Nat.one_pos
  | succ n ih =>
      have hmul := Nat.mul_le_mul_right (256 ^ n) (Nat.le_of_lt_succ (hg n : g n < 255 + 1))
      rw [littleEndian, Nat.pow_succ]
      omega

-- The list of vmas of an address space grows.
theorem VmInv.relist (h : VmInv vm managed role (Function.update space r (some vmas))) (hsub : ∀ vma ∈ vmas, vma ∈ vmas')
    (hok : ∀ vma ∈ vmas', vma.Ok) (hsorted : vmas'.Pairwise fun a b => a.vmEnd ≤ b.vmStart) :
    VmInv vm managed role (Function.update space r (some vmas')) := by
  refine ⟨h.rep, h.safe, fun q => (h.root q).trans ?_, fun q l hs => ?_⟩
  · rw [Function.update_apply, Function.update_apply]
    split_ifs
    · simp
    · rfl
  · rw [Function.update_apply] at hs
    split_ifs at hs with hq
    · cases hs
      rw [hq]
      refine ⟨hok, hsorted, fun u lf hu hlf => ?_⟩
      obtain ⟨vma, hvma, hcov, hperm⟩ := (h.space r vmas (Function.update_self ..)).leaf u lf hu hlf
      exact ⟨vma, hsub vma hvma, hcov, hperm⟩
    · exact h.space q l (by rw [Function.update_of_ne hq]; exact hs)

-- The mm that load_icode fills, beside the address spaces of the others
structure Filling (vm : VM) (managed : Finset Nat) (role : Nat → Role) (space : Nat → Option (List VmaStruct))
    (mm : MmStruct) : Prop where
  inv : VmInv vm managed role (Function.update space mm.pgdir (some mm.mmapList))
  fresh : space mm.pgdir = none
  cache : ∀ vma, mm.mmapCache = some vma → vma ∈ mm.mmapList
  count : mm.mmCount = 0
  lock : mm.mmLock = false

namespace Filling

theorem same (h : Filling vm managed role space mm) (hs : SameMm mm mm') : Filling vm managed role space mm' := by
  refine ⟨?_, by rw [hs.pgdir, h.fresh], hs.cache, hs.mmCount.trans h.count, hs.mmLock.trans h.lock⟩
  rw [hs.pgdir, hs.mmapList]
  exact h.inv

-- The memory changes, and the mm does not.
theorem keep (h : Filling vm managed role space mm)
    (hinv : VmInv vm' managed role' (Function.update space mm.pgdir (some mm.mmapList))) :
    Filling vm' managed role' space mm :=
  ⟨hinv, h.fresh, h.cache, h.count, h.lock⟩

theorem spaceOf (h : Filling vm managed role space mm) : Space vm.mem mm.pgdir mm.mmapList :=
  h.inv.space _ _ (Function.update_self ..)

theorem sorted (h : Filling vm managed role space mm) : mm.Sorted :=
  ⟨fun vma hvma => (h.spaceOf.ok vma hvma).lt, h.spaceOf.sorted, h.cache⟩

theorem root (h : Filling vm managed role space mm) : role mm.pgdir = .root :=
  h.inv.root_of (Function.update_self ..)

end Filling

-- The vma that mm_map makes
def mapVma (addr len flags : Nat) : VmaStruct :=
  ⟨ROUNDDOWN addr PGSIZE, ROUNDUP (u64 (addr + len)) PGSIZE, flags⟩

-- What mm_map asks for before it makes it
def Mappable (vmas : List VmaStruct) (vma : VmaStruct) : Prop :=
  USER_ACCESS vma.vmStart vma.vmEnd = true ∧ ∀ v ∈ vmas, ¬v.Meets vma

theorem mapVma_ok (h : USER_ACCESS (mapVma addr len flags).vmStart (mapVma addr len flags).vmEnd = true) :
    (mapVma addr len flags).Ok := by
  obtain ⟨hbase, hlt, htop⟩ := of_decide_eq_true h
  have hdown : ∀ a, ROUNDDOWN a PGSIZE % PGSIZE = 0 := by
    intro a
    unfold ROUNDDOWN PGSIZE
    omega
  exact ⟨hdown _, hdown _, hbase, hlt, htop⟩

theorem mapVma_end (h : USER_ACCESS (mapVma addr len flags).vmStart (mapVma addr len flags).vmEnd = true)
    (hwrap : addr + len < 18446744073709551616) : addr + len ≤ (mapVma addr len flags).vmEnd := by
  obtain ⟨_, hlt, _⟩ := of_decide_eq_true h
  unfold mapVma ROUNDUP ROUNDDOWN u64 PGSIZE at *
  simp only at *
  omega

-- No vma is there where it starts, and one starts in it: mm_map does not see that.
def Overruns (vmas : List VmaStruct) (vma : VmaStruct) : Prop :=
  USER_ACCESS vma.vmStart vma.vmEnd = true ∧ (∀ v ∈ vmas, v.contains vma.vmStart = false) ∧ ∃ v ∈ vmas, v.Meets vma

theorem Mappable.not_overruns (h : Mappable vmas vma) : ¬Overruns vmas vma :=
  fun ⟨_, _, v, hv, hmeet⟩ => h.2 v hv hmeet

-- mm_map, with what kmalloc does
theorem wp_mmMap {K : Bool → VM → Prop} {Q : Int × MmStruct → VM → Prop} (h : mm.Sorted)
    (hroom : Prog.wp bad kmalloc vm K E)
    (hok : ∀ vm' mm', K true vm' → Mappable mm.mmapList (mapVma addr len flags) →
      SameMm { mm with
        mmapList := insertSorted (mapVma addr len flags) mm.mmapList
        mapCount := mm.mapCount + 1 } mm' → Q (0, mm') vm')
    (hinval : ∀ mm', SameMm mm mm' → ¬Mappable mm.mmapList (mapVma addr len flags) → Q (-E_INVAL, mm') vm)
    (hnoMem : ∀ vm' mm', K false vm' → SameMm mm mm' → Q (-E_NO_MEM, mm') vm')
    (hpanic : Overruns mm.mmapList (mapVma addr len flags) → Asserts E) :
    Prog.wp bad (mmMap mm addr len flags) vm Q E := by
  obtain ⟨found, mm₁, hfind, hsame, hsome, hnone⟩ := findVma_spec h.cache (ROUNDDOWN addr PGSIZE)
  have h₁ := h.same hsame
  have hvma : (⟨ROUNDDOWN addr PGSIZE, ROUNDUP (u64 (addr + len)) PGSIZE, flags⟩ : VmaStruct) = mapVma addr len flags :=
    rfl
  unfold mmMap
  simp only [hfind]
  by_cases haccess : USER_ACCESS (ROUNDDOWN addr PGSIZE) (ROUNDUP (u64 (addr + len)) PGSIZE) = true
  · rw [haccess, if_neg (by simp)]
    by_cases htaken : found.any (fun vma => ROUNDUP (u64 (addr + len)) PGSIZE > vma.vmStart) = true
    · rw [if_pos htaken, Prog.wp_pure]
      refine hinval mm₁ hsame fun hmap => ?_
      cases hf : found with
      | none =>
          rw [hf] at htaken
          cases htaken
      | some v =>
          rw [hf, Option.any_some, decide_eq_true_eq] at htaken
          obtain ⟨hv, hin⟩ := hsome v hf
          have hin := VmaStruct.contains_iff.mp hin
          exact hmap.2 v hv ⟨htaken, hin.2⟩
    · rw [if_neg htaken, vmaCreate, Prog.wp_bind, Prog.wp_bind]
      refine Prog.wp_conseq hroom fun ok vm' hk => ?_
      cases ok with
      | true =>
          rw [if_pos rfl, Prog.wp_pure]
          simp only [Prog.wp_bind]
          refine wp_insertVmaStruct h₁ (fun hlt hmeets => ?_) fun hmeets => hpanic ?_
          · rw [Prog.wp_pure]
            have hins := h₁.insert hlt hmeets
            rw [hsame.mmapList] at hmeets
            refine hok vm' _ hk ⟨haccess, hmeets⟩ ⟨?_, hsame.pgdir, ?_, hsame.mmCount, hsame.mmLock, hins.cache⟩
            · rw [hsame.mmapList, hvma]
            · rw [hsame.mapCount]
          · obtain ⟨_, hlt, _⟩ := of_decide_eq_true haccess
            obtain ⟨v, hv, hmeet⟩ := hmeets.resolve_left (not_le.mpr hlt)
            rw [hsame.mmapList] at hv
            refine ⟨haccess, hnone ?_, v, hv, hmeet⟩
            -- a vma found ends above the start of the new one, and starts above its end
            cases hf : found with
            | none => rfl
            | some w =>
                rw [hf, Option.any_some, decide_eq_true_eq] at htaken
                have hin := VmaStruct.contains_iff.mp (hsome w hf).2
                omega
      | false =>
          rw [if_neg (by simp), Prog.wp_pure]
          simp only [Prog.wp_pure]
          exact hnoMem vm' mm₁ hk hsame
  · rw [Bool.eq_false_iff.mpr haccess, if_pos (by simp), Prog.wp_pure]
    exact hinval mm ⟨rfl, rfl, rfl, rfl, rfl, h.cache⟩ fun hmap => haccess hmap.1

-- mm_map for an mm that is being filled
theorem Filling.wp_mmMap {Q : Int × MmStruct → VM → Prop} (h : Filling vm managed role space mm)
    (hok : ∀ vm' role' mm', Mappable mm.mmapList (mapVma addr len flags) → mm'.pgdir = mm.pgdir →
      mm'.mmapList = insertSorted (mapVma addr len flags) mm.mmapList → Filling vm' managed role' space mm' →
      Heaped vm vm' role role' → Q (0, mm') vm')
    (hinval : ∀ mm', SameMm mm mm' → ¬Mappable mm.mmapList (mapVma addr len flags) → Q (-E_INVAL, mm') vm)
    (hnoMem : ∀ vm' mm', ¬bad .noMem → mm'.pgdir = mm.pgdir → Filling vm' managed role space mm' →
      Heaped vm vm' role role → Q (-E_NO_MEM, mm') vm')
    (hpanic : Overruns mm.mmapList (mapVma addr len flags) → Asserts E) :
    Prog.wp bad (mmMap mm addr len flags) vm Q E := by
  have hroom : Prog.wp bad kmalloc vm (fun ok vm' =>
      (ok = true → ∃ role', VmInv vm' managed role' (Function.update space mm.pgdir (some mm.mmapList)) ∧
        Heaped vm vm' role role') ∧
      (ok = false → ¬bad .noMem ∧ VmInv vm' managed role (Function.update space mm.pgdir (some mm.mmapList)) ∧
        Heaped vm vm' role role)) E :=
    wp_kmalloc h.inv (fun vm' role' hinv hheap => ⟨fun _ => ⟨role', hinv, hheap⟩, nofun⟩)
      fun vm' hno hinv hheap => ⟨nofun, fun _ => ⟨hno, hinv, hheap⟩⟩
  refine Mm.wp_mmMap h.sorted hroom (fun vm' mm' hk hmap hsame => ?_) hinval (fun vm' mm' hk hsame => ?_) hpanic
  · obtain ⟨role', hinv, hheap⟩ := hk.1 rfl
    have hins := (h.sorted.insert (of_decide_eq_true hmap.1).2.1 hmap.2).same hsame
    refine hok vm' role' mm' hmap hsame.pgdir hsame.mmapList ⟨?_, ?_, hsame.cache, hsame.mmCount.trans h.count,
      hsame.mmLock.trans h.lock⟩ hheap
    · rw [hsame.pgdir]
      refine hinv.relist (fun v hv => ?_) (fun v hv => ?_) hins.sorted
      · rw [hsame.mmapList]
        exact insertSorted_perm.mem_iff.mpr (List.mem_cons_of_mem _ hv)
      · rw [hsame.mmapList] at hv
        rcases List.mem_cons.mp (insertSorted_perm.mem_iff.mp hv) with rfl | hv
        · exact mapVma_ok hmap.1
        · exact h.spaceOf.ok v hv
    · rw [hsame.pgdir]
      exact h.fresh
  · obtain ⟨hno, hinv, hheap⟩ := hk.2 rfl
    exact hnoMem vm' mm' hno hsame.pgdir ((h.keep hinv).same hsame) hheap

-- What loading into the address space `r` leaves: the others, and the pages that are there. A
-- new page was free, and it holds what it held then except at the addresses in `W`.
structure Extends (vm vm' : VM) (role role' : Nat → Role) (r : Nat) (W : Nat → Prop) : Prop where
  gains : Gains vm vm' role role' r
  own : ∀ u lf, u < UPAGES → leaf vm.mem r u = some lf →
    leaf vm'.mem r u = some lf ∧ vm'.mem lf.frame = vm.mem lf.frame
  free : ∀ q, role' q = .free → role q = .free ∧ vm'.mem q = vm.mem q
  new : ∀ u lf, u < UPAGES → leaf vm.mem r u = none → leaf vm'.mem r u = some lf → role lf.frame = .free ∧
    ∀ off < PGSIZE, ¬W (u * PGSIZE + off) → (vm'.mem lf.frame).byte off = (vm.mem lf.frame).byte off

theorem Extends.refl : Extends vm vm role role r W := by
  refine ⟨Gains.refl, fun _ _ _ hlf => ⟨hlf, rfl⟩, fun _ hq => ⟨hq, rfl⟩, fun u lf _ hnone hlf => ?_⟩
  rw [hnone] at hlf
  cases hlf

theorem Extends.mono (h : Extends vm vm' role role' r W) (hW : ∀ a, W a → W' a) : Extends vm vm' role role' r W' := by
  refine ⟨h.gains, h.own, h.free, fun u lf hu hnone hlf => ?_⟩
  obtain ⟨hfree, hbyte⟩ := h.new u lf hu hnone hlf
  exact ⟨hfree, fun off hoff hno => hbyte off hoff fun hw => hno (hW _ hw)⟩

theorem Extends.trans (h : Extends vm vm₁ role role₁ r W) (h' : Extends vm₁ vm' role₁ role' r W) :
    Extends vm vm' role role' r W := by
  refine ⟨h.gains.trans h'.gains, fun u lf hu hlf => ?_, fun q hq => ?_, fun u lf hu hnone hlf => ?_⟩
  · obtain ⟨hlf₁, hmem₁⟩ := h.own u lf hu hlf
    obtain ⟨hlf', hmem'⟩ := h'.own u lf hu hlf₁
    exact ⟨hlf', hmem'.trans hmem₁⟩
  · obtain ⟨hq₁, hmem'⟩ := h'.free q hq
    obtain ⟨hq₀, hmem₁⟩ := h.free q hq₁
    exact ⟨hq₀, hmem'.trans hmem₁⟩
  · cases hlf₁ : leaf vm₁.mem r u with
    | none =>
        -- the page was still free in between
        obtain ⟨hfree₁, hbyte⟩ := h'.new u lf hu hlf₁ hlf
        obtain ⟨hfree, hmem⟩ := h.free _ hfree₁
        exact ⟨hfree, fun off hoff hno => by rw [hbyte off hoff hno, hmem]⟩
    | some lf₁ =>
        obtain ⟨hlf', hmem⟩ := h'.own u lf₁ hu hlf₁
        obtain rfl : lf₁ = lf := Option.some_inj.mp (hlf'.symm.trans hlf)
        obtain ⟨hfree, hbyte⟩ := h.new u lf₁ hu hnone hlf₁
        exact ⟨hfree, fun off hoff hno => by rw [hmem, hbyte off hoff hno]⟩

theorem Heaped.free_of (h : Heaped vm vm' role role') {q : Nat} (hq : role' q = .free) : role q = .free := by
  by_contra hno
  rw [h.keep q hno] at hq
  exact hno hq

theorem Heaped.extends (h : Heaped vm vm' role role') (htree : Tree vm.mem role) : Extends vm vm' role role' r W := by
  refine ⟨h.gains htree, fun _ _ _ hlf => ⟨by rw [h.mem, hlf], by rw [h.mem]⟩,
    fun q hq => ⟨h.free_of hq, by rw [h.mem]⟩, fun u lf _ hnone hlf => ?_⟩
  rw [h.mem, hnone] at hlf
  cases hlf

theorem Loaded.extends (h : Loaded vm vm' role role' r perm lo hi byte) (htree : Tree vm.mem role)
    (hr : role r = .root) (hW : ∀ a, (byte a).isSome → W a) : Extends vm vm' role role' r W := by
  refine ⟨h.gains htree, fun u lf hu hlf => ⟨?_, ?_⟩, fun q hq => ⟨h.free_of hq, ?_⟩, fun u lf hu hnone hlf => ?_⟩
  · rw [h.other r u hr hu, hlf]
    rintro ⟨_, hlo, hhi⟩
    rw [h.was u hlo hhi] at hlf
    cases hlf
  · have hf := htree.leaf_frame hr hu hlf
    have hf' : role' lf.frame = .frame := (h.keep _ (by rw [hf]; simp)).trans hf
    exact h.mem _ (by rw [hf']; rfl) (by rw [hf]; simp)
  · exact h.mem q (by rw [hq]; rfl) (by rw [hq]; simp)
  · by_cases hin : lo ≤ u ∧ u < hi
    · obtain ⟨f, hfree, _, hleaf, _, hbyte⟩ := h.page u hin.1 hin.2
      obtain rfl : _ = lf := Option.some_inj.mp (hleaf.symm.trans hlf)
      refine ⟨hfree, fun off hoff hno => ?_⟩
      rw [hbyte off hoff, Option.not_isSome_iff_eq_none.mp fun hsome => hno (hW _ hsome), Option.getD_none]
    · rw [h.other r u hr hu fun hno => hin hno.2, hnone] at hlf
      cases hlf

-- A program header
structure Phdr where
  type : Nat
  flags : Nat
  offset : Nat
  va : Nat
  filesz : Nat
  memsz : Nat
  deriving DecidableEq, Repr

def phdr (img : Image) (ph : Nat) : Phdr where
  type := imgField img ph 4
  flags := imgField img (ph + 4) 4
  offset := imgField img (ph + 8) 8
  va := imgField img (ph + 16) 8
  filesz := imgField img (ph + 32) 8
  memsz := imgField img (ph + 40) 8

def Phdr.region (h : Phdr) : VmaStruct := mapVma h.va h.memsz (segFlags h.flags)

def Phdr.bits (h : Phdr) : Nat := segPerm (segFlags h.flags)

-- The addresses of a segment
def Phdr.Has (h : Phdr) (a : Nat) : Prop := h.va ≤ a ∧ a < h.va + h.memsz

-- The byte of a segment at the address `a`
def Phdr.content (h : Phdr) (img : Image) (a : Nat) : Nat :=
  if a < h.va + h.filesz then img.byte (u64 (u64 (img.binary + h.offset) + (a - h.va))) % 256 else 0

-- The segment is in the memory of the process, with its permissions.
structure Phdr.In (h : Phdr) (img : Image) (mem : Nat → Words) (r : Nat) : Prop where
  top : h.va + h.memsz ≤ USERTOP
  byte : ∀ a, h.va ≤ a → a < h.va + h.memsz → ∃ lf, leaf mem r (a / PGSIZE) = some lf ∧ lf.perm = h.bits ∧
    (mem lf.frame).byte (a % PGSIZE) = h.content img a

-- What load_icode asks of a header when these vmas are there already
structure Phdr.Ok (h : Phdr) (img : Image) (vmas : List VmaStruct) : Prop where
  fits : h.filesz ≤ h.memsz
  wraps : h.va + h.memsz < 18446744073709551616
  free : Mappable vmas h.region
  file : 0 < h.filesz → Readable (u64 (img.binary + h.offset)) h.filesz

theorem segFlags_lt (pFlags : Nat) : segFlags pFlags < 8 := by
  unfold segFlags
  split_ifs <;> decide

theorem segPerm_ok : ∀ fl < 8, segPerm fl < 1024 ∧ segPerm fl ||| PTE_V = segPerm fl ∧
    segPerm fl &&& PTE_V ≠ 0 ∧ segPerm fl &&& PTE_U ≠ 0 ∧
    (segPerm fl &&& PTE_R ≠ 0 ↔ fl &&& VM_READ ≠ 0 ∨ fl &&& VM_WRITE ≠ 0) ∧
    (segPerm fl &&& PTE_W ≠ 0 ∨ segPerm fl &&& PTE_COW ≠ 0 ↔ fl &&& VM_WRITE ≠ 0) ∧
    (segPerm fl &&& PTE_W = 0 ∨ segPerm fl &&& PTE_COW = 0) ∧
    (segPerm fl &&& PTE_X ≠ 0 ↔ fl &&& VM_EXEC ≠ 0 ∨ fl &&& VM_STACK ≠ 0) := by
  decide

theorem Phdr.bits_ok (h : Phdr) : PermOk h.region.vmFlags (h.bits ||| PTE_V) := by
  obtain ⟨hlow, hv, hvalid, huser, hread, hwrite, honce, hexec⟩ := segPerm_ok _ (segFlags_lt h.flags)
  unfold Phdr.bits
  rw [hv]
  exact ⟨hlow, hvalid, huser, hread, hwrite, honce, hexec⟩

theorem Phdr.bits_valid (h : Phdr) : h.bits ||| PTE_V = h.bits :=
  (segPerm_ok _ (segFlags_lt h.flags)).2.1

theorem Loaded.segment {h : Phdr} (hload : Loaded vm vm' role role' r h.bits (h.va / PGSIZE) hi
    (segByte img (u64 (img.binary + h.offset)) h.va h.filesz h.memsz))
    (hhi : 0 < h.memsz → h.va + h.memsz ≤ hi * PGSIZE) (htop : h.va + h.memsz ≤ USERTOP) : h.In img vm'.mem r := by
  refine ⟨htop, fun a hlo hlt => ?_⟩
  have hu : a / PGSIZE < hi := by
    have := hhi (by omega)
    unfold PGSIZE at *
    omega
  obtain ⟨f, _, _, hleaf, _, hb⟩ := hload.page (a / PGSIZE) (Nat.div_le_div_right hlo) hu
  refine ⟨_, hleaf, h.bits_valid, ?_⟩
  rw [hb _ (Nat.mod_lt _ (by decide)), Nat.div_add_mod', segByte, Phdr.content]
  by_cases hfile : a < h.va + h.filesz
  · rw [if_pos hfile, fillByte, if_pos ⟨hlo, hfile⟩, Option.some_or, Option.getD_some, srcByte]
  · rw [if_neg hfile, fillByte_none_of _ (by omega), Option.none_or, fillByte, if_pos ⟨not_lt.mp hfile, hlt⟩,
      Option.getD_some, srcByte]

theorem segByte_isSome {src va filesz memsz a : Nat} (hfits : filesz ≤ memsz)
    (hsome : (segByte img src va filesz memsz a).isSome) : va ≤ a ∧ a < va + memsz := by
  by_contra hno
  rw [segByte, fillByte_none_of _ (by omega), fillByte_none_of _ (by omega)] at hsome
  cases hsome

theorem Phdr.In.extends {h : Phdr} (hin : h.In img vm.mem r) (hext : Extends vm vm' role role' r W) :
    h.In img vm'.mem r := by
  refine ⟨hin.top, fun a hlo hlt => ?_⟩
  obtain ⟨lf, hleaf, hbits, hbyte⟩ := hin.byte a hlo hlt
  obtain ⟨hleaf', hmem⟩ := hext.own _ lf (page_lt (hlt.trans_le hin.top)) hleaf
  exact ⟨lf, hleaf', hbits, by rw [hmem, hbyte]⟩

-- Where a header can be read
def HeaderIn (ph : Nat) : Prop := KERNEL_MAP ≤ ph ∧ ph + SIZEOF_PROGHDR ≤ 18446744073709551616

theorem HeaderIn.field {k : Nat} (h : HeaderIn ph) (hk : k + n ≤ SIZEOF_PROGHDR) (hn : 0 < n) : Readable (u64 (ph + k)) n := by
  unfold HeaderIn Readable u64 KERNEL_MAP SIZEOF_PROGHDR at *
  omega

-- load_icode goes on with a header, as far as the header alone tells.
structure Phdr.Accepted (h : Phdr) : Prop where
  fits : h.filesz ≤ h.memsz
  access : USER_ACCESS h.region.vmStart h.region.vmEnd = true

-- What load_icode reads of the image lies in the map of the kernel, from the header at `ph` on.
def HeadersMapped (img : Image) : Nat → Nat → Prop
  | 0, _ => True
  | n + 1, ph => HeaderIn ph ∧ ((phdr img ph).type = ELF_PT_LOAD → (phdr img ph).Accepted →
      0 < (phdr img ph).filesz → Readable (u64 (img.binary + (phdr img ph).offset)) (phdr img ph).filesz) ∧
      (((phdr img ph).type = ELF_PT_LOAD → (phdr img ph).Accepted) → HeadersMapped img n (u64 (ph + SIZEOF_PROGHDR)))

-- The panics of load_icode, and the images that are left out: the kernel has a page fault
-- only where the image is not mapped.
structure Careless (bad : Obs → Prop) (E : Halt → Prop) (mapped : Prop) : Prop where
  asserts : Asserts E
  wraps : ∀ va memsz, 18446744073709551616 ≤ va + memsz → bad (.segment va memsz)
  faults : mapped ∨ E (.panic "kernel page fault.\n")

theorem Careless.panics {P : Prop} (h : Careless bad E P) (hp : ¬P) (text : String) : E (.panic text) := by
  by_cases htext : text = "kernel page fault.\n"
  · rw [htext]
    exact h.faults.resolve_left hp
  · exact h.asserts text htext

theorem Careless.imp {P P' : Prop} (h : Careless bad E P) (hp : P → P') : Careless bad E P' :=
  ⟨h.asserts, h.wraps, h.faults.imp_left hp⟩

-- What load_icode runs into at a loadable header, beside these vmas, has its place in `bad` or `E`.
structure Phdr.Handled (h : Phdr) (bad : Obs → Prop) (E : Halt → Prop) (img : Image) (vmas : List VmaStruct) : Prop where
  overruns : Overruns vmas h.region → Asserts E
  wraps : Mappable vmas h.region → 18446744073709551616 ≤ h.va + h.memsz → bad (.segment h.va h.memsz)
  file : Mappable vmas h.region → 0 < h.filesz →
    Readable (u64 (img.binary + h.offset)) h.filesz ∨ E (.panic "kernel page fault.\n")

theorem Phdr.Ok.handled {h : Phdr} (hok : h.Ok img vmas) : h.Handled bad E img vmas :=
  ⟨fun hover => absurd hover hok.free.not_overruns, fun _ hwrap => absurd hok.wraps (not_lt.mpr hwrap),
    fun _ hpos => Or.inl (hok.file hpos)⟩

section Segment

variable {Q : Int × MmStruct → VM → Prop}

-- (3.4) to (3.6) of load_icode, for the header at `ph`
theorem wp_loadSegment (h : Filling vm managed role space mm) (hhead : HeaderIn ph ∨ E (.panic "kernel page fault.\n"))
    (hseg : (phdr img ph).type = ELF_PT_LOAD → (phdr img ph).filesz ≤ (phdr img ph).memsz →
      (phdr img ph).Handled bad E img mm.mmapList)
    (hok : ∀ vm' role' mm', Filling vm' managed role' space mm' → mm'.pgdir = mm.pgdir →
      Extends vm vm' role role' mm.pgdir (fun a => (phdr img ph).type = ELF_PT_LOAD ∧ (phdr img ph).Has a) →
      ((phdr img ph).type ≠ ELF_PT_LOAD ∧ mm'.mmapList = mm.mmapList ∨
        (phdr img ph).type = ELF_PT_LOAD ∧ (phdr img ph).filesz ≤ (phdr img ph).memsz ∧
          Mappable mm.mmapList (phdr img ph).region ∧ (phdr img ph).In img vm'.mem mm.pgdir ∧
          mm'.mmapList = insertSorted (phdr img ph).region mm.mmapList) → Q (0, mm') vm')
    (hfail : ∀ vm' role' ret mm', ret ≠ 0 →
      (((phdr img ph).type = ELF_PT_LOAD → (phdr img ph).Ok img mm.mmapList) → ¬bad .noMem ∧ ret = -E_NO_MEM) →
      Filling vm' managed role' space mm' → mm'.pgdir = mm.pgdir → Gains vm vm' role role' mm.pgdir →
      Q (ret, mm') vm') :
    Prog.wp bad (loadSegment img mm ph) vm Q E := by
  have hfield : ∀ k n, 0 < n → k + n ≤ SIZEOF_PROGHDR → ¬Readable (u64 (ph + k)) n →
      E (.panic "kernel page fault.\n") :=
    fun k n hn hk hno => hhead.resolve_left fun hin => hno (hin.field hk hn)
  rw [loadSegment, Prog.wp_bind]
  refine wp_readField (by decide) (fun _ => ?_) (hfield 0 4 (by decide) (by decide))
  by_cases htype : imgField img ph 4 = ELF_PT_LOAD
  · rw [if_neg (not_not.mpr htype), Prog.wp_bind]
    refine wp_readField (by decide) (fun _ => ?_) (hfield 32 8 (by decide) (by decide))
    rw [Prog.wp_bind]
    refine wp_readField (by decide) (fun _ => ?_) (hfield 40 8 (by decide) (by decide))
    have hload : (phdr img ph).type = ELF_PT_LOAD := htype
    by_cases hfits : imgField img (ph + 32) 8 > imgField img (ph + 40) 8
    · rw [if_pos hfits, Prog.wp_pure]
      exact hfail vm role _ mm (by decide) (fun hok => absurd (hok hload).fits (not_le.mpr hfits)) h rfl
        Gains.refl
    · rw [if_neg hfits, Prog.wp_bind]
      refine wp_readField (by decide) (fun _ => ?_) (hfield 4 4 (by decide) (by decide))
      rw [Prog.wp_bind]
      refine wp_readField (by decide) (fun _ => ?_) (hfield 16 8 (by decide) (by decide))
      simp only [Prog.wp_bind]
      have hhandled := hseg hload (not_lt.mp hfits)
      refine h.wp_mmMap (fun vm₁ role₁ mm₁ hmap hpgdir hlist h₁ hheap => ?_) (fun mm₁ hsame hno => ?_)
        (fun vm₁ mm₁ hno hpgdir h₁ hheap => ?_) hhandled.overruns
      · have hregion : (phdr img ph).region ∈ mm₁.mmapList := by
          rw [hlist]
          exact insertSorted_perm.mem_iff.mpr List.mem_cons_self
        simp only [ne_eq, not_true_eq_false, if_false, Prog.wp_bind, Prog.wp_note]
        intro hnote
        refine wp_readField (by decide) (fun _ => ?_) (hfield 8 8 (by decide) (by decide))
        have hwrap : (phdr img ph).va + (phdr img ph).memsz < 18446744073709551616 := by
          by_contra hno
          exact hnote (hhandled.wraps hmap (not_lt.mp hno))
        rw [hpgdir]
        have hspace : (Function.update space mm₁.pgdir (some mm₁.mmapList)) mm.pgdir = some mm₁.mmapList := by
          rw [← hpgdir]
          exact Function.update_self ..
        refine wp_loadPages hspace hregion (segPerm_ok _ (segFlags_lt _)).1
          (phdr img ph).bits_ok h₁.inv rfl ?_ (not_lt.mp hfits) (fun u hcov => ?_) ?_
          (fun vm' role' hi hinv' hhi hloaded => ?_) fun vm' role' hno hinv' hgain => ?_
        · exact mapVma_end hmap.1 hwrap
        · cases hlf : leaf vm₁.mem mm.pgdir u with
          | none => rfl
          | some lf =>
              rw [hheap.mem] at hlf
              have hu : u < UPAGES := (mapVma_ok hmap.1).lt_upages hcov
              obtain ⟨v, hv, hcov', _⟩ := h.spaceOf.leaf u lf hu hlf
              exact absurd ⟨hcov'.1.trans_lt hcov.2, hcov.1.trans_lt hcov'.2⟩ (hmap.2 v hv)
        · exact fun hpos hno => (hhandled.file hmap hpos).resolve_left hno
        · rw [Prog.wp_pure]
          have hr₁ : role₁ mm.pgdir = .root := hpgdir ▸ h₁.root
          refine hok vm' role' mm₁ (h₁.keep hinv') hpgdir
            ((hheap.extends h.inv.rep.tree).trans (hloaded.extends h₁.inv.rep.tree hr₁ fun a hsome =>
              ⟨hload, segByte_isSome (not_lt.mp hfits) hsome⟩))
            (Or.inr ⟨hload, not_lt.mp hfits, hmap, hloaded.segment hhi ((mapVma_end hmap.1 hwrap).trans (mapVma_ok hmap.1).top),
              hlist⟩)
        · have hne : (-E_NO_MEM : Int) ≠ 0 := by decide
          rw [Prog.wp_pure]
          exact hfail vm' role' _ mm₁ hne (fun _ => ⟨hno, rfl⟩) (h₁.keep hinv') hpgdir
            ((hheap.gains h.inv.rep.tree).trans hgain)
      · have hne : (-E_INVAL : Int) ≠ 0 := by decide
        rw [if_pos hne, Prog.wp_pure]
        exact hfail vm role _ mm₁ hne (fun hok => absurd (hok hload).free hno) (h.same hsame) hsame.pgdir Gains.refl
      · have hne : (-E_NO_MEM : Int) ≠ 0 := by decide
        rw [if_pos hne, Prog.wp_pure]
        exact hfail vm₁ role _ mm₁ hne (fun _ => ⟨hno, rfl⟩) h₁ hpgdir (hheap.gains h.inv.rep.tree)
  · rw [if_pos htype, Prog.wp_pure]
    exact hok vm role mm h rfl Extends.refl (Or.inl ⟨htype, rfl⟩)

end Segment

-- The program headers from `ph` on, and those that load_icode loads
def phdrs (img : Image) : Nat → Nat → List Phdr
  | 0, _ => []
  | n + 1, ph => phdr img ph :: phdrs img n (u64 (ph + SIZEOF_PROGHDR))

def segments (img : Image) (n ph : Nat) : List Phdr := (phdrs img n ph).filter fun h => h.type = ELF_PT_LOAD

-- The segments can be loaded beside these vmas.
structure Loadable (img : Image) (vmas : List VmaStruct) (n ph : Nat) : Prop where
  headers : n = 0 ∨ KERNEL_MAP ≤ ph ∧ ph + n * SIZEOF_PROGHDR ≤ 18446744073709551616
  ok : ∀ h ∈ segments img n ph, h.Ok img vmas
  apart : (segments img n ph).Pairwise fun a b => ¬a.region.Meets b.region

theorem Loadable.header (h : Loadable img vmas (n + 1) ph) : HeaderIn ph := by
  have hh := h.headers.resolve_left (Nat.succ_ne_zero n)
  unfold HeaderIn SIZEOF_PROGHDR at *
  omega

theorem segments_load (hload : (phdr img ph).type = ELF_PT_LOAD) :
    segments img (n + 1) ph = phdr img ph :: segments img n (u64 (ph + SIZEOF_PROGHDR)) := by
  rw [segments, phdrs, List.filter_cons_of_pos (by simpa using hload), segments]

theorem segments_skip (hload : (phdr img ph).type ≠ ELF_PT_LOAD) :
    segments img (n + 1) ph = segments img n (u64 (ph + SIZEOF_PROGHDR)) := by
  rw [segments, phdrs, List.filter_cons_of_neg (by simpa using hload), segments]

theorem Loadable.next_headers (h : Loadable img vmas (n + 1) ph) :
    n = 0 ∨ KERNEL_MAP ≤ u64 (ph + SIZEOF_PROGHDR) ∧
      u64 (ph + SIZEOF_PROGHDR) + n * SIZEOF_PROGHDR ≤ 18446744073709551616 := by
  have hh := h.headers.resolve_left (Nat.succ_ne_zero n)
  unfold u64 SIZEOF_PROGHDR KERNEL_MAP at *
  omega

theorem Loadable.skip (h : Loadable img vmas (n + 1) ph) (hload : (phdr img ph).type ≠ ELF_PT_LOAD) :
    Loadable img vmas n (u64 (ph + SIZEOF_PROGHDR)) := by
  have hok := h.ok
  have hapart := h.apart
  rw [segments_skip hload] at hok hapart
  exact ⟨h.next_headers, hok, hapart⟩

theorem Loadable.load (h : Loadable img vmas (n + 1) ph) (hload : (phdr img ph).type = ELF_PT_LOAD) :
    Loadable img (insertSorted (phdr img ph).region vmas) n (u64 (ph + SIZEOF_PROGHDR)) := by
  have hok := h.ok
  have hapart := h.apart
  rw [segments_load hload] at hok hapart
  obtain ⟨hhead, hapart⟩ := List.pairwise_cons.mp hapart
  refine ⟨h.next_headers, fun g hg => ?_, hapart⟩
  have hgok := hok g (List.mem_cons_of_mem _ hg)
  refine ⟨hgok.fits, hgok.wraps, ⟨hgok.free.1, fun v hv => ?_⟩, hgok.file⟩
  rcases List.mem_cons.mp (insertSorted_perm.mem_iff.mp hv) with rfl | hv
  · exact hhead g hg
  · exact hgok.free.2 v hv

-- What the loop over the headers runs into has its place in `bad` or `E`, and `P` holds of the vmas behind it.
def Passes (bad : Obs → Prop) (E : Halt → Prop) (img : Image) (P : List VmaStruct → Prop) :
    Nat → Nat → List VmaStruct → Prop
  | 0, _, vmas => P vmas
  | n + 1, ph, vmas => (HeaderIn ph ∨ E (.panic "kernel page fault.\n")) ∧
      ((phdr img ph).type ≠ ELF_PT_LOAD → Passes bad E img P n (u64 (ph + SIZEOF_PROGHDR)) vmas) ∧
      ((phdr img ph).type = ELF_PT_LOAD → (phdr img ph).filesz ≤ (phdr img ph).memsz →
        (phdr img ph).Handled bad E img vmas ∧ (Mappable vmas (phdr img ph).region →
          Passes bad E img P n (u64 (ph + SIZEOF_PROGHDR)) (insertSorted (phdr img ph).region vmas)))

theorem Loadable.passes {P : List VmaStruct → Prop} (h : Loadable img vmas n ph)
    (hP : ∀ vmas', vmas'.Perm ((segments img n ph).map Phdr.region ++ vmas) → P vmas') : Passes bad E img P n ph vmas := by
  induction n generalizing ph vmas with
  | zero => exact hP vmas (List.Perm.refl _)
  | succ n ih =>
      refine ⟨Or.inl h.header, fun htype => ih (h.skip htype) fun vmas' hperm => hP vmas' ?_, fun htype _ => ⟨?_, fun _ =>
        ih (h.load htype) fun vmas' hperm => hP vmas' ?_⟩⟩
      · rw [segments_skip htype]
        exact hperm
      · refine (h.ok _ ?_).handled
        rw [segments_load htype]
        exact List.mem_cons_self
      · rw [segments_load htype, List.map_cons]
        exact hperm.trans ((List.Perm.append_left _ insertSorted_perm).trans List.perm_middle)

theorem Careless.passes {P : List VmaStruct → Prop} (h : Careless bad E (HeadersMapped img n ph)) (hP : ∀ vmas, P vmas) :
    Passes bad E img P n ph vmas := by
  induction n generalizing ph vmas with
  | zero => exact hP vmas
  | succ n ih =>
      have hfault : ∀ {P : Prop}, (HeadersMapped img (n + 1) ph → P) → P ∨ E (.panic "kernel page fault.\n") :=
        fun hp => h.faults.imp_left hp
      refine ⟨hfault And.left, fun htype => ih (h.imp fun hmapped => hmapped.2.2 fun hload => absurd hload htype),
        fun htype hfits => ⟨⟨fun _ => h.asserts, fun _ => h.wraps _ _, fun hmap hpos => ?_⟩, fun hmap => ?_⟩⟩
      · exact hfault fun hmapped => hmapped.2.1 htype ⟨hfits, hmap.1⟩ hpos
      · exact ih (h.imp fun hmapped => hmapped.2.2 fun _ => ⟨hfits, hmap.1⟩)

section Segments

variable {Q : Int × MmStruct → VM → Prop} {P : List VmaStruct → Prop}

-- The loop over the program headers
theorem wp_loadSegments (h : Filling vm managed role space mm) (hmode : Passes bad E img P n ph mm.mmapList)
    (hok : ∀ vm' role' mm', Filling vm' managed role' space mm' → mm'.pgdir = mm.pgdir → P mm'.mmapList →
      Extends vm vm' role role' mm.pgdir (fun a => ∃ g ∈ segments img n ph, g.Has a) →
      (∀ g ∈ segments img n ph, g.In img vm'.mem mm.pgdir) →
      mm'.mmapList.Perm ((segments img n ph).map Phdr.region ++ mm.mmapList) → Q (0, mm') vm')
    (hfail : ∀ vm' role' ret mm', ret ≠ 0 → (Loadable img mm.mmapList n ph → ¬bad .noMem ∧ ret = -E_NO_MEM) →
      Filling vm' managed role' space mm' → mm'.pgdir = mm.pgdir → Gains vm vm' role role' mm.pgdir →
      Q (ret, mm') vm') :
    Prog.wp bad (loadSegments img n ph mm) vm Q E := by
  induction n generalizing vm role mm ph with
  | zero =>
      rw [loadSegments, Prog.wp_pure]
      refine hok vm role mm h rfl hmode Extends.refl (fun g hg => ?_) (List.Perm.refl _)
      cases hg
  | succ n ih =>
      obtain ⟨hhead, hskip, hload⟩ := hmode
      rw [loadSegments, Prog.wp_bind]
      refine wp_loadSegment h hhead (fun htype hfits => (hload htype hfits).1) (fun vm₁ role₁ mm₁ h₁ hpgdir hext hcase => ?_)
        fun vm' role' ret mm' hne hno h' hpgdir hgain => ?_
      · simp only [ne_eq, not_true_eq_false, if_false]
        rcases hcase with ⟨htype, hlist⟩ | ⟨htype, hfits, hmap, hin, hlist⟩
        · refine ih h₁ (by rw [hlist]; exact hskip htype)
            (fun vm' role' mm' h' hp hP hext' hall hperm => ?_) fun vm' role' ret mm' hne hno h' hp hgain => ?_
          · rw [hpgdir] at hp hext' hall
            rw [hlist] at hperm
            refine hok vm' role' mm' h' hp hP ?_ ?_ ?_
            · rw [segments_skip htype]
              exact (hext.mono fun a ha => absurd ha.1 htype).trans hext'
            · rw [segments_skip htype]
              exact hall
            · rw [segments_skip htype]
              exact hperm
          · rw [hpgdir] at hp hgain
            refine hfail vm' role' ret mm' hne (fun hload => hno ?_) h' hp (hext.gains.trans hgain)
            rw [hlist]
            exact hload.skip htype
        · refine ih h₁ (by rw [hlist]; exact (hload htype hfits).2 hmap)
            (fun vm' role' mm' h' hp hP hext' hall hperm => ?_) fun vm' role' ret mm' hne hno h' hp hgain => ?_
          · rw [hpgdir] at hp hext' hall
            rw [hlist] at hperm
            refine hok vm' role' mm' h' hp hP ?_ (fun g hg => ?_) ?_
            · rw [segments_load htype]
              refine (hext.mono fun a ha => ⟨_, List.mem_cons_self, ha.2⟩).trans (hext'.mono fun a ha => ?_)
              obtain ⟨g, hg, hin⟩ := ha
              exact ⟨g, List.mem_cons_of_mem _ hg, hin⟩
            · rw [segments_load htype] at hg
              rcases List.mem_cons.mp hg with rfl | hg
              · exact hin.extends hext'
              · exact hall g hg
            · rw [segments_load htype, List.map_cons]
              exact hperm.trans ((List.Perm.append_left _ insertSorted_perm).trans List.perm_middle)
          · rw [hpgdir] at hp hgain
            refine hfail vm' role' ret mm' hne (fun hload => hno ?_) h' hp (hext.gains.trans hgain)
            rw [hlist]
            exact hload.load htype
      · simp only [if_pos hne, Prog.wp_pure]
        refine hfail vm' role' ret mm' hne (fun hload => hno fun htype => hload.ok _ ?_) h' hpgdir hgain
        rw [segments_load htype]
        exact List.mem_cons_self

end Segments

end Ucore.Mm
