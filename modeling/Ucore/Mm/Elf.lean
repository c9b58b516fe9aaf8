import Ucore.Mm.Exec
import Ucore.Mm.Boot

namespace Ucore.Mm

open Lib Pmm

variable {vm : VM} {managed : Finset Nat} {role : Nat → Role} {i n ph : Nat} {img : Image} {task : Task} {h : Phdr}
  {space : Nat → Option (List VmaStruct)}

-- The fields of the ELF header, and program header number `i`
def Image.ePhoff (img : Image) : Nat := imgField img (img.binary + 32) 8

def Image.ePhnum (img : Image) : Nat := imgField img (img.binary + 56) 2

def Image.eEntry (img : Image) : Nat := imgField img (img.binary + 24) 8

def Image.header (img : Image) (i : Nat) : Phdr := phdr img (img.binary + img.ePhoff + i * SIZEOF_PROGHDR)

-- A segment to load
def Image.Loads (img : Image) (i : Nat) : Prop := i < img.ePhnum ∧ (img.header i).type = ELF_PT_LOAD

-- An ELF image in the memory of the kernel: the program headers and the bytes of the segments
-- lie inside of it, and the pages of the segments are apart, in user space and not in the stack.
structure Image.WellFormed (img : Image) : Prop where
  kernel : KERNEL_MAP ≤ img.binary
  inside : img.binary + img.size < 18446744073709551616
  header : 64 ≤ img.size
  magic : imgField img img.binary 4 = ELF_MAGIC
  table : img.ePhoff + img.ePhnum * SIZEOF_PROGHDR ≤ img.size
  fits : ∀ i, img.Loads i → (img.header i).filesz ≤ (img.header i).memsz ∧ 0 < (img.header i).memsz
  file : ∀ i, img.Loads i → (img.header i).offset + (img.header i).filesz ≤ img.size
  user : ∀ i, img.Loads i → USERBASE ≤ (img.header i).va ∧ (img.header i).va + (img.header i).memsz ≤ USERTOP
  apart : ∀ i j, i < j → img.Loads i → img.Loads j → ¬(img.header i).region.Meets (img.header j).region
  stack : ∀ i, img.Loads i → ¬(img.header i).region.Meets stackVma

theorem phdrs_eq (hlt : ph + n * SIZEOF_PROGHDR < 18446744073709551616) :
    phdrs img n ph = (List.range n).map fun i => phdr img (ph + i * SIZEOF_PROGHDR) := by
  induction n generalizing ph with
  | zero => rfl
  | succ n ih =>
      have hnext : u64 (ph + SIZEOF_PROGHDR) = ph + SIZEOF_PROGHDR := by
        unfold u64 SIZEOF_PROGHDR at *
        omega
      rw [phdrs, hnext, ih (by unfold SIZEOF_PROGHDR at *; omega), List.range_succ_eq_map, List.map_cons, List.map_map,
        Nat.zero_mul, Nat.add_zero]
      refine congrArg (_ :: ·) (List.map_congr_left fun i _ => ?_)
      have hsucc : ph + SIZEOF_PROGHDR + i * SIZEOF_PROGHDR = ph + (i + 1) * SIZEOF_PROGHDR := by
        unfold SIZEOF_PROGHDR
        omega
      exact congrArg (phdr img) hsucc

-- The pages of a segment are in user space.
theorem Phdr.region_access (hpos : 0 < h.memsz) (hbase : USERBASE ≤ h.va) (htop : h.va + h.memsz ≤ USERTOP) :
    USER_ACCESS h.region.vmStart h.region.vmEnd = true := by
  refine decide_eq_true ?_
  unfold Phdr.region mapVma ROUNDUP ROUNDDOWN u64 USERBASE USERTOP PGSIZE at *
  simp only
  omega

namespace Image.WellFormed

theorem phoff_eq (hwf : img.WellFormed) : img.phoff = img.binary + img.ePhoff := by
  have htable := hwf.table
  have hinside := hwf.inside
  unfold Image.phoff u64 Image.ePhoff at *
  omega

theorem phnum_eq (hwf : img.WellFormed) : img.phnum = img.ePhnum := by
  have htable := hwf.table
  have hinside := hwf.inside
  rw [Image.phnum, hwf.phoff_eq, headerCount]
  refine if_pos ?_
  unfold Image.ePhnum at *
  omega

theorem segments_eq (hwf : img.WellFormed) :
    img.segments = ((List.range img.ePhnum).map img.header).filter fun h => h.type = ELF_PT_LOAD := by
  have htable := hwf.table
  have hinside := hwf.inside
  rw [Image.segments, hwf.phnum_eq, hwf.phoff_eq, Mm.segments, phdrs_eq (by omega)]
  rfl

theorem mem_segments (hwf : img.WellFormed) : h ∈ img.segments ↔ ∃ i, img.Loads i ∧ img.header i = h := by
  rw [hwf.segments_eq, List.mem_filter, List.mem_map, decide_eq_true_eq]
  constructor
  · rintro ⟨⟨i, hi, rfl⟩, hload⟩
    exact ⟨i, ⟨List.mem_range.mp hi, hload⟩, rfl⟩
  · rintro ⟨i, ⟨hi, hload⟩, rfl⟩
    exact ⟨⟨i, List.mem_range.mpr hi, rfl⟩, hload⟩

-- load_icode accepts it.
theorem elf (hwf : img.WellFormed) : img.Elf := by
  have hkernel := hwf.kernel
  have hinside := hwf.inside
  have hheader := hwf.header
  have htable := hwf.table
  refine ⟨⟨hkernel, by omega⟩, hwf.magic, ⟨Or.inr ?_, fun g hg => ?_, ?_⟩, fun g hg => ?_⟩
  · rw [hwf.phoff_eq, hwf.phnum_eq]
    omega
  · obtain ⟨i, hi, rfl⟩ := hwf.mem_segments.mp hg
    obtain ⟨hfits, hpos⟩ := hwf.fits i hi
    obtain ⟨hbase, htop⟩ := hwf.user i hi
    have hfile := hwf.file i hi
    refine ⟨hfits, ?_, ⟨Phdr.region_access hpos hbase htop, fun v hv => by cases hv⟩, fun hlt => ?_⟩
    · unfold USERTOP at htop
      omega
    · unfold Readable u64 KERNEL_MAP at *
      omega
  · show img.segments.Pairwise _
    rw [hwf.segments_eq, List.pairwise_filter, List.pairwise_map]
    refine List.pairwise_lt_range.imp_of_mem fun hi hj hlt hload hload' => ?_
    rw [decide_eq_true_eq] at hload hload'
    exact hwf.apart _ _ hlt ⟨List.mem_range.mp hi, hload⟩ ⟨List.mem_range.mp hj, hload'⟩
  · obtain ⟨i, hi, rfl⟩ := hwf.mem_segments.mp hg
    exact hwf.stack i hi

end Image.WellFormed

-- The permissions that the flags of a segment describe; what may be written may be read.
structure Phdr.Permits (h : Phdr) (perm : Nat) : Prop where
  user : perm &&& PTE_U ≠ 0
  read : perm &&& PTE_R ≠ 0 ↔ h.flags &&& ELF_PF_R ≠ 0 ∨ h.flags &&& ELF_PF_W ≠ 0
  write : perm &&& PTE_W ≠ 0 ↔ h.flags &&& ELF_PF_W ≠ 0
  exec : perm &&& PTE_X ≠ 0 ↔ h.flags &&& ELF_PF_X ≠ 0

theorem segFlags_bits (pFlags : Nat) : (segFlags pFlags &&& VM_READ ≠ 0 ↔ pFlags &&& ELF_PF_R ≠ 0) ∧
    (segFlags pFlags &&& VM_WRITE ≠ 0 ↔ pFlags &&& ELF_PF_W ≠ 0) ∧
    (segFlags pFlags &&& VM_EXEC ≠ 0 ↔ pFlags &&& ELF_PF_X ≠ 0) := by
  unfold segFlags
  by_cases hx : pFlags &&& ELF_PF_X = 0 <;> by_cases hw : pFlags &&& ELF_PF_W = 0 <;>
    by_cases hr : pFlags &&& ELF_PF_R = 0
  all_goals
    simp only [hx, hw, hr, ne_eq, not_true_eq_false, not_false_eq_true, if_true, if_false]
    decide

theorem segPerm_bits : ∀ fl < 8, segPerm fl &&& PTE_U ≠ 0 ∧
    (segPerm fl &&& PTE_R ≠ 0 ↔ fl &&& VM_READ ≠ 0 ∨ fl &&& VM_WRITE ≠ 0) ∧
    (segPerm fl &&& PTE_W ≠ 0 ↔ fl &&& VM_WRITE ≠ 0) ∧ (segPerm fl &&& PTE_X ≠ 0 ↔ fl &&& VM_EXEC ≠ 0) := by
  decide

theorem Phdr.bits_permits (h : Phdr) : h.Permits h.bits := by
  obtain ⟨hr, hw, hx⟩ := segFlags_bits h.flags
  obtain ⟨huser, hread, hwrite, hexec⟩ := segPerm_bits _ (segFlags_lt h.flags)
  exact ⟨huser, hread.trans (or_congr hr hw), hwrite.trans hw, hexec.trans hx⟩

-- The trapframe starts the program at its entry, in user mode and with interrupts.
structure StartsAt (tf : TrapFrame) (entry : Nat) : Prop where
  epc : tf.epc = entry
  sp : tf.gpr REG_SP = USTACKTOP
  user : tf.status &&& SSTATUS_SPP = 0
  interrupts : tf.status &&& SSTATUS_SPIE ≠ 0

-- The process has the segments of the image and a stack, and nothing else.
structure Image.Built (img : Image) (mem : Nat → Words) (mm : MmStruct) : Prop where
  byte : ∀ j, img.Loads j → ∀ i < (img.header j).memsz, ∃ lf,
    leaf mem mm.pgdir (((img.header j).va + i) / PGSIZE) = some lf ∧ (img.header j).Permits lf.perm ∧
      (mem lf.frame).byte (((img.header j).va + i) % PGSIZE) =
        if i < (img.header j).filesz then img.byte (img.binary + (img.header j).offset + i) % 256 else 0
  vmas : mm.mmapList.Perm (stackVma :: img.segments.map Phdr.region)
  sorted : mm.mmapList.Pairwise fun a b => a.vmEnd ≤ b.vmStart
  stack : ∀ i, 0 < i → i ≤ 4 → ∃ lf, leaf mem mm.pgdir (UPAGES - i) = some lf ∧ lf.perm = PTE_USER

-- The bits that load_icode sets and clears in sstatus
theorem userFrame_starts (tf : TrapFrame) (entry : Nat) : StartsAt (userFrame tf entry) entry := by
  have hspp : SSTATUS_SPP = 2 ^ 8 := rfl
  have hspie : SSTATUS_SPIE = 2 ^ 5 := rfl
  refine ⟨rfl, ?_, ?_, ?_⟩
  · show Function.update (fun _ => 0) REG_SP USTACKTOP REG_SP = USTACKTOP
    exact Function.update_self ..
  · unfold userFrame clearBit
    simp only
    apply Nat.eq_of_testBit_eq
    intro i
    simp only [hspp, Nat.testBit_and, Nat.testBit_xor, Nat.testBit_two_pow, Nat.zero_testBit]
    by_cases hi : 8 = i <;> simp [hi]
  · intro hzero
    have hbit := congrArg (Nat.testBit · 5) hzero
    unfold userFrame clearBit at hbit
    simp [hspp, hspie, Nat.testBit_and, Nat.testBit_xor, Nat.testBit_or] at hbit
    exact absurd (hbit (Or.inr (by decide)) (by decide)) (by decide)

theorem Image.In.built {mem : Nat → Words} {mm : MmStruct} (hwf : img.WellFormed) (hin : img.In mem mm)
    (hsorted : mm.mmapList.Pairwise fun a b => a.vmEnd ≤ b.vmStart) : img.Built mem mm := by
  refine ⟨fun j hj i hi => ?_, hin.vmas, hsorted, hin.stack⟩
  have hg := hin.segments _ (hwf.mem_segments.mpr ⟨j, hj, rfl⟩)
  obtain ⟨lf, hlf, hperm, hbyte⟩ := hg.byte ((img.header j).va + i) (Nat.le_add_right _ _) (Nat.add_lt_add_left hi _)
  refine ⟨lf, hlf, hperm ▸ (img.header j).bits_permits, hbyte.trans ?_⟩
  have hfile := hwf.file j hj
  have hinside := hwf.inside
  unfold Phdr.content
  by_cases hlt : i < (img.header j).filesz
  · rw [if_pos (Nat.add_lt_add_left hlt _), if_pos hlt, Nat.add_sub_cancel_left]
    have haddr : u64 (u64 (img.binary + (img.header j).offset) + i) = img.binary + (img.header j).offset + i := by
      unfold u64
      omega
    rw [haddr]
  · rw [if_neg fun hno => hlt (Nat.lt_of_add_lt_add_left hno), if_neg hlt]

-- load_icode builds what the image describes, unless an allocation fails.
theorem load_icode_builds (h : VmInv vm managed role space) (hmm : task.mm = none) (hwf : img.WellFormed)
    (hlog : ∀ o ∈ (loadIcode img task vm).log, o ≠ .noMem) :
    ∃ vm' mm tf, (loadIcode img task vm).result =
        .ok ((0, { task with mm := some mm, pgdir := some mm.pgdir, tf := tf }), vm') ∧
      img.Built vm'.mem mm ∧ StartsAt tf img.eEntry := by
  have hwp : Prog.wp (fun o => o = .noMem) (loadIcode img task) vm (fun r vm' => ∃ mm tf,
      r = (0, { task with mm := some mm, pgdir := some mm.pgdir, tf := tf }) ∧
        img.Built vm'.mem mm ∧ StartsAt tf img.eEntry) fun _ => False := by
    refine wp_loadIcode h hmm (hwf.elf.passes (Or.inl rfl)) (fun hno => absurd ⟨rfl, hwf.elf⟩ hno)
      (fun vm' role' mm hfresh hfill hev hin _ => ?_) fun _ _ _ _ hno => absurd rfl (hno hwf.elf).1
    have hin' : img.In vm'.mem { mm with mmCount := mm.mmCount + 1 } := ⟨hin.segments, hin.vmas, hin.stack⟩
    exact ⟨{ mm with mmCount := mm.mmCount + 1 }, _, rfl, hin'.built hwf hfill.spaceOf.sorted, userFrame_starts _ _⟩
  cases hr : (loadIcode img task vm).result with
  | error e => exact (Prog.wp_error hwp hlog hr).elim
  | ok r =>
      obtain ⟨r, vm'⟩ := r
      obtain ⟨mm, tf, rfl, hall⟩ := Prog.wp_ok hwp hlog hr
      exact ⟨vm', mm, tf, rfl, hall⟩

-- An image with one segment of three bytes and two more that are zero, below the stack
def helloBytes : List Nat :=
  [0x7F, 0x45, 0x4C, 0x46] ++ List.replicate 20 0 ++ [0x10, 0, 0xE0, 0x7F, 0, 0, 0, 0, 64] ++ List.replicate 23 0 ++
    [1, 0, 0, 0, 0, 0, 0, 0, 1, 0, 0, 0, 7, 0, 0, 0, 120, 0, 0, 0, 0, 0, 0, 0, 0x10, 0, 0xE0, 0x7F] ++
    List.replicate 12 0 ++ [3, 0, 0, 0, 0, 0, 0, 0, 5] ++ List.replicate 15 0 ++ [65, 66, 67]

def helloImage : Image := ⟨KERNEL_MAP, 123, fun a => helloBytes.getD (a - KERNEL_MAP) 0⟩

theorem helloImage_header : helloImage.header 0 = ⟨1, 7, 120, 0x7FE00010, 3, 5⟩ := by decide +kernel

theorem helloImage_wellFormed : helloImage.WellFormed := by
  have hnum : helloImage.ePhnum = 1 := by decide +kernel
  have hone : ∀ i, helloImage.Loads i → helloImage.header i = ⟨1, 7, 120, 0x7FE00010, 3, 5⟩ := by
    intro i hi
    have hlt := hi.1
    rw [hnum, Nat.lt_one_iff] at hlt
    rw [hlt, helloImage_header]
  refine ⟨by decide, by decide, by decide, by decide +kernel, by decide +kernel, fun i hi => ?_, fun i hi => ?_,
    fun i hi => ?_, fun i j hlt hi hj => ?_, fun i hi => ?_⟩
  · rw [hone i hi]
    decide
  · rw [hone i hi]
    decide
  · rw [hone i hi]
    decide
  · have hj := hj.1
    rw [hnum] at hj
    omega
  · rw [hone i hi, stackVma_eq]
    unfold VmaStruct.Meets
    decide

-- The image on a machine with sixteen free pages
theorem load_icode_builds_hello : ∃ vm' mm tf,
    (loadIcode helloImage ⟨none, none, none, ⟨fun _ => 0, 0, 0, 0, 0⟩, false⟩ bootVm).result =
      .ok ((0, ⟨none, some mm, some mm.pgdir, tf, false⟩), vm') ∧
      helloImage.Built vm'.mem mm ∧ StartsAt tf 0x7FE00010 := by
  obtain ⟨l, hl⟩ := sixteen_freeList
  have hentry : helloImage.eEntry = 0x7FE00010 := by decide +kernel
  have hmm : (⟨none, none, none, ⟨fun _ => 0, 0, 0, 0, 0⟩, false⟩ : Task).mm = none := rfl
  obtain ⟨vm', mm, tf, hr, hbuilt, hstarts⟩ := load_icode_builds (VmInv.boot hl rfl) hmm helloImage_wellFormed
    (by decide +kernel)
  exact ⟨vm', mm, tf, hr, hbuilt, hentry ▸ hstarts⟩

end Ucore.Mm
