import Mathlib.Tactic.IntervalCases
import Ucore.Mm.Loaded

namespace Ucore.Mm

open Lib Pmm

variable {vm vm' : VM} {managed : Finset Nat} {role role' : Nat → Role} {bad : Obs → Prop}
  {a addr fuel k la off p page perm r size start stop : Nat} {vma : VmaStruct} {vmas : List VmaStruct}
  {space : Nat → Option (List VmaStruct)} {img : Image} {src : Option Nat} {w : Words} {g : Nat → Nat}
  {E : Halt → Prop}

namespace Words

theorem byte_ofBytes (h : ∀ o, g o < 256) (o : Nat) : (ofBytes g).byte o = g o := by
  have hsplit : o = 8 * (o / 8) + o % 8 := by omega
  have hlt : o % 8 < 8 := Nat.mod_lt _ (by decide)
  unfold byte ofBytes
  generalize o / 8 = i at *
  generalize o % 8 = j at *
  have h0 := h (8 * i)
  have h1 := h (8 * i + 1)
  have h2 := h (8 * i + 2)
  have h3 := h (8 * i + 3)
  have h4 := h (8 * i + 4)
  have h5 := h (8 * i + 5)
  have h6 := h (8 * i + 6)
  have h7 := h (8 * i + 7)
  subst hsplit
  interval_cases j <;> simp only [Nat.reducePow, Nat.add_zero] <;> omega

theorem byte_write (w : Words) (off size : Nat) (g : Nat → Nat) (o : Nat) :
    (w.write off size g).byte o = if off ≤ o ∧ o < off + size then g (o - off) % 256 else w.byte o := by
  unfold write
  refine byte_ofBytes (fun o => ?_) o
  split_ifs
  · exact Nat.mod_lt _ (by decide)
  · exact Nat.mod_lt _ (by decide)

end Words

-- The offsets in a page, while nothing wraps around
theorem sub64_eq (h : a ≤ k) (hk : k < 18446744073709551616) : sub64 k a = k - a := by
  unfold sub64 u64
  omega

theorem partSize_eq (hlo : la ≤ start) (hhi : start < la + PGSIZE) (hlt : start < stop)
    (htop : stop ≤ USERTOP) (hla : la < USERTOP) :
    partSize (sub64 start la) (u64 (la + PGSIZE)) stop = min stop (la + PGSIZE) - start := by
  unfold partSize sub64 u64 PGSIZE USERTOP at *
  split_ifs <;> omega

-- The bytes behind a source, and what the image must satisfy for them to be read
def srcByte (img : Image) (src : Option Nat) (k : Nat) : Nat :=
  match src with
  | some addr => img.byte (u64 (addr + k)) % 256
  | none => 0

def Readable (addr len : Nat) : Prop := KERNEL_MAP ≤ addr ∧ addr + len ≤ 18446744073709551616

def fillByte (img : Image) (src : Option Nat) (start stop a : Nat) : Option Nat :=
  if start ≤ a ∧ a < stop then some (srcByte img src (a - start)) else none

theorem srcByte_map (k : Nat) :
    srcByte img (src.map fun addr => u64 (addr + size)) k = srcByte img src (size + k) := by
  cases src with
  | none => rfl
  | some addr =>
      have hsum : u64 (u64 (addr + size) + k) = u64 (addr + (size + k)) := by
        unfold u64
        omega
      simp only [Option.map_some, srcByte, hsum]

theorem wp_fillPart {Q : Unit → VM → Prop} (hp : p < vm.area.npages) (hpos : 0 < size) (hfit : off + size ≤ PGSIZE)
    (hpanic : ∀ addr, src = some addr → ¬Readable addr size → E (.panic "kernel page fault.\n"))
    (hq : ∀ w, (∀ o, w.byte o = if off ≤ o ∧ o < off + size then srcByte img src (o - off) else (vm.mem p).byte o) →
      Q () { vm with mem := Function.update vm.mem p w }) :
    Prog.wp bad (fillPart img src p off size) vm Q E := by
  rw [fillPart, Prog.wp_bind, wp_page2kva hp]
  cases src with
  | none =>
      simp only [writeBytes, Prog.wp_ite, Prog.wp_modify, Prog.wp_halt]
      refine ⟨fun _ => hq _ fun o => ?_, fun hno => absurd (Or.inr hfit) hno⟩
      rw [Words.byte_write]
      rfl
  | some addr =>
      simp only [readImage, writeBytes, Prog.wp_bind, Prog.wp_note, Prog.wp_ite, Prog.wp_pure, Prog.wp_modify, Prog.wp_halt]
      refine fun _ => ⟨fun hread => ⟨fun _ => hq _ fun o => ?_, fun hno => absurd (Or.inr hfit) hno⟩, fun hno => ?_⟩
      · have hread := hread.resolve_left (by omega)
        rw [Words.byte_write]
        split_ifs with hin
        · have hsum : u64 (addr + (o - off)) = addr + (o - off) := by
            unfold u64
            omega
          rw [Nat.mod_mod, srcByte, hsum]
        · rfl
      · refine hpanic addr rfl fun hread => hno (Or.inr hread)

-- There is a pass of the loops for every free page.
def Fuelled (role : Nat → Role) (fuel : Nat) : Prop :=
  ∀ free : Finset Nat, (∀ q, role q = .free ↔ q ∈ free) → free.card < fuel

theorem Fuelled.pred (h : Fuelled role (fuel + 1)) (hrep : Rep vm managed role none) (hp : role p = .free)
    (hp' : role' p ≠ .free) (hkeep : ∀ q, role q ≠ .free → role' q ≠ .free) : Fuelled role' fuel := by
  intro free' hfree'
  obtain ⟨free, _, _, hfree⟩ := hrep.list
  have hlt : free'.card < free.card := by
    refine Finset.card_lt_card ((Finset.ssubset_iff_of_subset fun q hq => ?_).mpr ⟨p, (hfree p).mp hp, ?_⟩)
    · by_contra hno
      exact hkeep q (fun hq' => hno ((hfree q).mp hq')) ((hfree' q).mpr hq)
    · exact fun hin => hp' ((hfree' p).mpr hin)
  have := h free hfree
  omega

theorem Fuelled.mono (h : Fuelled role fuel) (hrep : Rep vm managed role none)
    (hkeep : ∀ q, role q ≠ .free → role' q ≠ .free) : Fuelled role' fuel := by
  intro free' hfree'
  obtain ⟨free, _, _, hfree⟩ := hrep.list
  have hsub : free' ⊆ free := by
    intro q hq
    by_contra hno
    exact hkeep q (fun hq' => hno ((hfree q).mp hq')) ((hfree' q).mpr hq)
  exact (Finset.card_le_card hsub).trans_lt (h free hfree)

theorem fuelled_npages (hrep : Rep vm managed role none) : Fuelled role (vm.area.npages + 1) := by
  intro free hfree
  have hsub : free ⊆ Finset.range vm.area.npages := fun q hq =>
    Finset.mem_range.mpr (hrep.bound (by rw [(hfree q).mpr hq]; simp))
  have := Finset.card_le_card hsub
  rw [Finset.card_range] at this
  omega

-- The tables grow, without a new leaf.
theorem Grow.root_iff (h : Grow vm vm' role role' r) (q : Nat) : role' q = .root ↔ role q = .root := by
  by_cases hf : role q = .free
  · rw [hf]
    rcases h.new q hf with he | ⟨i, he⟩ | ⟨d, i, j, _, he⟩ <;> rw [he] <;> simp
  · rw [h.keep q hf]

theorem Grow.inv (h : Grow vm vm' role role' r) (hinv : VmInv vm managed role space)
    (hrep : Rep vm' managed role' none) : VmInv vm' managed role' space :=
  hinv.reuse hrep h.root_iff h.leaf

theorem Grow.gains (h : Grow vm vm' role role' r) (htree : Tree vm.mem role) : Gains vm vm' role role' r := by
  refine ⟨Evolves.of_keep htree h.keep h.leaf fun q hq => h.mem q (by rw [h.keep q (by rw [hq]; simp), hq]; rfl),
    h.keep, fun q hq => (h.new q hq).imp_right fun hnode => Or.inr (Or.inr ?_), fun q u hq _ hu => h.leaf q u hq hu⟩
  exact hnode.elim (fun ⟨_, hd⟩ => .dir hd) fun ⟨_, _, _, hd, ht⟩ => .table hd ht

-- The loops of load_icode that allocate pages, when there is something left to do
theorem wp_fillPages (hs : space r = some vmas) (hvma : vma ∈ vmas)
    (hlow : perm < 1024) (hperm : PermOk vma.vmFlags (perm ||| PTE_V)) (hstop : stop ≤ vma.vmEnd)
    {Q : Option (Nat × Nat × Nat) → VM → Prop}
    (h : VmInv vm managed role space) (hfuel : Fuelled role fuel) (hlt : start < stop) (hla : la % PGSIZE = 0)
    (hbase : vma.vmStart ≤ la) (hlo : la ≤ start) (hhi : start < la + PGSIZE)
    (hnone : ∀ u, la / PGSIZE ≤ u → u * PGSIZE < vma.vmEnd → leaf vm.mem r u = none)
    (hpanic : ∀ addr, src = some addr → ¬Readable addr (stop - start) → E (.panic "kernel page fault.\n"))
    (hok : ∀ vm' role' la' page', VmInv vm' managed role' space → la' % PGSIZE = 0 → stop ≤ la' → la' < stop + PGSIZE →
      Loaded vm vm' role role' r perm (la / PGSIZE) (la' / PGSIZE) (fillByte img src start stop) →
      (∃ lf, leaf vm'.mem r (la' / PGSIZE - 1) = some lf ∧ lf.frame = page') → Q (some (stop, la', page')) vm')
    (hfail : ∀ vm' role', ¬bad .noMem → VmInv vm' managed role' space → Gains vm vm' role role' r → Q none vm') :
    Prog.wp bad (fillPages img r perm stop fuel src start la page) vm Q E := by
  induction fuel generalizing src start la page vm role with
  | zero =>
      obtain ⟨free, _, _, hfree⟩ := h.rep.list
      exact absurd (hfuel free hfree) (Nat.not_lt_zero _)
  | succ fuel ih =>
      have hr := h.root_of hs
      have hspace := h.space r vmas hs
      have hvok := hspace.ok vma hvma
      have htop := hvok.top
      have hlaU : la < USERTOP := by omega
      have hv : la / PGSIZE < UPAGES := page_lt hlaU
      have hpage : la / PGSIZE * PGSIZE = la := Nat.div_mul_cancel (Nat.dvd_of_mod_eq_zero hla)
      have hcov : vma.Covers (la / PGSIZE) := by
        unfold VmaStruct.Covers
        rw [hpage]
        exact ⟨hbase, by omega⟩
      rw [fillPages, if_pos hlt, Prog.wp_bind]
      refine wp_pgdirAllocPage h.rep hr hlaU hlow (hnone _ le_rfl hcov.2) (by simp)
        (fun vm₁ role₁ p hp hrep₁ hins => ?_) fun vm₁ role₁ hno hrep₁ hgrow _ => ?_
      · have hb := hrep₁.bound (p := p) (by rw [hins.page]; simp)
        have hinv₁ := hins.inv h hrep₁ hp hs hvma hcov hperm
        have hnext : u64 (la + PGSIZE) = la + PGSIZE := by
          unfold u64 PGSIZE USERTOP at *
          omega
        have hoff : sub64 start la = start - la := by
          refine sub64_eq hlo ?_
          unfold PGSIZE USERTOP at *
          omega
        have hsize := partSize_eq hlo hhi hlt (hstop.trans htop) hlaU
        have hend : start + (min stop (la + PGSIZE) - start) = min stop (la + PGSIZE) := by omega
        have hstart : u64 (min stop (la + PGSIZE)) = min stop (la + PGSIZE) := by
          unfold u64 PGSIZE USERTOP at *
          omega
        simp only [Prog.wp_bind, hsize, hend, hstart]
        rw [hoff, hnext]
        refine wp_fillPart hb (by omega) (by omega) (fun addr hsrc hno => hpanic addr hsrc fun hread => hno ?_)
          fun w hw => ?_
        · unfold Readable at *
          omega
        have hinv₂ : VmInv { vm₁ with mem := Function.update vm₁.mem p w } managed role₁ space := hinv₁.write hins.page
        have hload : Loaded vm { vm₁ with mem := Function.update vm₁.mem p w } role role₁ r perm (la / PGSIZE)
            (la / PGSIZE + 1) (fillByte img src start stop) := by
          refine hins.loaded h.rep.tree hp hr hv hrep₁ (hnone _ le_rfl hcov.2) fun o ho => ?_
          rw [hw o, hpage, fillByte]
          by_cases hin : start ≤ la + o ∧ la + o < stop
          · have hsame : o - (start - la) = la + o - start := by omega
            rw [if_pos (by omega), if_pos hin, Option.getD_some, hsame]
          · rw [if_neg (by omega), if_neg hin, Option.getD_none]
        have hfuel₁ : Fuelled role₁ fuel :=
          hfuel.pred h.rep hp (by rw [hins.page]; simp) fun q hq => by rwa [hload.keep q hq]
        have hdiv : (la + PGSIZE) / PGSIZE = la / PGSIZE + 1 := Nat.add_div_right _ (by decide)
        have hmod : (la + PGSIZE) % PGSIZE = 0 := by rw [Nat.add_mod_right, hla]
        by_cases hmore : la + PGSIZE < stop
        · -- the page is full, and the next one begins where it ends
          have hmin : min stop (la + PGSIZE) = la + PGSIZE := by omega
          rw [hmin]
          refine ih hinv₂ hfuel₁ hmore hmod (by omega) le_rfl (by unfold PGSIZE; omega) (fun u hu hin => ?_)
            (fun addr hsrc hno => ?_) (fun vm' role' la' page' hinv' hmod' hle hlt' hload' hpage' => ?_)
            fun vm' role' hno hinv' hgain => ?_
          · have hu' : u < UPAGES := by
              unfold UPAGES PGSIZE USERTOP at *
              omega
            rw [hload.other r u hr hu' (by omega)]
            exact hnone u (by omega) hin
          · obtain ⟨a, ha, rfl⟩ := Option.map_eq_some_iff.mp hsrc
            refine hpanic a ha fun hread => hno ?_
            unfold Readable u64 KERNEL_MAP at *
            omega
          · refine hok vm' role' la' page' hinv' hmod' hle hlt' ?_ hpage'
            have hup : la / PGSIZE + 1 ≤ la' / PGSIZE := by
              rw [← hdiv]
              exact Nat.div_le_div_right (by omega)
            have htop' : la' / PGSIZE ≤ UPAGES := by
              unfold UPAGES PGSIZE USERTOP at *
              omega
            rw [hdiv] at hload'
            refine hload.trans (hload'.congr fun a hlo' _ => ?_) hr (Nat.le_succ _) hup htop'
            have ha : la + PGSIZE ≤ a := by
              rw [Nat.add_mul, hpage, Nat.one_mul] at hlo'
              exact hlo'
            have hsum : la + PGSIZE - start + (a - (la + PGSIZE)) = a - start := by omega
            unfold fillByte
            rw [srcByte_map, hsum]
            exact if_congr (by omega) rfl rfl
          · exact hfail vm' role' hno hinv' ((hload.gains h.rep.tree).trans hgain)
        · have hmin : min stop (la + PGSIZE) = stop := by omega
          rw [hmin]
          cases fuel with
          | zero =>
              obtain ⟨free, _, _, hfree⟩ := hrep₁.list
              exact absurd (hfuel₁ free hfree) (Nat.not_lt_zero _)
          | succ fuel =>
              rw [fillPages, if_neg (lt_irrefl _), Prog.wp_pure]
              refine hok _ role₁ (la + PGSIZE) p hinv₂ hmod (by omega) (by omega) ?_ ?_
              · rw [hdiv]
                exact hload
              · rw [hdiv, Nat.add_sub_cancel]
                obtain ⟨_, hsame⟩ := hrep₁.writePlain (p := p) (w := w) (by rw [hins.page]; rfl)
                refine ⟨⟨p, perm ||| PTE_V⟩, (hsame r _ (hinv₁.root_of hs) hv).trans ?_, rfl⟩
                rw [hins.leaf r _ hr hv, if_pos ⟨rfl, rfl⟩]
      · rw [Prog.wp_pure]
        exact hfail vm₁ role₁ hno (hgrow.inv h hrep₁) (hgrow.gains h.rep.tree)

-- The rest of the last page of the file part is cleared.
theorem wp_clearRest {Q : Nat → VM → Prop} (hp : page < vm.area.npages) (hlt : start < la) (hhi : la < start + PGSIZE)
    (hpage : PGSIZE ≤ la) (hmore : start < stop) (hstop : stop ≤ USERTOP)
    (hq : ∀ w, (∀ o, w.byte o = if start + PGSIZE - la ≤ o ∧ o < min stop la + PGSIZE - la then 0
      else (vm.mem page).byte o) → Q (min stop la) { vm with mem := Function.update vm.mem page w }) :
    Prog.wp bad (clearRest img stop start la page) vm Q E := by
  have hoff : sub64 (start + PGSIZE) la = start + PGSIZE - la :=
    sub64_eq (by omega) (by unfold PGSIZE USERTOP at *; omega)
  have hsize : partSize (start + PGSIZE - la) la stop = min stop la - start := by
    unfold partSize sub64 u64 PGSIZE USERTOP at *
    split_ifs <;> omega
  have hstart : u64 (start + (min stop la - start)) = min stop la := by
    unfold u64 USERTOP at *
    omega
  simp only [clearRest, hoff, hsize, hstart, Prog.wp_bind]
  refine wp_fillPart hp (by omega) (by omega) (fun _ hno => absurd hno (by simp)) fun w hw => ?_
  refine wp_assertM (fun _ => ?_) fun hno => absurd (of_decide_eq_false hno) (not_not.mpr (by omega))
  rw [Prog.wp_pure]
  refine hq w fun o => (hw o).trans (if_congr (by omega) rfl rfl)

-- The bytes of a segment: those of the file, then zeros
def segByte (img : Image) (src va filesz memsz a : Nat) : Option Nat :=
  (fillByte img (some src) va (va + filesz) a).or (fillByte img none (va + filesz) (va + memsz) a)

theorem fillByte_none_of (src : Option Nat) (h : ¬(start ≤ a ∧ a < stop)) : fillByte img src start stop a = none := if_neg h

section Segment

variable {lo va filesz memsz vsrc : Nat} {vm₁ : VM} {role₁ : Nat → Role} {before : Nat → Option Nat}

-- The pages of zeros behind what has been loaded
theorem wp_clearPages (img : Image) (page start : Nat) (before : Nat → Option Nat) (hs : space r = some vmas)
    (hvma : vma ∈ vmas) (hlow : perm < 1024) (hperm : PermOk vma.vmFlags (perm ||| PTE_V)) (hstop : stop ≤ vma.vmEnd)
    {Q : Int → VM → Prop} (h : VmInv vm₁ managed role₁ space) (hr : role r = .root) (hfuel : Fuelled role₁ (fuel + 1))
    (hload : Loaded vm vm₁ role role₁ r perm lo (la / PGSIZE) before) (hla : la % PGSIZE = 0) (hlo : lo ≤ la / PGSIZE)
    (hbase : vma.vmStart ≤ la) (hstart : start < stop → la ≤ start ∧ start < la + PGSIZE)
    (hbefore : ∀ a, la ≤ a → before a = none)
    (hnone : ∀ u, la / PGSIZE ≤ u → u * PGSIZE < vma.vmEnd → leaf vm₁.mem r u = none)
    (hok : ∀ vm' role' hi, VmInv vm' managed role' space → la / PGSIZE ≤ hi → (start < stop → stop ≤ hi * PGSIZE) →
      Loaded vm vm' role role' r perm lo hi (fun a => (before a).or (fillByte img none start stop a)) → Q 0 vm')
    (hfail : ∀ vm' role', ¬bad .noMem → VmInv vm' managed role' space → Gains vm₁ vm' role₁ role' r →
      Q (-E_NO_MEM) vm') :
    Prog.wp bad (do
      match ← fillPages img r perm stop (fuel + 1) none start la page with
      | none => pure (-E_NO_MEM)
      | some _ => pure 0) vm₁ Q E := by
  have hpage : la / PGSIZE * PGSIZE = la := Nat.div_mul_cancel (Nat.dvd_of_mod_eq_zero hla)
  rw [Prog.wp_bind]
  by_cases hlt : start < stop
  · obtain ⟨hle, hhi⟩ := hstart hlt
    have hvok := (h.space r vmas hs).ok vma hvma
    have htop := hvok.top
    refine wp_fillPages hs hvma hlow hperm hstop h hfuel hlt hla hbase hle hhi hnone (fun _ hno => by cases hno)
      (fun vm' role' la' page' hinv' hmod' hle' hlt' hload' _ => ?_) fun vm' role' hno hinv' hgain => ?_
    · rw [Prog.wp_pure]
      have hpage' : la' / PGSIZE * PGSIZE = la' := Nat.div_mul_cancel (Nat.dvd_of_mod_eq_zero hmod')
      have hup : la / PGSIZE ≤ la' / PGSIZE := Nat.div_le_div_right (by omega)
      have htop' : la' / PGSIZE ≤ UPAGES := by
        unfold UPAGES PGSIZE USERTOP at *
        omega
      refine hok vm' role' (la' / PGSIZE) hinv' hup (fun _ => by rw [hpage']; exact hle') ?_
      refine (hload.congr fun a _ ha => ?_).trans (hload'.congr fun a ha _ => ?_) hr hlo hup htop'
      · rw [fillByte_none_of _ (by omega), Option.or_none]
      · rw [hbefore a (by omega), Option.none_or]
    · rw [Prog.wp_pure]
      exact hfail vm' role' hno hinv' hgain
  · rw [fillPages, if_neg hlt, Prog.wp_pure, Prog.wp_pure]
    refine hok vm₁ role₁ _ h le_rfl (fun hlt' => absurd hlt' hlt) (hload.congr fun a _ _ => ?_)
    rw [fillByte_none_of _ (by omega), Option.or_none]

theorem segByte_split (hla : va + filesz < la) :
    ((fillByte img none (va + filesz) (min (va + memsz) la) a).or (fillByte img (some vsrc) va (va + filesz) a)).or
      (fillByte img none (min (va + memsz) la) (va + memsz) a) = segByte img vsrc va filesz memsz a := by
  unfold segByte
  by_cases hfile : a < va + filesz
  · rw [fillByte_none_of _ (by omega), fillByte_none_of none (by omega), Option.none_or,
      fillByte_none_of none (by omega)]
  · rw [fillByte_none_of (some vsrc) (by omega), Option.or_none, Option.none_or]
    by_cases hclear : va + filesz ≤ a ∧ a < min (va + memsz) la
    · rw [fillByte, if_pos hclear, Option.some_or, fillByte, if_pos (by omega)]
    · rw [fillByte_none_of _ hclear, Option.none_or]
      have hiff : min (va + memsz) la ≤ a ∧ a < va + memsz ↔ va + filesz ≤ a ∧ a < va + memsz := by omega
      exact if_congr hiff rfl rfl

-- (3.6) of load_icode: the pages of a segment
theorem wp_loadPages (hs : space r = some vmas) (hvma : vma ∈ vmas)
    (hlow : perm < 1024) (hperm : PermOk vma.vmFlags (perm ||| PTE_V)) {Q : Int → VM → Prop}
    (h : VmInv vm managed role space) (hbase : vma.vmStart = ROUNDDOWN va PGSIZE) (hstop : va + memsz ≤ vma.vmEnd)
    (hle : filesz ≤ memsz) (hnone : ∀ u, vma.Covers u → leaf vm.mem r u = none)
    (hpanic : 0 < filesz → ¬Readable vsrc filesz → E (.panic "kernel page fault.\n"))
    (hok : ∀ vm' role' hi, VmInv vm' managed role' space → (0 < memsz → va + memsz ≤ hi * PGSIZE) →
      Loaded vm vm' role role' r perm (va / PGSIZE) hi (segByte img vsrc va filesz memsz) → Q 0 vm')
    (hfail : ∀ vm' role', ¬bad .noMem → VmInv vm' managed role' space → Gains vm vm' role role' r →
      Q (-E_NO_MEM) vm') :
    Prog.wp bad (loadPages img r perm va filesz memsz vsrc) vm Q E := by
  have hr := h.root_of hs
  have hvok := (h.space r vmas hs).ok vma hvma
  have htop := hvok.top
  have hfuel := fuelled_npages h.rep
  have hdown : ROUNDDOWN va PGSIZE = va / PGSIZE * PGSIZE := by
    unfold ROUNDDOWN PGSIZE
    omega
  have hdiv : ROUNDDOWN va PGSIZE / PGSIZE = va / PGSIZE := by
    rw [hdown, Nat.mul_div_cancel _ (by decide)]
  have hmod : ROUNDDOWN va PGSIZE % PGSIZE = 0 := by rw [hdown, Nat.mul_mod_left]
  have hnone' : ∀ u, va / PGSIZE ≤ u → u * PGSIZE < vma.vmEnd → leaf vm.mem r u = none := by
    intro u hu hin
    refine hnone u ⟨?_, hin⟩
    rw [hbase, hdown]
    exact Nat.mul_le_mul_right _ hu
  have hva : va < ROUNDDOWN va PGSIZE + PGSIZE ∧ ROUNDDOWN va PGSIZE ≤ va := by
    rw [hdown]
    unfold PGSIZE
    omega
  have hfile : u64 (va + filesz) = va + filesz := by
    unfold u64 USERTOP at *
    omega
  have hmem : u64 (va + memsz) = va + memsz := by
    unfold u64 USERTOP at *
    omega
  simp only [loadPages, Prog.wp_bind, Prog.wp_get, hfile, hmem]
  by_cases hpos : 0 < filesz
  · refine wp_fillPages hs hvma hlow hperm (by omega) h hfuel (by omega) hmod (by rw [hbase]) hva.2 hva.1
      (by rw [hdiv]; exact hnone') (fun addr hsrc hno => ?_)
      (fun vm₁ role₁ la page h₁ hla hle₁ hlt₁ hload hpage => ?_) fun vm' role' hno hinv' hgain => ?_
    · cases hsrc
      refine hpanic hpos fun hread => hno ?_
      rwa [Nat.add_sub_cancel_left]
    · have hpage' : la / PGSIZE * PGSIZE = la := Nat.div_mul_cancel (Nat.dvd_of_mod_eq_zero hla)
      have hlo : va / PGSIZE ≤ la / PGSIZE := Nat.div_le_div_right (by omega)
      have hkeep : ∀ q, role q ≠ .free → role₁ q ≠ .free := fun q hq => by rwa [hload.keep q hq]
      have hfuel₁ := hfuel.mono h.rep hkeep
      have hr₁ := h₁.root_of hs
      rw [hdiv] at hload
      by_cases hdone : va + filesz < la ∧ va + filesz = va + memsz
      · simp only [if_pos hdone, Prog.wp_pure]
        obtain rfl : filesz = memsz := by omega
        refine hok vm₁ role₁ _ h₁ (fun _ => by rw [hpage']; exact hle₁) (hload.congr fun a _ _ => ?_)
        rw [segByte, fillByte_none_of none (by omega), Option.or_none]
      · have hnone₁ : ∀ u, la / PGSIZE ≤ u → u * PGSIZE < vma.vmEnd → leaf vm₁.mem r u = none := by
          intro u hu hin
          have hu' : u < UPAGES := by
            unfold UPAGES PGSIZE USERTOP at *
            omega
          rw [hload.other r u hr hu' (by omega)]
          exact hnone' u (hlo.trans hu) hin
        have hstart : va < la := by omega
        have hdown' : la - PGSIZE = (la / PGSIZE - 1) * PGSIZE := by
          rw [Nat.sub_mul, hpage', Nat.one_mul]
        have hlt : va / PGSIZE < la / PGSIZE := by
          unfold PGSIZE at *
          omega
        have htop₁ : la / PGSIZE ≤ UPAGES := by
          unfold UPAGES PGSIZE USERTOP at *
          omega
        simp only [if_neg hdone]
        by_cases hrest : va + filesz < la
        · obtain ⟨lf, hlf, rfl⟩ := hpage
          have hf := h₁.rep.tree.leaf_frame hr₁ ((Nat.sub_lt (Nat.zero_lt_of_lt hlt) Nat.one_pos).trans_le htop₁) hlf
          rw [if_pos hrest, Prog.wp_bind]
          refine wp_clearRest (h₁.rep.bound (by rw [hf]; simp)) hrest hlt₁ (by unfold PGSIZE at *; omega) (by omega)
            (by omega) fun w hw => ?_
          obtain ⟨_, hleaf⟩ := h₁.rep.writePlain (p := lf.frame) (w := w) (by rw [hf]; rfl)
          have hload₂ := hload.patch h₁.rep hr hlt htop₁ hlf (w := w)
            (g := fillByte img none (va + filesz) (min (va + memsz) la)) (fun o ho => ?_) fun a ha => ?_
          · refine wp_clearPages _ _ _ _ hs hvma hlow hperm hstop (h₁.write hf) hr hfuel₁ hload₂ hla hlo (by omega)
              (fun _ => by omega) (fun a ha => ?_) (fun u hu hin => ?_)
              (fun vm' role' hi hinv' hle' hhi hload' => ?_) fun vm' role' hno hinv' hgain => ?_
            · rw [fillByte_none_of _ (by omega), fillByte_none_of _ (by omega), Option.or_none]
            · have hu' : u < UPAGES := by
                unfold UPAGES PGSIZE USERTOP at *
                omega
              exact (hleaf r u hr₁ hu').trans (hnone₁ u hu hin)
            · refine hok vm' role' hi hinv' (fun _ => ?_) (hload'.congr fun a _ _ => (segByte_split hrest).symm)
              have hmul := Nat.mul_le_mul_right PGSIZE hle'
              rw [hpage'] at hmul
              omega
            · exact hfail vm' role' hno hinv' ((hload₂.gains h.rep.tree).trans hgain)
          · rw [hw o, ← hdown']
            by_cases hin : va + filesz ≤ la - PGSIZE + o ∧ la - PGSIZE + o < min (va + memsz) la
            · rw [if_pos (by unfold PGSIZE at *; omega), fillByte, if_pos hin, Option.getD_some]
              rfl
            · rw [if_neg (by unfold PGSIZE at *; omega), fillByte_none_of _ hin, Option.getD_none]
          · rw [← hdown'] at ha
            exact fillByte_none_of _ (by omega)
        · have hlast : va + filesz = la := by omega
          rw [if_neg hrest, Prog.wp_bind, Prog.wp_pure]
          refine wp_clearPages _ _ _ _ hs hvma hlow hperm hstop h₁ hr hfuel₁ hload hla hlo (by omega) (fun _ => by omega)
            (fun a ha => fillByte_none_of _ (by omega)) hnone₁ (fun vm' role' hi hinv' hle' hhi hload' => ?_)
            fun vm' role' hno hinv' hgain => hfail vm' role' hno hinv' ((hload.gains h.rep.tree).trans hgain)
          refine hok vm' role' hi hinv' (fun _ => ?_) hload'
          have hmul := Nat.mul_le_mul_right PGSIZE hle'
          rw [hpage'] at hmul
          omega
    · rw [Prog.wp_pure]
      exact hfail vm' role' hno hinv' hgain
  · obtain rfl : filesz = 0 := by omega
    rw [fillPages, Nat.add_zero, if_neg (lt_irrefl _), Prog.wp_pure]
    simp only [if_neg (show ¬(va < ROUNDDOWN va PGSIZE ∧ va = va + memsz) by omega),
      if_neg (show ¬va < ROUNDDOWN va PGSIZE by omega), Prog.wp_bind, Prog.wp_pure]
    have htail := wp_clearPages img 0 va (fun _ => none) (E := E) hs hvma hlow hperm hstop h hr hfuel
      (by rw [hdiv]; exact Loaded.refl) hmod (by rw [hdiv]) (by rw [hbase]) (fun _ => ⟨hva.2, hva.1⟩) (fun _ _ => rfl)
      (by rw [hdiv]; exact hnone') (Q := Q) (fun vm' role' hi hinv' _ hhi hload => ?_) hfail
    · rw [Prog.wp_bind] at htail
      exact htail
    · refine hok vm' role' hi hinv' (fun hm => hhi (by omega)) (hload.congr fun a _ _ => ?_)
      rw [segByte, Nat.add_zero, fillByte_none_of (some vsrc) (show ¬(va ≤ a ∧ a < va) by omega)]

end Segment

end Ucore.Mm
