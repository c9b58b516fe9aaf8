import Ucore.Mm.Access

namespace Ucore.Mm

open Lib Pmm

variable {vm vm' vm'' : VM} {managed : Finset Nat} {role role' role'' : Nat → Role} {lk : Option Nat}
  {bad : Obs → Prop} {f p q r u v : Nat} {lf : Leaf}
  {vmas : List VmaStruct} {space : Nat → Option (List VmaStruct)} {R R' : Nat → Prop}
  {E : Halt → Prop}

-- What a process has in a page of its memory
@[ext] structure View where
  words : Words
  readable : Prop
  writable : Prop

def Leaf.view (mem : Nat → Words) (lf : Leaf) : View :=
  ⟨mem lf.frame, lf.perm &&& PTE_R ≠ 0, lf.perm &&& PTE_W ≠ 0 ∨ lf.perm &&& PTE_COW ≠ 0⟩

def view (mem : Nat → Words) (r v : Nat) : Option View :=
  if v < UPAGES then (leaf mem r v).map (Leaf.view mem) else none

-- The memory system in which the address spaces with the roots in `space` live
structure VmInv (vm : VM) (managed : Finset Nat) (role : Nat → Role)
    (space : Nat → Option (List VmaStruct)) : Prop where
  rep : Rep vm managed role none
  safe : CowSafe vm.mem role
  root : ∀ r, role r = .root ↔ (space r).isSome
  space : ∀ r vmas, space r = some vmas → Space vm.mem r vmas

-- What a call that works on the address spaces `R` leaves to the others
structure Evolves (vm vm' : VM) (role role' : Nat → Role) (R : Nat → Prop) : Prop where
  kstack : ∀ p b, role p = .kstack b → role' p = .kstack b
  root : ∀ q, role q = .root → ¬R q → role' q = .root
  view : ∀ q v, role q = .root → ¬R q → view vm'.mem q v = view vm.mem q v

namespace Evolves

theorem refl : Evolves vm vm role role R :=
  ⟨fun _ _ hp => hp, fun _ hq _ => hq, fun _ _ _ _ => rfl⟩

theorem trans (h : Evolves vm vm' role role' R) (h' : Evolves vm' vm'' role' role'' R) :
    Evolves vm vm'' role role'' R :=
  ⟨fun p b hp => h'.kstack p b (h.kstack p b hp), fun q hq hR => h'.root q (h.root q hq hR) hR,
    fun q v hq hR => (h'.view q v (h.root q hq hR) hR).trans (h.view q v hq hR)⟩

theorem mono (h : Evolves vm vm' role role' R) (hR : ∀ q, role q = .root → R q → R' q) :
    Evolves vm vm' role role' R' :=
  ⟨h.kstack, fun q hq hn => h.root q hq fun hq' => hn (hR q hq hq'),
    fun q v hq hn => h.view q v hq fun hq' => hn (hR q hq hq')⟩

end Evolves

-- A leaf that keeps its frame and the frame its words
theorem view_congr {mem mem' : Nat → Words} (hleaf : v < UPAGES → leaf mem' r v = leaf mem r v)
    (hmem : ∀ lf, v < UPAGES → leaf mem r v = some lf → mem' lf.frame = mem lf.frame) :
    view mem' r v = view mem r v := by
  unfold view
  split_ifs with hv
  · rw [hleaf hv]
    cases hlf : leaf mem r v with
    | none => rfl
    | some lf =>
        simp only [Option.map_some, Leaf.view, hmem lf hv hlf]
  · rfl

theorem Leaf.view_cow {mem : Nat → Words} (h : lf.perm < 1024) : lf.cow.view mem = lf.view mem := by
  obtain ⟨_, hw, _, _, hr, _, hcow⟩ := cow_bits lf.perm h
  unfold Leaf.view Leaf.cow
  simp only
  rw [hr, hw, View.mk.injEq]
  refine ⟨rfl, rfl, propext ?_⟩
  rw [hcow]
  simp

theorem Leaf.view_uncow {mem mem' : Nat → Words} (h : lf.perm < 1024) (hcow : lf.perm &&& PTE_COW ≠ 0)
    (hcopy : mem' f = mem lf.frame) : (Leaf.mk f (uncow lf.perm)).view mem' = lf.view mem := by
  obtain ⟨_, hw, _, _, _, hr, _⟩ := uncow_bits lf.perm h
  unfold Leaf.view
  simp only
  rw [hr, hcopy, View.mk.injEq]
  exact ⟨rfl, rfl, propext ⟨fun _ => Or.inr hcow, fun _ => Or.inl hw⟩⟩

-- A page that is no table is written.
theorem view_write {mem : Nat → Words} {w : Words}
    (hleaf : v < UPAGES → leaf (Function.update mem p w) r v = leaf mem r v)
    (hp : ∀ lf, v < UPAGES → leaf mem r v = some lf → lf.frame ≠ p) :
    view (Function.update mem p w) r v = view mem r v :=
  view_congr hleaf fun lf hv hlf => Function.update_of_ne (hp lf hv hlf) ..

namespace VmInv

theorem root_of (h : VmInv vm managed role space) (hs : space r = some vmas) : role r = .root := by
  rw [h.root, hs]
  rfl

theorem leaf_frame (h : VmInv vm managed role space) (hr : role r = .root) (hv : v < UPAGES)
    (hleaf : leaf vm.mem r v = some lf) : role lf.frame = .frame :=
  h.rep.tree.leaf_frame hr hv hleaf

end VmInv

-- The address spaces behind a change that keeps the leaves of the old roots
theorem Evolves.of_keep (htree : Tree vm.mem role)
    (hkeep : ∀ q, role q ≠ .free → role' q = role q)
    (hleaf : ∀ q u, role q = .root → u < UPAGES → leaf vm'.mem q u = leaf vm.mem q u)
    (hmem : ∀ q, role q = .frame → vm'.mem q = vm.mem q) : Evolves vm vm' role role' R := by
  refine ⟨fun p b hp => (hkeep p (by rw [hp]; simp)).trans hp,
    fun q hq _ => (hkeep q (by rw [hq]; simp)).trans hq, fun q v hq _ => ?_⟩
  exact view_congr (hleaf q v hq) fun lf hv hlf => hmem _ (htree.leaf_frame hq hv hlf)

theorem CowSafe.congr {mem mem' : Nat → Words} (h : CowSafe mem role)
    (hroot : ∀ q, role' q = .root → role q = .root ∨ ∀ u, u < UPAGES → leaf mem' q u = none)
    (hleaf : ∀ q u, role q = .root → u < UPAGES → leaf mem' q u = leaf mem q u) :
    CowSafe mem' role' := by
  intro q u lf q' u' lf' hq hq' hu hu' hlf hlf' he hne
  rcases hroot q hq with hq₀ | hno
  · rcases hroot q' hq' with hq₀' | hno
    · rw [hleaf q u hq₀ hu] at hlf
      rw [hleaf q' u' hq₀' hu'] at hlf'
      exact h q u lf q' u' lf' hq₀ hq₀' hu hu' hlf hlf' he hne
    · rw [hno u' hu'] at hlf'
      cases hlf'
  · rw [hno u hu] at hlf
    cases hlf

theorem Space.congr {mem mem' : Nat → Words} (h : Space mem r vmas)
    (hleaf : ∀ u, u < UPAGES → Mm.leaf mem' r u = Mm.leaf mem r u) : Space mem' r vmas := by
  refine ⟨h.ok, h.sorted, fun u lf hu hlf => ?_⟩
  rw [hleaf u hu] at hlf
  exact h.leaf u lf hu hlf

-- The tables and the frames stay what they are.
theorem VmInv.reuse (h : VmInv vm managed role space) (hrep : Rep vm' managed role' none)
    (hroot : ∀ q, role' q = .root ↔ role q = .root)
    (hleaf : ∀ q u, role q = .root → u < UPAGES → leaf vm'.mem q u = leaf vm.mem q u) :
    VmInv vm' managed role' space :=
  ⟨hrep, h.safe.congr (fun q hq => Or.inl ((hroot q).mp hq)) hleaf, fun r => (hroot r).trans (h.root r),
    fun r vmas hs => (h.space r vmas hs).congr fun u hu => hleaf r u (h.root_of hs) hu⟩

-- What kmalloc does: it may take a page.
structure Heaped (vm vm' : VM) (role role' : Nat → Role) : Prop where
  keep : ∀ p, role p ≠ .free → role' p = role p
  new : ∀ p, role p = .free → role' p = .free ∨ role' p = .heap
  mem : vm'.mem = vm.mem
  npages : vm'.area.npages = vm.area.npages

theorem Heaped.evolves (h : Heaped vm vm' role role') (htree : Tree vm.mem role) :
    Evolves vm vm' role role' R :=
  Evolves.of_keep htree h.keep (fun _ _ _ _ => by rw [h.mem]) fun _ _ => by rw [h.mem]

theorem Heaped.root_iff (h : Heaped vm vm' role role') (q : Nat) : role' q = .root ↔ role q = .root := by
  have := h.keep q
  have := h.new q
  grind

section Kmalloc

variable {Q : Bool → VM → Prop}

theorem Rep.kmalloc (h : Rep vm managed role lk)
    (hyes : ∀ vm' role', Rep vm' managed role' lk → Heaped vm vm' role role' → Q true vm')
    (hno : ∀ vm', ¬bad .noMem → Rep vm' managed role lk → Heaped vm vm' role role → Q false vm') :
    Prog.wp bad Mm.kmalloc vm Q E := by
  have hroom : Rep { vm with room := vm.room.tail } managed role lk :=
    ⟨h.tree, h.list, h.other, h.ref, h.used, h.lock, h.heap⟩
  have hsame : Heaped vm { vm with room := vm.room.tail } role role :=
    ⟨fun _ _ => rfl, fun _ hp => Or.inl hp, rfl, rfl⟩
  simp only [Mm.kmalloc, Prog.wp_bind, Prog.wp_get, Prog.wp_modify, Prog.wp_ite, Prog.wp_pure]
  refine ⟨fun _ => hyes _ role hroom hsame, fun _ => ?_⟩
  refine hroom.allocPage (fun p area hp _ _ hu hrep => ?_) fun hbad _ => ?_
  · simp only [Prog.wp_bind, Prog.wp_modify, Prog.wp_pure]
    have hheld : Function.update role p .held p = .held := Function.update_self ..
    have hrole : ∀ q, Function.update role p .heap q =
        if q = p then .heap else Function.update role p .held q := by
      intro q
      rw [Function.update_apply, Function.update_apply]
      split_ifs <;> rfl
    obtain ⟨free, l, hl, hfree⟩ := hrep.list
    have hrep' := hrep.rerole (Function.update role p .heap) (p :: vm.heap) hl
      (fun q => ?_) (fun q => ?_) (fun q => ?_) (fun q => ?_) fun f _ => ⟨rfl, rfl⟩
    · refine hyes _ _ hrep' ⟨fun q hq => ?_, fun q hq => ?_, rfl, hu.npages⟩
      · grind [Function.update_apply]
      · grind [Function.update_apply]
    · rw [← hfree, hrole]
      grind
    · have : (Role.held).isPlain := rfl
      have : (Role.heap).isPlain := rfl
      grind
    · grind
    · have := h.heap
      grind [Function.update_apply]
  · simp only [Prog.wp_pure]
    exact hno _ hbad hroom hsame

theorem wp_kmalloc (h : VmInv vm managed role space)
    (hyes : ∀ vm' role', VmInv vm' managed role' space → Heaped vm vm' role role' → Q true vm')
    (hno : ∀ vm', ¬bad .noMem → VmInv vm' managed role space → Heaped vm vm' role role → Q false vm') :
    Prog.wp bad kmalloc vm Q E := by
  have hleaf : ∀ {vm' role'}, Heaped vm vm' role role' → ∀ q u, role q = .root → u < UPAGES →
      leaf vm'.mem q u = leaf vm.mem q u := fun hh _ _ _ _ => by rw [hh.mem]
  refine h.rep.kmalloc (fun vm' role' hrep hh => ?_) fun vm' hbad hrep hh => ?_
  · exact hyes vm' role' (h.reuse hrep hh.root_iff (hleaf hh)) hh
  · exact hno vm' hbad (h.reuse hrep hh.root_iff (hleaf hh)) hh

end Kmalloc

end Ucore.Mm
