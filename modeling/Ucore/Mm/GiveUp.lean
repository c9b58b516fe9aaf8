import Ucore.Mm.Leftover

namespace Ucore.Mm

open Lib Pmm

variable {vm vm' vm₁ : VM} {managed : Finset Nat} {role role' role₁ : Nat → Role} {p r : Nat} {ret : Int} {img : Image}
  {task : Task} {space : Nat → Option (List VmaStruct)} {vmas : List VmaStruct}

-- A page that load_icode has obtained and that is not free behind it: the heap has it, or it
-- was a page directory or a page table of the address space that load_icode gave up.
def Image.Keeps (img : Image) (vm vm' : VM) (p : Nat) : Prop :=
  p ∈ vm'.heap ∨ ∃ ret mm vm₁, (buildImage img vm).result = .ok (some (ret, mm), vm₁) ∧
    TableOf vm₁.mem mm.pgdir p ∧ p ≠ mm.pgdir

-- No other address space has a page that the teardown left.
theorem TornDown.free_of_gains {mm : MmStruct} (htorn : TornDown vm₁ vm' role₁ role' mm.pgdir mm.mmapList)
    (hgains : Gains vm vm₁ role role₁ mm.pgdir) (h : VmInv vm managed role space) (hfill : Filling vm₁ managed role₁ space mm)
    (hrep : Rep vm' managed role' none) (hp : role p = .free) (hframe : role₁ p = .frame) : role' p = .free := by
  refine (htorn.frame p hframe).resolve_left fun hleft => ?_
  obtain ⟨q, v, lf, hq, hv, hlf, rfl⟩ := hrep.mapped hleft
  obtain ⟨hq₁, hne⟩ := (htorn.root_iff q).mp hq
  have hspace := (hfill.inv.root q).mp hq₁
  rw [Function.update_of_ne hne] at hspace
  have hq₀ := (h.root q).mpr hspace
  rw [htorn.leaf q v hq₁ hne hv, hgains.leaf q v hq₀ hne hv] at hlf
  have hwas := h.leaf_frame hq₀ hv hlf
  rw [hp] at hwas
  cases hwas

theorem TornDown.plain (h : TornDown vm vm' role role' r vmas) (hr : role r = .root) (hp : (role p).isPlain) :
    role' p = role p := by
  refine (h.cases p).resolve_right ?_
  rintro ⟨_, rfl | he | ⟨_, he⟩ | ⟨_, _, he⟩⟩
  · rw [hr] at hp
    cases hp
  all_goals
    rw [he] at hp
    cases hp

-- What becomes of a page that was free
theorem Image.GivesUp.back (hgives : img.GivesUp vm vm' managed role role' space ret) (h : VmInv vm managed role space)
    (h' : VmInv vm' managed role' space) (hp : role p = .free) : role' p = .free ∨ img.Keeps vm vm' p := by
  have hheap : role' p = .heap → img.Keeps vm vm' p := fun hp' => Or.inl ((h'.rep.heap p).mp hp')
  cases hgives with
  | early hheaped => exact (hheaped.new p hp).imp_right hheap
  | @torn vm₁ role₁ mm hbuilds hfill hgains htorn =>
      have hr := hfill.root
      rcases hgains.new p hp with hfree | hgot | hframe | hunder
      · exact Or.inl ((htorn.plain hr (by rw [hfree]; rfl)).trans hfree)
      · exact Or.inr (hheap ((htorn.plain hr (by rw [hgot]; rfl)).trans hgot))
      · exact Or.inl (htorn.free_of_gains hgains h hfill h'.rep hp hframe)
      · by_cases hpr : p = mm.pgdir
        · exact Or.inl (hpr ▸ htorn.root)
        · exact Or.inr (Or.inr ⟨ret, mm, vm₁, hbuilds, (hfill.inv.rep.tree.tableOf_iff hr).mpr hunder, hpr⟩)

end Ucore.Mm
