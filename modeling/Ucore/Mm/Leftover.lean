import Ucore.Mm.Elf
import Ucore.Mm.Reachable
import Ucore.Mm.Shortage

namespace Ucore.Mm

open Lib Pmm

variable {vm vm' vm₁ vm₂ vm₁' vm₂' : VM} {managed : Finset Nat} {role : Nat → Role} {a p r : Nat} {img : Image}
  {task task' task₁ task₂ : Task} {space : Nat → Option (List VmaStruct)}

-- The states differ in what the pages of the free list hold, and in nothing else.
structure FreeDiffers (vm vm' : VM) : Prop where
  area : vm'.area = vm.area
  heap : vm'.heap = vm.heap
  room : vm'.room = vm.room
  mem : ∀ p, ¬OnFreeList vm.area p → vm'.mem p = vm.mem p

theorem VmInv.onFreeList (h : VmInv vm managed role space) : OnFreeList vm.area p ↔ role p = .free := by
  obtain ⟨free, l, hl, hfree⟩ := h.rep.list
  rw [onFreeList_iff hl, hfree]

theorem VmInv.differs (h : VmInv vm managed role space) (hdiff : FreeDiffers vm vm') : VmInv vm' managed role space := by
  have hvm : vm' = { vm with mem := vm'.mem } := by
    cases vm'
    obtain ⟨harea, hheap, hroom, _⟩ := hdiff
    cases harea
    cases hheap
    cases hroom
    rfl
  have hnode : ∀ q, (role q).isNode → vm'.mem q = vm.mem q := by
    refine fun q hq => hdiff.mem q fun hfree => ?_
    rw [h.onFreeList.mp hfree] at hq
    cases hq
  obtain ⟨hrep, hleaf⟩ := h.rep.rewrite hnode
  rw [hvm]
  exact h.reuse hrep (fun _ => Iff.rfl) hleaf

end Ucore.Mm
