import Ucore.Mm.Theorems

namespace Ucore.Mm

open Lib Pmm

variable {s s₀ : Sys} {managed : Finset Nat} {role : Nat → Role} {i len n name ph : Nat} {img : Image} {mm : MmStruct}
  {space : Nat → Option (List VmaStruct)} {vmas : List VmaStruct} {t : Task} {room : List Bool}

-- What load_icode accepts it can read.
theorem Loadable.mapped (h : Loadable img vmas n ph) : HeadersMapped img n ph := by
  induction n generalizing ph vmas with
  | zero => trivial
  | succ n ih =>
      by_cases hload : (phdr img ph).type = ELF_PT_LOAD
      · refine ⟨h.header, fun _ _ => (h.ok _ ?_).file, fun _ => ih (h.load hload)⟩
        rw [segments_load hload]
        exact List.mem_cons_self
      · exact ⟨h.header, fun hno => absurd hno hload, fun _ => ih (h.skip hload)⟩

theorem Image.Elf.mapped (h : img.Elf) : img.Mapped := ⟨h.header, fun _ => h.loadable.mapped⟩

end Ucore.Mm
