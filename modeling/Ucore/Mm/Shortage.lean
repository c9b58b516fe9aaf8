import Ucore.Mm.Exec

namespace Ucore.Mm

open Lib Pmm

variable {good : Obs → Prop} {img : Image} {mm : MmStruct} {n ph r p : Nat}

section Bind

variable {α β : Type} {P : β → Prop}

-- Without a value there is nothing to go on with.
theorem bind_some {x : M (Option α)} {f : Option α → M β} (hx : Prog.NotesFor good x (·.isSome))
    (hok : ∀ a, Prog.NotesFor good (f (some a)) P) (hfail : Prog.Avoids (f none) P) :
    Prog.NotesFor good (x >>= f) P := by
  refine hx.bind (fun a ha => ?_) fun a ha => ?_
  · obtain ⟨a, rfl⟩ := Option.isSome_iff_exists.mp ha
    exact hok a
  · obtain rfl := Option.not_isSome_iff_eq_none.mp ha
    exact hfail

end Bind

section Walk

end Walk

section Load

end Load

end Ucore.Mm
