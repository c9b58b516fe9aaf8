import Ucore.Libs.Number
import Mathlib.Data.List.TakeDrop

namespace Ucore.Printfmt

-- The output of a format as a whole
def Formats (fmt : CString) (va : VaList) (out : List Int) : Prop :=
  ∃ n, ∀ limit, n ≤ limit → vprintfmt collect limit fmt va [] = .ok out

def Returns (mem : Nat → UInt8) (str size : Nat) (fmt : CString) (va : VaList) (cnt : Int)
    (mem' : Nat → UInt8) : Prop :=
  ∃ n, ∀ limit, n ≤ limit → vsnprintf limit mem str size fmt va = .ok (cnt, mem')

-- The memory with characters written to it from an address on
def stored (mem : Nat → UInt8) (str : Nat) (out : List Int) : Nat → UInt8 := fun a =>
  if h : str ≤ a ∧ a - str < out.length then UInt8.ofInt out[a - str] else mem a

-- What the buffer is left with: as many characters as fit, and a NUL
structure Truncates (mem mem' : Nat → UInt8) (str size : Nat) (out : List Int) : Prop where
  text : ∀ i (h : i < out.length), i < size - 1 → mem' (str + i) = UInt8.ofInt out[i]
  nul : mem' (str + min (size - 1) out.length) = 0
  frame : ∀ a, ¬(str ≤ a ∧ a < str + size) → mem' a = mem a

def contents (mem : Nat → UInt8) (str n : Nat) : List UInt8 := (List.range n).map fun i => mem (str + i)

variable {mem mem' : Nat → UInt8} {str ebuf size size' n n' : Nat} {fmt : CString} {va : VaList}
  {out : List Int}

theorem stored_append {x : Int} :
    stored mem str (out ++ [x]) = Function.update (stored mem str out) (str + out.length) (UInt8.ofInt x) := by
  funext a
  unfold stored
  by_cases ha : a = str + out.length
  · subst ha
    rw [Function.update_self, dif_pos ⟨by omega, by simp⟩]
    simp
  · rw [Function.update_of_ne ha]
    by_cases hin : str ≤ a ∧ a - str < out.length
    · rw [dif_pos hin, dif_pos ⟨hin.1, by rw [List.length_append]; omega⟩, List.getElem_append_left hin.2]
    · rw [dif_neg hin, dif_neg]
      rw [List.length_append, List.length_singleton]
      omega

-- The buffer fills up one character at a time; the others are only counted.
theorem emit_sprintputch (hle : str ≤ ebuf) (out : List Int) :
    emit sprintputch out ⟨str, ebuf, 0, mem⟩ =
      ⟨str + min (ebuf - str) out.length, ebuf, toInt32 out.length,
        stored mem str (out.take (ebuf - str))⟩ := by
  induction out using List.reverseRecOn with
  | nil =>
      have hstored : stored mem str [] = mem := by
        funext a
        exact dif_neg (by simp)
      simp only [emit_nil, List.take_nil, hstored, List.length_nil, Nat.min_zero]
      rfl
  | append_singleton out x ih =>
      have hcnt : toInt32 (toInt32 out.length + 1) = toInt32 ((out ++ [x]).length : Nat) := by
        rw [List.length_append, List.length_singleton]
        unfold toInt32
        omega
      rw [emit_append, ih, emit_cons, emit_nil]
      unfold sprintputch
      by_cases hfit : out.length < ebuf - str
      · have htake : out.take (ebuf - str) = out := List.take_of_length_le (by omega)
        have htake' : (out ++ [x]).take (ebuf - str) = out ++ [x] :=
          List.take_of_length_le (by rw [List.length_append, List.length_singleton]; omega)
        have hmin : min (ebuf - str) out.length = out.length := by omega
        have hmin' : min (ebuf - str) (out ++ [x]).length = out.length + 1 := by
          rw [List.length_append, List.length_singleton]
          omega
        simp only [hcnt, htake, htake', hmin, hmin', stored_append]
        rw [if_pos (by omega), Nat.add_assoc]
      · have htake : (out ++ [x]).take (ebuf - str) = out.take (ebuf - str) :=
          List.take_append_of_le_length (by omega)
        have hmin : min (ebuf - str) out.length = ebuf - str := by omega
        have hmin' : min (ebuf - str) (out ++ [x]).length = ebuf - str := by
          rw [List.length_append]
          omega
        simp only [hcnt, htake, hmin, hmin']
        rw [if_neg (by omega)]

theorem Formats.yields (h : Formats fmt va out) : Yields fmt va .text 0 0 (.ok out) := by
  obtain ⟨n, hn⟩ := h
  obtain ⟨r, ⟨n', hn'⟩, hout⟩ := vprintfmt_yields fmt va
  have hcollect := hn (max n n') (by omega)
  have hr := hn' (max n n') (by omega) (List Int) collect []
  unfold vprintfmt at hcollect
  rw [hcollect] at hr
  cases r with
  | error h => exact absurd hr (by simp [Except.map])
  | ok out' =>
      have heq : out = emit collect out' [] := Except.ok.inj hr
      rw [emit_collect, List.nil_append] at heq
      rw [heq]
      exact ⟨n', hn'⟩

-- The buffer that vsnprintf leaves
def written (mem : Nat → UInt8) (str size : Nat) (out : List Int) : Nat → UInt8 :=
  Function.update (stored mem str (out.take (size - 1))) (str + min (size - 1) out.length) 0

theorem Formats.returns (h : Formats fmt va out) (mem : Nat → UInt8) (hstr : str ≠ 0) (hsize : 1 ≤ size)
    (hwrap : str + (size - 1) < 18446744073709551616) :
    Returns mem str size fmt va (toInt32 out.length) (written mem str size out) := by
  obtain ⟨n, hn⟩ := h.yields
  refine ⟨n, fun limit hlimit => ?_⟩
  have hebuf : (str + size + 18446744073709551615) % 18446744073709551616 = str + (size - 1) := by
    omega
  have hrun := hn limit hlimit SprintBuf sprintputch ⟨str, str + (size - 1), 0, mem⟩
  unfold vsnprintf
  simp only [hebuf]
  rw [if_neg (by omega)]
  unfold vprintfmt
  rw [hrun]
  simp only [Except.map, ok_bind, emit_sprintputch (Nat.le_add_right str (size - 1)),
    Nat.add_sub_cancel_left]
  rfl

theorem Returns.unique {cnt cnt' : Int} {mem₁ mem₂ : Nat → UInt8}
    (h : Returns mem str size fmt va cnt mem₁) (h' : Returns mem str size fmt va cnt' mem₂) :
    cnt = cnt' ∧ mem₁ = mem₂ := by
  obtain ⟨n, hn⟩ := h
  obtain ⟨n', hn'⟩ := h'
  have heq := (hn (max n n') (by omega)).symm.trans (hn' (max n n') (by omega))
  exact Prod.mk.inj (Except.ok.inj heq)

theorem stored_get {i : Nat} (hi : i < out.length) :
    stored mem str out (str + i) = UInt8.ofInt out[i] := by
  unfold stored
  rw [dif_pos ⟨by omega, by omega⟩]
  simp only [Nat.add_sub_cancel_left]

theorem written_truncates (mem : Nat → UInt8) (str : Nat) (out : List Int) (hsize : 1 ≤ size) :
    Truncates mem (written mem str size out) str size out where
  text := by
    intro i hi hlt
    unfold written
    rw [Function.update_of_ne (by omega), stored_get (by rw [List.length_take]; omega), List.getElem_take]
  nul := Function.update_self _ _ _
  frame := by
    intro a ha
    unfold written
    rw [Function.update_of_ne (by omega)]
    apply dif_neg
    rw [List.length_take]
    omega

-- What is left is a function of the output and the size.
theorem Truncates.contents (h : Truncates mem mem' str size out) :
    contents mem' str (min (size - 1) out.length) = (out.take (size - 1)).map UInt8.ofInt := by
  apply List.ext_getElem
  · simp [Printfmt.contents]
  · intro i hi hi'
    simp only [Printfmt.contents, List.length_map, List.length_range] at hi
    simp only [Printfmt.contents, List.getElem_map, List.getElem_range, List.getElem_take]
    exact h.text i (by omega) (by omega)

theorem toInt32_length : toInt32 out.length = out.length ↔ out.length < 2147483648 := by
  unfold toInt32
  omega

-- vsnprintf returns the length of the output, and the buffers of two sizes are left with what
-- fits of it.
def Sound (mem : Nat → UInt8) (str size size' : Nat) (fmt : CString) (va : VaList) (out : List Int) : Prop :=
  ∃ mem₁ mem₂, Returns mem str size fmt va out.length mem₁ ∧ Truncates mem mem₁ str size out ∧
    Returns mem str size' fmt va out.length mem₂ ∧ Truncates mem mem₂ str size' out ∧
    contents mem₁ str (min (size - 1) out.length) <+: contents mem₂ str (min (size' - 1) out.length)

theorem Sound.length_lt (hsound : Sound mem str size size' fmt va out) (h : Formats fmt va out)
    (hstr : str ≠ 0) (hsize : 1 ≤ size) (hwrap : str + (size - 1) < 18446744073709551616) :
    out.length < 2147483648 := by
  obtain ⟨mem₁, mem₂, hmem₁, -⟩ := hsound
  exact toInt32_length.mp ((h.returns mem hstr hsize hwrap).unique hmem₁).1

-- The buffers are filled as they should be, but the number of the characters is an int.
theorem vsnprintf_exact (h : Formats fmt va out) (hstr : str ≠ 0) (hsize : 1 ≤ size) (hle : size ≤ size')
    (hwrap : str + (size' - 1) < 18446744073709551616) :
    Sound mem str size size' fmt va out ↔ out.length < 2147483648 := by
  have hwrap' : str + (size - 1) < 18446744073709551616 := Nat.lt_of_le_of_lt (by omega) hwrap
  constructor
  · intro hsound
    exact hsound.length_lt h hstr hsize hwrap'
  · intro hlen
    have hret := h.returns mem hstr hsize hwrap'
    have hret' := h.returns mem hstr (Nat.le_trans hsize hle) hwrap
    rw [toInt32_length.mpr hlen] at hret hret'
    have htrunc := written_truncates mem str out hsize
    have htrunc' := written_truncates mem str out (Nat.le_trans hsize hle)
    refine ⟨_, _, hret, htrunc, hret', htrunc', ?_⟩
    rw [htrunc.contents, htrunc'.contents]
    exact (List.take_prefix_take_left (by omega)).map _

-- Two characters in a buffer of two
theorem vsnprintf_exact_two :
    Sound (fun _ => 7) 100 2 3 ⟨['o', 'k'], by decide⟩ ⟨fun _ => 0, fun _ => .empty⟩ (codes ['o', 'k']) := by
  have hformats : Formats ⟨['o', 'k'], by decide⟩ ⟨fun _ => 0, fun _ => .empty⟩ (codes ['o', 'k']) := by
    refine ⟨3, fun limit hlimit => ?_⟩
    obtain ⟨limit, rfl⟩ := Nat.exists_eq_add_of_le' hlimit
    rfl
  exact (vsnprintf_exact hformats (by decide) (by decide) (by decide) (by decide)).mpr (by decide)

-- A number in the widest field, with a character behind it
def wideFormat : CString := ⟨['%', '*', 'd', 'x'], by decide⟩

def wideArgs : VaList := ⟨fun _ => 2147483647, fun _ => .empty⟩

def wideOutput : List Int := padded 2147483647 .decimal 2147483647 ' ' ++ codes ['x']

theorem wide_formats : Formats wideFormat wideArgs wideOutput := by
  have hend : Yields wideFormat wideArgs .text 4 2 (.ok []) := Yields.nul rfl
  have hx : wideFormat.get 3 = .ok 'x' := rfl
  have hd : wideFormat.get 2 = .ok 'd' := rfl
  have htext : Yields wideFormat wideArgs .text 3 2 (.ok (codes ['x'])) :=
    Yields.text hx (by decide) (by decide) hend
  have hnumber : Yields wideFormat wideArgs (.reswitch { Flags.start with width := 2147483647 }) 2 1
      (.ok wideOutput) := by
    apply Yields.pass _ htext
    intro σ printfmt putch s
    unfold Printfmt.pass
    simp only [switch_signed hd]
    rfl
  have hstar : Yields wideFormat wideArgs (.reswitch .start) 1 0 (.ok wideOutput) :=
    Yields.silent (fun σ printfmt putch s => rfl) hnumber
  obtain ⟨n, hn⟩ := Yields.escape rfl hstar
  refine ⟨n, fun limit hlimit => ?_⟩
  have hrun := hn limit hlimit (List Int) collect []
  unfold vprintfmt
  rw [hrun]
  simp only [Except.map, emit_collect, List.nil_append]

theorem wide_length : wideOutput.length = 2147483648 := by
  unfold wideOutput
  rw [padded_eq (by decide) (by decide) (by decide), ← codes_append, codes_length]
  simp only [List.length_append, List.length_replicate]
  decide

-- The result is -2147483648.
theorem vsnprintf_wraps : Formats wideFormat wideArgs wideOutput ∧
    ¬Sound (fun _ => 0) 1 1 1 wideFormat wideArgs wideOutput := by
  refine ⟨wide_formats, fun hsound => ?_⟩
  have hlt := hsound.length_lt wide_formats (by decide) (by decide) (by decide)
  rw [wide_length] at hlt
  exact absurd hlt (by decide)

end Ucore.Printfmt
