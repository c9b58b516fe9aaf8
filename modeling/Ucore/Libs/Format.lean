import Ucore.Libs.Emit
import Mathlib.Data.List.Induction

namespace Ucore.Printfmt

def FLAGS : List Char := chars "-0123456789*.#l"

def CONVERSIONS : List Char := chars "cesduopx%"

-- What a format is made of: text, conversions with the characters between the % and the
-- last one, and escapes that end at another character or at the NUL
inductive Piece
  | text (ch : Char)
  | conversion (flags : List Char) (ch : Char)
  | unknown (escape : List Char)
  deriving DecidableEq

namespace Piece

def chars : Piece → List Char
  | text ch => [ch]
  | conversion flags ch => '%' :: flags ++ [ch]
  | unknown escape => '%' :: escape

-- The number of arguments that are taken
def args : Piece → Nat
  | text _ => 0
  | conversion flags ch => flags.count '*' + if ch = '%' then 0 else 1
  | unknown escape => escape.count '*'

-- Text and unknown escapes are printed as they are.
def Prints : Piece → List Int → Prop
  | text ch, out => out = codes [ch]
  | conversion _ _, _ => True
  | unknown escape, out => out = codes ('%' :: escape)

-- %e is not given the least int.
def Tame (va : VaList) (ap : Nat) : Piece → Prop
  | conversion flags 'e' => va.int (ap + flags.count '*') ≠ -2147483648
  | _ => True

end Piece

-- The pieces of the rest of a format, in the text or in an escape
def scan : Option (List Char) → List Char → List Piece
  | none, [] => []
  | none, ch :: l => if ch = '%' then scan (some []) l else .text ch :: scan none l
  | some flags, [] => [.unknown flags]
  | some flags, ch :: l =>
      if ch ∈ FLAGS then scan (some (flags ++ [ch])) l
      else if ch ∈ CONVERSIONS then .conversion flags ch :: scan none l
      else .unknown (flags ++ [ch]) :: scan none l

def pieces (fmt : CString) : List Piece := scan none fmt.chars

def Tame (va : VaList) : Nat → List Piece → Prop
  | _, [] => True
  | ap, p :: ps => p.Tame va ap ∧ Tame va (ap + p.args) ps

variable {σ : Type} {putch : Int → σ → σ} {s : σ} {out out' : List Int} {fmt : CString}
  {va : VaList} {f : Flags} {mode mode' : Mode} {i j ap ap' : Nat} {ch : Char} {l : List Char}
  {r : Except Halt (List Int)}

theorem scan_chars (flags : List Char) :
    (scan none l).flatMap Piece.chars = l ∧
      (scan (some flags) l).flatMap Piece.chars = '%' :: flags ++ l := by
  induction l generalizing flags with
  | nil => exact ⟨rfl, by simp [scan, Piece.chars]⟩
  | cons ch l ih =>
      constructor
      · rw [scan]
        split
        next hch =>
          rw [(ih []).2, hch]
          rfl
        next => rw [List.flatMap_cons, (ih []).1]; rfl
      · rw [scan]
        split
        next => rw [(ih _).2]; simp
        next =>
          split
          next => rw [List.flatMap_cons, (ih []).1]; simp [Piece.chars]
          next => rw [List.flatMap_cons, (ih []).1]; simp [Piece.chars]

-- The pieces are the whole format.
theorem pieces_chars (fmt : CString) : (pieces fmt).flatMap Piece.chars = fmt.chars :=
  (scan_chars []).1

-- What vprintfmt does from a place in the format on, whatever putch is: with enough passes it
-- prints the characters and returns, or it fails.
def Yields (fmt : CString) (va : VaList) (mode : Mode) (i ap : Nat) (r : Except Halt (List Int)) : Prop :=
  ∃ n, ∀ limit, n ≤ limit → ∀ (σ : Type) (putch : Int → σ → σ) (s : σ),
    vprintfmtLoop putch limit fmt va ⟨mode, i, ap, s⟩ = r.map fun out => emit putch out s

namespace Yields

-- A pass that goes on, which may call printfmt
theorem pass_eventually
    (hpass : ∃ n, ∀ limit, n ≤ limit → ∀ (σ : Type) (putch : Int → σ → σ) (s : σ),
      pass (vprintfmt putch limit) putch fmt va ⟨mode, i, ap, s⟩ =
        .ok (some ⟨mode', j, ap', emit putch out s⟩))
    (h : Yields fmt va mode' j ap' r) : Yields fmt va mode i ap (r.map (out ++ ·)) := by
  obtain ⟨n, hn⟩ := hpass
  obtain ⟨n', hn'⟩ := h
  refine ⟨max n n' + 1, fun limit hlimit σ putch s => ?_⟩
  obtain ⟨limit, rfl⟩ := Nat.exists_eq_add_of_le' hlimit
  rw [← Nat.add_assoc, vprintfmtLoop]
  have hgo := hn (limit + max n n') (by omega) σ putch s
  unfold vprintfmt at hgo
  rw [hgo, ok_bind]
  simp only [hn' (limit + max n n') (by omega)]
  cases r with
  | error h => rfl
  | ok out' => simp [Except.map]

theorem pass (hpass : ∀ (σ : Type) (printfmt : CString → VaList → σ → Except Halt σ)
      (putch : Int → σ → σ) (s : σ),
      pass printfmt putch fmt va ⟨mode, i, ap, s⟩ = .ok (some ⟨mode', j, ap', emit putch out s⟩))
    (h : Yields fmt va mode' j ap' r) : Yields fmt va mode i ap (r.map (out ++ ·)) :=
  pass_eventually ⟨0, fun limit _ σ putch s => hpass σ (vprintfmt putch limit) putch s⟩ h

-- A pass that prints nothing
theorem silent (hpass : ∀ (σ : Type) (printfmt : CString → VaList → σ → Except Halt σ)
      (putch : Int → σ → σ) (s : σ),
      Printfmt.pass printfmt putch fmt va ⟨mode, i, ap, s⟩ = .ok (some ⟨mode', j, ap', s⟩))
    (h : Yields fmt va mode' j ap' r) : Yields fmt va mode i ap r := by
  have hr : r.map ([] ++ ·) = r := by
    cases r with
    | error h => rfl
    | ok out => rfl
  rw [← hr]
  exact pass hpass h

-- The text
theorem text (hch : fmt.get i = .ok ch) (hesc : ch ≠ '%') (hnul : ch ≠ '\x00')
    (h : Yields fmt va .text (i + 1) ap r) :
    Yields fmt va .text i ap (r.map (codes [ch] ++ ·)) := by
  apply pass _ h
  intro σ printfmt putch s
  simp only [Printfmt.pass, hch, ok_bind, if_neg hesc, if_neg hnul]
  rfl

theorem nul (hch : fmt.get i = .ok '\x00') : Yields fmt va .text i ap (.ok []) := by
  refine ⟨1, fun limit hlimit σ putch s => ?_⟩
  obtain ⟨limit, rfl⟩ := Nat.exists_eq_add_of_le' hlimit
  have hne : ('\x00' : Char) ≠ '%' := by decide
  simp only [vprintfmtLoop, Printfmt.pass, hch, ok_bind, if_neg hne, ↓reduceIte]
  rfl

theorem escape (hch : fmt.get i = .ok '%') (h : Yields fmt va (.reswitch .start) (i + 1) ap r) :
    Yields fmt va .text i ap r := by
  apply silent _ h
  intro σ printfmt putch s
  simp only [Printfmt.pass, hch, ok_bind, ↓reduceIte]
  rfl

end Yields

section Reading

variable {pre e : List Char}

theorem get_middle (h : fmt.chars = pre ++ ch :: l) : fmt.get pre.length = .ok ch := by
  have hlt : pre.length < fmt.chars.length := by
    rw [h, List.length_append, List.length_cons]
    omega
  unfold CString.get
  rw [dif_pos hlt]
  have hsome : fmt.chars[pre.length]? = some ch := by
    rw [h]
    simp
  rw [List.getElem?_eq_getElem hlt] at hsome
  rw [Option.some.inj hsome]

theorem get_end (h : fmt.chars = pre) : fmt.get pre.length = .ok '\x00' := by
  unfold CString.get
  rw [h, dif_neg (Nat.lt_irrefl _), if_pos rfl]

-- The way back to the last %
theorem rewind_eq (h : fmt.chars = (pre ++ '%' :: e) ++ l) (he : '%' ∉ e) :
    rewind fmt (pre ++ '%' :: e).length = .ok (pre.length + 1) := by
  induction e using List.reverseRecOn generalizing l with
  | nil =>
      have hget : fmt.get pre.length = .ok '%' := get_middle (l := l) (by rw [h]; simp)
      rw [List.length_append, List.length_singleton, rewind, hget, ok_bind, if_pos rfl]
      rfl
  | append_singleton e ch ih =>
      have hsplit : pre ++ '%' :: (e ++ [ch]) = (pre ++ '%' :: e) ++ [ch] := by simp
      have hget : fmt.get (pre ++ '%' :: e).length = .ok ch :=
        get_middle (l := l) (by rw [h, hsplit]; simp)
      have hne : ch ≠ '%' := fun heq => he (by simp [heq])
      rw [hsplit, List.length_append, List.length_singleton, rewind, hget, ok_bind, if_neg hne]
      exact ih (l := ch :: l) (by rw [h, hsplit]; simp) fun hmem => he (by simp [hmem])

end Reading

-- An escape is read on until a character that is not a flag.
def Mode.Escape : Mode → Prop
  | text => False
  | reswitch _ => True
  | digits _ => True

theorem flag_of_mem (va : VaList) (f : Flags) (ap : Nat) (hch : ch ∈ FLAGS) :
    ∃ mode, mode.Escape ∧ flag va f ap ch = some (mode, ap + [ch].count '*') := by
  have hcases : ch = '-' ∨ ch = '0' ∨ ch = '*' ∨ ch = '.' ∨ ch = '#' ∨ ch = 'l' ∨
      ch = '1' ∨ ch = '2' ∨ ch = '3' ∨ ch = '4' ∨ ch = '5' ∨ ch = '6' ∨ ch = '7' ∨ ch = '8' ∨
      ch = '9' := by
    simp only [FLAGS, chars, String.reduceToList, List.mem_cons, List.not_mem_nil, or_false] at hch
    tauto
  rcases hcases with rfl | rfl | rfl | rfl | rfl | rfl | rfl | rfl | rfl | rfl | rfl | rfl | rfl |
    rfl | rfl
  all_goals first
    | exact ⟨.reswitch _, trivial, rfl⟩
    | exact ⟨.digits _, trivial, rfl⟩

theorem mem_flags_of_digit (hlo : 48 ≤ ch.toNat) (hhi : ch.toNat ≤ 57) : ch ∈ FLAGS := by
  have hall : ∀ d : Fin 10, Char.ofNat (48 + d) ∈ FLAGS := by decide
  have hmem := hall ⟨ch.toNat - 48, by omega⟩
  rwa [Nat.add_sub_cancel' hlo, Char.ofNat_toNat] at hmem

theorem not_digit_of_not_mem (hch : ch ∉ FLAGS) : ch < '0' ∨ '9' < ch := by
  by_contra hdigit
  have hlo : ¬ch.toNat < 48 := fun h => hdigit (Or.inl h)
  have hhi : ¬57 < ch.toNat := fun h => hdigit (Or.inr h)
  exact hch (mem_flags_of_digit (by omega) (by omega))

theorem flag_of_not_mem (hch : ch ∉ FLAGS) : flag va f ap ch = none := by
  unfold flag
  split
  all_goals first
    | exact absurd (by decide) hch
    | skip
  apply if_neg
  rintro ⟨hlo, hhi⟩
  have hlo' : 49 ≤ ch.toNat := hlo
  exact hch (mem_flags_of_digit (by omega) hhi)

theorem convert_of_mem (va : VaList) (f : Flags) (ap : Nat) (hch : ch ∈ CONVERSIONS) (hne : ch ≠ 'e') :
    ∃ out, ∀ (σ : Type) (printfmt : CString → VaList → σ → Except Halt σ) (putch : Int → σ → σ) (s : σ),
      convert printfmt putch va f ap ch s =
        some (.ok (ap + if ch = '%' then 0 else 1, emit putch out s)) := by
  have hcases : ch = 'c' ∨ ch = 's' ∨ ch = 'd' ∨ ch = 'u' ∨ ch = 'o' ∨ ch = 'p' ∨ ch = 'x' ∨
      ch = '%' := by
    simp only [CONVERSIONS, chars, String.reduceToList, List.mem_cons, List.not_mem_nil, or_false] at hch
    tauto
  rcases hcases with rfl | rfl | rfl | rfl | rfl | rfl | rfl | rfl
  · exact ⟨[va.int ap], fun _ _ _ _ => rfl⟩
  · obtain ⟨out, hout⟩ := putStr_emits f
      (if va.slot ap = 0 then ⟨chars "(null)", by decide⟩ else va.string (va.slot ap))
    refine ⟨out, fun σ printfmt putch s => ?_⟩
    simp only [convert, hout]
    rfl
  · exact ⟨_, fun _ _ _ _ => convert_signed⟩
  · exact ⟨_, fun _ _ _ _ => convert_unsigned rfl⟩
  · exact ⟨_, fun _ _ _ _ => convert_unsigned rfl⟩
  · refine ⟨codes ['0', 'x'] ++ padded (va.slot ap).toNat .hexadecimal f.width f.padc,
      fun σ printfmt putch s => ?_⟩
    simp only [convert, printnum_eq]
    rfl
  · exact ⟨_, fun _ _ _ _ => convert_unsigned rfl⟩
  · exact ⟨codes ['%'], fun _ _ _ _ => rfl⟩

theorem convert_of_not_mem {printfmt : CString → VaList → σ → Except Halt σ} (hch : ch ∉ CONVERSIONS) :
    convert printfmt putch va f ap ch s = none := by
  unfold convert
  split
  all_goals first
    | exact absurd (by decide) hch
    | rfl

namespace Yields

-- The loop over the digits ends at another character.
theorem process (hget : fmt.get i = .ok ch) (hdigit : ch < '0' ∨ '9' < ch)
    (h : Yields fmt va (.reswitch f.processPrecision) i ap r) : Yields fmt va (.digits f) i ap r := by
  apply silent _ h
  intro σ printfmt putch s
  simp only [Printfmt.pass, hget, ok_bind, if_pos hdigit]
  rfl

-- A flag
theorem flag (va : VaList) (ap : Nat) (hget : fmt.get i = .ok ch) (hch : ch ∈ FLAGS) (hmode : mode.Escape) :
    ∃ mode', mode'.Escape ∧ ∀ r, Yields fmt va mode' (i + 1) (ap + [ch].count '*') r →
      Yields fmt va mode i ap r := by
  have hswitch : ∀ f, ∃ mode', mode'.Escape ∧ ∀ r,
      Yields fmt va mode' (i + 1) (ap + [ch].count '*') r → Yields fmt va (.reswitch f) i ap r := by
    intro f
    obtain ⟨mode', hescape, hflag⟩ := flag_of_mem va f ap hch
    refine ⟨mode', hescape, fun r h => silent (fun σ printfmt putch s => ?_) h⟩
    simp only [Printfmt.pass, switch, hget, ok_bind, hflag]
    rfl
  cases mode with
  | text => exact hmode.elim
  | reswitch f => exact hswitch f
  | digits f =>
      by_cases hdigit : ch < '0' ∨ '9' < ch
      · obtain ⟨mode', hescape, h⟩ := hswitch f.processPrecision
        exact ⟨mode', hescape, fun r hr => process hget hdigit (h r hr)⟩
      · have hstar : [ch].count '*' = 0 := by
          have hne : ch ≠ '*' := by
            rintro rfl
            exact hdigit (Or.inl (by decide))
          simp [hne]
        rw [hstar]
        refine ⟨.digits (f.digit ch), trivial, fun r hr => silent (fun σ printfmt putch s => ?_) hr⟩
        simp only [Printfmt.pass, hget, ok_bind, if_neg hdigit]
        rfl

-- An escape ends at a character that is not a flag.
theorem leave (va : VaList) (ap : Nat) (hget : fmt.get i = .ok ch) (hch : ch ∉ FLAGS) (hmode : mode.Escape) :
    ∃ f, ∀ r, Yields fmt va (.reswitch f) i ap r → Yields fmt va mode i ap r := by
  cases mode with
  | text => exact hmode.elim
  | reswitch f => exact ⟨f, fun r hr => hr⟩
  | digits f => exact ⟨f.processPrecision, fun r hr => process hget (not_digit_of_not_mem hch) hr⟩

theorem convert (va : VaList) (f : Flags) (ap : Nat) (hget : fmt.get i = .ok ch) (hflag : ch ∉ FLAGS)
    (hch : ch ∈ CONVERSIONS) (hne : ch ≠ 'e') :
    ∃ out, ∀ r, Yields fmt va .text (i + 1) (ap + if ch = '%' then 0 else 1) r →
      Yields fmt va (.reswitch f) i ap (r.map (out ++ ·)) := by
  obtain ⟨out, hout⟩ := convert_of_mem va f ap hch hne
  refine ⟨out, fun r hr => pass (fun σ printfmt putch s => ?_) hr⟩
  simp only [Printfmt.pass, switch, hget, ok_bind, flag_of_not_mem hflag, hout]
  rfl

theorem unknown (hget : fmt.get i = .ok ch) (hflag : ch ∉ FLAGS) (hch : ch ∉ CONVERSIONS)
    (hrewind : rewind fmt i = .ok j) (h : Yields fmt va .text j ap r) :
    Yields fmt va (.reswitch f) i ap (r.map (codes ['%'] ++ ·)) := by
  apply pass _ h
  intro σ printfmt putch s
  simp only [Printfmt.pass, switch, hget, ok_bind, flag_of_not_mem hflag, convert_of_not_mem hch,
    hrewind]
  rfl

-- A stretch of text
theorem run {pre t : List Char} (hfmt : fmt.chars = pre ++ t ++ l) (ht : '%' ∉ t)
    (h : Yields fmt va .text (pre ++ t).length ap r) :
    Yields fmt va .text pre.length ap (r.map (codes t ++ ·)) := by
  induction t generalizing pre with
  | nil =>
      rw [List.append_nil] at h
      have hr : r.map (codes [] ++ ·) = r := by
        cases r with
        | error h => rfl
        | ok out => rfl
      rwa [hr]
  | cons ch t ih =>
      have hsplit : pre ++ ch :: t = pre ++ [ch] ++ t := by simp
      have hnul : ch ≠ '\x00' := by
        rintro rfl
        exact fmt.noNul (by rw [hfmt]; simp)
      have hrest : Yields fmt va .text (pre ++ [ch]).length ap (r.map (codes t ++ ·)) :=
        ih (by rw [hfmt, hsplit]) (fun hmem => ht (List.mem_cons_of_mem _ hmem)) (by rwa [← hsplit])
      rw [List.length_append, List.length_singleton] at hrest
      have hget : fmt.get pre.length = .ok ch := get_middle (l := t ++ l) (by rw [hfmt]; simp)
      have hmap : r.map (codes (ch :: t) ++ ·) = (r.map (codes t ++ ·)).map (codes [ch] ++ ·) := by
        cases r with
        | error h => rfl
        | ok out => rfl
      rw [hmap]
      exact text hget (fun heq => ht (by simp [heq])) hnul hrest

-- The formats that %e hands to printfmt
theorem single (va : VaList) (t : List Char) (hfmt : fmt.chars = t ++ ['%', ch]) (ht : '%' ∉ t) (hflag : ch ∉ FLAGS)
    (hch : ch ∈ CONVERSIONS) (hne : ch ≠ 'e') : ∃ out, Yields fmt va .text 0 0 (.ok out) := by
  have hpercent : fmt.get t.length = .ok '%' := get_middle hfmt
  have hget : fmt.get (t ++ ['%']).length = .ok ch := get_middle (l := []) (by rw [hfmt]; simp)
  have hend : fmt.get (t ++ ['%', ch]).length = .ok '\x00' := get_end hfmt
  rw [List.length_append, List.length_singleton] at hget
  rw [List.length_append] at hend
  obtain ⟨out, hconvert⟩ := convert va .start 0 hget hflag hch hne
  have hescape := escape hpercent (hconvert _ (nul hend))
  have hrun : Yields fmt va .text ([] : List Char).length 0 _ := run hfmt ht hescape
  exact ⟨_, hrun⟩

end Yields

theorem VaList.int_bounds (va : VaList) (ap : Nat) :
    -2147483648 ≤ va.int ap ∧ va.int ap < 2147483648 :=
  ⟨BitVec.le_toInt _, BitVec.toInt_lt⟩

theorem putError_emits {err : Int} (hlo : -2147483648 < err) (hhi : err < 2147483648) :
    ∃ out n, ∀ limit, n ≤ limit → ∀ (σ : Type) (putch : Int → σ → σ) (s : σ),
      putError (vprintfmt putch limit) err s = .ok (emit putch out s) := by
  obtain ⟨e, he, hdef⟩ : ∃ e : Int, 0 ≤ e ∧ (if err < 0 then toInt32 (-err) else err) = e := by
    by_cases hneg : err < 0
    · refine ⟨-err, by omega, ?_⟩
      rw [if_pos hneg, toInt32_of_bounds (by omega) (by omega)]
    · exact ⟨err, by omega, if_neg hneg⟩
  have hformat : (⟨chars "error %d", by decide⟩ : CString).chars = chars "error " ++ ['%', 'd'] := by
    decide
  obtain ⟨number, n, hn⟩ := Yields.single ⟨fun _ => BitVec.ofInt 64 e, fun _ => .empty⟩ _ hformat
    (by decide) (by decide) (by decide) (by decide)
  unfold putError
  simp only [hdef]
  by_cases hmax : MAXERROR < e
  · refine ⟨number, n, fun limit hlimit σ putch s => ?_⟩
    rw [if_pos hmax]
    exact hn limit hlimit σ putch s
  · cases hstr : errorString e with
    | none =>
        refine ⟨number, n, fun limit hlimit σ putch s => ?_⟩
        rw [if_neg hmax, if_neg (by omega)]
        exact hn limit hlimit σ putch s
    | some p =>
        have hformat : (⟨chars "%s", by decide⟩ : CString).chars = [] ++ ['%', 's'] := by decide
        obtain ⟨text, n, hn⟩ := Yields.single ⟨fun _ => 1, fun _ => p⟩ _ hformat (by decide) (by decide)
          (by decide) (by decide)
        refine ⟨text, n, fun limit hlimit σ putch s => ?_⟩
        rw [if_neg hmax, if_neg (by omega)]
        exact hn limit hlimit σ putch s

theorem putError_min {printfmt : CString → VaList → σ → Except Halt σ} :
    putError printfmt (-2147483648) s = .error .wild := rfl

namespace Yields

theorem error (f : Flags) (hget : fmt.get i = .ok 'e') (hmin : va.int ap ≠ -2147483648) :
    ∃ out, ∀ r, Yields fmt va .text (i + 1) (ap + 1) r →
      Yields fmt va (.reswitch f) i ap (r.map (out ++ ·)) := by
  obtain ⟨hlo, hhi⟩ := va.int_bounds ap
  have hlt : -2147483648 < va.int ap := by omega
  obtain ⟨out, n, hn⟩ := putError_emits hlt hhi
  refine ⟨out, fun r hr => pass_eventually ⟨n, fun limit hlimit σ putch s => ?_⟩ hr⟩
  have hflag : 'e' ∉ FLAGS := by decide
  simp only [Printfmt.pass, switch, hget, ok_bind, flag_of_not_mem hflag, Printfmt.convert,
    hn limit hlimit]
  rfl

theorem error_min (f : Flags) (hget : fmt.get i = .ok 'e') (hmin : va.int ap = -2147483648) :
    Yields fmt va (.reswitch f) i ap (.error .wild) := by
  refine ⟨1, fun limit hlimit σ putch s => ?_⟩
  obtain ⟨limit, rfl⟩ := Nat.exists_eq_add_of_le' hlimit
  have hflag : 'e' ∉ FLAGS := by decide
  simp only [vprintfmtLoop, Printfmt.pass, switch, hget, ok_bind, flag_of_not_mem hflag,
    Printfmt.convert, hmin, putError_min, error_bind]
  rfl

end Yields

theorem percent_not_mem {flags : List Char} (hflags : ∀ ch ∈ flags, ch ∈ FLAGS) : '%' ∉ flags :=
  fun hmem => absurd (hflags _ hmem) (by decide)

-- An escape that is not known is given up: its text is printed from the % on.
theorem Yields.unknown_escape {pre flags t l' : List Char} (hfmt : fmt.chars = pre ++ '%' :: flags ++ l)
    (hflags : ∀ ch ∈ flags, ch ∈ FLAGS) (hget : fmt.get (pre ++ '%' :: flags).length = .ok ch)
    (hflag : ch ∉ FLAGS) (hch : ch ∉ CONVERSIONS) (hmode : mode.Escape)
    (htext : fmt.chars = pre ++ ['%'] ++ t ++ l') (ht : '%' ∉ t)
    (h : Yields fmt va .text (pre ++ ['%'] ++ t).length ap r) :
    Yields fmt va mode (pre ++ '%' :: flags).length ap (r.map (codes ('%' :: t) ++ ·)) := by
  have hrewind := rewind_eq hfmt (percent_not_mem hflags)
  have hrun := run htext ht h
  rw [List.length_append, List.length_singleton] at hrun
  obtain ⟨f, hleave⟩ := leave va ap hget hflag hmode
  have hmap : r.map (codes ('%' :: t) ++ ·) = (r.map (codes t ++ ·)).map (codes ['%'] ++ ·) := by
    cases r with
    | error h => rfl
    | ok out => rfl
  rw [hmap]
  exact hleave _ (unknown hget hflag hch hrewind hrun)

-- What is printed for pieces, with the arguments from an index on
def Outcome (va : VaList) (ap : Nat) (ps : List Piece) (r : Except Halt (List Int)) : Prop :=
  (Tame va ap ps → ∃ outs, List.Forall₂ Piece.Prints ps outs ∧ r = .ok outs.flatten) ∧
    (¬Tame va ap ps → r = .error .wild)

theorem Outcome.cons {p : Piece} {ps : List Piece} (h : Outcome va (ap + p.args) ps r)
    (htame : p.Tame va ap) (hout : p.Prints out) : Outcome va ap (p :: ps) (r.map (out ++ ·)) := by
  constructor
  · intro hall
    obtain ⟨outs, houts, rfl⟩ := h.1 hall.2
    exact ⟨out :: outs, List.Forall₂.cons hout houts, rfl⟩
  · intro hnot
    rw [h.2 fun hrest => hnot ⟨htame, hrest⟩]
    rfl

theorem Outcome.wild {p : Piece} {ps : List Piece} (htame : ¬p.Tame va ap) :
    Outcome va ap (p :: ps) (.error .wild) :=
  ⟨fun hall => absurd hall.1 htame, fun _ => rfl⟩

theorem Piece.Tame.of_ne {flags : List Char} (hne : ch ≠ 'e') :
    Piece.Tame va ap (.conversion flags ch) := by
  unfold Piece.Tame
  split
  next heq => exact absurd (Piece.conversion.inj heq).2 hne
  next => trivial

-- The text and the escapes of a format, by induction on what is left of it. An escape that is
-- not known is printed as text from its first flag on.
theorem format_yields (fmt : CString) (va : VaList) (l : List Char) :
    (∀ pre ap, fmt.chars = pre ++ l →
      ∃ r, Yields fmt va .text pre.length ap r ∧ Outcome va ap (scan none l) r) ∧
    (∀ pre flags mode ap, fmt.chars = pre ++ '%' :: flags ++ l → mode.Escape → (∀ ch ∈ flags, ch ∈ FLAGS) →
      ∃ r, Yields fmt va mode (pre ++ '%' :: flags).length (ap + flags.count '*') r ∧
        Outcome va ap (scan (some flags) l) r) := by
  induction l with
  | nil =>
      constructor
      · intro pre ap hfmt
        rw [List.append_nil] at hfmt
        exact ⟨.ok [], Yields.nul (get_end hfmt), fun _ => ⟨[], List.Forall₂.nil, rfl⟩,
          fun hnot => absurd trivial hnot⟩
      · intro pre flags mode ap hfmt hmode hflags
        rw [List.append_nil] at hfmt
        have hrest : Yields fmt va .text (pre ++ ['%'] ++ flags).length (ap + flags.count '*') (.ok []) :=
          Yields.nul (get_end (by rw [hfmt]; simp))
        refine ⟨_, Yields.unknown_escape (by rw [hfmt, List.append_nil]) hflags (get_end hfmt)
          (by decide) (by decide) hmode (by rw [hfmt, List.append_nil]; simp)
          (percent_not_mem hflags) hrest, ?_⟩
        exact Outcome.cons (p := .unknown flags) ⟨fun _ => ⟨[], List.Forall₂.nil, rfl⟩,
          fun hnot => absurd trivial hnot⟩ trivial rfl
  | cons ch l ih =>
      constructor
      · intro pre ap hfmt
        have hget : fmt.get pre.length = .ok ch := get_middle hfmt
        by_cases hch : ch = '%'
        · subst hch
          obtain ⟨r, hr, hout⟩ := ih.2 pre [] (.reswitch .start) ap (by rw [hfmt]; simp) trivial (by simp)
          rw [List.length_append] at hr
          refine ⟨r, Yields.escape hget hr, ?_⟩
          rwa [scan, if_pos rfl]
        · have hnul : ch ≠ '\x00' := by
            rintro rfl
            exact fmt.noNul (by rw [hfmt]; simp)
          obtain ⟨r, hr, hout⟩ := ih.1 (pre ++ [ch]) ap (by rw [hfmt]; simp)
          rw [List.length_append] at hr
          refine ⟨_, Yields.text hget hch hnul hr, ?_⟩
          rw [scan, if_neg hch]
          exact Outcome.cons (p := .text ch) hout trivial rfl
      · intro pre flags mode ap hfmt hmode hflags
        have hget : fmt.get (pre ++ '%' :: flags).length = .ok ch := get_middle hfmt
        have hnext : (pre ++ '%' :: flags).length + 1 = (pre ++ '%' :: (flags ++ [ch])).length := by
          simp [Nat.add_assoc]
        by_cases hflag : ch ∈ FLAGS
        · obtain ⟨mode', hmode', hgo⟩ := Yields.flag va (ap + flags.count '*') hget hflag hmode
          obtain ⟨r, hr, hout⟩ := ih.2 pre (flags ++ [ch]) mode' ap (by rw [hfmt]; simp) hmode' (by
            intro c hc
            rcases List.mem_append.mp hc with hc | hc
            · exact hflags c hc
            · rwa [List.mem_singleton.mp hc])
          refine ⟨r, hgo r ?_, ?_⟩
          · rwa [hnext, Nat.add_assoc, ← List.count_append]
          · rwa [scan, if_pos hflag]
        · obtain ⟨f, hleave⟩ := Yields.leave va (ap + flags.count '*') hget hflag hmode
          have hrest : ∀ ap', ∃ r, Yields fmt va .text ((pre ++ '%' :: flags).length + 1) ap' r ∧
              Outcome va ap' (scan none l) r := by
            intro ap'
            rw [hnext]
            exact ih.1 (pre ++ '%' :: (flags ++ [ch])) ap' (by rw [hfmt]; simp)
          rw [scan, if_neg hflag]
          by_cases hch : ch ∈ CONVERSIONS
          · rw [if_pos hch]
            obtain ⟨r, hr, hout⟩ := hrest (ap + (Piece.conversion flags ch).args)
            by_cases he : ch = 'e'
            · subst he
              by_cases hmin : va.int (ap + flags.count '*') = -2147483648
              · exact ⟨_, hleave _ (Yields.error_min f hget hmin), Outcome.wild fun htame => htame hmin⟩
              · obtain ⟨out, hconvert⟩ := Yields.error f hget hmin
                exact ⟨_, hleave _ (hconvert r hr), Outcome.cons hout hmin trivial⟩
            · obtain ⟨out, hconvert⟩ := Yields.convert va f (ap + flags.count '*') hget hflag hch he
              rw [Piece.args, ← Nat.add_assoc] at hr
              exact ⟨_, hleave _ (hconvert r hr), Outcome.cons hout (Piece.Tame.of_ne he) trivial⟩
          · rw [if_neg hch]
            have hne : '%' ≠ ch := by
              rintro rfl
              exact hch (by decide)
            have hstar : '*' ≠ ch := by
              rintro rfl
              exact hflag (by decide)
            obtain ⟨r, hr, hout⟩ := hrest (ap + (Piece.unknown (flags ++ [ch])).args)
            have hargs : (Piece.unknown (flags ++ [ch])).args = flags.count '*' := by
              simp [Piece.args, Ne.symm hstar]
            have htext : Yields fmt va .text (pre ++ ['%'] ++ (flags ++ [ch])).length
                (ap + flags.count '*') r := by
              rw [hnext, hargs] at hr
              rwa [List.append_assoc]
            have hsplit : fmt.chars = pre ++ ['%'] ++ (flags ++ [ch]) ++ l := by
              rw [hfmt]
              simp
            refine ⟨_, Yields.unknown_escape hfmt hflags hget hflag hch hmode hsplit ?_ htext,
              Outcome.cons hout trivial rfl⟩
            intro hmem
            rcases List.mem_append.mp hmem with hmem | hmem
            · exact percent_not_mem hflags hmem
            · exact hne (List.mem_singleton.mp hmem)

-- vprintfmt returns, whatever putch is, and prints each piece once and in order.
def Handles (fmt : CString) (va : VaList) : Prop :=
  ∃ outs, List.Forall₂ Piece.Prints (pieces fmt) outs ∧
    ∃ n, ∀ limit, n ≤ limit → ∀ (σ : Type) (putch : Int → σ → σ) (s : σ),
      vprintfmt putch limit fmt va s = .ok (emit putch outs.flatten s)

theorem vprintfmt_yields (fmt : CString) (va : VaList) :
    ∃ r, Yields fmt va .text 0 0 r ∧ Outcome va 0 (pieces fmt) r :=
  (format_yields fmt va fmt.chars).1 [] 0 rfl

theorem Handles.not_wild (h : Handles fmt va) : ¬Yields fmt va .text 0 0 (.error .wild) := by
  rintro ⟨n, hn⟩
  obtain ⟨outs, houts, n', hn'⟩ := h
  have hok := hn' (max n n') (by omega) (List Int) collect []
  have hwild := hn (max n n') (by omega) (List Int) collect []
  have heq := hok.symm.trans hwild
  exact absurd heq (by simp [Except.map])

-- vprintfmt handles a format exactly when it does not look up the error of the least int, which
-- has no absolute value.
theorem vprintfmt_exact (fmt : CString) (va : VaList) : Handles fmt va ↔ Tame va 0 (pieces fmt) := by
  obtain ⟨r, hr, hout⟩ := vprintfmt_yields fmt va
  constructor
  · intro hhandles
    by_contra htame
    rw [hout.2 htame] at hr
    exact hhandles.not_wild hr
  · intro htame
    obtain ⟨outs, houts, rfl⟩ := hout.1 htame
    exact ⟨outs, houts, hr⟩

-- %e with the least int reads far in front of the table of the errors.
theorem vprintfmt_least : ¬Handles ⟨['%', 'e'], by decide⟩ ⟨fun _ => 0x80000000, fun _ => .empty⟩ := by
  intro hhandles
  obtain ⟨r, hr, hout⟩ := vprintfmt_yields ⟨['%', 'e'], by decide⟩
    ⟨fun _ => 0x80000000, fun _ => .empty⟩
  rw [hout.2 fun htame => htame.1 (by decide)] at hr
  exact hhandles.not_wild hr

end Ucore.Printfmt
