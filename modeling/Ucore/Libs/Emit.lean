import Ucore.Libs.Printfmt
import Mathlib.Data.List.Basic

namespace Ucore.Printfmt

-- The calls of putch for a list of characters
def emit {σ : Type} (putch : Int → σ → σ) (out : List Int) (s : σ) : σ :=
  out.foldl (fun s ch => putch ch s) s

def codes (l : List Char) : List Int := l.map fun ch => (ch.toNat : Int)

variable {σ : Type} {putch : Int → σ → σ} {s : σ} {out out' : List Int}
  {va : VaList} {f : Flags} {ap : Nat} {ch : Char}

@[simp] theorem emit_nil : emit putch [] s = s := rfl

@[simp] theorem emit_cons {x : Int} : emit putch (x :: out) s = emit putch out (putch x s) := rfl

@[simp] theorem emit_append : emit putch (out ++ out') s = emit putch out' (emit putch out s) :=
  List.foldl_append

theorem emit_collect : emit collect out out' = out' ++ out := by
  induction out generalizing out' with
  | nil => exact (List.append_nil _).symm
  | cons x out ih =>
      rw [emit_cons, ih]
      simp [collect]

@[simp] theorem codes_append {l l' : List Char} : codes (l ++ l') = codes l ++ codes l' :=
  List.map_append

theorem toInt32_of_bounds {x : Int} (hlo : -2147483648 ≤ x) (hhi : x < 2147483648) : toInt32 x = x := by
  unfold toInt32
  omega

theorem toInt32_sub {x y : Int} : toInt32 (toInt32 x - y) = toInt32 (x - y) := by
  unfold toInt32
  omega

theorem pad_eq {padc : Char} (width : Int) :
    pad putch padc width s = emit putch (List.replicate width.toNat (padc.toNat : Int)) s := by
  generalize hn : width.toNat = n
  induction n generalizing width s with
  | zero =>
      rw [pad, if_neg (by omega)]
      rfl
  | succ n ih =>
      rw [pad, if_pos (by omega), ih (width - 1) (by omega)]
      rfl

theorem digits_getD {d : Nat} (hd : d < 16) : DIGITS.getD d '\x00' = d.digitChar := by
  have hall : ∀ x : Fin 16, DIGITS.getD x '\x00' = (x : Nat).digitChar := by decide
  exact hall ⟨d, hd⟩

theorem Base.val_le (base : Base) : base.val ≤ 16 := by
  cases base with
  | octal => decide
  | decimal => decide
  | hexadecimal => decide

theorem Base.mod_lt (base : Base) (num : Nat) : num % base.val < 16 :=
  Nat.lt_of_lt_of_le (Nat.mod_lt _ (Nat.zero_lt_of_lt base.one_lt)) base.val_le

-- The characters of printnum
def padded (num : Nat) (base : Base) (width : Int) (padc : Char) : List Int :=
  List.replicate (toInt32 (width - (Nat.toDigits base.val num).length)).toNat (padc.toNat : Int) ++
    codes (Nat.toDigits base.val num)

-- The width is counted down on the way to the first digit, so that what is left of it there
-- is what the digits do not fill.
theorem printnum_eq {base : Base} {padc : Char} (num : Nat) (width : Int) :
    printnum putch num base width padc s = emit putch (padded num base width padc) s := by
  unfold padded
  induction num using Nat.strong_induction_on generalizing width with
  | _ num ih =>
    rw [printnum, digits_getD (base.mod_lt num)]
    by_cases hge : base.val ≤ num
    · have hlt : num / base.val < num :=
        Nat.div_lt_self (Nat.lt_of_lt_of_le (Nat.zero_lt_of_lt base.one_lt) hge) base.one_lt
      rw [if_pos hge, ih _ hlt, toInt32_sub, Nat.toDigits_of_base_le base.one_lt hge]
      have hwidth : width - 1 - ((Nat.toDigits base.val (num / base.val)).length : Int) =
          width - ((Nat.toDigits base.val (num / base.val) ++
            [(num % base.val).digitChar]).length : Nat) := by
        rw [List.length_append, List.length_singleton]
        omega
      simp only [hwidth, codes_append, emit_append]
      rfl
    · have hlt : num < base.val := Nat.lt_of_not_le hge
      rw [if_neg hge, pad_eq, Nat.toDigits_of_lt_base hlt, Nat.mod_eq_of_lt hlt, emit_append]
      rfl

-- The characters of %d
def signed (num : BitVec 64) (width : Int) (padc : Char) : List Int :=
  if num.toInt < 0 then codes ['-'] ++ padded (-num).toNat .decimal width padc
  else padded num.toNat .decimal width padc

theorem convert_signed {printfmt : CString → VaList → σ → Except Halt σ} :
    convert printfmt putch va f ap 'd' s =
      some (.ok (ap + 1, emit putch (signed (getint va ap f.lflag) f.width f.padc) s)) := by
  unfold signed
  by_cases hneg : (getint va ap f.lflag).toInt < 0
  · simp only [convert, putSign, if_pos hneg, printnum_eq]
    rfl
  · simp only [convert, putSign, if_neg hneg, printnum_eq]

-- The bases of %u, %o and %x
def unsignedBase (ch : Char) : Option Base :=
  if ch = 'u' then some .decimal
  else if ch = 'o' then some .octal
  else if ch = 'x' then some .hexadecimal
  else none

theorem convert_unsigned {printfmt : CString → VaList → σ → Except Halt σ} {base : Base}
    (hch : unsignedBase ch = some base) :
    convert printfmt putch va f ap ch s =
      some (.ok (ap + 1, emit putch (padded (getuint va ap f.lflag).toNat base f.width f.padc) s)) := by
  have hcases : ch = 'u' ∧ base = .decimal ∨ ch = 'o' ∧ base = .octal ∨
      ch = 'x' ∧ base = .hexadecimal := by
    unfold unsignedBase at hch
    grind
  rcases hcases with ⟨rfl, rfl⟩ | ⟨rfl, rfl⟩ | ⟨rfl, rfl⟩
  · simp only [convert, printnum_eq]
  · simp only [convert, printnum_eq]
  · simp only [convert, printnum_eq]

theorem putString_emits (altflag : Bool) (p : List Char) (precision width : Int) :
    ∃ out width', ∀ (σ : Type) (putch : Int → σ → σ) (s : σ),
      putString putch altflag p precision width s = (width', emit putch out s) := by
  induction p generalizing precision width with
  | nil => exact ⟨[], width, fun _ _ _ => rfl⟩
  | cons ch p ih =>
      by_cases hgo : precision < 0 ∨ 0 ≤ if precision < 0 then precision else precision - 1
      · obtain ⟨out, width', h⟩ :=
          ih (if precision < 0 then precision else precision - 1) (toInt32 (width - 1))
        refine ⟨((if altflag ∧ (ch < ' ' ∨ '~' < ch) then '?' else ch).toNat : Int) :: out, width',
          fun σ putch s => ?_⟩
        rw [putString]
        simp only [if_pos hgo]
        rw [h]
        rfl
      · refine ⟨[], width, fun σ putch s => ?_⟩
        rw [putString]
        simp only [if_neg hgo]
        rfl

theorem putStr_emits (f : Flags) (p : CString) :
    ∃ out, ∀ (σ : Type) (putch : Int → σ → σ) (s : σ), putStr putch f p s = emit putch out s := by
  unfold putStr
  by_cases hpad : 0 < f.width ∧ f.padc ≠ '-'
  · simp only [if_pos hpad, pad_eq]
    obtain ⟨out, width', h⟩ := putString_emits f.altflag p.chars f.precision
      (min (toInt32 (f.width - strnlen p.chars (f.precision % 18446744073709551616).toNat)) 0)
    refine ⟨List.replicate (toInt32 (f.width -
      strnlen p.chars (f.precision % 18446744073709551616).toNat)).toNat (f.padc.toNat : Int) ++
      (out ++ List.replicate width'.toNat (' '.toNat : Int)), fun σ putch s => ?_⟩
    simp only [h, emit_append]
  · simp only [if_neg hpad, pad_eq]
    obtain ⟨out, width', h⟩ := putString_emits f.altflag p.chars f.precision f.width
    refine ⟨out ++ List.replicate width'.toNat (' '.toNat : Int), fun σ putch s => ?_⟩
    simp only [h, emit_append]

end Ucore.Printfmt
