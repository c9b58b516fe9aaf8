import Ucore.Libs.Format

namespace Ucore.Printfmt

-- A number in a field: spaces stand before the sign, zeros behind it.
def field (padc : Char) (width : Nat) (sign digits : List Char) : List Char :=
  let fill := List.replicate (width - (sign.length + digits.length)) padc
  if padc = '0' then sign ++ fill ++ digits else fill ++ sign ++ digits

-- The value of an argument, and the base that it is printed in
def number (va : VaList) (ap : Nat) (lflag : Int) (ch : Char) : Option (Int × Base) :=
  if ch = 'd' then some ((getint va ap lflag).toInt, .decimal)
  else (unsignedBase ch).map fun base => ((getuint va ap lflag).toNat, base)

def numeral (value : Int) (base : Base) : List Char := Nat.toDigits base.val value.natAbs

def signOf (value : Int) : List Char := if value < 0 then ['-'] else []

variable {σ : Type} {putch : Int → σ → σ} {s : σ} {out : List Int} {fmt : CString}
  {va : VaList} {f : Flags} {i ap num : Nat} {ch padc : Char} {value width : Int} {base : Base}

theorem field_length (padc : Char) (width : Nat) (sign digits : List Char) :
    (field padc width sign digits).length = max width (sign.length + digits.length) := by
  unfold field
  split
  next =>
    simp only [List.length_append, List.length_replicate]
    omega
  next =>
    simp only [List.length_append, List.length_replicate]
    omega

@[simp] theorem codes_length (l : List Char) : (codes l).length = l.length := List.length_map _

theorem codes_replicate (n : Nat) : codes (List.replicate n padc) = List.replicate n (padc.toNat : Int) :=
  List.map_replicate

-- A number of 64 bits has 64 digits at most.
theorem toDigits_length (base : Base) (hnum : num < 2 ^ 64) : (Nat.toDigits base.val num).length ≤ 64 := by
  rw [Nat.length_toDigits_le_iff base.one_lt (by decide)]
  exact Nat.lt_of_lt_of_le hnum (Nat.pow_le_pow_left base.one_lt 64)

theorem padded_eq (hnum : num < 2 ^ 64) (hlo : -1 ≤ width) (hhi : width < 2147483648) :
    padded num base width padc =
      codes (List.replicate (width.toNat - (Nat.toDigits base.val num).length) padc ++
        Nat.toDigits base.val num) := by
  have hlen := toDigits_length base hnum
  unfold padded
  rw [toInt32_of_bounds (by omega) (by omega), codes_append, codes_replicate]
  congr 2
  omega

-- Without a sign the characters are those of the field.
theorem padded_field (hnum : num < 2 ^ 64) (hlo : -1 ≤ width) (hhi : width < 2147483648) :
    padded num base width padc = codes (field padc width.toNat [] (Nat.toDigits base.val num)) := by
  rw [padded_eq hnum hlo hhi]
  unfold field
  simp

-- With a sign in front they are those of the field when the digits fill it.
theorem signed_field (hnum : num < 2 ^ 64) (hlo : -1 ≤ width) (hhi : width < 2147483648) :
    codes ['-'] ++ padded num base width padc =
        codes (field padc width.toNat ['-'] (Nat.toDigits base.val num)) ↔
      width ≤ (Nat.toDigits base.val num).length := by
  rw [padded_eq hnum hlo hhi]
  constructor
  · intro heq
    have hlen := congrArg List.length heq
    rw [← codes_append, codes_length, codes_length, field_length] at hlen
    simp only [List.length_append, List.length_replicate, List.length_singleton] at hlen
    omega
  · intro hle
    unfold field
    rw [Nat.sub_eq_zero_of_le (by omega), Nat.sub_eq_zero_of_le (by simp; omega), ← codes_append]
    simp

theorem digitChar_range {d : Nat} (hd : d < 10) : ¬(d.digitChar < '0' ∨ '9' < d.digitChar) := by
  have hall : ∀ x : Fin 10, ¬((x : Nat).digitChar < '0' ∨ '9' < (x : Nat).digitChar) := by decide
  exact hall ⟨d, hd⟩

theorem flag_digit {d : Nat} (hpos : 0 < d) (hd : d < 10) :
    flag va f ap d.digitChar = some (.digits ({ f with precision := 0 }.digit d.digitChar), ap) := by
  have hcases : d = 1 ∨ d = 2 ∨ d = 3 ∨ d = 4 ∨ d = 5 ∨ d = 6 ∨ d = 7 ∨ d = 8 ∨ d = 9 := by omega
  rcases hcases with rfl | rfl | rfl | rfl | rfl | rfl | rfl | rfl | rfl
  all_goals rfl

theorem flag_long : flag va f ap 'l' = some (.reswitch { f with lflag := toInt32 (f.lflag + 1) }, ap) := rfl

theorem digit_flags (f : Flags) {d w : Nat} (hd : d < 10) (hlt : w * 10 + d < 2147483648) :
    { f with precision := (w : Int) }.digit d.digitChar = { f with precision := (w * 10 + d : Nat) } := by
  have hcode : d.digitChar.toNat = d + 48 := by
    rw [Nat.toNat_digitChar_of_lt_ten hd, Nat.add_comm]
  have hvalue : toInt32 ((w : Int) * 10 + d.digitChar.toNat - 48) = (w * 10 + d : Nat) := by
    rw [hcode, toInt32_of_bounds (by omega) (by omega)]
    omega
  unfold Flags.digit
  simp only [hvalue]

-- The loop over the digits of a width, by induction on the digits
theorem Yields.digits {pre l : List Char} {w : Nat} {r : Except Halt (List Int)} (hpos : 0 < w)
    (hlt : w < 2147483648) (hfmt : fmt.chars = pre ++ Nat.toDigits 10 w ++ l)
    (h : Yields fmt va (.digits { f with precision := (w : Int) }) (pre ++ Nat.toDigits 10 w).length ap r) :
    Yields fmt va (.reswitch f) pre.length ap r := by
  induction w using Nat.strong_induction_on generalizing l with
  | _ w ih =>
    by_cases hsmall : w < 10
    · rw [Nat.toDigits_of_lt_base hsmall] at hfmt h
      have hget : fmt.get pre.length = .ok w.digitChar := get_middle (l := l) (by rw [hfmt]; simp)
      have hflag : Printfmt.flag va f ap w.digitChar = some (.digits { f with precision := (w : Int) }, ap) := by
        have hdigit := digit_flags f (d := w) (w := 0) hsmall (by omega)
        rw [Nat.zero_mul, Nat.zero_add] at hdigit
        rw [flag_digit hpos hsmall]
        exact congrArg (fun f => some (Mode.digits f, ap)) hdigit
      rw [List.length_append, List.length_singleton] at h
      refine silent (fun σ printfmt putch s => ?_) h
      simp only [Printfmt.pass, switch, hget, ok_bind, hflag]
      rfl
    · have hge : 10 ≤ w := Nat.le_of_not_lt hsmall
      have hdiv : w / 10 * 10 + w % 10 = w := by omega
      rw [Nat.toDigits_of_base_le (by decide) hge, ← List.append_assoc] at hfmt h
      have hget : fmt.get (pre ++ Nat.toDigits 10 (w / 10)).length = .ok (w % 10).digitChar :=
        get_middle (l := l) (by rw [hfmt]; simp)
      have hlen : (pre ++ Nat.toDigits 10 (w / 10) ++ [(w % 10).digitChar]).length =
          (pre ++ Nat.toDigits 10 (w / 10)).length + 1 := List.length_append
      rw [hlen] at h
      refine ih (w / 10) (by omega) (by omega) (by omega) (l := (w % 10).digitChar :: l)
        (by rw [hfmt]; simp) (silent (fun σ printfmt putch s => ?_) h)
      have hdigit := digit_flags f (d := w % 10) (w := w / 10) (by omega) (by omega)
      rw [hdiv] at hdigit
      simp only [Printfmt.pass, hget, ok_bind, if_neg (digitChar_range (Nat.mod_lt w (by decide))), hdigit]
      rfl

-- The characters between the % and the conversion: a zero or not, a width or not, and some `l`
def directive (zero : Bool) (width : Option Nat) (longs : Nat) : List Char :=
  (if zero then ['0'] else []) ++ (width.elim [] fun w => Nat.toDigits 10 w) ++ List.replicate longs 'l'

-- The width that vprintfmt starts with stays when there is none in the format.
def directiveFlags (zero : Bool) (width : Option Nat) (longs : Nat) : Flags :=
  ⟨if zero then '0' else ' ', width.elim (-1) fun w => w, -1, longs, false⟩

theorem Yields.longs {pre l : List Char} {n k : Nat} {r : Except Halt (List Int)} (hlt : n + k < 2147483648)
    (hfmt : fmt.chars = pre ++ List.replicate k 'l' ++ l)
    (h : Yields fmt va (.reswitch { f with lflag := (n + k : Nat) }) (pre ++ List.replicate k 'l').length ap r) :
    Yields fmt va (.reswitch { f with lflag := (n : Int) }) pre.length ap r := by
  induction k generalizing pre n with
  | zero => simpa using h
  | succ k ih =>
      have hsplit : pre ++ List.replicate (k + 1) 'l' = pre ++ ['l'] ++ List.replicate k 'l' := by
        simp [List.replicate_succ]
      have hget : fmt.get pre.length = .ok 'l' := get_middle (l := List.replicate k 'l' ++ l) (by
        rw [hfmt, hsplit]
        simp)
      rw [hsplit] at hfmt h
      have hlflag : toInt32 ((n : Int) + 1) = (n + 1 : Nat) := by
        rw [toInt32_of_bounds (by omega) (by omega)]
        omega
      have hnext := ih (n := n + 1) (by omega) hfmt (by rwa [Nat.add_assoc, Nat.add_comm 1])
      rw [List.length_append, List.length_singleton] at hnext
      refine silent (fun σ printfmt putch s => ?_) hnext
      simp only [Printfmt.pass, switch, hget, ok_bind, flag_long, hlflag]
      rfl

-- A directive reaches the switch with its padding and its width.
theorem Yields.directive_reaches {pre l : List Char} {zero : Bool} {width : Option Nat} {k : Nat}
    {r : Except Halt (List Int)} (hwidth : ∀ w, width = some w → 0 < w ∧ w < 2147483648) (hk : k < 2147483648)
    (hfmt : fmt.chars = pre ++ '%' :: directive zero width k ++ ch :: l) (hch : ch ∉ FLAGS)
    (h : Yields fmt va (.reswitch (directiveFlags zero width k)) (pre ++ '%' :: directive zero width k).length ap r) :
    Yields fmt va .text pre.length ap r := by
  have hpercent : fmt.get pre.length = .ok '%' :=
    get_middle (l := directive zero width k ++ ch :: l) (by rw [hfmt]; simp)
  -- the place behind the padding, and the one behind the width
  obtain ⟨pad, hpad⟩ : ∃ pad, pad = pre ++ '%' :: (if zero then ['0'] else []) := ⟨_, rfl⟩
  obtain ⟨digs, hdigs⟩ : ∃ digs, digs = width.elim [] fun w => Nat.toDigits 10 w := ⟨_, rfl⟩
  have hsplit : pre ++ '%' :: directive zero width k = pad ++ digs ++ List.replicate k 'l' := by
    rw [hpad, hdigs]
    simp [directive]
  rw [hsplit] at hfmt h
  have hlongs : Yields fmt va (.reswitch (directiveFlags zero width 0)) (pad ++ digs).length ap r :=
    longs (n := 0) (f := directiveFlags zero width 0) (by omega) hfmt (by
      rwa [Nat.zero_add])
  have hdigits : Yields fmt va (.reswitch (directiveFlags zero none 0)) pad.length ap r := by
    cases width with
    | none =>
        rw [hdigs, Option.elim_none, List.append_nil] at hlongs
        exact hlongs
    | some w =>
        obtain ⟨hpos, hw⟩ := hwidth w rfl
        rw [Option.elim_some] at hdigs
        rw [hdigs] at hfmt hlongs
        have hbehind : Yields fmt va (.digits ⟨if zero then '0' else ' ', -1, w, 0, false⟩)
            (pad ++ Nat.toDigits 10 w).length ap r := by
          obtain ⟨c, rest, hrest, hc⟩ : ∃ c rest, List.replicate k 'l' ++ ch :: l = c :: rest ∧
              (c < '0' ∨ '9' < c) := by
            cases k with
            | zero => exact ⟨ch, l, rfl, not_digit_of_not_mem hch⟩
            | succ k => exact ⟨'l', List.replicate k 'l' ++ ch :: l, rfl, Or.inr (by decide)⟩
          have hget : fmt.get (pad ++ Nat.toDigits 10 w).length = .ok c :=
            get_middle (l := rest) (by rw [hfmt, ← hrest]; simp)
          exact process hget hc hlongs
        exact digits (l := List.replicate k 'l' ++ ch :: l) hpos hw (by rw [hfmt]; simp) hbehind
  apply escape hpercent
  cases zero with
  | false =>
      have hnext : pad.length = pre.length + 1 := by
        rw [hpad]
        simp
      rwa [hnext] at hdigits
  | true =>
      have hget : fmt.get (pre ++ ['%']).length = .ok '0' :=
        get_middle (l := digs ++ List.replicate k 'l' ++ ch :: l) (by
          rw [hfmt, hpad]
          simp)
      rw [List.length_append, List.length_singleton] at hget
      have hnext : pad.length = pre.length + 1 + 1 := by
        rw [hpad]
        simp
      rw [hnext] at hdigits
      refine silent (fun σ printfmt putch s => ?_) hdigits
      simp only [Printfmt.pass, switch, hget, ok_bind]
      rfl

-- The switch prints the number in its field and goes on behind the conversion.
def PrintsNumber (fmt : CString) (va : VaList) (f : Flags) (i ap : Nat) (value : Int) (base : Base) : Prop :=
  ∀ (σ : Type) (printfmt : CString → VaList → σ → Except Halt σ) (putch : Int → σ → σ) (s : σ),
    switch printfmt putch fmt va f i ap s = .ok ⟨.text, i + 1, ap + 1,
      emit putch (codes (field f.padc f.width.toNat (signOf value) (numeral value base))) s⟩

theorem switch_signed {printfmt : CString → VaList → σ → Except Halt σ} (hget : fmt.get i = .ok 'd') :
    switch printfmt putch fmt va f i ap s =
      .ok ⟨.text, i + 1, ap + 1, emit putch (signed (getint va ap f.lflag) f.width f.padc) s⟩ := by
  have hflag : 'd' ∉ FLAGS := by decide
  unfold switch
  simp only [hget, ok_bind, flag_of_not_mem hflag, convert_signed]
  rfl

theorem switch_unsigned {printfmt : CString → VaList → σ → Except Halt σ} (hget : fmt.get i = .ok ch)
    (hch : unsignedBase ch = some base) :
    switch printfmt putch fmt va f i ap s = .ok ⟨.text, i + 1, ap + 1,
      emit putch (padded (getuint va ap f.lflag).toNat base f.width f.padc) s⟩ := by
  have hflag : ch ∉ FLAGS := by
    have hcases : ch = 'u' ∨ ch = 'o' ∨ ch = 'x' := by
      unfold unsignedBase at hch
      grind
    rcases hcases with rfl | rfl | rfl
    all_goals decide
  unfold switch
  simp only [hget, ok_bind, flag_of_not_mem hflag, convert_unsigned hch]
  rfl

theorem PrintsNumber.of_eq (hswitch : ∀ (σ : Type) (printfmt : CString → VaList → σ → Except Halt σ)
      (putch : Int → σ → σ) (s : σ),
      switch printfmt putch fmt va f i ap s = .ok ⟨.text, i + 1, ap + 1, emit putch out s⟩) :
    PrintsNumber fmt va f i ap value base ↔
      out = codes (field f.padc f.width.toNat (signOf value) (numeral value base)) := by
  constructor
  · intro hprints
    have heq := (hswitch (List Int) (fun _ _ s => .ok s) collect []).symm.trans
      (hprints (List Int) (fun _ _ s => .ok s) collect [])
    have hdat := congrArg State.dat (Except.ok.inj heq)
    simpa [emit_collect] using hdat
  · rintro rfl
    exact hswitch

-- A directive of a format prints the number in a field of its width.
theorem PrintsNumber.directive {pre l : List Char} {zero : Bool} {width : Option Nat} {k : Nat}
    {r : Except Halt (List Int)}
    (hprints : PrintsNumber fmt va (directiveFlags zero width k)
      (pre ++ '%' :: Printfmt.directive zero width k).length ap value base)
    (hwidth : ∀ w, width = some w → 0 < w ∧ w < 2147483648) (hk : k < 2147483648)
    (hfmt : fmt.chars = pre ++ '%' :: Printfmt.directive zero width k ++ ch :: l) (hch : ch ∉ FLAGS)
    (h : Yields fmt va .text ((pre ++ '%' :: Printfmt.directive zero width k).length + 1) (ap + 1) r) :
    Yields fmt va .text pre.length ap
      (r.map (codes (field (if zero then '0' else ' ') (width.getD 0) (signOf value) (numeral value base)) ++ ·)) := by
  apply Yields.directive_reaches hwidth hk hfmt hch
  apply Yields.pass _ h
  intro σ printfmt putch s
  have hfield : (directiveFlags zero width k).width.toNat = width.getD 0 := by
    cases width <;> rfl
  unfold pass
  simp only [hprints σ printfmt putch s, hfield]
  rfl

-- The sign is printed in front of the padding and does not count for the width.
theorem number_exact (hget : fmt.get i = .ok ch) (hnumber : number va ap f.lflag ch = some (value, base))
    (hlo : -1 ≤ f.width) (hhi : f.width < 2147483648) :
    PrintsNumber fmt va f i ap value base ↔ 0 ≤ value ∨ f.width ≤ (numeral value base).length := by
  unfold number at hnumber
  split at hnumber
  next hch =>
    subst hch
    obtain ⟨rfl, rfl⟩ := Prod.mk.inj (Option.some.inj hnumber)
    rw [PrintsNumber.of_eq fun σ printfmt putch s => switch_signed hget]
    generalize getint va ap f.lflag = num
    have hbound := num.isLt
    unfold signed signOf numeral
    by_cases hneg : num.toInt < 0
    · have habs : (-num).toNat = num.toInt.natAbs := by
        rw [BitVec.toNat_neg]
        rw [BitVec.toInt_eq_toNat_cond] at hneg ⊢
        split at hneg
        next => omega
        next hlarge =>
          rw [if_neg hlarge]
          omega
      have hlt : num.toInt.natAbs < 2 ^ 64 := habs ▸ (-num).isLt
      rw [if_pos hneg, if_pos hneg, habs, signed_field hlt hlo hhi]
      exact ⟨Or.inr, fun h => h.resolve_left (by omega)⟩
    · have habs : num.toNat = num.toInt.natAbs := by
        rw [BitVec.toInt_eq_toNat_cond] at hneg ⊢
        split at hneg
        next hsmall => rw [if_pos hsmall, Int.natAbs_natCast]
        next => omega
      rw [if_neg hneg, if_neg hneg, habs, padded_field (habs ▸ hbound) hlo hhi]
      exact ⟨fun _ => Or.inl (by omega), fun _ => rfl⟩
  next =>
    obtain ⟨base', hbase, hpair⟩ := Option.map_eq_some_iff.mp hnumber
    obtain ⟨rfl, rfl⟩ := Prod.mk.inj hpair
    rw [PrintsNumber.of_eq fun σ printfmt putch s => switch_unsigned hget hbase]
    unfold signOf numeral
    rw [if_neg (by omega), Int.natAbs_natCast, padded_field (getuint va ap f.lflag).isLt hlo hhi]
    exact ⟨fun _ => Or.inl (by omega), fun _ => rfl⟩

-- 42 in a field of five
theorem number_exact_42 :
    PrintsNumber ⟨['%', '5', 'd'], by decide⟩ ⟨fun _ => 42, fun _ => .empty⟩
      { Flags.start with width := 5 } 2 0 42 .decimal := by
  have hget : CString.get ⟨['%', '5', 'd'], by decide⟩ 2 = .ok 'd' := rfl
  exact (number_exact hget rfl (by decide) (by decide)).mpr (Or.inl (by decide))

-- -5 in a field of three: the sign is in front of two spaces.
theorem number_minus_5 :
    number ⟨fun _ => -5, fun _ => .empty⟩ 0 0 'd' = some (-5, .decimal) ∧
      ¬PrintsNumber ⟨['%', '3', 'd'], by decide⟩ ⟨fun _ => -5, fun _ => .empty⟩
        { Flags.start with width := 3 } 2 0 (-5) .decimal := by
  refine ⟨by decide, ?_⟩
  rw [PrintsNumber.of_eq fun σ printfmt putch s => switch_signed rfl]
  unfold signed
  rw [if_pos (by decide), padded_eq (by decide) (by decide) (by decide)]
  decide

end Ucore.Printfmt
