import Ucore.Basic
import Mathlib.Data.List.Basic
import Mathlib.Data.List.GetD
import Mathlib.Data.List.TakeWhile

namespace Ucore.Kmonitor

def MAXARGS : Nat := 16
def WHITESPACE : List Char := [' ', '\t', '\n', '\r']

-- strchr: the rest of the string from the character on
def strchr : List Char → Char → Option (List Char)
  | [], _ => none
  | x :: s, c => if x = c then some (x :: s) else strchr s c

def isBlank (c : Char) : Bool := (strchr WHITESPACE c).isSome

-- The memory, `argv`, `argc` and what is printed, in the course of parse
structure Parse where
  mem : Nat → Char
  argv : Nat → Nat
  argc : Nat
  out : List String

-- `while (*buf != '\0' && strchr(WHITESPACE, *buf) != NULL) *buf++ = '\0'`
def skipBlanks : Nat → (Nat → Char) → Nat → Except Halt ((Nat → Char) × Nat)
  | 0, _, _ => .error .hang
  | fuel + 1, mem, buf =>
      if mem buf ≠ '\x00' ∧ isBlank (mem buf) then
        skipBlanks fuel (Function.update mem buf '\x00') (buf + 1)
      else .ok (mem, buf)

-- `while (*buf != '\0' && strchr(WHITESPACE, *buf) == NULL) buf++`
def skipWord (mem : Nat → Char) : Nat → Nat → Except Halt Nat
  | 0, _ => .error .hang
  | fuel + 1, buf =>
      if mem buf ≠ '\x00' ∧ !isBlank (mem buf) then skipWord mem fuel (buf + 1) else .ok buf

-- The pointer is stored into an array of MAXARGS entries.
def storeArg (s : Parse) (buf : Nat) : Except Halt Parse :=
  if s.argc < MAXARGS then
    .ok { s with argv := Function.update s.argv s.argc buf, argc := s.argc + 1 }
  else .error .wild

-- The loop of parse. A pass of one of its loops that is not the last reads a character, so
-- that `limit` passes are enough for a line that is shorter.
def parseLoop (limit : Nat) : Nat → Parse → Nat → Except Halt Parse
  | 0, _, _ => .error .hang
  | fuel + 1, s, buf => do
      let (mem, buf) ← skipBlanks limit s.mem buf
      let s := { s with mem := mem }
      if s.mem buf = '\x00' then pure s
      else do
        let s := if s.argc = MAXARGS - 1 then
            { s with out := s.out ++ ["Too many arguments (max 16).\n"] } else s
        let s ← storeArg s buf
        let buf ← skipWord s.mem limit buf
        parseLoop limit fuel s buf

-- parse
def parse (limit : Nat) (mem : Nat → Char) (argv : Nat → Nat) (buf : Nat) : Except Halt Parse :=
  parseLoop limit limit ⟨mem, argv, 0, []⟩ buf

-- The string `text` lies at the address `p`.
def IsString (mem : Nat → Char) (p : Nat) (text : List Char) : Prop :=
  (∀ i (h : i < text.length), mem (p + i) = text[i]) ∧ mem (p + text.length) = '\x00' ∧
    ∀ c ∈ text, c ≠ '\x00'

-- A word begins at a character that is not blank and has none or a blank one in front.
def begins (line : List Char) (i : Nat) : Bool :=
  !isBlank (line.getD i ' ') && (i = 0 || isBlank (line.getD (i - 1) ' '))

def starts (line : List Char) : List Nat := (List.range line.length).filter (begins line)

def wordAt (line : List Char) (i : Nat) : List Char := (line.drop i).takeWhile fun c => !isBlank c

-- What parse leaves behind for a line with few words: `argv` has them, as strings in their
-- places, and nothing outside the line is written.
structure Tokenized (line : List Char) (mem : Nat → Char) (buf : Nat) (s : Parse) : Prop where
  argc : s.argc = (starts line).length
  args : (List.range s.argc).map s.argv = (starts line).map (buf + ·)
  words : ∀ i ∈ starts line, IsString s.mem (buf + i) (wordAt line i)
  frame : ∀ a, ¬(buf ≤ a ∧ a < buf + line.length) → s.mem a = mem a

variable {mem : Nat → Char} {line : List Char} {buf o p fuel limit : Nat} {s : Parse}

-- The memory in which the blanks of the first `o` characters are overwritten
def blanked (mem : Nat → Char) (buf o : Nat) : Nat → Char := fun a =>
  if buf ≤ a ∧ a < buf + o ∧ isBlank (mem a) then '\x00' else mem a

theorem blanked_of_le {a : Nat} (h : buf + o ≤ a) : blanked mem buf o a = mem a := by
  apply if_neg
  omega

theorem blanked_zero : blanked mem buf 0 = mem := by
  funext a
  apply if_neg
  omega

-- One character more
theorem blanked_blank (h : isBlank (mem (buf + o))) :
    Function.update (blanked mem buf o) (buf + o) '\x00' = blanked mem buf (o + 1) := by
  funext a
  by_cases he : a = buf + o
  · subst he
    rw [Function.update_self]
    exact (if_pos ⟨Nat.le_add_right _ _, by omega, h⟩).symm
  · rw [Function.update_of_ne he]
    unfold blanked
    congr 1
    apply propext
    have hlt : a < buf + (o + 1) ↔ a < buf + o := by omega
    rw [hlt]

theorem blanked_word (h : ∀ i, o ≤ i → i < p → ¬isBlank (mem (buf + i))) (hop : o ≤ p) :
    blanked mem buf p = blanked mem buf o := by
  funext a
  unfold blanked
  congr 1
  apply propext
  constructor
  · rintro ⟨hlo, hhi, hb⟩
    refine ⟨hlo, ?_, hb⟩
    by_contra ho
    obtain ⟨i, rfl⟩ := Nat.exists_eq_add_of_le hlo
    exact h i (by omega) (by omega) hb
  · rintro ⟨hlo, hhi, hb⟩
    exact ⟨hlo, by omega, hb⟩

namespace IsString

theorem get (h : IsString mem buf line) (ho : o < line.length) : mem (buf + o) = line.getD o ' ' := by
  rw [h.1 o ho, List.getD_eq_getElem _ _ ho]

theorem ne (h : IsString mem buf line) (ho : o < line.length) : mem (buf + o) ≠ '\x00' := by
  rw [h.1 o ho]
  exact h.2.2 _ (List.getElem_mem ho)

end IsString

theorem skipBlanks_spec (h : IsString mem buf line) (ho : o ≤ line.length)
    (hfuel : line.length - o < fuel) :
    ∃ p, o ≤ p ∧ p ≤ line.length ∧
      skipBlanks fuel (blanked mem buf o) (buf + o) = .ok (blanked mem buf p, buf + p) ∧
      (∀ i, o ≤ i → i < p → isBlank (mem (buf + i))) ∧ ¬isBlank (mem (buf + p)) := by
  induction fuel generalizing o with
  | zero => omega
  | succ fuel ih =>
      rw [skipBlanks, blanked_of_le le_rfl]
      by_cases hblank : mem (buf + o) ≠ '\x00' ∧ isBlank (mem (buf + o))
      · have hlt : o < line.length := by
          refine lt_of_le_of_ne ho fun he => hblank.1 ?_
          rw [he]
          exact h.2.1
        obtain ⟨p, hop, hp, hrun, hall, hstop⟩ := ih (o := o + 1) hlt (by omega)
        refine ⟨p, by omega, hp, ?_, fun i hi hip => ?_, hstop⟩
        · rw [if_pos hblank, blanked_blank hblank.2, Nat.add_assoc]
          exact hrun
        · rcases Nat.eq_or_lt_of_le hi with rfl | hlt
          · exact hblank.2
          · exact hall i hlt hip
      · refine ⟨o, le_rfl, ho, if_neg hblank, fun i hi hio => absurd hio (by omega), fun hb => ?_⟩
        apply hblank
        refine ⟨fun hnull => ?_, hb⟩
        rw [hnull] at hb
        exact absurd hb (by decide)

theorem skipWord_spec (h : IsString mem buf line) (ho : o ≤ line.length)
    (hfuel : line.length - o < fuel) (q : Nat) (hq : q ≤ o) :
    ∃ p, o ≤ p ∧ p ≤ line.length ∧ skipWord (blanked mem buf q) fuel (buf + o) = .ok (buf + p) ∧
      (∀ i, o ≤ i → i < p → ¬isBlank (mem (buf + i))) ∧ (p < line.length → isBlank (mem (buf + p))) := by
  induction fuel generalizing o with
  | zero => omega
  | succ fuel ih =>
      rw [skipWord, blanked_of_le (by omega)]
      by_cases hword : mem (buf + o) ≠ '\x00' ∧ !isBlank (mem (buf + o))
      · have hlt : o < line.length := by
          refine lt_of_le_of_ne ho fun he => hword.1 ?_
          rw [he]
          exact h.2.1
        obtain ⟨p, hop, hp, hrun, hall, hstop⟩ := ih (o := o + 1) hlt (by omega) (by omega)
        refine ⟨p, by omega, hp, ?_, fun i hi hip => ?_, hstop⟩
        · rw [if_pos hword, Nat.add_assoc]
          exact hrun
        · rcases Nat.eq_or_lt_of_le hi with rfl | hlt
          · simpa using hword.2
          · exact hall i hlt hip
      · refine ⟨o, le_rfl, ho, if_neg hword, fun i hi hio => absurd hio (by omega), fun hlt => ?_⟩
        have hne := h.ne hlt
        by_contra hb
        exact hword ⟨hne, by simpa using hb⟩

-- The words that begin among the first `o` characters
def startsBelow (line : List Char) (o : Nat) : List Nat := (List.range o).filter (begins line)

theorem startsBelow_extend (hop : o ≤ p) (h : ∀ i, o ≤ i → i < p → begins line i = false) :
    startsBelow line p = startsBelow line o := by
  obtain ⟨k, rfl⟩ := Nat.exists_eq_add_of_le hop
  unfold startsBelow
  rw [List.range_add, List.filter_append]
  have hnone : ((List.range k).map fun x => o + x).filter (begins line) = [] := by
    rw [List.filter_eq_nil_iff]
    intro i hi
    obtain ⟨j, hj, rfl⟩ := List.mem_map.mp hi
    rw [List.mem_range] at hj
    simp [h (o + j) (by omega) (by omega)]
  rw [hnone, List.append_nil]

theorem startsBelow_succ (h : begins line o = true) :
    startsBelow line (o + 1) = startsBelow line o ++ [o] := by
  unfold startsBelow
  rw [List.range_succ, List.filter_append, List.filter_singleton, h]
  rfl

-- parse has read `o` characters, and stands at a blank, at the end or at the start.
structure Walked (line : List Char) (mem : Nat → Char) (argv : Nat → Nat) (buf o : Nat) (s : Parse) :
    Prop where
  le : o ≤ line.length
  erased : s.mem = blanked mem buf o
  args : (List.range s.argc).map s.argv = (startsBelow line o).map (buf + ·)
  few : s.argc ≤ MAXARGS
  rest : ∀ i, MAXARGS ≤ i → s.argv i = argv i
  between : o = 0 ∨ (o < line.length → isBlank (mem (buf + o)))

variable {argv : Nat → Nat}

theorem Walked.argc (h : Walked line mem argv buf o s) : s.argc = (startsBelow line o).length := by
  have hlen := congrArg List.length h.args
  rwa [List.length_map, List.length_map, List.length_range] at hlen

theorem begins_of (h : IsString mem buf line) (ho : o < line.length) (hword : ¬isBlank (mem (buf + o)))
    (hfront : o = 0 ∨ isBlank (mem (buf + (o - 1)))) : begins line o = true := by
  rw [h.get ho] at hword
  rw [h.get (o := o - 1) (by omega)] at hfront
  simp only [begins, Bool.and_eq_true, Bool.or_eq_true, decide_eq_true_eq, Bool.not_eq_true']
  exact ⟨by simpa using hword, hfront⟩

theorem not_begins_of_blank (h : IsString mem buf line) (ho : o < line.length)
    (hblank : isBlank (mem (buf + o))) : begins line o = false := by
  rw [h.get ho] at hblank
  unfold begins
  rw [hblank]
  rfl

theorem not_begins_of_word (h : IsString mem buf line) (ho : o + 1 < line.length)
    (hword : ¬isBlank (mem (buf + o))) : begins line (o + 1) = false := by
  rw [h.get (o := o) (by omega)] at hword
  unfold begins
  rw [Nat.add_sub_cancel, Bool.eq_false_iff.mpr hword]
  simp

-- One pass of the loop: the line is at its end, or a word is stored, or there is no place
-- for it.
theorem parseLoop_round (h : IsString mem buf line) (hw : Walked line mem argv buf o s)
    (hlimit : line.length < limit) (fuel : Nat) :
    (∃ t, parseLoop limit (fuel + 1) s (buf + o) = .ok t ∧ Walked line mem argv buf line.length t) ∨
      (∃ t q, o < q ∧ Walked line mem argv buf q t ∧
        parseLoop limit (fuel + 1) s (buf + o) = parseLoop limit fuel t (buf + q)) ∨
      parseLoop limit (fuel + 1) s (buf + o) = .error .wild ∧ MAXARGS < (starts line).length := by
  obtain ⟨p, hop, hp, hskip, hblanks, hstop⟩ := skipBlanks_spec h hw.le (by omega : line.length - o < limit)
  have hsame : startsBelow line p = startsBelow line o :=
    startsBelow_extend hop fun i hi hip => not_begins_of_blank h (by omega) (hblanks i hi hip)
  have hread : blanked mem buf p (buf + p) = mem (buf + p) := blanked_of_le le_rfl
  rw [parseLoop, hw.erased, hskip, ok_bind]
  simp only [hread]
  by_cases hend : mem (buf + p) = '\x00'
  · left
    obtain rfl : p = line.length := by
      by_contra hne
      exact h.ne (lt_of_le_of_ne hp hne) hend
    exact ⟨_, if_pos hend, le_rfl, rfl, hsame ▸ hw.args, hw.few, hw.rest, Or.inr fun hlt => absurd hlt (by omega)⟩
  · right
    rw [if_neg hend]
    have hlt : p < line.length := by
      refine lt_of_le_of_ne hp fun he => hend ?_
      rw [he]
      exact h.2.1
    have hbegins : begins line p = true := by
      apply begins_of h hlt hstop
      rcases Nat.eq_or_lt_of_le hop with rfl | hlt'
      · exact hw.between.imp_right fun hb => absurd (hb hlt) hstop
      · exact Or.inr (hblanks (p - 1) (by omega) (by omega))
    have hmore : startsBelow line (p + 1) = startsBelow line o ++ [p] := by
      rw [startsBelow_succ hbegins, hsame]
    generalize hprinted : (if s.argc = MAXARGS - 1 then _ else _ : Parse) = u
    have hu : u.mem = blanked mem buf p ∧ u.argv = s.argv ∧ u.argc = s.argc := by
      rw [← hprinted]
      split <;> exact ⟨rfl, rfl, rfl⟩
    obtain ⟨humem, huargv, huargc⟩ := hu
    by_cases hroom : u.argc < MAXARGS
    · left
      obtain ⟨q, hpq, hq, hrun, hword, hnext⟩ := skipWord_spec h (Nat.le_of_lt hlt)
        (by omega : line.length - p < limit) p le_rfl
      have hne : p ≠ q := fun he => hstop (he ▸ hnext (he ▸ hlt))
      have hlast : startsBelow line q = startsBelow line (p + 1) := by
        refine startsBelow_extend (by omega) fun i hi hiq => ?_
        obtain ⟨j, rfl⟩ := Nat.exists_eq_add_of_le' (show 1 ≤ i by omega)
        exact not_begins_of_word h (by omega) (hword j (by omega) (by omega))
      have hbelow : blanked mem buf q = blanked mem buf p := blanked_word hword hpq
      refine ⟨{ u with argv := Function.update u.argv u.argc (buf + p), argc := u.argc + 1 }, q,
        by omega, ⟨hq, ?_, ?_, hroom, fun i hi => ?_, Or.inr hnext⟩, ?_⟩
      · exact humem.trans hbelow.symm
      · have hkeep : (List.range u.argc).map (Function.update u.argv u.argc (buf + p)) =
            (List.range u.argc).map u.argv := by
          refine List.map_congr_left fun i hi => Function.update_of_ne ?_ _ _
          exact Nat.ne_of_lt (List.mem_range.mp hi)
        show (List.range (u.argc + 1)).map (Function.update u.argv u.argc (buf + p)) = _
        rw [List.range_succ, List.map_append, hkeep, hlast, hmore, List.map_append, huargc, huargv,
          hw.args]
        simp
      · show Function.update u.argv u.argc (buf + p) i = _
        rw [Function.update_of_ne (by omega), huargv]
        exact hw.rest i hi
      · simp only [storeArg, if_pos hroom, ok_bind, humem, hrun]
    · right
      refine ⟨by simp only [storeArg, if_neg hroom, error_bind], ?_⟩
      have hall : startsBelow line (p + 1) <+: starts line := by
        obtain ⟨k, hk⟩ := Nat.exists_eq_add_of_le (show p + 1 ≤ line.length from hlt)
        have hrange : List.range line.length = List.range (p + 1) ++ (List.range k).map (p + 1 + ·) := by
          rw [hk, List.range_add]
        unfold starts startsBelow
        rw [hrange, List.filter_append]
        exact List.prefix_append _ _
      have hlen := hall.length_le
      rw [hmore, List.length_append, ← hw.argc, List.length_singleton] at hlen
      omega

-- parse fails when it has a word too much, and else it reads the line to its end.
theorem parseLoop_run (h : IsString mem buf line) (hw : Walked line mem argv buf o s)
    (hlimit : line.length < limit) (hfuel : line.length - o < fuel) :
    (∃ t, parseLoop limit fuel s (buf + o) = .ok t ∧ Walked line mem argv buf line.length t) ∨
      parseLoop limit fuel s (buf + o) = .error .wild ∧ MAXARGS < (starts line).length := by
  induction fuel generalizing o s with
  | zero => omega
  | succ fuel ih =>
      rcases parseLoop_round h hw hlimit fuel with hdone | ⟨t, q, hoq, hwt, hrun⟩ | hfull
      · exact Or.inl hdone
      · rw [hrun]
        have hq := hwt.le
        exact ih hwt (by omega)
      · exact Or.inr hfull

theorem walked_start : Walked line mem argv buf 0 ⟨mem, argv, 0, []⟩ where
  le := Nat.zero_le _
  erased := blanked_zero.symm
  args := rfl
  few := Nat.zero_le _
  rest := fun _ _ => rfl
  between := Or.inl rfl

-- The word at `o` lies there, and a blank or the end is behind it.
theorem wordAt_spec (h : IsString mem buf line) (ho : o ≤ line.length) :
    IsString (blanked mem buf line.length) (buf + o) (wordAt line o) := by
  have hsplit : line.drop o = wordAt line o ++ (line.drop o).dropWhile fun c => !isBlank c :=
    (List.takeWhile_append_dropWhile).symm
  generalize hrest : (line.drop o).dropWhile (fun c => !isBlank c) = rest at hsplit
  have hlen : o + (wordAt line o).length + rest.length = line.length := by
    have hl := congrArg List.length hsplit
    rw [List.length_drop, List.length_append] at hl
    omega
  have hget : ∀ i, (line)[o + i]? = (wordAt line o ++ rest)[i]? := fun i => by
    rw [← hsplit, List.getElem?_drop]
  have hchar : ∀ c ∈ wordAt line o, isBlank c = false := fun c hc => by
    simpa using List.mem_takeWhile_imp hc
  refine ⟨fun i hi => ?_, ?_, fun c hc => ?_⟩
  · have hin : o + i < line.length := by omega
    have hi' := hget i
    rw [List.getElem?_append_left hi, List.getElem?_eq_getElem hi, List.getElem?_eq_getElem hin] at hi'
    have hword : mem (buf + o + i) = (wordAt line o)[i] := by
      rw [Nat.add_assoc, h.1 _ hin]
      exact Option.some.inj hi'
    have hno : isBlank (mem (buf + o + i)) = false := hword ▸ hchar _ (List.getElem_mem hi)
    rw [← hword]
    apply if_neg
    simp [hno]
  · rw [Nat.add_assoc]
    cases rest with
    | nil =>
        rw [List.length_nil, Nat.add_zero] at hlen
        rw [hlen, blanked_of_le le_rfl]
        exact h.2.1
    | cons c rest =>
        have hin : o + (wordAt line o).length < line.length := by
          rw [List.length_cons] at hlen
          omega
        have hc := hget (wordAt line o).length
        rw [List.getElem?_append_right le_rfl, Nat.sub_self, List.getElem?_cons_zero,
          List.getElem?_eq_getElem hin] at hc
        have hblank : isBlank c = true := by
          have hhead := List.head?_dropWhile_not (fun c => !isBlank c) (line.drop o)
          rw [hrest] at hhead
          simpa using hhead
        refine if_pos ⟨Nat.le_add_right _ _, by omega, ?_⟩
        rw [h.1 _ hin, Option.some.inj hc]
        exact hblank
  · exact h.2.2 c (List.mem_of_mem_drop (hsplit ▸ List.mem_append_left rest hc))

-- parse stays in `argv` exactly for lines of at most MAXARGS words, and splits these.
theorem parse_exact (h : IsString mem buf line) (hlimit : line.length < limit) (argv : Nat → Nat) :
    (∃ s, parse limit mem argv buf = .ok s ∧ (∀ i, MAXARGS ≤ i → s.argv i = argv i) ∧
      ((starts line).length < MAXARGS → Tokenized line mem buf s)) ↔ (starts line).length ≤ MAXARGS := by
  have hstart : Walked line mem argv buf 0 ⟨mem, argv, 0, []⟩ := walked_start
  rcases parseLoop_run h hstart hlimit (by omega : line.length - 0 < limit) with
    ⟨t, ht, hw⟩ | ⟨hwild, hmany⟩
  · have hcount : t.argc = (starts line).length := hw.argc
    constructor
    · intro _
      rw [← hcount]
      exact hw.few
    · intro _
      refine ⟨t, ht, hw.rest, fun _ => ⟨hcount, hw.args, fun i hi => ?_, fun a ha => ?_⟩⟩
      · rw [hw.erased]
        have hin := List.mem_range.mp (List.mem_of_mem_filter hi)
        exact wordAt_spec h (Nat.le_of_lt hin)
      · rw [hw.erased]
        apply if_neg
        omega
  · constructor
    · rintro ⟨s, hs, _⟩
      rw [parse] at hs
      rw [Nat.add_zero] at hwild
      rw [hwild] at hs
      cases hs
    · intro hfew
      omega

-- A line at the address 0
def lineAt (line : List Char) : Nat → Char := fun a => line.getD a '\x00'

theorem isString_lineAt (h : '\x00' ∉ line) : IsString (lineAt line) 0 line := by
  refine ⟨fun i hi => ?_, ?_, fun c hc heq => h (heq ▸ hc)⟩
  · rw [Nat.zero_add]
    exact List.getD_eq_getElem _ _ hi
  · rw [Nat.zero_add]
    exact List.getD_eq_default _ _ le_rfl

def helpLine : List Char := [' ', 'h', 'e', 'l', 'p', ' ', '\t', 'm', 'e']

theorem parse_exact_help : ∃ s, parse 10 (lineAt helpLine) id 0 = .ok s ∧
    Tokenized helpLine (lineAt helpLine) 0 s := by
  have hstring : IsString (lineAt helpLine) 0 helpLine := isString_lineAt (by decide)
  have hlimit : helpLine.length < 10 := by decide
  obtain ⟨s, hs, _, hwords⟩ := (parse_exact hstring hlimit id).mpr (by decide)
  exact ⟨s, hs, hwords (by decide)⟩

-- Seventeen words
def longLine : List Char := (List.replicate 17 [' ', 'x']).flatten

theorem parse_overruns : ¬∀ (line : List Char) mem buf limit (argv : Nat → Nat), IsString mem buf line →
    line.length < limit → ∃ s, parse limit mem argv buf = .ok s ∧
      (∀ i, MAXARGS ≤ i → s.argv i = argv i) ∧
      ((starts line).length < MAXARGS → Tokenized line mem buf s) := by
  intro hall
  obtain ⟨s, hs, _⟩ := hall longLine (lineAt longLine) 0 35 id (isString_lineAt (by decide)) (by decide)
  have hwild : parse 35 (lineAt longLine) id 0 = .error .wild := by decide +kernel
  rw [hwild] at hs
  cases hs

end Ucore.Kmonitor
