import Ucore.Basic
import Mathlib.Data.Nat.Notation

namespace Ucore.Printfmt

def MAXERROR : Int := 24

-- Signed 32-bit arithmetic wraps around.
def toInt32 (x : Int) : Int := (x + 2147483648) % 4294967296 - 2147483648

-- A string in memory, without the NUL at its end
structure CString where
  chars : List Char
  noNul : '\x00' ∉ chars

namespace CString

def empty : CString := ⟨[], List.not_mem_nil⟩

-- The NUL is the last character that may be read.
def get (s : CString) (i : Nat) : Except Halt Char :=
  if h : i < s.chars.length then .ok s.chars[i]
  else if i = s.chars.length then .ok '\x00'
  else .error .wild

end CString

-- The arguments: eight bytes each, and the strings that some of them point to
structure VaList where
  slot : Nat → BitVec 64
  string : BitVec 64 → CString

-- `va_arg(ap, int)`
def VaList.int (va : VaList) (ap : Nat) : Int := ((va.slot ap).setWidth 32).toInt

-- getuint and getint
def getuint (va : VaList) (ap : Nat) (lflag : Int) : BitVec 64 :=
  if 2 ≤ lflag then va.slot ap
  else if lflag ≠ 0 then va.slot ap
  else ((va.slot ap).setWidth 32).setWidth 64

def getint (va : VaList) (ap : Nat) (lflag : Int) : BitVec 64 :=
  if 2 ≤ lflag then va.slot ap
  else if lflag ≠ 0 then va.slot ap
  else ((va.slot ap).setWidth 32).signExtend 64

def chars (s : String) : List Char := s.toList

-- error_string
def errorString (err : Int) : Option CString :=
  if err = 1 then some ⟨chars "unspecified error", by decide⟩
  else if err = 2 then some ⟨chars "bad process", by decide⟩
  else if err = 3 then some ⟨chars "invalid parameter", by decide⟩
  else if err = 4 then some ⟨chars "out of memory", by decide⟩
  else if err = 5 then some ⟨chars "out of processes", by decide⟩
  else if err = 6 then some ⟨chars "segmentation fault", by decide⟩
  else if err = 8 then some ⟨chars "invalid elf file", by decide⟩
  else if err = 9 then some ⟨chars "process is killed", by decide⟩
  else if err = 10 then some ⟨chars "panic failure", by decide⟩
  else none

-- strnlen
def strnlen : List Char → Nat → Nat
  | [], _ => 0
  | _ :: _, 0 => 0
  | _ :: s, len + 1 => strnlen s len + 1

section

variable {σ : Type} (putch : Int → σ → σ)

-- `for (; width > 0; width --) putch(padc, putdat)`
def pad (padc : Char) (width : Int) (s : σ) : σ :=
  if 0 < width then pad padc (width - 1) (putch padc.toNat s) else s
termination_by width.toNat

-- The bases that printnum is called with
inductive Base
  | octal
  | decimal
  | hexadecimal
  deriving DecidableEq

def Base.val : Base → Nat
  | octal => 8
  | decimal => 10
  | hexadecimal => 16

theorem Base.one_lt (base : Base) : 1 < base.val := by
  cases base with
  | octal => decide
  | decimal => decide
  | hexadecimal => decide

def DIGITS : List Char := chars "0123456789abcdef"

-- printnum
def printnum (num : Nat) (base : Base) (width : Int) (padc : Char) (s : σ) : σ :=
  let result := num / base.val
  let mod := num % base.val
  let s :=
    if base.val ≤ num then printnum result base (toInt32 (width - 1)) padc s
    else pad putch padc (toInt32 (width - 1)) s
  putch (DIGITS.getD mod '\x00').toNat s
termination_by num
decreasing_by exact Nat.div_lt_self (by have := base.one_lt; omega) base.one_lt

-- The loop of %s over the characters, with the width that is left
def putString (altflag : Bool) : List Char → Int → Int → σ → Int × σ
  | [], _, width, s => (width, s)
  | ch :: p, precision, width, s =>
      let next := if precision < 0 then precision else precision - 1
      if precision < 0 ∨ 0 ≤ next then
        let out := if altflag ∧ (ch < ' ' ∨ '~' < ch) then '?' else ch
        putString altflag p next (toInt32 (width - 1)) (putch out.toNat s)
      else (width, s)

end

-- The flags of an escape
structure Flags where
  padc : Char
  width : Int
  precision : Int
  lflag : Int
  altflag : Bool

def Flags.start : Flags := ⟨' ', -1, -1, 0, false⟩

-- `process_precision`
def Flags.processPrecision (f : Flags) : Flags :=
  if f.width < 0 then { f with width := f.precision, precision := -1 } else f

-- `precision * 10 + ch - '0'`
def Flags.digit (f : Flags) (ch : Char) : Flags :=
  { f with precision := toInt32 (f.precision * 10 + ch.toNat - 48) }

-- Where vprintfmt is: in the text, behind `reswitch` or in the loop over the digits
inductive Mode
  | text
  | reswitch (f : Flags)
  | digits (f : Flags)

structure State (σ : Type) where
  mode : Mode
  fmt : Nat
  ap : Nat
  dat : σ

-- The cases of the switch that go on to `reswitch`
def flag (va : VaList) (f : Flags) (ap : Nat) (ch : Char) : Option (Mode × Nat) :=
  match ch with
  | '-' => some (.reswitch { f with padc := '-' }, ap)
  | '0' => some (.reswitch { f with padc := '0' }, ap)
  | '*' => some (.reswitch { f with precision := va.int ap }.processPrecision, ap + 1)
  | '.' => some (.reswitch { f with width := if f.width < 0 then 0 else f.width }, ap)
  | '#' => some (.reswitch { f with altflag := true }, ap)
  | 'l' => some (.reswitch { f with lflag := toInt32 (f.lflag + 1) }, ap)
  | ch =>
      if '1' ≤ ch ∧ ch ≤ '9' then some (.digits ({ f with precision := 0 }.digit ch), ap) else none

section

variable {σ : Type} (printfmt : CString → VaList → σ → Except Halt σ) (putch : Int → σ → σ)

-- The case of %e
def putError (err : Int) (s : σ) : Except Halt σ :=
  let err := if err < 0 then toInt32 (-err) else err
  if MAXERROR < err then
    printfmt ⟨chars "error %d", by decide⟩ ⟨fun _ => BitVec.ofInt 64 err, fun _ => .empty⟩ s
  else if err < 0 then .error .wild
  else match errorString err with
    | none => printfmt ⟨chars "error %d", by decide⟩
        ⟨fun _ => BitVec.ofInt 64 err, fun _ => .empty⟩ s
    | some p => printfmt ⟨chars "%s", by decide⟩ ⟨fun _ => 1, fun _ => p⟩ s

-- The case of %s
def putStr (f : Flags) (p : CString) (s : σ) : σ :=
  let width :=
    if 0 < f.width ∧ f.padc ≠ '-' then
      toInt32 (f.width - strnlen p.chars (f.precision % 18446744073709551616).toNat)
    else f.width
  let s := if 0 < f.width ∧ f.padc ≠ '-' then pad putch f.padc width s else s
  -- the loop that pads in front leaves a width of 0 behind
  let width := if 0 < f.width ∧ f.padc ≠ '-' then min width 0 else width
  let (width, s) := putString putch f.altflag p.chars f.precision width s
  pad putch ' ' width s

-- The case of %d up to `number`
def putSign (num : BitVec 64) (s : σ) : BitVec 64 × σ :=
  if num.toInt < 0 then (-num, putch '-'.toNat s) else (num, s)

-- The cases of the switch that print an argument
def convert (va : VaList) (f : Flags) (ap : Nat) (ch : Char) (s : σ) : Option (Except Halt (Nat × σ)) :=
  match ch with
  | 'c' => some (.ok (ap + 1, putch (va.int ap) s))
  | 'e' => some do
      let s ← putError printfmt (va.int ap) s
      pure (ap + 1, s)
  | 's' =>
      let p := va.slot ap
      some (.ok (ap + 1, putStr putch f
        (if p = 0 then ⟨chars "(null)", by decide⟩ else va.string p) s))
  | 'd' =>
      let (num, s) := putSign putch (getint va ap f.lflag) s
      some (.ok (ap + 1, printnum putch num.toNat .decimal f.width f.padc s))
  | 'u' =>
      some (.ok (ap + 1, printnum putch (getuint va ap f.lflag).toNat .decimal f.width f.padc s))
  | 'o' =>
      some (.ok (ap + 1, printnum putch (getuint va ap f.lflag).toNat .octal f.width f.padc s))
  | 'p' =>
      let s := putch 'x'.toNat (putch '0'.toNat s)
      some (.ok (ap + 1, printnum putch (va.slot ap).toNat .hexadecimal f.width f.padc s))
  | 'x' =>
      some (.ok (ap + 1,
        printnum putch (getuint va ap f.lflag).toNat .hexadecimal f.width f.padc s))
  | '%' => some (.ok (ap, putch '%'.toNat s))
  | _ => none

-- `for (fmt --; fmt[-1] != '%'; fmt --)`, from the place behind `fmt --`
def rewind (fmt : CString) : Nat → Except Halt Nat
  | 0 => .error .wild
  | i + 1 => do
      let ch ← fmt.get i
      if ch = '%' then pure (i + 1) else rewind fmt i

-- The switch
def switch (fmt : CString) (va : VaList) (f : Flags) (i ap : Nat) (s : σ) : Except Halt (State σ) := do
  let ch ← fmt.get i
  match flag va f ap ch with
  | some (mode, ap) => pure ⟨mode, i + 1, ap, s⟩
  | none =>
      match convert printfmt putch va f ap ch s with
      | some result => do
          let (ap, s) ← result
          pure ⟨.text, i + 1, ap, s⟩
      | none => do
          let s := putch '%'.toNat s
          let i ← rewind fmt i
          pure ⟨.text, i, ap, s⟩

-- A character of the format: it returns (`none`) or goes on.
def pass (fmt : CString) (va : VaList) (st : State σ) : Except Halt (Option (State σ)) :=
  match st.mode with
  | .text => do
      let ch ← fmt.get st.fmt
      if ch = '%' then pure (some { st with mode := .reswitch .start, fmt := st.fmt + 1 })
      else if ch = '\x00' then pure none
      else pure (some { st with fmt := st.fmt + 1, dat := putch ch.toNat st.dat })
  | .digits f => do
      let ch ← fmt.get st.fmt
      if ch < '0' ∨ '9' < ch then pure (some { st with mode := .reswitch f.processPrecision })
      else pure (some { st with mode := .digits (f.digit ch), fmt := st.fmt + 1 })
  | .reswitch f => do
      let st ← switch printfmt putch fmt va f st.fmt st.ap st.dat
      pure (some st)

end

-- The loops of vprintfmt take `limit` passes at most; printfmt calls it again.
def vprintfmtLoop {σ : Type} (putch : Int → σ → σ) : Nat → CString → VaList → State σ → Except Halt σ
  | 0, _, _, _ => .error .hang
  | limit + 1, fmt, va, st => do
      let next ← pass (fun fmt va s => vprintfmtLoop putch limit fmt va ⟨.text, 0, 0, s⟩) putch fmt va st
      match next with
      | none => pure st.dat
      | some st => vprintfmtLoop putch limit fmt va st

-- vprintfmt
def vprintfmt {σ : Type} (putch : Int → σ → σ) (limit : Nat) (fmt : CString) (va : VaList) (s : σ) :
    Except Halt σ :=
  vprintfmtLoop putch limit fmt va ⟨.text, 0, 0, s⟩

-- sprintbuf, with the memory that the buffer is in
structure SprintBuf where
  buf : Nat
  ebuf : Nat
  cnt : Int
  mem : Nat → UInt8

-- sprintputch
def sprintputch (ch : Int) (b : SprintBuf) : SprintBuf :=
  let b := { b with cnt := toInt32 (b.cnt + 1) }
  if b.buf < b.ebuf then
    { b with buf := b.buf + 1, mem := Function.update b.mem b.buf (UInt8.ofInt ch) }
  else b

-- vsnprintf, and the memory that it leaves
def vsnprintf (limit : Nat) (mem : Nat → UInt8) (str size : Nat) (fmt : CString) (va : VaList) :
    Except Halt (Int × (Nat → UInt8)) :=
  let b : SprintBuf := ⟨str, (str + size + 18446744073709551615) % 18446744073709551616, 0, mem⟩
  if str = 0 ∨ b.ebuf < b.buf then .ok (-E_INVAL, mem)
  else do
    let b ← vprintfmt sprintputch limit fmt va b
    pure (b.cnt, Function.update b.mem b.buf 0)

-- What is printed altogether
def collect (ch : Int) (out : List Int) : List Int := out ++ [ch]

end Ucore.Printfmt
