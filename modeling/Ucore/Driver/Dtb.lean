import Ucore.Basic
import Mathlib.Data.List.Basic
import Mathlib.Data.Nat.Bitwise

namespace Ucore.Dtb

def FDT_BEGIN_NODE : Nat := 1
def FDT_END_NODE : Nat := 2
def FDT_PROP : Nat := 3
def FDT_NOP : Nat := 4
def FDT_END : Nat := 9

abbrev Bytes := List UInt8

def bytes (s : List Char) : Bytes := s.map fun c => UInt8.ofNat c.toNat

-- fdt32_to_cpu and fdt64_to_cpu
def fdt32ToCpu (x : Nat) : Nat :=
  (((x &&& 0xff) <<< 24 ||| ((x >>> 8) &&& 0xff) <<< 16) ||| ((x >>> 16) &&& 0xff) <<< 8) |||
    ((x >>> 24) &&& 0xff)

def fdt64ToCpu (x : Nat) : Nat := fdt32ToCpu (x &&& 0xffffffff) <<< 32 ||| fdt32ToCpu (x >>> 32)

-- The memory, and the addresses that may be read: those of the structure block and of the
-- strings block.
structure Memory where
  byte : Nat → UInt8
  inside : Nat → Bool

variable (m : Memory)

def load8 (a : Nat) : Except Halt Nat := if m.inside a then .ok (m.byte a).toNat else .error .wild

-- Words are little-endian.
def load32 (a : Nat) : Except Halt Nat := do
  let b₀ ← load8 m a
  let b₁ ← load8 m (a + 1)
  let b₂ ← load8 m (a + 2)
  let b₃ ← load8 m (a + 3)
  pure (b₀ + 256 * b₁ + 65536 * b₂ + 16777216 * b₃)

def load64 (a : Nat) : Except Halt Nat := do
  let lo ← load32 m a
  let hi ← load32 m (a + 4)
  pure (lo + 4294967296 * hi)

-- strlen; a string has less than `limit` characters
def strlen : Nat → Nat → Except Halt Nat
  | 0, _ => .error .hang
  | limit + 1, s => do
      let c ← load8 m s
      if c = 0 then pure 0
      else do
        let n ← strlen limit (s + 1)
        pure (n + 1)

-- strncmp and strcmp with a string that is a constant
def strncmp : Nat → Nat → Bytes → Except Halt Int
  | 0, _, _ => .ok 0
  | _ + 1, s₁, [] => do
      let c ← load8 m s₁
      pure c
  | n + 1, s₁, d :: s₂ => do
      let c ← load8 m s₁
      if c ≠ 0 ∧ c = d.toNat then strncmp n (s₁ + 1) s₂ else pure ((c : Int) - d.toNat)

def strcmp : Nat → Bytes → Except Halt Int
  | s₁, [] => do
      let c ← load8 m s₁
      pure c
  | s₁, d :: s₂ => do
      let c ← load8 m s₁
      if c ≠ 0 ∧ c = d.toNat then strcmp (s₁ + 1) s₂ else pure ((c : Int) - d.toNat)

-- `(uintptr_t)p + n & ~3`
def align (p : Nat) (n : Int) : Nat := ((p + n) % 18446744073709551616).toNat / 4 * 4

-- The int that strlen is stored into
def toInt (n : Nat) : Int := (BitVec.ofNat 32 n).toInt

def MEMORY : Bytes := bytes ['m', 'e', 'm', 'o', 'r', 'y']
def REG : Bytes := bytes ['r', 'e', 'g']

-- The loop of extract_memory_info. A token takes four bytes, so that `limit` is enough for
-- a block that has less.
def extractLoop (limit stringsBase : Nat) : Nat → Nat → Bool → Except Halt (Option (Nat × Nat))
  | 0, _, _ => .error .hang
  | fuel + 1, structPtr, inMemoryNode => do
      let word ← load32 m structPtr
      let token := fdt32ToCpu word
      let structPtr := structPtr + 4
      if token = FDT_BEGIN_NODE then do
        let nameLen ← strlen m limit structPtr
        let differs ← strncmp m 6 structPtr MEMORY
        extractLoop limit stringsBase fuel (align structPtr (toInt nameLen + 4))
          (if differs = 0 then true else inMemoryNode)
      else if token = FDT_END_NODE then extractLoop limit stringsBase fuel structPtr false
      else if token = FDT_PROP then do
        let word ← load32 m structPtr
        let propLen := fdt32ToCpu word
        let word ← load32 m (structPtr + 4)
        let propName := stringsBase + fdt32ToCpu word
        let propData := structPtr + 8
        let found ←
          if inMemoryNode then do
            let differs ← strcmp m propName REG
            pure (decide (differs = 0 ∧ propLen ≥ 16))
          else pure false
        if found then do
          let base ← load64 m propData
          let size ← load64 m (propData + 8)
          pure (some (fdt64ToCpu base, fdt64ToCpu size))
        else extractLoop limit stringsBase fuel (align propData (propLen + 3)) inMemoryNode
      else if token = FDT_NOP then extractLoop limit stringsBase fuel structPtr inMemoryNode
      else pure none

-- extract_memory_info, with the two offsets of the header. `none` is the result -1.
def extractMemoryInfo (limit dtbVaddr offDtStruct offDtStrings : Nat) :
    Except Halt (Option (Nat × Nat)) :=
  extractLoop m limit (dtbVaddr + fdt32ToCpu offDtStrings) limit (dtbVaddr + fdt32ToCpu offDtStruct) false

-- A property, with the FDT_NOP tokens in front of it
structure Property where
  nops : Nat
  nameoff : Nat
  data : Bytes
  deriving DecidableEq

-- The nodes of a tree: the first one, with the FDT_NOP tokens in front of it and in front
-- of its end, and the ones behind it.
inductive Nodes
  | none
  | node (nops : Nat) (name : Bytes) (props : List Property) (children : Nodes) (endNops : Nat)
      (rest : Nodes)

section Encoding

-- The big-endian word
def be32 (n : Nat) : Bytes :=
  [UInt8.ofNat (n / 16777216), UInt8.ofNat (n / 65536), UInt8.ofNat (n / 256), UInt8.ofNat n]

def pad (l : Bytes) : Bytes := l ++ List.replicate ((4 - l.length % 4) % 4) 0

def encodeNops (n : Nat) : Bytes := (List.replicate n (be32 FDT_NOP)).flatten

def Property.encode (p : Property) : Bytes :=
  encodeNops p.nops ++ (be32 FDT_PROP ++ (be32 p.data.length ++ (be32 p.nameoff ++ pad p.data)))

def encodeProps (props : List Property) : Bytes := (props.map Property.encode).flatten

def Nodes.encode : Nodes → Bytes
  | .none => []
  | .node nops name props children endNops rest =>
      encodeNops nops ++ (be32 FDT_BEGIN_NODE ++ (pad (name ++ [0]) ++ (encodeProps props ++
        (children.encode ++ (encodeNops endNops ++ (be32 FDT_END_NODE ++ rest.encode))))))

-- A structure block, with the FDT_NOP tokens in front of its end
def encodeBlock (t : Nodes) (endNops : Nat) : Bytes :=
  t.encode ++ (encodeNops endNops ++ be32 FDT_END)

end Encoding

section Meaning

-- The string at an offset of the strings block
def stringAt (strings : Bytes) (off : Nat) : Bytes := (strings.drop off).takeWhile (· ≠ 0)

def isReg (strings : Bytes) (p : Property) : Bool := stringAt strings p.nameoff = REG ∧ 16 ≤ p.data.length

-- The nodes that describe memory: "memory", and "memory@" with an address
def isMemory (name : Bytes) : Bool := name = MEMORY ∨ MEMORY ++ bytes ['@'] <+: name

def hasPrefix (name : Bytes) : Bool := MEMORY <+: name

def beNat (l : Bytes) : Nat := l.foldl (fun n b => n * 256 + b.toNat) 0

-- The base and the size
def regOf (p : Property) : Nat × Nat := (beNat (p.data.take 8), beNat ((p.data.drop 8).take 8))

-- The reg properties of the nodes that describe memory, as they stand in the block
def memoryRegs (strings : Bytes) : Nodes → List Property
  | .none => []
  | .node _ name props children _ rest =>
      (if isMemory name then props.filter (isReg strings) else []) ++
        (memoryRegs strings children ++ memoryRegs strings rest)

-- The reg properties of the nodes whose name begins with "memory", and of the nodes that
-- are reached from one of these over first children, each with the name of its node. If
-- `inherited`, the first of the nodes is reached in this way.
def prefixRegs (strings : Bytes) : Bool → Nodes → List (Bytes × Property)
  | _, .none => []
  | inherited, .node _ name props children _ rest =>
      (if inherited || hasPrefix name then (props.filter (isReg strings)).map fun p => (name, p) else []) ++
        (prefixRegs strings (inherited || hasPrefix name) children ++ prefixRegs strings false rest)

end Meaning

-- The names are strings, and the names of the properties lie in the strings block.
def Property.WellFormed (strings : Bytes) (p : Property) : Prop :=
  p.nameoff < 4294967296 ∧ (0 : UInt8) ∈ strings.drop p.nameoff

def Nodes.WellFormed (strings : Bytes) : Nodes → Prop
  | .none => True
  | .node _ name props children _ rest =>
      (0 : UInt8) ∉ name ∧ (∀ p ∈ props, p.WellFormed strings) ∧ children.WellFormed strings ∧
        rest.WellFormed strings

-- The bytes `l` lie at the address `a`, and may be read.
def Holds (m : Memory) (a : Nat) (l : Bytes) : Prop :=
  ∀ i (h : i < l.length), m.inside (a + i) = true ∧ m.byte (a + i) = l[i]

variable {m : Memory} {a n : Nat} {l k : Bytes}

theorem holds_append : Holds m a (l ++ k) ↔ Holds m a l ∧ Holds m (a + l.length) k := by
  constructor
  · intro h
    refine ⟨fun i hi => ?_, fun i hi => ?_⟩
    · have hb := h i (by rw [List.length_append]; omega)
      rwa [List.getElem_append_left hi] at hb
    · have hb := h (l.length + i) (by rw [List.length_append]; omega)
      rw [List.getElem_append_right (by omega)] at hb
      simp only [Nat.add_sub_cancel_left] at hb
      rwa [Nat.add_assoc]
  · rintro ⟨hl, hk⟩ i hi
    by_cases hlt : i < l.length
    · rw [List.getElem_append_left hlt]
      exact hl i hlt
    · rw [List.getElem_append_right (by omega)]
      have hb := hk (i - l.length) (by rw [List.length_append] at hi; omega)
      rwa [Nat.add_assoc, show l.length + (i - l.length) = i by omega] at hb

theorem holds_cons {b : UInt8} :
    Holds m a (b :: l) ↔ (m.inside a = true ∧ m.byte a = b) ∧ Holds m (a + 1) l := by
  have h := holds_append (m := m) (a := a) (l := [b]) (k := l)
  rw [List.singleton_append] at h
  rw [h]
  refine and_congr_left fun _ => ⟨fun h => h 0 Nat.one_pos, fun h i hi => ?_⟩
  obtain rfl : i = 0 := by simpa using hi
  exact h

theorem load8_eq (hin : m.inside a = true) : load8 m a = .ok (m.byte a).toNat := if_pos hin

section Words

theorem and_ff (x : Nat) : x &&& 0xff = x % 256 := Nat.and_two_pow_sub_one_eq_mod x 8

-- The four bytes the other way round
theorem fdt32ToCpu_eq {b₀ b₁ b₂ b₃ : Nat} (h₀ : b₀ < 256) (h₁ : b₁ < 256) (h₂ : b₂ < 256) (h₃ : b₃ < 256) :
    fdt32ToCpu (b₀ + 256 * b₁ + 65536 * b₂ + 16777216 * b₃) =
      b₀ * 16777216 + b₁ * 65536 + b₂ * 256 + b₃ := by
  have e₀ : (b₀ + 256 * b₁ + 65536 * b₂ + 16777216 * b₃) &&& 0xff = b₀ := by
    rw [and_ff]
    omega
  have e₁ : ((b₀ + 256 * b₁ + 65536 * b₂ + 16777216 * b₃) >>> 8) &&& 0xff = b₁ := by
    rw [and_ff, Nat.shiftRight_eq_div_pow]
    omega
  have e₂ : ((b₀ + 256 * b₁ + 65536 * b₂ + 16777216 * b₃) >>> 16) &&& 0xff = b₂ := by
    rw [and_ff, Nat.shiftRight_eq_div_pow]
    omega
  have e₃ : ((b₀ + 256 * b₁ + 65536 * b₂ + 16777216 * b₃) >>> 24) &&& 0xff = b₃ := by
    rw [and_ff, Nat.shiftRight_eq_div_pow]
    omega
  unfold fdt32ToCpu
  rw [e₀, e₁, e₂, e₃, Nat.or_assoc, Nat.or_assoc, ← Nat.shiftLeft_add_eq_or_of_lt (show b₃ < 2 ^ 8 from h₃)]
  have h₂₃ : b₂ <<< 8 + b₃ < 2 ^ 16 := by
    rw [Nat.shiftLeft_eq]
    omega
  rw [← Nat.shiftLeft_add_eq_or_of_lt h₂₃]
  have h₁₂₃ : b₁ <<< 16 + (b₂ <<< 8 + b₃) < 2 ^ 24 := by
    rw [Nat.shiftLeft_eq, Nat.shiftLeft_eq]
    omega
  rw [← Nat.shiftLeft_add_eq_or_of_lt h₁₂₃]
  simp only [Nat.shiftLeft_eq]
  omega

theorem load32_eq {b₀ b₁ b₂ b₃ : UInt8} (h : Holds m a [b₀, b₁, b₂, b₃]) :
    load32 m a = .ok (b₀.toNat + 256 * b₁.toNat + 65536 * b₂.toNat + 16777216 * b₃.toNat) := by
  simp only [holds_cons, Nat.add_assoc] at h
  obtain ⟨⟨hi₀, rfl⟩, ⟨hi₁, rfl⟩, ⟨hi₂, rfl⟩, ⟨hi₃, rfl⟩, _⟩ := h
  simp only [load32, load8_eq hi₀, load8_eq hi₁, load8_eq hi₂, load8_eq hi₃, ok_bind, pure_eq_ok]

theorem load32_be (h : Holds m a (be32 n)) (hn : n < 4294967296) :
    ∃ x, load32 m a = .ok x ∧ fdt32ToCpu x = n := by
  refine ⟨_, load32_eq h, ?_⟩
  rw [fdt32ToCpu_eq (UInt8.toNat_lt _) (UInt8.toNat_lt _) (UInt8.toNat_lt _) (UInt8.toNat_lt _)]
  simp only [UInt8.toNat_ofNat']
  omega

theorem load32_swap {b₀ b₁ b₂ b₃ : UInt8} (h : Holds m a [b₀, b₁, b₂, b₃]) :
    ∃ x, load32 m a = .ok x ∧ x < 4294967296 ∧
      fdt32ToCpu x = b₀.toNat * 16777216 + b₁.toNat * 65536 + b₂.toNat * 256 + b₃.toNat := by
  have h₀ := b₀.toNat_lt
  have h₁ := b₁.toNat_lt
  have h₂ := b₂.toNat_lt
  have h₃ := b₃.toNat_lt
  exact ⟨_, load32_eq h, by omega, fdt32ToCpu_eq h₀ h₁ h₂ h₃⟩

theorem load64_be (h : Holds m a l) (hl : l.length = 8) :
    ∃ x, load64 m a = .ok x ∧ fdt64ToCpu x = beNat l := by
  obtain ⟨b₀, b₁, b₂, b₃, b₄, b₅, b₆, b₇, rfl⟩ : ∃ b₀ b₁ b₂ b₃ b₄ b₅ b₆ b₇,
      l = [b₀, b₁, b₂, b₃, b₄, b₅, b₆, b₇] := by
    rcases l with _ | ⟨b₀, _ | ⟨b₁, _ | ⟨b₂, _ | ⟨b₃, _ | ⟨b₄, _ | ⟨b₅, _ | ⟨b₆, _ | ⟨b₇, _ | _⟩⟩⟩⟩⟩⟩⟩⟩ <;>
      simp at hl
    exact ⟨b₀, b₁, b₂, b₃, b₄, b₅, b₆, b₇, rfl⟩
  have hsplit := holds_append (m := m) (a := a) (l := [b₀, b₁, b₂, b₃]) (k := [b₄, b₅, b₆, b₇])
  obtain ⟨hlo, hhi⟩ := hsplit.mp h
  obtain ⟨x, hx, hxlt, hxe⟩ := load32_swap hlo
  obtain ⟨y, hy, hylt, hye⟩ := load32_swap hhi
  have hy : load32 m (a + 4) = .ok y := hy
  refine ⟨x + 4294967296 * y, by simp only [load64, hx, hy, ok_bind, pure_eq_ok], ?_⟩
  have elo : (x + 4294967296 * y) &&& 0xffffffff = x := by
    rw [show (0xffffffff : Nat) = 2 ^ 32 - 1 by rfl, Nat.and_two_pow_sub_one_eq_mod]
    omega
  have ehi : (x + 4294967296 * y) >>> 32 = y := by
    rw [Nat.shiftRight_eq_div_pow]
    omega
  have hlt : fdt32ToCpu y < 2 ^ 32 := by
    have h₄ := b₄.toNat_lt
    have h₅ := b₅.toNat_lt
    have h₆ := b₆.toNat_lt
    have h₇ := b₇.toNat_lt
    omega
  unfold fdt64ToCpu
  rw [elo, ehi, ← Nat.shiftLeft_add_eq_or_of_lt hlt, Nat.shiftLeft_eq, hxe, hye]
  simp only [beNat, List.foldl_cons, List.foldl_nil]
  omega

end Words

section Strings

variable {s t : Bytes} {limit : Nat}

theorem strlen_eq (h : Holds m a (s ++ [0])) (hs : (0 : UInt8) ∉ s) (hlimit : s.length < limit) :
    strlen m limit a = .ok s.length := by
  induction s generalizing a limit with
  | nil =>
      obtain ⟨limit, rfl⟩ := Nat.exists_eq_add_of_le' hlimit
      obtain ⟨⟨hin, hb⟩, _⟩ := holds_cons.mp h
      have hzero : (m.byte a).toNat = 0 := by rw [hb]; rfl
      simp only [strlen, load8_eq hin, ok_bind, if_pos hzero]
      rfl
  | cons c s ih =>
      obtain ⟨limit, rfl⟩ := Nat.exists_eq_add_of_le' (Nat.one_le_of_lt hlimit)
      obtain ⟨⟨hin, hb⟩, hrest⟩ := holds_cons.mp h
      rw [List.mem_cons, not_or] at hs
      have hne : (m.byte a).toNat ≠ 0 := fun he => hs.1 (by
        rw [← hb]
        exact (UInt8.toNat_inj.mp he).symm)
      have hrec := ih hrest hs.2 (Nat.lt_of_succ_lt_succ hlimit)
      simp only [strlen, load8_eq hin, ok_bind, if_neg hne, hrec, pure_eq_ok, List.length_cons]

theorem strncmp_spec (h : Holds m a (s ++ [0])) (hs : (0 : UInt8) ∉ s) (ht : (0 : UInt8) ∉ t) :
    ∃ d, strncmp m t.length a t = .ok d ∧ (d = 0 ↔ t <+: s) := by
  induction t generalizing a s with
  | nil => exact ⟨0, rfl, by simp⟩
  | cons d t ih =>
      rw [List.mem_cons, not_or] at ht
      cases s with
      | nil =>
          obtain ⟨⟨hin, hb⟩, _⟩ := holds_cons.mp h
          have hd : d.toNat ≠ 0 := fun he => ht.1 (UInt8.toNat_inj.mp he).symm
          refine ⟨_, by simp only [List.length_cons, strncmp, load8_eq hin, ok_bind, hb]; rfl, ?_⟩
          constructor
          · intro he
            exact absurd he (by simpa using hd)
          · intro hp
            exact absurd hp (by simp)
      | cons c s =>
          obtain ⟨⟨hin, hb⟩, hrest⟩ := holds_cons.mp h
          rw [List.mem_cons, not_or] at hs
          have hc : c.toNat ≠ 0 := fun he => hs.1 (UInt8.toNat_inj.mp he).symm
          obtain ⟨e, he, hiff⟩ := ih hrest hs.2 ht.2
          by_cases hcd : c = d
          · subst hcd
            refine ⟨e, ?_, ?_⟩
            · simp only [List.length_cons, strncmp, load8_eq hin, ok_bind, hb, and_true]
              rw [if_pos hc, he]
            · rw [hiff, List.cons_prefix_cons]
              simp
          · have hne : c.toNat ≠ d.toNat := fun he => hcd (UInt8.toNat_inj.mp he)
            refine ⟨(c.toNat : Int) - d.toNat, ?_, ?_⟩
            · simp only [List.length_cons, strncmp, load8_eq hin, ok_bind, hb]
              rw [if_neg fun h => hne h.2]
              rfl
            · rw [List.cons_prefix_cons]
              constructor
              · intro hz
                omega
              · rintro ⟨rfl, _⟩
                exact absurd rfl hcd

theorem strcmp_spec (h : Holds m a (s ++ [0])) (hs : (0 : UInt8) ∉ s) (ht : (0 : UInt8) ∉ t) :
    ∃ d, strcmp m a t = .ok d ∧ (d = 0 ↔ s = t) := by
  induction t generalizing a s with
  | nil =>
      cases s with
      | nil =>
          obtain ⟨⟨hin, hb⟩, _⟩ := holds_cons.mp h
          exact ⟨0, by simp only [strcmp, load8_eq hin, ok_bind, hb]; rfl, by simp⟩
      | cons c s =>
          obtain ⟨⟨hin, hb⟩, _⟩ := holds_cons.mp h
          rw [List.mem_cons, not_or] at hs
          have hc : c.toNat ≠ 0 := fun he => hs.1 (UInt8.toNat_inj.mp he).symm
          refine ⟨(c.toNat : Int), by simp only [strcmp, load8_eq hin, ok_bind, hb, pure_eq_ok], ?_⟩
          constructor
          · intro hz
            omega
          · intro he
            cases he
  | cons d t ih =>
      rw [List.mem_cons, not_or] at ht
      cases s with
      | nil =>
          obtain ⟨⟨hin, hb⟩, _⟩ := holds_cons.mp h
          have hd : d.toNat ≠ 0 := fun he => ht.1 (UInt8.toNat_inj.mp he).symm
          refine ⟨_, by simp only [strcmp, load8_eq hin, ok_bind, hb]; rfl, ?_⟩
          constructor
          · intro he
            exact absurd he (by simpa using hd)
          · intro he
            cases he
      | cons c s =>
          obtain ⟨⟨hin, hb⟩, hrest⟩ := holds_cons.mp h
          rw [List.mem_cons, not_or] at hs
          have hc : c.toNat ≠ 0 := fun he => hs.1 (UInt8.toNat_inj.mp he).symm
          obtain ⟨e, he, hiff⟩ := ih hrest hs.2 ht.2
          by_cases hcd : c = d
          · subst hcd
            refine ⟨e, ?_, ?_⟩
            · simp only [strcmp, load8_eq hin, ok_bind, hb, and_true]
              rw [if_pos hc, he]
            · rw [hiff, List.cons.injEq]
              simp
          · have hne : c.toNat ≠ d.toNat := fun he => hcd (UInt8.toNat_inj.mp he)
            refine ⟨(c.toNat : Int) - d.toNat, ?_, ?_⟩
            · simp only [strcmp, load8_eq hin, ok_bind, hb]
              rw [if_neg fun h => hne h.2]
              rfl
            · rw [List.cons.injEq]
              constructor
              · intro hz
                omega
              · rintro ⟨rfl, _⟩
                exact absurd rfl hcd

end Strings

end Ucore.Dtb
