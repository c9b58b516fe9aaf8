import Ucore.Driver.Dtb
import Mathlib.Data.List.GetD
import Mathlib.Data.List.TakeWhile

namespace Ucore.Dtb

variable {m : Memory} {a n k limit base : Nat} {l strings : Bytes} {inMem : Bool} {p : Property}
  {props : List Property} {t : Nodes}

section Lengths

theorem be32_length : (be32 n).length = 4 := rfl

theorem pad_length : (pad l).length = (l.length + 3) / 4 * 4 := by
  unfold pad
  rw [List.length_append, List.length_replicate]
  omega

theorem encodeNops_length : (encodeNops n).length = 4 * n := by
  induction n with
  | zero => rfl
  | succ n ih =>
      unfold encodeNops at *
      rw [List.replicate_succ, List.flatten_cons, List.length_append, ih, be32_length]
      omega

theorem encodeNops_succ : encodeNops (n + 1) = be32 FDT_NOP ++ encodeNops n := by
  unfold encodeNops
  rw [List.replicate_succ, List.flatten_cons]

theorem encodeProps_cons : encodeProps (p :: props) = p.encode ++ encodeProps props := by
  unfold encodeProps
  rw [List.map_cons, List.flatten_cons]

end Lengths

-- The tokens of a list of properties and of nodes
def propTokens (props : List Property) : Nat := (props.map fun p => p.nops + 1).sum

def Nodes.tokens : Nodes → Nat
  | .none => 0
  | .node nops _ props children endNops rest =>
      nops + (propTokens props + (children.tokens + (endNops + (rest.tokens + 2))))

theorem align_eq {n : Nat} (h : a + n < 18446744073709551616) : align a n = (a + n) / 4 * 4 := by
  unfold align
  have he : (((a : Int) + n) % 18446744073709551616).toNat = a + n := by omega
  rw [he]

theorem toInt_small (h : n < 2147483648) : toInt n = n := by
  rw [toInt, BitVec.toInt_eq_toNat_cond, BitVec.toNat_ofNat]
  split_ifs <;> omega

-- A token that is skipped
theorem extractLoop_nops (h : Holds m a (encodeNops n)) :
    extractLoop m limit base (n + k) a inMem = extractLoop m limit base k (a + 4 * n) inMem := by
  induction n generalizing a with
  | zero => rw [Nat.zero_add, Nat.mul_zero, Nat.add_zero]
  | succ n ih =>
      rw [encodeNops_succ, holds_append] at h
      obtain ⟨x, hx, hxe⟩ := load32_be h.1 (by decide)
      have hrest := ih h.2
      rw [show n + 1 + k = n + k + 1 by omega, extractLoop, hx, ok_bind]
      simp only [hxe]
      rw [if_neg (by decide), if_neg (by decide), if_neg (by decide), if_pos trivial]
      rw [be32_length] at hrest
      rw [hrest, show a + 4 + 4 * n = a + 4 * (n + 1) by omega]

theorem extractLoop_endNode (h : Holds m a (be32 FDT_END_NODE)) :
    extractLoop m limit base (k + 1) a inMem = extractLoop m limit base k (a + 4) false := by
  obtain ⟨x, hx, hxe⟩ := load32_be h (by decide)
  rw [extractLoop, hx, ok_bind]
  simp only [hxe]
  rw [if_neg (by decide), if_pos trivial]

theorem extractLoop_end (h : Holds m a (be32 FDT_END)) :
    extractLoop m limit base (k + 1) a inMem = .ok none := by
  obtain ⟨x, hx, hxe⟩ := load32_be h (by decide)
  rw [extractLoop, hx, ok_bind]
  simp only [hxe]
  rw [if_neg (by decide), if_neg (by decide), if_neg (by decide), if_neg (by decide)]
  rfl

theorem prefix_no_zero : (0 : UInt8) ∉ MEMORY := by decide

theorem extractLoop_beginNode {name : Bytes} (ha : a % 4 = 0)
    (h : Holds m a (be32 FDT_BEGIN_NODE ++ pad (name ++ [0]))) (hname : (0 : UInt8) ∉ name)
    (hlimit : name.length < limit) (hsmall : name.length < 2147483648)
    (hend : a + name.length + 8 < 18446744073709551616) :
    extractLoop m limit base (k + 1) a inMem =
      extractLoop m limit base k (a + 4 + (pad (name ++ [0])).length) (inMem || hasPrefix name) := by
  rw [holds_append, be32_length] at h
  obtain ⟨x, hx, hxe⟩ := load32_be h.1 (by decide)
  obtain ⟨hstring, _⟩ := holds_append.mp h.2
  obtain ⟨d, hd, hiff⟩ := strncmp_spec hstring hname prefix_no_zero
  have hd : strncmp m 6 (a + 4) MEMORY = .ok d := hd
  have hnext : align (a + 4) (toInt name.length + 4) = a + 4 + (pad (name ++ [0])).length := by
    rw [toInt_small hsmall, pad_length, List.length_append, List.length_singleton]
    have he := align_eq (a := a + 4) (n := name.length + 4) (by omega)
    rw [Nat.cast_add] at he
    refine he.trans ?_
    omega
  rw [extractLoop, hx, ok_bind]
  simp only [hxe]
  rw [if_pos trivial, strlen_eq hstring hname hlimit, ok_bind, hd, ok_bind, hnext]
  congr 1
  by_cases hz : d = 0
  · rw [if_pos hz]
    have hp : hasPrefix name = true := decide_eq_true (hiff.mp hz)
    rw [hp, Bool.or_true]
  · rw [if_neg hz]
    have hp : hasPrefix name = false := decide_eq_false fun h => hz (hiff.mpr h)
    rw [hp, Bool.or_false]

-- The name of a property is a string of the strings block.
theorem holds_stringAt {off : Nat} (hs : Holds m base strings) (h0 : (0 : UInt8) ∈ strings.drop off) :
    Holds m (base + off) (stringAt strings off ++ [0]) ∧ (0 : UInt8) ∉ stringAt strings off := by
  have hoff : off ≤ strings.length := by
    by_contra hgt
    rw [List.drop_eq_nil_of_le (by omega)] at h0
    cases h0
  have hnot : ∀ c ∈ stringAt strings off, c ≠ 0 := fun c hc => by
    simpa using List.mem_takeWhile_imp hc
  have hsplit : strings.drop off = stringAt strings off ++ (strings.drop off).dropWhile (· ≠ 0) :=
    (List.takeWhile_append_dropWhile).symm
  have hhead := List.head?_dropWhile_not (· ≠ (0 : UInt8)) (strings.drop off)
  generalize (strings.drop off).dropWhile (· ≠ 0) = rest at hsplit hhead
  refine ⟨?_, fun hin => hnot 0 hin rfl⟩
  cases rest with
  | nil =>
      rw [List.append_nil] at hsplit
      exact absurd rfl (hnot 0 (hsplit ▸ h0))
  | cons c rest =>
      obtain rfl : c = 0 := by simpa using hhead
      have hall : strings = strings.take off ++ (stringAt strings off ++ [0] ++ rest) := by
        rw [List.append_assoc, List.singleton_append, ← hsplit, List.take_append_drop]
      rw [hall] at hs
      have hdrop := (holds_append.mp hs).2
      rw [List.length_take_of_le hoff] at hdrop
      exact (holds_append.mp hdrop).1

theorem reg_no_zero : (0 : UInt8) ∉ REG := by decide

-- A property is returned, or skipped.
theorem extractLoop_prop (ha : a % 4 = 0) (h : Holds m a p.encode) (hs : Holds m base strings)
    (hp : p.WellFormed strings) (hsmall : p.encode.length < 2147483648)
    (hend : a + p.encode.length + 4 ≤ 18446744073709551616) :
    extractLoop m limit base (p.nops + 1 + k) a inMem =
      if inMem && isReg strings p then .ok (some (regOf p))
      else extractLoop m limit base k (a + p.encode.length) inMem := by
  have hlen : p.encode.length = 4 * p.nops + (12 + (pad p.data).length) := by
    unfold Property.encode
    simp only [List.length_append, encodeNops_length, be32_length]
    omega
  have hpad := pad_length (l := p.data)
  unfold Property.encode at h
  rw [holds_append, encodeNops_length] at h
  obtain ⟨hnops, h⟩ := h
  rw [holds_append, be32_length] at h
  obtain ⟨htoken, h⟩ := h
  rw [holds_append, be32_length] at h
  obtain ⟨hlength, h⟩ := h
  rw [holds_append, be32_length] at h
  obtain ⟨hoff, hdata⟩ := h
  rw [Nat.add_assoc, extractLoop_nops hnops, Nat.add_comm 1 k, hlen,
    show a + (4 * p.nops + (12 + (pad p.data).length)) = a + 4 * p.nops + 12 + (pad p.data).length by omega]
  rw [hlen] at hsmall hend
  have hb : (a + 4 * p.nops) % 4 = 0 := by omega
  have hdlt : p.data.length < 2147483648 := by omega
  have hbend : a + 4 * p.nops + p.data.length + 16 ≤ 18446744073709551616 := by omega
  generalize a + 4 * p.nops = b at *
  obtain ⟨x, hx, hxe⟩ := load32_be htoken (by decide)
  obtain ⟨y, hy, hye⟩ := load32_be hlength (by omega)
  obtain ⟨z, hz, hze⟩ := load32_be hoff hp.1
  obtain ⟨hname, hnz⟩ := holds_stringAt hs hp.2
  obtain ⟨d, hd, hiff⟩ := strcmp_spec hname hnz reg_no_zero
  have hdata : Holds m (b + 4 + 8) (pad p.data) := hdata
  have hnext : align (b + 4 + 8) ((p.data.length : Int) + 3) = b + 12 + (pad p.data).length := by
    have he := align_eq (a := b + 4 + 8) (n := p.data.length + 3) (by omega)
    rw [Nat.cast_add] at he
    refine he.trans ?_
    omega
  rw [extractLoop, hx, ok_bind]
  simp only [hxe]
  rw [if_neg (by decide), if_neg (by decide), if_pos trivial, hy, ok_bind, hz, ok_bind]
  simp only [hye, hze]
  cases inMem with
  | false => simp [hnext]
  | true =>
      have hfound : decide (d = 0 ∧ p.data.length ≥ 16) = isReg strings p := by
        unfold isReg
        rw [decide_eq_decide]
        exact and_congr_left fun _ => hiff
      simp only [hd, ok_bind, pure_eq_ok, hfound, Bool.true_and, hnext, if_true]
      by_cases hreg : isReg strings p = true
      · rw [if_pos hreg, if_pos hreg]
        obtain ⟨_, hlarge⟩ := of_decide_eq_true hreg
        have hfirst : pad p.data = p.data.take 8 ++ ((p.data.drop 8).take 8 ++
            ((p.data.drop 8).drop 8 ++ List.replicate ((4 - p.data.length % 4) % 4) 0)) := by
          rw [pad, ← List.append_assoc ((p.data.drop 8).take 8), List.take_append_drop,
            ← List.append_assoc, List.take_append_drop]
        have h8 : (p.data.take 8).length = 8 := by
          rw [List.length_take]
          omega
        have h16 : ((p.data.drop 8).take 8).length = 8 := by
          rw [List.length_take, List.length_drop]
          omega
        rw [hfirst, holds_append, h8, holds_append] at hdata
        obtain ⟨u, hu, hue⟩ := load64_be hdata.1 h8
        obtain ⟨v, hv, hve⟩ := load64_be hdata.2.1 h16
        rw [hu, ok_bind, hv, ok_bind, hue, hve]
        rfl
      · rw [if_neg hreg, if_neg hreg]

-- The properties of a node: the first reg property is returned, if the flag is set.
theorem extractLoop_props (ha : a % 4 = 0) (h : Holds m a (encodeProps props)) (hs : Holds m base strings)
    (hp : ∀ p ∈ props, p.WellFormed strings) (hsmall : (encodeProps props).length < 2147483648)
    (hend : a + (encodeProps props).length + 4 ≤ 18446744073709551616) :
    extractLoop m limit base (propTokens props + k) a inMem =
      ((if inMem then props.filter (isReg strings) else []).head?).elim
        (extractLoop m limit base k (a + (encodeProps props).length) inMem)
        fun p => .ok (some (regOf p)) := by
  induction props generalizing a with
  | nil =>
      have hnone : (if inMem then [].filter (isReg strings) else []) = [] := by
        rw [List.filter_nil, ite_self]
      rw [hnone]
      unfold propTokens encodeProps
      simp only [List.map_nil, List.sum_nil, Nat.zero_add, List.flatten_nil, List.length_nil, Nat.add_zero,
        List.head?_nil, Option.elim_none]
  | cons p props ih =>
      rw [encodeProps_cons] at h hsmall hend ⊢
      rw [List.length_append] at hsmall hend ⊢
      obtain ⟨hfirst, hrest⟩ := holds_append.mp h
      have hwf := List.forall_mem_cons.mp hp
      have hlen4 : p.encode.length % 4 = 0 := by
        unfold Property.encode
        simp only [List.length_append, encodeNops_length, be32_length, pad_length]
        omega
      have hcount : propTokens (p :: props) + k = p.nops + 1 + (propTokens props + k) := by
        unfold propTokens
        rw [List.map_cons, List.sum_cons]
        omega
      rw [hcount, extractLoop_prop ha hfirst hs hwf.1 (by omega) (by omega),
        ih (by omega) hrest hwf.2 (by omega) (by omega), Nat.add_assoc]
      cases inMem with
      | false => simp
      | true =>
          by_cases hreg : isReg strings p = true
          · simp [hreg]
          · simp [hreg]

theorem elim_append {α β : Type} (l k : List α) (x : β) (f : α → β) :
    ((l ++ k).head?).elim x f = (l.head?).elim ((k.head?).elim x f) f := by
  cases l <;> rfl

-- The flag behind the nodes
def Nodes.flag (inMem : Bool) : Nodes → Bool
  | .none => inMem
  | .node _ _ _ _ _ _ => false

theorem Property.encode_length : p.encode.length % 4 = 0 := by
  unfold Property.encode
  simp only [List.length_append, encodeNops_length, be32_length, pad_length]
  omega

theorem encodeProps_length (props : List Property) : (encodeProps props).length % 4 = 0 := by
  induction props with
  | nil => rfl
  | cons p props ih =>
      have hp := p.encode_length
      rw [encodeProps_cons, List.length_append]
      omega

theorem Nodes.encode_length : t.encode.length % 4 = 0 := by
  induction t with
  | none => rfl
  | node nops name props children endNops rest ihChildren ihRest =>
      have hp := encodeProps_length props
      unfold Nodes.encode
      simp only [List.length_append, encodeNops_length, be32_length, pad_length]
      omega

-- The loop over nodes: the first property that it accepts is returned, and else it comes to
-- their end. The induction is on the tree; the first child of a node is read with the flag
-- of the node, and every end of a node clears it.
theorem extractLoop_nodes (limit k : Nat) (inMem : Bool) (ha : a % 4 = 0) (h : Holds m a t.encode)
    (hs : Holds m base strings) (ht : t.WellFormed strings) (hlimit : t.encode.length < limit)
    (hsmall : t.encode.length < 2147483648) (hend : a + t.encode.length + 4 ≤ 18446744073709551616) :
    extractLoop m limit base (t.tokens + k) a inMem =
      ((prefixRegs strings inMem t).head?).elim
        (extractLoop m limit base k (a + t.encode.length) (t.flag inMem))
        fun c => .ok (some (regOf c.2)) := by
  induction t generalizing a k inMem with
  | none => simp [Nodes.tokens, Nodes.encode, prefixRegs, Nodes.flag]
  | node nops name props children endNops rest ihChildren ihRest =>
      obtain ⟨hname, hprops, hchildren, hrest⟩ := ht
      unfold Nodes.encode at h hlimit hsmall hend ⊢
      have hpad := pad_length (l := name ++ [0])
      rw [List.length_append, List.length_singleton] at hpad
      simp only [List.length_append, encodeNops_length, be32_length] at hlimit hsmall hend ⊢
      have hprops4 : (encodeProps props).length % 4 = 0 := encodeProps_length props
      have hchildren4 : children.encode.length % 4 = 0 := Nodes.encode_length
      obtain ⟨hnops, h⟩ := holds_append.mp h
      rw [encodeNops_length, ← List.append_assoc] at h
      obtain ⟨hbegin, h⟩ := holds_append.mp h
      rw [List.length_append, be32_length] at h
      obtain ⟨hpropsAt, h⟩ := holds_append.mp h
      obtain ⟨hchildrenAt, h⟩ := holds_append.mp h
      obtain ⟨hendNops, h⟩ := holds_append.mp h
      rw [encodeNops_length] at h
      obtain ⟨hendNode, hrestAt⟩ := holds_append.mp h
      rw [be32_length] at hrestAt
      have hcount : (Nodes.node nops name props children endNops rest).tokens + k =
          nops + (propTokens props + (children.tokens + (endNops + (rest.tokens + k + 1))) + 1) := by
        rw [Nodes.tokens]
        omega
      rw [hcount, extractLoop_nops hnops,
        extractLoop_beginNode (by omega) hbegin hname (by omega) (by omega) (by omega)]
      generalize hb : a + 4 * nops + 4 + (pad (name ++ [0])).length = b
      rw [show a + 4 * nops + (4 + (pad (name ++ [0])).length) = b by omega] at *
      rw [extractLoop_props (by omega) hpropsAt hs hprops (by omega) (by omega),
        ihChildren _ _ (by omega) hchildrenAt hchildren (by omega) (by omega) (by omega),
        extractLoop_nops hendNops, extractLoop_endNode hendNode,
        ihRest _ _ (by omega) hrestAt hrest (by omega) (by omega) (by omega)]
      have hflag : rest.flag false = false := by cases rest <;> rfl
      have haddr : b + (encodeProps props).length + children.encode.length + 4 * endNops + 4 +
          rest.encode.length = a + (4 * nops + (4 + ((pad (name ++ [0])).length +
            ((encodeProps props).length + (children.encode.length +
              (4 * endNops + (4 + rest.encode.length))))))) := by omega
      rw [hflag, haddr, Nodes.flag, prefixRegs, elim_append, elim_append]
      generalize (inMem || hasPrefix name) = flag
      cases flag with
      | false => rfl
      | true =>
          simp only [if_true]
          cases props.filter (isReg strings) <;> rfl

theorem propTokens_le (props : List Property) : 4 * propTokens props ≤ (encodeProps props).length := by
  induction props with
  | nil => exact Nat.zero_le _
  | cons p props ih =>
      unfold propTokens at *
      rw [encodeProps_cons, List.length_append, List.map_cons, List.sum_cons]
      unfold Property.encode
      simp only [List.length_append, encodeNops_length, be32_length]
      omega

theorem Nodes.tokens_le : 4 * t.tokens ≤ t.encode.length := by
  induction t with
  | none => exact Nat.zero_le _
  | node nops name props children endNops rest ihChildren ihRest =>
      have hp := propTokens_le props
      unfold Nodes.encode Nodes.tokens
      simp only [List.length_append, encodeNops_length, be32_length]
      omega

-- A flattened device tree in the memory: the structure block of `t` and the strings block
-- are all that may be read. They lie in the 1 GB that the kernel has mapped when it starts.
structure Flattened (m : Memory) (dtbVaddr offDtStruct offDtStrings : Nat) (strings : Bytes) (t : Nodes)
    (endNops : Nat) : Prop where
  struct : Holds m (dtbVaddr + fdt32ToCpu offDtStruct) (encodeBlock t endNops)
  names : Holds m (dtbVaddr + fdt32ToCpu offDtStrings) strings
  inside : ∀ a, m.inside a = true →
    (dtbVaddr + fdt32ToCpu offDtStruct ≤ a ∧
      a < dtbVaddr + fdt32ToCpu offDtStruct + (encodeBlock t endNops).length) ∨
    (dtbVaddr + fdt32ToCpu offDtStrings ≤ a ∧ a < dtbVaddr + fdt32ToCpu offDtStrings + strings.length)
  tree : t.WellFormed strings
  aligned : (dtbVaddr + fdt32ToCpu offDtStruct) % 4 = 0
  small : (encodeBlock t endNops).length ≤ 1073741824
  top : dtbVaddr + fdt32ToCpu offDtStruct + (encodeBlock t endNops).length ≤ 18446744073709551616

variable {dtbVaddr offDtStruct offDtStrings endNops : Nat}

-- What extract_memory_info returns for it
theorem extractMemoryInfo_eq (h : Flattened m dtbVaddr offDtStruct offDtStrings strings t endNops)
    (hlimit : (encodeBlock t endNops).length < limit) :
    extractMemoryInfo m limit dtbVaddr offDtStruct offDtStrings =
      .ok (((prefixRegs strings false t).head?).map fun c => regOf c.2) := by
  have hlen : (encodeBlock t endNops).length = t.encode.length + 4 * endNops + 4 := by
    unfold encodeBlock
    rw [List.length_append, List.length_append, encodeNops_length, be32_length]
    omega
  have hsmall := h.small
  have htop := h.top
  have hstruct := h.struct
  rw [hlen] at hlimit hsmall htop
  unfold encodeBlock at hstruct
  obtain ⟨htree, hstruct⟩ := holds_append.mp hstruct
  obtain ⟨hnops, hend⟩ := holds_append.mp hstruct
  rw [encodeNops_length] at hend
  have htokens := t.tokens_le
  obtain ⟨fuel, hfuel⟩ : ∃ fuel, limit = t.tokens + (endNops + (fuel + 1)) :=
    ⟨limit - t.tokens - endNops - 1, by omega⟩
  have hrun := extractLoop_nodes limit (endNops + (fuel + 1)) false
    h.aligned htree h.names h.tree (by omega) (by omega) (by omega)
  rw [← hfuel, extractLoop_nops hnops, extractLoop_end hend] at hrun
  unfold extractMemoryInfo
  rw [hrun]
  cases (prefixRegs strings false t).head? <;> rfl

-- The first reg property that the flag lets through, if there is one, is that of a node that
-- describes memory.
def FirstIsMemory (strings : Bytes) (t : Nodes) : Prop :=
  ∀ c, (prefixRegs strings false t).head? = some c → isMemory c.1 = true

theorem hasPrefix_of_isMemory {name : Bytes} (h : isMemory name = true) : hasPrefix name = true := by
  refine decide_eq_true ?_
  rcases of_decide_eq_true h with rfl | hp
  · exact List.prefix_refl _
  · exact (List.prefix_append _ _).trans hp

-- The nodes that describe memory are among those whose name has the prefix.
theorem memoryRegs_eq (strings : Bytes) (t : Nodes) (inherited : Bool) :
    ((prefixRegs strings inherited t).filter fun c => isMemory c.1).map Prod.snd = memoryRegs strings t := by
  induction t generalizing inherited with
  | none => rfl
  | node nops name props children endNops rest ihChildren ihRest =>
      rw [prefixRegs, memoryRegs, List.filter_append, List.filter_append, List.map_append, List.map_append,
        ihChildren, ihRest]
      congr 1
      by_cases hname : isMemory name = true
      · have hp := hasPrefix_of_isMemory hname
        simp [hname, hp, List.filter_map, Function.comp_def]
      · have hno : isMemory name = false := Bool.eq_false_iff.mpr hname
        split <;> simp [hno, List.filter_map, Function.comp_def]

-- extract_memory_info finds the memory when the flag has let nothing else through before; else
-- it takes what belongs to another node.
theorem extract_exact (h : Flattened m dtbVaddr offDtStruct offDtStrings strings t endNops)
    (hlimit : (encodeBlock t endNops).length < limit) :
    (FirstIsMemory strings t → extractMemoryInfo m limit dtbVaddr offDtStruct offDtStrings =
      .ok (((memoryRegs strings t).head?).map regOf)) ∧
    (¬FirstIsMemory strings t → ∃ c, (prefixRegs strings false t).head? = some c ∧ isMemory c.1 = false ∧
      extractMemoryInfo m limit dtbVaddr offDtStruct offDtStrings = .ok (some (regOf c.2))) := by
  rw [extractMemoryInfo_eq h hlimit, ← memoryRegs_eq strings t false]
  unfold FirstIsMemory
  cases prefixRegs strings false t with
  | nil => exact ⟨fun _ => rfl, fun hno => absurd (fun c hc => by cases hc) hno⟩
  | cons c l =>
      constructor
      · intro hall
        have hfilter : (c :: l).filter (fun c => isMemory c.1) = c :: l.filter fun c => isMemory c.1 :=
          List.filter_cons_of_pos (hall c rfl)
        rw [hfilter]
        rfl
      · intro hno
        refine ⟨c, rfl, Bool.eq_false_iff.mpr fun hc => hno fun d hd => ?_, rfl⟩
        obtain rfl := Option.some.inj hd
        exact hc

-- A memory with a structure block at 0 and the strings block behind it, at 4096
def memoryOf (block strings : Bytes) : Memory where
  byte := fun a => if a < 4096 then block.getD a 0 else strings.getD (a - 4096) 0
  inside := fun a => a < block.length || (4096 ≤ a && a < 4096 + strings.length)

theorem holds_memoryOf {block : Bytes} (strings : Bytes) (hsmall : block.length ≤ 4096) :
    Holds (memoryOf block strings) 0 block ∧ Holds (memoryOf block strings) 4096 strings := by
  refine ⟨fun i hi => ?_, fun i hi => ?_⟩
  · have hlt : i < 4096 := by omega
    refine ⟨by simp [memoryOf, hi], ?_⟩
    unfold memoryOf
    simp only [Nat.zero_add, if_pos hlt]
    exact List.getD_eq_getElem _ _ hi
  · have hge : ¬4096 + i < 4096 := by omega
    refine ⟨by simp [memoryOf, hi], ?_⟩
    unfold memoryOf
    simp only [if_neg hge, Nat.add_sub_cancel_left]
    exact List.getD_eq_getElem _ _ hi

theorem flattened_memoryOf (ht : t.WellFormed strings) (hsmall : (encodeBlock t endNops).length ≤ 4096) :
    Flattened (memoryOf (encodeBlock t endNops) strings) 0 0 0x100000 strings t endNops := by
  obtain ⟨hblock, hstrings⟩ := holds_memoryOf strings hsmall
  have hoff : fdt32ToCpu 0x100000 = 4096 := by decide
  have hzero : fdt32ToCpu 0 = 0 := by decide
  refine ⟨?_, ?_, fun a ha => ?_, ht, ?_, by omega, ?_⟩
  · rwa [hzero]
  · rwa [hoff]
  · rw [hzero, hoff]
    simp only [memoryOf, Bool.or_eq_true, Bool.and_eq_true, decide_eq_true_eq] at ha
    omega
  · rw [hzero]
  · rw [hzero]
    omega

def regString : Bytes := REG ++ [0]

def memoryReg : Property := ⟨0, 0, be32 0 ++ be32 0x80000000 ++ be32 0 ++ be32 0x8000000⟩

-- The memory of the emulator, alone and behind a memory controller
def memoryNode : Nodes := .node 0 (MEMORY ++ bytes ['@', '8']) [memoryReg] .none 0 .none

def memoryTree : Nodes := .node 0 [] [] memoryNode 0 .none

def controllerReg : Property := ⟨0, 0, be32 0 ++ be32 0x10000 ++ be32 0 ++ be32 0x1000⟩

def controllerTree : Nodes :=
  .node 0 [] [] (.node 0 (MEMORY ++ bytes ['-', 'c', '@', '1']) [controllerReg] .none 0 memoryNode) 0 .none

theorem memoryTree_wellFormed : memoryTree.WellFormed regString := by
  refine ⟨by decide, by simp, ⟨by decide, ?_, trivial, trivial⟩, trivial⟩
  intro p hp
  obtain rfl := List.mem_singleton.mp hp
  exact ⟨by decide, by decide⟩

theorem controllerTree_wellFormed : controllerTree.WellFormed regString := by
  refine ⟨by decide, by simp, ⟨by decide, ?_, trivial, memoryTree_wellFormed.2.2.1⟩, trivial⟩
  intro p hp
  obtain rfl := List.mem_singleton.mp hp
  exact ⟨by decide, by decide⟩

theorem flattened_memoryTree :
    Flattened (memoryOf (encodeBlock memoryTree 0) regString) 0 0 0x100000 regString memoryTree 0 :=
  flattened_memoryOf memoryTree_wellFormed (by decide +kernel)

theorem flattened_controllerTree :
    Flattened (memoryOf (encodeBlock controllerTree 0) regString) 0 0 0x100000 regString controllerTree 0 :=
  flattened_memoryOf controllerTree_wellFormed (by decide +kernel)

theorem extract_exact_memory :
    extractMemoryInfo (memoryOf (encodeBlock memoryTree 0) regString) 4096 0 0 0x100000 =
      .ok (some (0x80000000, 0x8000000)) := by
  have hlimit : (encodeBlock memoryTree 0).length < 4096 := by decide +kernel
  have hhead : (prefixRegs regString false memoryTree).head? =
      some (MEMORY ++ bytes ['@', '8'], memoryReg) := by decide +kernel
  have hfirst : FirstIsMemory regString memoryTree := by
    intro c hc
    obtain rfl := Option.some.inj (hhead.symm.trans hc)
    decide +kernel
  rw [(extract_exact flattened_memoryTree hlimit).1 hfirst]
  decide +kernel

-- The registers of a memory controller are taken for the memory.
theorem extract_controller :
    Flattened (memoryOf (encodeBlock controllerTree 0) regString) 0 0 0x100000 regString controllerTree 0 ∧
      extractMemoryInfo (memoryOf (encodeBlock controllerTree 0) regString) 4096 0 0 0x100000 ≠
        .ok (((memoryRegs regString controllerTree).head?).map regOf) := by
  refine ⟨flattened_controllerTree, fun heq => ?_⟩
  have hlimit : (encodeBlock controllerTree 0).length < 4096 := by decide +kernel
  rw [extractMemoryInfo_eq flattened_controllerTree hlimit] at heq
  exact absurd (Except.ok.inj heq) (by decide +kernel)

end Ucore.Dtb
