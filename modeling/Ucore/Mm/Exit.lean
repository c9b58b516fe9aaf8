import Ucore.Mm.Prune
import Ucore.Mm.Trim

namespace Ucore.Mm

open Lib Pmm

variable {vm vm' : VM} {managed free : Finset Nat} {role role' : Nat → Role}
  {lk : Option Nat} {a d i j p q r s t u stop : Nat} {V W F : Nat → Prop} {mem : Nat → Words}

-- The directory `i` and the page table `J` below the root `r` are there; page tables are
-- counted through the directories.
def HasDir (role : Nat → Role) (r i : Nat) : Prop := ∃ d, role d = .dir r i

def HasTable (role : Nat → Role) (r J : Nat) : Prop :=
  ∃ d t, role d = .dir r (J / 512) ∧ role t = .table d (J % 512)

-- exit_range over the page tables `V` frees directory `i` as well.
def CutDir (role : Nat → Role) (r : Nat) (V : Nat → Prop) (i : Nat) : Prop :=
  (∃ J, V J ∧ J / 512 = i) ∧ ∀ J, V J → J / 512 = i → HasTable role r J

open Classical in
-- What exit_range over the page tables `V` leaves of the tables below the root `r`.
structure Exited (vm vm' : VM) (role role' : Nat → Role) (r : Nat) (V : Nat → Prop) : Prop where
  keep : ∀ p, (∀ i, role p ≠ .dir r i) → (∀ d i j, role d = .dir r i → role p ≠ .table d j) →
    role' p = role p
  dir : ∀ d i, role d = .dir r i → role' d = if CutDir role r V i then .free else .dir r i
  table : ∀ t d i j, role d = .dir r i → role t = .table d j →
    role' t = if V (i * 512 + j) then .free else if CutDir role r V i then .lost else .table d j
  mem : ∀ q, (role q).isNode = false → vm'.mem q = vm.mem q
  leaf : ∀ q u, role q = .root → u < UPAGES → leaf vm'.mem q u = leaf vm.mem q u
  npages : vm'.area.npages = vm.area.npages
  heap : vm'.heap = vm.heap
  room : vm'.room = vm.room

namespace Exited

-- What a page was used for before
theorem cases (h : Exited vm vm' role role' r V) (p : Nat) :
    role' p = role p ∨ (role p).isNode ∧ (role' p = .free ∨ role' p = .lost) := by
  by_cases hd : ∃ i, role p = .dir r i
  · obtain ⟨i, hi⟩ := hd
    have := h.dir p i hi
    have : (Role.dir r i).isNode = true := rfl
    grind
  · by_cases ht : ∃ d i j, role d = .dir r i ∧ role p = .table d j
    · obtain ⟨d, i, j, hd, ht⟩ := ht
      have := h.table p d i j hd ht
      have : (Role.table d j).isNode = true := rfl
      grind
    · left
      push Not at hd ht
      exact h.keep p hd ht

theorem dir_of (h : Exited vm vm' role role' r V) (hd : role' d = .dir q i) : role d = .dir q i := by
  have := h.cases d
  grind

theorem table_of (h : Exited vm vm' role role' r V) (ht : role' t = .table d j) : role t = .table d j := by
  have := h.cases t
  grind

theorem root_iff (h : Exited vm vm' role role' r V) (q : Nat) : role' q = .root ↔ role q = .root := by
  have := h.cases q
  have : (Role.root).isNode = true := rfl
  have := h.keep q
  grind

theorem congr (h : Exited vm vm' role role' r V) (hv : ∀ J, V J ↔ W J) :
    Exited vm vm' role role' r W := by
  obtain rfl : V = W := funext fun J => propext (hv J)
  exact h

end Exited

-- Without leaves the page tables are empty.
theorem Rep.empty_table (h : Rep vm managed role lk) (hno : ∀ u, u < UPAGES → leaf vm.mem r u = none)
    (hd : role d = .dir r i) (ht : role t = .table d j) {k : Nat} (hk : k < 512) : vm.mem t k = 0 := by
  rcases h.tree.tableEntry ht hk with h0 | ⟨lf, hm, hvalid, hf⟩
  · exact h0
  · obtain ⟨hr, hi, _⟩ := h.tree.dirUp hd
    obtain ⟨_, hj, _⟩ := h.tree.tableUp ht
    have hd' : dirIx (i * 262144 + j * 512 + k) = i := by
      unfold dirIx
      omega
    have ht' : tabIx (i * 262144 + j * 512 + k) = j := by
      unfold tabIx
      omega
    have hp' : pteIx (i * 262144 + j * 512 + k) = k := by
      unfold pteIx
      omega
    have hu : i * 262144 + j * 512 + k < UPAGES := by
      unfold UPAGES
      omega
    have hleaf : leaf vm.mem r (i * 262144 + j * 512 + k) = some lf :=
      (h.tree.leaf_iff hr hu).mpr ⟨d, t, by rw [hd']; exact hd, by rw [ht']; exact ht,
        by rw [hp']; exact hm, hvalid, hf⟩
    rw [hno _ hu] at hleaf
    cases hleaf

open Classical in
-- The uses of the pages when the tables `F` are given back: the tables below them are lost.
noncomputable def exitRole (role : Nat → Role) (F : Nat → Prop) (p : Nat) : Role :=
  if F p then .free
  else match role p with
    | .table d j => if F d then .lost else .table d j
    | ρ => ρ

theorem exitRole_free (hF : F p) : exitRole role F p = .free := if_pos hF

theorem exitRole_lost (hp : ¬F p) (ht : role p = .table d j) (hF : F d) : exitRole role F p = .lost := by
  simp only [exitRole, if_neg hp, ht, if_pos hF]

theorem exitRole_gone (h : F p ∨ ∃ d j, role p = .table d j ∧ F d) :
    exitRole role F p = .free ∨ exitRole role F p = .lost := by
  by_cases hp : F p
  · exact Or.inl (exitRole_free hp)
  · obtain ⟨d, j, ht, hd⟩ := h.resolve_left hp
    exact Or.inr (exitRole_lost hp ht hd)

theorem exitRole_keep (hp : ¬F p) (hno : ∀ d j, role p = .table d j → ¬F d) : exitRole role F p = role p := by
  unfold exitRole
  rw [if_neg hp]
  cases hr : role p with
  | table d j => simp only [if_neg (hno d j hr)]
  | _ => rfl

-- Without leaves all page tables that the range touches go.
theorem Rep.exitGives_table (h : Rep vm managed role lk) (hno : ∀ u, u < UPAGES → leaf vm.mem r u = none)
    (hd : role d = .dir r i) (ht : role t = .table d j) :
    (∃ s, ExitGives vm.mem role r a stop s t) ↔ Within a stop (i * 512 + j) := by
  refine (Gives.table_iff hd ht).trans (and_iff_left fun k hk => ?_)
  rw [h.empty_table hno hd ht hk, Nat.zero_and]

theorem exitGives_dir (h : Tree mem role) (hd : role d = .dir r i) :
    (∃ s, ExitGives mem role r a stop s d) ↔ CutDir role r (Within a stop) i := by
  refine (Gives.dir_iff hd).trans ⟨?_, ?_⟩
  · rintro ⟨⟨k, hk, hV⟩, hfilled⟩
    refine ⟨⟨_, hV, by omega⟩, fun J hJ he => ?_⟩
    have hsplit : i * 512 + J % 512 = J := by omega
    obtain ⟨t, ht⟩ := hfilled (J % 512) (Nat.mod_lt _ (by decide)) (by rw [hsplit]; exact hJ)
    exact ⟨d, t, by rw [he]; exact hd, ht⟩
  · rintro ⟨⟨J, hJ, he⟩, hall⟩
    have hsplit : i * 512 + J % 512 = J := by omega
    refine ⟨⟨J % 512, Nat.mod_lt _ (by decide), by rw [hsplit]; exact hJ⟩, fun k hk hV => ?_⟩
    obtain ⟨d', t, hd', ht⟩ := hall _ hV (by omega)
    rw [show (i * 512 + k) / 512 = i by omega] at hd'
    rw [show (i * 512 + k) % 512 = k by omega, h.dir_unique hd' hd] at ht
    exact ⟨t, ht⟩

theorem Trimmed.prune (ht : Trimmed vm vm' managed role F) (h : Tree vm.mem role)
    (hF : ∀ p, F p → (∃ q i, role p = .dir q i) ∨ ∃ d j, role p = .table d j) :
    Prune vm.mem vm'.mem role (exitRole role F) fun p => F p ∨ ∃ d j, role p = .table d j ∧ F d := by
  have hroot : ∀ q, role q = .root → ¬(F q ∨ ∃ d j, role q = .table d j ∧ F d) := by
    rintro q hq (hno | ⟨d, j, hno, _⟩)
    · rcases hF q hno with ⟨_, _, hno⟩ | ⟨_, _, hno⟩ <;> rw [hq] at hno <;> cases hno
    · rw [hq] at hno
      cases hno
  have hdir : ∀ d q i, role d = .dir q i → (F d ∨ ∃ d' j, role d = .table d' j ∧ F d') → F d := by
    rintro d q i hd (hd' | ⟨_, _, hno, _⟩)
    · exact hd'
    · rw [hd] at hno
      cases hno
  refine ⟨?_, ?_, ?_, ?_, ?_, ?_, ?_, ?_, ?_, ?_⟩
  · rintro p (hp | ⟨d, j, hp, _⟩)
    · rcases hF p hp with ⟨_, _, hp⟩ | ⟨_, _, hp⟩ <;> rw [hp] <;> rfl
    · rw [hp]
      rfl
  · intro p hp
    rcases exitRole_gone hp with hgone | hgone <;> rw [hgone] <;> exact ⟨by simp, rfl⟩
  · intro p hp
    exact exitRole_keep (fun hFp => hp (Or.inl hFp)) fun d j hd hFd => hp (Or.inr ⟨d, j, hd, hFd⟩)
  · intro d q i hd hq
    exact absurd hq (hroot q (h.dirUp hd).1)
  · intro t d j hd hX
    obtain ⟨q, i, hup⟩ := (h.tableUp hd).1
    exact Or.inr ⟨d, j, hd, hdir d q i hup hX⟩
  · intro d q i hd hX _
    exact ht.gone d q i (hdir d q i hd hX) (Or.inl hd)
  · intro t d j htab hX hno
    rcases hX with hFt | ⟨d', j', htab', hFd⟩
    · exact ht.gone t d j hFt (Or.inr htab)
    · rw [htab] at htab'
      cases htab'
      exact absurd (Or.inl hFd) hno
  · intro q k hq _ hno
    refine ht.rest q k fun p hFp => ⟨fun hp => hno p hp (Or.inl hFp), fun hp => ?_⟩
    obtain ⟨q', i, hup⟩ := (h.tableUp hp).1
    rw [hq] at hup
    cases hup
  · intro d q i j hd _ hno
    refine ht.rest d j fun p hFp => ⟨fun hp => ?_, fun hp => hno p hp (Or.inl hFp)⟩
    have hup := (h.dirUp hp).1
    rw [hd] at hup
    cases hup
  · intro t d j k htab _
    refine ht.rest t k fun p _ => ⟨fun hp => ?_, fun hp => ?_⟩
    · have hup := (h.dirUp hp).1
      rw [htab] at hup
      cases hup
    · obtain ⟨q', i, hup⟩ := (h.tableUp hp).1
      rw [htab] at hup
      cases hup

-- exit_range when the pages have gone before
theorem Rep.exited (h : Rep vm managed role lk) (hno : ∀ u, u < UPAGES → leaf vm.mem r u = none)
    (ht : Trimmed vm vm' managed role fun p => ∃ s, ExitGives vm.mem role r a stop s p) :
    ∃ role', Rep vm' managed role' lk ∧ Exited vm vm' role role' r (Within a stop) := by
  let F : Nat → Prop := fun p => ∃ s, ExitGives vm.mem role r a stop s p
  have hF : ∀ p, F p → (∃ i, role p = .dir r i) ∨ ∃ d i j, role d = .dir r i ∧ role p = .table d j :=
    fun p ⟨_, hp⟩ => hp.below
  have hprune : Prune vm.mem vm'.mem role (exitRole role F) fun p => F p ∨ ∃ d j, role p = .table d j ∧ F d := by
    refine ht.prune h.tree fun p hp => ?_
    rcases hF p hp with ⟨i, hp⟩ | ⟨d, i, j, _, hp⟩
    · exact Or.inl ⟨r, i, hp⟩
    · exact Or.inr ⟨d, j, hp⟩
  have hFt : ∀ d i t j, role d = .dir r i → role t = .table d j → (F t ↔ Within a stop (i * 512 + j)) :=
    fun _ _ _ _ => h.exitGives_table hno
  have hFd : ∀ d i, role d = .dir r i → (F d ↔ CutDir role r (Within a stop) i) := fun _ _ => exitGives_dir h.tree
  have hnode : ∀ p, (∀ i, role p ≠ .dir r i) → (∀ d i j, role d = .dir r i → role p ≠ .table d j) →
      ¬F p ∧ ∀ d j, role p = .table d j → ¬F d := by
    intro p hp hp'
    refine ⟨fun hFp => ?_, fun d j hd hFd => ?_⟩
    · rcases hF p hFp with ⟨i, hi⟩ | ⟨d, i, j, hd, ht⟩
      · exact hp i hi
      · exact hp' d i j hd ht
    · obtain ⟨q, i, hup⟩ := (h.tree.tableUp hd).1
      rcases hF d hFd with ⟨i', hi'⟩ | ⟨_, _, _, _, hno⟩
      · exact hp' d i' j hi' hd
      · rw [hup] at hno
        cases hno
  obtain ⟨free, l, hl, hfree⟩ := ht.list
  have hvm : vm' = { vm with area := vm'.area, mem := vm'.mem } := by
    have hheap := ht.heap
    have hroom := ht.room
    cases vm'
    subst hheap hroom
    rfl
  have hrep := h.prune hprune (fun t d j k htab hX hk => ?_) hl (fun p => ?_) (fun p ρ hρ => ?_) fun f hf => ?_
  · refine ⟨exitRole role F, ?_, fun p hp hp' => ?_, fun d i hd => ?_, fun t d i j hd htab => ?_, fun q hq => ?_,
      fun q u hq hu => ?_, ht.npages, ht.heap, ht.room⟩
    · rw [hvm]
      exact hrep.1
    · obtain ⟨h₁, h₂⟩ := hnode p hp hp'
      exact exitRole_keep h₁ h₂
    · split_ifs with hc
      · exact exitRole_free ((hFd d i hd).mpr hc)
      · refine (exitRole_keep (fun hFp => hc ((hFd d i hd).mp hFp)) fun d' j hd' => ?_).trans hd
        rw [hd] at hd'
        cases hd'
    · split_ifs with hV hc
      · exact exitRole_free ((hFt d i t j hd htab).mpr hV)
      · exact exitRole_lost (fun hFp => hV ((hFt d i t j hd htab).mp hFp)) htab ((hFd d i hd).mpr hc)
      · refine (exitRole_keep (fun hFp => hV ((hFt d i t j hd htab).mp hFp)) fun d' j' htab' hFp => ?_).trans htab
        rw [htab] at htab'
        cases htab'
        exact hc ((hFd d i hd).mp hFp)
    · funext k
      refine ht.rest q k fun p _ => ⟨fun hp => ?_, fun hp => ?_⟩
      · rw [(h.tree.dirUp hp).1] at hq
        cases hq
      · obtain ⟨r', i, hup⟩ := (h.tree.tableUp hp).1
        rw [hup] at hq
        cases hq
    · refine hrep.2 q u hq (fun hX => ?_) hu
      obtain ⟨h₁, h₂⟩ := hnode q (fun i => by rw [hq]; simp) fun d i j _ => by rw [hq]; simp
      rcases hX with hFq | ⟨d, j, hd, hFd'⟩
      · exact h₁ hFq
      · exact h₂ d j hd hFd'
  · have hdir : ∃ i, role d = .dir r i := by
      rcases hX with hFt' | ⟨d', j', htab', hFd'⟩
      · rcases hF t hFt' with ⟨i, hi⟩ | ⟨d', i, j', hd', htab'⟩
        · rw [htab] at hi
          cases hi
        · rw [htab] at htab'
          cases htab'
          exact ⟨i, hd'⟩
      · rw [htab] at htab'
        cases htab'
        obtain ⟨q, i, hup⟩ := (h.tree.tableUp htab).1
        rcases hF d hFd' with hi | ⟨_, _, _, _, hi⟩
        · exact hi
        · rw [hup] at hi
          cases hi
    obtain ⟨i, hd⟩ := hdir
    exact h.empty_table hno hd htab hk
  · rw [hfree]
    by_cases hFp : F p
    · exact iff_of_true (exitRole_free hFp) (Or.inr hFp)
    · rw [or_iff_left hFp]
      by_cases hlost : ∃ d j, role p = .table d j ∧ F d
      · obtain ⟨d, j, hp, hFd'⟩ := hlost
        rw [exitRole_lost hFp hp hFd', hp]
        simp
      · rw [exitRole_keep hFp fun d j hp hFd' => hlost ⟨d, j, hp, hFd'⟩]
  · have hplain : role p = ρ → ¬F p ∧ ∀ d j, role p = .table d j → ¬F d := by
      rintro rfl
      refine hnode p (fun i hp => ?_) fun d i j _ hp => ?_
      · rcases hρ with hρ | hρ <;> rw [hp] at hρ <;> cases hρ
      · rcases hρ with hρ | hρ <;> rw [hp] at hρ <;> cases hρ
    constructor
    · intro hp
      by_cases hX : F p ∨ ∃ d j, role p = .table d j ∧ F d
      · exfalso
        rcases exitRole_gone hX with hgone | hgone <;> rw [hgone] at hp <;> rcases hρ with rfl | rfl <;> cases hp
      · rw [← hprune.keep p hX]
        exact hp
    · intro hp
      obtain ⟨h₁, h₂⟩ := hplain hp
      rw [exitRole_keep h₁ h₂, hp]
  · have hFf : ¬F f := (hnode f (fun i => by rw [hf]; simp) fun d i j _ => by rw [hf]; simp).1
    exact ⟨ht.ref f hFf, ht.lock f hFf⟩

end Ucore.Mm
