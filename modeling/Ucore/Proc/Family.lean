import Ucore.Lib.Chain
import Ucore.Proc.Step

namespace Ucore.Proc

open Ucore.Lib

-- The sibling list from `head`: older siblings along `optr`, younger ones back
-- along `yptr`. `before` is what the youngest has as its `yptr`.
def Siblings (procs : Addr → ProcStruct) (before head : Addr) (l : List Addr) : Prop :=
  Chain NULL (fun a => (procs a).optr) (fun a => (procs a).yptr) before head l

-- `n` steps along the parent pointers lead from a process of the list to initproc.
inductive Depth (procs : Addr → ProcStruct) (list : List Addr) (init : Addr) : Nat → Addr → Prop
  | zero : init ∈ list → Depth procs list init 0 init
  | succ {n : Nat} {a : Addr} : a ∈ list → a ≠ init → Depth procs list init n (procs a).parent →
      Depth procs list init (n + 1) a

-- The parent and sibling pointers form a tree. `dying` is the process whose
-- children do_exit is handing over (NULL when there is none): the first of those
-- left still points back to the child handed over last.
structure Family (procs : Addr → ProcStruct) (list : List Addr) (idle init dying : Addr) :
    Prop where
  nodup : list.Nodup
  null_notMem : NULL ∉ list
  idle_ne_null : idle ≠ NULL
  idle_notMem : idle ∉ list
  init_mem : init ∈ list
  init_parent : (procs init).parent = idle
  kids : ∀ a, a = idle ∨ a ∈ list → ∃ before l, (a ≠ dying → before = NULL) ∧
    Siblings procs before (procs a).cptr l ∧ ∀ b, b ∈ l ↔ b ∈ list ∧ (procs b).parent = a
  depth : ∀ a ∈ list, ∃ n, Depth procs list init n a

variable {procs procs' : Addr → ProcStruct} {list list' : List Addr} {idle init dying a c q x : Addr}

theorem Depth.mem {n : Nat} (h : Depth procs list init n a) : a ∈ list := by
  cases h with
  | zero h => exact h
  | succ h _ _ => exact h

theorem Depth.unique {n m : Nat} (h : Depth procs list init n a) (h' : Depth procs list init m a) :
    n = m := by
  induction h generalizing m with
  | zero _ =>
      cases h' with
      | zero _ => rfl
      | succ _ hne _ => exact absurd rfl hne
  | succ _ hne _ ih =>
      cases h' with
      | zero _ => exact absurd rfl hne
      | succ _ _ h' => rw [ih h']

theorem Depth.mono {n : Nat} (h : Depth procs list init n a) (hsub : ∀ b ∈ list, b ∈ list')
    (hparent : ∀ b ∈ list, (procs' b).parent = (procs b).parent) :
    Depth procs' list' init n a := by
  induction h with
  | zero hm => exact .zero (hsub _ hm)
  | succ hm hne _ ih => exact .succ (hsub _ hm) hne (by rw [hparent _ hm]; exact ih)

-- Handing `x` to initproc cuts every path through `x` short.
theorem Depth.adopt {n : Nat} (h : Depth procs list init n a) (hinit : init ∈ list)
    (hparent : ∀ b ∈ list, (procs' b).parent = if b = x then init else (procs b).parent) :
    ∃ m, Depth procs' list init m a := by
  induction h with
  | zero hm => exact ⟨0, .zero hm⟩
  | @succ n a hm hne _ ih =>
      obtain ⟨m, ih⟩ := ih
      by_cases hx : a = x
      · refine ⟨1, .succ hm hne ?_⟩
        rw [hparent a hm, if_pos hx]
        exact .zero hinit
      · refine ⟨m + 1, .succ hm hne ?_⟩
        rw [hparent a hm, if_neg hx]
        exact ih

theorem Depth.erase {n : Nat} (h : Depth procs list init n a) (ha : a ≠ x)
    (hleaf : ∀ b ∈ list, (procs b).parent ≠ x)
    (hparent : ∀ b ∈ list, (procs' b).parent = (procs b).parent) :
    Depth procs' (list.erase x) init n a := by
  induction h with
  | zero hm => exact .zero ((List.mem_erase_of_ne ha).mpr hm)
  | succ hm hne _ ih =>
      refine .succ ((List.mem_erase_of_ne ha).mpr hm) hne ?_
      rw [hparent _ hm]
      exact ih (hleaf _ hm)

namespace Family

theorem parent_mem (h : Family procs list idle init dying) (ha : a ∈ list) :
    (procs a).parent = idle ∧ a = init ∨ (procs a).parent ∈ list ∧ a ≠ init := by
  obtain ⟨n, hd⟩ := h.depth a ha
  cases hd with
  | zero _ => exact Or.inl ⟨h.init_parent, rfl⟩
  | succ _ hne hp => exact Or.inr ⟨hp.mem, hne⟩

theorem parent_known (h : Family procs list idle init dying) (ha : a ∈ list) :
    (procs a).parent = idle ∨ (procs a).parent ∈ list :=
  (h.parent_mem ha).imp And.left And.left

theorem init_ne_idle (h : Family procs list idle init dying) : init ≠ idle :=
  fun he => h.idle_notMem (he ▸ h.init_mem)

theorem ne_null (h : Family procs list idle init dying) (ha : a ∈ list) : a ≠ NULL :=
  fun he => h.null_notMem (he ▸ ha)

theorem parent_ne_self (h : Family procs list idle init dying) (ha : a ∈ list) :
    (procs a).parent ≠ a := by
  obtain ⟨n, hd⟩ := h.depth a ha
  cases hd with
  | zero _ => rw [h.init_parent]; exact h.init_ne_idle.symm
  | @succ n _ hm hne hp =>
      intro he
      have hd : Depth procs list init (n + 1) a := .succ hm hne hp
      rw [he] at hp
      have := hp.unique hd
      omega

theorem no_kids (h : Family procs list idle init dying) (ha : a = idle ∨ a ∈ list)
    (hc : (procs a).cptr = NULL) : ∀ b ∈ list, (procs b).parent ≠ a := by
  intro b hb hp
  obtain ⟨before, l, _, hl, hmem⟩ := h.kids a ha
  have hnil : l = [] := (Chain.nil_iff hl).mp hc
  have := (hmem b).mpr ⟨hb, hp⟩
  simp [hnil] at this

-- Only the pointers of the tree matter.
theorem congr (h : Family procs list idle init dying)
    (hparent : ∀ b, b = idle ∨ b ∈ list → (procs' b).parent = (procs b).parent)
    (hcptr : ∀ b, b = idle ∨ b ∈ list → (procs' b).cptr = (procs b).cptr)
    (hyptr : ∀ b, b = idle ∨ b ∈ list → (procs' b).yptr = (procs b).yptr)
    (hoptr : ∀ b, b = idle ∨ b ∈ list → (procs' b).optr = (procs b).optr) :
    Family procs' list idle init dying where
  nodup := h.nodup
  null_notMem := h.null_notMem
  idle_ne_null := h.idle_ne_null
  idle_notMem := h.idle_notMem
  init_mem := h.init_mem
  init_parent := by rw [hparent init (Or.inr h.init_mem), h.init_parent]
  kids := by
    intro a ha
    obtain ⟨before, l, hb, hl, hmem⟩ := h.kids a ha
    have hlist : ∀ b ∈ l, b ∈ list := fun b hb => ((hmem b).mp hb).1
    refine ⟨before, l, hb, ?_, fun b => ?_⟩
    · rw [hcptr a ha]
      exact Chain.congr hl (fun b hb => hoptr b (Or.inr (hlist b hb)))
        (fun b hb => hyptr b (Or.inr (hlist b hb)))
    · rw [hmem b]
      refine and_congr_right fun hb => ?_
      rw [hparent b (Or.inr hb)]
  depth := by
    intro a ha
    obtain ⟨n, hd⟩ := h.depth a ha
    exact ⟨n, hd.mono (fun _ hb => hb) (fun b hb => hparent b (Or.inr hb))⟩

-- set_links: a new process `c` becomes the youngest child of `q`.
theorem add (h : Family procs list idle init NULL) (hc : c ∉ list) (hnull : c ≠ NULL)
    (hidle : c ≠ idle) (hq : q ∈ list)
    (hparent : ∀ b, (procs' b).parent = if b = c then q else (procs b).parent)
    (hcptr : ∀ b, (procs' b).cptr = if b = q then c else if b = c then NULL else (procs b).cptr)
    (hyptr : ∀ b, (procs' b).yptr = if b = (procs q).cptr ∧ (procs q).cptr ≠ NULL then c
      else if b = c then NULL else (procs b).yptr)
    (hoptr : ∀ b, (procs' b).optr = if b = c then (procs q).cptr else (procs b).optr) :
    Family procs' (c :: list) idle init NULL where
  nodup := List.nodup_cons.mpr ⟨hc, h.nodup⟩
  null_notMem := by
    intro hm
    rcases List.mem_cons.mp hm with he | hm
    · exact hnull he.symm
    · exact h.null_notMem hm
  idle_ne_null := h.idle_ne_null
  idle_notMem := by
    intro hm
    rcases List.mem_cons.mp hm with he | hm
    · exact hidle he.symm
    · exact h.idle_notMem hm
  init_mem := List.mem_cons_of_mem _ h.init_mem
  init_parent := by
    have hne : init ≠ c := fun he => hc (he ▸ h.init_mem)
    rw [hparent, if_neg hne, h.init_parent]
  kids := by
    have hqc : q ≠ c := fun he => hc (he ▸ hq)
    have hold : ∀ b, b ∈ list → (procs' b).parent = (procs b).parent := by
      intro b hb
      rw [hparent, if_neg (fun he : b = c => hc (he ▸ hb))]
    obtain ⟨before, lq, hbefore, hlq, hmemq⟩ := h.kids q (Or.inr hq)
    have hbq : before = NULL := hbefore (h.ne_null hq)
    subst hbq
    intro a ha
    by_cases haq : a = q
    · subst haq
      refine ⟨NULL, c :: lq, fun _ => rfl, ?_, ?_⟩
      · rw [hcptr, if_pos rfl]
        have hnot : ∀ b ∈ lq, b ≠ c := fun b hb he => hc (he ▸ ((hmemq b).mp hb).1)
        refine Chain.push hlq hnull (fun b hb => ?_) ?_ (fun b hb => ?_) ?_
        · simp [hoptr, hnot b hb]
        · simp [hoptr]
        · have hne : lq ≠ [] := List.ne_nil_of_mem hb
          have hhead : (procs a).cptr ≠ NULL := fun he => hne ((Chain.nil_iff hlq).mp he)
          simp [hyptr, hhead, hnot b hb]
        · have hne : ¬(c = (procs a).cptr ∧ (procs a).cptr ≠ NULL) := by
            rintro ⟨he, hn⟩
            cases lq with
            | nil => exact hn hlq
            | cons y rest => exact hnot y List.mem_cons_self (he.trans hlq.1).symm
          simp [hyptr, hne]
      · intro b
        simp only [List.mem_cons, hmemq]
        constructor
        · rintro (rfl | ⟨hb, hp⟩)
          · exact ⟨Or.inl rfl, by rw [hparent, if_pos rfl]⟩
          · exact ⟨Or.inr hb, by rw [hold b hb, hp]⟩
        · rintro ⟨rfl | hb, hp⟩
          · exact Or.inl rfl
          · exact Or.inr ⟨hb, by rw [← hold b hb, hp]⟩
    · by_cases hac : a = c
      · subst hac
        refine ⟨NULL, [], fun _ => rfl, ?_, ?_⟩
        · change (procs' a).cptr = NULL
          rw [hcptr, if_neg haq, if_pos rfl]
        · intro b
          simp only [List.not_mem_nil, false_iff, List.mem_cons, not_and]
          rintro (rfl | hb) hp
          · rw [hparent, if_pos rfl] at hp
            exact haq hp.symm
          · rw [hold b hb] at hp
            rcases h.parent_known hb with hi | hm
            · exact hidle (hp ▸ hi)
            · exact hc (hp ▸ hm)
      · have ha' : a = idle ∨ a ∈ list := by
          rcases ha with ha | ha
          · exact Or.inl ha
          · exact Or.inr ((List.mem_cons.mp ha).resolve_left hac)
        obtain ⟨before, l, hb, hl, hmem⟩ := h.kids a ha'
        have hnot : ∀ b ∈ l, b ≠ c := fun b hb he => hc (he ▸ ((hmem b).mp hb).1)
        refine ⟨before, l, hb, ?_, ?_⟩
        · rw [hcptr, if_neg haq, if_neg hac]
          refine Chain.congr hl (fun b hb => by simp [hoptr, hnot b hb]) (fun b hb => ?_)
          have hne : ¬(b = (procs q).cptr ∧ (procs q).cptr ≠ NULL) := by
            rintro ⟨he, hn⟩
            cases lq with
            | nil => exact hn hlq
            | cons y rest =>
                have hy := ((hmemq y).mp List.mem_cons_self).2
                have hby : b = y := he.trans hlq.1
                have hpb := ((hmem b).mp hb).2
                rw [hby, hy] at hpb
                exact haq hpb.symm
          simp [hyptr, hne, hnot b hb]
        · intro b
          rw [hmem b]
          constructor
          · rintro ⟨hb, hp⟩
            exact ⟨List.mem_cons_of_mem _ hb, by rw [hold b hb, hp]⟩
          · rintro ⟨hb, hp⟩
            rcases List.mem_cons.mp hb with rfl | hb
            · rw [hparent, if_pos rfl] at hp
              exact absurd hp.symm haq
            · exact ⟨hb, by rw [← hold b hb, hp]⟩
  depth := by
    have hold : ∀ b ∈ list, (procs' b).parent = (procs b).parent := by
      intro b hb
      rw [hparent, if_neg (fun he : b = c => hc (he ▸ hb))]
    have hsub : ∀ b ∈ list, b ∈ c :: list := fun b hb => List.mem_cons_of_mem _ hb
    intro a ha
    rcases List.mem_cons.mp ha with rfl | ha
    · obtain ⟨n, hd⟩ := h.depth q hq
      refine ⟨n + 1, .succ List.mem_cons_self (fun he => hc (he ▸ h.init_mem)) ?_⟩
      rw [hparent, if_pos rfl]
      exact hd.mono hsub hold
    · obtain ⟨n, hd⟩ := h.depth a ha
      exact ⟨n, hd.mono hsub hold⟩

-- The children of the running process are about to be handed over.
theorem mark (h : Family procs list idle init NULL) (dying : Addr) :
    Family procs list idle init dying where
  nodup := h.nodup
  null_notMem := h.null_notMem
  idle_ne_null := h.idle_ne_null
  idle_notMem := h.idle_notMem
  init_mem := h.init_mem
  init_parent := h.init_parent
  kids := by
    intro a ha
    obtain ⟨before, l, hb, hl, hmem⟩ := h.kids a ha
    have hne : a ≠ NULL := ha.elim (fun he => he ▸ h.idle_ne_null) h.ne_null
    exact ⟨before, l, fun _ => hb hne, hl, hmem⟩
  depth := h.depth

-- All of them are handed over.
theorem settle (h : Family procs list idle init dying) (hc : (procs dying).cptr = NULL) :
    Family procs list idle init NULL where
  nodup := h.nodup
  null_notMem := h.null_notMem
  idle_ne_null := h.idle_ne_null
  idle_notMem := h.idle_notMem
  init_mem := h.init_mem
  init_parent := h.init_parent
  kids := by
    intro a ha
    obtain ⟨before, l, hb, hl, hmem⟩ := h.kids a ha
    by_cases hd : a = dying
    · subst hd
      have hnil : l = [] := (Chain.nil_iff hl).mp hc
      subst hnil
      exact ⟨NULL, [], fun _ => rfl, hl, hmem⟩
    · exact ⟨before, l, fun _ => hb hd, hl, hmem⟩
  depth := h.depth

-- One turn of the loop of do_exit: `x`, the youngest child left to `c`, becomes
-- the youngest child of initproc.
theorem adopt (h : Family procs list idle init c) (hc : c ∈ list) (hinit : c ≠ init)
    (hx : x = (procs c).cptr) (hnull : x ≠ NULL)
    (hparent : ∀ b, (procs' b).parent = if b = x then init else (procs b).parent)
    (hcptr : ∀ b, (procs' b).cptr =
      if b = init then x else if b = c then (procs x).optr else (procs b).cptr)
    (hyptr : ∀ b, (procs' b).yptr = if b = (procs init).cptr ∧ (procs init).cptr ≠ NULL then x
      else if b = x then NULL else (procs b).yptr)
    (hoptr : ∀ b, (procs' b).optr = if b = x then (procs init).cptr else (procs b).optr) :
    Family procs' list idle init c := by
  obtain ⟨bc, lc, _, hlc, hmemc⟩ := h.kids c (Or.inr hc)
  obtain ⟨bi, li, hbi, hli, hmemi⟩ := h.kids init (Or.inr h.init_mem)
  have hbi : bi = NULL := hbi hinit.symm
  subst hbi
  cases lc with
  | nil => exact absurd (hx.trans hlc) hnull
  | cons y rest =>
      have hy : (procs c).cptr = y := hlc.1
      obtain rfl : x = y := hx.trans hy
      have hxp : (procs x).parent = c := ((hmemc x).mp List.mem_cons_self).2
      have hxm : x ∈ list := ((hmemc x).mp List.mem_cons_self).1
      have hxrest : x ∉ rest := (List.nodup_cons.mp (Chain.nodup hlc)).1
      have hxi : x ≠ init := by
        intro he
        rw [he, h.init_parent] at hxp
        exact h.idle_notMem (hxp ▸ hc)
      -- the youngest child of initproc, if there is one, is not a child of `c`
      have hfirst : (procs init).cptr ≠ NULL → (procs (procs init).cptr).parent = init := by
        intro hn
        cases li with
        | nil => exact absurd hli hn
        | cons z _ => rw [hli.1]; exact ((hmemi z).mp List.mem_cons_self).2
      have hother : ∀ b, (procs b).parent ≠ init →
          ¬(b = (procs init).cptr ∧ (procs init).cptr ≠ NULL) := by
        rintro b hb ⟨he, hn⟩
        exact hb (he ▸ hfirst hn)
      refine
        { nodup := h.nodup
          null_notMem := h.null_notMem
          idle_ne_null := h.idle_ne_null
          idle_notMem := h.idle_notMem
          init_mem := h.init_mem
          init_parent := by rw [hparent, if_neg hxi.symm, h.init_parent]
          kids := ?_
          depth := ?_ }
      · intro a ha
        by_cases hai : a = init
        · subst hai
          refine ⟨NULL, x :: li, fun _ => rfl, ?_, ?_⟩
          · rw [hcptr, if_pos rfl]
            have hnot : ∀ b ∈ li, b ≠ x := by
              rintro b hb rfl
              exact hinit (hxp.symm.trans ((hmemi b).mp hb).2)
            refine Chain.push hli hnull (fun b hb => ?_) ?_ (fun b hb => ?_) ?_
            · simp [hoptr, hnot b hb]
            · simp [hoptr]
            · have hne : li ≠ [] := List.ne_nil_of_mem hb
              have hhead : (procs a).cptr ≠ NULL := fun he => hne ((Chain.nil_iff hli).mp he)
              simp [hyptr, hhead, hnot b hb]
            · have hne := hother x (by rw [hxp]; exact hinit)
              simp [hyptr, hne]
          · intro b
            rw [List.mem_cons, hmemi, hparent]
            constructor
            · rintro (rfl | ⟨hb, hp⟩)
              · exact ⟨hxm, by rw [if_pos rfl]⟩
              · refine ⟨hb, ?_⟩
                split
                · rfl
                · exact hp
            · rintro ⟨hb, hp⟩
              by_cases hbx : b = x
              · exact Or.inl hbx
              · rw [if_neg hbx] at hp
                exact Or.inr ⟨hb, hp⟩
        · by_cases hac : a = c
          · subst hac
            refine ⟨x, rest, fun hn => absurd rfl hn, ?_, ?_⟩
            · rw [hcptr, if_neg hai, if_pos rfl]
              have hnot : ∀ b ∈ rest, b ≠ x := fun b hb he => hxrest (he ▸ hb)
              refine Chain.congr hlc.2.2.2 (fun b hb => by simp [hoptr, hnot b hb])
                (fun b hb => ?_)
              have hpb := ((hmemc b).mp (List.mem_cons_of_mem _ hb)).2
              have hne := hother b (by rw [hpb]; exact hinit)
              simp [hyptr, hne, hnot b hb]
            · intro b
              have hm := hmemc b
              rw [List.mem_cons] at hm
              rw [hparent]
              constructor
              · intro hb
                have hbx : b ≠ x := fun he => hxrest (he ▸ hb)
                rw [if_neg hbx]
                exact hm.mp (Or.inr hb)
              · rintro ⟨hb, hp⟩
                by_cases hbx : b = x
                · rw [if_pos hbx] at hp
                  exact absurd hp.symm hinit
                · rw [if_neg hbx] at hp
                  exact (hm.mpr ⟨hb, hp⟩).resolve_left hbx
          · obtain ⟨before, l, hb, hl, hmem⟩ := h.kids a ha
            have hpar : ∀ b ∈ l, (procs b).parent = a := fun b hb => ((hmem b).mp hb).2
            have hnot : ∀ b ∈ l, b ≠ x := fun b hb he => hac ((hpar b hb).symm.trans (he ▸ hxp))
            refine ⟨before, l, hb, ?_, ?_⟩
            · rw [hcptr, if_neg hai, if_neg hac]
              refine Chain.congr hl (fun b hb => by simp [hoptr, hnot b hb]) (fun b hb => ?_)
              have hne := hother b (by rw [hpar b hb]; exact hai)
              simp [hyptr, hne, hnot b hb]
            · intro b
              rw [hmem b, hparent]
              constructor
              · rintro ⟨hb, hp⟩
                have hbx : b ≠ x := fun he => hac (hp.symm.trans (he ▸ hxp))
                exact ⟨hb, by rw [if_neg hbx, hp]⟩
              · rintro ⟨hb, hp⟩
                by_cases hbx : b = x
                · rw [if_pos hbx] at hp
                  exact absurd hp.symm hai
                · rw [if_neg hbx] at hp
                  exact ⟨hb, hp⟩
      · intro a ha
        obtain ⟨n, hd⟩ := h.depth a ha
        exact hd.adopt h.init_mem (fun b _ => hparent b)

-- remove_links: a childless `x` leaves the tree.
theorem remove (h : Family procs list idle init NULL) (hx : x ∈ list) (hinit : x ≠ init)
    (hleaf : (procs x).cptr = NULL)
    (hparent : ∀ b, (procs' b).parent = (procs b).parent)
    (hcptr : ∀ b, (procs' b).cptr =
      if (procs x).yptr = NULL ∧ b = (procs x).parent then (procs x).optr else (procs b).cptr)
    (hyptr : ∀ b, (procs' b).yptr =
      if b = (procs x).optr ∧ (procs x).optr ≠ NULL then (procs x).yptr else (procs b).yptr)
    (hoptr : ∀ b, (procs' b).optr =
      if b = (procs x).yptr ∧ (procs x).yptr ≠ NULL then (procs x).optr else (procs b).optr) :
    Family procs' (list.erase x) idle init NULL := by
  have hsub : ∀ b, b ∈ list.erase x ↔ b ∈ list ∧ b ≠ x := fun b => by
    rw [h.nodup.mem_erase_iff, and_comm]
  obtain ⟨before, lq, hbefore, hlq, hmemq⟩ := h.kids (procs x).parent (h.parent_known hx)
  have hqnull : (procs x).parent ≠ NULL :=
    (h.parent_known hx).elim (fun he => he ▸ h.idle_ne_null) h.ne_null
  obtain rfl : before = NULL := hbefore hqnull
  obtain ⟨l₁, l₂, rfl⟩ := List.append_of_mem ((hmemq x).mpr ⟨hx, rfl⟩)
  have hnulls : NULL ∉ l₁ ++ x :: l₂ := fun hm => Chain.ne_null hlq _ hm rfl
  have hnodup := Chain.nodup hlq
  -- the siblings of `x` on either side have its parent
  have hyounger : (procs x).yptr ≠ NULL → (procs (procs x).yptr).parent = (procs x).parent := by
    intro hn
    have hy : (procs x).yptr = l₁.getLast?.getD NULL := Chain.prev_eq hlq
    cases hl : l₁.getLast? with
    | none => rw [hl] at hy; exact absurd hy hn
    | some y =>
        rw [hl] at hy
        have hm : y ∈ l₁ := List.mem_of_getLast? hl
        rw [hy]
        exact ((hmemq y).mp (List.mem_append_left _ hm)).2
  have holder : (procs x).optr ≠ NULL → (procs (procs x).optr).parent = (procs x).parent := by
    intro hn
    have ho : (procs x).optr = l₂.head?.getD NULL := Chain.next_eq hlq
    cases l₂ with
    | nil => exact absurd ho hn
    | cons y rest =>
        rw [ho]
        exact ((hmemq y).mp (by simp)).2
  refine
    { nodup := h.nodup.erase x
      null_notMem := fun hm => h.null_notMem ((hsub NULL).mp hm).1
      idle_ne_null := h.idle_ne_null
      idle_notMem := fun hm => h.idle_notMem ((hsub idle).mp hm).1
      init_mem := (hsub init).mpr ⟨h.init_mem, hinit.symm⟩
      init_parent := by rw [hparent, h.init_parent]
      kids := ?_
      depth := ?_ }
  · intro a ha
    by_cases haq : a = (procs x).parent
    · subst haq
      refine ⟨NULL, l₁ ++ l₂, fun _ => rfl, ?_, ?_⟩
      · have hrem : Siblings procs' NULL (if (procs x).yptr = NULL then (procs x).optr
            else (procs (procs x).parent).cptr) (l₁ ++ l₂) := by
          refine Chain.remove hlq hnulls (fun b hb => ?_) (fun b hb => ?_)
          · have hne : b ≠ NULL := by
              rintro rfl
              apply hnulls
              simp only [List.mem_append, List.mem_cons] at hb ⊢
              tauto
            by_cases hby : b = (procs x).yptr
            · have hyn : (procs x).yptr ≠ NULL := hby ▸ hne
              simp [hoptr, hby, hyn]
            · simp [hoptr, hby]
          · have hne : b ≠ NULL := by
              rintro rfl
              apply hnulls
              simp only [List.mem_append, List.mem_cons] at hb ⊢
              tauto
            by_cases hbo : b = (procs x).optr
            · have hon : (procs x).optr ≠ NULL := hbo ▸ hne
              simp [hyptr, hbo, hon]
            · simp [hyptr, hbo]
        have hhead : (procs' (procs x).parent).cptr =
            if (procs x).yptr = NULL then (procs x).optr else (procs (procs x).parent).cptr := by
          rw [hcptr]
          simp
        rw [hhead]
        exact hrem
      · intro b
        rw [hsub, hparent, and_assoc, and_comm (a := b ≠ x), ← and_assoc, ← hmemq b]
        have hxn : x ∉ l₁ ++ l₂ :=
          (List.nodup_cons.mp (List.perm_middle.nodup_iff.mp hnodup)).1
        constructor
        · intro hb
          refine ⟨?_, fun he => hxn (he ▸ hb)⟩
          simp only [List.mem_append, List.mem_cons] at hb ⊢
          tauto
        · rintro ⟨hb, hne⟩
          simp only [List.mem_append, List.mem_cons] at hb ⊢
          tauto
    · have ha' : a = idle ∨ a ∈ list := ha.imp_right fun hm => ((hsub a).mp hm).1
      obtain ⟨before, l, hb, hl, hmem⟩ := h.kids a ha'
      have hpar : ∀ b ∈ l, (procs b).parent = a := fun b hb => ((hmem b).mp hb).2
      refine ⟨before, l, hb, ?_, ?_⟩
      · have hne : ¬((procs x).yptr = NULL ∧ a = (procs x).parent) := fun hn => haq hn.2
        rw [hcptr, if_neg hne]
        refine Chain.congr hl (fun b hb => ?_) (fun b hb => ?_)
        · have hn : ¬(b = (procs x).yptr ∧ (procs x).yptr ≠ NULL) := by
            rintro ⟨he, hn⟩
            exact haq ((hpar b hb).symm.trans (he ▸ hyounger hn))
          simp [hoptr, hn]
        · have hn : ¬(b = (procs x).optr ∧ (procs x).optr ≠ NULL) := by
            rintro ⟨he, hn⟩
            exact haq ((hpar b hb).symm.trans (he ▸ holder hn))
          simp [hyptr, hn]
      · intro b
        rw [hmem b, hsub, hparent]
        constructor
        · rintro ⟨hb, hp⟩
          exact ⟨⟨hb, fun he => haq (hp.symm.trans (he ▸ rfl))⟩, hp⟩
        · rintro ⟨⟨hb, _⟩, hp⟩
          exact ⟨hb, hp⟩
  · intro a ha
    obtain ⟨ham, hne⟩ := (hsub a).mp ha
    obtain ⟨n, hd⟩ := h.depth a ham
    exact ⟨n, hd.erase hne (h.no_kids (Or.inr hx) hleaf) (fun b _ => hparent b)⟩

end Family

end Ucore.Proc
