import Ucore.Lib.Prog

namespace Ucore.Lib.Prog

variable {ε σ τ ω α β : Type} {bad good good' : ω → Prop} {x : Prog ε σ ω α} {f : α → Prog ε σ ω β}
  {s : σ} {Q : α → σ → Prop} {R : β → σ → Prop} {E : ε → Prop}

theorem bind_log_ok {a : α} {s' : σ} (hr : (x s).result = .ok (a, s')) :
    ((x >>= f) s).log = (x s).log ++ (f a s').log := by
  show (bind x f s).log = _
  unfold bind
  rcases hxs : x s with ⟨e | ⟨b, s''⟩, log⟩
  · rw [hxs] at hr
    cases hr
  · rw [hxs] at hr
    cases hr
    rfl

theorem bind_log_error {e : ε} (hr : (x s).result = .error e) : ((x >>= f) s).log = (x s).log := by
  show (bind x f s).log = _
  unfold bind
  rcases hxs : x s with ⟨e' | ⟨b, s''⟩, log⟩
  · rfl
  · rw [hxs] at hr
    cases hr

-- From every state, all observations of `x` are in `good`.
def Notes (good : ω → Prop) (x : Prog ε σ ω α) : Prop := ∀ s, ∀ o ∈ (x s).log, good o

namespace Notes

theorem mono (h : Notes good x) (hgood : ∀ o, good o → good' o) : Notes good' x :=
  fun s o ho => hgood o (h s o ho)

theorem pure {a : α} : Notes good (Pure.pure a : Prog ε σ ω α) := fun _ _ ho => nomatch ho

theorem get : Notes good (Prog.get : Prog ε σ ω σ) := fun _ _ ho => nomatch ho

theorem modify {g : σ → σ} : Notes good (Prog.modify g : Prog ε σ ω Unit) := fun _ _ ho => nomatch ho

theorem halt {e : ε} : Notes good (Prog.halt e : Prog ε σ ω α) := fun _ _ ho => nomatch ho

theorem note {o : ω} (h : good o) : Notes good (Prog.note o : Prog ε σ ω Unit) := by
  intro s o' ho
  rw [List.mem_singleton.mp ho]
  exact h

theorem log_bind (hx : ∀ o ∈ (x s).log, good o)
    (hf : ∀ a s', (x s).result = .ok (a, s') → ∀ o ∈ (f a s').log, good o) :
    ∀ o ∈ ((x >>= f) s).log, good o := by
  cases hr : (x s).result with
  | error e =>
      rw [bind_log_error hr]
      exact hx
  | ok r =>
      rw [bind_log_ok hr]
      intro o ho
      exact (List.mem_append.mp ho).elim (hx o) (hf r.1 r.2 hr o)

theorem bind (hx : Notes good x) (hf : ∀ a, Notes good (f a)) : Notes good (x >>= f) :=
  fun s => log_bind (hx s) fun a s' _ => hf a s'

theorem map {g : α → β} (hx : Notes good x) : Notes good (g <$> x) := hx.bind fun _ => pure

theorem ite {c : Prop} [Decidable c] {y : Prog ε σ ω α} (hx : c → Notes good x) (hy : ¬c → Notes good y) :
    Notes good (if c then x else y) := by
  by_cases hc : c
  · rw [if_pos hc]
    exact hx hc
  · rw [if_neg hc]
    exact hy hc

theorem zoom {part : τ → σ} {put : τ → σ → τ} (hx : Notes good x) : Notes good (zoom part put x) := by
  intro t o ho
  have hx := hx (part t)
  unfold Prog.zoom at ho
  rcases hxs : x (part t) with ⟨e | ⟨a, s'⟩, log⟩ <;> rw [hxs] at ho hx <;> exact hx o ho

end Notes

theorem bind_result_ok {b : β} {s' : σ} (hr : ((x >>= f) s).result = .ok (b, s')) :
    ∃ a s₁, (x s).result = .ok (a, s₁) ∧ (f a s₁).result = .ok (b, s') := by
  cases hx : (x s).result with
  | error e =>
      rw [bind_error hx] at hr
      cases hr
  | ok r => exact ⟨r.1, r.2, rfl, (bind_ok hx).symm.trans hr⟩

-- No result of `x` is in `P`.
def Avoids (x : Prog ε σ ω α) (P : α → Prop) : Prop := ∀ s a s', (x s).result = .ok (a, s') → ¬P a

-- Where the result of `x` is in `P`, all its observations are in `good`.
def NotesFor (good : ω → Prop) (x : Prog ε σ ω α) (P : α → Prop) : Prop :=
  ∀ s a s', (x s).result = .ok (a, s') → P a → ∀ o ∈ (x s).log, good o

section NotesFor

variable {P : α → Prop} {P' : β → Prop}

theorem Avoids.pure {a : α} (h : ¬P a) : Avoids (Pure.pure a : Prog ε σ ω α) P := by
  intro s a' s' hr
  cases hr
  exact h

theorem Avoids.halt {e : ε} : Avoids (Prog.halt e : Prog ε σ ω α) P := by
  intro s a s' hr
  cases hr

theorem Avoids.bind (h : ∀ a, Avoids (f a) P') : Avoids (x >>= f) P' := by
  intro s b s' hr
  obtain ⟨a, s₁, _, hf⟩ := bind_result_ok hr
  exact h a s₁ b s' hf

theorem Avoids.ite {c : Prop} [Decidable c] {y : Prog ε σ ω α} (hx : c → Avoids x P) (hy : ¬c → Avoids y P) :
    Avoids (if c then x else y) P := by
  by_cases hc : c
  · rw [if_pos hc]
    exact hx hc
  · rw [if_neg hc]
    exact hy hc

namespace NotesFor

theorem mono (h : NotesFor good x P) (hgood : ∀ o, good o → good' o) : NotesFor good' x P :=
  fun s a s' hr hp o ho => hgood o (h s a s' hr hp o ho)

-- The results of `x` are looked at one by one.
theorem bind_results (h : ∀ s a s', (x s).result = .ok (a, s') →
    (∀ o ∈ (x s).log, good o) ∧ NotesFor good (f a) P' ∨ Avoids (f a) P') : NotesFor good (x >>= f) P' := by
  intro s b s' hr hp
  obtain ⟨a, s₁, hx, hf⟩ := bind_result_ok hr
  rcases h s a s₁ hx with ⟨hlog, hnotes⟩ | havoids
  · rw [bind_log_ok hx]
    intro o ho
    exact (List.mem_append.mp ho).elim (hlog o) (hnotes s₁ b s' hf hp o)
  · exact absurd hp (havoids s₁ b s' hf)

theorem bind (hx : NotesFor good x P) (hf : ∀ a, P a → NotesFor good (f a) P')
    (hno : ∀ a, ¬P a → Avoids (f a) P') : NotesFor good (x >>= f) P' := by
  refine bind_results fun s a s' hr => ?_
  by_cases hp : P a
  · exact Or.inl ⟨hx s a s' hr hp, hf a hp⟩
  · exact Or.inr (hno a hp)

theorem ite {c : Prop} [Decidable c] {y : Prog ε σ ω α} (hx : c → NotesFor good x P) (hy : ¬c → NotesFor good y P) :
    NotesFor good (if c then x else y) P := by
  by_cases hc : c
  · rw [if_pos hc]
    exact hx hc
  · rw [if_neg hc]
    exact hy hc

end NotesFor

end NotesFor

-- As `wp`, and as long as no observation is in `bad` they are all in `good`.
def wpl (bad good : ω → Prop) (x : Prog ε σ ω α) (s : σ) (Q : α → σ → Prop) (E : ε → Prop) : Prop :=
  wp bad x s Q E ∧ ((∀ o ∈ (x s).log, ¬bad o) → ∀ o ∈ (x s).log, good o)

theorem wpl_of_wp (hx : Notes good x) (h : wp bad x s Q E) : wpl bad good x s Q E :=
  ⟨h, fun _ => hx s⟩

theorem wpl_pure {a : α} (h : Q a s) : wpl bad good (pure a : Prog ε σ ω α) s Q E :=
  wpl_of_wp Notes.pure (wp_pure.mpr h)

theorem wpl_get {Q : σ → σ → Prop} (h : Q s s) : wpl bad good (get : Prog ε σ ω σ) s Q E :=
  wpl_of_wp Notes.get (wp_get.mpr h)

theorem wpl_note {o : ω} {Q : Unit → σ → Prop} (h : ¬bad o → good o ∧ Q () s) :
    wpl bad good (note o : Prog ε σ ω Unit) s Q E := by
  refine ⟨wp_note.mpr fun ho => (h ho).2, fun hall o' ho' => ?_⟩
  have hbad := hall o (List.mem_singleton.mpr rfl)
  rw [List.mem_singleton.mp ho']
  exact (h hbad).1

theorem wpl_bind (h : wpl bad good x s (fun a s' => wpl bad good (f a) s' R E) E) :
    wpl bad good (x >>= f) s R E := by
  refine ⟨wp_bind.mpr (wp_conseq h.1 fun _ _ hf => hf.1), fun hall => ?_⟩
  cases hr : (x s).result with
  | error e =>
      rw [bind_log_error hr] at hall ⊢
      exact h.2 hall
  | ok r =>
      rw [bind_log_ok hr] at hall ⊢
      have hx := fun o ho => hall o (List.mem_append_left _ ho)
      have hf := (wp_ok h.1 hx hr).2 fun o ho => hall o (List.mem_append_right _ ho)
      intro o ho
      exact (List.mem_append.mp ho).elim (h.2 hx o) (hf o)

end Ucore.Lib.Prog
