import Mathlib.Tactic.TypeStar

namespace Ucore.Lib

-- What a program does: it returns or halts, and it has made observations on the way.
structure Outcome (ε σ ω α : Type) where
  result : Except ε (α × σ)
  log : List ω

-- Programs over a state `σ` that halt with an `ε` and note observations `ω`.
def Prog (ε σ ω α : Type) : Type := σ → Outcome ε σ ω α

namespace Prog

variable {ε σ τ ω α β : Type}

def bind (x : Prog ε σ ω α) (f : α → Prog ε σ ω β) : Prog ε σ ω β := fun s =>
  match x s with
  | ⟨.error e, log⟩ => ⟨.error e, log⟩
  | ⟨.ok (a, s'), log⟩ =>
      match f a s' with
      | ⟨result, log'⟩ => ⟨result, log ++ log'⟩

instance : Monad (Prog ε σ ω) where
  pure a := fun s => ⟨.ok (a, s), []⟩
  bind := bind

def get : Prog ε σ ω σ := fun s => ⟨.ok (s, s), []⟩

def modify (f : σ → σ) : Prog ε σ ω Unit := fun s => ⟨.ok ((), f s), []⟩

def halt (e : ε) : Prog ε σ ω α := fun _ => ⟨.error e, []⟩

def note (o : ω) : Prog ε σ ω Unit := fun s => ⟨.ok ((), s), [o]⟩

-- A program over a part of the state.
def zoom (part : σ → τ) (put : σ → τ → σ) (x : Prog ε τ ω α) : Prog ε σ ω α := fun s =>
  match x (part s) with
  | ⟨.error e, log⟩ => ⟨.error e, log⟩
  | ⟨.ok (a, t), log⟩ => ⟨.ok (a, put s t), log⟩

-- From `s`, unless an observation in `bad` is made, `x` returns with `Q` or halts with `E`.
def wp (bad : ω → Prop) (x : Prog ε σ ω α) (s : σ) (Q : α → σ → Prop) (E : ε → Prop) : Prop :=
  (∀ o ∈ (x s).log, ¬bad o) →
    match (x s).result with
    | .ok (a, s') => Q a s'
    | .error e => E e

variable {bad : ω → Prop} {x : Prog ε σ ω α} {f : α → Prog ε σ ω β} {s : σ}
  {Q Q' : α → σ → Prop} {R : β → σ → Prop} {E E' : ε → Prop}

@[simp] theorem wp_pure {a : α} : wp bad (pure a : Prog ε σ ω α) s Q E ↔ Q a s := by
  simp [wp, pure]

@[simp] theorem wp_get {Q : σ → σ → Prop} : wp bad (get : Prog ε σ ω σ) s Q E ↔ Q s s := by
  simp [wp, get]

@[simp] theorem wp_modify {g : σ → σ} {Q : Unit → σ → Prop} :
    wp bad (modify g : Prog ε σ ω Unit) s Q E ↔ Q () (g s) := by
  simp [wp, modify]

@[simp] theorem wp_halt {e : ε} : wp bad (halt e : Prog ε σ ω α) s Q E ↔ E e := by
  simp [wp, halt]

@[simp] theorem wp_note {o : ω} {Q : Unit → σ → Prop} :
    wp bad (note o : Prog ε σ ω Unit) s Q E ↔ (¬bad o → Q () s) := by
  simp [wp, note]

@[simp] theorem wp_bind :
    wp bad (x >>= f) s R E ↔ wp bad x s (fun a s' => wp bad (f a) s' R E) E := by
  show wp bad (bind x f) s R E ↔ _
  unfold wp bind
  rcases x s with ⟨e | ⟨a, s'⟩, log⟩
  · simp
  · rcases f a s' with ⟨result, log'⟩
    simp only [List.mem_append]
    constructor
    · intro hw hx hf
      exact hw fun o ho => ho.elim (hx o) (hf o)
    · intro hw hall
      exact hw (fun o ho => hall o (Or.inl ho)) fun o ho => hall o (Or.inr ho)

@[simp] theorem wp_ite {c : Prop} [Decidable c] {y : Prog ε σ ω α} :
    wp bad (if c then x else y) s Q E ↔ (c → wp bad x s Q E) ∧ (¬c → wp bad y s Q E) := by
  by_cases hc : c <;> simp [hc]

theorem wp_zoom {part : τ → σ} {put : τ → σ → τ} {t : τ} {Q : α → τ → Prop} :
    wp bad (zoom part put x) t Q E ↔ wp bad x (part t) (fun a s => Q a (put t s)) E := by
  unfold wp zoom
  rcases x (part t) with ⟨e | ⟨a, s⟩, log⟩ <;> simp

theorem wp_mono (h : wp bad x s Q' E') (hQ : ∀ a s', Q' a s' → Q a s') (hE : ∀ e, E' e → E e) :
    wp bad x s Q E := by
  intro hlog
  have hx := h hlog
  cases hr : (x s).result with
  | error e =>
      rw [hr] at hx
      exact hE e hx
  | ok r =>
      rw [hr] at hx
      exact hQ r.1 r.2 hx

theorem wp_conseq (h : wp bad x s Q' E) (hQ : ∀ a s', Q' a s' → Q a s') : wp bad x s Q E :=
  wp_mono h hQ fun _ he => he

theorem wp_true : wp bad x s (fun _ _ => True) (fun _ => True) := by
  intro _
  cases (x s).result <;> trivial

-- The run itself can be used for what it leaves.
theorem wp_result (h : wp bad x s (fun a s' => (x s).result = .ok (a, s') → Q a s') E) : wp bad x s Q E := by
  intro hlog
  have hx := h hlog
  cases hr : (x s).result with
  | error e =>
      rw [hr] at hx
      exact hx
  | ok r =>
      rw [hr] at hx
      exact hx rfl

-- Two rules for one program
theorem wp_and (h : wp bad x s Q E) (h' : wp bad x s Q' E') :
    wp bad x s (fun a s' => Q a s' ∧ Q' a s') (fun e => E e ∧ E' e) := by
  intro hlog
  have hx := h hlog
  have hx' := h' hlog
  cases hr : (x s).result with
  | error e =>
      rw [hr] at hx hx'
      exact ⟨hx, hx'⟩
  | ok r =>
      rw [hr] at hx hx'
      exact ⟨hx, hx'⟩

-- What a rule says about a run.
theorem wp_ok {a : α} {s' : σ} (h : wp bad x s Q E) (hlog : ∀ o ∈ (x s).log, ¬bad o)
    (hr : (x s).result = .ok (a, s')) : Q a s' := by
  have hx := h hlog
  rw [hr] at hx
  exact hx

theorem wp_error {e : ε} (h : wp bad x s Q E) (hlog : ∀ o ∈ (x s).log, ¬bad o)
    (hr : (x s).result = .error e) : E e := by
  have hx := h hlog
  rw [hr] at hx
  exact hx

-- What a run says about a program, without its observations
theorem wp_of_ok {a : α} {s' : σ} (hr : (x s).result = .ok (a, s')) (hq : Q a s') : wp bad x s Q E := by
  intro _
  rw [hr]
  exact hq

-- A rule under which no observation is bad tells how every run ends.
theorem wp_total (h : wp (fun _ => False) x s Q E) :
    (∃ a s', (x s).result = .ok (a, s') ∧ Q a s') ∨ ∃ e, (x s).result = .error e ∧ E e := by
  cases hr : (x s).result with
  | error e => exact Or.inr ⟨e, rfl, wp_error h (fun _ _ hbad => hbad) hr⟩
  | ok r => exact Or.inl ⟨r.1, r.2, rfl, wp_ok h (fun _ _ hbad => hbad) hr⟩

theorem bind_ok {a : α} {s' : σ} (hr : (x s).result = .ok (a, s')) :
    ((x >>= f) s).result = (f a s').result := by
  show (bind x f s).result = _
  unfold bind
  rcases hxs : x s with ⟨e | ⟨b, s''⟩, log⟩ <;> rw [hxs] at hr <;> cases hr
  rfl

theorem bind_log {a : α} {s' : σ} (hr : (x s).result = .ok (a, s')) :
    ((x >>= f) s).log = (x s).log ++ (f a s').log := by
  show (bind x f s).log = _
  unfold bind
  rcases hxs : x s with ⟨e | ⟨b, s''⟩, log⟩ <;> rw [hxs] at hr <;> cases hr
  rfl

theorem bind_error {e : ε} (hr : (x s).result = .error e) : ((x >>= f) s).result = .error e := by
  show (bind x f s).result = _
  unfold bind
  rcases hxs : x s with ⟨e' | ⟨b, s''⟩, log⟩ <;> rw [hxs] at hr <;> cases hr
  rfl

theorem pure_bind (a : α) : ((pure a : Prog ε σ ω α) >>= f) = f a := by
  funext s
  show bind (pure a) f s = f a s
  unfold bind
  simp only [pure, List.nil_append]

theorem bind_assoc {γ : Type} (x : Prog ε σ ω α) (f : α → Prog ε σ ω β) (g : β → Prog ε σ ω γ) :
    x >>= f >>= g = x >>= fun a => f a >>= g := by
  funext s
  show bind (bind x f) g s = bind x (fun a => bind (f a) g) s
  unfold bind
  rcases x s with ⟨e | ⟨a, s'⟩, log⟩
  · rfl
  · simp only
    rcases f a s' with ⟨e | ⟨b, s''⟩, log'⟩
    · rfl
    · simp only [List.append_assoc]

-- The value of a run that is evaluated, and the state that it leaves
theorem result_ok {r : Except ε (α × σ)} {a : α} (h : r.toOption.map Prod.fst = some a) (s : σ) :
    r = .ok (a, (r.toOption.map Prod.snd).getD s) := by
  cases r with
  | error e => cases h
  | ok r =>
      cases h
      rfl

theorem result_not_ok {r : Except ε (α × σ)} (h : r.toOption.map Prod.fst = none) (a : α) (s : σ) :
    r ≠ .ok (a, s) := by
  rintro rfl
  cases h

attribute [irreducible] wp

end Prog

end Ucore.Lib
