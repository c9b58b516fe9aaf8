import Mathlib.Algebra.Ring.Int.Defs
import Mathlib.Algebra.Ring.Nat
import Mathlib.Tactic.TypeStar
import Mathlib.Logic.Function.Basic

namespace Ucore

-- The ways in which kernel code fails to return to its caller.
inductive Halt
  -- `panic` or a failed `assert`
  | panic (message : String)
  -- a NULL pointer or a freed object is dereferenced
  | wild
  -- a loop is entered that has no exit
  | hang
  deriving DecidableEq, Repr

def E_BAD_PROC : Int := 2
def E_INVAL : Int := 3
def E_NO_MEM : Int := 4
def E_NO_FREE_PROC : Int := 5
def E_INVAL_ELF : Int := 8
def E_KILLED : Int := 9

-- `assert(x)` of assert.h
def assert (holds : Bool) (text : String) : Except Halt Unit :=
  if holds then .ok () else .error (.panic ("assertion failed: " ++ text))

@[simp] theorem assert_true (text : String) : assert true text = .ok () := rfl

@[simp] theorem ok_bind {α β : Type} (a : α) (f : α → Except Halt β) :
    ((Except.ok a : Except Halt α) >>= f) = f a := rfl

@[simp] theorem error_bind {α β : Type} (h : Halt) (f : α → Except Halt β) :
    ((Except.error h : Except Halt α) >>= f) = .error h := rfl

@[simp] theorem pure_eq_ok {α : Type} (a : α) : (pure a : Except Halt α) = .ok a := rfl

-- A sequence of calls returns exactly when each of them does.
theorem bind_eq_ok {α β : Type} {x : Except Halt α} {f : α → Except Halt β} {b : β} :
    (x >>= f) = .ok b ↔ ∃ a, x = .ok a ∧ f a = .ok b := by
  cases x with
  | error h => simp
  | ok a => simp

instance {α : Type} (x : Except Halt α) (h : Halt) : Decidable (x = .error h) :=
  match x with
  | .ok _ => isFalse nofun
  | .error h' => decidable_of_iff (h' = h) ⟨congrArg _, Except.error.inj⟩

instance {α β : Type} [DecidableEq α] (x : Except Halt (α × β)) (a : α) :
    Decidable (∃ b, x = .ok (a, b)) :=
  match x with
  | .ok (a', b) => decidable_of_iff (a' = a)
      ⟨fun h => ⟨b, by rw [h]⟩, fun ⟨_, h⟩ => congrArg Prod.fst (Except.ok.inj h)⟩
  | .error _ => isFalse nofun

end Ucore
