/-
How a call can end.

The program has four ways out of a call: it returns, it calls `exit`, it loops for
ever, or it reads outside a vector, after which nothing is promised.  `Outcome`
keeps the four apart, so that a theorem which says a call returns cannot be met by
one that does not.

`exit` carries which of the program's messages is printed, with the pathname or the number in
it, so that a result can say why the program has ended.  A call that is made of others goes
on only where they return, which is what `bind` says.
-/
import Distray.Drp

namespace Distray

/-- The places where the controller's side calls `exit`. -/
inductive Exit
  | unreadable (pathname : Bytes)
  | copyFailed
  | executeFailed (status : Int32)
  | dispatchedIdle
  | notIdle
  | undecodable
  | unexpectedType (got expected : RequestType)
  | tooLarge (size : Nat)
deriving DecidableEq, Repr

/-- The argument of `exit`. -/
def Exit.code : Exit → Int
  | .unreadable _ | .copyFailed | .executeFailed _ | .tooLarge _ => -1
  | .dispatchedIdle | .notIdle | .undecodable | .unexpectedType _ _ => 1

/-- What is printed before the call. -/
def Exit.message : Exit → Bytes
  | .unreadable pathname => bytes "Error reading file " ++ pathname ++ bytes "\n"
  | .copyFailed => bytes "Error: Failed to copy file.\n"
  | .executeFailed status =>
      bytes ("Error: Failed to execute program (status " ++ toString status.toInt ++ ").\n")
  | .dispatchedIdle => bytes "Should not be in IDLE.\n"
  | .notIdle => bytes "Error: Gave a frame to a non-idle worker.\n"
  | .undecodable => bytes "Can't decode buffer into message.\n"
  | .unexpectedType got expected =>
      bytes ("Got response type " ++ toString got.number ++ ", expected "
        ++ toString expected.number ++ "\n")
  | .tooLarge size => bytes ("Refusing to receive file of " ++ toString size ++ " bytes.\n")

/-- How a call ends. -/
inductive Outcome (α : Type) where
  | ok (value : α)
  | exit (why : Exit)
  | hang
  | undefined
deriving DecidableEq, Repr

namespace Outcome

variable {α β : Type}

def bind (x : Outcome α) (f : α → Outcome β) : Outcome β :=
  match x with
  | .ok a => f a
  | .exit why => .exit why
  | .hang => .hang
  | .undefined => .undefined

instance : Monad Outcome where
  pure := Outcome.ok
  bind := Outcome.bind

@[simp] theorem pure_eq (a : α) : (pure a : Outcome α) = .ok a := rfl
@[simp] theorem ok_bind (a : α) (f : α → Outcome β) : (Outcome.ok a >>= f) = f a := rfl
@[simp] theorem exit_bind (why : Exit) (f : α → Outcome β) :
    ((Outcome.exit why : Outcome α) >>= f) = .exit why := rfl
@[simp] theorem hang_bind (f : α → Outcome β) : ((Outcome.hang : Outcome α) >>= f) = .hang := rfl
@[simp] theorem undefined_bind (f : α → Outcome β) :
    ((Outcome.undefined : Outcome α) >>= f) = .undefined := rfl

theorem bind_eq_ok {x : Outcome α} {f : α → Outcome β} {b : β} :
    (x >>= f) = .ok b ↔ ∃ a, x = .ok a ∧ f a = .ok b := by
  cases x <;> simp

theorem bind_ne_hang {x : Outcome α} {f : α → Outcome β} (hx : x ≠ .hang)
    (hf : ∀ a, f a ≠ .hang) : (x >>= f) ≠ .hang := by
  cases x with
  | ok a => exact hf a
  | hang => exact absurd rfl hx
  | exit why => simp
  | undefined => simp

end Outcome

/-- The part of `errno` the program looks at. -/
inductive Errno
  | ECONNRESET
  | other (code : Nat)
deriving DecidableEq, Repr

end Distray
