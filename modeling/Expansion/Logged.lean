import Expansion.Record

/-!
# Computations that keep a log

A computation of type `Logged α` has written some records and ended with a result or an error. The
records of a failed computation stay in the log.
-/

namespace Expansion

/-- What a computation wrote, and how it ended. -/
structure Logged (α : Type) where
  log : List Record
  outcome : Except Error α

namespace Logged

variable {α β : Type}

instance : Monad Logged where
  pure a := ⟨[], .ok a⟩
  bind x f := match x.outcome with
    | .error e => ⟨x.log, .error e⟩
    | .ok a => ⟨x.log ++ (f a).log, (f a).outcome⟩

/-- A computation that writes nothing. -/
def ofExcept (x : Except Error α) : Logged α := ⟨[], x⟩

/-- Writes a record. -/
def write (r : Record) : Logged Unit := ⟨[r], .ok ()⟩

instance : MonadLift (Except Error) Logged := ⟨ofExcept⟩

@[simp] theorem outcome_pure (a : α) : (pure a : Logged α).outcome = .ok a := rfl

@[simp] theorem outcome_write (r : Record) : (write r).outcome = .ok () := rfl

@[simp] theorem outcome_ofExcept (x : Except Error α) : (ofExcept x).outcome = x := rfl

/-- How a sequence of computations ends does not depend on what they write. -/
@[simp] theorem outcome_bind (x : Logged α) (f : α → Logged β) :
    (x >>= f).outcome = x.outcome >>= fun a => (f a).outcome := by
  obtain ⟨log, e | a⟩ := x <;> rfl

end Logged

end Expansion
