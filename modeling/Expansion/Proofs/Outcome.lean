import Expansion.Error

/-!
# Outcomes of reading what fits

What a formula is written with can be read, unless an exponent gets too large; and that cannot
happen if the formula fits. `Yields fits x good` says this of a computation `x`: it ends with a
good result, or it ends with the error for an exponent that is too large, and then `fits` is false.

Where it is known exactly which result there should be, if any, the computation `Computes` it.
-/

namespace Expansion

variable {α β : Type} {fits fits' : Prop} {x : Except Error α} {good : α → Prop}

/-- A computation with a result has a first part with a result. -/
theorem exists_ok_of_bind {ε : Type} {x : Except ε α} {f : α → Except ε β} {b : β}
    (h : x >>= f = .ok b) :
    ∃ a, x = .ok a ∧ f a = .ok b := by
  cases x with
  | error e => cases h
  | ok a => exact ⟨a, rfl, h⟩

/-- The computation ends with a good result, or with an exponent that is too large if `fits` does
not hold. -/
def Yields (fits : Prop) (x : Except Error α) (good : α → Prop) : Prop :=
  (∃ a, x = .ok a ∧ good a) ∨ ¬fits ∧ ∃ place, x = .error (.exponentTooLarge place)

namespace Yields

theorem ok {a : α} (h : good a) : Yields fits (.ok a) good := .inl ⟨a, rfl, h⟩

theorem tooLarge {place : Span} (h : ¬fits) :
    Yields fits (.error (.exponentTooLarge place)) good := .inr ⟨h, place, rfl⟩

/-- What follows a good result decides how the whole computation ends. -/
theorem bind {f : α → Except Error β} {good' : β → Prop} (hx : Yields fits x good)
    (hf : ∀ a, good a → Yields fits (f a) good') : Yields fits (x >>= f) good' := by
  rcases hx with ⟨a, rfl, h⟩ | ⟨h, place, rfl⟩
  · exact hf a h
  · exact .inr ⟨h, place, rfl⟩

theorem mono {good' : α → Prop} (hx : Yields fits x good) (hf : fits' → fits)
    (hg : ∀ a, good a → good' a) : Yields fits' x good' := by
  rcases hx with ⟨a, rfl, h⟩ | ⟨h, place, rfl⟩
  · exact ok (hg a h)
  · exact tooLarge fun h' => h (hf h')

/-- Two computations one after the other, where the first does not influence the second. -/
theorem both {γ : Type} {y : Except Error β} {good' : β → Prop} {good'' : γ → Prop}
    (hx : Yields fits x good) (hy : Yields fits' y good') {f : α → β → Except Error γ}
    (hf : ∀ a b, good a → good' b → Yields (fits ∧ fits') (f a b) good'') :
    Yields (fits ∧ fits') (x >>= fun a => y >>= f a) good'' :=
  (hx.mono And.left fun _ => id).bind fun a ha =>
    (hy.mono And.right fun _ => id).bind fun b hb => hf a b ha hb

theorem of_fits (hx : Yields fits x good) (h : fits) : ∃ a, x = .ok a ∧ good a :=
  hx.resolve_right fun bad => bad.1 h

theorem of_ok {a : α} (hx : Yields fits (.ok a) good) : good a := by
  rcases hx with ⟨b, eq, h⟩ | ⟨-, place, eq⟩
  · obtain rfl := Except.ok.inj eq
    exact h
  · cases eq

end Yields

/-- The computation ends with the result `o`, or with an exponent that is too large if there is
none. -/
def Computes (o : Option α) (x : Except Error α) : Prop :=
  Yields (∃ a, o = some a) x fun a => o = some a

namespace Computes

variable {o : Option α} {a : α}

theorem eq_ok_iff (h : Computes o x) : x = .ok a ↔ o = some a := by
  constructor
  · intro eq
    exact (eq ▸ h : Computes o (.ok a)).of_ok
  · intro result
    obtain ⟨b, eq, result'⟩ := Yields.of_fits h ⟨a, result⟩
    rw [eq, Option.some.inj (result'.symm.trans result)]

theorem map (h : Computes o x) (f : α → β) : Computes (o.map f) (x >>= fun a => .ok (f a)) := by
  apply (Yields.mono h ?_ fun _ => id).bind
  · exact fun a result => .ok (Option.map_eq_some_iff.2 ⟨a, result, rfl⟩)
  · rintro ⟨b, result⟩
    obtain ⟨a, result, -⟩ := Option.map_eq_some_iff.1 result
    exact ⟨a, result⟩

end Computes

end Expansion
