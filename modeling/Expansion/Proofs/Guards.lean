import Expansion.Proofs.Slices

/-!
# Computations that can get stuck

A *guarded* computation ends with a result or an error, or gets *stuck*: it asks for an element of a
list that is not there, for a part of a text that does not start and end between characters, or
meets a case that should never arise. One that cannot get stuck is an ordinary computation
(`Guarded.safe`), and stays one in a sequence with others (`safe_bind`).

**Theorem (`cut?_eq_some_iff`).** Cutting a region out of a text gives what the text shows there,
and gets stuck if it shows nothing.
-/

namespace Expansion

/-- A computation that ends with a result or an error, unless it gets stuck. -/
abbrev Guarded (α : Type) := ExceptT Error Option α

namespace Guarded

variable {α β : Type}

/-- A computation that does not get stuck. -/
def safe (x : Except Error α) : Guarded α := some x

/-- A computation that gets stuck if there is nothing. -/
def need (x : Option α) : Guarded α := x.map .ok

@[simp] theorem need_some (a : α) : need (some a) = safe (.ok a) := rfl

@[simp] theorem pure_eq (a : α) : (pure a : Guarded α) = safe (.ok a) := rfl

@[simp] theorem throw_eq (e : Error) : (throw e : Guarded α) = safe (.error e) := rfl

@[simp] theorem ok_bind (a : α) (g : α → Guarded β) : safe (.ok a) >>= g = g a := rfl

@[simp] theorem error_bind (e : Error) (g : α → Guarded β) :
    safe (.error e) >>= g = safe (.error e) := rfl

@[simp] theorem adapt_safe (f : Error → Error) (x : Except Error α) :
    ExceptT.adapt f (safe x) = safe (x.mapError f) := by
  cases x <;> rfl

/-- What follows a computation has to be safe only for its result. -/
theorem safe_bind {x : Except Error α} {g : α → Guarded β} {f : α → Except Error β}
    (h : ∀ a, x = .ok a → g a = safe (f a)) : safe x >>= g = safe (x >>= f) := by
  cases x with
  | error e => rfl
  | ok a => exact h a rfl

end Guarded

/-- Something is made of every element of a list if something is made of each. -/
theorem mapM_eq_some {α β : Type} {f : α → Option β} {g : α → β} {xs : List α}
    (h : ∀ x ∈ xs, f x = some (g x)) : xs.mapM f = some (xs.map g) := by
  induction xs with
  | nil => rfl
  | cons x xs ih =>
    obtain ⟨first, others⟩ := List.forall_mem_cons.1 h
    rw [List.mapM_cons, first, ih others]
    rfl

/-! ## Parts of a text -/

/-- The text before and behind its first `n` bytes, if a character ends there. -/
def Text.splitBytes? : Nat → List Char → Option (List Char × List Char)
  | 0, cs => some ([], cs)
  | _ + 1, [] => none
  | n + 1, c :: cs =>
    if c.utf8Size ≤ n + 1 then
      (splitBytes? (n + 1 - c.utf8Size) cs).map fun (ds, behind) => (c :: ds, behind)
    else none

theorem Text.splitBytes?_eq_some_iff {n : Nat} {cs before behind : List Char} :
    splitBytes? n cs = some (before, behind) ↔ cs = before ++ behind ∧ byteLength before = n := by
  constructor
  · intro h
    fun_induction splitBytes? n cs generalizing before behind with
    | case1 cs =>
      cases h
      exact ⟨rfl, rfl⟩
    | case2 n => cases h
    | case3 n c cs le ih =>
      obtain ⟨⟨ds, rest⟩, found, eq⟩ := Option.map_eq_some_iff.1 h
      cases eq
      obtain ⟨rfl, length⟩ := ih found
      exact ⟨rfl, by rw [byteLength_cons, length]; omega⟩
    | case4 n c cs lt => cases h
  · rintro ⟨rfl, rfl⟩
    induction before with
    | nil => simp [splitBytes?]
    | cons c before ih =>
      have positive : 0 < byteLength (c :: before) := byteLength_pos (List.cons_ne_nil c before)
      obtain ⟨n, eq⟩ := Nat.exists_eq_succ_of_ne_zero positive.ne'
      have rest : n.succ - c.utf8Size = byteLength before := by
        rw [← eq, byteLength_cons, Nat.add_sub_cancel_left]
      have le : c.utf8Size ≤ n.succ := by
        rw [← eq, byteLength_cons]
        omega
      rw [eq, List.cons_append, splitBytes?, if_pos le, rest, ih]
      rfl

/-- What stands in the text at the region, if it starts and ends between characters. -/
def Span.cut? (s : Span) (cs : List Char) : Option (List Char) :=
  if s.start ≤ s.stop then do
    let (_, behind) ← Text.splitBytes? s.start cs
    let (inner, _) ← Text.splitBytes? (s.stop - s.start) behind
    some inner
  else none

theorem Span.cut?_eq_some_iff {s : Span} {cs inner : List Char} :
    s.cut? cs = some inner ↔ s.Shows cs inner := by
  rw [cut?]
  constructor
  · intro h
    split at h
    · next le =>
      obtain ⟨⟨before, behind⟩, first, h⟩ := Option.bind_eq_some_iff.1 h
      obtain ⟨⟨inner', after⟩, second, h⟩ := Option.bind_eq_some_iff.1 h
      cases h
      obtain ⟨rfl, start⟩ := Text.splitBytes?_eq_some_iff.1 first
      obtain ⟨rfl, length⟩ := Text.splitBytes?_eq_some_iff.1 second
      refine ⟨before, after, rfl, ?_⟩
      obtain ⟨i, j⟩ := s
      obtain rfl : byteLength before = i := start
      rw [length]
      exact congrArg (Span.mk _) (Nat.add_sub_cancel' le).symm
    · cases h
  · rintro ⟨before, after, rfl, rfl⟩
    rw [if_pos (Nat.le_add_right _ _), Text.splitBytes?_eq_some_iff.2 ⟨rfl, rfl⟩]
    show (Text.splitBytes? (_ - byteLength before) (inner ++ after) >>= fun _ => _) = _
    rw [Nat.add_sub_cancel_left, Text.splitBytes?_eq_some_iff.2 ⟨rfl, rfl⟩]
    rfl

/-- One of the two bytes of a letter cannot be cut out. -/
example : Span.cut? ⟨1, 2⟩ ['a', 'é'] = none ∧ Span.cut? ⟨1, 3⟩ ['a', 'é'] = some ['é'] := by
  decide

/-! ## Parts of a list -/

section

variable {α : Type} {xs ys zs : List α} {x : α} {i j : Nat}

/-- The elements from position `i` to position `j`, if the list reaches so far. -/
def range? (xs : List α) (i j : Nat) : Option (List α) :=
  if i ≤ j ∧ j ≤ xs.length then some ((xs.drop i).take (j - i)) else none

/-- The elements `ys` stand in `xs` from position `i` on. -/
def StandAt (xs : List α) (i : Nat) (ys : List α) : Prop :=
  ∃ before after, xs = before ++ (ys ++ after) ∧ before.length = i

theorem standAt_self (xs : List α) : StandAt xs 0 xs := ⟨[], [], by simp, rfl⟩

namespace StandAt

theorem head (h : StandAt xs i (x :: ys)) : xs[i]? = some x := by
  obtain ⟨before, after, rfl, rfl⟩ := h
  simp

theorem tail (h : StandAt xs i (x :: ys)) : StandAt xs (i + 1) ys := by
  obtain ⟨before, after, rfl, rfl⟩ := h
  exact ⟨before ++ [x], after, by simp, by simp⟩

theorem left (h : StandAt xs i (ys ++ zs)) : StandAt xs i ys := by
  obtain ⟨before, after, rfl, rfl⟩ := h
  exact ⟨before, zs ++ after, by simp, rfl⟩

theorem right (h : StandAt xs i (ys ++ zs)) (eq : j = i + ys.length) : StandAt xs j zs := by
  obtain ⟨before, after, rfl, rfl⟩ := h
  exact ⟨before ++ ys, after, by simp, by simp [eq]⟩

theorem range? (h : StandAt xs i ys) (eq : j = i + ys.length) : range? xs i j = some ys := by
  obtain ⟨before, after, rfl, rfl⟩ := h
  subst eq
  rw [Expansion.range?, if_pos (by simp)]
  simp

end StandAt

end

end Expansion
