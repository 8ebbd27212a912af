/-!
# Bindings

A set of *bindings* gives values to names. It is kept as a list sorted by name, each name once, so
that equal sets are equal lists.
-/

namespace Expansion

/-- Values for some names. -/
structure Bindings where
  /-- The bound names with their values. -/
  entries : List (Char × Int)
deriving DecidableEq

namespace Bindings

/-- No name is bound. -/
def empty : Bindings := ⟨[]⟩

/-- The number of bound names. -/
def size (b : Bindings) : Nat := b.entries.length

/-- Whether no name is bound. -/
def isEmpty (b : Bindings) : Bool := b.entries.isEmpty

/-- The value that `x` is bound to. -/
def get? (b : Bindings) (x : Char) : Option Int := b.entries.lookup x

/-- The sorted entries with `x` bound to `n`, in place of what it was bound to. -/
def put (x : Char) (n : Int) : List (Char × Int) → List (Char × Int)
  | [] => [(x, n)]
  | (y, k) :: rest =>
    if x < y then (x, n) :: (y, k) :: rest
    else if x = y then (x, n) :: rest
    else (y, k) :: put x n rest

/-- The bindings with `x` bound to `n`, in place of what it was bound to. -/
def insert (b : Bindings) (x : Char) (n : Int) : Bindings := ⟨put x n b.entries⟩

/-- The bindings of the pairs; of two pairs with one name the later counts. -/
def ofList (ps : List (Char × Int)) : Bindings := ps.foldl (fun b (x, n) => b.insert x n) empty

theorem lookup_cons_eq_ite (x y : Char) (n : Int) (entries : List (Char × Int)) :
    ((x, n) :: entries).lookup y = if y = x then some n else entries.lookup y := by
  by_cases h : y = x
  · simp [h]
  · simp [List.lookup_cons, h, beq_eq_false_iff_ne.mpr h]

theorem lookup_put (x y : Char) (n : Int) (entries : List (Char × Int)) :
    (put x n entries).lookup y = if y = x then some n else entries.lookup y := by
  induction entries with
  | nil => rw [put, lookup_cons_eq_ite]
  | cons e rest ih =>
    obtain ⟨z, k⟩ := e
    rw [put]
    split
    · rw [lookup_cons_eq_ite]
    split
    · next h => subst h; simp only [lookup_cons_eq_ite]; split <;> simp_all
    · next h =>
      rw [lookup_cons_eq_ite, lookup_cons_eq_ite, ih]
      split <;> split <;> simp_all

/-- A new binding changes the value of its own name and of no other. -/
theorem get?_insert (b : Bindings) (x y : Char) (n : Int) :
    (b.insert x n).get? y = if y = x then some n else b.get? y :=
  lookup_put x y n b.entries

end Bindings

end Expansion
