import Expansion.Proofs.Representation

/-!
# What formulas are worked out to

There are two ways to work out a formula. One multiplies out: the result is a term for each product
of monomials, and nothing is merged (`Formula.summands`). The other has a canonical polynomial for
each part of the formula (`Formula.resolve`). A text without groups is worked out in the first way
and then reduced, and one with groups in the second, where a group is a text of its own
(`Formula.polynomial?`).

In both ways the result represents the formula (`represents_of_polynomial?`), and there is one if
the formula fits (`exists_polynomial?`). In the first way there is none otherwise
(`multipliesOut_iff`), because nothing cancels. In the second there may still be one: what cancels
or is multiplied by 0 is gone before it is multiplied with something else.
-/

namespace Expansion

open Term

namespace Formula

variable {f g : Formula}

/-- The names are letters from `a` to `z`. -/
def Lettered : Formula → Prop
  | monomial _ ps => ∀ p ∈ ps, p.1.isLower = true
  | group f | plus f | minus f => f.Lettered
  | mul f g | add f g | sub f g => f.Lettered ∧ g.Lettered

@[simp] theorem lettered_withSign {negative : Bool} :
    (f.withSign negative).Lettered ↔ f.Lettered := by
  cases negative <;> rfl

/-- The products of monomials that the formula is a sum of, unless an exponent gets too large. -/
def summands : Formula → Option (List Term)
  | monomial c ps => (ofPowers? c ps).map ([·])
  | group f | plus f => f.summands
  | minus f => f.summands.map fun ts => ts.map (- ·)
  | mul f g => do
    let ss ← f.summands
    let ts ← g.summands
    (Polynomial.pairs ⟨ss⟩ ⟨ts⟩).mapM fun (s, t) => s.mul? t
  | add f g => do
    let ss ← f.summands
    let ts ← g.summands
    some (ss ++ ts)
  | sub f g => do
    let ss ← f.summands
    let ts ← g.summands
    some (ss ++ ts.map (- ·))

/-- The polynomial of the formula, where every part of it that has groups is worked out to a
polynomial of its own, unless an exponent gets too large. -/
def resolve : Formula → Option Polynomial
  | monomial c ps => (ofPowers? c ps).map .ofTerm
  | group f => if f.depth = 0 then f.summands.map .reduce else f.resolve
  | plus f => f.resolve
  | minus f => f.resolve.map (- ·)
  | mul f g => do
    let p ← f.resolve
    let q ← g.resolve
    p.mul? q
  | add f g => do
    let p ← f.resolve
    let q ← g.resolve
    some (p + q)
  | sub f g => do
    let p ← f.resolve
    let q ← g.resolve
    some (p - q)

/-- The polynomial of the formula as a whole text, unless an exponent gets too large. -/
def polynomial? (f : Formula) : Option Polynomial :=
  if f.depth = 0 then f.summands.map .reduce else f.resolve

/-! ## Terms -/

theorem lettered_ofPowers {ps : List (Char × Nat)} (lower : ∀ p ∈ ps, p.1.isLower = true)
    (fits : (Monomial.ofPowers ps).fits = true) : (Monomial.ofPowers ps).Lettered := by
  have normal := Monomial.normal_ofPowers ps
  refine ⟨⟨normal, fits⟩, normal.namesIn_iff.2 ?_⟩
  intro x positive
  rw [Monomial.exponent_ofPowers] at positive
  obtain ⟨e, mem⟩ := Monomial.exists_mem_of_total_pos positive
  exact lower _ mem

theorem ofPowers?_eq_some {c : Int} {ps : List (Char × Nat)} {t : Term}
    (h : ofPowers? c ps = some t) :
    t = ⟨c, Monomial.ofPowers ps⟩ ∧ t.monomial.fits = true := by
  by_cases fits : (Monomial.ofPowers ps).fits = true
  · obtain rfl := Option.some.inj ((if_pos fits).symm.trans h)
    exact ⟨rfl, fits⟩
  · cases (if_neg fits).symm.trans h

theorem fits_ofPowers_iff {ps : List (Char × Nat)} :
    (Monomial.ofPowers ps).fits = true ↔ ∀ x, Monomial.total x ps ≤ maxExponent := by
  simp only [(Monomial.normal_ofPowers ps).fits_iff, Monomial.exponent_ofPowers]

/-- There is a term for powers exactly if the monomial fits. -/
theorem exists_ofPowers?_iff {c : Nat} {ps : List (Char × Nat)} :
    (∃ t, ofPowers? c ps = some t) ↔ (monomial c ps).Fits := by
  constructor
  · rintro ⟨t, h⟩
    obtain ⟨rfl, fits⟩ := ofPowers?_eq_some h
    exact fits_ofPowers_iff.1 fits
  · intro fits
    exact ⟨_, if_pos (fits_ofPowers_iff.2 fits)⟩

theorem addsUp_ofPowers? {c : Nat} {ps : List (Char × Nat)} {t : Term}
    (lower : ∀ p ∈ ps, p.1.isLower = true) (h : ofPowers? c ps = some t) :
    AddsUp (monomial c ps) [t] := by
  obtain ⟨rfl, fits⟩ := ofPowers?_eq_some h
  refine ⟨List.forall_mem_singleton.2 (lettered_ofPowers lower fits),
    List.forall_mem_singleton.2 fun x => ?_, fun ρ => ?_⟩
  · exact (Monomial.exponent_ofPowers ps x).le
  · rw [List.map_singleton, List.sum_singleton, Term.value, Monomial.ofPowers,
      Monomial.value_mulPowers, Monomial.value_one, mul_one, Formula.value]

/-! ## Summands -/

/-- The summands add up to the formula. -/
theorem addsUp_of_summands (lettered : f.Lettered) {ts : List Term} (h : f.summands = some ts) :
    AddsUp f ts := by
  induction f generalizing ts with
  | monomial c ps =>
    obtain ⟨t, eq, rfl⟩ := Option.map_eq_some_iff.1 h
    exact addsUp_ofPowers? lettered eq
  | group f ih | plus f ih => exact (ih lettered h).congr (fun _ => le_rfl) fun _ => rfl
  | minus f ih =>
    obtain ⟨ts, eq, rfl⟩ := Option.map_eq_some_iff.1 h
    exact (ih lettered eq).neg
  | mul f g ih ih' =>
    obtain ⟨ss, left, h⟩ := Option.bind_eq_some_iff.1 h
    obtain ⟨ts, right, products⟩ := Option.bind_eq_some_iff.1 h
    exact (ih lettered.1 left).products (ih' lettered.2 right) products
  | add f g ih ih' =>
    obtain ⟨ss, left, h⟩ := Option.bind_eq_some_iff.1 h
    obtain ⟨ts, right, eq⟩ := Option.bind_eq_some_iff.1 h
    obtain rfl := Option.some.inj eq
    exact (ih lettered.1 left).append (ih' lettered.2 right)
  | sub f g ih ih' =>
    obtain ⟨ss, left, h⟩ := Option.bind_eq_some_iff.1 h
    obtain ⟨ts, right, eq⟩ := Option.bind_eq_some_iff.1 h
    obtain rfl := Option.some.inj eq
    exact (ih lettered.1 left).append_neg (ih' lettered.2 right)

/-- The degree of the formula is an exponent of one of its summands. -/
theorem exists_degree_of_summands (x : Char) {ts : List Term} (h : f.summands = some ts) :
    ∃ t ∈ ts, t.monomial.exponent x = f.degree x := by
  induction f generalizing ts with
  | monomial c ps =>
    obtain ⟨t, eq, rfl⟩ := Option.map_eq_some_iff.1 h
    obtain ⟨rfl, -⟩ := ofPowers?_eq_some eq
    exact ⟨_, List.mem_cons_self, Monomial.exponent_ofPowers ps x⟩
  | group f ih | plus f ih => exact ih h
  | minus f ih =>
    obtain ⟨ts, eq, rfl⟩ := Option.map_eq_some_iff.1 h
    obtain ⟨t, ht, degree⟩ := ih eq
    exact ⟨-t, List.mem_map_of_mem ht, degree⟩
  | mul f g ih ih' =>
    obtain ⟨ss, left, h⟩ := Option.bind_eq_some_iff.1 h
    obtain ⟨us, right, products⟩ := Option.bind_eq_some_iff.1 h
    -- The product of the two terms is one of the products.
    obtain ⟨s, hs, degree⟩ := ih left
    obtain ⟨t, ht, degree'⟩ := ih' right
    obtain ⟨u, hu, product⟩ := Polynomial.exists_product_of_mem products hs ht
    obtain ⟨rfl, -⟩ := mul?_eq_some product
    exact ⟨_, hu, by rw [Monomial.exponent_mul, degree, degree', Formula.degree]⟩
  | add f g ih ih' =>
    obtain ⟨ss, left, h⟩ := Option.bind_eq_some_iff.1 h
    obtain ⟨us, right, eq⟩ := Option.bind_eq_some_iff.1 h
    obtain rfl := Option.some.inj eq
    -- The degree is the larger of the two.
    rcases max_choice (f.degree x) (g.degree x) with larger | larger
    · obtain ⟨t, ht, degree⟩ := ih left
      exact ⟨t, List.mem_append_left _ ht, degree.trans larger.symm⟩
    · obtain ⟨t, ht, degree⟩ := ih' right
      exact ⟨t, List.mem_append_right _ ht, degree.trans larger.symm⟩
  | sub f g ih ih' =>
    obtain ⟨ss, left, h⟩ := Option.bind_eq_some_iff.1 h
    obtain ⟨us, right, eq⟩ := Option.bind_eq_some_iff.1 h
    obtain rfl := Option.some.inj eq
    rcases max_choice (f.degree x) (g.degree x) with larger | larger
    · obtain ⟨t, ht, degree⟩ := ih left
      exact ⟨t, List.mem_append_left _ ht, degree.trans larger.symm⟩
    · obtain ⟨t, ht, degree⟩ := ih' right
      exact ⟨-t, List.mem_append_right _ (List.mem_map_of_mem ht), degree.trans larger.symm⟩

theorem fits_of_summands {ts : List Term} (lettered : f.Lettered) (h : f.summands = some ts) :
    f.Fits := by
  induction f generalizing ts with
  | monomial c ps =>
    obtain ⟨t, eq, -⟩ := Option.map_eq_some_iff.1 h
    exact exists_ofPowers?_iff.1 ⟨t, eq⟩
  | group f ih | plus f ih => exact ih lettered h
  | minus f ih =>
    obtain ⟨ts, eq, -⟩ := Option.map_eq_some_iff.1 h
    exact ih lettered eq
  | mul f g ih ih' =>
    obtain ⟨ss, left, h⟩ := Option.bind_eq_some_iff.1 h
    obtain ⟨us, right, products⟩ := Option.bind_eq_some_iff.1 h
    refine ⟨ih lettered.1 left, ih' lettered.2 right, fun x => ?_⟩
    obtain ⟨s, hs, degree⟩ := exists_degree_of_summands x left
    obtain ⟨t, ht, degree'⟩ := exists_degree_of_summands x right
    have normal := ((addsUp_of_summands lettered.2 right).lettered t ht).toNormal
    obtain ⟨u, -, product⟩ := Polynomial.exists_product_of_mem products hs ht
    obtain ⟨rfl, fits⟩ := mul?_eq_some product
    have small := (normal.fits_mul_iff s.monomial).1 fits x
    rwa [degree, degree'] at small
  | add f g ih ih' | sub f g ih ih' =>
    obtain ⟨ss, left, h⟩ := Option.bind_eq_some_iff.1 h
    obtain ⟨us, right, -⟩ := Option.bind_eq_some_iff.1 h
    exact ⟨ih lettered.1 left, ih' lettered.2 right⟩

theorem exists_summands (lettered : f.Lettered) (fits : f.Fits) : ∃ ts, f.summands = some ts := by
  induction f with
  | monomial c ps =>
    obtain ⟨t, eq⟩ := exists_ofPowers?_iff.2 fits
    exact ⟨[t], Option.map_eq_some_iff.2 ⟨t, eq, rfl⟩⟩
  | group f ih | plus f ih => exact ih lettered fits
  | minus f ih =>
    obtain ⟨ts, eq⟩ := ih lettered fits
    exact ⟨_, Option.map_eq_some_iff.2 ⟨ts, eq, rfl⟩⟩
  | mul f g ih ih' =>
    obtain ⟨ss, left⟩ := ih lettered.1 fits.1
    obtain ⟨us, right⟩ := ih' lettered.2 fits.2.1
    have left_sum := addsUp_of_summands lettered.1 left
    have right_sum := addsUp_of_summands lettered.2 right
    obtain ⟨ts, products⟩ := Polynomial.exists_products_of_le (p := ⟨ss⟩) (q := ⟨us⟩)
      (fun t ht => (right_sum.lettered t ht).toNormal) (left_sum.degree_mul_le right_sum fits)
    refine ⟨ts, ?_⟩
    rw [summands, left, right]
    exact products
  | add f g ih ih' | sub f g ih ih' =>
    obtain ⟨ss, left⟩ := ih lettered.1 fits.1
    obtain ⟨us, right⟩ := ih' lettered.2 fits.2
    rw [summands, left, right]
    exact ⟨_, rfl⟩

/-- The formula can be multiplied out. -/
def MultipliesOut (f : Formula) : Prop := ∃ ts, f.summands = some ts

/-- A formula can be multiplied out exactly if it fits. -/
theorem multipliesOut_iff (lettered : f.Lettered) : f.MultipliesOut ↔ f.Fits :=
  ⟨fun ⟨_, h⟩ => fits_of_summands lettered h, exists_summands lettered⟩

theorem MultipliesOut.minus (h : (minus f).MultipliesOut) : f.MultipliesOut := by
  obtain ⟨ts, h⟩ := h
  obtain ⟨us, eq, -⟩ := Option.map_eq_some_iff.1 h
  exact ⟨us, eq⟩

theorem multipliesOut_of_bind {k : List Term → List Term → Option (List Term)} {us : List Term}
    (h : (f.summands >>= fun ss => g.summands >>= k ss) = some us) :
    f.MultipliesOut ∧ g.MultipliesOut := by
  obtain ⟨ss, left, h⟩ := Option.bind_eq_some_iff.1 h
  obtain ⟨ts, right, -⟩ := Option.bind_eq_some_iff.1 h
  exact ⟨⟨ss, left⟩, ts, right⟩

theorem MultipliesOut.mul : (mul f g).MultipliesOut → f.MultipliesOut ∧ g.MultipliesOut :=
  fun ⟨_, h⟩ => multipliesOut_of_bind h

theorem MultipliesOut.add : (add f g).MultipliesOut → f.MultipliesOut ∧ g.MultipliesOut :=
  fun ⟨_, h⟩ => multipliesOut_of_bind h

theorem MultipliesOut.sub : (sub f g).MultipliesOut → f.MultipliesOut ∧ g.MultipliesOut :=
  fun ⟨_, h⟩ => multipliesOut_of_bind h

theorem summands_sub (f g : Formula) : (sub f g).summands = (add f (minus g)).summands := by
  rw [summands, summands, summands]
  cases f.summands with
  | none => rfl
  | some ss => cases g.summands <;> rfl

theorem summands_withSign {negative : Bool} {t : Term} (h : f.summands = some [t]) :
    (f.withSign negative).summands = some [t.withSign negative] := by
  cases negative with
  | false => exact h
  | true => exact Option.map_eq_some_iff.2 ⟨[t], h, rfl⟩

/-- The product of two formulas that are single terms. -/
theorem summands_mul {s t : Term} (hs : f.summands = some [s]) (ht : g.summands = some [t]) :
    (mul f g).summands = (s.mul? t).map ([·]) := by
  rw [summands, hs, ht]
  show [(s, t)].mapM (fun (s, t) => s.mul? t) = _
  rw [List.mapM_cons, List.mapM_nil]
  show (s.mul? t >>= fun u => some [u]) = _
  cases s.mul? t <;> rfl

/-! ## Polynomials -/

/-- The formula can be resolved. -/
def Resolves (f : Formula) : Prop := ∃ p, f.resolve = some p

theorem Resolves.minus (h : (minus f).Resolves) : f.Resolves := by
  obtain ⟨p, h⟩ := h
  obtain ⟨q, eq, -⟩ := Option.map_eq_some_iff.1 h
  exact ⟨q, eq⟩

theorem resolves_of_bind {k : Polynomial → Polynomial → Option Polynomial} {r : Polynomial}
    (h : (f.resolve >>= fun p => g.resolve >>= k p) = some r) : f.Resolves ∧ g.Resolves := by
  obtain ⟨p, left, h⟩ := Option.bind_eq_some_iff.1 h
  obtain ⟨q, right, -⟩ := Option.bind_eq_some_iff.1 h
  exact ⟨⟨p, left⟩, q, right⟩

theorem Resolves.mul : (mul f g).Resolves → f.Resolves ∧ g.Resolves :=
  fun ⟨_, h⟩ => resolves_of_bind h

theorem Resolves.add : (add f g).Resolves → f.Resolves ∧ g.Resolves :=
  fun ⟨_, h⟩ => resolves_of_bind h

theorem Resolves.sub : (sub f g).Resolves → f.Resolves ∧ g.Resolves :=
  fun ⟨_, h⟩ => resolves_of_bind h

/-- The polynomial represents the formula. -/
theorem represents_of_resolve (lettered : f.Lettered) {p : Polynomial} (h : f.resolve = some p) :
    p.Represents f := by
  induction f generalizing p with
  | monomial c ps =>
    obtain ⟨t, eq, rfl⟩ := Option.map_eq_some_iff.1 h
    exact .ofTerm (addsUp_ofPowers? lettered eq)
  | group f ih =>
    have body : f.Lettered := lettered
    suffices p.Represents f from this.congr (fun _ => le_rfl) fun _ => rfl
    rw [resolve] at h
    split at h
    · obtain ⟨ts, eq, rfl⟩ := Option.map_eq_some_iff.1 h
      exact Polynomial.represents_reduce (addsUp_of_summands body eq)
    · exact ih body h
  | plus f ih => exact (ih lettered h).congr (fun _ => le_rfl) fun _ => rfl
  | minus f ih =>
    obtain ⟨p, eq, rfl⟩ := Option.map_eq_some_iff.1 h
    exact (ih lettered eq).withSign true
  | mul f g ih ih' =>
    obtain ⟨p, left, h⟩ := Option.bind_eq_some_iff.1 h
    obtain ⟨q, right, product⟩ := Option.bind_eq_some_iff.1 h
    exact (ih lettered.1 left).mul? (ih' lettered.2 right) product
  | add f g ih ih' =>
    obtain ⟨p, left, h⟩ := Option.bind_eq_some_iff.1 h
    obtain ⟨q, right, eq⟩ := Option.bind_eq_some_iff.1 h
    obtain rfl := Option.some.inj eq
    exact (ih lettered.1 left).add (ih' lettered.2 right)
  | sub f g ih ih' =>
    obtain ⟨p, left, h⟩ := Option.bind_eq_some_iff.1 h
    obtain ⟨q, right, eq⟩ := Option.bind_eq_some_iff.1 h
    obtain rfl := Option.some.inj eq
    exact (ih lettered.1 left).sub (ih' lettered.2 right)

theorem resolve_plus_withSign (f : Formula) (negative : Bool) :
    ((plus f).withSign negative).resolve = (f.withSign negative).resolve := by
  cases negative <;> rfl

/-- Two signs cancel. -/
theorem resolve_minus_withSign (lettered : f.Lettered) (negative : Bool) :
    ((minus f).withSign negative).resolve = (f.withSign !negative).resolve := by
  cases negative with
  | false => rfl
  | true =>
    show (f.resolve.map (- ·)).map (- ·) = f.resolve
    cases eq : f.resolve with
    | none => rfl
    | some p =>
      have represents := represents_of_resolve lettered eq
      exact congrArg some
        (represents.canonical.neg_neg fun t ht => (represents.lettered t ht).weighable)

/-- A formula that fits can be resolved. -/
theorem resolves_of_fits (lettered : f.Lettered) (fits : f.Fits) : f.Resolves := by
  induction f with
  | monomial c ps =>
    obtain ⟨t, eq⟩ := exists_ofPowers?_iff.2 fits
    exact ⟨_, Option.map_eq_some_iff.2 ⟨t, eq, rfl⟩⟩
  | group f ih =>
    rw [Resolves, resolve]
    split
    · obtain ⟨ts, eq⟩ := (multipliesOut_iff lettered).2 fits
      exact ⟨_, Option.map_eq_some_iff.2 ⟨ts, eq, rfl⟩⟩
    · exact ih lettered fits
  | plus f ih => exact ih lettered fits
  | minus f ih =>
    obtain ⟨p, eq⟩ := ih lettered fits
    exact ⟨_, Option.map_eq_some_iff.2 ⟨p, eq, rfl⟩⟩
  | mul f g ih ih' =>
    obtain ⟨p, left⟩ := ih lettered.1 fits.1
    obtain ⟨q, right⟩ := ih' lettered.2 fits.2.1
    rw [Resolves, resolve, left, right]
    exact (represents_of_resolve lettered.1 left).exists_mul?
      (represents_of_resolve lettered.2 right) fits
  | add f g ih ih' | sub f g ih ih' =>
    obtain ⟨p, left⟩ := ih lettered.1 fits.1
    obtain ⟨q, right⟩ := ih' lettered.2 fits.2
    rw [Resolves, resolve, left, right]
    exact ⟨_, rfl⟩

/-- The polynomial of a text represents its formula. -/
theorem represents_of_polynomial? (lettered : f.Lettered) {p : Polynomial}
    (h : f.polynomial? = some p) : p.Represents f :=
  (represents_of_resolve (f := .group f) lettered h).congr (fun _ => le_rfl) fun _ => rfl

/-- A text has a polynomial if its formula fits. -/
theorem exists_polynomial? (lettered : f.Lettered) (fits : f.Fits) :
    ∃ p, f.polynomial? = some p :=
  resolves_of_fits (f := .group f) lettered fits

/-- Resolving succeeds at least where multiplying out does. -/
theorem resolves_of_polynomial? (lettered : f.Lettered) (h : ∃ p, f.polynomial? = some p) :
    f.Resolves := by
  obtain ⟨p, h⟩ := h
  rw [polynomial?] at h
  split at h
  · obtain ⟨ts, eq, -⟩ := Option.map_eq_some_iff.1 h
    exact resolves_of_fits lettered ((multipliesOut_iff lettered).1 ⟨ts, eq⟩)
  · exact ⟨p, h⟩

end Formula

/-! ## What is written -/

theorem lower_of_writesPowers {ps : List (Char × Nat)} {ts : List Token} (h : WritesPowers ps ts) :
    ∀ p ∈ ps, p.1.isLower = true := by
  induction h with
  | nil => exact nofun
  | bare lower _ ih | raised lower _ ih => exact List.forall_mem_cons.2 ⟨lower, ih⟩

theorem lettered_of_writesMonomial {c : Nat} {ps : List (Char × Nat)} {ts : List Token}
    (h : WritesMonomial c ps ts) : (Formula.monomial c ps).Lettered := by
  cases h with
  | bare powers | scaled powers => exact lower_of_writesPowers powers

/-- Texts are written for formulas over the letters. -/
theorem Derives.lettered {c : Category} {f : Formula} {ts : List Token} (h : Derives c f ts) :
    f.Lettered := by
  induction h with
  | monomial h => exact lettered_of_writesMonomial h
  | group _ ih | plus _ ih | minus _ ih | factor _ ih | product _ ih => exact ih
  | mul _ _ ih ih' | add _ _ ih ih' | sub _ _ ih ih' => exact ⟨ih, ih'⟩

end Expansion
