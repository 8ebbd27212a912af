import Expansion.Proofs.Degree
import Expansion.Proofs.Meaning

/-!
# Products with a factor 0

A formula without groups can be multiplied out exactly if it fits. It can be resolved in more cases:
where a factor is 0, there is nothing left of its exponents, and the product is 0 whatever the
exponents of the other factor are.

**Theorem (`resolves_iff`).** A formula that is written without groups can be resolved exactly if it
fits up to products in which a factor vanishes (`Formula.FitsUnlessZero`).

A product of signed monomials that is not 0 keeps its degrees when it is resolved
(`Formula.KeepsDegree`), because degrees add up in a product of polynomials.
-/

namespace Expansion

namespace Polynomial

theorem degree_ofTerm {t : Term} (h : t.monomial.Weighable) (nonzero : ofTerm t ≠ zero) (x : Char) :
    (ofTerm t).degree x = t.monomial.exponent x := by
  have weighable : ∀ u ∈ [t], u.monomial.Weighable := List.forall_mem_singleton.2 h
  have proper : (ofTerm t).Proper :=
    ⟨canonical_reduce weighable, forall_monomial_reduce Monomial.weighable_one weighable, nonzero⟩
  obtain ⟨r, hr, eq⟩ := exists_exponent_eq_degree x proper.canonical.nonempty
  rcases exists_monomial_of_mem_reduce hr with rfl | ⟨-, u, hu, same⟩
  · exact absurd rfl (proper.factor_ne_zero hr)
  · rw [← eq, same, List.mem_singleton.1 hu]

theorem degree_neg_le (p : Polynomial) (x : Char) : (-p).degree x ≤ p.degree x := by
  refine degree_le_iff.2 ?_
  refine forall_monomial_reduce (P := fun m => m.exponent x ≤ p.degree x) (Nat.zero_le _) ?_
  refine List.forall_mem_map.2 fun t ht => ?_
  rw [Term.monomial_neg]
  exact exponent_le_degree ht

theorem Proper.degree_neg {p : Polynomial} (h : p.Proper) (x : Char) :
    (-p).degree x = p.degree x := by
  apply le_antisymm (degree_neg_le p x)
  have back := degree_neg_le (-p) x
  rwa [h.canonical.neg_neg h.weighable] at back

end Polynomial

namespace Formula

/-- The value is 0 under every assignment. -/
def Vanishes (f : Formula) : Prop := ∀ ρ, f.value ρ = 0

/-- No monomial has an exponent above `maxExponent`, and no product has a degree above it unless one
of its two factors vanishes. -/
def FitsUnlessZero : Formula → Prop
  | monomial c ps => (monomial c ps).Fits
  | group f | plus f | minus f => f.FitsUnlessZero
  | mul f g => f.FitsUnlessZero ∧ g.FitsUnlessZero ∧
    (f.Vanishes ∨ g.Vanishes ∨ ∀ x, (mul f g).degree x ≤ maxExponent)
  | add f g | sub f g => f.FitsUnlessZero ∧ g.FitsUnlessZero

/-- Unless it is resolved to 0, the formula is resolved to a polynomial with the same degrees. -/
def KeepsDegree (f : Formula) : Prop :=
  ∀ p, f.resolve = some p → p ≠ .zero → ∀ x, p.degree x = f.degree x

end Formula

namespace Polynomial.Represents

variable {f : Formula} {p q : Polynomial}

/-- No two polynomials represent the same formula. -/
theorem unique (hp : p.Represents f) (hq : q.Represents f) : p = q :=
  hp.canonical.eq_of_forall_value hq.canonical (fun t ht => (hp.lettered t ht).toNormal)
    (fun t ht => (hq.lettered t ht).toNormal) fun ρ => (hp.value ρ).trans (hq.value ρ).symm

theorem eq_zero_iff (h : p.Represents f) : p = zero ↔ f.Vanishes := by
  constructor
  · rintro rfl ρ
    rw [← h.value]
    rfl
  · intro vanishes
    apply h.canonical.eq_of_forall_value canonical_zero
      (fun t ht => (h.lettered t ht).toNormal) (List.forall_mem_singleton.2 Monomial.normal_one)
    exact fun ρ => (h.value ρ).trans (vanishes ρ)

theorem proper (h : p.Represents f) (nonzero : p ≠ zero) : p.Proper :=
  ⟨h.canonical, fun t ht => (h.lettered t ht).weighable, nonzero⟩

end Polynomial.Represents

namespace Formula

variable {f g : Formula}

/-- A formula is resolved to the polynomial that represents it, or not at all. -/
theorem resolve_eq_some_iff (lettered : f.Lettered) {p : Polynomial} :
    f.resolve = some p ↔ f.Resolves ∧ p.Represents f := by
  constructor
  · exact fun eq => ⟨⟨p, eq⟩, represents_of_resolve lettered eq⟩
  · rintro ⟨⟨q, eq⟩, represents⟩
    rw [eq, (represents_of_resolve lettered eq).unique represents]

theorem keepsDegree_monomial {c : Nat} {ps : List (Char × Nat)}
    (lower : ∀ p ∈ ps, p.1.isLower = true) : (monomial c ps).KeepsDegree := by
  intro p resolve nonzero x
  obtain ⟨t, eq, rfl⟩ := Option.map_eq_some_iff.1 resolve
  obtain ⟨rfl, fits⟩ := ofPowers?_eq_some eq
  rw [Polynomial.degree_ofTerm (lettered_ofPowers lower fits).weighable nonzero,
    Monomial.exponent_ofPowers, degree]

theorem KeepsDegree.minus (h : f.KeepsDegree) (lettered : f.Lettered) : (minus f).KeepsDegree := by
  intro p resolve nonzero x
  have represents := represents_of_resolve (f := .minus f) lettered resolve
  obtain ⟨q, eq, rfl⟩ := Option.map_eq_some_iff.1 resolve
  have before := represents_of_resolve lettered eq
  have q_nonzero : q ≠ .zero := by
    rw [Ne, before.eq_zero_iff]
    intro vanishes
    exact nonzero (represents.eq_zero_iff.2 fun ρ => neg_eq_zero.2 (vanishes ρ))
  rw [(before.proper q_nonzero).degree_neg, h q eq q_nonzero, degree]

theorem KeepsDegree.mul (hf : f.KeepsDegree) (hg : g.KeepsDegree)
    (lettered : (mul f g).Lettered) : (mul f g).KeepsDegree := by
  intro r resolve nonzero x
  have represents := represents_of_resolve lettered resolve
  obtain ⟨p, left, resolve⟩ := Option.bind_eq_some_iff.1 resolve
  obtain ⟨q, right, product⟩ := Option.bind_eq_some_iff.1 resolve
  have hp := represents_of_resolve lettered.1 left
  have hq := represents_of_resolve lettered.2 right
  have p_nonzero : p ≠ .zero := by
    rw [Ne, hp.eq_zero_iff]
    intro vanishes
    exact nonzero (represents.eq_zero_iff.2 fun ρ => mul_eq_zero_of_left (vanishes ρ) _)
  have q_nonzero : q ≠ .zero := by
    rw [Ne, hq.eq_zero_iff]
    intro vanishes
    exact nonzero (represents.eq_zero_iff.2 fun ρ => mul_eq_zero_of_right _ (vanishes ρ))
  rw [(hp.proper p_nonzero).degree_mul? (hq.proper q_nonzero) product, hf p left p_nonzero,
    hg q right q_nonzero, degree]

/-- A product can be resolved exactly if its factors can, and one of them vanishes or the degrees
are not too large. -/
theorem resolves_mul_iff (hf : f.KeepsDegree) (hg : g.KeepsDegree)
    (lettered : (mul f g).Lettered) : (mul f g).Resolves ↔ f.Resolves ∧ g.Resolves ∧
      (f.Vanishes ∨ g.Vanishes ∨ ∀ x, (mul f g).degree x ≤ maxExponent) := by
  constructor
  · rintro ⟨r, resolve⟩
    obtain ⟨p, left, resolve⟩ := Option.bind_eq_some_iff.1 resolve
    obtain ⟨q, right, product⟩ := Option.bind_eq_some_iff.1 resolve
    have hp := represents_of_resolve lettered.1 left
    have hq := represents_of_resolve lettered.2 right
    refine ⟨⟨p, left⟩, ⟨q, right⟩, ?_⟩
    by_cases p_zero : p = .zero
    · exact .inl (hp.eq_zero_iff.1 p_zero)
    by_cases q_zero : q = .zero
    · exact .inr (.inl (hq.eq_zero_iff.1 q_zero))
    refine .inr (.inr fun x => ?_)
    have small := mt ((hp.proper p_zero).mul?_eq_none_iff (hq.proper q_zero)).2
      (by rw [product]; exact Option.some_ne_none r)
    push Not at small
    rw [degree, ← hf p left p_zero, ← hg q right q_zero]
    exact small x
  · rintro ⟨⟨p, left⟩, ⟨q, right⟩, small⟩
    have hp := represents_of_resolve lettered.1 left
    have hq := represents_of_resolve lettered.2 right
    have p_small : ∀ s ∈ p.terms, ∀ x, s.monomial.exponent x ≤ maxExponent :=
      fun s hs => (hp.lettered s hs).toNormal.fits_iff.1 (hp.lettered s hs).fits
    have q_small : ∀ t ∈ q.terms, ∀ x, t.monomial.exponent x ≤ maxExponent :=
      fun t ht => (hq.lettered t ht).toNormal.fits_iff.1 (hq.lettered t ht).fits
    rw [Resolves, resolve, left, right]
    apply Polynomial.exists_mul? fun t ht => (hq.lettered t ht).toNormal
    intro s hs t ht x
    -- The number 0 has no exponents.
    rcases small with f_zero | g_zero | small
    · obtain rfl := hp.eq_zero_iff.2 f_zero
      obtain rfl := List.mem_singleton.1 hs
      exact (Nat.zero_add _).trans_le (q_small t ht x)
    · obtain rfl := hq.eq_zero_iff.2 g_zero
      obtain rfl := List.mem_singleton.1 ht
      exact p_small s hs x
    · exact (add_le_add (hp.degree s hs x) (hq.degree t ht x)).trans (small x)

end Formula

open Formula

/-- Products of signed monomials keep their degrees. -/
theorem keepsDegree {c : Category} {f : Formula} {ts : List Token} (h : Derives c f ts)
    (flat : f.depth = 0) (single : c ≠ .sum) : f.KeepsDegree := by
  induction h with
  | monomial h => exact keepsDegree_monomial (lettered_of_writesMonomial h)
  | group => cases flat
  | plus _ ih => exact ih flat single
  | minus h ih => exact (ih flat single).minus h.lettered
  | factor _ ih => exact ih flat nofun
  | mul h h' ih ih' =>
    obtain ⟨left, right⟩ := Nat.max_eq_zero_iff.1 flat
    exact (ih left nofun).mul (ih' right nofun) ⟨h.lettered, h'.lettered⟩
  | product | add | sub => exact absurd rfl single

/-- What is written without groups can be resolved exactly if it fits up to products with 0. -/
theorem resolves_iff {c : Category} {f : Formula} {ts : List Token} (h : Derives c f ts)
    (flat : f.depth = 0) : f.Resolves ↔ f.FitsUnlessZero := by
  induction h with
  | monomial =>
    rw [FitsUnlessZero, ← exists_ofPowers?_iff, Resolves, resolve]
    simp
  | group => cases flat
  | plus _ ih | factor _ ih | product _ ih => exact ih flat
  | minus _ ih =>
    refine Iff.trans ⟨Resolves.minus, ?_⟩ (ih flat)
    rintro ⟨p, eq⟩
    exact ⟨-p, Option.map_eq_some_iff.2 ⟨p, eq, rfl⟩⟩
  | mul h h' ih ih' =>
    obtain ⟨left, right⟩ := Nat.max_eq_zero_iff.1 flat
    rw [resolves_mul_iff (keepsDegree h left (by simp)) (keepsDegree h' right (by simp))
      ⟨h.lettered, h'.lettered⟩, ih left, ih' right, FitsUnlessZero]
  | add _ _ ih ih' | sub _ _ ih ih' =>
    obtain ⟨left, right⟩ := Nat.max_eq_zero_iff.1 flat
    rw [FitsUnlessZero, ← ih left, ← ih' right]
    constructor
    · rintro ⟨_, eq⟩
      exact resolves_of_bind eq
    · rintro ⟨⟨p, eq⟩, ⟨q, eq'⟩⟩
      rw [Resolves, resolve, eq, eq']
      exact ⟨_, rfl⟩

end Expansion
