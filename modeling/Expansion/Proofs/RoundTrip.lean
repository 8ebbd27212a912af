import Expansion.Proofs.Rendering

/-!
# Reading back what is written

**Theorem (`parse_text_raw`).** The text of any list of terms over the letters is parsed as the sum
of the terms in canonical form. In particular, the text of a canonical polynomial is parsed as that
polynomial.

The text of a list does not say everything about it: a variable term with factor 0 is written as the
number 0, and so is the empty list. So the text is also that of another list, in which these terms
are the number 0 (`Term.shown`), and there every term can be read back. Both lists have the same
sum, because a term with factor 0 adds nothing to any coefficient.
-/

namespace Expansion

namespace Term

/-- The term that is read where `t` is written: a term with factor 0 is written as a number. -/
def shown (t : Term) : Term := if t.factor = 0 then .zero else t

@[simp] theorem factor_shown (t : Term) : t.shown.factor = t.factor := by
  rw [shown]
  split
  · next zero => exact zero.symm
  · rfl

@[simp] theorem chars_shown (t : Term) : t.shown.chars = t.chars := by
  rw [shown]
  split
  · next zero =>
    show ['0'] = t.chars
    rw [chars, zero]
    split <;> rfl
  · rfl

theorem shows_shown {t : Term} (h : t.monomial.Lettered) : t.shown.Shows := by
  rw [shown]
  split
  · exact ⟨Monomial.lettered_one, .inl rfl⟩
  · next nonzero => exact ⟨h, .inr nonzero⟩

theorem AdditiveInFactor.shown {A : Type*} [AddCommGroup A] {f : Term → A}
    (hf : AdditiveInFactor f) (t : Term) : f t.shown = f t := by
  rw [Term.shown]
  split
  · next zero => rw [hf.zero rfl, hf.zero zero]
  · rfl

end Term

namespace Polynomial

@[simp] theorem addendChars_shown (t : Term) : addendChars t.shown = addendChars t := by
  rw [addendChars, addendChars, Term.factor_shown, Term.chars_shown]

theorem text_shown (t : Term) (ts : List Term) :
    text ⟨(t :: ts).map Term.shown⟩ = text ⟨t :: ts⟩ := by
  have addends : (ts.map Term.shown).flatMap addendChars = ts.flatMap addendChars := by
    rw [List.flatMap_map]
    exact congrArg (List.flatMap · ts) (funext addendChars_shown)
  show String.ofList (t.shown.chars ++ (ts.map Term.shown).flatMap addendChars) = _
  rw [Term.chars_shown, addends]
  rfl

theorem coefficient_shown (m : Monomial) (ts : List Term) :
    coefficient m (ts.map Term.shown) = coefficient m ts := by
  rw [coefficient_eq_sum, coefficient_eq_sum, List.map_map]
  exact congrArg (fun f => (ts.map f).sum) (funext (additiveInFactor_coefficient m).shown)

/-- A list and what is read of it have the same sum. -/
theorem reduce_shown {ts : List Term} (h : ∀ t ∈ ts, t.monomial.Lettered) :
    reduce (ts.map Term.shown) = reduce ts := by
  refine (reduce_eq_reduce_iff ?_ fun t ht => (h t ht).weighable).2 fun m => coefficient_shown m ts
  exact List.forall_mem_map.2 fun t ht => (Term.shows_shown (h t ht)).1.weighable

/-- The number 0 is the sum of no terms. -/
theorem reduce_zero : reduce [.zero] = reduce [] := by
  have weighable_nil : ∀ t ∈ ([] : List Term), t.monomial.Weighable := List.forall_mem_nil _
  have weighable_zero : ∀ t ∈ [Term.zero], t.monomial.Weighable :=
    List.forall_mem_singleton.2 Monomial.weighable_one
  refine (reduce_eq_reduce_iff weighable_zero weighable_nil).2 ?_
  intro m
  rw [coefficient_eq_sum, List.map_singleton, List.sum_singleton]
  exact ite_self 0

end Polynomial

namespace Expression

/-- The text of terms over the letters is parsed as their sum. -/
theorem parse_terms (options : Options) {ts : List Term} (h : ∀ t ∈ ts, t.monomial.Lettered) :
    (parse options (Polynomial.text ⟨ts⟩)).outcome = .ok ⟨.reduce ts⟩ := by
  cases ts with
  | nil =>
    -- The sum of no terms is written like the number 0.
    have shows_zero : ∀ t ∈ [Term.zero], t.Shows :=
      List.forall_mem_singleton.2 ⟨Monomial.lettered_one, .inl rfl⟩
    have text : Polynomial.text ⟨[]⟩ = Polynomial.text ⟨[.zero]⟩ := by decide
    rw [← Polynomial.reduce_zero, text]
    exact parse_shown options shows_zero
  | cons t ts =>
    have shows : ∀ u ∈ (t :: ts).map Term.shown, u.Shows :=
      List.forall_mem_map.2 fun u hu => Term.shows_shown (h u hu)
    rw [← Polynomial.text_shown, ← Polynomial.reduce_shown h]
    exact parse_shown options shows

/-- The text of any terms over the letters, sorted and merged or not, is parsed as the sum of the
terms, whatever the nesting limit is. If they are in canonical form, they are read back as they
are. -/
theorem parse_text_raw (options : Options) {ts : List Term}
    (h : ∀ t ∈ ts, t.monomial.Lettered) :
    (parse options (Polynomial.text ⟨ts⟩)).outcome = .ok ⟨.reduce ts⟩ ∧
    ((⟨ts⟩ : Polynomial).Canonical →
      (parse options (Polynomial.text ⟨ts⟩)).outcome = .ok ⟨⟨ts⟩⟩) :=
  ⟨parse_terms options h, fun canonical => parse_text options canonical h⟩

/-- Terms that are zero, unsorted and repeated. -/
theorem parse_text_raw_unsorted :
    Polynomial.text ⟨[⟨0, ⟨[('a', 2)]⟩⟩, ⟨3, ⟨[('b', 1)]⟩⟩, ⟨-1, ⟨[('a', 1)]⟩⟩, ⟨4, ⟨[('b', 1)]⟩⟩,
      ⟨-2, .one⟩]⟩ = "0+3b-a+4b-2" ∧
    (parse .default "0+3b-a+4b-2").outcome = .ok ⟨.reduce [⟨0, ⟨[('a', 2)]⟩⟩, ⟨3, ⟨[('b', 1)]⟩⟩,
      ⟨-1, ⟨[('a', 1)]⟩⟩, ⟨4, ⟨[('b', 1)]⟩⟩, ⟨-2, .one⟩]⟩ := by
  have text : Polynomial.text ⟨[⟨0, ⟨[('a', 2)]⟩⟩, ⟨3, ⟨[('b', 1)]⟩⟩, ⟨-1, ⟨[('a', 1)]⟩⟩,
      ⟨4, ⟨[('b', 1)]⟩⟩, ⟨-2, .one⟩]⟩ = "0+3b-a+4b-2" := by decide
  have lettered : ∀ t ∈ ([⟨0, ⟨[('a', 2)]⟩⟩, ⟨3, ⟨[('b', 1)]⟩⟩, ⟨-1, ⟨[('a', 1)]⟩⟩,
      ⟨4, ⟨[('b', 1)]⟩⟩, ⟨-2, .one⟩] : List Term), t.monomial.Lettered := by decide
  exact ⟨text, text ▸ (parse_text_raw .default lettered).1⟩

end Expression

end Expansion
