import Mathlib
import Expansion.Proofs.Defects
import Expansion.Proofs.Parsing

/-!
# Raising the nesting limit

**Theorem (`parse_of_larger_limit`).** A text is parsed in the same way with a larger limit, unless
with the smaller one its parentheses are nested too deeply. If it is parsed successfully with the
larger limit, then it is with the smaller one exactly if no pair of parentheses is nested deeper.

The limit matters only where the first defect of the outline is looked for. The two searches go
through the same outline in the same order, and they part at the first group that is too deep for
the smaller limit: up to there they have found nothing, or the same defect. For the second half,
defects of all other kinds do not depend on the limit.
-/

namespace Expansion

/-! ## Two searches for the first defect -/

/-- What is found with another limit is the same, unless what is found with `limit` is a group that
is nested too deeply. -/
def SameUnlessDeep (limit : Nat) (found found' : Option Error) : Prop :=
  found' = found ∨ ∃ place, found = some (.nestingTooDeep limit place)

theorem SameUnlessDeep.or {limit : Nat} {found found' next next' : Option Error}
    (h : SameUnlessDeep limit found found') (behind : SameUnlessDeep limit next next') :
    SameUnlessDeep limit (found.or next) (found'.or next') := by
  rcases h with rfl | ⟨place, rfl⟩
  · cases found' with
    | none => exact behind
    | some e => exact .inl rfl
  · exact .inr ⟨place, rfl⟩

namespace Outline

variable {maxDepth maxDepth' : Nat}

theorem sameUnlessDeep_defect? (le : maxDepth ≤ maxDepth') (depth : Nat) (o : Outline) :
    SameUnlessDeep maxDepth (o.defect? maxDepth depth) (o.defect? maxDepth' depth) := by
  induction o generalizing depth with
  | nil => exact .inl rfl
  | token t rest ih =>
    obtain ⟨l, i⟩ := t
    cases l with
    | opening | closing => exact .inl rfl
    | _ => exact ih depth
  | group opening body closing rest ihBody ihRest =>
    rw [defect?, defect?]
    by_cases blank : body.isBlank = true
    · rw [if_pos blank, if_pos blank]
      exact .inl rfl
    rw [if_neg blank, if_neg blank]
    by_cases deep : maxDepth ≤ depth
    · rw [if_pos deep]
      exact .inr ⟨_, rfl⟩
    rw [if_neg deep, if_neg fun deep' => deep (le.trans deep')]
    exact (ihBody (depth + 1)).or (ihRest depth)

theorem parse_eq_or_tooDeep (le : maxDepth ≤ maxDepth') (text : String) :
    parse ⟨maxDepth'⟩ text = parse ⟨maxDepth⟩ text ∨
      ∃ place, parse ⟨maxDepth⟩ text = .error (.nestingTooDeep maxDepth place) := by
  rw [parse, parse]
  rcases sameUnlessDeep_defect? le 0 (ofTokens (tokenize text)) with eq | ⟨place, eq⟩
  · exact .inl (by rw [eq])
  · exact .inr ⟨place, by rw [eq]⟩

/-- An outline has no defect if its tokens have none. -/
theorem defect?_eq_none_iff (ts : List Token) :
    (ofTokens ts).defect? maxDepth 0 = none ↔ ∀ i e, ¬Defect maxDepth 0 ts i e := by
  have found := finds_defect? maxDepth 0 (ordered_ofTokens ts)
  rw [tokens_ofTokens] at found
  cases defect : (ofTokens ts).defect? maxDepth 0 with
  | none =>
    rw [defect] at found
    exact iff_of_true rfl found
  | some e =>
    rw [defect] at found
    obtain ⟨i, leftmost⟩ := found
    exact iff_of_false nofun fun no_defect => no_defect i e leftmost.defect

end Outline

/-- Where there is no defect with one limit, there is none with another one exactly if no pair is
nested deeper than that. -/
theorem not_defect_iff_nesting_le {maxDepth maxDepth' : Nat} {ts : List Token}
    (no_defect : ∀ i e, ¬Defect maxDepth' 0 ts i e) :
    (∀ i e, ¬Defect maxDepth 0 ts i e) ↔ ∀ i j, Partners ts i j → nesting ts i ≤ maxDepth := by
  constructor
  · intro no_defect i j partners
    obtain ⟨t, at_i, -⟩ := partners.opening
    obtain ⟨u, at_j, -⟩ := partners.closing
    by_contra deep
    exact no_defect i _ (.tooDeep partners at_i at_j (by omega))
  · intro small i e defect
    cases defect with
    | unopened at_i closes alone => exact no_defect i _ (.unopened at_i closes alone)
    | unclosed at_i opens alone => exact no_defect i _ (.unclosed at_i opens alone)
    | empty partners at_i at_j blank => exact no_defect i _ (.empty partners at_i at_j blank)
    | tooDeep partners _ _ deep =>
      have le := small i _ partners
      omega

namespace Expression

open Outline

variable {maxDepth maxDepth' : Nat} {text : String}

/-- A text is parsed if it has no defects and a value. -/
theorem exists_parse_iff (options : Options) (text : String) :
    (∃ e, (parse options text).outcome = .ok e) ↔
      (ofTokens (tokenize text)).defect? options.maxDepth 0 = none ∧
        ∃ p, valueOfTokens (tokenize text) = .ok p := by
  constructor
  · rintro ⟨e, outcome⟩
    obtain ⟨no_defect, value⟩ := parse_ok outcome
    exact ⟨no_defect, e.polynomial, value⟩
  · rintro ⟨no_defect, p, value⟩
    refine ⟨⟨p⟩, ?_⟩
    rw [outcome_parse, no_defect, value]
    rfl

/-- With a larger limit nothing changes but errors of nesting; and what is parsed with the larger
limit is parsed with the smaller one exactly if no pair of parentheses is nested deeper. -/
theorem parse_of_larger_limit (le : maxDepth ≤ maxDepth') (text : String) :
    (parse ⟨maxDepth'⟩ text = parse ⟨maxDepth⟩ text ∨
      ∃ place, (parse ⟨maxDepth⟩ text).outcome = .error (.nestingTooDeep maxDepth place)) ∧
    ((∃ e, (parse ⟨maxDepth'⟩ text).outcome = .ok e) →
      ((∃ e, (parse ⟨maxDepth⟩ text).outcome = .ok e) ↔
        ∀ i j, Partners (tokenize text) i j → nesting (tokenize text) i ≤ maxDepth)) := by
  constructor
  · rcases parse_eq_or_tooDeep le text with eq | ⟨place, eq⟩
    · exact .inl (by rw [parse, parse, eq])
    · exact .inr ⟨place, by rw [parse, eq]; rfl⟩
  · intro accepted
    obtain ⟨no_defect, value⟩ := (exists_parse_iff _ text).1 accepted
    rw [exists_parse_iff, and_iff_left value, defect?_eq_none_iff]
    exact not_defect_iff_nesting_le ((defect?_eq_none_iff _).1 no_defect)

/-- The pair around `b` is nested too deeply for the limit 1, and is the only thing wrong. -/
theorem parse_of_larger_limit_nested :
    (parse ⟨1⟩ "(a)*((b)-c)").outcome = .error (.nestingTooDeep 1 ⟨5, 8⟩) ∧
    ∃ i j, Partners (tokenize "(a)*((b)-c)") i j ∧ 1 < nesting (tokenize "(a)*((b)-c)") i := by
  have small : (parse ⟨1⟩ "(a)*((b)-c)").outcome = .error (.nestingTooDeep 1 ⟨5, 8⟩) := by cbv
  have large : (parse ⟨2⟩ "(a)*((b)-c)").outcome =
      .ok ⟨⟨[⟨1, ⟨[('a', 1), ('b', 1)]⟩⟩, ⟨-1, ⟨[('a', 1), ('c', 1)]⟩⟩]⟩⟩ := by cbv
  have accepted := (parse_of_larger_limit (show 1 ≤ 2 by decide) "(a)*((b)-c)").2 ⟨_, large⟩
  refine ⟨small, ?_⟩
  by_contra no_pair
  push Not at no_pair
  obtain ⟨e, parsed⟩ := accepted.2 fun i j partners => no_pair i j partners
  cases small.symm.trans parsed

end Expression

end Expansion
