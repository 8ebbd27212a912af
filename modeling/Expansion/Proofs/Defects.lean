import Expansion.Proofs.MovedOutlines
import Expansion.Proofs.Partners

/-!
# The leftmost defect

**Theorem (`parse_reports_leftmost`).** A text has an outline if its parentheses have no defect, and
otherwise the error is the one of the defect that starts first.

What a defect is, is said about the tokens of the text, their partners and how deep these are
nested. An outline is read from left to right: it starts with a token that is no parenthesis, or
with a stray parenthesis, or with a pair; and the defects behind that, and inside of the pair, are
those of the tokens there alone (`Separate.defect_iff`).

That an opening parenthesis without a partner is not taken for one with a partner rests on how
outlines are made: behind it there is no stray closing parenthesis (`Ordered`).
-/

namespace Expansion

/-! ## Defects of tokens -/

/-- What is wrong with the parentheses of tokens that stand in `depth` groups, with the number of
the token where it starts. -/
inductive Defect (maxDepth depth : Nat) (ts : List Token) : Nat → Error → Prop
  | unopened {j : Nat} {t : Token} : ts[j]? = some t → t.lexeme = .closing →
      (∀ i, ¬Partners ts i j) → Defect maxDepth depth ts j (.unopened t.span)
  | unclosed {i : Nat} {t : Token} : ts[i]? = some t → t.lexeme = .opening →
      (∀ j, ¬Partners ts i j) → Defect maxDepth depth ts i (.unclosed t.span)
  | empty {i j : Nat} {t u : Token} : Partners ts i j → ts[i]? = some t → ts[j]? = some u →
      (∀ v ∈ (ts.take j).drop (i + 1), v.isBlank = true) →
      Defect maxDepth depth ts i (.emptyParenthesis (t.span.through u.span))
  | tooDeep {i j : Nat} {t u : Token} : Partners ts i j → ts[i]? = some t → ts[j]? = some u →
      maxDepth < depth + nesting ts i →
      Defect maxDepth depth ts i (.nestingTooDeep maxDepth (t.span.through u.span))

/-- The error is that of the defect that starts first. Of a pair that is empty and nested too deeply
it is that the pair is empty. -/
structure Leftmost (maxDepth depth : Nat) (ts : List Token) (i : Nat) (e : Error) : Prop where
  defect : Defect maxDepth depth ts i e
  first : ∀ j e', Defect maxDepth depth ts j e' → i ≤ j
  empty : ∀ place, Defect maxDepth depth ts i (.emptyParenthesis place) → e = .emptyParenthesis place

/-- What is found is the leftmost defect, and nothing if there is none. -/
def Finds (maxDepth depth : Nat) (ts : List Token) : Option Error → Prop
  | none => ∀ i e, ¬Defect maxDepth depth ts i e
  | some e => ∃ i, Leftmost maxDepth depth ts i e

section

variable {maxDepth depth extra n i : Nat} {ts us ws : List Token} {t u : Token} {e : Error}

theorem Defect.lt_length (h : Defect maxDepth depth ts i e) : i < ts.length := by
  cases h with
  | unopened at_i _ _ | unclosed at_i _ _ | empty _ at_i _ _ | tooDeep _ at_i _ _ =>
    exact (List.getElem?_eq_some_iff.1 at_i).1

/-- A token that is no parenthesis is no defect. -/
theorem Defect.isParenthesis (h : Defect maxDepth depth ts i e) :
    ∃ t, ts[i]? = some t ∧ t.IsParenthesis := by
  cases h with
  | unopened at_i closes _ => exact ⟨_, at_i, .inr closes⟩
  | unclosed at_i opens _ => exact ⟨_, at_i, .inl opens⟩
  | empty partners _ _ _ | tooDeep partners _ _ _ =>
    obtain ⟨t, at_i, opens⟩ := partners.opening
    exact ⟨t, at_i, .inl opens⟩

/-- The defects of tokens among others are those of the tokens alone. -/
theorem Separate.defect_iff (h : Separate extra n us ws) (lt : i < us.length) :
    Defect maxDepth depth ws (n + i) e ↔ Defect maxDepth (depth + extra) us i e := by
  constructor
  · -- Partners of a token of the part are in the part.
    intro defect
    cases defect with
    | unopened at_i closes alone =>
      rw [h.getElem? lt] at at_i
      exact .unopened at_i closes fun k p => alone _ ((h.partners_iff lt).2 p)
    | unclosed at_i opens alone =>
      rw [h.getElem? lt] at at_i
      exact .unclosed at_i opens fun k p => alone _ ((h.partners_iff p.lt_length).2 p)
    | empty partners at_i at_j blank =>
      obtain ⟨j, rfl, lt'⟩ := h.opening _ _ lt partners
      rw [h.getElem? lt] at at_i
      rw [h.getElem? lt'] at at_j
      rw [h.between lt'] at blank
      exact .empty ((h.partners_iff lt').1 partners) at_i at_j blank
    | tooDeep partners at_i at_j deep =>
      obtain ⟨j, rfl, lt'⟩ := h.opening _ _ lt partners
      rw [h.getElem? lt] at at_i
      rw [h.getElem? lt'] at at_j
      rw [h.nesting_eq lt] at deep
      exact .tooDeep ((h.partners_iff lt').1 partners) at_i at_j (by omega)
  · -- A token without a partner in the part has none outside of it.
    intro defect
    cases defect with
    | unopened at_i closes alone =>
      rw [← h.getElem? lt] at at_i
      refine .unopened at_i closes fun k p => ?_
      obtain ⟨k, rfl⟩ := h.closing _ _ lt p
      exact alone k ((h.partners_iff lt).1 p)
    | unclosed at_i opens alone =>
      rw [← h.getElem? lt] at at_i
      refine .unclosed at_i opens fun k p => ?_
      obtain ⟨k, rfl, lt'⟩ := h.opening _ _ lt p
      exact alone k ((h.partners_iff lt').1 p)
    | empty partners at_i at_j blank =>
      have lt' := partners.lt_length
      rw [← h.getElem? lt] at at_i
      rw [← h.getElem? lt'] at at_j
      rw [← h.between lt'] at blank
      exact .empty ((h.partners_iff lt').2 partners) at_i at_j blank
    | tooDeep partners at_i at_j deep =>
      have lt' := partners.lt_length
      rw [← h.getElem? lt] at at_i
      rw [← h.getElem? lt'] at at_j
      exact .tooDeep ((h.partners_iff lt').2 partners) at_i at_j (by rw [h.nesting_eq lt]; omega)

/-- The leftmost defect of tokens among others is that of the tokens alone, if there is none to the
left of them. -/
theorem Separate.leftmost (h : Separate extra n us ws)
    (before : ∀ k e, k < n → ¬Defect maxDepth depth ws k e)
    (alone : Leftmost maxDepth (depth + extra) us i e) : Leftmost maxDepth depth ws (n + i) e := by
  have lt := alone.defect.lt_length
  refine ⟨(h.defect_iff lt).2 alone.defect, fun j e' defect => ?_, fun place defect => ?_⟩
  · have not_before := fun left => before j e' left defect
    obtain ⟨j, rfl⟩ := Nat.exists_eq_add_of_le (Nat.not_lt.1 not_before)
    by_cases inside : j < us.length
    · have := alone.first j e' ((h.defect_iff inside).1 defect)
      omega
    · omega
  · exact alone.empty place ((h.defect_iff lt).1 defect)

/-! ## Defects of a pair -/

/-- The second of two partners is where no defect starts. -/
theorem Partners.not_defect {j : Nat} (h : Partners ts i j) : ¬Defect maxDepth depth ts j e := by
  obtain ⟨u, at_j, closes⟩ := h.closing
  intro defect
  cases defect with
  | unopened _ _ alone => exact alone i h
  | unclosed at_j' opens _ =>
    cases at_j.symm.trans at_j'
    cases closes.symm.trans opens
  | empty partners _ _ _ | tooDeep partners _ _ _ =>
    obtain ⟨t, at_j', opens⟩ := partners.opening
    cases at_j.symm.trans at_j'
    cases closes.symm.trans opens

/-- Partners are in no defect, unless they are empty or nested too deeply. -/
theorem Partners.defect_cases {j : Nat} (h : Partners ts i j) (at_i : ts[i]? = some t)
    (at_j : ts[j]? = some u) (defect : Defect maxDepth depth ts i e) :
    (e = .emptyParenthesis (t.span.through u.span) ∧
      ∀ v ∈ (ts.take j).drop (i + 1), v.isBlank = true) ∨
    e = .nestingTooDeep maxDepth (t.span.through u.span) ∧ maxDepth < depth + nesting ts i := by
  obtain ⟨t', at_i', opens⟩ := h.opening
  cases at_i.symm.trans at_i'
  cases defect with
  | unopened at_i' closes _ =>
    cases at_i.symm.trans at_i'
    cases opens.symm.trans closes
  | unclosed _ _ alone => exact absurd h (alone j)
  | empty partners at_i' at_j' blank =>
    cases h.opening_unique partners
    cases at_i.symm.trans at_i'
    cases at_j.symm.trans at_j'
    exact .inl ⟨rfl, blank⟩
  | tooDeep partners at_i' at_j' deep =>
    cases h.opening_unique partners
    cases at_i.symm.trans at_i'
    cases at_j.symm.trans at_j'
    exact .inr ⟨rfl, deep⟩

theorem Defect.error_eq_of_alone (alone : ∀ j, ¬Partners ts i j)
    (defect : Defect maxDepth depth ts i e) : ∃ t, ts[i]? = some t ∧
      (t.lexeme = .opening ∧ e = .unclosed t.span ∨ t.lexeme = .closing ∧ e = .unopened t.span) := by
  cases defect with
  | unopened at_i closes _ => exact ⟨_, at_i, .inr ⟨closes, rfl⟩⟩
  | unclosed at_i opens _ => exact ⟨_, at_i, .inl ⟨opens, rfl⟩⟩
  | empty partners _ _ _ | tooDeep partners _ _ _ => exact absurd partners (alone _)

theorem Leftmost.unique {e' : Error} {j : Nat} (h : Leftmost maxDepth depth ts i e)
    (h' : Leftmost maxDepth depth ts j e') : e = e' := by
  obtain rfl : i = j := Nat.le_antisymm (h.first j e' h'.defect) (h'.first i e h.defect)
  by_cases paired : ∃ k, Partners ts i k
  · obtain ⟨k, partners⟩ := paired
    obtain ⟨t, at_i, -⟩ := partners.opening
    obtain ⟨u, at_k, -⟩ := partners.closing
    rcases partners.defect_cases at_i at_k h.defect with ⟨rfl, -⟩ | ⟨rfl, -⟩
    · exact (h'.empty _ h.defect).symm
    · rcases partners.defect_cases at_i at_k h'.defect with ⟨rfl, -⟩ | ⟨rfl, -⟩
      · exact h.empty _ h'.defect
      · rfl
  · have alone := not_exists.1 paired
    obtain ⟨t, at_i, eq⟩ := h.defect.error_eq_of_alone alone
    obtain ⟨t', at_i', eq'⟩ := h'.defect.error_eq_of_alone alone
    cases at_i.symm.trans at_i'
    rcases eq with ⟨opens, rfl⟩ | ⟨closes, rfl⟩ <;> rcases eq' with ⟨opens', rfl⟩ | ⟨closes', rfl⟩
    · rfl
    · cases opens.symm.trans closes'
    · cases closes.symm.trans opens'
    · rfl

end

/-! ## Outlines of token lists -/

namespace Outline

/-- Groups are pairs of parentheses without stray ones inside, and no closing parenthesis is stray.
-/
def OnlyOpening : Outline → Prop
  | nil => True
  | token t rest => t.lexeme ≠ .closing ∧ rest.OnlyOpening
  | group opening body closing rest =>
    opening.lexeme = .opening ∧ closing.lexeme = .closing ∧ body.Matched ∧ rest.OnlyOpening

/-- Groups are pairs of parentheses without stray ones inside, and behind a stray opening
parenthesis there is no stray closing one. -/
def Ordered : Outline → Prop
  | nil => True
  | token t rest => (t.lexeme = .opening → rest.OnlyOpening) ∧ rest.Ordered
  | group opening body closing rest =>
    opening.lexeme = .opening ∧ closing.lexeme = .closing ∧ body.Matched ∧ rest.Ordered

theorem Matched.balanced {o : Outline} (h : o.Matched) : Balanced o.tokens := by
  induction o with
  | nil => exact .nil
  | token t rest ih => exact .plain h.1 (ih h.2)
  | group opening body closing rest ihBody ihRest =>
    exact .pair h.1 h.2.1 (ihBody h.2.2.1) (ihRest h.2.2.2)

theorem Matched.onlyOpening {o : Outline} (h : o.Matched) : o.OnlyOpening := by
  induction o with
  | nil => trivial
  | token t rest ih => exact ⟨fun closes => h.1 (.inr closes), ih h.2⟩
  | group opening body closing rest _ ih => exact ⟨h.1, h.2.1, h.2.2.1, ih h.2.2.2⟩

theorem OnlyOpening.ordered {o : Outline} (h : o.OnlyOpening) : o.Ordered := by
  induction o with
  | nil => trivial
  | token t rest ih => exact ⟨fun _ => h.2, ih h.2⟩
  | group opening body closing rest _ ih => exact ⟨h.1, h.2.1, h.2.2.1, ih h.2.2.2⟩

theorem OnlyOpening.neverBelow {o : Outline} (h : o.OnlyOpening) : NeverBelow o.tokens := by
  induction o with
  | nil => exact neverBelow_nil
  | token t rest ih =>
    refine (ih h.2).cons ?_
    by_cases opens : t.lexeme = .opening
    · rw [Token.rise_opening opens]
      omega
    · exact (Token.rise_plain fun p => p.elim opens h.1).ge
  | group opening body closing rest _ ih =>
    obtain ⟨opens, closes, matched, rest⟩ := h
    exact .pair opens closes matched.balanced.neverBelow matched.balanced.height_eq_zero (ih rest)

theorem Matched.append_ordered {o after : Outline} (h : o.Matched) (h' : after.Ordered) :
    (o.append after).Ordered := by
  induction o with
  | nil => exact h'
  | token t rest ih => exact ⟨fun opens => absurd (.inl opens) h.1, ih h.2⟩
  | group opening body closing rest _ ih => exact ⟨h.1, h.2.1, h.2.2.1, ih h.2.2.2⟩

/-- Levels that are open stand before closing parentheses and have no stray parentheses, and the
outermost level has no stray closing ones. -/
def OrderedLevels (level : Outline) : List (Token × Outline) → Prop
  | [] => level.OnlyOpening
  | (closing, rest) :: around =>
    level.Matched ∧ closing.lexeme = .closing ∧ OrderedLevels rest around

theorem OrderedLevels.token {t : Token} {level : Outline} {around : List (Token × Outline)}
    (plain : ¬t.IsParenthesis) (h : OrderedLevels level around) :
    OrderedLevels (.token t level) around := by
  cases around with
  | nil => exact ⟨fun closes => plain (.inr closes), h⟩
  | cons first around => exact ⟨⟨plain, h.1⟩, h.2⟩

theorem OrderedLevels.group {opening closing : Token} {body level : Outline}
    {around : List (Token × Outline)} (opens : opening.lexeme = .opening)
    (closes : closing.lexeme = .closing) (matched : body.Matched)
    (h : OrderedLevels level around) :
    OrderedLevels (.group opening body closing level) around := by
  cases around with
  | nil => exact ⟨opens, closes, matched, h⟩
  | cons first around => exact ⟨⟨opens, closes, matched, h.1⟩, h.2⟩

theorem orderedLevels_push (t : Token) {p : Partial} (h : OrderedLevels p.level p.around) :
    OrderedLevels (p.push t).level (p.push t).around := by
  obtain ⟨l, i⟩ := t
  obtain ⟨level, around⟩ := p
  cases l with
  | closing => exact ⟨trivial, rfl, h⟩
  | opening =>
    cases around with
    | nil => exact ⟨nofun, h⟩
    | cons first around => exact .group rfl h.2.1 h.1 h.2.2
  | _ => exact h.token (by rintro (eq | eq) <;> cases eq)

theorem ordered_joinLevels {level : Outline} {around : List (Token × Outline)}
    (h : OrderedLevels level around) : (joinLevels level around).Ordered := by
  induction around generalizing level with
  | nil => exact OnlyOpening.ordered h
  | cons first around ih =>
    refine h.1.append_ordered ⟨fun opens => ?_, ih h.2.2⟩
    cases h.2.1.symm.trans opens

/-- In the outline of a token list, no stray closing parenthesis stands behind a stray opening
one. -/
theorem ordered_ofTokens (ts : List Token) : (ofTokens ts).Ordered := by
  have levels : OrderedLevels (ts.foldr Partial.push ⟨nil, []⟩).level
      (ts.foldr Partial.push ⟨nil, []⟩).around := by
    induction ts with
    | nil => trivial
    | cons t ts ih => exact orderedLevels_push t ih
  exact ordered_joinLevels levels

theorem isBlank_of_tokens {o : Outline} (matched : o.Matched)
    (h : ∀ t ∈ o.tokens, t.isBlank = true) : o.isBlank = true := by
  induction o with
  | nil => rfl
  | token t rest ih =>
    obtain ⟨first, others⟩ := List.forall_mem_cons.1 h
    exact Bool.and_eq_true_iff.2 ⟨first, ih matched.2 others⟩
  | group opening body closing rest _ _ =>
    obtain ⟨l, i⟩ := opening
    obtain ⟨rfl, -⟩ := matched
    cases h _ List.mem_cons_self

/-! ## The defect that is reported -/

section

variable {maxDepth depth i j : Nat} {t u : Token} {ts us : List Token} {e : Error}

theorem not_defect_of_plain (plain : ¬t.IsParenthesis) : ¬Defect maxDepth depth (t :: ts) 0 e := by
  intro h
  obtain ⟨u, at_i, parenthesis⟩ := h.isParenthesis
  cases at_i
  exact plain parenthesis

theorem Ordered.alone_of_opening {rest : Outline} (h : (token t rest).Ordered)
    (opens : t.lexeme = .opening) : ∀ j, ¬Partners (t :: rest.tokens) 0 j :=
  fun _ => not_partners_of_neverBelow opens (h.1 opens).neverBelow

/-- A stray parenthesis at the start is the leftmost defect. -/
theorem leftmost_of_alone (alone : ∀ j, ¬Partners ts 0 j) (defect : Defect maxDepth depth ts 0 e) :
    Leftmost maxDepth depth ts 0 e :=
  ⟨defect, fun _ _ _ => Nat.zero_le _, fun _ empty => by
    cases empty with
    | empty partners _ _ _ => exact absurd partners (alone _)⟩

theorem not_defect_cons (plain : ¬t.IsParenthesis)
    (behind : ∀ i e, ¬Defect maxDepth depth ts i e) :
    ∀ i e, ¬Defect maxDepth depth (t :: ts) i e := by
  have alone : ∀ j, ¬Partners (t :: ts) 0 j := alone_of_plain plain
  have separate := Separate.cons alone
  intro i e defect
  cases i with
  | zero => exact not_defect_of_plain plain defect
  | succ i =>
    have lt := Nat.lt_of_succ_lt_succ defect.lt_length
    rw [Nat.add_comm] at defect
    exact behind i e ((separate.defect_iff lt).1 defect)

theorem leftmost_cons (plain : ¬t.IsParenthesis) (h : Leftmost maxDepth depth ts i e) :
    Leftmost maxDepth depth (t :: ts) (1 + i) e := by
  refine (Separate.cons (alone_of_plain plain)).leftmost (fun k e lt defect => ?_) h
  obtain rfl : k = 0 := Nat.lt_one_iff.1 lt
  exact not_defect_of_plain plain defect

theorem Finds.cons {found : Option Error} (plain : ¬t.IsParenthesis)
    (behind : Finds maxDepth depth ts found) : Finds maxDepth depth (t :: ts) found := by
  cases found with
  | none => exact not_defect_cons plain behind
  | some e =>
    obtain ⟨i, leftmost⟩ := behind
    exact ⟨1 + i, leftmost_cons plain leftmost⟩

section

variable (opens : t.lexeme = .opening) (closes : u.lexeme = .closing) (balanced : Balanced ts)

include opens closes balanced

theorem partners_pair (us : List Token) : Partners (t :: (ts ++ u :: us)) 0 (ts.length + 1) :=
  (partners_pair_iff opens closes balanced).2 (.inl ⟨rfl, rfl⟩)

theorem leftmost_empty (us : List Token) (blank : ∀ v ∈ ts, v.isBlank = true) :
    Leftmost maxDepth depth (t :: (ts ++ u :: us)) 0
      (.emptyParenthesis (t.span.through u.span)) := by
  have partners := partners_pair opens closes balanced us
  have closing : (t :: (ts ++ u :: us))[ts.length + 1]? = some u := by simp
  refine ⟨.empty partners rfl closing ?_, fun _ _ _ => Nat.zero_le _, fun place defect => ?_⟩
  · rw [between_pair]
    exact blank
  · rcases partners.defect_cases rfl closing defect with ⟨eq, -⟩ | ⟨eq, -⟩
    · exact eq.symm
    · cases eq

theorem leftmost_tooDeep (us : List Token) (nonblank : ¬∀ v ∈ ts, v.isBlank = true)
    (deep : maxDepth ≤ depth) : Leftmost maxDepth depth (t :: (ts ++ u :: us)) 0
      (.nestingTooDeep maxDepth (t.span.through u.span)) := by
  have partners := partners_pair opens closes balanced us
  have closing : (t :: (ts ++ u :: us))[ts.length + 1]? = some u := by simp
  have nested : nesting (t :: (ts ++ u :: us)) 0 = 1 := openedBefore_one partners (Nat.zero_le _)
  refine ⟨.tooDeep partners rfl closing (by omega), fun _ _ _ => Nat.zero_le _,
    fun place defect => ?_⟩
  cases defect with
  | empty partners' _ _ blank =>
    rw [← partners.opening_unique partners', between_pair] at blank
    exact absurd blank nonblank

variable (nonblank : ¬∀ v ∈ ts, v.isBlank = true) (small : depth < maxDepth)

include nonblank small

theorem not_defect_pair_zero (us : List Token) :
    ¬Defect maxDepth depth (t :: (ts ++ u :: us)) 0 e := by
  have partners := partners_pair opens closes balanced us
  have nested : nesting (t :: (ts ++ u :: us)) 0 = 1 := openedBefore_one partners (Nat.zero_le _)
  have closing : (t :: (ts ++ u :: us))[ts.length + 1]? = some u := by simp
  intro defect
  rcases partners.defect_cases rfl closing defect with ⟨-, blank⟩ | ⟨-, deep⟩
  · rw [between_pair] at blank
    exact nonblank blank
  · omega

theorem leftmost_inside (us : List Token) (h : Leftmost maxDepth (depth + 1) ts i e) :
    Leftmost maxDepth depth (t :: (ts ++ u :: us)) (1 + i) e := by
  refine (Separate.inside opens closes balanced us).leftmost (fun k e lt => ?_) h
  obtain rfl : k = 0 := Nat.lt_one_iff.1 lt
  exact not_defect_pair_zero opens closes balanced nonblank small us

/-- If there is no defect inside of a pair, there is none up to its end. -/
theorem not_defect_before (us : List Token)
    (inside : ∀ i e, ¬Defect maxDepth (depth + 1) ts i e) (k : Nat) (e : Error)
    (lt : k < ts.length + 2) : ¬Defect maxDepth depth (t :: (ts ++ u :: us)) k e := by
  intro defect
  cases k with
  | zero => exact not_defect_pair_zero opens closes balanced nonblank small us defect
  | succ k =>
    by_cases within : k < ts.length
    · rw [Nat.add_comm] at defect
      have separate := Separate.inside opens closes balanced us
      exact inside k e ((separate.defect_iff within).1 defect)
    · obtain rfl : k = ts.length := by omega
      exact (partners_pair opens closes balanced us).not_defect defect

theorem leftmost_behind (inside : ∀ i e, ¬Defect maxDepth (depth + 1) ts i e)
    (h : Leftmost maxDepth depth us i e) :
    Leftmost maxDepth depth (t :: (ts ++ u :: us)) (ts.length + 2 + i) e :=
  (Separate.behind opens closes balanced us).leftmost
    (not_defect_before opens closes balanced nonblank small us inside) h

theorem not_defect_pair (inside : ∀ i e, ¬Defect maxDepth (depth + 1) ts i e)
    (behind : ∀ i e, ¬Defect maxDepth depth us i e) :
    ∀ i e, ¬Defect maxDepth depth (t :: (ts ++ u :: us)) i e := by
  intro k e defect
  have not_before := fun lt =>
    not_defect_before opens closes balanced nonblank small us inside k e lt defect
  obtain ⟨k, rfl⟩ := Nat.exists_eq_add_of_le (Nat.not_lt.1 not_before)
  have lt := defect.lt_length
  rw [List.length_cons, List.length_append, List.length_cons] at lt
  have separate := Separate.behind opens closes balanced us
  exact behind k e ((separate.defect_iff (by omega)).1 defect)

/-- What is found inside of a pair comes before what is found behind it. -/
theorem Finds.pair {found found' : Option Error} (inside : Finds maxDepth (depth + 1) ts found)
    (behind : Finds maxDepth depth us found') :
    Finds maxDepth depth (t :: (ts ++ u :: us)) (found.or found') := by
  cases found with
  | some e =>
    obtain ⟨i, leftmost⟩ := inside
    exact ⟨1 + i, leftmost_inside opens closes balanced nonblank small us leftmost⟩
  | none =>
    cases found' with
    | none => exact not_defect_pair opens closes balanced nonblank small inside behind
    | some e =>
      obtain ⟨i, leftmost⟩ := behind
      exact ⟨_, leftmost_behind opens closes balanced nonblank small inside leftmost⟩

end

/-- A token that is no parenthesis has no defect. -/
theorem defect?_plain (plain : ¬t.IsParenthesis) (rest : Outline) :
    (token t rest).defect? maxDepth depth = rest.defect? maxDepth depth := by
  rw [defect?]
  split
  · next opens => exact absurd (.inl opens) plain
  · next closes => exact absurd (.inr closes) plain
  · rfl

/-- What is reported about an outline is the leftmost defect of its tokens. -/
theorem finds_defect? (maxDepth depth : Nat) {o : Outline} (h : o.Ordered) :
    Finds maxDepth depth o.tokens (o.defect? maxDepth depth) := by
  induction o generalizing depth with
  | nil =>
    intro i e defect
    cases defect.lt_length
  | token t rest ih =>
    by_cases opens : t.lexeme = .opening
    · -- An opening parenthesis that is a token of its own is not closed.
      have alone := h.alone_of_opening opens
      rw [defect?, opens]
      exact ⟨0, leftmost_of_alone alone (.unclosed rfl opens alone)⟩
    by_cases closes : t.lexeme = .closing
    · -- A closing one is not opened.
      have alone : ∀ j, ¬Partners (t :: rest.tokens) 0 j := by
        intro j partners
        obtain ⟨u, at_i, opening⟩ := partners.opening
        cases at_i
        exact opens opening
      have unopened : ∀ i, ¬Partners (t :: rest.tokens) i 0 :=
        fun i partners => Nat.not_lt_zero i partners.lt
      rw [defect?, closes]
      exact ⟨0, leftmost_of_alone alone (.unopened rfl closes unopened)⟩
    · have plain : ¬t.IsParenthesis := not_or_intro opens closes
      rw [defect?_plain plain]
      exact Finds.cons plain (ih depth h.2)
  | group opening body closing rest ihBody ihRest =>
    -- A pair is looked at before its inside, and that before what is behind it.
    obtain ⟨opens, closes, matched, ordered⟩ := h
    have balanced := matched.balanced
    rw [defect?]
    split
    · next blank =>
      exact ⟨0, leftmost_empty opens closes balanced _ (isBlank_of_mem_tokens blank)⟩
    next nonblank =>
    have nonblank := mt (isBlank_of_tokens matched) nonblank
    split
    · next deep => exact ⟨0, leftmost_tooDeep opens closes balanced _ nonblank deep⟩
    next small =>
    have inside := ihBody (depth + 1) matched.onlyOpening.ordered
    exact Finds.pair opens closes balanced nonblank (Nat.not_le.1 small) inside
      (ihRest depth ordered)

end

/-- A text has an outline if its parentheses have no defect, and otherwise the error is that of the
defect that starts first. -/
theorem parse_reports_leftmost (options : Options) (text : String) :
    ((∃ o, parse options text = .ok o) ↔
      ∀ i e, ¬Defect options.maxDepth 0 (tokenize text) i e) ∧
    ∀ e, parse options text = .error e ↔
      ∃ i, Leftmost options.maxDepth 0 (tokenize text) i e := by
  have found := finds_defect? options.maxDepth 0 (ordered_ofTokens (tokenize text))
  rw [tokens_ofTokens] at found
  rw [parse]
  cases defect : (ofTokens (tokenize text)).defect? options.maxDepth 0 with
  | none =>
    rw [defect] at found
    refine ⟨⟨fun _ => found, fun _ => ⟨_, rfl⟩⟩, fun e => ⟨fun eq => ?_, ?_⟩⟩
    · cases eq
    · rintro ⟨i, leftmost⟩
      exact absurd leftmost.defect (found i e)
  | some e =>
    rw [defect] at found
    obtain ⟨i, leftmost⟩ := found
    refine ⟨⟨?_, fun no_defect => absurd leftmost.defect (no_defect i e)⟩, fun e' => ⟨?_, ?_⟩⟩
    · rintro ⟨o, eq⟩
      cases eq
    · intro eq
      cases eq
      exact ⟨i, leftmost⟩
    · rintro ⟨j, leftmost'⟩
      exact congrArg Except.error (leftmost.unique leftmost')

end Outline

end Expansion
