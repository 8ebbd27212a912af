import Expansion.Proofs.Entries
import Expansion.Request

/-!
# What errors point at

**Theorem (`error_points`).** The regions of an error of a request are in one part of the line, as
many as the error has labels, and the line has there what the error says it is about.

`Error.PointsAt` says for each cause what the text has at the regions. It follows from what the
error says about tokens, since tokens of a text show their characters. An error in a part of a line
was made for the part alone, and pointing is kept when everything is moved (`PointsAt.shift`).
-/

namespace Expansion

/-! ## Pointing at a text -/

/-- The text has the characters `inner` at the region, and they are an entry: there is no comma in
them, and apart from blanks nothing between them and the next separators. -/
def Span.ShowsEntry (s : Span) (cs inner : List Char) : Prop :=
  ',' ∉ inner ∧ ∃ before left right after,
    cs = before ++ (left ++ (inner ++ (right ++ after))) ∧
    s = ⟨byteLength (before ++ left), byteLength (before ++ left) + byteLength inner⟩ ∧
    (∀ c ∈ left, Lexeme.isBlankChar c = true) ∧ (∀ c ∈ right, Lexeme.isBlankChar c = true) ∧
    (∀ c ∈ before.getLast?, c = ',' ∨ c = ';') ∧ ∀ c ∈ after.head?, c = ',' ∨ c = ';'

/-- The text has at the regions of the error what the error is about. -/
def Error.PointsAt (cs : List Char) : Error → Prop
  | unclosed place => place.Shows cs ['(']
  | unopened place => place.Shows cs [')']
  | emptyParenthesis place => ∃ inner, place.Shows cs ('(' :: (inner ++ [')'])) ∧
      ∀ c ∈ inner, Lexeme.isBlankChar c = true
  | nestingTooDeep _ place => ∃ inner, place.Shows cs ('(' :: (inner ++ [')'])) ∧
      Balanced (significantTokens (String.ofList inner))
  | malformedTerm found place => place.Shows cs found.toList
  | missingOperand op place => place.Shows cs [op.char]
  | missingOperator first second => ∃ left gap right, first.Shows cs left ∧ second.Shows cs right ∧
      (first.through second).Shows cs (left ++ (gap ++ right)) ∧
      ∀ c ∈ gap, Lexeme.isBlankChar c = true
  | malformedBinding entry place =>
      if entry = "" then place.Shows cs [','] else place.ShowsEntry cs entry.toList
  | duplicateBinding name first second => first.stop ≤ second.start ∧ ∃ left right,
      first.ShowsEntry cs (name :: left) ∧ second.ShowsEntry cs (name :: right)
  | exponentTooLarge place => ∃ inner, place.Shows cs inner ∧
      ((∀ c ∈ inner, c.isDigit = true) ∨ (∃ x, x.isLower = true ∧ inner = [x]) ∨ inner = ['*'])

/-! ## The characters of tokens -/

namespace Lexeme

/-- A comma is in no lexeme but its own. -/
theorem comma_not_mem_chars {l : Lexeme} (lexical : l.Lexical) (alone : l.Standalone)
    (ne : l ≠ .comma) : ',' ∉ l.chars := by
  intro mem
  cases l with
  | comma => exact ne rfl
  | blanks cs => cases lexical ',' mem
  | digits cs => cases lexical ',' mem
  | letter x =>
    obtain rfl := List.mem_singleton.1 mem
    cases lexical
  | operator op => cases op <;> cases List.mem_singleton.1 mem
  | equals | opening | closing => cases List.mem_singleton.1 mem
  | symbol c =>
    obtain rfl := List.mem_singleton.1 mem
    cases alone

end Lexeme

section

variable {text : String} {t : Token} {us : List Token}

theorem lexical_of_mem (h : t ∈ tokenize text) : t.lexeme.Lexical :=
  lexical_lexemes _ _ (lexeme_mem_of_mem_tokenize h)

theorem standalone_of_mem (h : t ∈ tokenize text) : t.lexeme.Standalone :=
  standalone_lexemes _ _ (lexeme_mem_of_mem_tokenize h)

theorem isBlankChar_of_mem_charsOf (sub : us ⊆ tokenize text) (blank : ∀ t ∈ us, t.isBlank = true) :
    ∀ c ∈ Token.charsOf us, Lexeme.isBlankChar c = true := by
  intro c hc
  obtain ⟨t, mem, hc⟩ := List.mem_flatMap.1 hc
  have lexical := lexical_of_mem (sub mem)
  have blank := blank t mem
  obtain ⟨l, i⟩ := t
  cases l with
  | blanks cs => exact lexical c hc
  | _ => cases blank

theorem comma_not_mem_charsOf (sub : us ⊆ tokenize text) (no_comma : Entry.NoComma us) :
    ',' ∉ Token.charsOf us := by
  intro mem
  obtain ⟨t, ht, mem⟩ := List.mem_flatMap.1 mem
  exact Lexeme.comma_not_mem_chars (lexical_of_mem (sub ht)) (standalone_of_mem (sub ht))
    (no_comma t ht) mem

theorem charsOf_ne_nil (sub : us ⊆ tokenize text) (ne : us ≠ []) : Token.charsOf us ≠ [] := by
  cases us with
  | nil => exact absurd rfl ne
  | cons t us =>
    intro nil
    have first := (List.append_eq_nil_iff.1 nil).1
    exact Lexeme.chars_ne_nil_of_standalone (standalone_of_mem (sub List.mem_cons_self)) first

end

/-! ## Errors about the tokens of an expression -/

/-- A pair of parentheses around tokens without blanks is one around tokens with blanks. -/
theorem exists_pair {ts us : List Token} {t u : Token}
    (h : t :: (us ++ [u]) <:+: ts.filter (!·.isBlank)) :
    ∃ before inner after, ts = before ++ ((t :: (inner ++ [u])) ++ after) ∧
      inner.filter (!·.isBlank) = us := by
  have nonblank : ∀ v ∈ t :: (us ++ [u]), (!v.isBlank) = true :=
    fun v hv => (List.mem_filter.1 (h.subset hv)).2
  obtain ⟨before, ws, after, rfl, filter, head, last⟩ := exists_trimmed h
  obtain ⟨ws, rfl⟩ := List.head?_eq_some_iff.1 head
  rw [List.filter_cons, if_pos (nonblank t List.mem_cons_self)] at filter
  have filter := (List.cons.inj filter).2
  have ends : (us ++ [u]).getLast? = some u := List.getLast?_concat
  have ne : ws ≠ [] := by
    rintro rfl
    exact List.append_ne_nil_of_right_ne_nil us (List.cons_ne_nil u []) filter.symm
  rw [List.getLast?_cons, List.getLast?_cons, ends] at last
  obtain ⟨v, found⟩ := Option.ne_none_iff_exists'.1 (mt List.getLast?_eq_none_iff.1 ne)
  rw [found] at last
  obtain rfl : v = u := Option.some.inj last
  obtain ⟨inner, rfl⟩ := List.getLast?_eq_some_iff.1 found
  have single : [v].filter (!·.isBlank) = [v] :=
    List.filter_eq_self.2 fun w hw => nonblank w (by simp [List.mem_singleton.1 hw])
  rw [List.filter_append, single] at filter
  exact ⟨before, inner, after, rfl, List.append_cancel_right filter⟩

/-- Whether parentheses pair up depends on the lexemes only. -/
theorem Balanced.congr {ts us : List Token} (h : Balanced ts)
    (eq : us.map Token.lexeme = ts.map Token.lexeme) : Balanced us := by
  induction h generalizing us with
  | nil =>
    obtain rfl := List.map_eq_nil_iff.1 eq
    exact .nil
  | plain plain _ ih =>
    obtain ⟨u, us, rfl, lexeme, eq⟩ := List.map_eq_cons_iff.1 eq
    refine .plain ?_ (ih eq)
    rwa [Token.IsParenthesis, lexeme]
  | pair opens closes _ _ ih ih' =>
    rw [List.map_cons, List.map_append, List.map_cons] at eq
    obtain ⟨t, us, rfl, lexeme, eq⟩ := List.map_eq_cons_iff.1 eq
    obtain ⟨us, vs, rfl, inside, eq⟩ := List.map_eq_append_iff.1 eq
    obtain ⟨u, vs, rfl, lexeme', behind⟩ := List.map_eq_cons_iff.1 eq
    exact .pair (lexeme.trans opens) (lexeme'.trans closes) (ih inside) (ih' behind)

theorem map_lexeme_filter (ts : List Token) : (ts.filter (!·.isBlank)).map Token.lexeme =
    (ts.map Token.lexeme).filter (!·.isBlank) := by
  rw [List.filter_map]
  rfl

/-- The tokens of a part of a text alone have the lexemes that they have in the text. -/
theorem map_lexeme_significantTokens {text : String} {ts us vs : List Token}
    (h : tokenize text = ts ++ (us ++ vs)) :
    (significantTokens (String.ofList (Token.charsOf us))).map Token.lexeme =
      (us.filter (!·.isBlank)).map Token.lexeme := by
  have alone := lexemes_charsOf ts us vs (by rw [h, List.append_assoc])
  rw [significantTokens, map_lexeme_filter, map_lexeme_filter, tokenize, Token.lexeme_place,
    String.toList_ofList, alone]

section

variable {text : String} {e : Error}

theorem shows_pair {us ts vs : List Token} {t u : Token}
    (h : tokenize text = ts ++ ((t :: (us ++ [u])) ++ vs)) (opens : t.lexeme = .opening)
    (closes : u.lexeme = .closing) :
    (t.span.through u.span).Shows text.toList ('(' :: (Token.charsOf us ++ [')'])) := by
  have shows := shows_of_over h ((over_singleton t).through (over_singleton u) us)
  have chars : Token.charsOf (t :: (us ++ [u])) = '(' :: (Token.charsOf us ++ [')']) := by
    simp [Token.charsOf, Token.chars, opens, closes, Lexeme.chars]
  rwa [chars] at shows

theorem mem_tokenize_of_significant {t : Token} (mem : t ∈ significantTokens text) :
    t ∈ tokenize text :=
  (List.mem_filter.1 mem).1

theorem subset_tokenize_of_eq {before us after : List Token}
    (eq : tokenize text = before ++ (us ++ after)) : us ⊆ tokenize text :=
  eq ▸ List.subset_append_of_subset_right before (List.subset_append_left us after)

/-- Between parentheses that stand next to each other, but for blanks, there are only blanks. -/
theorem pointsAt_emptyParenthesis {t u : Token} (within : [t, u] <:+: significantTokens text)
    (opens : t.lexeme = .opening) (closes : u.lexeme = .closing) :
    (Error.emptyParenthesis (t.span.through u.span)).PointsAt text.toList := by
  have pair : t :: ([] ++ [u]) <:+: significantTokens text := within
  obtain ⟨before, inner, after, eq, filtered⟩ := exists_pair pair
  have behind : tokenize text = (before ++ [t]) ++ (inner ++ ([u] ++ after)) := by
    rw [eq]
    simp
  have blank : ∀ v ∈ inner, v.isBlank = true := by
    simpa using List.filter_eq_nil_iff.1 filtered
  exact ⟨_, shows_pair eq opens closes,
    isBlankChar_of_mem_charsOf (subset_tokenize_of_eq behind) blank⟩

/-- Between the parentheses that are nested too deep, the text alone has balanced parentheses. -/
theorem pointsAt_nestingTooDeep {t u : Token} {us : List Token}
    (within : t :: (us ++ [u]) <:+: significantTokens text) (opens : t.lexeme = .opening)
    (closes : u.lexeme = .closing) (balanced : Balanced us) (limit : Nat) :
    (Error.nestingTooDeep limit (t.span.through u.span)).PointsAt text.toList := by
  obtain ⟨before, inner, after, eq, rfl⟩ := exists_pair within
  have behind : tokenize text = (before ++ [t]) ++ (inner ++ ([u] ++ after)) := by
    rw [eq]
    simp
  exact ⟨_, shows_pair eq opens closes, balanced.congr (map_lexeme_significantTokens behind)⟩

/-- The two operands without an operator stand next to each other, but for blanks. -/
theorem pointsAt_missingOperator {us vs : List Token} {first second : Span}
    (within : us ++ vs <:+: significantTokens text) (left : first.Over us)
    (right : second.Over vs) :
    (Error.missingOperator first second).PointsAt text.toList := by
  obtain ⟨before, us, gap, vs, after, eq, blank, head, last, head', last'⟩ :=
    exists_trimmed_pair within
  have left := left.congr head last
  have right := right.congr head' last'
  -- The cut, grouped around each of the four parts that are shown.
  have at_gap : tokenize text = (before ++ us) ++ (gap ++ (vs ++ after)) := by
    rw [eq]
    simp
  have at_right : tokenize text = (before ++ (us ++ gap)) ++ (vs ++ after) := by
    rw [eq]
    simp
  have at_both : tokenize text = before ++ ((us ++ (gap ++ vs)) ++ after) := by
    rw [eq]
    simp
  have shows := shows_of_over at_both (left.through right gap)
  rw [charsOf_append, charsOf_append] at shows
  exact ⟨_, _, _, shows_of_over eq left, shows_of_over at_right right, shows,
    isBlankChar_of_mem_charsOf (subset_tokenize_of_eq at_gap) blank⟩

/-- An exponent that is too large is shown by its digits, by a letter without digits, or by the `*`
of a product. -/
theorem pointsAt_exponentTooLarge {t : Token} (mem : t ∈ significantTokens text)
    (raises : t.Raises) : (Error.exponentTooLarge t.span).PointsAt text.toList := by
  have shows := shows_of_mem (mem_tokenize_of_significant mem)
  have lexical := lexical_of_mem (mem_tokenize_of_significant mem)
  obtain ⟨l, i⟩ := t
  refine ⟨_, shows, ?_⟩
  rcases raises with ⟨ds, rfl⟩ | ⟨x, rfl⟩ | rfl
  · exact .inl lexical
  · exact .inr (.inl ⟨x, lexical, rfl⟩)
  · exact .inr (.inr rfl)

/-- What an error says about tokens, it says about the text. -/
theorem Error.About.pointsAt (h : e.About (significantTokens text)) : e.PointsAt text.toList := by
  cases h with
  | @unclosed t mem lexeme | @unopened t mem lexeme =>
    have shows := shows_of_mem (mem_tokenize_of_significant mem)
    rwa [Token.chars, lexeme] at shows
  | emptyParenthesis within opens closes => exact pointsAt_emptyParenthesis within opens closes
  | nestingTooDeep within opens closes balanced =>
    exact pointsAt_nestingTooDeep within opens closes balanced _
  | @malformedTerm t mem =>
    have shows := shows_of_mem (mem_tokenize_of_significant mem)
    rwa [← String.toList_ofList (l := t.chars)] at shows
  | missingOperand operator =>
    obtain ⟨i, mem, rfl⟩ := operator
    exact shows_of_mem (mem_tokenize_of_significant mem)
  | missingOperator within left right => exact pointsAt_missingOperator within left right
  | exponentTooLarge mem raises => exact pointsAt_exponentTooLarge mem raises

/-- Every region of an error is over some of the tokens that the error is about. -/
theorem Error.About.exists_over {ts : List Token} (h : e.About ts) :
    ∀ s ∈ e.spans, ∃ us, us <:+: ts ∧ s.Over us := by
  have single {t : Token} (mem : t ∈ ts) : ∀ s ∈ [t.span], ∃ us, us <:+: ts ∧ s.Over us := by
    obtain ⟨before, after, rfl⟩ := List.append_of_mem mem
    exact List.forall_mem_singleton.2 ⟨[t], ⟨before, after, by simp⟩, over_singleton t⟩
  cases h with
  | unclosed mem | unopened mem | malformedTerm mem | exponentTooLarge mem => exact single mem
  | missingOperand operator =>
    obtain ⟨i, mem, rfl⟩ := operator
    exact single mem
  | @emptyParenthesis t u within =>
    exact List.forall_mem_singleton.2
      ⟨_, within, (over_singleton t).through (over_singleton u) []⟩
  | @nestingTooDeep t u us limit within =>
    exact List.forall_mem_singleton.2
      ⟨_, within, (over_singleton t).through (over_singleton u) us⟩
  | @missingOperator us vs _ _ within first second =>
    have left := (List.prefix_append us vs).isInfix.trans within
    have right := (List.suffix_append us vs).isInfix.trans within
    exact List.forall_mem_cons.2
      ⟨⟨us, left, first⟩, List.forall_mem_singleton.2 ⟨vs, right, second⟩⟩

/-- A region over tokens that are not blank shows something. -/
theorem shows_of_over_significant {s : Span} {us : List Token}
    (within : us <:+: significantTokens text) (reaches : s.Over us) :
    ∃ inner, inner ≠ [] ∧ s.Shows text.toList inner := by
  obtain ⟨before, us', after, eq, filter, head, last⟩ := exists_trimmed within
  have reaches' := reaches.congr head last
  exact ⟨_, charsOf_ne_nil (subset_tokenize_of_eq eq) reaches'.ne_nil, shows_of_over eq reaches'⟩

/-! ## Errors about entries -/

theorem eq_comma_of_getLast?_charsOf {ts : List Token} (h : ∀ t ∈ ts.getLast?, t.lexeme = .comma) :
    ∀ c ∈ (Token.charsOf ts).getLast?, c = ',' := by
  intro c hc
  cases found : ts.getLast? with
  | none =>
    obtain rfl := List.getLast?_eq_none_iff.1 found
    cases hc
  | some t =>
    obtain ⟨us, rfl⟩ := List.getLast?_eq_some_iff.1 found
    have comma : Token.charsOf [t] = [','] := by
      simp [Token.charsOf, Token.chars, h t found, Lexeme.chars]
    rw [charsOf_append, comma, List.getLast?_concat] at hc
    exact (Option.some.inj hc).symm

theorem eq_comma_of_head?_charsOf {ts : List Token} (h : ∀ t ∈ ts.head?, t.lexeme = .comma) :
    ∀ c ∈ (Token.charsOf ts).head?, c = ',' := by
  intro c hc
  cases ts with
  | nil => cases hc
  | cons t ts =>
    have comma : Token.charsOf (t :: ts) = ',' :: Token.charsOf ts := by
      simp [Token.charsOf, Token.chars, h t rfl, Lexeme.chars]
    rw [comma] at hc
    exact (Option.some.inj hc).symm

theorem Span.ShowsEntry.shows {s : Span} {cs inner : List Char} (h : s.ShowsEntry cs inner) :
    s.Shows cs inner := by
  obtain ⟨-, before, left, right, after, eq, place, -⟩ := h
  exact ⟨before ++ left, right ++ after, by rw [eq]; simp, place⟩

namespace Entry.Stands

variable {ts done us rest : List Token} {s : Span}

theorem subset (h : Stands ts done us) : us ⊆ ts := by
  obtain ⟨piece, after, rfl, no_comma, trimmed, comma⟩ := h.split
  obtain ⟨left, right, rfl, -⟩ := trimmed.around
  intro v hv
  simp [hv]

theorem place_of_over {left right after : List Token}
    (eq : tokenize text = done ++ (left ++ (us ++ right) ++ after)) (reaches : s.Over us) :
    s = ⟨byteLength (Token.charsOf (done ++ left)),
      byteLength (Token.charsOf (done ++ left)) + byteLength (Token.charsOf us)⟩ := by
  have split : tokenize text = (done ++ left) ++ (us ++ (right ++ after)) := by
    rw [eq]
    simp
  exact span_eq_of_over split reaches

/-- An entry of a text stands in it between the separators around it. -/
theorem showsEntry (h : Stands (tokenize text) done us) (reaches : s.Over us) :
    s.ShowsEntry text.toList (Token.charsOf us) := by
  obtain ⟨piece, after, eq, no_comma, trimmed, comma⟩ := h.split
  obtain ⟨left, right, rfl, blank, blank'⟩ := trimmed.around
  have place := place_of_over eq reaches
  have sub {vs : List Token} (within : vs ⊆ left ++ (us ++ right)) : vs ⊆ tokenize text := by
    intro v hv
    rw [eq]
    exact List.mem_append_right _ (List.mem_append_left _ (within hv))
  have us_sub : us ⊆ left ++ (us ++ right) := fun v hv => by simp [hv]
  refine ⟨comma_not_mem_charsOf (sub us_sub) fun t ht => no_comma t (us_sub ht), Token.charsOf done,
    Token.charsOf left, Token.charsOf right, Token.charsOf after, ?_, ?_, ?_, ?_, ?_, ?_⟩
  · rw [← charsOf_tokenize, eq]
    simp [charsOf_append]
  · rw [← charsOf_append, place]
  · exact isBlankChar_of_mem_charsOf (sub (List.subset_append_left _ _)) blank
  · exact isBlankChar_of_mem_charsOf (sub fun v hv => by simp [hv]) blank'
  · exact fun c hc => .inl (eq_comma_of_getLast?_charsOf h.before c hc)
  · exact fun c hc => .inl (eq_comma_of_head?_charsOf comma c hc)

theorem le_start (h : Stands (tokenize text) done us) (reaches : s.Over us) :
    byteLength (Token.charsOf done) ≤ s.start := by
  obtain ⟨piece, after, eq, no_comma, trimmed, comma⟩ := h.split
  obtain ⟨left, right, rfl, -⟩ := trimmed.around
  have place := place_of_over eq reaches
  rw [place, charsOf_append, byteLength_append]
  exact Nat.le_add_right _ _

theorem stop_le (h : Stands ts done us) (split : tokenize text = ts ++ rest) (reaches : s.Over us) :
    s.stop ≤ byteLength (Token.charsOf ts) := by
  obtain ⟨piece, after, rfl, no_comma, trimmed, comma⟩ := h.split
  obtain ⟨left, right, rfl, -⟩ := trimmed.around
  rw [List.append_assoc] at split
  have place := place_of_over (split.trans (congrArg (done ++ ·) (List.append_assoc ..))) reaches
  rw [place]
  simp only [charsOf_append, byteLength_append]
  omega

end Entry.Stands

/-- What an error says about entries, it says about the text. -/
theorem Error.AboutEntries.pointsAt (h : e.AboutEntries (tokenize text)) :
    e.PointsAt text.toList ∧ ∀ s ∈ e.spans, ∃ inner, inner ≠ [] ∧ s.Shows text.toList inner := by
  cases h with
  | @empty t mem comma =>
    have shows := shows_of_mem mem
    rw [Token.chars, comma] at shows
    refine ⟨?_, List.forall_mem_singleton.2 ⟨_, List.cons_ne_nil _ _, shows⟩⟩
    rw [PointsAt, if_pos String.ofList_nil]
    exact shows
  | @malformed done us place stands reaches =>
    have shows := stands.showsEntry reaches
    have ne : Token.charsOf us ≠ [] := charsOf_ne_nil stands.subset reaches.ne_nil
    refine ⟨?_, List.forall_mem_singleton.2 ⟨_, ne, shows.shows⟩⟩
    have text_ne : String.ofList (Token.charsOf us) ≠ "" := fun empty => ne (by
      simpa using congrArg String.toList empty)
    rw [PointsAt, if_neg text_ne, String.toList_ofList]
    exact shows
  | duplicate stands head reaches stands' head' reaches' =>
    obtain ⟨us, rfl⟩ := List.head?_eq_some_iff.1 head
    obtain ⟨vs, rfl⟩ := List.head?_eq_some_iff.1 head'
    obtain ⟨piece, after, eq, -⟩ := stands'.split
    have first := stands.append (List.cons_ne_nil _ _) stands'.before (piece ++ after)
    rw [← eq] at first
    have shows := first.showsEntry reaches
    have shows' := stands'.showsEntry reaches'
    have ordered := (stands.stop_le eq reaches).trans (stands'.le_start reaches')
    refine ⟨⟨ordered, _, _, shows, shows'⟩, ?_⟩
    exact List.forall_mem_cons.2 ⟨⟨_, List.cons_ne_nil _ _, shows.shows⟩,
      List.forall_mem_singleton.2 ⟨_, List.cons_ne_nil _ _, shows'.shows⟩⟩

end

/-! ## Parts of a line -/

section

variable {α : Type} {P : α → Prop} {xs ys : List α}

theorem forall_mem_getLast?_append (left : ∀ x ∈ xs.getLast?, P x) (right : ∀ y ∈ ys.getLast?, P y) :
    ∀ z ∈ (xs ++ ys).getLast?, P z := by
  intro z hz
  rw [List.getLast?_append] at hz
  cases found : ys.getLast? with
  | some y =>
    rw [found] at hz
    exact right z (found.trans hz)
  | none =>
    rw [found] at hz
    exact left z hz

theorem forall_mem_head?_append (left : ∀ x ∈ xs.head?, P x) (right : ∀ y ∈ ys.head?, P y) :
    ∀ z ∈ (xs ++ ys).head?, P z := by
  intro z hz
  cases xs with
  | nil => exact right z hz
  | cons x xs => exact left z hz

end

namespace Request

/-- The line has the part between two separators, or between one and an end of the line. -/
structure IsPart (line before part after : List Char) : Prop where
  split : line = before ++ (part ++ after)
  whole : ';' ∉ part
  left : ∀ c ∈ before.getLast?, c = ';'
  right : ∀ c ∈ after.head?, c = ';'

end Request

open Request

section

variable {line before part after inner : List Char} {s : Span}

theorem Span.Shows.inLine (h : s.Shows part inner) (within : IsPart line before part after) :
    (s.shift (byteLength before)).Shows line inner := by
  rw [within.split]
  exact h.shift before after

theorem Span.ShowsEntry.inLine (h : s.ShowsEntry part inner)
    (within : IsPart line before part after) :
    (s.shift (byteLength before)).ShowsEntry line inner := by
  obtain ⟨no_comma, before', left, right, after', eq, place, blank, blank', first, last⟩ := h
  refine ⟨no_comma, before ++ before', left, right, after' ++ after, ?_, ?_, blank, blank', ?_, ?_⟩
  · rw [within.split, eq]
    simp
  · rw [place, Span.shift]
    simp only [byteLength_append, Span.mk.injEq]
    omega
  · exact forall_mem_getLast?_append (fun c hc => .inr (within.left c hc)) first
  · exact forall_mem_head?_append last fun c hc => .inr (within.right c hc)

/-- An error in a part of a line points at the line, if it is moved to where the part stands. -/
theorem Error.PointsAt.inLine {e : Error} (h : e.PointsAt part)
    (within : IsPart line before part after) : (e.shift (byteLength before)).PointsAt line := by
  cases e with
  | unclosed | unopened | malformedTerm | missingOperand => exact Span.Shows.inLine h within
  | emptyParenthesis | nestingTooDeep | exponentTooLarge =>
    exact h.imp fun inner h => ⟨h.1.inLine within, h.2⟩
  | missingOperator first second =>
    obtain ⟨left, gap, right, shows, shows', both, blank⟩ := h
    exact ⟨left, gap, right, shows.inLine within, shows'.inLine within, both.inLine within, blank⟩
  | malformedBinding entry place =>
    rw [PointsAt] at h
    rw [shift, PointsAt]
    split
    · next empty =>
      rw [if_pos empty] at h
      exact h.inLine within
    · next entry =>
      rw [if_neg entry] at h
      exact h.inLine within
  | duplicateBinding name first second =>
    obtain ⟨le, left, right, shows, shows'⟩ := h
    exact ⟨Nat.add_le_add_right le _, left, right, shows.inLine within, shows'.inLine within⟩

end

namespace Request

/-! ## Requests -/

theorem isPart_first {source : List Char} (rest : List (List Char)) (no_sep : ';' ∉ source) :
    ∃ after, IsPart (Text.joinParts ';' (source :: rest)) [] source after := by
  cases rest with
  | nil => exact ⟨[], ⟨(List.append_nil source).symm, no_sep, nofun, nofun⟩⟩
  | cons p ps =>
    refine ⟨';' :: Text.joinParts ';' (p :: ps), ⟨rfl, no_sep, nofun, ?_⟩⟩
    rintro c ⟨⟩
    rfl

/-- A part of what follows a separator is a part of the whole. -/
theorem IsPart.behind {line before part after : List Char} (h : IsPart line before part after)
    {front : List Char} (ends : ∀ c ∈ front.getLast?, c = ';') :
    IsPart (front ++ line) (front ++ before) part after where
  split := by rw [h.split, List.append_assoc]
  whole := h.whole
  left := forall_mem_getLast?_append ends h.left
  right := h.right

theorem eq_of_mem_getLast?_concat (cs : List Char) : ∀ c ∈ (cs ++ [';']).getLast?, c = ';' := by
  rw [List.getLast?_concat]
  rintro c ⟨⟩
  rfl

theorem joinParts_cons_cons (p q : List Char) (ps : List (List Char)) :
    Text.joinParts ';' (p :: q :: ps) = (p ++ [';']) ++ Text.joinParts ';' (q :: ps) := by
  rw [Text.joinParts]
  simp

/-- An error in evaluating is one of a part that holds bindings, moved to where the part stands. -/
theorem exists_part_of_evaluateAll {x : Expression} {e : Error} {parts : List (List Char)}
    {front : List Char} {offset : Nat} (length : offset = byteLength front)
    (ends : ∀ c ∈ front.getLast?, c = ';') (no_sep : ∀ p ∈ parts, ';' ∉ p)
    (h : (evaluateAll x offset parts).outcome = .error e) :
    ∃ before part after e', IsPart (front ++ Text.joinParts ';' parts) before part after ∧
      Bindings.parse (String.ofList part) = .error e' ∧ e = e'.shift (byteLength before) := by
  induction parts generalizing front offset with
  | nil => cases h
  | cons part rest ih =>
    rw [evaluateAll] at h
    simp only [Logged.outcome_bind, Logged.outcome_ofExcept] at h
    obtain ⟨first_no_sep, rest_no_sep⟩ := List.forall_mem_cons.1 no_sep
    cases parsed : Bindings.parse (String.ofList part) with
    | error e' =>
      -- The first part is the one: it stands right behind the front.
      rw [parsed] at h
      cases h
      obtain ⟨after, is_part⟩ := isPart_first rest first_no_sep
      have is_part := is_part.behind ends
      rw [List.append_nil] at is_part
      exact ⟨front, part, after, e', is_part, parsed, by rw [length]⟩
    | ok b =>
      rw [parsed] at h
      cases rest with
      | nil => cases h
      | cons q rest =>
        -- The error is one of the other parts.
        have behind : (evaluateAll x (offset + byteLength part + 1) (q :: rest)).outcome =
            .error e := by
          cases found : (evaluateAll x (offset + byteLength part + 1) (q :: rest)).outcome with
          | ok lines =>
            rw [found] at h
            cases h
          | error e' =>
            rw [found] at h
            exact h
        -- They stand behind the front, the first part and its separator.
        have moved : offset + byteLength part + 1 = byteLength ((front ++ part) ++ [';']) := by
          rw [length, byteLength_append, byteLength_append]
          rfl
        have line : front ++ Text.joinParts ';' (part :: q :: rest) =
            ((front ++ part) ++ [';']) ++ Text.joinParts ';' (q :: rest) := by
          rw [joinParts_cons_cons]
          simp
        rw [line]
        exact ih moved (eq_of_mem_getLast?_concat _) rest_no_sep behind

/-- An error of a request is one of a part of the line, moved to where the part stands: of the
expression, or of some bindings. -/
theorem exists_part_of_error {options : Options} {line : String} {e : Error}
    (h : (run options line).outcome = .error e) :
    ∃ before part after e', IsPart line.toList before part after ∧
      ((Expression.parse options (String.ofList part)).outcome = .error e' ∨
        Bindings.parse (String.ofList part) = .error e') ∧
      e = e'.shift (byteLength before) := by
  have joined := Text.joinParts_parts ';' line.toList
  rw [run] at h
  split at h
  · cases h
  · next source bindings parts =>
    have no_sep : ∀ p ∈ source :: bindings, ';' ∉ p := by
      rw [← parts]
      exact fun p => Text.not_mem_of_mem_parts
    obtain ⟨source_no_sep, no_sep⟩ := List.forall_mem_cons.1 no_sep
    rw [parts] at joined
    rw [Logged.outcome_bind] at h
    cases parsed : (Expression.parse options (String.ofList source)).outcome with
    | error e' =>
      -- The expression is the first part of the line.
      rw [parsed] at h
      cases h
      obtain ⟨after, is_part⟩ := isPart_first bindings source_no_sep
      rw [joined] at is_part
      exact ⟨[], source, after, _, is_part, .inl parsed, (Error.shift_zero _).symm⟩
    | ok x =>
      rw [parsed] at h
      cases bindings with
      | nil => cases h
      | cons p ps =>
        -- The bindings stand behind the expression and its separator.
        have length : byteLength source + 1 = byteLength (source ++ [';']) := by
          rw [byteLength_append]
          rfl
        obtain ⟨before, part, after, e', is_part, parsed, eq⟩ :=
          exists_part_of_evaluateAll length (eq_of_mem_getLast?_concat source) no_sep h
        rw [← joinParts_cons_cons, joined] at is_part
        exact ⟨before, part, after, e', is_part, .inr parsed, eq⟩

/-- What is wrong with an expression or with bindings, is so at the regions of the error. -/
theorem pointsAt_of_part {options : Options} {text : String} {e : Error}
    (h : (Expression.parse options text).outcome = .error e ∨ Bindings.parse text = .error e) :
    e.PointsAt text.toList ∧ ∀ s ∈ e.spans, ∃ inner, inner ≠ [] ∧ s.Shows text.toList inner := by
  rcases h with h | h
  · have about := Expression.reports_parse options text
    rw [h] at about
    refine ⟨Error.About.pointsAt about, fun s hs => ?_⟩
    obtain ⟨us, within, reaches⟩ := Error.About.exists_over about s hs
    exact shows_of_over_significant within reaches
  · exact (Bindings.aboutEntries_of_parse h).pointsAt

/-- The regions of an error are as many as its labels, the line has there what the error is about,
and they are not empty, start and end between characters, and are all in one part of the line. -/
theorem error_points {options : Options} {line : String} {e : Error}
    (h : (run options line).outcome = .error e) :
    e.spans.length = e.labels.length ∧ e.PointsAt line.toList ∧
    ∃ before part after, IsPart line.toList before part after ∧ ∀ s ∈ e.spans,
      s.start < s.stop ∧ (∃ inner, s.Shows line.toList inner) ∧
      byteLength before ≤ s.start ∧ s.stop ≤ byteLength before + byteLength part := by
  obtain ⟨before, part, after, e, is_part, failed, rfl⟩ := exists_part_of_error h
  obtain ⟨points, shows⟩ := pointsAt_of_part failed
  rw [String.toList_ofList] at points shows
  refine ⟨(Error.length_labels _).symm, points.inLine is_part, before, part, after, is_part,
    fun s hs => ?_⟩
  rw [Error.spans_shift] at hs
  obtain ⟨s, mem, rfl⟩ := List.mem_map.1 hs
  obtain ⟨inner, ne, shows⟩ := shows s mem
  have lt := shows.lt ne
  have le := shows.stop_le
  refine ⟨?_, ⟨inner, shows.inLine is_part⟩, ?_, ?_⟩
  · rw [Span.start_shift, Span.stop_shift]
    omega
  · rw [Span.start_shift]
    omega
  · rw [Span.stop_shift]
    omega

/-- A name is bound again in the third part of a line. -/
theorem error_points_duplicate :
    (run ⟨2⟩ "a+b; b=2 ;a=1, b=3,a=4").outcome = .error (.duplicateBinding 'a' ⟨10, 13⟩ ⟨19, 22⟩) ∧
    (Error.duplicateBinding 'a' ⟨10, 13⟩ ⟨19, 22⟩).PointsAt "a+b; b=2 ;a=1, b=3,a=4".toList := by
  have failed : (run ⟨2⟩ "a+b; b=2 ;a=1, b=3,a=4").outcome =
      .error (.duplicateBinding 'a' ⟨10, 13⟩ ⟨19, 22⟩) := rfl
  exact ⟨failed, (error_points failed).2.1⟩

end Request

end Expansion
