import Expansion.Proofs.Locality
import Expansion.Proofs.Reports
import Expansion.Text.Blank

/-!
# The text at a region

A region *shows* what stands in the text from its first byte to its last. That it shows something at
all says that it starts and ends between characters.

**Theorem (`shows_of_over`).** A region over neighbouring tokens of a text shows their characters.

Neighbours among the tokens that are not blank may have blanks between them in the text. What is
known about such tokens is traced back to all tokens (`exists_trimmed`, `exists_trimmed_pair`),
where the blanks at both ends are left out.
-/

namespace Expansion

/-! ## Regions of a text -/

/-- The characters `inner` are what stands in the text at the region. -/
def Span.Shows (s : Span) (cs inner : List Char) : Prop :=
  ∃ before after, cs = before ++ (inner ++ after) ∧
    s = ⟨byteLength before, byteLength before + byteLength inner⟩

namespace Span.Shows

variable {s : Span} {cs inner : List Char}

theorem lt (h : s.Shows cs inner) (ne : inner ≠ []) : s.start < s.stop := by
  obtain ⟨before, after, -, rfl⟩ := h
  exact Nat.lt_add_of_pos_right (byteLength_pos ne)

theorem stop_le (h : s.Shows cs inner) : s.stop ≤ byteLength cs := by
  obtain ⟨before, after, rfl, rfl⟩ := h
  simp only [byteLength_append]
  omega

/-- A part of a text shows at a region what the text shows at the region moved. -/
theorem shift (h : s.Shows cs inner) (before after : List Char) :
    (s.shift (byteLength before)).Shows (before ++ (cs ++ after)) inner := by
  obtain ⟨before', after', rfl, rfl⟩ := h
  refine ⟨before ++ before', after' ++ after, by simp, ?_⟩
  rw [byteLength_append, Nat.add_comm (byteLength before), Nat.add_right_comm]
  rfl

end Span.Shows

/-! ## Tokens without blanks -/

section

variable {α : Type} {p : α → Bool} {xs ys zs : List α}

/-- Leaving out elements changes nothing at the start, if the first stays. -/
theorem head?_filter_of_head? (h : ∀ x ∈ xs.head?, p x = false) :
    (xs.filter (!p ·)).head? = xs.head? := by
  cases xs with
  | nil => rfl
  | cons x xs => simp [h x rfl]

theorem getLast?_filter_of_getLast? (h : ∀ x ∈ xs.getLast?, p x = false) :
    (xs.filter (!p ·)).getLast? = xs.getLast? := by
  rw [← List.head?_reverse, ← List.filter_reverse, head?_filter_of_head?, List.head?_reverse]
  rwa [List.head?_reverse]

theorem filter_eq_nil_of_forall (h : ∀ x ∈ xs, p x = true) : xs.filter (!p ·) = [] :=
  List.filter_eq_nil_iff.2 fun x hx => by simp [h x hx]

theorem of_mem_head?_dropWhile {x : α} (h : x ∈ (xs.dropWhile p).head?) : p x = false := by
  have first := List.head?_dropWhile_not p xs
  rwa [h] at first

/-- The list is what is left of another one without some elements at its two ends that satisfy `p`.
At its own ends it has none of them. -/
structure Trimmed (p : α → Bool) (xs ys : List α) : Prop where
  around : ∃ before after, xs = before ++ (ys ++ after) ∧ (∀ x ∈ before, p x = true) ∧
    ∀ x ∈ after, p x = true
  filter : ys.filter (!p ·) = xs.filter (!p ·)
  head? : ys.head? = (xs.filter (!p ·)).head?
  getLast? : ys.getLast? = (xs.filter (!p ·)).getLast?

theorem trimmed_trimBoth (p : α → Bool) (xs : List α) : Trimmed p xs (Text.trimBoth p xs) := by
  have front := List.takeWhile_append_dropWhile (p := p) (l := xs)
  have back := congrArg List.reverse
    (List.takeWhile_append_dropWhile (p := p) (l := (xs.dropWhile p).reverse))
  rw [List.reverse_append, List.reverse_reverse] at back
  have eq : xs = xs.takeWhile p ++ (Text.trimBoth p xs ++
      ((xs.dropWhile p).reverse.takeWhile p).reverse) := by
    rw [Text.trimBoth, back, front]
  have before : ∀ x ∈ xs.takeWhile p, p x = true := fun x hx => List.mem_takeWhile_imp hx
  have after : ∀ x ∈ ((xs.dropWhile p).reverse.takeWhile p).reverse, p x = true :=
    fun x hx => List.mem_takeWhile_imp (List.mem_reverse.1 hx)
  have filter : (Text.trimBoth p xs).filter (!p ·) = xs.filter (!p ·) := by
    conv_rhs => rw [eq, List.filter_append, List.filter_append, filter_eq_nil_of_forall before,
      filter_eq_nil_of_forall after, List.append_nil, List.nil_append]
  have first : ∀ x ∈ (Text.trimBoth p xs).head?, p x = false := by
    intro x hx
    rw [Text.trimBoth] at hx
    have first : x ∈ (xs.dropWhile p).head? := by
      rw [← back, List.head?_append, hx]
      rfl
    exact of_mem_head?_dropWhile first
  have last : ∀ x ∈ (Text.trimBoth p xs).getLast?, p x = false := by
    intro x hx
    rw [Text.trimBoth, List.getLast?_reverse] at hx
    exact of_mem_head?_dropWhile hx
  exact ⟨⟨_, _, eq, before, after⟩, filter, filter ▸ (head?_filter_of_head? first).symm,
    filter ▸ (getLast?_filter_of_getLast? last).symm⟩

theorem exists_trimming (p : α → Bool) (xs : List α) : ∃ ys, Trimmed p xs ys :=
  ⟨_, trimmed_trimBoth p xs⟩

end

theorem Span.Over.congr {s : Span} {ts us : List Token} (h : s.Over ts) (head : us.head? = ts.head?)
    (last : us.getLast? = ts.getLast?) : s.Over us := by
  rw [Over, head, last]
  exact h

/-- Neighbours among the tokens that are not blank have only blanks between them. -/
theorem exists_trimmed {ts us : List Token} (h : us <:+: ts.filter (!·.isBlank)) :
    ∃ before us' after, ts = before ++ (us' ++ after) ∧ us'.filter (!·.isBlank) = us ∧
      us'.head? = us.head? ∧ us'.getLast? = us.getLast? := by
  obtain ⟨vs, ws, eq⟩ := h
  obtain ⟨ts, after, rfl, left, -⟩ := List.filter_eq_append_iff.1 eq.symm
  obtain ⟨before, ts, rfl, -, rfl⟩ := List.filter_eq_append_iff.1 left
  obtain ⟨us', trimmed⟩ := exists_trimming Token.isBlank ts
  obtain ⟨before', after', rfl, -⟩ := trimmed.around
  exact ⟨before ++ before', us', after' ++ after, by simp, trimmed.filter, trimmed.head?,
    trimmed.getLast?⟩

theorem exists_trimmed_pair {ts us vs : List Token} (h : us ++ vs <:+: ts.filter (!·.isBlank)) :
    ∃ before us' gap vs' after, ts = before ++ (us' ++ (gap ++ (vs' ++ after))) ∧
      (∀ t ∈ gap, t.isBlank = true) ∧
      us'.head? = us.head? ∧ us'.getLast? = us.getLast? ∧
      vs'.head? = vs.head? ∧ vs'.getLast? = vs.getLast? := by
  obtain ⟨before, ts', after, rfl, filter, -⟩ := exists_trimmed h
  obtain ⟨us', vs', rfl, rfl, rfl⟩ := List.filter_eq_append_iff.1 filter
  obtain ⟨us, left⟩ := exists_trimming Token.isBlank us'
  obtain ⟨vs, right⟩ := exists_trimming Token.isBlank vs'
  obtain ⟨bs, cs, rfl, -, blank⟩ := left.around
  obtain ⟨bs', cs', rfl, blank', -⟩ := right.around
  exact ⟨before ++ bs, us, cs ++ bs', vs, cs' ++ after, by simp,
    List.forall_mem_append.2 ⟨blank, blank'⟩, left.head?, left.getLast?, right.head?,
    right.getLast?⟩

/-! ## Regions over tokens -/

theorem stop_of_getLast?_place {i : Nat} {ls : List Lexeme} {t : Token}
    (h : (Token.place i ls).getLast? = some t) :
    t.stop = i + byteLength (ls.flatMap Lexeme.chars) := by
  obtain ⟨ls, l, rfl⟩ : ∃ ms l, ls = ms ++ [l] := by
    rcases List.eq_nil_or_concat ls with rfl | ⟨ms, l, rfl⟩
    · cases h
    · exact ⟨ms, l, List.concat_eq_append⟩
  rw [Token.place_append, Token.place, Token.place, List.getLast?_concat] at h
  cases h
  rw [List.flatMap_append, byteLength_append, Token.stop]
  simp [Token.chars, Nat.add_assoc]

theorem start_of_head?_place {i : Nat} {ls : List Lexeme} {t : Token}
    (h : (Token.place i ls).head? = some t) : t.start = i := by
  cases ls with
  | nil => cases h
  | cons l ls =>
    cases h
    rfl

/-- A region over neighbouring tokens of a text starts behind the characters of the tokens before
them, and is as long as their own. -/
theorem span_eq_of_over {text : String} {ts us vs : List Token} {s : Span}
    (h : tokenize text = ts ++ (us ++ vs)) (reaches : s.Over us) :
    s = ⟨byteLength (Token.charsOf ts),
      byteLength (Token.charsOf ts) + byteLength (Token.charsOf us)⟩ := by
  have places := congrArg (List.map Token.lexeme) h
  rw [tokenize, Token.lexeme_place, List.map_append, List.map_append] at places
  have chars_of (ts : List Token) : (ts.map Token.lexeme).flatMap Lexeme.chars = Token.charsOf ts :=
    List.flatMap_map ..
  have length (i : Nat) (ls : List Lexeme) : (Token.place i ls).length = ls.length := by
    rw [← List.length_map (f := Token.lexeme), Token.lexeme_place]
  rw [tokenize, places, Token.place_append, Token.place_append, chars_of] at h
  obtain ⟨-, h⟩ := List.append_inj h (by rw [length, List.length_map])
  obtain ⟨placed, -⟩ := List.append_inj h (by rw [length, List.length_map])
  obtain ⟨t, u, first, last, rfl⟩ := reaches
  rw [← placed] at first last
  have start := start_of_head?_place first
  have stop := stop_of_getLast?_place last
  rw [chars_of] at stop
  show Span.mk t.start u.stop = _
  rw [start, stop, Nat.zero_add]

theorem charsOf_append (ts us : List Token) :
    Token.charsOf (ts ++ us) = Token.charsOf ts ++ Token.charsOf us := List.flatMap_append

/-- A region over neighbouring tokens of a text shows their characters. -/
theorem shows_of_over {text : String} {ts us vs : List Token} {s : Span}
    (h : tokenize text = ts ++ (us ++ vs)) (reaches : s.Over us) :
    s.Shows text.toList (Token.charsOf us) := by
  refine ⟨Token.charsOf ts, Token.charsOf vs, ?_, span_eq_of_over h reaches⟩
  rw [← charsOf_tokenize, h, charsOf_append, charsOf_append]

theorem shows_of_mem {text : String} {t : Token} (h : t ∈ tokenize text) :
    t.span.Shows text.toList t.chars := by
  obtain ⟨ts, vs, eq⟩ := List.append_of_mem h
  have shows := shows_of_over eq (over_singleton t)
  rwa [Token.charsOf, List.flatMap_singleton] at shows

end Expansion
