import Expansion.Bindings.Reader
import Expansion.Proofs.Slices

/-!
# Where entries stand

**Theorem (`aboutEntries_of_parse`).** An error in reading bindings is about an entry of the text,
or about a comma next to which there is none, or about two entries for one name.

A text of bindings is cut at its commas (`Cuts`). The reader goes over the pieces from left to
right, and what it keeps in mind is about the tokens that it has left behind: the place of a comma,
and the places where names were bound.
-/

namespace Expansion

namespace Entry

/-! ## Pieces between commas -/

/-- No comma is among the tokens. -/
def NoComma (ts : List Token) : Prop := ∀ t ∈ ts, t.lexeme ≠ .comma

/-- The tokens are cut at their commas, each of which is listed with the piece before it. -/
inductive Cuts : List (List Token × Option Token) → List Token → Prop
  | last {piece : List Token} : NoComma piece → Cuts [(piece, none)] piece
  | cons {piece ts : List Token} {c : Token} {pieces : List (List Token × Option Token)} :
      NoComma piece → c.lexeme = .comma → Cuts pieces ts →
      Cuts ((piece, some c) :: pieces) (piece ++ c :: ts)

theorem push_comma {t : Token} (h : t.lexeme = .comma)
    (pieces : List (List Token × Option Token)) : push t pieces = ([], some t) :: pieces := by
  obtain ⟨l, i⟩ := t
  obtain rfl := h
  rfl

theorem push_of_ne {t : Token} (h : t.lexeme ≠ .comma) (ts : List Token) (comma : Option Token)
    (pieces : List (List Token × Option Token)) :
    push t ((ts, comma) :: pieces) = (t :: ts, comma) :: pieces := by
  obtain ⟨l, i⟩ := t
  cases l with
  | comma => exact absurd rfl h
  | _ => rfl

theorem Cuts.push {t : Token} {ts : List Token} {pieces : List (List Token × Option Token)}
    (h : Cuts pieces ts) : Cuts (push t pieces) (t :: ts) := by
  by_cases comma : t.lexeme = .comma
  · rw [push_comma comma]
    exact .cons nofun comma h
  · cases h with
    | last no_comma =>
      rw [push_of_ne comma]
      exact .last (List.forall_mem_cons.2 ⟨comma, no_comma⟩)
    | cons no_comma c rest =>
      rw [push_of_ne comma]
      exact .cons (List.forall_mem_cons.2 ⟨comma, no_comma⟩) c rest

theorem cuts_foldr (ts : List Token) : Cuts (ts.foldr Entry.push [([], none)]) ts := by
  induction ts with
  | nil => exact .last nofun
  | cons t ts ih => exact ih.push

theorem infix_of_mem_pieces {pieces : List (List Token × Option Token)} {ts : List Token}
    (h : Cuts pieces ts) : ∀ p ∈ pieces, p.1 <:+: ts := by
  induction h with
  | @last piece _ => exact List.forall_mem_singleton.2 (List.infix_refl piece)
  | @cons piece ts c pieces _ _ _ ih =>
    refine List.forall_mem_cons.2 ⟨(List.prefix_append piece (c :: ts)).isInfix, fun p hp => ?_⟩
    exact (ih p hp).trans ((List.suffix_cons c ts).trans (List.suffix_append piece _)).isInfix

/-- The tokens of an entry are neighbours in the text. -/
theorem infix_of_mem_ofTokens {ts : List Token} {e : Entry} (h : e ∈ ofTokens ts) :
    e.tokens <:+: ts := by
  obtain ⟨⟨piece, comma⟩, mem, rfl⟩ := List.mem_map.1 h
  obtain ⟨before, after, eq, -⟩ := (trimmed_trimBoth Token.isBlank piece).around
  have inside : Text.trimBoth Token.isBlank piece <:+: piece := ⟨before, after, by simp [← eq]⟩
  exact inside.trans (infix_of_mem_pieces (cuts_foldr ts) _ mem)

/-- The tokens `us` are an entry of `ts`, in the piece that follows the tokens `done`. -/
structure Stands (ts done us : List Token) : Prop where
  split : ∃ piece after, ts = done ++ (piece ++ after) ∧ NoComma piece ∧
    Trimmed Token.isBlank piece us ∧ ∀ t ∈ after.head?, t.lexeme = .comma
  before : ∀ t ∈ done.getLast?, t.lexeme = .comma

end Entry

/-- The error is about the entries of the tokens. -/
inductive Error.AboutEntries (ts : List Token) : Error → Prop
  | empty {t : Token} : t ∈ ts → t.lexeme = .comma →
      AboutEntries ts (.malformedBinding (String.ofList []) t.span)
  | malformed {done us : List Token} {place : Span} : Entry.Stands ts done us → place.Over us →
      AboutEntries ts (.malformedBinding (String.ofList (Token.charsOf us)) place)
  | duplicate {x : Char} {done done' us vs : List Token} {i j : Nat} {first second : Span} :
      Entry.Stands done' done us → us.head? = some ⟨.letter x, i⟩ → first.Over us →
      Entry.Stands ts done' vs → vs.head? = some ⟨.letter x, j⟩ → second.Over vs →
      AboutEntries ts (.duplicateBinding x first second)

namespace Entry

variable {ts done us piece : List Token}

/-- An entry that a comma follows is still one with more tokens behind the comma. -/
theorem Stands.append (h : Stands ts done us) (ne : us ≠ [])
    (last : ∀ t ∈ ts.getLast?, t.lexeme = .comma) (vs : List Token) : Stands (ts ++ vs) done us := by
  obtain ⟨piece, after, rfl, no_comma, trimmed, comma⟩ := h.split
  refine ⟨⟨piece, after ++ vs, by simp, no_comma, trimmed, ?_⟩, h.before⟩
  cases after with
  | cons c after => exact comma
  | nil =>
    -- Without a comma behind it, the piece would be the end of the tokens.
    rw [List.append_nil, List.getLast?_append] at last
    cases found : piece.getLast? with
    | some t =>
      rw [found] at last
      exact absurd (last t rfl) (no_comma t (List.mem_of_getLast? found))
    | none =>
      obtain rfl := List.getLast?_eq_none_iff.1 found
      obtain ⟨before, after, eq, -⟩ := trimmed.around
      obtain ⟨-, eq⟩ := List.append_eq_nil_iff.1 eq.symm
      exact absurd (List.append_eq_nil_iff.1 eq).1 ne

theorem stands_of_cut {after : List Token} (before : ∀ t ∈ done.getLast?, t.lexeme = .comma)
    (no_comma : NoComma piece) (comma : ∀ t ∈ after.head?, t.lexeme = .comma) :
    Stands (done ++ (piece ++ after)) done (Text.trimBoth Token.isBlank piece) :=
  ⟨⟨piece, after, rfl, no_comma, trimmed_trimBoth _ piece, comma⟩, before⟩

/-- What is read as a binding starts with the name. -/
theorem head?_of_binding? {comma : Option Token} {x : Char} {n : Int}
    (h : (Entry.mk (Text.trimBoth Token.isBlank piece) comma).binding? = some (x, n)) :
    ∃ i, (Text.trimBoth Token.isBlank piece).head? = some ⟨.letter x, i⟩ := by
  have trimmed := trimmed_trimBoth Token.isBlank piece
  rw [trimmed.head?, ← trimmed.filter]
  rw [binding?] at h
  split at h
  · next y i j rest eq =>
    obtain ⟨m, -, pair⟩ := Option.map_eq_some_iff.1 h
    cases pair
    exact ⟨i, by rw [eq]; rfl⟩
  · cases h

end Entry

namespace Bindings

open Entry

variable {done ts : List Token} {seen : List (Char × Span)} {previous : Span}

/-- The names were bound at the regions in entries among the tokens. -/
def SeenIn (done : List Token) (seen : List (Char × Span)) : Prop :=
  ∀ x place, seen.lookup x = some place → ∃ done' us i, Stands done done' us ∧
    us.head? = some ⟨.letter x, i⟩ ∧ place.Over us

theorem seenIn_nil (done : List Token) : SeenIn done [] := by
  intro x place found
  cases found

/-- The region is that of a comma among the tokens. -/
def CommaAt (done : List Token) (previous : Span) : Prop :=
  ∃ c ∈ done, c.lexeme = .comma ∧ previous = c.span

theorem place_over {us : List Token} (ne : us ≠ []) (comma : Option Token) (previous : Span) :
    ((Entry.mk us comma).place previous).Over us := by
  cases us with
  | nil => exact absurd rfl ne
  | cons t us => exact over_cover t us

/-- An entry that cannot be read is reported where it stands, or where a comma shows that there is
none. -/
theorem aboutEntries_of_malformed {us : List Token} {comma : Option Token}
    (stands : Stands ts done us)
    (empty : us = [] → CommaAt ts ((comma.map Token.span).getD previous)) :
    Error.AboutEntries ts (.malformedBinding (Entry.mk us comma).text
      ((Entry.mk us comma).place previous)) := by
  cases us with
  | nil =>
    obtain ⟨c, mem, is_comma, eq⟩ := empty rfl
    have place : (Entry.mk [] comma).place previous = c.span := eq
    rw [place]
    exact .empty mem is_comma
  | cons t us => exact .malformed stands (over_cover t us)

theorem ne_nil_of_head? {us : List Token} {t : Token} (h : us.head? = some t) : us ≠ [] := by
  rintro rfl
  cases h

/-- What is reported of the first entry is about it, or about it and an entry before it. -/
theorem aboutEntries_cases {b : Bindings} {piece : List Token} (after : List Token)
    (comma : Option Token) {rest : List Entry} {e : Error}
    (before : ∀ t ∈ done.getLast?, t.lexeme = .comma)
    (no_comma : NoComma piece) (behind : ∀ t ∈ after.head?, t.lexeme = .comma)
    (seen_in : SeenIn done seen) (empty : (∀ t ∈ piece, t.isBlank = true) →
      CommaAt (done ++ (piece ++ after)) ((comma.map Token.span).getD previous))
    (h : addEntries b seen previous (⟨Text.trimBoth Token.isBlank piece, comma⟩ :: rest) = .error e) :
    e.AboutEntries (done ++ (piece ++ after)) ∨
    ∃ x n place i, (Text.trimBoth Token.isBlank piece).head? = some ⟨.letter x, i⟩ ∧
      place.Over (Text.trimBoth Token.isBlank piece) ∧ addEntries (b.insert x n) ((x, place) :: seen)
        ((comma.map Token.span).getD previous) rest = .error e := by
  have stands := stands_of_cut before no_comma behind
  have trimmed := trimmed_trimBoth Token.isBlank piece
  rw [addEntries] at h
  split at h
  · cases h
    refine .inl (aboutEntries_of_malformed stands fun nil => empty fun t ht => ?_)
    have filter := trimmed.filter
    rw [nil] at filter
    simpa using List.filter_eq_nil_iff.1 filter.symm t ht
  · next x n binding =>
    obtain ⟨j, head⟩ := head?_of_binding? binding
    have reaches := place_over (ne_nil_of_head? head) comma previous
    split at h
    · next first found =>
      cases h
      obtain ⟨done', us, i, earlier, head', reaches'⟩ := seen_in x first found
      exact .inl (.duplicate earlier head' reaches' stands head reaches)
    · exact .inr ⟨x, n, _, j, head, reaches, h⟩

theorem SeenIn.append (h : SeenIn done seen) (before : ∀ t ∈ done.getLast?, t.lexeme = .comma)
    (vs : List Token) : SeenIn (done ++ vs) seen := by
  intro x place found
  obtain ⟨done', us, i, stands, head, reaches⟩ := h x place found
  exact ⟨done', us, i, stands.append (ne_nil_of_head? head) before vs, head, reaches⟩

theorem SeenIn.cons {x : Char} {place : Span} {done' us : List Token} {i : Nat}
    (h : SeenIn done seen) (stands : Stands done done' us) (head : us.head? = some ⟨.letter x, i⟩)
    (reaches : place.Over us) : SeenIn done ((x, place) :: seen) := by
  intro y place' found
  rw [List.lookup_cons] at found
  cases eq : y == x with
  | true =>
    rw [eq] at found
    cases found
    obtain rfl := beq_iff_eq.1 eq
    exact ⟨done', us, i, stands, head, reaches⟩
  | false =>
    rw [eq] at found
    exact h y place' found

/-- What is reported of entries is about them, or about one of them and an entry before it. -/
theorem aboutEntries_of_addEntries {pieces : List (List Token × Option Token)} {b : Bindings}
    {e : Error} (cuts : Cuts pieces ts) (before : ∀ t ∈ done.getLast?, t.lexeme = .comma)
    (seen_in : SeenIn done seen)
    (previous_at : CommaAt done previous ∨ done = [] ∧ ∃ t ∈ ts, t.isBlank = false)
    (h : addEntries b seen previous
      (pieces.map fun (ts, comma) => ⟨Text.trimBoth Token.isBlank ts, comma⟩) = .error e) :
    e.AboutEntries (done ++ ts) := by
  induction cuts generalizing done seen previous b with
  | @last piece no_comma =>
    have first := aboutEntries_cases [] .none before no_comma nofun seen_in (fun blank => ?_) h
    · rw [List.append_nil] at first
      rcases first with about | ⟨x, n, place, i, -, -, h⟩
      · exact about
      · cases h
    · rcases previous_at with ⟨c, mem, comma, eq⟩ | ⟨-, t, mem, nonblank⟩
      · exact ⟨c, List.mem_append_left _ mem, comma, eq⟩
      · rw [blank t mem] at nonblank
        cases nonblank
  | @cons piece ts c pieces no_comma comma cuts ih =>
    have behind (us : List Token) : ∀ t ∈ (c :: us).head?, t.lexeme = .comma := by
      rintro t ⟨⟩
      exact comma
    have ends : ∀ t ∈ (done ++ (piece ++ [c])).getLast?, t.lexeme = .comma := by
      rw [← List.append_assoc, List.getLast?_concat]
      rintro t ⟨⟩
      exact comma
    have at_c : CommaAt (done ++ (piece ++ c :: ts)) c.span := ⟨c, by simp, comma, rfl⟩
    rcases aboutEntries_cases (c :: ts) c before no_comma (behind ts) seen_in (fun _ => at_c) h with
      about | ⟨x, n, place, i, head, reaches, h⟩
    · exact about
    · have stands := stands_of_cut before no_comma (behind [])
      have seen_in := (seen_in.append before (piece ++ [c])).cons stands head reaches
      have about := ih ends seen_in (.inl ⟨c, by simp, comma, rfl⟩) h
      rwa [List.append_assoc, List.append_assoc] at about

/-- An error in reading bindings is about the entries of the text. -/
theorem aboutEntries_of_parse {text : String} {e : Error} (h : parse text = .error e) :
    e.AboutEntries (tokenize text) := by
  rw [parse, ofTokens] at h
  split at h
  · cases h
  · next nonblank =>
    have exists_nonblank : ∃ t ∈ tokenize text, t.isBlank = false := by
      simpa using nonblank
    have no_entry : ∀ t ∈ ([] : List Token).getLast?, t.lexeme = .comma := nofun
    exact aboutEntries_of_addEntries (cuts_foldr _) no_entry (seenIn_nil [])
      (.inr ⟨rfl, exists_nonblank⟩) h

end Bindings

end Expansion
