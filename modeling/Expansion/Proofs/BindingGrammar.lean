import Expansion.Proofs.Entries
import Expansion.Proofs.ErrorRegions
import Expansion.Proofs.Guards

/-!
# The grammar of bindings

**Theorem (`parse_pieces`).** The tokens of a text that are not blank are cut at their commas in
exactly one way. Reading bindings succeeds exactly if every piece is a name, `=` and an integer and
no name comes back, and then every name is bound to its integer. Otherwise the first piece that is
malformed, or that binds a name again, is reported.

What the reader keeps in mind is known exactly for the pieces that it has left behind (`Kept`). So
it is clear what it does with pieces that can be listed, and with the first one that cannot.
-/

namespace Expansion

namespace Entry

/-! ## Pieces of a text of bindings -/

/-- Tokens between two commas, with the comma behind them. -/
abbrev Piece := List Token × Option Token

/-- The piece without its blanks. -/
def significant (p : Piece) : Piece := (p.1.filter (!·.isBlank), p.2)

/-- The entry of a piece. -/
def ofPiece (p : Piece) : Entry := ⟨Text.trimBoth Token.isBlank p.1, p.2⟩

/-- The tokens are a name, `=`, and an integer with or without a sign. -/
inductive Binds : List Token → Char → Int → Prop
  | plain {x : Char} {ds : List Char} {i j k : Nat} :
      Binds [⟨.letter x, i⟩, ⟨.equals, j⟩, ⟨.digits ds, k⟩] x (Numeral.value ds)
  | plus {x : Char} {ds : List Char} {i j k l : Nat} :
      Binds [⟨.letter x, i⟩, ⟨.equals, j⟩, ⟨.operator .add, k⟩, ⟨.digits ds, l⟩] x
        (Numeral.value ds)
  | minus {x : Char} {ds : List Char} {i j k l : Nat} :
      Binds [⟨.letter x, i⟩, ⟨.equals, j⟩, ⟨.operator .sub, k⟩, ⟨.digits ds, l⟩] x
        (-(Numeral.value ds))

/-- The pieces bind the names of the pairs to their integers, each name once. -/
structure Lists (pieces : List Piece) (ps : List (Char × Int)) : Prop where
  binds : List.Forall₂ (fun p pair => Binds p.1 pair.1 pair.2) pieces ps
  distinct : (ps.map Prod.fst).Nodup

/-- The error is about a piece of the text that follows the pieces `front`. -/
inductive Reported (text : String) (front : List Piece) : Piece → Error → Prop
  | malformed {us : List Token} {comma : Option Token} {place : Span} {entry : List Char} :
      us ≠ [] → (∀ x n, ¬Binds us x n) → place.Over us → place.Shows text.toList entry →
      Reported text front (us, comma) (.malformedBinding (String.ofList entry) place)
  | empty {c : Token} : Reported text front ([], some c) (.malformedBinding "" c.span)
  | trailing {us : List Token} {c : Token} : front.getLast? = some (us, some c) →
      Reported text front ([], none) (.malformedBinding "" c.span)
  | duplicate {us vs : List Token} {comma comma' : Option Token} {x : Char} {m n : Int}
      {first second : Span} : (us, comma) ∈ front → Binds us x m → Binds vs x n →
      first.Over us → second.Over vs →
      Reported text front (vs, comma') (.duplicateBinding x first second)

variable {p : Piece} {pieces front back : List Piece} {ts us : List Token}

/-! ## Cutting at commas -/

theorem foldr_push_of_noComma (no_comma : NoComma us) (comma : Option Token) (pieces : List Piece) :
    us.foldr push (([], comma) :: pieces) = (us, comma) :: pieces := by
  induction us with
  | nil => rfl
  | cons t us ih =>
    obtain ⟨first, no_comma⟩ := List.forall_mem_cons.1 no_comma
    rw [List.foldr_cons, ih no_comma, push_of_ne first]

/-- There is only one way to cut tokens at their commas. -/
theorem cuts_iff : Cuts pieces ts ↔ pieces = ts.foldr push [([], none)] := by
  constructor
  · intro cuts
    induction cuts with
    | last no_comma => rw [foldr_push_of_noComma no_comma]
    | cons no_comma comma _ ih =>
      rw [List.foldr_append, List.foldr_cons, ← ih, push_comma comma, foldr_push_of_noComma no_comma]
  · rintro rfl
    exact cuts_foldr ts

theorem isBlank_of_comma {c : Token} (h : c.lexeme = .comma) : c.isBlank = false := by
  rw [Token.isBlank, h]
  rfl

/-- Blanks can be left out before or after the cut. -/
theorem Cuts.significant (cuts : Cuts pieces ts) :
    Cuts (pieces.map Entry.significant) (ts.filter (!·.isBlank)) := by
  have subset {us : List Token} (no_comma : NoComma us) : NoComma (us.filter (!·.isBlank)) :=
    fun t ht => no_comma t (List.mem_of_mem_filter ht)
  induction cuts with
  | last no_comma => exact .last (subset no_comma)
  | @cons _ _ c _ no_comma comma _ ih =>
    rw [List.filter_append, List.filter_cons_of_pos (by simp [isBlank_of_comma comma])]
    exact .cons (subset no_comma) comma ih

theorem Cuts.isSome_comma (cuts : Cuts (front ++ p :: back) ts) : ∀ q ∈ front, q.2.isSome := by
  induction front generalizing ts with
  | nil => exact nofun
  | cons q front ih =>
    cases cuts' : front ++ p :: back with
    | nil => simp at cuts'
    | cons r rest =>
      rw [List.cons_append, cuts'] at cuts
      cases cuts with
      | cons _ _ cuts => exact List.forall_mem_cons.2 ⟨rfl, ih (cuts' ▸ cuts)⟩

/-- An empty piece at the end follows a comma, if there are tokens at all. -/
theorem Cuts.exists_comma (cuts : Cuts (front ++ ([], none) :: back) ts) (ne : ts ≠ []) :
    ∃ us c, front.getLast? = some (us, some c) := by
  cases last : front.getLast? with
  | none =>
    obtain rfl := List.getLast?_eq_none_iff.1 last
    cases cuts
    exact absurd rfl ne
  | some q =>
    obtain ⟨us, comma⟩ := q
    obtain ⟨c, rfl⟩ := Option.isSome_iff_exists.1
      (cuts.isSome_comma _ (List.mem_of_getLast? last))
    exact ⟨us, c, rfl⟩

/-! ## Reading one piece -/

theorem integer?_eq_some_iff {x : Char} {n : Int} {i j : Nat} :
    integer? us = some n ↔ Binds (⟨.letter x, i⟩ :: ⟨.equals, j⟩ :: us) x n := by
  constructor
  · intro h
    unfold integer? at h
    split at h
    · cases h
      exact .minus
    · cases h
      exact .plus
    · cases h
      exact .plain
    · cases h
  · intro h
    cases h <;> rfl

theorem binding?_ofPiece {x : Char} {n : Int} :
    (ofPiece p).binding? = some (x, n) ↔ Binds (significant p).1 x n := by
  have same : (ofPiece p).tokens.filter (!·.isBlank) = (significant p).1 :=
    (trimmed_trimBoth Token.isBlank p.1).filter
  rw [binding?, same]
  split
  · next y i j rest eq =>
    rw [eq]
    constructor
    · intro h
      obtain ⟨m, value, pair⟩ := Option.map_eq_some_iff.1 h
      cases pair
      exact integer?_eq_some_iff.1 value
    · intro h
      have name : y = x := by cases h <;> rfl
      subst name
      rw [integer?_eq_some_iff.2 h]
      rfl
  · next other =>
    constructor
    · intro h
      cases h
    · intro h
      generalize (significant p).1 = us at h other
      cases h <;> exact (other _ _ _ _ rfl).elim

theorem Binds.unique {x y : Char} {m n : Int} (h : Binds us x m) (h' : Binds us y n) :
    x = y ∧ m = n := by
  cases h <;> cases h' <;> exact ⟨rfl, rfl⟩

theorem Binds.ne_nil {x : Char} {n : Int} (h : Binds us x n) : us ≠ [] := by
  cases h <;> exact nofun

theorem tokens_ofPiece_eq_nil_iff : (ofPiece p).tokens = [] ↔ (significant p).1 = [] := by
  have trimmed := trimmed_trimBoth Token.isBlank p.1
  rw [← List.head?_eq_none_iff, ← List.head?_eq_none_iff]
  exact iff_of_eq (congrArg (· = none) trimmed.head?)

/-- The region of an entry reaches over its tokens, blanks left out. -/
theorem place_ofPiece_over (ne : (significant p).1 ≠ []) (previous : Span) :
    ((ofPiece p).place previous).Over (significant p).1 := by
  have trimmed := trimmed_trimBoth Token.isBlank p.1
  have reaches := Bindings.place_over (mt tokens_ofPiece_eq_nil_iff.1 ne) p.2 previous
  exact reaches.congr trimmed.head?.symm trimmed.getLast?.symm

theorem exists_mem_of_forall₂ {α β : Type} {R : α → β → Prop} {xs : List α} {ys : List β}
    (h : List.Forall₂ R xs ys) {x : α} (hx : x ∈ xs) : ∃ y ∈ ys, R x y := by
  induction h with
  | nil => cases hx
  | cons first _ ih =>
    rcases List.mem_cons.1 hx with rfl | hx
    · exact ⟨_, List.mem_cons_self, first⟩
    · obtain ⟨y, hy, related⟩ := ih hx
      exact ⟨y, List.mem_cons_of_mem _ hy, related⟩

theorem Lists.concat {ps : List (Char × Int)} {x : Char} {n : Int} (h : Lists pieces ps)
    (binds : Binds p.1 x n) (fresh : x ∉ ps.map Prod.fst) :
    Lists (pieces ++ [p]) (ps ++ [(x, n)]) := by
  refine ⟨List.rel_append h.binds (.cons binds .nil), ?_⟩
  rw [List.map_append, List.map_singleton, ← List.concat_eq_append, List.nodup_concat]
  exact ⟨fresh, h.distinct⟩

end Entry

theorem Span.Over.unique {us : List Token} {s s' : Span} (h : s.Over us) (h' : s'.Over us) :
    s = s' := by
  obtain ⟨t, u, first, last, rfl⟩ := h
  obtain ⟨t', u', first', last', rfl⟩ := h'
  rw [first] at first'
  rw [last] at last'
  cases first'
  cases last'
  rfl

theorem Span.Shows.unique {s : Span} {cs inner inner' : List Char} (h : s.Shows cs inner)
    (h' : s.Shows cs inner') : inner = inner' :=
  Option.some.inj ((Span.cut?_eq_some_iff.2 h).symm.trans (Span.cut?_eq_some_iff.2 h'))

namespace Bindings

open Entry

/-! ## Names in order -/

/-- The bindings are the pairs, in the order of the names. -/
structure Holds (b : Bindings) (ps : List (Char × Int)) : Prop where
  perm : b.entries.Perm ps
  sorted : b.entries.Pairwise (·.1 < ·.1)

variable {x : Char} {n : Int} {b b' : Bindings} {ps : List (Char × Int)}

theorem Holds.unique (h : b.Holds ps) (h' : b'.Holds ps) : b = b' := by
  have same : b.entries = b'.entries :=
    (h.perm.trans h'.perm.symm).eq_of_pairwise
      (fun _ _ _ _ lt gt => absurd (lt.trans gt) (lt_irrefl _)) h.sorted h'.sorted
  obtain ⟨entries⟩ := b
  obtain rfl : entries = b'.entries := same
  rfl

theorem put_perm {entries : List (Char × Int)} (fresh : x ∉ entries.map Prod.fst) :
    (put x n entries).Perm ((x, n) :: entries) := by
  induction entries with
  | nil => exact .refl _
  | cons e rest ih =>
    obtain ⟨y, k⟩ := e
    obtain ⟨ne, fresh⟩ := not_or.1 (mt List.mem_cons.2 fresh)
    rw [put, if_neg (show ¬x = y from ne)]
    split
    · exact .refl _
    · exact ((ih fresh).cons _).trans (.swap ..)

theorem sorted_put {entries : List (Char × Int)} (sorted : entries.Pairwise (·.1 < ·.1))
    (fresh : x ∉ entries.map Prod.fst) : (put x n entries).Pairwise (·.1 < ·.1) := by
  induction entries with
  | nil => exact List.pairwise_singleton ..
  | cons e rest ih =>
    obtain ⟨y, k⟩ := e
    obtain ⟨ne, fresh⟩ := not_or.1 (mt List.mem_cons.2 fresh)
    obtain ⟨above, rest_sorted⟩ := List.pairwise_cons.1 sorted
    rw [put, if_neg (show ¬x = y from ne)]
    split
    · next lt =>
      refine List.pairwise_cons.2 ⟨List.forall_mem_cons.2 ⟨lt, fun p hp => ?_⟩, sorted⟩
      exact lt.trans (above p hp)
    · next ge =>
      refine List.pairwise_cons.2 ⟨fun p hp => ?_, ih rest_sorted fresh⟩
      rcases List.mem_cons.1 ((put_perm fresh).subset hp) with rfl | hp
      · exact lt_of_le_of_ne (not_lt.1 ge) (Ne.symm ne)
      · exact above p hp

theorem Holds.insert (h : b.Holds ps) (fresh : x ∉ ps.map Prod.fst) :
    (b.insert x n).Holds (ps ++ [(x, n)]) := by
  have fresh' : x ∉ b.entries.map Prod.fst := fun mem => fresh ((h.perm.map _).subset mem)
  exact ⟨(put_perm fresh').trans ((h.perm.cons _).trans (List.perm_append_singleton ..).symm),
    sorted_put h.sorted fresh'⟩

/-! ## What is kept in mind -/

/-- The reader has left behind the pieces, which bind the names of the pairs: it has their bindings,
the regions where the names are bound, and the place of the last comma. -/
structure Kept (front : List Piece) (ps : List (Char × Int)) (b : Bindings)
    (seen : List (Char × Span)) (previous : Span) : Prop where
  lists : Lists front ps
  holds : b.Holds ps
  places : ∀ p ∈ front, ∀ x n, Binds p.1 x n → ∃ place : Span, place.Over p.1 ∧
    seen.lookup x = some place
  fresh : ∀ x ∉ ps.map Prod.fst, seen.lookup x = none
  previous : ∀ us c, front.getLast? = some (us, some c) → previous = c.span

variable {text : String} {p : Piece} {pieces front rest : List Piece} {qs : List (Char × Int)}
  {seen : List (Char × Span)} {previous : Span} {e : Error}

theorem kept_nil (previous : Span) : Kept [] [] empty [] previous where
  lists := ⟨.nil, .nil⟩
  holds := ⟨.nil, .nil⟩
  places _ hp := absurd hp List.not_mem_nil
  fresh _ _ := rfl
  previous _ _ last := by cases last

theorem Kept.name_mem (h : Kept front ps b seen previous) (hp : p ∈ front)
    (binds : Binds p.1 x n) : x ∈ ps.map Prod.fst := by
  obtain ⟨pair, mem, binds'⟩ := exists_mem_of_forall₂ h.lists.binds hp
  obtain ⟨rfl, -⟩ := binds.unique binds'
  exact List.mem_map_of_mem mem

/-- A piece with a new name is left behind, too. -/
theorem Kept.concat (h : Kept front ps b seen previous) (binds : Binds (significant p).1 x n)
    (fresh : x ∉ ps.map Prod.fst) :
    Kept (front ++ [significant p]) (ps ++ [(x, n)]) (b.insert x n)
      ((x, (ofPiece p).place previous) :: seen) ((p.2.map Token.span).getD previous) where
  lists := h.lists.concat binds fresh
  holds := h.holds.insert fresh
  places q hq y m binds' := by
    rcases List.mem_append.1 hq with hq | hq
    · obtain ⟨place, reaches, found⟩ := h.places q hq y m binds'
      have ne : y ≠ x := fun eq => fresh (eq ▸ h.name_mem hq binds')
      exact ⟨place, reaches, by rwa [List.lookup_cons, beq_false_of_ne ne]⟩
    · obtain rfl := List.mem_singleton.1 hq
      obtain ⟨rfl, -⟩ := binds.unique binds'
      exact ⟨_, place_ofPiece_over binds.ne_nil previous, List.lookup_cons_self⟩
  fresh y hy := by
    rw [List.map_append, List.mem_append, not_or] at hy
    have ne : y ≠ x := fun eq => hy.2 (List.mem_singleton.2 eq)
    rw [List.lookup_cons, beq_false_of_ne ne]
    exact h.fresh y hy.1
  previous us c last := by
    rw [List.getLast?_concat] at last
    have comma : p.2 = some c := congrArg Prod.snd (Option.some.inj last)
    rw [comma]
    rfl

theorem addEntries_ofPiece (h : Kept front ps b seen previous)
    (binds : Binds (significant p).1 x n) (fresh : x ∉ ps.map Prod.fst) (rest : List Entry) :
    addEntries b seen previous (ofPiece p :: rest) =
      addEntries (b.insert x n) ((x, (ofPiece p).place previous) :: seen)
        ((p.2.map Token.span).getD previous) rest := by
  rw [addEntries, binding?_ofPiece.2 binds]
  simp only [h.fresh x fresh]
  rfl

/-- Pieces with new names are left behind, and the reader goes on with those that follow. -/
theorem addEntries_append (h : Kept front ps b seen previous)
    (binds : List.Forall₂ (fun p pair => Binds p.1 pair.1 pair.2) (pieces.map significant) qs)
    (distinct : ((ps ++ qs).map Prod.fst).Nodup) (rest : List Piece) :
    ∃ b' seen' previous', Kept (front ++ pieces.map significant) (ps ++ qs) b' seen' previous' ∧
      addEntries b seen previous ((pieces ++ rest).map ofPiece) =
        addEntries b' seen' previous' (rest.map ofPiece) := by
  induction pieces generalizing front ps qs b seen previous with
  | nil =>
    cases binds
    exact ⟨b, seen, previous, by simpa using h, rfl⟩
  | cons p pieces ih =>
    rw [List.map_cons] at binds
    cases binds with
    | @cons _ pair _ qs first binds =>
      obtain ⟨x, n⟩ := pair
      have fresh : x ∉ ps.map Prod.fst := fun mem => by
        rw [List.map_append, List.nodup_append] at distinct
        exact distinct.2.2 x mem x List.mem_cons_self rfl
      rw [List.append_cons] at distinct
      obtain ⟨b', seen', previous', kept, eq⟩ := ih (h.concat first fresh) binds distinct
      rw [List.append_assoc, List.append_assoc] at kept
      exact ⟨b', seen', previous', kept, (addEntries_ofPiece h first fresh _).trans eq⟩

/-- The first piece that cannot be listed is reported. -/
theorem addEntries_of_reported (h : Kept front ps b seen previous)
    (within : (ofPiece p).tokens <:+: tokenize text)
    (reported : Reported text front (significant p) e) (rest : List Entry) :
    addEntries b seen previous (ofPiece p :: rest) = .error e := by
  -- What is no binding is reported as malformed, and what is empty at a comma.
  have malformed (bad : ∀ x n, ¬Binds (significant p).1 x n) :
      addEntries b seen previous (ofPiece p :: rest) =
        .error (.malformedBinding (ofPiece p).text ((ofPiece p).place previous)) := by
    have unread : (ofPiece p).binding? = none :=
      Option.eq_none_iff_forall_not_mem.2 fun pair found => bad _ _ (binding?_ofPiece.1 found)
    rw [addEntries, unread]
  have nothing (empty : (significant p).1 = []) :
      addEntries b seen previous (ofPiece p :: rest) =
        .error (.malformedBinding "" ((p.2.map Token.span).getD previous)) := by
    rw [malformed fun x n binds => binds.ne_nil empty, Entry.text, Entry.place,
      tokens_ofPiece_eq_nil_iff.2 empty]
    rfl
  -- In each case, the place is the one that the reader has.
  generalize shape : significant p = q at reported
  cases reported with
  | @malformed us comma place entry ne bad reaches shows =>
    have tokens : (significant p).1 = us := congrArg Prod.fst shape
    rw [← tokens] at ne bad reaches
    obtain rfl := reaches.unique (place_ofPiece_over ne previous)
    obtain ⟨before, after, eq⟩ := within
    have shown := shows_of_over (eq.symm.trans (List.append_assoc ..))
      (place_over (mt tokens_ofPiece_eq_nil_iff.1 ne) p.2 previous)
    rw [malformed bad, Entry.text, shows.unique shown]
  | @empty c =>
    have comma : p.2 = some c := congrArg Prod.snd shape
    rw [nothing (congrArg Prod.fst shape), comma]
    rfl
  | @trailing us c last =>
    have comma : p.2 = none := congrArg Prod.snd shape
    rw [nothing (congrArg Prod.fst shape), comma, h.previous us c last]
    rfl
  | @duplicate us vs comma comma' x m n first second mem binds binds' reaches reaches' =>
    have tokens : (significant p).1 = vs := congrArg Prod.fst shape
    rw [← tokens] at binds' reaches'
    obtain ⟨place, earlier, found⟩ := h.places _ mem x m binds
    rw [reaches.unique earlier, reaches'.unique (place_ofPiece_over binds'.ne_nil previous),
      addEntries, binding?_ofPiece.2 binds']
    simp only [found]

/-- Something is reported of a piece that is malformed. -/
theorem exists_reported_of_malformed (cuts : Cuts pieces (significantTokens text))
    (ne : significantTokens text ≠ []) (eq : pieces = front ++ p :: rest)
    (bad : ∀ x n, ¬Binds p.1 x n) : ∃ e, Reported text front p e := by
  obtain ⟨us, comma⟩ := p
  match us, comma with
  | [], some c => exact ⟨_, .empty⟩
  | [], none =>
    obtain ⟨us, c, last⟩ := (eq ▸ cuts).exists_comma ne
    exact ⟨_, .trailing last⟩
  | t :: us, comma =>
    have within : t :: us <:+: significantTokens text :=
      infix_of_mem_pieces cuts _ (eq ▸ List.mem_append_right front List.mem_cons_self)
    obtain ⟨entry, -, shows⟩ := shows_of_over_significant within (over_cover t us)
    exact ⟨_, .malformed (List.cons_ne_nil t us) bad (over_cover t us) shows⟩

/-- Something is reported of a piece that binds a name again. -/
theorem exists_reported_of_duplicate (lists : Lists front ps) (binds : Binds p.1 x n)
    (again : x ∈ ps.map Prod.fst) : ∃ e, Reported text front p e := by
  obtain ⟨⟨y, m⟩, pair, rfl⟩ := List.mem_map.1 again
  obtain ⟨⟨us, comma⟩, mem, earlier⟩ := exists_mem_of_forall₂ lists.binds.flip pair
  have reaches {us : List Token} {x : Char} {n : Int} (h : Binds us x n) :
      ∃ place : Span, place.Over us := by
    cases us with
    | nil => exact absurd rfl h.ne_nil
    | cons t us => exact ⟨_, over_cover t us⟩
  obtain ⟨first, first_over⟩ := reaches earlier
  obtain ⟨second, second_over⟩ := reaches binds
  exact ⟨_, .duplicate mem earlier binds first_over second_over⟩

/-- Pieces can be listed, or there is a first one of which something is reported. -/
theorem lists_or_reported (cuts : Cuts pieces (significantTokens text))
    (ne : significantTokens text ≠ []) :
    (∃ ps, Lists pieces ps) ∨ ∃ front p back ps e, pieces = front ++ p :: back ∧
      Lists front ps ∧ Reported text front p e := by
  -- The pieces are gone through from left to right; all in front can be listed.
  suffices from_here : ∀ rest front ps, pieces = front ++ rest → Lists front ps →
      (∃ ps, Lists pieces ps) ∨ ∃ front p back ps e, pieces = front ++ p :: back ∧
        Lists front ps ∧ Reported text front p e from
    from_here pieces [] [] rfl ⟨.nil, .nil⟩
  intro rest
  induction rest with
  | nil =>
    intro front ps eq lists
    rw [List.append_nil] at eq
    exact .inl ⟨ps, eq ▸ lists⟩
  | cons p rest ih =>
    intro front ps eq lists
    by_cases bad : ∀ x n, ¬Binds p.1 x n
    · obtain ⟨e, reported⟩ := exists_reported_of_malformed cuts ne eq bad
      exact .inr ⟨front, p, rest, ps, e, eq, lists, reported⟩
    · push Not at bad
      obtain ⟨x, n, binds⟩ := bad
      by_cases fresh : x ∈ ps.map Prod.fst
      · obtain ⟨e, reported⟩ := exists_reported_of_duplicate lists binds fresh
        exact .inr ⟨front, p, rest, ps, e, eq, lists, reported⟩
      · exact ih (front ++ [p]) (ps ++ [(x, n)]) (eq.trans (List.append_cons ..))
          (lists.concat binds fresh)

/-! ## Reading a text -/

section

variable {whole : List Piece} (cuts : Cuts whole (tokenize text))
  (ne : significantTokens text ≠ [])

theorem significantTokens_eq_nil_iff :
    significantTokens text = [] ↔ (tokenize text).all Token.isBlank = true := by
  rw [significantTokens, List.filter_eq_nil_iff, List.all_eq_true]
  simp

include cuts ne

theorem parse_of_cuts : parse text = addEntries empty [] ⟨0, 0⟩ (whole.map ofPiece) := by
  rw [parse, ofTokens, if_neg (mt significantTokens_eq_nil_iff.2 ne), cuts_iff.1 cuts]
  rfl

theorem exists_parse_of_lists (lists : Lists (whole.map significant) ps) :
    ∃ b, parse text = .ok b ∧ b.Holds ps := by
  obtain ⟨b, seen, previous, kept, eq⟩ :=
    addEntries_append (kept_nil ⟨0, 0⟩) lists.binds lists.distinct []
  rw [List.append_nil] at eq
  exact ⟨b, (parse_of_cuts cuts ne).trans eq, kept.holds⟩

theorem parse_of_reported (split : whole.map significant = front ++ p :: rest)
    (lists : Lists front ps) (reported : Reported text front p e) : parse text = .error e := by
  obtain ⟨before, behind, rfl, rfl, tail⟩ := List.map_eq_append_iff.1 split
  obtain ⟨q, rest, rfl, rfl, -⟩ := List.map_eq_cons_iff.1 tail
  obtain ⟨b, seen, previous, kept, eq⟩ :=
    addEntries_append (kept_nil ⟨0, 0⟩) lists.binds lists.distinct (q :: rest)
  have mem : ofPiece q ∈ Entry.ofTokens (tokenize text) := by
    rw [Entry.ofTokens, ← cuts_iff.1 cuts]
    exact List.mem_map_of_mem (List.mem_append_right before List.mem_cons_self)
  rw [parse_of_cuts cuts ne, eq]
  exact addEntries_of_reported kept (infix_of_mem_ofTokens mem) reported _

end

/-- Reading bindings succeeds exactly with what its grammar lists, and otherwise reports the first
piece that is not in the grammar or has the name of an earlier one. -/
theorem parse_pieces (text : String) :
    (significantTokens text = [] → parse text = .ok empty) ∧
      (significantTokens text ≠ [] → ∃ pieces,
        (∀ pieces', Cuts pieces' (significantTokens text) ↔ pieces' = pieces) ∧
        (∀ b, parse text = .ok b ↔ ∃ ps, Lists pieces ps ∧ b.Holds ps) ∧
        ∀ e, parse text = .error e ↔ ∃ front p back ps, pieces = front ++ p :: back ∧
          Lists front ps ∧ Reported text front p e) := by
  constructor
  · intro blank
    rw [parse, ofTokens, if_pos (significantTokens_eq_nil_iff.1 blank)]
  intro ne
  obtain ⟨pieces, whole⟩ : ∃ pieces, Cuts pieces (tokenize text) := ⟨_, cuts_foldr _⟩
  have cuts := whole.significant
  refine ⟨pieces.map significant, fun pieces' => ?_, fun b => ⟨fun read => ?_, ?_⟩,
    fun e => ⟨fun read => ?_, ?_⟩⟩
  · rw [cuts_iff.1 cuts]
    exact cuts_iff
  · rcases lists_or_reported cuts ne with
      ⟨ps, lists⟩ | ⟨front, p, back, ps, e, split, lists, reported⟩
    · obtain ⟨b', read', holds⟩ := exists_parse_of_lists whole ne lists
      cases read.symm.trans read'
      exact ⟨ps, lists, holds⟩
    · cases read.symm.trans (parse_of_reported whole ne split lists reported)
  · rintro ⟨ps, lists, holds⟩
    obtain ⟨b', read, holds'⟩ := exists_parse_of_lists whole ne lists
    rw [read, holds.unique holds']
  · rcases lists_or_reported cuts ne with
      ⟨ps, lists⟩ | ⟨front, p, back, ps, e', split, lists, reported⟩
    · obtain ⟨b, read', -⟩ := exists_parse_of_lists whole ne lists
      cases read.symm.trans read'
    · cases read.symm.trans (parse_of_reported whole ne split lists reported)
      exact ⟨front, p, back, ps, split, lists, reported⟩
  · rintro ⟨front, p, back, ps, split, lists, reported⟩
    exact parse_of_reported whole ne split lists reported

/-- Blanks bind nothing, and a name that is bound again is reported. -/
theorem parse_pieces_duplicate :
    significantTokens " " = [] ∧ parse " " = .ok empty ∧
    significantTokens "a=1, a=2" ≠ [] ∧
    ∃ pieces, Cuts pieces (significantTokens "a=1, a=2") ∧
      ∃ front p back ps, pieces = front ++ p :: back ∧ Lists front ps ∧
        Reported "a=1, a=2" front p (.duplicateBinding 'a' ⟨0, 3⟩ ⟨5, 8⟩) := by
  have blank : significantTokens " " = [] := rfl
  have ne : significantTokens "a=1, a=2" ≠ [] := by decide
  obtain ⟨pieces, only, -, errors⟩ := (parse_pieces "a=1, a=2").2 ne
  exact ⟨blank, (parse_pieces " ").1 blank, ne, pieces, (only pieces).2 rfl, (errors _).1 rfl⟩

end Bindings

end Expansion
