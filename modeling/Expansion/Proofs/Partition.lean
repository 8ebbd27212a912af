import Mathlib
import Expansion.Proofs.Guards
import Expansion.Proofs.Rendering

/-!
# Tokens partition a text

A lexer that is generated from a rule for each kind of token takes the longest match at each
position. What no rule matches would be an error, and errors are left out.

**Theorem (`complete?_partitions`).** For every text there is exactly one list of slices that cover
it from the first byte to the last, where each slice is of a kind that matches it, and neighbours
are never both blanks or both numbers. The lexer finds it without errors, and it is the list of the
tokens.

A piece of text that matches the rule of a kind, and no better one, is the text of one lexeme of
this kind (`exists_lexeme`). Lexemes of which no neighbours are one run are those of the text. So it
is enough that a text is cut into such lexemes, and longest matches do this, because a run behind
another one of its kind would have been a part of it.
-/

namespace Expansion

/-! ## Kinds of tokens -/

/-- The kinds of tokens that there are rules for. -/
inductive Kind
  | whitespace
  | add
  | sub
  | mul
  | assign
  | comma
  | openParen
  | closeParen
  | int
  | name
  | symbol
deriving DecidableEq

namespace Kind

/-- The characters that the rule is about. For symbols, these are all but line feeds. -/
def accepts : Kind → Char → Bool
  | whitespace, c => c == ' ' || c == '\t' || c == '\n' || c == '\r'
  | add, c => c == '+'
  | sub, c => c == '-'
  | mul, c => c == '*'
  | assign, c => c == '='
  | comma, c => c == ','
  | openParen, c => c == '('
  | closeParen, c => c == ')'
  | int, c => '0' ≤ c && c ≤ '9'
  | name, c => 'a' ≤ c && c ≤ 'z'
  | symbol, c => c != '\n'

/-- Whether the rule is about a run of characters, or else about a single one. -/
def repeats : Kind → Bool
  | whitespace | int => true
  | _ => false

/-- Which rule is taken if several match the same: the one with more. A class of characters counts 1
and a given character 2, but the rule for symbols has its own number. -/
def priority : Kind → Nat
  | symbol => 0
  | whitespace | int | name => 1
  | _ => 2

/-- The rule of the kind matches the characters. -/
structure Matches (k : Kind) (cs : List Char) : Prop where
  nonempty : cs ≠ []
  accepts : ∀ c ∈ cs, k.accepts c = true
  single : k.repeats = false → cs.length = 1

/-- The characters are a token of the kind. A symbol is what is of no other kind. -/
structure Labels (k : Kind) (cs : List Char) : Prop where
  fits : k.Matches cs
  other : k = symbol → ∀ k' ≠ symbol, ¬k'.Matches cs

end Kind

/-- The kind of a lexeme. -/
def Lexeme.kind : Lexeme → Kind
  | blanks _ => .whitespace
  | digits _ => .int
  | letter _ => .name
  | operator .add => .add
  | operator .sub => .sub
  | operator .mul => .mul
  | equals => .assign
  | comma => .comma
  | opening => .openParen
  | closing => .closeParen
  | symbol _ => .symbol

/-! ## Lexers and slices -/

/-- A token with its region, kind and text. -/
structure Slice where
  span : Span
  kind : Kind
  text : String
deriving DecidableEq

/-- What a lexer says of a token when it finds it. -/
def Token.found (t : Token) : Option Kind × Span := (some t.lexeme.kind, t.span)

/-- The region, kind and text of a token. -/
def Token.slice (t : Token) : Slice := ⟨t.span, t.lexeme.kind, t.text⟩

/-- The kinds and regions that longest matches give for characters, the first of which is at a given
byte. Where nothing matches there is an error, over some of the characters. -/
inductive LongestMatches : Nat → List Char → List (Option Kind × Span) → Prop
  | done {i : Nat} : LongestMatches i [] []
  | token {i : Nat} {k : Kind} {cs rest : List Char} {ps : List (Option Kind × Span)} :
      k.Matches cs → (∀ k' : Kind, ∀ ds, ds <+: cs ++ rest → k'.Matches ds →
        ds.length ≤ cs.length) → (∀ k' : Kind, k'.Matches cs → k'.priority ≤ k.priority) →
      LongestMatches (i + byteLength cs) rest ps →
      LongestMatches i (cs ++ rest) ((some k, ⟨i, i + byteLength cs⟩) :: ps)
  | error {i : Nat} {cs rest : List Char} {ps : List (Option Kind × Span)} : cs ≠ [] →
      (∀ k : Kind, ∀ ds, ds <+: cs ++ rest → ¬k.Matches ds) →
      LongestMatches (i + byteLength cs) rest ps →
      LongestMatches i (cs ++ rest) ((none, ⟨i, i + byteLength cs⟩) :: ps)

/-- The slice of a text at a region. Cutting within a character, or behind the end of the text, gets
stuck. -/
def Slice.cut? (text : String) (kind : Kind) (span : Span) : Option Slice :=
  (span.cut? text.toList).map fun cs => ⟨span, kind, String.ofList cs⟩

/-- The slices that a lexer finds in a text. Errors are left out. -/
def complete? (lexer : String → List (Option Kind × Span)) (text : String) : Option (List Slice) :=
  ((lexer text).filterMap fun (kind, span) => kind.map (·, span)).mapM fun (kind, span) =>
    Slice.cut? text kind span

/-- Regions that are not empty follow each other from `start` to `stop`. -/
def Tiles (start stop : Nat) : List Span → Prop
  | [] => start = stop
  | s :: ss => s.start = start ∧ s.start < s.stop ∧ Tiles s.stop stop ss

/-- The slices cover the text from the first byte to the last, each is of a kind that matches it,
and no two neighbours are runs of the same kind. -/
structure Partitions (text : String) (ss : List Slice) : Prop where
  tiles : Tiles 0 text.utf8ByteSize (ss.map (·.span))
  shows : ∀ s ∈ ss, s.span.Shows text.toList s.text.toList
  labels : ∀ s ∈ ss, s.kind.Labels s.text.toList
  apart : ss.IsChain fun s t => s.kind.repeats = true → s.kind ≠ t.kind

/-! ## Kinds of lexemes -/

namespace Kind

open Lexeme

variable {k : Kind} {c : Char} {cs : List Char}

theorem accepts_ofChar (c : Char) : (ofChar c).kind.accepts c = true := by
  unfold ofChar
  split
  · next blank => exact blank
  · next not_blank =>
    split
    · next digit => exact digit
    split
    · next lower => exact lower
    repeat' split
    all_goals first
      | next same => exact beq_iff_eq.2 same
      | skip
    -- Of symbols it is only known that they are nothing else.
    refine bne_iff_ne.2 ?_
    rintro rfl
    exact not_blank rfl

theorem kind_ofChar (ne : k ≠ symbol) (h : k.accepts c = true) : (ofChar c).kind = k := by
  cases k with
  | whitespace => exact congrArg kind (if_pos h)
  | int => exact congrArg kind (ofChar_digit h)
  | name => exact congrArg kind (ofChar_letter h)
  | symbol => exact absurd rfl ne
  | _ =>
    obtain rfl := beq_iff_eq.1 h
    rfl

theorem labels_iff : k.Labels cs ↔
    cs ≠ [] ∧ (∀ c ∈ cs, (ofChar c).kind = k) ∧ (k.repeats = false → cs.length = 1) := by
  constructor
  · rintro ⟨⟨nonempty, accepts, single⟩, other⟩
    refine ⟨nonempty, fun c mem => ?_, single⟩
    by_cases symbolic : k = symbol
    · subst symbolic
      obtain ⟨d, rfl⟩ := List.length_eq_one_iff.1 (single rfl)
      obtain rfl := List.mem_singleton.1 mem
      by_contra ne
      exact other rfl _ ne ⟨nonempty, List.forall_mem_singleton.2 (accepts_ofChar c), fun _ => rfl⟩
    · exact kind_ofChar symbolic (accepts c mem)
  · rintro ⟨nonempty, kinds, single⟩
    refine ⟨⟨nonempty, fun c mem => kinds c mem ▸ accepts_ofChar c, single⟩, ?_⟩
    rintro rfl k' ne fits
    obtain ⟨c, mem⟩ := List.exists_mem_of_ne_nil cs nonempty
    exact ne ((kind_ofChar ne (fits.accepts c mem)).symm.trans (kinds c mem))

end Kind

namespace Lexeme

variable {k : Kind} {l m run : Lexeme} {cs : List Char}

theorem kind_join? (h : l.join? m = some run) :
    run.kind = l.kind ∧ m.kind = l.kind ∧ l.kind.repeats = true := by
  rcases join?_eq_some h with ⟨cs, ds, rfl, rfl, rfl⟩ | ⟨cs, ds, rfl, rfl, rfl⟩ <;>
    exact ⟨rfl, rfl, rfl⟩

/-- Two lexemes are one run if they are of the same kind, and this kind is one of runs. -/
theorem join?_eq_none_iff : l.join? m = none ↔ (l.kind.repeats = true → l.kind ≠ m.kind) := by
  constructor
  · intro apart repeats same
    cases l with
    | blanks | digits =>
      cases m with
      | operator op => cases op <;> cases same
      | _ => cases same <;> cases apart
    | operator op => cases op <;> cases repeats
    | _ => cases repeats
  · intro apart
    cases h : l.join? m with
    | none => rfl
    | some run =>
      obtain ⟨-, same, repeats⟩ := kind_join? h
      exact absurd same.symm (apart repeats)

/-- A lexeme of a text is labelled by its kind. -/
theorem labels_lexemes (cs : List Char) : ∀ l ∈ lexemes cs, l.kind.Labels l.chars := by
  have single (c : Char) : (ofChar c).kind.Labels (ofChar c).chars := by
    rw [chars_ofChar]
    exact Kind.labels_iff.2 ⟨List.cons_ne_nil _ _, List.forall_mem_singleton.2 rfl, fun _ => rfl⟩
  induction cs with
  | nil => exact nofun
  | cons c cs ih =>
    refine forall_mem_attach (fun m mem run eq => ?_) (single c) ih
    obtain ⟨same, kind, repeats⟩ := kind_join? eq
    obtain ⟨nonempty, first, -⟩ := Kind.labels_iff.1 (single c)
    have second := (Kind.labels_iff.1 (ih m mem)).2.1
    rw [kind] at second
    rw [same, chars_of_join? eq]
    refine Kind.labels_iff.2 ⟨by simp, List.forall_mem_append.2 ⟨first, second⟩, ?_⟩
    rw [repeats]
    exact nofun

theorem Standalone.labels (h : l.Standalone) : l.kind.Labels l.chars :=
  labels_lexemes l.chars l (h ▸ List.mem_singleton_self l)

/-- What is a token of a kind is the text of a lexeme of this kind. -/
theorem exists_lexeme (h : k.Labels cs) :
    ∃ l : Lexeme, l.Standalone ∧ l.kind = k ∧ l.chars = cs := by
  obtain ⟨nonempty, kinds, single⟩ := Kind.labels_iff.1 h
  induction cs with
  | nil => exact absurd rfl nonempty
  | cons c cs ih =>
    obtain ⟨first, others⟩ := List.forall_mem_cons.1 kinds
    cases cs with
    | nil => exact ⟨ofChar c, standalone_ofChar c, first, chars_ofChar c⟩
    | cons d ds =>
      have repeats : k.repeats = true := by
        by_contra no
        cases single (Bool.eq_false_iff.2 no)
      have single : k.repeats = false → (d :: ds).length = 1 := by
        rw [repeats]
        exact nofun
      have ne := List.cons_ne_nil d ds
      obtain ⟨m, alone, kind, chars⟩ := ih (Kind.labels_iff.2 ⟨ne, others, single⟩) ne others single
      cases join : (ofChar c).join? m with
      | none =>
        rw [join?_eq_none_iff, first, kind] at join
        exact absurd rfl (join repeats)
      | some run =>
        refine ⟨run, standalone_join? (standalone_ofChar c) alone join, ?_, ?_⟩
        · rw [(kind_join? join).1, first]
        · rw [chars_of_join? join, chars_ofChar, chars]
          rfl

end Lexeme

/-! ## Partitions -/

/-- Slices that follow each other through a part of a text are those of lexemes of the part. -/
theorem exists_lexemes_of_tiles (before : List Char) {cs : List Char} {ss : List Slice}
    (tiles : Tiles (byteLength before) (byteLength (before ++ cs)) (ss.map (·.span)))
    (shows : ∀ s ∈ ss, s.span.Shows (before ++ cs) s.text.toList)
    (labels : ∀ s ∈ ss, s.kind.Labels s.text.toList) :
    ∃ ls, ss = (Token.place (byteLength before) ls).map Token.slice ∧
      ls.flatMap Lexeme.chars = cs ∧ ∀ l ∈ ls, l.Standalone := by
  induction ss generalizing before cs with
  | nil =>
    have same : byteLength before = byteLength (before ++ cs) := tiles
    have no_chars : cs = [] := by
      by_contra ne
      have positive := byteLength_pos ne
      rw [byteLength_append] at same
      omega
    exact ⟨[], rfl, no_chars.symm, nofun⟩
  | cons s ss ih =>
    obtain ⟨start, -, tiles⟩ := tiles
    obtain ⟨⟨before', after, eq, span⟩, shows⟩ := List.forall_mem_cons.1 shows
    obtain ⟨label, labels⟩ := List.forall_mem_cons.1 labels
    -- The slice starts where the part starts.
    have cut : some (before, cs) = some (before', s.text.toList ++ after) := by
      rw [← Text.splitBytes?_eq_some_iff.2 ⟨rfl, rfl⟩]
      exact Text.splitBytes?_eq_some_iff.2 ⟨eq, (congrArg Span.start span).symm.trans start⟩
    obtain ⟨rfl, rfl⟩ := Prod.mk.inj (Option.some.inj cut)
    obtain ⟨l, first, kind, chars⟩ := Lexeme.exists_lexeme label
    have slice : s = Token.slice ⟨l, byteLength before⟩ := by
      rw [Token.slice, Token.span, Token.stop, Token.text, Token.chars, chars, kind, ← span,
        String.ofList_toList]
    have stop : s.span.stop = byteLength (before ++ s.text.toList) := by
      rw [span, byteLength_append]
    rw [← List.append_assoc] at tiles shows
    obtain ⟨ls, others, rfl, alone⟩ := ih (before ++ s.text.toList) (stop ▸ tiles) shows labels
    refine ⟨l :: ls, ?_, ?_, List.forall_mem_cons.2 ⟨first, alone⟩⟩
    · rw [Token.place, List.map_cons, chars, ← byteLength_append, ← others, ← slice]
    · rw [List.flatMap_cons, chars]

theorem tiles_place {ls : List Lexeme} (alone : ∀ l ∈ ls, l.Standalone) (i : Nat) :
    Tiles i (i + byteLength (ls.flatMap Lexeme.chars)) ((Token.place i ls).map Token.span) := by
  induction ls generalizing i with
  | nil => rfl
  | cons l ls ih =>
    obtain ⟨first, alone⟩ := List.forall_mem_cons.1 alone
    have positive := byteLength_pos (Lexeme.chars_ne_nil_of_standalone first)
    refine ⟨rfl, Nat.lt_add_of_pos_right positive, ?_⟩
    rw [List.flatMap_cons, byteLength_append, ← Nat.add_assoc]
    exact ih alone _

theorem isChain_place_iff {ls : List Lexeme} (i : Nat) :
    ((Token.place i ls).map Token.slice).IsChain
        (fun s t => s.kind.repeats = true → s.kind ≠ t.kind) ↔
      ls.IsChain fun l m => l.join? m = none := by
  conv_rhs => rw [← Token.lexeme_place i ls, List.isChain_map]
  rw [List.isChain_map]
  simp only [Lexeme.join?_eq_none_iff]
  rfl

/-- The tokens of a text partition it, and nothing else does. -/
theorem partitions_iff {text : String} {ss : List Slice} :
    Partitions text ss ↔ ss = (tokenize text).map Token.slice := by
  constructor
  · rintro ⟨tiles, shows, labels, apart⟩
    rw [← byteLength_toList] at tiles
    obtain ⟨ls, rfl, chars, alone⟩ := exists_lexemes_of_tiles [] tiles shows labels
    have same := lexemes_flatMap_chars alone ((isChain_place_iff _).1 apart)
    rw [chars] at same
    exact congrArg (fun ls => (Token.place 0 ls).map Token.slice) same.symm
  · rintro rfl
    refine ⟨?_, List.forall_mem_map.2 fun t mem => ?_, List.forall_mem_map.2 fun t mem => ?_,
      (isChain_place_iff 0).2 (isChain_lexemes _)⟩
    · have tiles := tiles_place (standalone_lexemes text.toList) 0
      rw [flatMap_chars_lexemes, Nat.zero_add, byteLength_toList] at tiles
      rw [List.map_map]
      exact tiles
    · rw [Token.slice, Token.text, String.toList_ofList]
      exact shows_of_mem mem
    · rw [Token.slice, Token.text, String.toList_ofList]
      exact Lexeme.labels_lexemes _ _ (lexeme_mem_of_mem_tokenize mem)

/-! ## Longest matches -/

namespace LongestMatches

open Lexeme

variable {i : Nat} {cs : List Char} {ps : List (Option Kind × Span)} {l : Lexeme} {ls : List Lexeme}

/-- Longest matches cut characters into lexemes of which no neighbours are one run. -/
theorem exists_lexemes (h : LongestMatches i cs ps) :
    ∃ ls, ps = (Token.place i ls).map Token.found ∧ ls.flatMap chars = cs ∧
      (∀ l ∈ ls, l.Standalone) ∧ ls.IsChain fun l m => l.join? m = none := by
  induction h with
  | done => exact ⟨[], rfl, rfl, nofun, .nil⟩
  | @token i k cs rest ps fits longest best _ ih =>
    obtain ⟨ls, rfl, rfl, alone, chain⟩ := ih
    have label : k.Labels cs := by
      refine ⟨fits, ?_⟩
      rintro rfl k' ne fits'
      have := best k' fits'
      cases k' with
      | symbol => exact ne rfl
      | _ => cases this
    obtain ⟨l, first, rfl, rfl⟩ := exists_lexeme label
    refine ⟨l :: ls, rfl, rfl, List.forall_mem_cons.2 ⟨first, alone⟩,
      List.isChain_cons.2 ⟨fun m head => ?_, chain⟩⟩
    -- A run of two lexemes would be a longer match than the first of them.
    cases join : l.join? m with
    | none => rfl
    | some run =>
      obtain ⟨ms, rfl⟩ := List.head?_eq_some_iff.1 head
      have second := alone m List.mem_cons_self
      have before : run.chars <+: l.chars ++ (m :: ms).flatMap chars := by
        rw [chars_of_join? join, List.flatMap_cons, ← List.append_assoc]
        exact List.prefix_append _ _
      have le := longest run.kind _ before (standalone_join? first second join).labels.fits
      have positive := List.length_pos_of_ne_nil (chars_ne_nil_of_standalone second)
      rw [chars_of_join? join, List.length_append] at le
      omega
  | @error i cs rest ps nonempty nothing _ _ =>
    obtain ⟨c, cs, rfl⟩ := List.exists_cons_of_ne_nil nonempty
    have label := (standalone_ofChar c).labels
    rw [chars_ofChar] at label
    exact absurd label.fits (nothing _ _ (List.prefix_append [c] (cs ++ rest)))

/-- All characters of a lexeme are of its kind. -/
theorem kind_of_mem {c : Char} (alone : l.Standalone) (mem : c ∈ l.chars) :
    (ofChar c).kind = l.kind := (Kind.labels_iff.1 alone.labels).2.1 c mem

/-- No rule matches more than the first of the lexemes. -/
theorem length_le_of_matches {k : Kind} {ds : List Char} (alone : ∀ m ∈ l :: ls, m.Standalone)
    (chain : (l :: ls).IsChain fun l m => l.join? m = none)
    (before : ds <+: l.chars ++ ls.flatMap chars) (fits : k.Matches ds) :
    ds.length ≤ l.chars.length := by
  obtain ⟨first, others⟩ := List.forall_mem_cons.1 alone
  have nonempty := chars_ne_nil_of_standalone first
  by_contra longer
  -- The rule is one of runs, and matches all of the first lexeme and a part of the second.
  have repeats : k.repeats = true := by
    by_contra no
    have single := fits.single (Bool.eq_false_iff.2 no)
    have positive := List.length_pos_of_ne_nil nonempty
    omega
  have ne : k ≠ .symbol := by
    rintro rfl
    cases repeats
  obtain ⟨es, rfl⟩ := List.prefix_of_prefix_length_le (List.prefix_append _ _) before (by omega)
  obtain ⟨behind, eq⟩ := (List.prefix_append_right_inj _).1 before
  have kinds : ∀ c ∈ l.chars ++ es, (ofChar c).kind = k := fun c mem =>
    Kind.kind_ofChar ne (fits.accepts c mem)
  obtain ⟨c, mem⟩ := List.exists_mem_of_ne_nil _ nonempty
  have kind : l.kind = k :=
    (kind_of_mem first mem).symm.trans (kinds c (List.mem_append_left _ mem))
  cases ls with
  | nil =>
    obtain rfl := (List.append_eq_nil_iff.1 eq).1
    simp at longer
  | cons m ms =>
    have second := others m List.mem_cons_self
    obtain ⟨d, ds, chars_m⟩ := List.exists_cons_of_ne_nil (chars_ne_nil_of_standalone second)
    obtain ⟨e, es, rfl⟩ : ∃ e es', es = e :: es' := by
      refine List.exists_cons_of_ne_nil ?_
      rintro rfl
      simp at longer
    rw [List.flatMap_cons, chars_m] at eq
    obtain ⟨rfl, -⟩ := List.cons.inj eq
    have kind_m : m.kind = k :=
      (kind_of_mem second (chars_m ▸ List.mem_cons_self)).symm.trans (kinds e (by simp))
    have apart := join?_eq_none_iff.1 ((List.isChain_cons.1 chain).1 m rfl)
    rw [kind, kind_m] at apart
    exact apart repeats rfl

/-- Lexemes of which no neighbours are one run are longest matches. -/
theorem place_lexemes (alone : ∀ l ∈ ls, l.Standalone)
    (chain : ls.IsChain fun l m => l.join? m = none) (i : Nat) :
    LongestMatches i (ls.flatMap chars) ((Token.place i ls).map Token.found) := by
  induction ls generalizing i with
  | nil => exact .done
  | cons l ls ih =>
    obtain ⟨first, others⟩ := List.forall_mem_cons.1 alone
    refine .token first.labels.fits (fun k' ds => length_le_of_matches alone chain)
      (fun k' fits => ?_) (ih others (List.isChain_cons.1 chain).2 _)
    by_cases symbolic : k' = .symbol
    · rw [symbolic]
      exact Nat.zero_le _
    · obtain ⟨c, mem⟩ := List.exists_mem_of_ne_nil _ fits.nonempty
      have kind := Kind.kind_ofChar symbolic (fits.accepts c mem)
      rw [← kind, kind_of_mem first mem]

end LongestMatches

/-- The longest matches in a text are its tokens. -/
theorem longestMatches_iff {text : String} {ps : List (Option Kind × Span)} :
    LongestMatches 0 text.toList ps ↔ ps = (tokenize text).map Token.found := by
  constructor
  · intro h
    obtain ⟨ls, rfl, chars, alone, chain⟩ := h.exists_lexemes
    have same := lexemes_flatMap_chars alone chain
    rw [chars] at same
    rw [tokenize, same]
  · rintro rfl
    have longest := LongestMatches.place_lexemes (standalone_lexemes text.toList)
      (isChain_lexemes _) 0
    rwa [flatMap_chars_lexemes] at longest

/-! ## The lexer -/

theorem slice_cut?_of_mem {text : String} {t : Token} (h : t ∈ tokenize text) :
    Slice.cut? text t.lexeme.kind t.span = some t.slice := by
  rw [Slice.cut?, Span.cut?_eq_some_iff.2 (shows_of_mem h)]
  rfl

theorem complete?_eq {lexer : String → List (Option Kind × Span)} {text : String}
    (found : lexer text = (tokenize text).map Token.found) :
    complete? lexer text = some ((tokenize text).map Token.slice) := by
  have cut : ∀ t ∈ tokenize text, Slice.cut? text t.lexeme.kind t.span = some t.slice :=
    fun t => slice_cut?_of_mem
  rw [complete?, found]
  generalize tokenize text = ts at cut
  induction ts with
  | nil => rfl
  | cons t ts ih =>
    obtain ⟨first, cut⟩ := List.forall_mem_cons.1 cut
    rw [List.map_cons, List.filterMap_cons]
    show List.mapM _ ((t.lexeme.kind, t.span) :: _) = _
    rw [List.mapM_cons, ih cut]
    show (Slice.cut? text t.lexeme.kind t.span >>= _) = _
    rw [first]
    rfl

/-- If a lexer finds the longest matches in a text, it finds exactly one partition of the text into
slices, each of a kind that matches it, where neighbours are never both blanks or both numbers. Not
an error is left out, and no character of the text. -/
theorem complete?_partitions (lexer : String → List (Option Kind × Span)) {text : String}
    (longest : LongestMatches 0 text.toList (lexer text)) :
    ∃ ss, complete? lexer text = some ss ∧ (∀ ss', Partitions text ss' ↔ ss' = ss) ∧
      ss = (tokenize text).map Token.slice ∧
      lexer text = ss.map (fun s => (some s.kind, s.span)) ∧
      ss.flatMap (·.text.toList) = text.toList := by
  have found := longestMatches_iff.1 longest
  refine ⟨_, complete?_eq found, fun _ => partitions_iff, rfl, ?_, ?_⟩
  · rw [found, List.map_map]
    rfl
  · have texts (t : Token) : t.slice.text.toList = t.chars := String.toList_ofList
    rw [List.flatMap_map, ← charsOf_tokenize]
    exact congrArg (List.flatMap · (tokenize text)) (funext texts)

/-- A number, a symbol of two bytes, and a line feed, which can only be a blank. -/
theorem complete?_partitions_line_feed :
    LongestMatches 0 "07é\n".toList
      [(some .int, ⟨0, 2⟩), (some .symbol, ⟨2, 4⟩), (some .whitespace, ⟨4, 5⟩)] ∧
    complete? (fun _ => [(some .int, ⟨0, 2⟩), (some .symbol, ⟨2, 4⟩), (some .whitespace, ⟨4, 5⟩)])
      "07é\n" = some [⟨⟨0, 2⟩, .int, "07"⟩, ⟨⟨2, 4⟩, .symbol, "é"⟩, ⟨⟨4, 5⟩, .whitespace, "\n"⟩] ∧
    ∀ ss, Partitions "07é\n" ss ↔
      ss = [⟨⟨0, 2⟩, .int, "07"⟩, ⟨⟨2, 4⟩, .symbol, "é"⟩, ⟨⟨4, 5⟩, .whitespace, "\n"⟩] := by
  have longest : LongestMatches 0 "07é\n".toList
      [(some .int, ⟨0, 2⟩), (some .symbol, ⟨2, 4⟩), (some .whitespace, ⟨4, 5⟩)] := by
    rw [longestMatches_iff]
    cbv
  have slices : (tokenize "07é\n").map Token.slice =
      [⟨⟨0, 2⟩, .int, "07"⟩, ⟨⟨2, 4⟩, .symbol, "é"⟩, ⟨⟨4, 5⟩, .whitespace, "\n"⟩] := by cbv
  obtain ⟨ss, complete, unique, eq, -⟩ := complete?_partitions
    (fun _ => [(some .int, ⟨0, 2⟩), (some .symbol, ⟨2, 4⟩), (some .whitespace, ⟨4, 5⟩)]) longest
  rw [slices] at eq
  subst eq
  exact ⟨longest, complete, unique⟩

end Expansion
