import Expansion.Proofs.Parentheses

/-!
# Lexing is local

**Theorem (`tokenize_group`).** The tokens of a text with a part of it in parentheses are those of
the three parts and the two parentheses, where each part is cut into tokens on its own.

**Theorem (`exists_texts_of_tokens`).** Where the tokens of a text have two parentheses, the text
has such parts.

A lexeme that stands alone is cut into itself, and so is a sequence of lexemes in which no
neighbours are one run. Every part of the lexemes of a text is such a sequence.
-/

namespace Expansion

/-! ## Lexemes -/

namespace Lexeme

/-- Alone, the characters of the lexeme are cut into the lexeme. -/
def Standalone (l : Lexeme) : Prop := lexemes l.chars = [l]

theorem chars_ne_nil_of_standalone {l : Lexeme} (h : l.Standalone) : l.chars ≠ [] := by
  intro nil
  rw [Standalone, nil] at h
  cases h

theorem standalone_ofChar (c : Char) : (ofChar c).Standalone := by
  rw [Standalone, chars_ofChar]
  rfl

theorem standalone_join? {l m run : Lexeme} (hl : l.Standalone) (hm : m.Standalone)
    (h : l.join? m = some run) : run.Standalone := by
  rw [Standalone] at hl hm
  rw [Standalone, chars_of_join? h, lexemes_append_eq_foldr, hl, hm]
  show l.attach [m] = [run]
  rw [attach, h]

end Lexeme

/-- The lexemes of a text are those of their own characters. -/
theorem standalone_lexemes (cs : List Char) : ∀ l ∈ lexemes cs, l.Standalone := by
  induction cs with
  | nil => exact nofun
  | cons c cs ih =>
    have first := Lexeme.standalone_ofChar c
    exact Lexeme.forall_mem_attach (fun m hm _ => Lexeme.standalone_join? first (ih m hm)) first ih

/-- Lexemes of which no neighbours are one run are the lexemes of their characters. -/
theorem lexemes_flatMap_chars {ls : List Lexeme} (alone : ∀ l ∈ ls, l.Standalone)
    (chain : ls.IsChain fun l m => l.join? m = none) : lexemes (ls.flatMap Lexeme.chars) = ls := by
  induction ls with
  | nil => rfl
  | cons l ls ih =>
    obtain ⟨first, others⟩ := List.forall_mem_cons.1 alone
    obtain ⟨head, tail⟩ := List.isChain_cons.1 chain
    rw [List.flatMap_cons, lexemes_append_eq_foldr, first, ih others tail]
    exact Lexeme.attach_eq_cons head

theorem foldr_attach_append {ls ms : List Lexeme}
    (chain : ls.IsChain fun l m => l.join? m = none)
    (seam : ∀ l : Lexeme, ∀ m ∈ ms.head?, l.join? m = none) :
    ls.foldr Lexeme.attach ms = ls ++ ms := by
  induction ls with
  | nil => rfl
  | cons l ls ih =>
    obtain ⟨head, tail⟩ := List.isChain_cons.1 chain
    rw [List.foldr_cons, ih tail]
    apply Lexeme.attach_eq_cons
    cases ls with
    | nil => exact seam l
    | cons k ks => exact head

/-- A character that never is part of a run cuts the text. -/
theorem lexemes_append_cons {c : Char} (before : ∀ l, Lexeme.join? l (.ofChar c) = none)
    (after : ∀ m, Lexeme.join? (.ofChar c) m = none) (cs ds : List Char) :
    lexemes (cs ++ c :: ds) = lexemes cs ++ .ofChar c :: lexemes ds := by
  have single : lexemes (c :: ds) = .ofChar c :: lexemes ds :=
    Lexeme.attach_eq_cons fun m _ => after m
  rw [lexemes_append_eq_foldr, single]
  exact foldr_attach_append (isChain_lexemes cs) fun l m hm => Option.some.inj hm ▸ before l

theorem lexemes_opening (cs ds : List Char) :
    lexemes (cs ++ '(' :: ds) = lexemes cs ++ .opening :: lexemes ds :=
  lexemes_append_cons (fun l => by cases l <;> rfl) (fun _ => rfl) cs ds

theorem lexemes_closing (cs ds : List Char) :
    lexemes (cs ++ ')' :: ds) = lexemes cs ++ .closing :: lexemes ds :=
  lexemes_append_cons (fun l => by cases l <;> rfl) (fun _ => rfl) cs ds

theorem lexemes_inParentheses_append (s t : String) : lexemes (inParentheses s ++ t).toList =
    .opening :: (lexemes s.toList ++ .closing :: lexemes t.toList) := by
  have chars : (inParentheses s ++ t).toList = [] ++ '(' :: (s.toList ++ ')' :: t.toList) := by
    simp [inParentheses, String.toList_append]
  rw [chars, lexemes_opening, lexemes_closing]
  rfl

/-! ## Tokens -/

theorem place_lexemes_append (i : Nat) (cs : List Char) (ls : List Lexeme) :
    Token.place i (lexemes cs ++ ls) =
      Token.place i (lexemes cs) ++ Token.place (i + byteLength cs) ls := by
  rw [Token.place_append, flatMap_chars_lexemes]

theorem place_lexemes (i : Nat) (text : String) :
    Token.place i (lexemes text.toList) = (tokenize text).map (Token.relocate (· + i)) := by
  have moved := Token.place_add 0 i (lexemes text.toList)
  rwa [Nat.zero_add] at moved

/-- The tokens of a part of a text have the lexemes that the part alone is cut into. -/
theorem lexemes_charsOf {text : String} (ts us vs : List Token)
    (h : tokenize text = ts ++ us ++ vs) : lexemes (Token.charsOf us) = us.map Token.lexeme := by
  have lexed := congrArg (List.map Token.lexeme) h
  rw [tokenize, Token.lexeme_place, List.map_append, List.map_append] at lexed
  have chain := isChain_lexemes text.toList
  have alone := standalone_lexemes text.toList
  rw [lexed] at chain alone
  have chars : (us.map Token.lexeme).flatMap Lexeme.chars = Token.charsOf us := List.flatMap_map ..
  rw [← chars]
  refine lexemes_flatMap_chars (fun l hl => alone l ?_) chain.left_of_append.right_of_append
  exact List.mem_append_left _ (List.mem_append_right _ hl)

theorem length_tokenize (text : String) :
    (tokenize text).length = (lexemes text.toList).length := by
  rw [← Token.lexeme_place 0 (lexemes text.toList), List.length_map]
  rfl

/-- The tokens of a text with a part of it in parentheses. -/
def groupTokens (left inner right : String) : List Token :=
  let start := byteLength left.toList + 1
  let stop := start + byteLength inner.toList
  tokenize left ++ ⟨.opening, byteLength left.toList⟩ ::
    ((tokenize inner).map (Token.relocate (· + start)) ++ ⟨.closing, stop⟩ ::
      (tokenize right).map (Token.relocate (· + (stop + 1))))

/-- Each part of a text with a part in parentheses is cut into tokens on its own. -/
theorem tokenize_group (left inner right : String) :
    tokenize (left ++ inParentheses inner ++ right) = groupTokens left inner right := by
  have chars : (left ++ inParentheses inner ++ right).toList =
      left.toList ++ '(' :: (inner.toList ++ ')' :: right.toList) := by
    simp [inParentheses, String.toList_append]
  rw [tokenize, chars, lexemes_opening, lexemes_closing, place_lexemes_append, Token.place,
    place_lexemes_append, Token.place, place_lexemes _ inner, place_lexemes _ right, Nat.zero_add]
  rfl

/-- Where the tokens of a text have two parentheses, the text has three parts around them. -/
theorem exists_texts_of_tokens {text : String} {ts us vs : List Token} {opening closing : Token}
    (opens : opening.lexeme = .opening) (closes : closing.lexeme = .closing)
    (h : tokenize text = ts ++ opening :: (us ++ closing :: vs)) :
    ∃ left inner right, text = left ++ inParentheses inner ++ right ∧
      inner = String.ofList (Token.charsOf us) ∧
      ts = tokenize left ∧ opening = ⟨.opening, byteLength left.toList⟩ ∧
      us = (tokenize inner).map (Token.relocate (· + (byteLength left.toList + 1))) ∧
      closing = ⟨.closing, byteLength left.toList + 1 + byteLength inner.toList⟩ ∧
      vs = (tokenize right).map (Token.relocate
        (· + (byteLength left.toList + 1 + byteLength inner.toList + 1))) := by
  have left := lexemes_charsOf [] ts _ h
  have inner := lexemes_charsOf (ts ++ [opening]) us (closing :: vs) (by simpa using h)
  have parts : text = String.ofList (Token.charsOf ts) ++
      inParentheses (String.ofList (Token.charsOf us)) ++ String.ofList (Token.charsOf vs) := by
    apply String.toList_injective
    rw [← charsOf_tokenize text, h]
    simp [inParentheses, String.toList_append, Token.charsOf, Token.chars, opens, closes,
      Lexeme.chars]
  refine ⟨_, _, _, parts, rfl, ?_⟩
  rw [parts, tokenize_group, groupTokens] at h
  have length_left : (tokenize (String.ofList (Token.charsOf ts))).length = ts.length := by
    rw [length_tokenize, String.toList_ofList, left, List.length_map]
  have length_inner (ψ : Nat → Nat) : ((tokenize (String.ofList (Token.charsOf us))).map
      (Token.relocate ψ)).length = us.length := by
    rw [List.length_map, length_tokenize, String.toList_ofList, inner, List.length_map]
  obtain ⟨before, h⟩ := List.append_inj h length_left
  obtain ⟨opening_eq, h⟩ := List.cons.inj h
  obtain ⟨inside, h⟩ := List.append_inj h (length_inner _)
  obtain ⟨closing_eq, behind⟩ := List.cons.inj h
  exact ⟨before.symm, opening_eq.symm, inside.symm, closing_eq.symm, behind.symm⟩

end Expansion
