import Expansion.Token
import Mathlib.Data.List.Chain

/-!
# Tokens of texts that are put together

**Theorem (`significantTokens_append`).** The significant tokens of two texts, one after the other,
are those of the first text and those of the second, moved behind the first. The exception is a
number that goes across the seam.

Neighbouring lexemes of a text are never one run (`isChain_lexemes`). Where two texts meet, only the
last lexeme of the first can be joined with the second (`lexemes_append`); and if the two sides are
blanks, this makes no difference for the tokens that are not blank.
-/

namespace Expansion

/-- The lexemes do not start with digits. -/
def NoDigits (ls : List Lexeme) : Prop := ∀ ds ms, ls ≠ .digits ds :: ms

@[simp] theorem noDigits_nil : NoDigits [] := nofun

@[simp] theorem noDigits_letter (x : Char) (ls : List Lexeme) : NoDigits (.letter x :: ls) := nofun

@[simp] theorem noDigits_operator (op : Operator) (ls : List Lexeme) :
    NoDigits (.operator op :: ls) := nofun

/-! ## Neighbouring lexemes -/

namespace Lexeme

theorem join?_eq_some {l m run : Lexeme} (h : l.join? m = some run) :
    (∃ cs ds, l = blanks cs ∧ m = blanks ds ∧ run = blanks (cs ++ ds)) ∨
      ∃ cs ds, l = digits cs ∧ m = digits ds ∧ run = digits (cs ++ ds) := by
  cases l with
  | blanks cs =>
    cases m with
    | blanks ds => exact .inl ⟨cs, ds, rfl, rfl, (Option.some.inj h).symm⟩
    | _ => cases h
  | digits cs =>
    cases m with
    | digits ds => exact .inr ⟨cs, ds, rfl, rfl, (Option.some.inj h).symm⟩
    | _ => cases h
  | _ => cases m <;> cases h

/-- A run is joined with what its last part is joined with. -/
theorem join?_run_right {k l m run : Lexeme} (h : l.join? m = some run)
    (apart : m.join? k = none) : run.join? k = none := by
  rcases join?_eq_some h with ⟨cs, ds, rfl, rfl, rfl⟩ | ⟨cs, ds, rfl, rfl, rfl⟩ <;>
    cases k <;> first | rfl | cases apart

/-- A run is joined with what its first part is joined with. -/
theorem join?_run_left {k l m run : Lexeme} (h : l.join? m = some run)
    (apart : k.join? l = none) : k.join? run = none := by
  rcases join?_eq_some h with ⟨cs, ds, rfl, rfl, rfl⟩ | ⟨cs, ds, rfl, rfl, rfl⟩ <;>
    cases k <;> first | rfl | cases apart

theorem attach_eq_cons {l : Lexeme} {ls : List Lexeme} (h : ∀ m ∈ ls.head?, l.join? m = none) :
    l.attach ls = l :: ls := by
  cases ls with
  | nil => rfl
  | cons m ms => rw [attach, h m rfl]

/-- It does not matter in which order three pieces of a run are joined. -/
theorem attach_attach {l m run : Lexeme} (h : l.join? m = some run) (ls : List Lexeme) :
    l.attach (m.attach ls) = run.attach ls := by
  rcases join?_eq_some h with ⟨cs, ds, rfl, rfl, rfl⟩ | ⟨cs, ds, rfl, rfl, rfl⟩
  all_goals
    cases ls with
    | nil => rfl
    | cons k ks => cases k <;> simp [attach, join?]

theorem foldr_attach (l : Lexeme) (ls ms : List Lexeme) :
    (l.attach ls).foldr attach ms = l.attach (ls.foldr attach ms) := by
  cases ls with
  | nil => rfl
  | cons k ks =>
    rw [attach]
    split
    · next run eq => exact (attach_attach eq _).symm
    · rfl

theorem join?_head_attach {k l : Lexeme} (h : k.join? l = none) (ms : List Lexeme) :
    ∀ m ∈ (l.attach ms).head?, k.join? m = none := by
  cases ms with
  | nil => exact fun m hm => Option.some.inj hm ▸ h
  | cons m ms =>
    rw [attach]
    split
    · next run eq => exact fun n hn => Option.some.inj hn ▸ join?_run_left eq h
    · exact fun n hn => Option.some.inj hn ▸ h

theorem isChain_attach (l : Lexeme) {ls : List Lexeme}
    (h : ls.IsChain fun l m => l.join? m = none) :
    (l.attach ls).IsChain fun l m => l.join? m = none := by
  cases ls with
  | nil => exact .singleton l
  | cons m ms =>
    obtain ⟨head, tail⟩ := List.isChain_cons.1 h
    rw [attach]
    split
    · next run eq =>
      exact List.isChain_cons.2 ⟨fun k hk => join?_run_right eq (head k hk), tail⟩
    · next eq => exact List.isChain_cons.2 ⟨fun k hk => Option.some.inj hk ▸ eq, h⟩

end Lexeme

/-- Neighbouring lexemes of a text are never one run. -/
theorem isChain_lexemes (cs : List Char) :
    (lexemes cs).IsChain fun l m => l.join? m = none := by
  induction cs with
  | nil => exact .nil
  | cons c cs ih => exact Lexeme.isChain_attach _ ih

/-! ## Texts one after the other -/

theorem foldr_attach_concat {ls : List Lexeme} {l : Lexeme}
    (h : (ls ++ [l]).IsChain fun l m => l.join? m = none) (ms : List Lexeme) :
    (ls ++ [l]).foldr Lexeme.attach ms = ls ++ l.attach ms := by
  induction ls with
  | nil => rfl
  | cons k ks ih =>
    obtain ⟨head, tail⟩ := List.isChain_cons.1 h
    rw [List.cons_append, List.foldr_cons, ih tail, List.cons_append]
    apply Lexeme.attach_eq_cons
    cases ks with
    | nil => exact Lexeme.join?_head_attach (head l rfl) ms
    | cons m ks => exact head

theorem lexemes_append_eq_foldr (cs ds : List Char) :
    lexemes (cs ++ ds) = (lexemes cs).foldr Lexeme.attach (lexemes ds) := by
  induction cs with
  | nil => rfl
  | cons c cs ih =>
    show (Lexeme.ofChar c).attach (lexemes (cs ++ ds)) = _
    rw [ih, ← Lexeme.foldr_attach]
    rfl

/-- Only the last lexeme of the first text can be joined with the second. -/
theorem lexemes_append {cs : List Char} {ls : List Lexeme} {l : Lexeme}
    (h : lexemes cs = ls ++ [l]) (ds : List Char) :
    lexemes (cs ++ ds) = ls ++ l.attach (lexemes ds) := by
  have chain := isChain_lexemes cs
  rw [h] at chain
  rw [lexemes_append_eq_foldr, h, foldr_attach_concat chain]

namespace Token

/-! ## Places -/

theorem place_append (i : Nat) (ls ms : List Lexeme) :
    place i (ls ++ ms) = place i ls ++ place (i + byteLength (ls.flatMap Lexeme.chars)) ms := by
  induction ls generalizing i with
  | nil => rfl
  | cons l ls ih =>
    rw [List.cons_append, place, ih, place, List.flatMap_cons, byteLength_append, Nat.add_assoc]
    rfl

/-- The token with its start moved by `ψ`. -/
def relocate (ψ : Nat → Nat) (t : Token) : Token := ⟨t.lexeme, ψ t.start⟩

theorem place_add (i n : Nat) (ls : List Lexeme) :
    place (i + n) ls = (place i ls).map (relocate (· + n)) := by
  induction ls generalizing i with
  | nil => rfl
  | cons l ls ih =>
    rw [place, Nat.add_right_comm, ih]
    rfl

/-- The lexemes that are not blank as tokens, if the first lexeme is at `start`. -/
def significant (start : Nat) (ls : List Lexeme) : List Token :=
  (place start ls).filter (!·.isBlank)

theorem significant_append (i : Nat) (ls ms : List Lexeme) :
    significant i (ls ++ ms) =
      significant i ls ++ significant (i + byteLength (ls.flatMap Lexeme.chars)) ms := by
  rw [significant, place_append, List.filter_append]
  rfl

theorem significant_add (i n : Nat) (ls : List Lexeme) :
    significant (i + n) ls = (significant i ls).map (relocate (· + n)) := by
  rw [significant, place_add, List.filter_map]
  rfl

/-- Joining blanks does not change which tokens there are besides. -/
theorem significant_attach (i : Nat) {l : Lexeme} {ms : List Lexeme}
    (free : ∀ ds, l = .digits ds → NoDigits ms) : significant i (l.attach ms) =
      significant i [l] ++ significant (i + byteLength l.chars) ms := by
  have unjoined : significant i (l :: ms) =
      significant i [l] ++ significant (i + byteLength l.chars) ms := List.filter_append [_] _
  cases ms with
  | nil => exact unjoined
  | cons m ms =>
    rw [Lexeme.attach]
    split
    · next run eq =>
      rcases Lexeme.join?_eq_some eq with ⟨cs, ds, rfl, rfl, rfl⟩ | ⟨cs, ds, rfl, rfl, rfl⟩
      · show significant (i + byteLength (cs ++ ds)) ms =
          significant (i + byteLength cs + byteLength ds) ms
        rw [byteLength_append, Nat.add_assoc]
      · exact absurd rfl (free cs rfl ds ms)
    · exact unjoined

end Token

/-- The significant tokens of two texts are those of the first and those of the second behind it,
unless a number goes across the seam. -/
theorem significantTokens_append {s t : String}
    (free : ∀ ds, (lexemes s.toList).getLast? = some (.digits ds) → NoDigits (lexemes t.toList)) :
    significantTokens (s ++ t) = significantTokens s ++
      (significantTokens t).map (Token.relocate (· + byteLength s.toList)) := by
  show Token.significant 0 (lexemes (s ++ t).toList) = Token.significant 0 (lexemes s.toList) ++
    (Token.significant 0 (lexemes t.toList)).map _
  rw [String.toList_append, ← Token.significant_add, Nat.zero_add]
  have covers := flatMap_chars_lexemes s.toList
  rcases List.eq_nil_or_concat' (lexemes s.toList) with empty | ⟨ls, l, eq⟩
  · rw [empty] at covers
    rw [← covers]
    rfl
  · have length : byteLength s.toList =
        byteLength (ls.flatMap Lexeme.chars) + byteLength l.chars := by
      rw [← covers, eq, List.flatMap_append, List.flatMap_singleton, byteLength_append]
    have last : ∀ ds, l = .digits ds → NoDigits (lexemes t.toList) := by
      intro ds digits
      rw [eq, List.getLast?_concat] at free
      exact free ds (congrArg some digits)
    rw [lexemes_append eq, eq, Token.significant_append, Token.significant_append,
      Token.significant_attach _ last, List.append_assoc, length, Nat.zero_add]

end Expansion
