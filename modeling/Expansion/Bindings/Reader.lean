import Expansion.Bindings
import Expansion.Error
import Expansion.Numeral
import Expansion.Text.Blank
import Expansion.Token

/-!
# Reading bindings

Bindings are written as entries `name=integer` with commas between them, such as `a=5,b=-3`. A text
of blanks binds nothing. The first entry that is malformed, or that binds a name again, is the one
that is reported.
-/

namespace Expansion

/-- What stands between two commas of a text of bindings. -/
structure Entry where
  /-- The tokens of the entry, blanks at its two ends left out. -/
  tokens : List Token
  /-- The comma after the entry. -/
  comma : Option Token

namespace Entry

/-- Puts a token in front of the first entry, or starts a new entry at a comma. -/
def push (t : Token) (entries : List (List Token × Option Token)) :
    List (List Token × Option Token) :=
  match t.lexeme, entries with
  | .comma, _ => ([], some t) :: entries
  | _, [] => [([t], none)]
  | _, (ts, comma) :: rest => (t :: ts, comma) :: rest

/-- The entries of a text of bindings, from left to right. -/
def ofTokens (ts : List Token) : List Entry :=
  (ts.foldr push [([], none)]).map fun (ts, comma) => ⟨Text.trimBoth Token.isBlank ts, comma⟩

/-- The integer that an optional sign and digits are written for. -/
def integer? : List Token → Option Int
  | [⟨.operator .sub, _⟩, ⟨.digits ds, _⟩] => some (Numeral.signed true (Numeral.value ds))
  | [⟨.operator .add, _⟩, ⟨.digits ds, _⟩] => some (Numeral.value ds)
  | [⟨.digits ds, _⟩] => some (Numeral.value ds)
  | _ => none

/-- The name and the integer that an entry is written for. -/
def binding? (e : Entry) : Option (Char × Int) :=
  match e.tokens.filter (!·.isBlank) with
  | ⟨.letter x, _⟩ :: ⟨.equals, _⟩ :: rest => (integer? rest).map ((x, ·))
  | _ => none

/-- The text of an entry, the blanks inside it kept. -/
def text (e : Entry) : String := String.ofList (Token.charsOf e.tokens)

/-- The region of an entry. An empty one is found at the comma that ends it, or at `previous`, the
comma before it, if it is the last. -/
def place (previous : Span) (e : Entry) : Span :=
  match e.tokens with
  | t :: ts => Token.cover t ts
  | [] => (e.comma.map Token.span).getD previous

end Entry

namespace Bindings

/-- Adds the bindings of the entries to `b`. The names in `b` were first bound at the regions
`seen`, and the comma before the entries is at `previous`. -/
def addEntries (b : Bindings) (seen : List (Char × Span)) (previous : Span) :
    List Entry → Except Error Bindings
  | [] => .ok b
  | e :: rest =>
    let place := e.place previous
    match e.binding? with
    | none => .error (.malformedBinding e.text place)
    | some (x, n) => match seen.lookup x with
      | some first => .error (.duplicateBinding x first place)
      | none =>
        let comma := (e.comma.map Token.span).getD previous
        addEntries (b.insert x n) ((x, place) :: seen) comma rest

/-- The bindings that tokens are written for. -/
def ofTokens (ts : List Token) : Except Error Bindings :=
  if ts.all Token.isBlank then .ok empty
  else addEntries empty [] ⟨0, 0⟩ (Entry.ofTokens ts)

/-- Reads bindings. -/
def parse (text : String) : Except Error Bindings := ofTokens (tokenize text)

end Bindings

end Expansion
