import Expansion.Proofs.Entries
import Expansion.Proofs.Rendering
import Expansion.Proofs.Slots
import Expansion.Request

/-!
# No request gets stuck

**Theorem (`never_stuck`).** Whatever the line and the nesting limit are, a request that makes every
look-up explicit never gets stuck, and ends as the request does.

The guarded request is put together from the guarded readers. The arena is built and resolved with a
slot for each node, the texts of entries are cut out of the line, and terms are made from powers
whose exponents have to be small enough. The last of these is safe when an expression is evaluated
because what was parsed has valid monomials.
-/

namespace Expansion

open Guarded

/-! ## Bindings -/

namespace Entry

/-- The text of an entry, cut out of the text that it stands in, unless it has no tokens. -/
def text? (cs : List Char) (previous : Span) (e : Entry) : Option String :=
  if e.tokens.isEmpty then some ""
  else ((e.place previous).cut? cs).map String.ofList

/-- The region of an entry starts and ends between characters. -/
theorem text?_eq {text : String} {e : Entry} (h : e ∈ ofTokens (tokenize text)) (previous : Span) :
    e.text? text.toList previous = some e.text := by
  obtain ⟨before, after, eq⟩ := infix_of_mem_ofTokens h
  obtain ⟨ts, comma⟩ := e
  rw [text?]
  cases ts with
  | nil => rfl
  | cons t ts =>
    have whole : tokenize text = before ++ (t :: ts ++ after) := by rw [← eq, List.append_assoc]
    show ((Token.cover t ts).cut? text.toList).map String.ofList = _
    rw [Span.cut?_eq_some_iff.2 (shows_of_over whole (over_cover t ts))]
    rfl

end Entry

namespace Bindings

/-- Adds the bindings of the entries to `b`. The text of each entry is cut out of the text `cs`. -/
def addEntries? (cs : List Char) (b : Bindings) (seen : List (Char × Span)) (previous : Span) :
    List Entry → Guarded Bindings
  | [] => pure b
  | e :: rest => do
    let place := e.place previous
    let text ← need (e.text? cs previous)
    match e.binding? with
    | none => throw (.malformedBinding text place)
    | some (x, n) => match seen.lookup x with
      | some first => throw (.duplicateBinding x first place)
      | none =>
        let comma := (e.comma.map Token.span).getD previous
        addEntries? cs (b.insert x n) ((x, place) :: seen) comma rest

/-- Reads bindings. -/
def parse? (text : String) : Guarded Bindings := do
  let ts ← need (tokenize? text)
  if ts.all Token.isBlank then pure empty
  else addEntries? text.toList empty [] ⟨0, 0⟩ (Entry.ofTokens ts)

theorem addEntries?_eq {cs : List Char} {entries : List Entry} {b : Bindings}
    {seen : List (Char × Span)} {previous : Span}
    (texts : ∀ e ∈ entries, ∀ previous, e.text? cs previous = some e.text) :
    addEntries? cs b seen previous entries = safe (addEntries b seen previous entries) := by
  induction entries generalizing b seen previous with
  | nil => rfl
  | cons e rest ih =>
    obtain ⟨text, texts⟩ := List.forall_mem_cons.1 texts
    rw [addEntries?, addEntries, text previous]
    cases e.binding? with
    | none => rfl
    | some binding =>
      obtain ⟨x, n⟩ := binding
      cases h : seen.lookup x with
      | some first => simp [h]
      | none => simp [h, ih texts]

/-- Reading bindings never gets stuck. -/
theorem parse?_eq (text : String) : parse? text = safe (parse text) := by
  rw [parse?, tokenize?_eq, need_some, ok_bind, parse, ofTokens]
  split
  · rfl
  · exact addEntries?_eq fun e he => Entry.text?_eq he

end Bindings

/-! ## Expressions -/

namespace Expression

/-- Reads and resolves a text. -/
def parse? (options : Options) (text : String) : Guarded Expression := do
  let a ← Arena.build? options text
  let p ← a.resolve?
  pure ⟨p⟩

/-- The expression with the values of the bound names put in. -/
def evaluateWith? (b : Bindings) (e : Expression) : Guarded Polynomial :=
  need (e.polynomial.evaluate? b)

/-- Reads bindings and evaluates the expression with them. -/
def evaluate? (bindings : String) (e : Expression) : Guarded Polynomial := do
  let b ← Bindings.parse? bindings
  e.evaluateWith? b

/-- Reading an expression never gets stuck. -/
theorem parse?_eq (options : Options) (text : String) :
    parse? options text = safe (parse options text).outcome := by
  have outcome : (parse options text).outcome = Outline.parse options text >>= fun o =>
      o.itemsOf >>= Outline.valueOf >>= fun p => .ok ⟨p⟩ := by
    simp only [parse, Outline.resolve, Logged.outcome_bind, Logged.outcome_ofExcept,
      Logged.outcome_write, Logged.outcome_pure, bind_assoc]
    rfl
  rw [parse?, Arena.build?_eq, outcome]
  cases h : Outline.parse options text with
  | error e => rfl
  | ok o =>
    obtain ⟨rfl, -⟩ := Outline.parse_eq_ok_iff.1 h
    show Arena.resolve? _ >>= _ = _
    rw [Arena.resolve?_eq (Outline.tokens_ofTokens _)]
    exact safe_bind fun p _ => rfl

theorem evaluateWith?_eq {options : Options} {text : String} {e : Expression}
    (h : (parse options text).outcome = .ok e) (b : Bindings) :
    e.evaluateWith? b = safe (e.evaluateWith b).outcome := by
  have valid : ∀ t ∈ e.polynomial.terms, t.Valid :=
    fun t ht => ((canonical_of_parse h).2 t ht).toValid
  rw [evaluateWith?, Polynomial.evaluate?_eq valid]
  rfl

/-- Evaluating what was parsed never gets stuck. -/
theorem evaluate?_eq {options : Options} {text : String} {e : Expression}
    (h : (parse options text).outcome = .ok e) (bindings : String) :
    e.evaluate? bindings = safe (e.evaluate bindings).outcome := by
  rw [evaluate?, Bindings.parse?_eq, evaluate, Logged.outcome_bind]
  exact safe_bind fun b _ => evaluateWith?_eq h b

end Expression

/-! ## Requests -/

namespace Request

/-- One line for each of the bindings, the first of which start at the byte `offset`. -/
def evaluateAll? (e : Expression) (offset : Nat) : List (List Char) → Guarded (List String)
  | [] => pure []
  | part :: rest => do
    let b ← ExceptT.adapt (Error.shift offset) (Bindings.parse? (String.ofList part))
    let p ← e.evaluateWith? b
    let lines ← evaluateAll? e (offset + byteLength part + 1) rest
    pure (p.text :: lines)

/-- The lines that answer a request. -/
def run? (options : Options) (line : String) : Guarded (List String) :=
  match Text.parts ';' line.toList with
  | [] => pure []
  | source :: bindings => do
    let e ← Expression.parse? options (String.ofList source)
    match bindings with
    | [] => pure [e.text]
    | _ => evaluateAll? e (byteLength source + 1) bindings

theorem evaluateAll?_eq {options : Options} {text : String} {e : Expression}
    (h : (Expression.parse options text).outcome = .ok e) (offset : Nat)
    (parts : List (List Char)) :
    evaluateAll? e offset parts = safe (evaluateAll e offset parts).outcome := by
  induction parts generalizing offset with
  | nil => rfl
  | cons part rest ih =>
    rw [evaluateAll?, evaluateAll, Bindings.parse?_eq, adapt_safe, Logged.outcome_bind]
    refine safe_bind fun b _ => ?_
    rw [Expression.evaluateWith?_eq h, Logged.outcome_bind]
    refine safe_bind fun p _ => ?_
    rw [ih, Logged.outcome_bind]
    exact safe_bind fun lines _ => rfl

/-- No request gets stuck, and neither does reading an expression from any text or evaluating it
with any bindings. All arithmetic on polynomials merges neighbours in a list of terms, which gets
stuck for no list. -/
theorem never_stuck (options : Options) :
    (∀ line, run? options line = safe (run options line).outcome) ∧
    (∀ text bindings, (Expression.parse? options text >>= Expression.evaluate? bindings) =
      safe (Expression.parse options text >>= Expression.evaluate bindings).outcome) ∧
    ∀ ts, Polynomial.reduce? ts = some (.reduce ts) := by
  refine ⟨fun line => ?_, fun text bindings => ?_, Polynomial.reduce?_eq⟩
  · rw [run?, run]
    cases Text.parts ';' line.toList with
    | nil => rfl
    | cons source bindings =>
      show Expression.parse? options (String.ofList source) >>= _ = _
      rw [Expression.parse?_eq, Logged.outcome_bind]
      refine safe_bind fun e h => ?_
      cases bindings with
      | nil => rfl
      | cons part rest => exact evaluateAll?_eq h _ _
  · rw [Expression.parse?_eq, Logged.outcome_bind]
    exact safe_bind fun e h => Expression.evaluate?_eq h bindings

end Request

end Expansion
