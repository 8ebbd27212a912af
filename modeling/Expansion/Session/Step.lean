import Expansion.Session.Register

/-!
# Steps

A step of a session makes a term, a polynomial, an expression or bindings, or asks something about
those that earlier steps made. Numbers of registers are called `a` and `b`; `a` is looked at first.

Two steps come in a strict and a lenient form, because a product may have an exponent that is too
large: the lenient form then has nothing as its answer, and the strict form fails.
-/

namespace Expansion.Session

/-- A step that makes a term or asks about terms. -/
inductive TermStep
  | parse (text : String)
  | ofPowers (strict : Bool) (factor : Int) (powers : List (Char × Nat))
  | constant (n : Int)
  | zero
  | neg (a : Nat)
  | mul (strict : Bool) (a b : Nat)
  | evaluate (a b : Nat)
  | compare (a b : Nat)
  | isSame (a b : Nat)
  | describe (a : Nat)

/-- A step that makes a polynomial or asks about polynomials. -/
inductive PolynomialStep
  | parse (text : String)
  /-- The two terms added, not in canonical form. -/
  | addTerms (a b : Nat)
  /-- The second term subtracted from the first, not in canonical form. -/
  | subTerms (a b : Nat)
  /-- The sum of the terms as they are. -/
  | ofTerms (terms : List Nat)
  /-- The sum of the terms in canonical form. -/
  | reduce (terms : List Nat)
  | reduced (a : Nat)
  | zero
  | constant (n : Int)
  | ofTerm (a : Nat)
  /-- One of the terms, counted from 0. -/
  | termAt (a : Nat) (index : Nat)
  | add (a b : Nat)
  | sub (a b : Nat)
  | mul (strict : Bool) (a b : Nat)
  | neg (a : Nat)
  | evaluate (a b : Nat)
  | isEqual (a b : Nat)
  | describe (a : Nat)

/-- A step that makes an expression or asks about expressions. -/
inductive ExpressionStep
  | parse (options : Options) (text : String)
  | ofPolynomial (a : Nat)
  | polynomial (a : Nat)
  | evaluate (a : Nat) (text : String)
  | evaluateWith (a b : Nat)
  | isEqual (a b : Nat)

/-- A step that makes bindings or asks about bindings. -/
inductive BindingsStep
  | empty
  | parse (text : String)
  | ofList (pairs : List (Char × Int))
  /-- Binds a name in the register `a` itself. -/
  | insert (a : Nat) (name : Char) (n : Int)
  | get (a : Nat) (name : Char)
  | isEqual (a b : Nat)

/-- A step of a session. -/
inductive Step
  | term (s : TermStep)
  | polynomial (s : PolynomialStep)
  | expression (s : ExpressionStep)
  | bindings (s : BindingsStep)

/-- What a step answers. -/
inductive Answer
  /-- The step made something, which is kept in its register. -/
  | made (c : Content)
  /-- There is no such product. -/
  | nothing
  | ordering (o : Ordering)
  | sameTerm (sameNames : Bool) (equal : Bool)
  | termFacts (t : Term)
  | polynomialFacts (p : Polynomial)
  | equality (equal : Bool)
  | number (n : Option Int)
  /-- A name was bound, and what it was bound to before. -/
  | bound (previous : Option Int) (now : Bindings)
  | failure (f : Failure)

/-- A result of a reader, as a result of a step. -/
def read {α : Type} (x : Except Error α) : Except Failure α := x.mapError .error

/-- What is answered where a product may not exist. -/
def product (strict : Bool) : Option Content → Except Failure Answer
  | some c => .ok (.made c)
  | none => if strict then .error .overflow else .ok .nothing

/-- The answer to a step about terms. -/
def TermStep.answer (rs : Registers) : TermStep → Except Failure Answer
  | parse text => do
    let t ← read (Term.parse text)
    .ok (.made (.term t))
  | ofPowers strict factor powers => product strict ((Term.ofPowers? factor powers).map .term)
  | constant n => .ok (.made (.term (.constant n)))
  | zero => .ok (.made (.term .zero))
  | neg a => do
    let t ← rs.term a
    .ok (.made (.term (-t)))
  | mul strict a b => do
    let s ← rs.term a
    let t ← rs.term b
    product strict ((s.mul? t).map .term)
  | evaluate a b => do
    let t ← rs.term a
    let bound ← rs.bindings b
    .ok (.made (.term (t.evaluate bound)))
  | compare a b => do
    let s ← rs.term a
    let t ← rs.term b
    .ok (.ordering (s.compare t))
  | isSame a b => do
    let s ← rs.term a
    let t ← rs.term b
    .ok (.sameTerm (s.sameNames t) (s == t))
  | describe a => do
    let t ← rs.term a
    .ok (.termFacts t)

/-- The answer to a step about polynomials. -/
def PolynomialStep.answer (rs : Registers) : PolynomialStep → Except Failure Answer
  | parse text => do
    let p ← read (Polynomial.parse text)
    .ok (.made (.polynomial p))
  | addTerms a b => do
    let s ← rs.term a
    let t ← rs.term b
    .ok (.made (.polynomial (.ofSum s t)))
  | subTerms a b => do
    let s ← rs.term a
    let t ← rs.term b
    .ok (.made (.polynomial (.ofSum s (-t))))
  | ofTerms terms => do
    let ts ← terms.mapM rs.term
    .ok (.made (.polynomial ⟨ts⟩))
  | reduce terms => do
    let ts ← terms.mapM rs.term
    .ok (.made (.polynomial (.reduce ts)))
  | reduced a => do
    let p ← rs.polynomial a
    .ok (.made (.polynomial p.reduced))
  | zero => .ok (.made (.polynomial .zero))
  | constant n => .ok (.made (.polynomial (.constant n)))
  | ofTerm a => do
    let t ← rs.term a
    .ok (.made (.polynomial (.ofTerm t)))
  | termAt a index => do
    let p ← rs.polynomial a
    match p.terms[index]? with
    | some t => .ok (.made (.term t))
    | none => .error (.misuse .noTerm)
  | add a b => do
    let p ← rs.polynomial a
    let q ← rs.polynomial b
    .ok (.made (.polynomial (p + q)))
  | sub a b => do
    let p ← rs.polynomial a
    let q ← rs.polynomial b
    .ok (.made (.polynomial (p - q)))
  | mul strict a b => do
    let p ← rs.polynomial a
    let q ← rs.polynomial b
    product strict ((p.mul? q).map .polynomial)
  | neg a => do
    let p ← rs.polynomial a
    .ok (.made (.polynomial (-p)))
  | evaluate a b => do
    let p ← rs.polynomial a
    let bound ← rs.bindings b
    .ok (.made (.polynomial (p.evaluate bound)))
  | isEqual a b => do
    let p ← rs.polynomial a
    let q ← rs.polynomial b
    .ok (.equality (p == q))
  | describe a => do
    let p ← rs.polynomial a
    .ok (.polynomialFacts p)

/-- The answer to a step about expressions. -/
def ExpressionStep.answer (rs : Registers) : ExpressionStep → Except Failure Answer
  | parse options text => do
    let e ← read (Expression.parse options text).outcome
    .ok (.made (.expression e))
  | ofPolynomial a => do
    let p ← rs.polynomial a
    .ok (.made (.expression (.ofPolynomial p)))
  | polynomial a => do
    let e ← rs.expression a
    .ok (.made (.polynomial e.polynomial))
  | evaluate a text => do
    let e ← rs.expression a
    let p ← read (e.evaluate text).outcome
    .ok (.made (.polynomial p))
  | evaluateWith a b => do
    let e ← rs.expression a
    let bound ← rs.bindings b
    let p ← read (e.evaluateWith bound).outcome
    .ok (.made (.polynomial p))
  | isEqual a b => do
    let e ← rs.expression a
    let f ← rs.expression b
    .ok (.equality (e == f))

/-- The answer to a step about bindings. -/
def BindingsStep.answer (rs : Registers) : BindingsStep → Except Failure Answer
  | empty => .ok (.made (.bindings .empty))
  | parse text => do
    let b ← read (Bindings.parse text)
    .ok (.made (.bindings b))
  | ofList pairs => .ok (.made (.bindings (.ofList pairs)))
  | insert a name n => do
    let b ← rs.bindings a
    .ok (.bound (b.get? name) (b.insert name n))
  | get a name => do
    let b ← rs.bindings a
    .ok (.number (b.get? name))
  | isEqual a b => do
    let b₁ ← rs.bindings a
    let b₂ ← rs.bindings b
    .ok (.equality (b₁ == b₂))

/-- The answer to a step. -/
def Step.answer (rs : Registers) : Step → Answer
  | term s => ofResult (s.answer rs)
  | polynomial s => ofResult (s.answer rs)
  | expression s => ofResult (s.answer rs)
  | bindings s => ofResult (s.answer rs)
where
  /-- A failure is an answer, too. -/
  ofResult : Except Failure Answer → Answer
    | .ok answer => answer
    | .error f => .failure f

end Expansion.Session
