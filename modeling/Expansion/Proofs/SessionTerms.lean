import Expansion.Proofs.Fields
import Expansion.Proofs.Rendering
import Expansion.Session

/-!
# The terms of a session

**Theorem (`wellShaped_of_run`).** Whatever the steps of a session are, every term that they make or
show is a constant term with the coefficient 0, or a variable term with the constant 0, at least one
name and exponents from 1 to 1000.

A step makes terms from those in the registers by the operations on terms, possibly many of them.
So what can be made by these operations (`Term.Obtained`) is not left by polynomials and readers, by
one step, or by a whole session.
-/

namespace Expansion

/-! ## Operations on terms -/

namespace Term

/-- The term can be made by operations on terms. -/
def Obtained (t : Term) : Prop := t.fields.Obtained

variable {s t u : Term}

theorem obtained_constant (n : Int) : (constant n).Obtained := .constant n

theorem obtained_of_ofPowers? {n : Int} {ps : List (Char × Nat)} (h : ofPowers? n ps = some t) :
    t.Obtained := by
  have filled : Fields.ofPowers? n ps = some t.fields := by
    rw [← fields_ofPowers?, h, Option.map_some]
  exact .ofPowers filled

theorem obtained_of_valid (h : t.Valid) : t.Obtained :=
  obtained_of_ofPowers? (ofPowers?_powers h t.factor)

namespace Obtained

theorem valid (h : t.Obtained) : t.Valid := wellShaped_fields_iff.1 h.wellShaped

theorem neg (h : t.Obtained) : (-t).Obtained := by
  rw [Obtained, fields_neg]
  exact .neg h

theorem withSign (h : t.Obtained) (negative : Bool) : (t.withSign negative).Obtained := by
  cases negative with
  | true => exact h.neg
  | false => exact h

theorem merge? (hs : s.Obtained) (ht : t.Obtained) (h : s.merge? t = some u) : u.Obtained := by
  have filled : s.fields.merge? t.fields = some u.fields := by
    rw [← fields_merge?, h, Option.map_some]
  exact .merge hs ht filled

theorem mul? (hs : s.Obtained) (ht : t.Obtained) (h : s.mul? t = some u) : u.Obtained := by
  have filled : s.fields.mul? t.fields = some u.fields := by
    rw [← fields_mul? ht.valid, h, Option.map_some]
  exact .mul hs ht filled

theorem evaluate (h : t.Obtained) (b : Bindings) : (t.evaluate b).Obtained := by
  have filled : t.fields.evaluate? b = some (t.evaluate b).fields := by
    rw [← fields_evaluate?, evaluate?_eq h.valid, Option.map_some]
  exact Fields.Obtained.evaluate h filled

end Obtained

/-! ## Reading terms -/

theorem valid_of_readUnsigned {negative : Bool} {ts : List Token}
    (h : readUnsigned negative ts = .ok t) : t.Valid := by
  unfold readUnsigned at h
  obtain ⟨-, -, h⟩ := exists_ok_of_bind h
  cases ts with
  | nil => cases negative <;> (cases h; exact Monomial.valid_one)
  | cons t rest =>
    obtain ⟨l, i⟩ := t
    cases l with
    | digits ds | _ =>
      obtain ⟨m, counted, h⟩ := exists_ok_of_bind h
      cases h
      exact valid_of_readPowers Monomial.valid_one counted

/-- What is read could be made from its factor and its powers. -/
theorem obtained_of_ofTokens {ts : List Token} (h : ofTokens ts = .ok t) : t.Obtained := by
  rcases ofTokens_cases ts with ⟨i, rest, rfl, -, eq⟩ | ⟨-, eq⟩
  · exact obtained_of_valid (valid_of_readUnsigned (eq.symm.trans h))
  · exact obtained_of_valid (valid_of_readUnsigned (eq.symm.trans h))

end Term

/-! ## Polynomials -/

namespace Polynomial

/-- All terms can be made by operations on terms. -/
def Obtained (p : Polynomial) : Prop := ∀ t ∈ p.terms, t.Obtained

variable {p q r : Polynomial} {s t : Term} {ts : List Term}

theorem obtained_mergeRun (hs : s.Obtained) (hts : ∀ t ∈ ts, t.Obtained) :
    ∀ t ∈ mergeRun s ts, t.Obtained := by
  induction ts generalizing s with
  | nil => exact List.forall_mem_singleton.2 hs
  | cons t ts ih =>
    obtain ⟨ht, hts⟩ := List.forall_mem_cons.1 hts
    rw [mergeRun]
    split
    · next u merged => exact ih (hs.merge? ht merged) hts
    · exact List.forall_mem_cons.2 ⟨hs, ih ht hts⟩

theorem obtained_ofNonzero (hts : ∀ t ∈ ts, t.Obtained) : (ofNonzero ts).Obtained := by
  cases ts with
  | nil => exact List.forall_mem_singleton.2 (Term.obtained_constant 0)
  | cons t ts => exact hts

/-- Sorting, merging neighbours and leaving out zeros makes no other terms. -/
theorem obtained_reduce (h : ∀ t ∈ ts, t.Obtained) : (reduce ts).Obtained := by
  have sorted : ∀ t ∈ Term.descending ts, t.Obtained :=
    fun t ht => h t ((Term.descending_perm ts).subset ht)
  have merged : ∀ t ∈ mergeNeighbours (Term.descending ts), t.Obtained := by
    cases found : Term.descending ts with
    | nil => exact nofun
    | cons t ts =>
      rw [found] at sorted
      obtain ⟨ht, hts⟩ := List.forall_mem_cons.1 sorted
      exact obtained_mergeRun ht hts
  exact obtained_ofNonzero fun t ht => merged t (List.mem_of_mem_filter ht)

theorem obtained_ofTerm (h : t.Obtained) : (ofTerm t).Obtained :=
  obtained_reduce (List.forall_mem_singleton.2 h)

theorem obtained_ofSum (hs : s.Obtained) (ht : t.Obtained) : (ofSum s t).Obtained := by
  rw [ofSum]
  split
  · next u merged => exact List.forall_mem_singleton.2 (hs.merge? ht merged)
  · exact List.forall_mem_cons.2 ⟨hs, List.forall_mem_singleton.2 ht⟩

namespace Obtained

theorem negated (h : p.Obtained) : ∀ t ∈ p.terms.map (- ·), t.Obtained :=
  List.forall_mem_map.2 fun t ht => (h t ht).neg

theorem neg (h : p.Obtained) : (-p).Obtained := obtained_reduce h.negated

theorem add (hp : p.Obtained) (hq : q.Obtained) : (p + q).Obtained :=
  obtained_reduce (List.forall_mem_append.2 ⟨hp, hq⟩)

theorem sub (hp : p.Obtained) (hq : q.Obtained) : (p - q).Obtained :=
  obtained_reduce (List.forall_mem_append.2 ⟨hp, hq.negated⟩)

theorem mul? (hp : p.Obtained) (hq : q.Obtained) (h : p.mul? q = some r) : r.Obtained := by
  obtain ⟨ts, products, rfl⟩ := mul?_eq_some h
  refine obtained_reduce fun u hu => ?_
  obtain ⟨⟨s, t⟩, pair, product⟩ := mem_products products hu
  obtain ⟨hs, ht⟩ := mem_pairs.1 pair
  exact (hp s hs).mul? (hq t ht) product

theorem evaluate (h : p.Obtained) (b : Bindings) : (p.evaluate b).Obtained :=
  obtained_reduce (List.forall_mem_map.2 fun t ht => (h t ht).evaluate b)

end Obtained

end Polynomial

/-! ## Reading sums -/

namespace Summands

/-- All terms that are read so far can be made by operations on terms. -/
def State.Obtained : State → Prop
  | .before done gap _ =>
    (∀ t ∈ done, t.Obtained) ∧ ∀ left place, gap = .product left place → left.Obtained
  | .after done last => ∀ t ∈ last :: done, t.Obtained

variable {s s' : State}

theorem State.Obtained.addTerm {t : Term} (h : s.Obtained) (ht : t.Obtained)
    (next : s.addTerm t = .ok s') : s'.Obtained := by
  unfold State.addTerm at next
  split at next
  · next done left place negative =>
    split at next
    · next u product =>
      cases next
      have u_obtained := (h.2 left place rfl).mul? (ht.withSign negative) product
      exact List.forall_mem_cons.2 ⟨u_obtained, h.1⟩
    · cases next
  · next done gap negative _ =>
    cases next
    exact List.forall_mem_cons.2 ⟨ht.withSign negative, h.1⟩
  · cases next
    exact List.forall_mem_cons.2 ⟨ht, h⟩

theorem State.Obtained.addOperator {op : Operator} {place : Span} (h : s.Obtained)
    (next : s.addOperator op place = .ok s') : s'.Obtained := by
  unfold State.addOperator at next
  split at next
  · obtain ⟨last, done⟩ := List.forall_mem_cons.1 h
    split at next
    · cases next
      refine ⟨done, fun left place eq => ?_⟩
      cases eq
      exact last
    · cases next
      exact ⟨h, nofun⟩
  · next done gap negative =>
    split at next
    · cases next
    · cases next
      refine ⟨h.1, fun left place eq => ?_⟩
      cases gap with
      | product => exact h.2 left place eq
      | start | sum => cases eq

theorem State.Obtained.add {item : Item (Operand Empty)} (h : s.Obtained)
    (next : s.add item = .ok s') : s'.Obtained := by
  match item with
  | .operator op place => exact h.addOperator next
  | .operand (.run r) =>
    obtain ⟨t, read, next⟩ := exists_ok_of_bind next
    exact h.addTerm (Term.obtained_of_ofTokens read) next

theorem State.Obtained.foldlM {items : List (Item (Operand Empty))} (h : s.Obtained)
    (run : items.foldlM State.add s = .ok s') : s'.Obtained := by
  induction items generalizing s with
  | nil =>
    cases run
    exact h
  | cons item items ih =>
    rw [List.foldlM_cons] at run
    obtain ⟨s₁, next, run⟩ := exists_ok_of_bind run
    exact ih (h.add next) run

theorem State.Obtained.finish {ts : List Term} (h : s.Obtained) (last : s.finish = .ok ts) :
    ∀ t ∈ ts, t.Obtained := by
  unfold State.finish at last
  split at last
  · cases last
    exact fun t ht => h t (List.mem_reverse.1 ht)
  all_goals cases last
  exact List.forall_mem_singleton.2 (Term.obtained_constant 0)

theorem obtained_of_read {items : List (Item (Operand Empty))} {p : Polynomial}
    (h : read items = .ok p) : p.Obtained := by
  obtain ⟨s, run, h⟩ := exists_ok_of_bind h
  obtain ⟨ts, last, h⟩ := exists_ok_of_bind h
  cases h
  have start : State.Obtained .start := ⟨nofun, nofun⟩
  exact (start.foldlM run).finish last

end Summands

theorem Expression.obtained_of_parse {options : Options} {text : String} {e : Expression}
    (h : (parse options text).outcome = .ok e) : e.polynomial.Obtained :=
  fun t ht => Term.obtained_of_valid ((canonical_of_parse h).2 t ht).toValid

/-! ## Sessions -/

namespace Session

/-- The terms in what a register holds. -/
def Content.terms : Content → List Term
  | term t => [t]
  | polynomial p => p.terms
  | expression e => e.polynomial.terms
  | bindings _ => []

/-- All terms that a register holds can be made by operations on terms. -/
def Content.Obtained (c : Content) : Prop := ∀ t ∈ c.terms, t.Obtained

/-- The terms that an answer shows. -/
def Answer.terms : Answer → List Term
  | made c => c.terms
  | termFacts t => [t]
  | polynomialFacts p => p.terms
  | _ => []

/-- All terms that an answer shows can be made by operations on terms. -/
def Answer.Obtained (a : Answer) : Prop := ∀ t ∈ a.terms, t.Obtained

/-- All terms in the registers can be made by operations on terms. -/
def Registers.Obtained (rs : Registers) : Prop := ∀ c, some c ∈ rs → c.Obtained

variable {rs : Registers} {answer : Answer}

theorem Answer.obtained_of_no_terms (no_terms : answer.terms = []) : answer.Obtained := by
  rw [Answer.Obtained, no_terms]
  exact List.forall_mem_nil _

theorem Content.obtained_term {t : Term} (h : t.Obtained) : (term t).Obtained :=
  List.forall_mem_singleton.2 h

namespace Registers.Obtained

variable {i : Nat}

theorem content {c : Content} (h : rs.Obtained) (found : rs.content i = .ok (some c)) :
    c.Obtained := by
  unfold Registers.content at found
  split at found
  · next r here =>
    cases found
    exact h c (List.mem_of_getElem? here)
  · cases found

theorem term {t : Term} (h : rs.Obtained) (found : rs.term i = .ok t) : t.Obtained := by
  obtain ⟨c, found, eq⟩ := exists_ok_of_bind found
  split at eq
  · cases eq
    exact List.forall_mem_singleton.1 (h.content found)
  · cases eq

theorem polynomial {p : Polynomial} (h : rs.Obtained) (found : rs.polynomial i = .ok p) :
    p.Obtained := by
  obtain ⟨c, found, eq⟩ := exists_ok_of_bind found
  split at eq
  · cases eq
    exact h.content found
  · cases eq

theorem expression {e : Expression} (h : rs.Obtained) (found : rs.expression i = .ok e) :
    e.polynomial.Obtained := by
  obtain ⟨c, found, eq⟩ := exists_ok_of_bind found
  split at eq
  · cases eq
    exact h.content found
  · cases eq

theorem terms {is : List Nat} {ts : List Term} (h : rs.Obtained)
    (found : is.mapM rs.term = .ok ts) : ∀ t ∈ ts, t.Obtained := by
  induction is generalizing ts with
  | nil =>
    cases found
    exact nofun
  | cons i is ih =>
    rw [List.mapM_cons] at found
    obtain ⟨t, first, found⟩ := exists_ok_of_bind found
    obtain ⟨us, others, found⟩ := exists_ok_of_bind found
    cases found
    exact List.forall_mem_cons.2 ⟨h.term first, ih others⟩

end Registers.Obtained

theorem obtained_of_product {strict : Bool} {o : Option Content}
    (h : ∀ c, o = some c → c.Obtained) (eq : product strict o = .ok answer) :
    answer.Obtained := by
  unfold product at eq
  split at eq
  · next c =>
    cases eq
    exact h c rfl
  · split at eq
    · cases eq
    · cases eq
      exact Answer.obtained_of_no_terms rfl

/-! ### One step -/

theorem ok_of_read {α : Type} {x : Except Error α} {a : α} (h : read x = .ok a) : x = .ok a := by
  cases x with
  | error e => cases h
  | ok b =>
    cases h
    rfl

theorem TermStep.obtained {s : TermStep} (h : rs.Obtained) (eq : s.answer rs = .ok answer) :
    answer.Obtained := by
  cases s with
  -- What a step makes comes from the reader, from an operation on terms, or from a register.
  | parse text =>
    obtain ⟨t, found, eq⟩ := exists_ok_of_bind eq
    cases eq
    exact Content.obtained_term (Term.obtained_of_ofTokens (ok_of_read found))
  | ofPowers strict n ps =>
    refine obtained_of_product (fun c made => ?_) eq
    obtain ⟨t, product, rfl⟩ := Option.map_eq_some_iff.1 made
    exact Content.obtained_term (Term.obtained_of_ofPowers? product)
  | constant n =>
    cases eq
    exact Content.obtained_term (Term.obtained_constant n)
  | zero =>
    cases eq
    exact Content.obtained_term (Term.obtained_constant 0)
  | neg a =>
    obtain ⟨t, ht, eq⟩ := exists_ok_of_bind eq
    cases eq
    exact Content.obtained_term (h.term ht).neg
  | mul strict a b =>
    obtain ⟨s, hs, eq⟩ := exists_ok_of_bind eq
    obtain ⟨t, ht, eq⟩ := exists_ok_of_bind eq
    refine obtained_of_product (fun c made => ?_) eq
    obtain ⟨u, product, rfl⟩ := Option.map_eq_some_iff.1 made
    exact Content.obtained_term ((h.term hs).mul? (h.term ht) product)
  | evaluate a b =>
    obtain ⟨t, ht, eq⟩ := exists_ok_of_bind eq
    obtain ⟨bound, -, eq⟩ := exists_ok_of_bind eq
    cases eq
    exact Content.obtained_term ((h.term ht).evaluate bound)
  | compare a b | isSame a b =>
    obtain ⟨s, -, eq⟩ := exists_ok_of_bind eq
    obtain ⟨t, -, eq⟩ := exists_ok_of_bind eq
    cases eq
    exact Answer.obtained_of_no_terms rfl
  | describe a =>
    obtain ⟨t, ht, eq⟩ := exists_ok_of_bind eq
    cases eq
    exact Content.obtained_term (h.term ht)

theorem PolynomialStep.obtained {s : PolynomialStep} (h : rs.Obtained)
    (eq : s.answer rs = .ok answer) : answer.Obtained := by
  cases s with
  -- Terms that are read, taken from registers or made from numbers.
  | parse text =>
    obtain ⟨p, found, eq⟩ := exists_ok_of_bind eq
    cases eq
    exact Summands.obtained_of_read (ok_of_read found)
  | addTerms a b =>
    obtain ⟨s, hs, eq⟩ := exists_ok_of_bind eq
    obtain ⟨t, ht, eq⟩ := exists_ok_of_bind eq
    cases eq
    exact Polynomial.obtained_ofSum (h.term hs) (h.term ht)
  | subTerms a b =>
    obtain ⟨s, hs, eq⟩ := exists_ok_of_bind eq
    obtain ⟨t, ht, eq⟩ := exists_ok_of_bind eq
    cases eq
    exact Polynomial.obtained_ofSum (h.term hs) (h.term ht).neg
  | ofTerms terms =>
    obtain ⟨ts, hts, eq⟩ := exists_ok_of_bind eq
    cases eq
    exact h.terms hts
  | reduce terms =>
    obtain ⟨ts, hts, eq⟩ := exists_ok_of_bind eq
    cases eq
    exact Polynomial.obtained_reduce (h.terms hts)
  | reduced a =>
    obtain ⟨p, hp, eq⟩ := exists_ok_of_bind eq
    cases eq
    exact Polynomial.obtained_reduce (h.polynomial hp)
  | zero =>
    cases eq
    exact Content.obtained_term (Term.obtained_constant 0)
  | constant n =>
    cases eq
    exact Polynomial.obtained_ofTerm (Term.obtained_constant n)
  | ofTerm a =>
    obtain ⟨t, ht, eq⟩ := exists_ok_of_bind eq
    cases eq
    exact Polynomial.obtained_ofTerm (h.term ht)
  -- One of the terms of a polynomial.
  | termAt a index =>
    obtain ⟨p, hp, eq⟩ := exists_ok_of_bind eq
    split at eq
    · next t here =>
      cases eq
      exact Content.obtained_term (h.polynomial hp t (List.mem_of_getElem? here))
    · cases eq
  -- Results of operations on polynomials.
  | add a b =>
    obtain ⟨p, hp, eq⟩ := exists_ok_of_bind eq
    obtain ⟨q, hq, eq⟩ := exists_ok_of_bind eq
    cases eq
    exact (h.polynomial hp).add (h.polynomial hq)
  | sub a b =>
    obtain ⟨p, hp, eq⟩ := exists_ok_of_bind eq
    obtain ⟨q, hq, eq⟩ := exists_ok_of_bind eq
    cases eq
    exact (h.polynomial hp).sub (h.polynomial hq)
  | mul strict a b =>
    obtain ⟨p, hp, eq⟩ := exists_ok_of_bind eq
    obtain ⟨q, hq, eq⟩ := exists_ok_of_bind eq
    refine obtained_of_product (fun c made => ?_) eq
    obtain ⟨r, product, rfl⟩ := Option.map_eq_some_iff.1 made
    exact (h.polynomial hp).mul? (h.polynomial hq) product
  | neg a =>
    obtain ⟨p, hp, eq⟩ := exists_ok_of_bind eq
    cases eq
    exact (h.polynomial hp).neg
  | evaluate a b =>
    obtain ⟨p, hp, eq⟩ := exists_ok_of_bind eq
    obtain ⟨bound, -, eq⟩ := exists_ok_of_bind eq
    cases eq
    exact (h.polynomial hp).evaluate bound
  | isEqual a b =>
    obtain ⟨p, -, eq⟩ := exists_ok_of_bind eq
    obtain ⟨q, -, eq⟩ := exists_ok_of_bind eq
    cases eq
    exact Answer.obtained_of_no_terms rfl
  | describe a =>
    obtain ⟨p, hp, eq⟩ := exists_ok_of_bind eq
    cases eq
    exact h.polynomial hp

theorem ExpressionStep.obtained {s : ExpressionStep} (h : rs.Obtained)
    (eq : s.answer rs = .ok answer) : answer.Obtained := by
  cases s with
  | parse options text =>
    obtain ⟨e, found, eq⟩ := exists_ok_of_bind eq
    cases eq
    exact Expression.obtained_of_parse (ok_of_read found)
  | ofPolynomial a =>
    obtain ⟨p, hp, eq⟩ := exists_ok_of_bind eq
    cases eq
    exact Polynomial.obtained_reduce (h.polynomial hp)
  | polynomial a =>
    obtain ⟨e, he, eq⟩ := exists_ok_of_bind eq
    cases eq
    exact h.expression he
  -- To evaluate an expression is to evaluate its polynomial.
  | evaluate a text =>
    obtain ⟨e, he, eq⟩ := exists_ok_of_bind eq
    obtain ⟨p, found, eq⟩ := exists_ok_of_bind eq
    cases eq
    have found := ok_of_read found
    rw [Expression.evaluate, Logged.outcome_bind] at found
    obtain ⟨bound, -, value⟩ := exists_ok_of_bind found
    cases value
    exact (h.expression he).evaluate bound
  | evaluateWith a b =>
    obtain ⟨e, he, eq⟩ := exists_ok_of_bind eq
    obtain ⟨bound, -, eq⟩ := exists_ok_of_bind eq
    cases eq
    exact (h.expression he).evaluate bound
  | isEqual a b =>
    obtain ⟨e, -, eq⟩ := exists_ok_of_bind eq
    obtain ⟨f, -, eq⟩ := exists_ok_of_bind eq
    cases eq
    exact Answer.obtained_of_no_terms rfl

theorem BindingsStep.obtained {s : BindingsStep} (eq : s.answer rs = .ok answer) :
    answer.Obtained := by
  cases s with
  | empty | ofList pairs =>
    cases eq
    exact Answer.obtained_of_no_terms rfl
  | parse text | insert a x n | get a x =>
    obtain ⟨b, -, eq⟩ := exists_ok_of_bind eq
    cases eq
    exact Answer.obtained_of_no_terms rfl
  | isEqual a b =>
    obtain ⟨b₁, -, eq⟩ := exists_ok_of_bind eq
    obtain ⟨b₂, -, eq⟩ := exists_ok_of_bind eq
    cases eq
    exact Answer.obtained_of_no_terms rfl

theorem obtained_ofResult {x : Except Failure Answer} (h : ∀ a, x = .ok a → a.Obtained) :
    (Step.answer.ofResult x).Obtained := by
  cases x with
  | error f => exact Answer.obtained_of_no_terms rfl
  | ok a => exact h a rfl

/-- A step shows no terms that cannot be made by operations on terms. -/
theorem Step.obtained (h : rs.Obtained) (s : Step) : (s.answer rs).Obtained := by
  cases s with
  | term s => exact obtained_ofResult fun _ eq => TermStep.obtained h eq
  | polynomial s => exact obtained_ofResult fun _ eq => PolynomialStep.obtained h eq
  | expression s => exact obtained_ofResult fun _ eq => ExpressionStep.obtained h eq
  | bindings s => exact obtained_ofResult fun _ eq => BindingsStep.obtained eq

/-- Where bindings are changed, no terms are. -/
theorem Registers.Obtained.update (h : rs.Obtained) (s : Step) (answer : Answer) :
    Registers.Obtained (s.update rs answer) := by
  unfold Step.update
  split
  · split
    · intro c hc
      rcases List.mem_or_eq_of_mem_set hc with hc | eq
      · exact h c hc
      · cases eq
        exact nofun
    · exact h
  · exact h

/-- What a step does to the registers. -/
theorem Registers.Obtained.next (h : rs.Obtained) (s : Step) :
    Registers.Obtained (s.next rs) := by
  intro c hc
  rcases List.mem_append.1 hc with hc | hc
  · exact h.update s (s.answer rs) c hc
  · have shown := Step.obtained h s
    generalize s.answer rs = answer at hc shown
    cases answer with
    | made c' =>
      cases List.mem_singleton.1 hc
      exact shown
    | _ => cases List.mem_singleton.1 hc

/-! ### Whole sessions -/

theorem obtained_of_mem_runFrom {steps : List Step} (h : rs.Obtained)
    (ha : answer ∈ runFrom rs steps) : answer.Obtained := by
  induction steps generalizing rs with
  | nil => cases ha
  | cons s steps ih =>
    rcases List.mem_cons.1 ha with rfl | ha
    · exact Step.obtained h s
    · exact ih (h.next s) ha

/-- Every term that a session makes or shows can be made by operations on terms, and what can be
made by them is a constant term or a variable term, never a mixture. -/
theorem wellShaped_of_run :
    (∀ f : Fields, f.Obtained → f.WellShaped) ∧
      ∀ steps, ∀ answer ∈ run steps, ∀ t ∈ answer.terms,
        t.fields.Obtained ∧ t.fields.WellShaped := by
  refine ⟨fun f => Fields.Obtained.wellShaped, fun steps answer ha t ht => ?_⟩
  have no_registers : Registers.Obtained [] := fun c hc => absurd hc List.not_mem_nil
  have obtained : t.fields.Obtained := obtained_of_mem_runFrom no_registers ha t ht
  exact ⟨obtained, obtained.wellShaped⟩

/-- A literal with an exponent of 0, times its opposite. -/
theorem wellShaped_of_run_product :
    Answer.made (.term ⟨-4, ⟨[('a', 1000)]⟩⟩) ∈ run
        [.term (.ofPowers true 2 [('a', 500), ('b', 0)]), .term (.neg 0), .term (.mul true 0 1)] ∧
      (⟨-4, [('a', 1000)], 0⟩ : Fields).Obtained ∧
      (⟨-4, [('a', 1000)], 0⟩ : Fields).WellShaped ∧ (Fields.ofConstant 4).WellShaped := by
  have last : Answer.made (.term ⟨-4, ⟨[('a', 1000)]⟩⟩) ∈ run
      [.term (.ofPowers true 2 [('a', 500), ('b', 0)]), .term (.neg 0), .term (.mul true 0 1)] :=
    .tail _ (.tail _ (.head _))
  have shape := wellShaped_of_run.2 _ _ last _ (List.mem_singleton.2 rfl)
  exact ⟨last, shape.1, shape.2, wellShaped_of_run.1 _ (.constant 4)⟩

end Session

end Expansion
