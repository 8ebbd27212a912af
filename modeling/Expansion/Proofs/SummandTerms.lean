import Mathlib
import Expansion.Proofs.Parsing

/-!
# One term for each summand

The items of a text without parentheses fall into *summands*: a plus or minus right after an operand
separates two of them, and belongs to the second.

**Theorem (`parse_one_term_per_summand`).** A text that is read as a sum of terms, and is not blank,
is read as one term for each summand, in order. Its factor is the product of the coefficients that
are written in the summand, with a sign for every minus; and its exponents are the sums of the
exponents written, also where the factor is 0.

The reader is a fold over the items. Its state keeps the summands that are finished and the product
so far of the one that is open (`State.product`), where signs count although no term may have come
yet. An item either goes on with the open summand, whose product is then the product of what stands
there (`Opened.step`), or it separates the summand from the next.
-/

namespace Expansion

/-! ## Summands -/

namespace Item

variable {α ν : Type}

/-- Whether the item is a plus or a minus. -/
def isPlusMinus : Item α → Bool
  | operator op _ => op != .mul
  | operand _ => false

/-- Whether the item is a minus. -/
def isMinus : Item α → Bool
  | operator op _ => op == .sub
  | operand _ => false

/-- Whether `b` right after `a` belongs to the summand that `a` belongs to. -/
def goesOn (a b : Item (Operand ν)) : Bool := !(a.isRun && b.isPlusMinus)

/-- The items of each summand. -/
def summands (items : List (Item (Operand ν))) : List (List (Item (Operand ν))) :=
  items.splitBy goesOn

/-- Of the signs between `b` and `c`, the first separates the summands. -/
example : (summands (ofTokens (tokenize "a*--b-+-c"))).map (·.length) = [5, 4] := by cbv

theorem goesOn_of_not_isRun {a b : Item (Operand ν)} (h : a.isRun = false) : goesOn a b = true := by
  rw [goesOn, h]
  rfl

theorem goesOn_of_not_isPlusMinus {a b : Item (Operand ν)} (h : b.isPlusMinus = false) :
    goesOn a b = true := by
  rw [goesOn, h, Bool.and_false]
  rfl

/-- A plus or minus after a run ends the summand before it. -/
theorem summands_append {items rest : List (Item (Operand ν))} {item : Item (Operand ν)}
    (chain : items.IsChain fun a b => goesOn a b = true) (last : items.getLast?.any isRun = true)
    (sign : item.isPlusMinus = true) :
    summands (items ++ item :: rest) = items :: summands (item :: rest) := by
  have ne : items ≠ [] := by
    rintro rfl
    cases last
  have separate : ∀ a ∈ items.getLast?, goesOn a item = false := by
    intro a ends
    rw [ends, Option.any_some] at last
    rw [goesOn, last, sign]
    rfl
  rw [summands, List.splitBy_append_cons rest separate, List.splitBy_of_isChain ne chain]
  rfl

end Item

/-- The coefficients and powers are those of the monomials that the operands are written for. -/
inductive WritesFactors : List (Nat × List (Char × Nat)) → List (Item (Operand Empty)) → Prop
  | nil : WritesFactors [] []
  | operator {ms : List (Nat × List (Char × Nat))} {items : List (Item (Operand Empty))}
      {op : Operator} {place : Span} : WritesFactors ms items →
      WritesFactors ms (.operator op place :: items)
  | operand {c : Nat} {ps : List (Char × Nat)} {ms : List (Nat × List (Char × Nat))} {r : Run}
      {items : List (Item (Operand Empty))} : WritesMonomial c ps r.tokens →
      WritesFactors ms items → WritesFactors ((c, ps) :: ms) (.operand (.run r) :: items)

/-- The term is the product of the monomials that the items are written for, with a sign for every
minus among them. -/
structure IsProduct (ms : List (Nat × List (Char × Nat))) (items : List (Item (Operand Empty)))
    (t : Term) : Prop where
  written : WritesFactors ms items
  factor : t.factor = (-1) ^ items.countP Item.isMinus * (ms.map fun m => (m.1 : Int)).prod
  exponent : ∀ x, t.monomial.exponent x = (ms.map fun m => Monomial.total x m.2).sum
  valid : t.Valid

/-- The items are multiplied to the term. -/
def MultiplyTo (items : List (Item (Operand Empty))) (t : Term) : Prop :=
  ∃ ms, IsProduct ms items t

theorem WritesFactors.append {ms ns : List (Nat × List (Char × Nat))}
    {items others : List (Item (Operand Empty))} (h : WritesFactors ms items)
    (h' : WritesFactors ns others) : WritesFactors (ms ++ ns) (items ++ others) := by
  induction h with
  | nil => exact h'
  | operator _ ih => exact .operator ih
  | operand first _ ih => exact .operand first ih

/-! ## Products that grow -/

namespace Term

theorem withSign_bne (a b : Bool) (t : Term) : t.withSign (a != b) = (t.withSign a).withSign b := by
  cases b with
  | false => rw [Bool.bne_false]; rfl
  | true => rw [Bool.bne_true, Summands.withSign_not, withSign, withSign]; cases a <;> rfl

theorem factor_withSign (negative : Bool) (t : Term) :
    (t.withSign negative).factor = (-1) ^ negative.toNat * t.factor := by
  cases negative with
  | false => rw [Bool.toNat_false, pow_zero, one_mul]; rfl
  | true => rw [Bool.toNat_true, pow_one, neg_one_mul]; rfl

theorem monomial_withSign (negative : Bool) (t : Term) :
    (t.withSign negative).monomial = t.monomial := by
  cases negative <;> rfl

/-- The sign of a product may be that of either factor. -/
theorem withSign_mul? (negative : Bool) (s t : Term) :
    (s.withSign negative).mul? t = s.mul? (t.withSign negative) := by
  cases negative with
  | false => rfl
  | true =>
    have factor : (-s).factor * t.factor = s.factor * (-t).factor :=
      neg_mul_comm s.factor t.factor
    show (-s).mul? t = s.mul? (-t)
    rw [mul?, mul?, factor, monomial_neg, monomial_neg]

theorem one_mul? {t : Term} (fits : t.monomial.fits = true) : (constant 1).mul? t = some t := by
  have product : Monomial.one.mul t.monomial = t.monomial := rfl
  rw [mul?, constant, product, if_pos fits, one_mul]

end Term

namespace IsProduct

variable {ms : List (Nat × List (Char × Nat))} {items : List (Item (Operand Empty))} {s t u : Term}

theorem nil : IsProduct [] [] (.constant 1) :=
  ⟨.nil, rfl, fun _ => rfl, Monomial.normal_one, rfl⟩

/-- A minus changes the sign, and the other operators change nothing. -/
theorem operator (h : IsProduct ms items t) (op : Operator) (place : Span) :
    IsProduct ms (items ++ [.operator op place]) (t.withSign (op == .sub)) where
  written := List.append_nil ms ▸ h.written.append (.operator .nil)
  factor := by
    have minus : [(.operator op place : Item (Operand Empty))].countP Item.isMinus =
        (op == .sub).toNat := by cases op <;> rfl
    rw [Term.factor_withSign, h.factor, List.countP_append, minus, pow_add]
    ring
  exponent x := by rw [Term.monomial_withSign, h.exponent]
  valid := by rw [Term.Valid, Term.monomial_withSign]; exact h.valid

/-- An operand is one more factor. -/
theorem operand {c : Nat} {ps : List (Char × Nat)} {r : Run} (h : IsProduct ms items s)
    (first : WritesMonomial c ps r.tokens) (read : Term.ofPowers? c ps = some t)
    (product : s.mul? t = some u) :
    IsProduct (ms ++ [(c, ps)]) (items ++ [.operand (.run r)]) u := by
  obtain ⟨rfl, fits⟩ := Term.mul?_eq_some product
  obtain ⟨rfl, -⟩ := Formula.ofPowers?_eq_some read
  refine ⟨h.written.append (.operand first .nil), ?_, fun x => ?_, ?_, fits⟩
  · have no_minus : [(.operand (.run r) : Item (Operand Empty))].countP Item.isMinus = 0 := rfl
    rw [List.countP_append, no_minus, List.map_append, List.prod_append, h.factor]
    simp [mul_assoc]
  · rw [Monomial.exponent_mul, h.exponent, Monomial.exponent_ofPowers]
    simp
  · exact (Monomial.normal_ofPowers ps).mul s.monomial

end IsProduct

/-! ## The items of a text -/

namespace Item

variable {ν : Type}

/-- A run starts with no operator, and its letters are `a` to `z`. -/
def IsWorded : Item (Operand ν) → Prop
  | operand (.run r) => Term.LettersLower r.tokens ∧ r.first.lexeme.isOperator = false
  | _ => True

theorem isWorded_push {t : Token} {items : List (Item (Operand ν))}
    (letter : ∀ x, t.lexeme = .letter x → x.isLower = true) (h : ∀ item ∈ items, item.IsWorded) :
    ∀ item ∈ push t items, item.IsWorded := by
  rcases Outline.push_cases t items with
    ⟨-, eq⟩ | ⟨-, ⟨op, i, rfl, eq⟩ | ⟨unsigned, ⟨r, rest, rfl, eq⟩ | ⟨-, eq⟩⟩⟩
  all_goals rw [eq]
  · exact h
  · exact List.forall_mem_cons.2 ⟨trivial, h⟩
  · obtain ⟨⟨letters, -⟩, h⟩ := List.forall_mem_cons.1 h
    exact List.forall_mem_cons.2 ⟨⟨List.forall_mem_cons.2 ⟨letter, letters⟩, unsigned⟩, h⟩
  · exact List.forall_mem_cons.2 ⟨⟨List.forall_mem_singleton.2 letter, unsigned⟩, h⟩

theorem isWorded_ofTokens {ts : List Token} (letters : Term.LettersLower ts) :
    ∀ item ∈ ofTokens ts, item.IsWorded := by
  induction ts with
  | nil => exact nofun
  | cons t ts ih =>
    obtain ⟨letter, letters⟩ := List.forall_mem_cons.1 letters
    exact isWorded_push letter (ih letters)

theorem apart_ofTokens (ts : List Token) : Apart (ofTokens ts) := by
  induction ts with
  | nil => exact .nil
  | cons t ts ih => exact Outline.apart_push t ih

theorem ofTokens_eq_nil_iff (ts : List Token) :
    ofTokens ts = [] ↔ ts.filter (!·.isBlank) = [] := by
  induction ts with
  | nil => exact iff_of_true rfl rfl
  | cons t ts ih =>
    have push_eq : ofTokens (t :: ts) = push t (ofTokens ts) := rfl
    rw [push_eq]
    rcases Outline.push_cases t (ofTokens ts) with ⟨blank, eq⟩ | ⟨nonblank, pushes⟩
    · rw [eq, List.filter_cons_of_neg (by rw [blank]; exact Bool.false_ne_true), ih]
    · rw [List.filter_cons_of_pos (by rw [nonblank]; rfl)]
      refine iff_of_false ?_ (List.cons_ne_nil _ _)
      rcases pushes with ⟨op, i, rfl, eq⟩ | ⟨-, ⟨r, rest, -, eq⟩ | ⟨-, eq⟩⟩ <;>
        rw [eq] <;> exact List.cons_ne_nil _ _

end Item

/-! ## The state of the reader -/

namespace Summands

/-- The product of what stands in the open summand before the gap. -/
def Gap.factor : Gap → Term
  | start _ => .constant 1
  | sum _ _ => .constant 1
  | product left _ => left

/-- The product of what was read of the open summand. -/
def State.product : State → Term
  | before _ gap negative => gap.factor.withSign negative
  | after _ last => last

/-- The summands that are finished, from the last to the first. -/
def State.finished : State → List Term
  | before done _ _ => done
  | after done _ => done

/-- The items `g` are those of the open summand. -/
structure State.Opened (g : List (Item (Operand Empty))) (s : State) : Prop where
  product : MultiplyTo g s.product
  chain : g.IsChain fun a b => Item.goesOn a b = true
  ends : g.getLast?.any Item.isRun = !s.operandNext
  waits : g ≠ [] → s.operandNext = true → ∀ ts, s.finish ≠ .ok ts

variable {g : List (Item (Operand Empty))} {s s' : State} {item : Item (Operand Empty)}

theorem opened_start : State.start.Opened [] :=
  ⟨⟨[], .nil⟩, .nil, rfl, fun ne => absurd rfl ne⟩

theorem factor_addSign (op : Operator) (place : Span) (gap : Gap) :
    (gap.addSign op place).factor = gap.factor := by
  cases gap <;> rfl

/-- A term is multiplied to the product of the open summand. -/
theorem exists_of_addTerm {done : List Term} {gap : Gap} {negative : Bool} {t : Term}
    (fits : t.monomial.fits = true) (h : (State.before done gap negative).addTerm t = .ok s') :
    ∃ u, (State.before done gap negative).product.mul? t = some u ∧ s' = .after done u := by
  rw [State.product]
  cases gap with
  | product left place =>
    rw [Gap.factor, Term.withSign_mul?]
    rw [State.addTerm] at h
    split at h
    · next u eq => exact ⟨u, eq, (Except.ok.inj h).symm⟩
    · cases h
  | start | sum =>
    refine ⟨t.withSign negative, ?_, (Except.ok.inj h).symm⟩
    rw [Gap.factor, mul?_withSign, Term.one_mul? fits]
    rfl

/-! ## One item -/

/-- What the open summand goes on with. -/
theorem State.Opened.concat (h : s.Opened g)
    (product : MultiplyTo (g ++ [item]) s'.product)
    (joint : ∀ a ∈ g.getLast?, Item.goesOn a item = true)
    (ends : item.isRun = !s'.operandNext)
    (waits : s'.operandNext = true → ∀ ts, s'.finish ≠ .ok ts) : s'.Opened (g ++ [item]) where
  product := product
  chain := by
    refine List.isChain_append.2 ⟨h.chain, .singleton _, fun a last b first => ?_⟩
    obtain rfl := Option.some.inj first
    exact joint a last
  ends := by rw [List.getLast?_concat, Option.any_some, ends]
  waits _ := waits

theorem State.Opened.not_isRun (h : s.Opened g) (next : s.operandNext = true) :
    ∀ a ∈ g.getLast?, a.isRun = false := by
  intro a last
  have ends := h.ends
  rwa [last, next, Option.any_some] at ends

/-- An operator goes on with the open summand, or separates it from the next. -/
theorem State.Opened.addOperator {op : Operator} {place : Span} (h : s.Opened g)
    (add : s.addOperator op place = .ok s') :
    s'.finished = s.finished ∧ s'.Opened (g ++ [.operator op place]) ∨
    s'.finished = s.product :: s.finished ∧ s'.Opened [.operator op place] ∧
      ∀ rest, Item.summands (g ++ .operator op place :: rest) =
        g :: Item.summands (.operator op place :: rest) := by
  obtain ⟨ms, product⟩ := h.product
  obtain ⟨next, sign, waits⟩ := operandNext_of_addOperator add
  have ends : Item.isRun (.operator op place : Item (Operand Empty)) = !s'.operandNext := by
    rw [next]
    rfl
  cases s with
  | before done gap negative =>
    have joint : ∀ a ∈ g.getLast?, Item.goesOn a (.operator op place) = true :=
      fun a last => Item.goesOn_of_not_isRun (h.not_isRun rfl a last)
    cases (addOperator_before (sign rfl) place done gap negative).symm.trans add
    refine .inl ⟨rfl, h.concat ⟨ms, ?_⟩ joint ends fun _ => waits⟩
    rw [State.product, factor_addSign, Term.withSign_bne]
    exact product.operator op place
  | after done last =>
    by_cases mul : op = .mul
    · subst mul
      cases add
      have joint : ∀ a ∈ g.getLast?, Item.goesOn a (.operator .mul place) = true :=
        fun a _ => Item.goesOn_of_not_isPlusMinus rfl
      exact .inl ⟨rfl, h.concat ⟨ms, product.operator .mul place⟩ joint ends fun _ => waits⟩
    · cases (addOperator_after mul place done last).symm.trans add
      have opened : State.Opened [.operator op place]
          (.before (last :: done) (.sum op place) (op == .sub)) :=
        opened_start.concat ⟨[], IsProduct.nil.operator op place⟩ nofun ends fun _ => waits
      exact .inr ⟨rfl, opened, fun rest => Item.summands_append h.chain h.ends (bne_iff_ne.2 mul)⟩

/-- A run is one more factor of the open summand. -/
theorem State.Opened.addRun {r : Run} (h : s.Opened g) (next : s.operandNext = true)
    (worded : Item.IsWorded (.operand (.run r) : Item (Operand Empty)))
    (add : s.add (.operand (.run r)) = .ok s') :
    s'.finished = s.finished ∧ s'.Opened (g ++ [.operand (.run r)]) := by
  cases s with
  | after done last => cases next
  | before done gap negative =>
    obtain ⟨ms, product⟩ := h.product
    obtain ⟨t, read, add⟩ := exists_ok_of_bind add
    obtain ⟨c, ps, written⟩ := Term.exists_writesMonomial worded.1 worded.2 read
    have powers := (Term.ofTokens_computes written).eq_ok_iff.1 read
    obtain ⟨u, mul, rfl⟩ := exists_of_addTerm (Formula.ofPowers?_eq_some powers).2 add
    exact ⟨rfl, h.concat ⟨_, product.operand written powers mul⟩
      (fun a _ => Item.goesOn_of_not_isPlusMinus rfl) rfl nofun⟩

/-- An item goes on with the open summand, or separates it from the next. -/
theorem State.Opened.step (h : s.Opened g) (free : s.operandNext = false → item.isRun = false)
    (worded : item.IsWorded) (add : s.add item = .ok s') :
    s'.finished = s.finished ∧ s'.Opened (g ++ [item]) ∨
    s'.finished = s.product :: s.finished ∧ s'.Opened [item] ∧
      ∀ rest, Item.summands (g ++ item :: rest) = g :: Item.summands (item :: rest) := by
  cases item with
  | operator op place => exact h.addOperator add
  | operand a =>
    cases a with
    | value v => exact v.elim
    | run r =>
      have next : s.operandNext = true := by
        rw [← Bool.not_eq_false]
        intro eq
        cases free eq
      exact .inl (h.addRun next worded add)

/-! ## All items -/

/-- The terms that come after the finished ones are the products of the open summand and those
after it. -/
theorem exists_of_foldlM {items : List (Item (Operand Empty))} {ts : List Term} (h : s.Opened g)
    (free : s.operandNext = false → ∀ item ∈ items.head?, item.isRun = false)
    (apart : Item.Apart items) (worded : ∀ item ∈ items, item.IsWorded)
    (nonempty : g ++ items ≠ []) (fold : items.foldlM State.add s = .ok s')
    (finish : s'.finish = .ok ts) : ∃ us, ts = s.finished.reverse ++ us ∧
      List.Forall₂ MultiplyTo (Item.summands (g ++ items)) us := by
  induction items generalizing g s with
  | nil =>
    obtain rfl : s = s' := Except.ok.inj fold
    rw [List.append_nil] at nonempty ⊢
    cases s with
    | before => exact absurd finish (h.waits nonempty rfl ts)
    | after done last =>
      cases finish
      rw [Item.summands, List.splitBy_of_isChain nonempty h.chain]
      exact ⟨[last], List.reverse_cons, .cons h.product .nil⟩
  | cons item items ih =>
    rw [List.foldlM_cons] at fold
    obtain ⟨s₁, add, fold⟩ := exists_ok_of_bind fold
    obtain ⟨apart_head, apart⟩ := List.isChain_cons.1 apart
    obtain ⟨first, worded⟩ := List.forall_mem_cons.1 worded
    have step := h.step (fun eq => free eq item rfl) first add
    -- Whichever summand the item belongs to, it is the last item read.
    have free {g : List (Item (Operand Empty))} (opened : s₁.Opened (g ++ [item]))
        (eq : s₁.operandNext = false) : ∀ next ∈ items.head?, next.isRun = false := by
      have ends := opened.ends
      rw [List.getLast?_concat, Option.any_some, eq] at ends
      exact fun next head => apart_head next head ends
    rcases step with ⟨finished, opened⟩ | ⟨finished, opened, split⟩
    · obtain ⟨us, eq, all⟩ := ih opened (free opened) apart worded (by simp) fold
      rw [List.append_cons]
      exact ⟨us, by rw [eq, finished], all⟩
    · obtain ⟨us, eq, all⟩ := ih opened (free (g := []) opened) apart worded (by simp) fold
      refine ⟨s.product :: us, ?_, ?_⟩
      · rw [eq, finished, List.reverse_cons, List.append_assoc]
        rfl
      · rw [split]
        exact .cons h.product all

end Summands

namespace Polynomial

/-- A blank text is read as the term 0, and any other text that can be read as one term for each
summand: the product of what stands in it. -/
theorem parse_one_term_per_summand (text : String) :
    (IsBlankText text → parse text = .ok ⟨[.zero]⟩) ∧
    ∀ p, parse text = .ok p → ¬IsBlankText text →
      List.Forall₂ MultiplyTo (Item.summands (Item.ofTokens (tokenize text))) p.terms := by
  have empty_iff : IsBlankText text ↔ Item.ofTokens (tokenize text) = [] :=
    isBlankText_iff.trans (Item.ofTokens_eq_nil_iff _).symm
  constructor
  · intro blank
    rw [parse, empty_iff.1 blank]
    rfl
  · intro p h nonblank
    obtain ⟨s, fold, h⟩ := exists_ok_of_bind h
    obtain ⟨ts, finish, h⟩ := exists_ok_of_bind h
    cases h
    obtain ⟨us, eq, all⟩ := Summands.exists_of_foldlM Summands.opened_start nofun
      (Item.apart_ofTokens _) (Item.isWorded_ofTokens (lettersLower_tokenize text))
      (mt empty_iff.2 nonblank) fold finish
    rwa [show ts = us from eq]

/-- The first summand is zero and keeps its name, and the second has three minus signs. -/
theorem parse_one_term_per_summand_signs :
    parse "0*a2 - b*--c*2" = .ok ⟨[⟨0, ⟨[('a', 2)]⟩⟩, ⟨-2, ⟨[('b', 1), ('c', 1)]⟩⟩]⟩ ∧
    ¬IsBlankText "0*a2 - b*--c*2" ∧
    List.Forall₂ MultiplyTo (Item.summands (Item.ofTokens (tokenize "0*a2 - b*--c*2")))
      [⟨0, ⟨[('a', 2)]⟩⟩, ⟨-2, ⟨[('b', 1), ('c', 1)]⟩⟩] := by
  have parsed : parse "0*a2 - b*--c*2" =
      .ok ⟨[⟨0, ⟨[('a', 2)]⟩⟩, ⟨-2, ⟨[('b', 1), ('c', 1)]⟩⟩]⟩ := by cbv
  have nonblank : ¬IsBlankText "0*a2 - b*--c*2" := by
    intro blank
    have zero := blank '0' (by decide)
    cases zero
  exact ⟨parsed, nonblank, (parse_one_term_per_summand _).2 _ parsed nonblank⟩

end Polynomial

end Expansion
