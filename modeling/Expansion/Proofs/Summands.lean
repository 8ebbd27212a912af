import Expansion.Polynomial.Reader
import Expansion.Proofs.Passes

/-!
# Reading a sum respects arithmetic

**Theorem (`read_computes`).** A sum of products of signed monomials is read into the summands of its
formula.

The reader is a fold over the items. What it does with a phrase depends on the state before it only
through what is finished and what stands before the next term, so for each layer of phrases there is
one result `x` that says how the fold goes on: a signed operand is one more term for the state
(`exists_read_signed`), a product ends as the last summand (`exists_read_product`), and a sum ends
as the list of all summands (`exists_read_sum`).
-/

namespace Expansion.Summands

open Phrase Term

variable {f g : Formula} {S : Empty → Formula → Prop} {items : List (Item (Operand Empty))}

/-! ## Signed operands -/

theorem addTerm_addSign (op : Operator) (place : Span) (done : List Term) (gap : Gap)
    (negative : Bool) (t : Term) : (State.before done (gap.addSign op place) negative).addTerm t =
      (State.before done gap negative).addTerm t := by
  cases gap <;> rfl

theorem withSign_not (negative : Bool) (t : Term) :
    t.withSign (!negative) = (-t).withSign negative := by
  cases negative with
  | false => rfl
  | true => exact congrArg (Term.mk · t.monomial) (neg_neg t.factor).symm

theorem addTerm_not (done : List Term) (gap : Gap) (negative : Bool) (t : Term) :
    (State.before done gap !negative).addTerm t =
      (State.before done gap negative).addTerm (-t) := by
  cases gap <;> simp only [State.addTerm, withSign_not]

theorem exists_read_signed (h : Signed (Operand.Stands S) f items) :
    ∃ x, Yields f.MultipliesOut x (fun t => f.summands = some [t]) ∧ ∀ done gap negative rest,
      (items ++ rest).foldlM State.add (.before done gap negative) =
        x >>= fun t => (State.before done gap negative).addTerm t >>= fun s =>
          rest.foldlM State.add s := by
  induction h with
  | operand h =>
    cases h with
    | @run r c ps h =>
      refine ⟨ofTokens r.tokens, Yields.mono (ofTokens_computes h) ?_ ?_, ?_⟩
      · rintro ⟨ts, out⟩
        obtain ⟨t, eq, -⟩ := Option.map_eq_some_iff.1 out
        exact ⟨t, eq⟩
      · exact fun t ht => Option.map_eq_some_iff.2 ⟨t, ht, rfl⟩
      · intro done gap negative rest
        rw [List.singleton_append, List.foldlM_cons, State.add, bind_assoc]
    | @value v _ _ => exact v.elim
  | @plus f items place _ ih =>
    obtain ⟨x, yields, eq⟩ := ih
    refine ⟨x, yields, ?_⟩
    intro done gap negative rest
    rw [List.cons_append, List.foldlM_cons]
    show (items ++ rest).foldlM State.add (.before done _ (negative != false)) = _
    simp only [Bool.bne_false, eq, addTerm_addSign]
  | @minus f items place _ ih =>
    obtain ⟨x, yields, eq⟩ := ih
    refine ⟨x >>= fun t => .ok (-t), (yields.mono Formula.MultipliesOut.minus fun _ => id).bind
      fun t ht => .ok (Option.map_eq_some_iff.2 ⟨[t], ht, rfl⟩), ?_⟩
    intro done gap negative rest
    rw [List.cons_append, List.foldlM_cons]
    show (items ++ rest).foldlM State.add (.before done _ (negative != true)) = _
    simp only [Bool.bne_true, eq, addTerm_addSign, addTerm_not, bind_assoc]
    rfl

/-! ## Products -/

/-- The product of two terms around the `*` at `place`. -/
def mulAt (place : Span) (s t : Term) : Except Error Term :=
  match s.mul? t with
  | some product => .ok product
  | none => .error (.exponentTooLarge place)

theorem addTerm_product (done : List Term) (s t : Term) (place : Span) :
    (State.before done (.product s place) false).addTerm t =
      mulAt place s t >>= fun u => .ok (.after done u) := by
  show (match s.mul? t with | some u => _ | none => _) = _
  rw [mulAt]
  cases s.mul? t <;> rfl

theorem withSign_withSign (negative : Bool) (t : Term) :
    (t.withSign negative).withSign negative = t := by
  cases negative with
  | false => rfl
  | true => exact congrArg (Term.mk · t.monomial) (neg_neg t.factor)

/-- The sign of the first factor is the sign of the product. -/
theorem mul?_withSign (negative : Bool) (s t : Term) :
    (s.withSign negative).mul? t = (s.mul? t).map (·.withSign negative) := by
  cases negative with
  | false => exact Option.map_id'.symm
  | true =>
    show (-s).mul? t = (s.mul? t).map (- ·)
    have factor : (-s).factor * t.factor = -(s.factor * t.factor) := neg_mul s.factor t.factor
    by_cases fits : (s.monomial.mul t.monomial).fits = true
    · simp only [mul?, monomial_neg, factor, fits, if_true, Option.map_some]
      rfl
    · simp only [mul?, monomial_neg, fits]
      rfl

theorem mulAt_yields {s t : Term} {negative : Bool} (hs : f.summands = some [s.withSign negative])
    (ht : g.summands = some [t]) (place : Span) :
    Yields (f.mul g).MultipliesOut (mulAt place s t)
      fun u => (f.mul g).summands = some [u.withSign negative] := by
  have product : (f.mul g).summands = (s.mul? t).map fun u => [u.withSign negative] := by
    rw [Formula.summands_mul hs ht, mul?_withSign, Option.map_map]
    rfl
  rw [mulAt]
  split
  · next u eq => exact .ok (by rw [product, eq]; rfl)
  · next no_product =>
    refine .tooLarge ?_
    rintro ⟨us, eq⟩
    rw [product, no_product] at eq
    cases eq

theorem exists_read_product (h : Product (Signed (Operand.Stands S)) f items) (negative : Bool) :
    ∃ x, Yields f.MultipliesOut x (fun t => f.summands = some [t.withSign negative]) ∧
      ∀ done gap rest, (∀ left place, gap ≠ .product left place) →
        (items ++ rest).foldlM State.add (.before done gap negative) =
          x >>= fun t => rest.foldlM State.add (.after done t) := by
  induction h with
  | factor h =>
    obtain ⟨x, yields, eq⟩ := exists_read_signed h
    -- A factor is read, and the sign before the product goes into it.
    refine ⟨x >>= fun t => .ok (t.withSign negative), yields.bind fun t ht => .ok ?_, ?_⟩
    · rwa [withSign_withSign]
    intro done gap rest no_product
    have add : ∀ t, (State.before done gap negative).addTerm t =
        .ok (.after done (t.withSign negative)) := by
      cases gap with
      | product left place => exact absurd rfl (no_product left place)
      | start | sum => exact fun _ => rfl
    simp only [eq, add, bind_assoc]
    rfl
  | @mul f g items others place _ factor ih =>
    obtain ⟨x, left, eq⟩ := ih
    obtain ⟨y, right, eq'⟩ := exists_read_signed factor
    -- A product is read up to its last factor, then that factor, and both are multiplied.
    refine ⟨x >>= fun s => y >>= mulAt place s, ?_, ?_⟩
    · exact (left.mono (·.mul.1) fun _ => id).bind fun s hs =>
        (right.mono (·.mul.2) fun _ => id).bind fun t ht => mulAt_yields hs ht place
    · intro done gap rest no_product
      rw [List.append_assoc, eq _ _ _ no_product, bind_assoc]
      congr 1
      funext s
      rw [List.cons_append, List.foldlM_cons]
      show (others ++ rest).foldlM State.add (.before done (.product s place) false) = _
      rw [eq', bind_assoc]
      congr 1
      funext t
      rw [addTerm_product, bind_assoc]
      rfl

/-! ## Sums -/

theorem exists_read_next (op : Operator) (ne : op ≠ .mul) (place : Span)
    {others : List (Item (Operand Empty))} {x : Except Error (List Term × Term)}
    (left : Yields f.MultipliesOut x fun s => f.summands = some (s.1.reverse ++ [s.2]))
    (eq : ∀ rest, (items ++ rest).foldlM State.add State.start =
      x >>= fun s => rest.foldlM State.add (.after s.1 s.2))
    (h : Product (Signed (Operand.Stands S)) g others) :
    ∃ y : Except Error (List Term × Term), Yields (f.MultipliesOut ∧ g.MultipliesOut) y
      (fun s => (f.add (g.withSign (op == .sub))).summands = some (s.1.reverse ++ [s.2])) ∧
        ∀ rest, (items ++ .operator op place :: others ++ rest).foldlM State.add State.start =
          y >>= fun s => rest.foldlM State.add (.after s.1 s.2) := by
  obtain ⟨y, right, eq'⟩ := exists_read_product h (op == .sub)
  refine ⟨x >>= fun s => y >>= fun t => .ok (s.2 :: s.1, t),
    left.both right fun s t hs ht => .ok ?_, ?_⟩
  · rw [Formula.summands, hs, Formula.summands_withSign ht, withSign_withSign, List.reverse_cons]
    rfl
  · intro rest
    rw [List.append_assoc, eq, bind_assoc]
    congr 1
    funext s
    have operator : (State.after s.1 s.2).add (.operator op place) =
        .ok (.before (s.2 :: s.1) (.sum op place) (op == .sub)) := by
      cases op with
      | mul => exact absurd rfl ne
      | add | sub => rfl
    rw [List.cons_append, List.foldlM_cons, operator]
    show (others ++ rest).foldlM State.add (.before (s.2 :: s.1) (.sum op place) (op == .sub)) = _
    rw [eq' (s.2 :: s.1) (.sum op place) rest fun _ _ => Gap.noConfusion, bind_assoc]
    rfl

theorem exists_read_sum (h : Sum (Product (Signed (Operand.Stands S))) f items) :
    ∃ x : Except Error (List Term × Term),
      Yields f.MultipliesOut x (fun s => f.summands = some (s.1.reverse ++ [s.2])) ∧ ∀ rest,
        (items ++ rest).foldlM State.add State.start =
          x >>= fun s => rest.foldlM State.add (.after s.1 s.2) := by
  induction h with
  | product h =>
    obtain ⟨x, yields, eq⟩ := exists_read_product h false
    refine ⟨x >>= fun t => .ok ([], t), yields.bind fun t ht => .ok ht, ?_⟩
    intro rest
    rw [State.start, eq [] (.start none) rest fun _ _ => nofun, bind_assoc]
    rfl
  | add _ product ih =>
    obtain ⟨x, left, eq⟩ := ih
    obtain ⟨y, yields, eq⟩ := exists_read_next .add nofun _ left eq product
    exact ⟨y, yields.mono Formula.MultipliesOut.add fun _ => id, eq⟩
  | sub _ product ih =>
    obtain ⟨x, left, eq⟩ := ih
    obtain ⟨y, yields, eq⟩ := exists_read_next .sub nofun _ left eq product
    refine ⟨y, yields.mono Formula.MultipliesOut.sub fun s hs => ?_, eq⟩
    rw [Formula.summands_sub]
    exact hs

/-- A sum of products of signed monomials is read into the summands of its formula, in order. -/
theorem read_computes (h : Sum (Product (Signed (Operand.Stands S))) f items) :
    Computes (f.summands.map .mk) (read items) := by
  obtain ⟨x, yields, eq⟩ := exists_read_sum h
  have all := eq []
  rw [List.append_nil] at all
  rw [read, all, bind_assoc]
  apply (yields.mono ?_ fun _ => id).bind
  · intro s hs
    refine .ok (Option.map_eq_some_iff.2 ⟨_, hs, ?_⟩)
    exact congrArg Polynomial.mk List.reverse_cons.symm
  · rintro ⟨p, found⟩
    obtain ⟨ts, eq, -⟩ := Option.map_eq_some_iff.1 found
    exact ⟨ts, eq⟩

end Expansion.Summands
