import Expansion.Proofs.Guards
import Expansion.Proofs.Specialization
import Expansion.Polynomial.Reader

/-!
# Reading, merging and evaluating terms in bounds

**Theorem (`ofTokens?_eq`).** Reading a term never gets stuck, whatever the tokens are: the
exponents that were counted are small enough for a term to be made from them.

**Theorem (`reduce?_eq`).** The loop that merges neighbours by their positions stays inside the
list.

**Theorem (`evaluate?_eq`).** Evaluating never gets stuck, either, for a polynomial whose monomials
are valid: what is left of a monomial when names are bound has no larger exponents.
-/

namespace Expansion

open Guarded

namespace Monomial

theorem Normal.ofPowers_powers {m : Monomial} (h : m.Normal) : ofPowers m.powers = m :=
  (normal_ofPowers m.powers).ext h (exponent_ofPowers m.powers)

theorem valid_one : one.Valid := ⟨normal_one, rfl⟩

end Monomial

namespace Term

/-- The powers of a valid monomial can be made into a term. -/
theorem ofPowers?_powers {m : Monomial} (h : m.Valid) (c : Int) :
    ofPowers? c m.powers = some ⟨c, m⟩ := by
  rw [ofPowers?, h.toNormal.ofPowers_powers]
  exact if_pos h.fits

theorem valid_of_raiseAt {m n : Monomial} {x : Char} {e : Nat} {place : Span} (hm : m.Valid)
    (h : raiseAt m x e place = .ok n) : n.Valid := by
  rw [raiseAt] at h
  split at h
  · next small =>
    cases h
    have normal := hm.toNormal.mulPower x e
    refine ⟨normal, normal.fits_iff.2 fun y => ?_⟩
    rw [Monomial.exponent_mulPower]
    split
    · next eq =>
      subst eq
      omega
    · exact (Nat.zero_add _).symm ▸ hm.toNormal.fits_iff.1 hm.fits y
  · cases h

/-- No exponent that is counted gets too large. -/
theorem valid_of_readPowers {m n : Monomial} {ts : List Token} (hm : m.Valid)
    (h : readPowers m ts = .ok n) : n.Valid := by
  fun_induction readPowers m ts with
  | case1 m =>
    cases h
    exact hm
  | case2 m x i ds j rest ih =>
    obtain ⟨m', raised, h⟩ := exists_ok_of_bind h
    exact ih m' (valid_of_raiseAt hm raised) h
  | case3 m x i rest _ ih =>
    obtain ⟨m', raised, h⟩ := exists_ok_of_bind h
    exact ih m' (valid_of_raiseAt hm raised) h
  | case4 => cases h

/-! ## Reading a term -/

/-- The position of the first of the tokens that the next one does not touch. -/
def gapIndex? : List Token → Option Nat
  | t :: u :: rest => if t.stop = u.start then (gapIndex? (u :: rest)).map (· + 1) else some 0
  | _ => none

/-- The region from the first of the tokens to the last of them. -/
def coverOf : List Token → Span
  | [] => ⟨0, 0⟩
  | t :: ts => Token.cover t ts

/-- Refuses tokens that do not touch each other. The tokens are divided behind a position. -/
def checkTouching? (ts : List Token) : Guarded Unit :=
  match gapIndex? ts with
  | none => pure ()
  | some i => do
    let before ← need (range? ts 0 (i + 1))
    let after ← need (range? ts (i + 1) ts.length)
    throw (.missingOperator (coverOf before) (coverOf after))

/-- Whether the tokens start with a minus sign. -/
def startsNegative : List Token → Bool
  | ⟨.operator .sub, _⟩ :: _ => true
  | _ => false

/-- The term that tokens after an optional sign are written for. The exponents are counted first,
and the term is then made from all of them. -/
def readUnsigned? (negative : Bool) (ts : List Token) : Guarded Term := do
  checkTouching? ts
  match ts with
  | [] => if negative then need (ofPowers? (-1) []) else pure zero
  | ⟨.digits ds, _⟩ :: rest =>
    let m ← safe (readPowers .one rest)
    need (ofPowers? (Numeral.signed negative (Numeral.value ds)) m.powers)
  | ts =>
    let m ← safe (readPowers .one ts)
    need (ofPowers? (Numeral.signed negative 1) m.powers)

/-- The term that tokens without blanks are written for. -/
def ofTokens? (ts : List Token) : Guarded Term := do
  let negative := startsNegative ts
  let body ← need (range? ts negative.toNat ts.length)
  readUnsigned? negative body

theorem checkTouching_of_none {ts : List Token} (h : gapIndex? ts = none) :
    checkTouching ts = .ok () := by
  have no_gap (start : Nat) : gap? start ts = none := by
    fun_induction gapIndex? ts with
    | case1 t u rest touch ih =>
      rw [gap?, if_pos touch]
      exact ih (Option.map_eq_none_iff.1 h)
    | case2 => cases h
    | case3 ts single =>
      rw [gap?]
      exact single
  cases ts with
  | nil => rfl
  | cons t ts => rw [checkTouching, no_gap]

/-- The place where tokens do not touch divides them into two. -/
theorem exists_of_gapIndex? {i : Nat} {ts : List Token} (h : gapIndex? ts = some i) :
    ∃ before t u after, ts = before ++ t :: u :: after ∧ before.length = i ∧
      ∀ start, gap? start ts = some (⟨start, t.stop⟩, Token.cover u after) := by
  fun_induction gapIndex? ts generalizing i with
  | case1 t u rest touch ih =>
    obtain ⟨j, found, rfl⟩ := Option.map_eq_some_iff.1 h
    obtain ⟨before, t', u', after, eq, rfl, gap⟩ := ih found
    refine ⟨t :: before, t', u', after, by rw [eq, List.cons_append], rfl, fun start => ?_⟩
    rw [gap?, if_pos touch, gap]
  | case2 t u rest apart =>
    cases h
    exact ⟨[], t, u, rest, rfl, rfl, fun start => by rw [gap?, if_neg apart]⟩
  | case3 => cases h

theorem checkTouching_of_gap {before after : List Token} {t u : Token}
    (h : ∀ start, gap? start (before ++ t :: u :: after) =
      some (⟨start, t.stop⟩, Token.cover u after)) :
    checkTouching (before ++ t :: u :: after) =
      .error (.missingOperator (coverOf (before ++ [t])) (coverOf (u :: after))) := by
  cases before with
  | nil =>
    rw [List.nil_append] at h ⊢
    rw [checkTouching, h]
    rfl
  | cons first before =>
    rw [List.cons_append] at h ⊢
    rw [checkTouching, h]
    simp [coverOf, Token.cover]

theorem checkTouching?_eq (ts : List Token) : checkTouching? ts = safe (checkTouching ts) := by
  rw [checkTouching?]
  cases found : gapIndex? ts with
  | none =>
    rw [checkTouching_of_none found]
    rfl
  | some i =>
    obtain ⟨before, t, u, after, eq, rfl, gap⟩ := exists_of_gapIndex? found
    have halves : ts = (before ++ [t]) ++ u :: after := by simp [eq]
    have whole : StandAt ts 0 ((before ++ [t]) ++ u :: after) := by
      rw [← halves]
      exact standAt_self ts
    have left : range? ts 0 (before.length + 1) = some (before ++ [t]) :=
      whole.left.range? (by simp)
    have right : range? ts (before.length + 1) ts.length = some (u :: after) :=
      (whole.right (by simp)).range? (by simp [halves]; omega)
    subst eq
    rw [checkTouching_of_gap gap]
    simp only [left, right, need_some, ok_bind, throw_eq]

theorem need_ofPowers? {ts : List Token} (c : Int) :
    (safe (readPowers .one ts) >>= fun m => need (ofPowers? c m.powers)) =
      safe (readPowers .one ts >>= fun m => .ok ⟨c, m⟩) := by
  refine safe_bind fun m h => ?_
  rw [ofPowers?_powers (valid_of_readPowers Monomial.valid_one h), need_some]

theorem readUnsigned?_eq (negative : Bool) (ts : List Token) :
    readUnsigned? negative ts = safe (readUnsigned negative ts) := by
  unfold readUnsigned? readUnsigned
  rw [checkTouching?_eq]
  refine safe_bind fun _ _ => ?_
  cases ts with
  | nil => cases negative <;> rfl
  | cons t rest =>
    obtain ⟨l, i⟩ := t
    cases l with
    | digits ds => exact need_ofPowers? _
    | _ => exact need_ofPowers? _

theorem ofTokens_cases (ts : List Token) :
    (∃ i rest, ts = ⟨.operator .sub, i⟩ :: rest ∧ startsNegative ts = true ∧
      ofTokens ts = readUnsigned true rest) ∨
    startsNegative ts = false ∧ ofTokens ts = readUnsigned false ts := by
  match ts with
  | [] => exact .inr ⟨rfl, rfl⟩
  | ⟨l, i⟩ :: rest =>
    cases l with
    | operator op =>
      cases op with
      | sub => exact .inl ⟨i, rest, rfl, rfl, rfl⟩
      | add | mul => exact .inr ⟨rfl, rfl⟩
    | _ => exact .inr ⟨rfl, rfl⟩

/-- Reading a term never gets stuck. -/
theorem ofTokens?_eq (ts : List Token) : ofTokens? ts = safe (ofTokens ts) := by
  rw [ofTokens?]
  have whole := standAt_self ts
  rcases ofTokens_cases ts with ⟨i, rest, rfl, negative, eq⟩ | ⟨negative, eq⟩
  · rw [negative, eq]
    show need (range? _ 1 _) >>= _ = _
    rw [whole.tail.range? (by simp; omega), need_some, ok_bind, readUnsigned?_eq]
  · rw [negative, eq]
    show need (range? _ 0 _) >>= _ = _
    rw [whole.range? (by simp), need_some, ok_bind, readUnsigned?_eq]

end Term

/-! ## Reading a sum -/

namespace Summands

/-- The state after an item was read. -/
def State.add? (s : State) : Item (Operand Empty) → Guarded State
  | .operator op place => safe (s.addOperator op place)
  | .operand (.run r) => do
    let t ← Term.ofTokens? r.tokens
    safe (s.addTerm t)

/-- The summands that a sequence of items is written for. -/
def read? (items : List (Item (Operand Empty))) : Guarded Polynomial := do
  let s ← items.foldlM State.add? State.start
  let ts ← safe s.finish
  pure ⟨ts⟩

theorem State.add?_eq (s : State) (item : Item (Operand Empty)) :
    s.add? item = safe (s.add item) := by
  match item with
  | .operator op place => rfl
  | .operand (.run r) =>
    rw [add?, Term.ofTokens?_eq]
    exact safe_bind fun t _ => rfl

/-- Reading a sum never gets stuck. -/
theorem read?_eq (items : List (Item (Operand Empty))) : read? items = safe (read items) := by
  have states (s : State) : items.foldlM State.add? s = safe (items.foldlM State.add s) := by
    induction items generalizing s with
    | nil => rfl
    | cons item items ih =>
      rw [List.foldlM_cons, List.foldlM_cons, State.add?_eq]
      exact safe_bind fun s _ => ih s
  rw [read?, states]
  exact safe_bind fun s _ => safe_bind fun ts _ => rfl

end Summands

/-! ## Evaluating -/

namespace Term

/-- The term with the values of the bound names put in. A variable term is made anew from the powers
that are left. -/
def evaluate? (b : Bindings) (t : Term) : Option Term :=
  if t.isConstant then some t
  else ofPowers? (t.factor * t.monomial.boundFactor b) (t.monomial.unbound b).powers

theorem evaluate?_eq {t : Term} (h : t.Valid) (b : Bindings) :
    evaluate? b t = some (t.evaluate b) := by
  rw [evaluate?]
  split
  · next constant =>
    obtain ⟨c, ⟨powers⟩⟩ := t
    obtain rfl : powers = [] := List.isEmpty_iff.1 constant
    simp [evaluate, Monomial.boundFactor, Monomial.unbound]
  · exact ofPowers?_powers (h.unbound b) _

end Term

namespace Polynomial

/-- The polynomial with the values of the bound names put in. -/
def evaluate? (b : Bindings) (p : Polynomial) : Option Polynomial :=
  (p.terms.mapM (Term.evaluate? b)).map reduce

/-- Evaluating a polynomial never gets stuck. -/
theorem evaluate?_eq {p : Polynomial} (h : ∀ t ∈ p.terms, t.Valid) (b : Bindings) :
    evaluate? b p = some (p.evaluate b) := by
  have terms : p.terms.mapM (Term.evaluate? b) = some (p.terms.map (·.evaluate b)) :=
    mapM_eq_some fun t ht => Term.evaluate?_eq (h t ht) b
  rw [evaluate?, terms]
  rfl

/-! ## Merging neighbours -/

/-- The terms with neighbours merged from position `i` on. The terms before are left alone. -/
def mergeFrom? (ts : List Term) (i : Nat) : Option (List Term) :=
  if i + 1 < ts.length then
    match ts[i]?, ts[i + 1]? with
    | some s, some t => match s.merge? t with
      | some u => mergeFrom? ((ts.set i u).eraseIdx (i + 1)) i
      | none => mergeFrom? ts (i + 1)
    | _, _ => none
  else some ts
termination_by ts.length - i
decreasing_by
  · rw [List.length_eraseIdx_of_lt (by simpa), List.length_set]
    omega
  · omega

/-- The sum of the terms in canonical form. -/
def reduce? (ts : List Term) : Option Polynomial := do
  let merged ← mergeFrom? (Term.descending ts) 0
  some (ofNonzero (merged.filter (!·.isZero)))

theorem mergeFrom?_eq (done : List Term) (s : Term) (ts : List Term) :
    mergeFrom? (done ++ s :: ts) done.length = some (done ++ mergeRun s ts) := by
  induction ts generalizing done s with
  | nil =>
    rw [mergeFrom?, if_neg (by simp)]
    rfl
  | cons t ts ih =>
    rw [mergeFrom?, if_pos (by simp)]
    have first : (done ++ s :: t :: ts)[done.length]? = some s := by simp
    have second : (done ++ s :: t :: ts)[done.length + 1]? = some t := by simp
    rw [first, second]
    show (match s.merge? t with | some u => _ | none => _) = _
    rw [mergeRun]
    cases s.merge? t with
    | some u =>
      have merged : ((done ++ s :: t :: ts).set done.length u).eraseIdx (done.length + 1) =
          done ++ u :: ts := by
        rw [List.set_append_right _ _ le_rfl, List.eraseIdx_append_of_length_le (by simp)]
        simp
      show mergeFrom? _ _ = _
      rw [merged, ih]
    | none => simpa using ih (done ++ [s]) t

/-- Merging neighbours never gets stuck. -/
theorem reduce?_eq (ts : List Term) : reduce? ts = some (reduce ts) := by
  rw [reduce?, reduce]
  cases Term.descending ts with
  | nil =>
    rw [mergeFrom?, if_neg (by simp)]
    rfl
  | cons t ts =>
    rw [show mergeFrom? (t :: ts) 0 = some (mergeRun t ts) from mergeFrom?_eq [] t ts]
    rfl

end Polynomial

end Expansion
