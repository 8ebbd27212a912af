import Expansion.Proofs.Replacement
import Mathlib.Data.List.Basic
import Mathlib.Tactic.Ring

/-!
# Parentheses that belong together

An opening and a closing parenthesis are *partners* if all parentheses between them pair up among
themselves. This speaks about the numbers of tokens only, and not about any way to find partners.

**Theorem (`partners_pair_iff`).** In a pair with something behind it, partners are the pair itself,
partners inside of it, and partners behind it.

An opening parenthesis has at most one partner, and pairs never cross. Both are seen on the *height*
at a place, the number of parentheses that are opened before it less those that are closed: between
partners it is larger than at the first of them, and behind the second it is the same again.
-/

namespace Expansion

/-! ## Heights -/

/-- What a token adds to the height: 1 if it opens, and -1 if it closes. -/
def Token.rise (t : Token) : Int :=
  match t.lexeme with
  | .opening => 1
  | .closing => -1
  | _ => 0

theorem Token.rise_opening {t : Token} (h : t.lexeme = .opening) : t.rise = 1 := by
  rw [rise, h]

theorem Token.rise_closing {t : Token} (h : t.lexeme = .closing) : t.rise = -1 := by
  rw [rise, h]

theorem Token.rise_plain {t : Token} (h : ¬t.IsParenthesis) : t.rise = 0 := by
  obtain ⟨l, i⟩ := t
  cases l with
  | opening => exact absurd (.inl rfl) h
  | closing => exact absurd (.inr rfl) h
  | _ => rfl

/-- How many more parentheses the tokens open than they close. -/
def height : List Token → Int
  | [] => 0
  | t :: ts => t.rise + height ts

@[simp] theorem height_nil : height [] = 0 := rfl

@[simp] theorem height_cons (t : Token) (ts : List Token) :
    height (t :: ts) = t.rise + height ts := rfl

@[simp] theorem height_append (ts us : List Token) :
    height (ts ++ us) = height ts + height us := by
  induction ts with
  | nil => simp
  | cons t ts ih => rw [List.cons_append, height_cons, ih, height_cons, add_assoc]

/-- The tokens never close more parentheses than they have opened so far. -/
def NeverBelow (ts : List Token) : Prop := ∀ k, 0 ≤ height (ts.take k)

theorem neverBelow_nil : NeverBelow [] := fun k => by simp

theorem NeverBelow.cons {t : Token} {ts : List Token} (ht : 0 ≤ t.rise) (h : NeverBelow ts) :
    NeverBelow (t :: ts) := by
  intro k
  cases k with
  | zero => simp
  | succ k =>
    have rest := h k
    rw [List.take_succ_cons, height_cons]
    omega

/-- A pair may stand in front of tokens. -/
theorem NeverBelow.pair {t u : Token} {ts us : List Token} (opens : t.lexeme = .opening)
    (closes : u.lexeme = .closing) (inside : NeverBelow ts) (level : height ts = 0)
    (behind : NeverBelow us) : NeverBelow (t :: (ts ++ u :: us)) := by
  intro k
  cases k with
  | zero => simp
  | succ k =>
    have left := inside k
    rw [List.take_succ_cons, height_cons, Token.rise_opening opens, List.take_append, height_append]
    rcases Nat.lt_or_ge ts.length k with lt | le
    · obtain ⟨m, rfl⟩ : ∃ m, k = ts.length + (m + 1) := ⟨k - ts.length - 1, by omega⟩
      have right := behind m
      rw [Nat.add_sub_cancel_left, List.take_succ_cons, height_cons, Token.rise_closing closes,
        List.take_of_length_le (Nat.le_add_right _ _), level]
      omega
    · rw [Nat.sub_eq_zero_of_le le, List.take_zero, height_nil]
      omega

/-! ## Balanced tokens -/

/-- All parentheses of the tokens pair up. -/
inductive Balanced : List Token → Prop
  | nil : Balanced []
  | plain {t : Token} {ts : List Token} : ¬t.IsParenthesis → Balanced ts → Balanced (t :: ts)
  | pair {t u : Token} {ts us : List Token} : t.lexeme = .opening → u.lexeme = .closing →
      Balanced ts → Balanced us → Balanced (t :: (ts ++ u :: us))

theorem Balanced.height_eq_zero {ts : List Token} (h : Balanced ts) : height ts = 0 := by
  induction h with
  | nil => rfl
  | plain plain _ ih => rw [height_cons, Token.rise_plain plain, ih, add_zero]
  | pair opens closes _ _ ih ih' =>
    rw [height_cons, height_append, height_cons, Token.rise_opening opens,
      Token.rise_closing closes, ih, ih']
    rfl

theorem Balanced.neverBelow {ts : List Token} (h : Balanced ts) : NeverBelow ts := by
  induction h with
  | nil => exact neverBelow_nil
  | plain plain _ ih => exact ih.cons (Token.rise_plain plain).ge
  | pair opens closes inside _ ih ih' => exact ih.pair opens closes inside.height_eq_zero ih'

/-! ## Partners -/

/-- The tokens number `i` and `j` are an opening and a closing parenthesis, and all parentheses
between them pair up. -/
structure Partners (ts : List Token) (i j : Nat) : Prop where
  lt : i < j
  opening : ∃ t, ts[i]? = some t ∧ t.lexeme = .opening
  closing : ∃ t, ts[j]? = some t ∧ t.lexeme = .closing
  between : Balanced ((ts.take j).drop (i + 1))

namespace Partners

variable {ts us vs : List Token} {t u : Token} {i j k : Nat}

theorem lt_length (h : Partners ts i j) : j < ts.length := by
  obtain ⟨t, at_j, -⟩ := h.closing
  exact (List.getElem?_eq_some_iff.1 at_j).1

/-- Inside of the pair, the height is that of the tokens inside, and one more than before. -/
theorem height_take (h : Partners ts i j) {m : Nat} (le : i + 1 + m ≤ j) :
    height (ts.take (i + 1 + m)) =
      height (ts.take i) + 1 + height (((ts.take j).drop (i + 1)).take m) := by
  obtain ⟨t, at_i, opens⟩ := h.opening
  have upto : ts.take (i + 1 + m) = (ts.take j).take (i + 1 + m) := by
    rw [List.take_take, Nat.min_eq_left le]
  have first : (ts.take j).take (i + 1) = ts.take i ++ [t] := by
    rw [List.take_take, Nat.min_eq_left (by omega), List.take_add_one, at_i, Option.toList_some]
  rw [upto, List.take_add, first, height_append, height_append, height_cons,
    Token.rise_opening opens, height_nil, add_zero]

theorem height_between (h : Partners ts i j) (lt : i < k) (le : k ≤ j) :
    height (ts.take i) < height (ts.take k) := by
  obtain ⟨m, rfl⟩ := Nat.exists_eq_add_of_le (show i + 1 ≤ k from lt)
  have inside := h.between.neverBelow m
  rw [h.height_take le]
  omega

theorem height_behind (h : Partners ts i j) :
    height (ts.take (j + 1)) = height (ts.take i) := by
  obtain ⟨u, at_j, closes⟩ := h.closing
  have lt := h.lt
  have lt_length := h.lt_length
  have length : ((ts.take j).drop (i + 1)).length = j - (i + 1) := by
    rw [List.length_drop, List.length_take, Nat.min_eq_left (by omega)]
  have inside := h.height_take (m := j - (i + 1)) (by omega)
  rw [Nat.add_sub_cancel' lt, List.take_of_length_le length.le, h.between.height_eq_zero]
    at inside
  rw [List.take_add_one, at_j, Option.toList_some, height_append, inside, height_cons,
    Token.rise_closing closes, height_nil]
  omega

/-- An opening parenthesis has at most one partner. -/
theorem opening_unique {j' : Nat} (h : Partners ts i j) (h' : Partners ts i j') : j = j' := by
  have := h.height_behind
  have := h'.height_behind
  have := h.height_between (k := j' + 1)
  have := h'.height_between (k := j + 1)
  have := h.lt
  have := h'.lt
  omega

/-! ## Tokens put together -/

theorem getElem?_among (lt : j < us.length) : (ts ++ (us ++ vs))[ts.length + j]? = us[j]? := by
  rw [List.getElem?_append_right (Nat.le_add_right _ _), Nat.add_sub_cancel_left,
    List.getElem?_append_left lt]

theorem between_among (lt : j < us.length) :
    ((ts ++ (us ++ vs)).take (ts.length + j)).drop (ts.length + i + 1) =
      (us.take j).drop (i + 1) := by
  rw [List.take_append, Nat.add_sub_cancel_left, List.take_of_length_le (Nat.le_add_right _ _),
    List.take_append_of_le_length lt.le, Nat.add_assoc, List.drop_append,
    Nat.add_sub_cancel_left, List.drop_of_length_le (Nat.le_add_right _ _), List.nil_append]

/-- Where some tokens stand among others, they have the same partners among themselves. -/
theorem append_iff (lt : j < us.length) :
    Partners (ts ++ (us ++ vs)) (ts.length + i) (ts.length + j) ↔ Partners us i j := by
  have get (k : Nat) (le : k ≤ j) : (ts ++ (us ++ vs))[ts.length + k]? = us[k]? :=
    getElem?_among (by omega)
  constructor
  · rintro ⟨lt', opening, closing, between⟩
    have le : i ≤ j := by omega
    rw [get i le] at opening
    rw [get j le_rfl] at closing
    rw [between_among lt] at between
    exact ⟨by omega, opening, closing, between⟩
  · rintro ⟨lt', opening, closing, between⟩
    rw [← get i lt'.le] at opening
    rw [← get j le_rfl] at closing
    rw [← between_among lt] at between
    exact ⟨by omega, opening, closing, between⟩

theorem behind_iff : Partners (ts ++ us) (ts.length + i) (ts.length + j) ↔ Partners us i j := by
  have length : (ts ++ us).length = ts.length + us.length := List.length_append
  rcases Nat.lt_or_ge j us.length with lt | ge
  · have among : Partners (ts ++ (us ++ [])) (ts.length + i) (ts.length + j) ↔ Partners us i j :=
      append_iff lt
    rwa [List.append_nil] at among
  · constructor
    · intro h
      have := h.lt_length
      omega
    · intro h
      have := h.lt_length
      omega

end Partners

variable {ts us vs : List Token} {t u : Token} {i j : Nat}

/-- An opening parenthesis before tokens that never close more than they open has no partner. -/
theorem not_partners_of_neverBelow (opens : t.lexeme = .opening) (below : NeverBelow ts) :
    ¬Partners (t :: ts) 0 j := by
  intro h
  have inside := below j
  have behind := h.height_behind
  rw [List.take_succ_cons, height_cons, Token.rise_opening opens, List.take_zero, height_nil]
    at behind
  omega

/-- Behind a token without a partner, partners are those of the other tokens. -/
theorem partners_cons_iff (alone : ∀ j, ¬Partners (t :: ts) 0 j) :
    Partners (t :: ts) i j ↔ ∃ i' j', i = 1 + i' ∧ j = 1 + j' ∧ Partners ts i' j' := by
  have behind (i j : Nat) : Partners (t :: ts) (1 + i) (1 + j) ↔ Partners ts i j := by
    show Partners ([t] ++ ts) ([t].length + i) ([t].length + j) ↔ _
    exact Partners.behind_iff
  constructor
  · intro h
    have lt := h.lt
    cases i with
    | zero => exact absurd h (alone j)
    | succ i =>
      obtain ⟨j, rfl⟩ : ∃ j', j = 1 + j' := ⟨j - 1, by omega⟩
      rw [Nat.add_comm i 1, behind] at h
      exact ⟨i, j, Nat.add_comm i 1, rfl, h⟩
  · rintro ⟨i, j, rfl, rfl, h⟩
    exact (behind i j).2 h

theorem within_pair_iff (lt : j < ts.length) :
    Partners (t :: (ts ++ u :: us)) (1 + i) (1 + j) ↔ Partners ts i j := by
  show Partners ([t] ++ (ts ++ u :: us)) ([t].length + i) ([t].length + j) ↔ _
  exact Partners.append_iff lt

theorem behind_pair_iff : Partners (t :: (ts ++ u :: us)) (ts.length + 2 + i)
    (ts.length + 2 + j) ↔ Partners us i j := by
  have behind : Partners (t :: (ts ++ [u]) ++ us) ((t :: (ts ++ [u])).length + i)
      ((t :: (ts ++ [u])).length + j) ↔ Partners us i j := Partners.behind_iff
  simpa using behind

section

variable (opens : t.lexeme = .opening) (closes : u.lexeme = .closing) (inside : Balanced ts)

include opens inside

theorem one_le_height_within_pair (us : List Token) {k : Nat} (le : k ≤ ts.length) :
    1 ≤ height ((t :: (ts ++ us)).take (k + 1)) := by
  have below := inside.neverBelow k
  rw [List.take_succ_cons, height_cons, Token.rise_opening opens,
    List.take_append_of_le_length le]
  omega

include closes

theorem height_take_pair (us : List Token) :
    height ((t :: (ts ++ u :: us)).take (ts.length + 2)) = 0 := by
  rw [List.take_succ_cons, List.take_append, Nat.add_sub_cancel_left,
    List.take_of_length_le (Nat.le_succ _)]
  simp [inside.height_eq_zero, Token.rise_opening opens, Token.rise_closing closes]

/-- Partners of which the first is in a pair are the pair itself or inside of it. -/
theorem Partners.in_pair (h : Partners (t :: (ts ++ u :: us)) i j) (before : i ≤ ts.length) :
    i = 0 ∧ j = ts.length + 1 ∨ 1 ≤ i ∧ j < ts.length + 1 := by
  -- The height is 0 at both ends of the pair, and positive inside of it.
  have start : height (List.take 0 (t :: (ts ++ u :: us))) = 0 := rfl
  have inner (k : Nat) (le : k ≤ ts.length) :
      1 ≤ height ((t :: (ts ++ u :: us)).take (k + 1)) :=
    one_le_height_within_pair opens inside _ le
  have stop := height_take_pair opens closes inside us
  have lt := h.lt
  have closed := h.height_behind
  have between := h.height_between (k := ts.length + 2)
  rw [stop] at between
  cases i with
  | zero =>
    rw [start] at closed between
    have low : j ≤ ts.length + 1 := by
      by_contra beyond
      have := between (by omega) (by omega)
      omega
    refine .inl ⟨rfl, ?_⟩
    by_contra ne
    have := inner j (by omega)
    omega
  | succ i =>
    have first := inner i (by omega)
    have low : j ≤ ts.length + 1 := by
      by_contra beyond
      have := between (by omega) (by omega)
      omega
    refine .inr ⟨Nat.succ_pos i, ?_⟩
    by_contra ge
    obtain rfl : j = ts.length + 1 := by omega
    rw [stop] at closed
    omega

/-- In a pair with something behind it, partners are the pair itself, partners inside of it, and
partners behind it. -/
theorem partners_pair_iff : Partners (t :: (ts ++ u :: us)) i j ↔
      i = 0 ∧ j = ts.length + 1 ∨
      (∃ i' j', i = 1 + i' ∧ j = 1 + j' ∧ Partners ts i' j') ∨
      ∃ i' j', i = ts.length + 2 + i' ∧ j = ts.length + 2 + j' ∧ Partners us i' j' := by
  constructor
  · intro h
    have lt := h.lt
    rcases Nat.lt_trichotomy i (ts.length + 1) with before | middle | after
    · rcases h.in_pair opens closes inside (Nat.le_of_lt_succ before) with pair | ⟨first, last⟩
      · exact .inl pair
      · obtain ⟨i, rfl⟩ := Nat.exists_eq_add_of_le first
        obtain ⟨j, rfl⟩ := Nat.exists_eq_add_of_le (show 1 ≤ j by omega)
        exact .inr (.inl ⟨i, j, rfl, rfl, (within_pair_iff (by omega)).1 h⟩)
    · -- At the end of the pair there is a closing parenthesis.
      obtain ⟨v, at_i, opens'⟩ := h.opening
      rw [middle, List.getElem?_cons_succ, List.getElem?_append_right le_rfl, Nat.sub_self] at at_i
      cases at_i
      cases closes.symm.trans opens'
    · obtain ⟨i, rfl⟩ := Nat.exists_eq_add_of_le (show ts.length + 2 ≤ i from after)
      obtain ⟨j, rfl⟩ := Nat.exists_eq_add_of_le (show ts.length + 2 ≤ j by omega)
      exact .inr (.inr ⟨i, j, rfl, rfl, behind_pair_iff.1 h⟩)
  · rintro (⟨rfl, rfl⟩ | ⟨i, j, rfl, rfl, h⟩ | ⟨i, j, rfl, rfl, h⟩)
    · refine ⟨by omega, ⟨t, rfl, opens⟩, ⟨u, ?_, closes⟩, ?_⟩
      · rw [List.getElem?_cons_succ, List.getElem?_append_right le_rfl, Nat.sub_self]
        rfl
      · rw [List.take_succ_cons, List.take_append_of_le_length le_rfl, List.take_length]
        exact inside
    · exact (within_pair_iff h.lt_length).2 h
    · exact behind_pair_iff.2 h

end

theorem between_pair : ((t :: (ts ++ u :: us)).take (ts.length + 1)).drop (0 + 1) = ts := by
  simp

theorem alone_of_plain (plain : ¬t.IsParenthesis) : ∀ j, ¬Partners (t :: ts) 0 j := by
  intro j h
  obtain ⟨u, at_i, opens⟩ := h.opening
  cases at_i
  exact plain (.inl opens)

/-! ## Nesting -/

open Classical in
/-- How many of the first `n` tokens have partners from the token number `i` on. -/
noncomputable def openedBefore (ts : List Token) (n i : Nat) : Nat :=
  (List.range n).countP fun k => decide (∃ j, i ≤ j ∧ Partners ts k j)

/-- How many pairs of partners the token number `i` stands in, where it may be one of the partners.
-/
noncomputable def nesting (ts : List Token) (i : Nat) : Nat := openedBefore ts (i + 1) i

theorem openedBefore_one {i j : Nat} (h : Partners ts 0 j) (le : i ≤ j) :
    openedBefore ts 1 i = 1 := by
  rw [openedBefore]
  refine List.countP_eq_length.2 fun k hk => ?_
  obtain rfl : k = 0 := by simpa using hk
  simpa using ⟨j, le, h⟩

/-- The tokens `us` stand in `ws` from the number `n` on, in `extra` pairs of partners, and no token
of `us` has its partner outside of `us`. -/
structure Separate (extra n : Nat) (us ws : List Token) : Prop where
  split : ∃ ts vs, ws = ts ++ (us ++ vs) ∧ n = ts.length
  opening : ∀ i j, i < us.length → Partners ws (n + i) j → ∃ j', j = n + j' ∧ j' < us.length
  closing : ∀ i j, j < us.length → Partners ws i (n + j) → ∃ i', i = n + i'
  around : ∀ i, i < us.length → openedBefore ws n (n + i) = extra

namespace Separate

variable {extra n : Nat} {ws : List Token}

theorem getElem? (h : Separate extra n us ws) (lt : i < us.length) : ws[n + i]? = us[i]? := by
  obtain ⟨ts, vs, rfl, rfl⟩ := h.split
  exact Partners.getElem?_among lt

theorem between (h : Separate extra n us ws) (lt : j < us.length) :
    (ws.take (n + j)).drop (n + i + 1) = (us.take j).drop (i + 1) := by
  obtain ⟨ts, vs, rfl, rfl⟩ := h.split
  exact Partners.between_among lt

theorem partners_iff (h : Separate extra n us ws) (lt : j < us.length) :
    Partners ws (n + i) (n + j) ↔ Partners us i j := by
  obtain ⟨ts, vs, rfl, rfl⟩ := h.split
  exact Partners.append_iff lt

theorem openedBefore_eq {m : Nat} (h : Separate extra n us ws) (lt : i < us.length)
    (le : m ≤ us.length) : openedBefore ws (n + m) (n + i) = extra + openedBefore us m i := by
  rw [openedBefore, List.range_add, List.countP_append]
  refine congrArg₂ (· + ·) (h.around i lt) ?_
  rw [List.countP_map, openedBefore]
  refine List.countP_congr fun k hk => ?_
  have lt' : k < us.length := by
    have := List.mem_range.1 hk
    omega
  simp only [Function.comp_apply, decide_eq_true_eq]
  constructor
  · rintro ⟨j, le, partners⟩
    obtain ⟨j, rfl, lt_length⟩ := h.opening k j lt' partners
    exact ⟨j, by omega, (h.partners_iff lt_length).1 partners⟩
  · rintro ⟨j, le, partners⟩
    exact ⟨n + j, by omega, (h.partners_iff partners.lt_length).2 partners⟩

theorem nesting_eq (h : Separate extra n us ws) (lt : i < us.length) :
    nesting ws (n + i) = extra + nesting us i :=
  h.openedBefore_eq lt lt

/-- All tokens stand in no pair. -/
theorem refl (ts : List Token) : Separate 0 0 ts ts where
  split := ⟨[], [], (List.append_nil ts).symm, rfl⟩
  opening _ j _ h := ⟨j, (Nat.zero_add j).symm, h.lt_length⟩
  closing i _ _ _ := ⟨i, (Nat.zero_add i).symm⟩
  around _ _ := rfl

/-- Tokens that stand in tokens that stand in others. -/
theorem trans {extra' n' : Nat} {vs : List Token} (h : Separate extra n us vs)
    (h' : Separate extra' n' vs ws) : Separate (extra' + extra) (n' + n) us ws := by
  have length : n + us.length ≤ vs.length := by
    obtain ⟨ts, rs, rfl, rfl⟩ := h.split
    simp only [List.length_append]
    omega
  refine ⟨?_, fun i j lt partners => ?_, fun i j lt partners => ?_, fun i lt => ?_⟩
  · obtain ⟨ts, rs, rfl, rfl⟩ := h.split
    obtain ⟨ts', rs', rfl, rfl⟩ := h'.split
    exact ⟨ts' ++ ts, rs ++ rs', by simp, by simp⟩
  · rw [Nat.add_assoc] at partners
    obtain ⟨j, rfl, lt'⟩ := h'.opening (n + i) j (by omega) partners
    obtain ⟨j, rfl, lt''⟩ := h.opening i j lt ((h'.partners_iff lt').1 partners)
    exact ⟨j, (Nat.add_assoc ..).symm, lt''⟩
  · rw [Nat.add_assoc] at partners
    obtain ⟨i, rfl⟩ := h'.closing i (n + j) (by omega) partners
    obtain ⟨i, rfl⟩ := h.closing i j lt ((h'.partners_iff (by omega)).1 partners)
    exact ⟨i, (Nat.add_assoc ..).symm⟩
  · rw [Nat.add_assoc, h'.openedBefore_eq (by omega) (by omega), h.around i lt]

/-- Tokens behind one without a partner stand in no pair with it. -/
theorem cons (alone : ∀ j, ¬Partners (t :: ts) 0 j) : Separate 0 1 ts (t :: ts) where
  split := ⟨[t], [], by rw [List.append_nil]; rfl, rfl⟩
  opening i j _ h := by
    obtain ⟨i', j', -, rfl, behind⟩ := (partners_cons_iff alone).1 h
    exact ⟨j', rfl, behind.lt_length⟩
  closing i j _ h := by
    obtain ⟨i', j', rfl, -, -⟩ := (partners_cons_iff alone).1 h
    exact ⟨i', rfl⟩
  around i _ := by
    rw [openedBefore, List.countP_eq_zero]
    intro k hk
    obtain rfl : k = 0 := by simpa using hk
    simpa using fun j _ => alone j

section

variable (opens : t.lexeme = .opening) (closes : u.lexeme = .closing) (balanced : Balanced ts)

include opens closes balanced

/-- Tokens inside of a pair stand in one pair more. -/
theorem inside (us : List Token) : Separate 1 1 ts (t :: (ts ++ u :: us)) where
  split := ⟨[t], u :: us, rfl, rfl⟩
  opening i j lt h := by
    rcases (partners_pair_iff opens closes balanced).1 h with
      ⟨zero, -⟩ | ⟨i', j', -, rfl, inner⟩ | ⟨i', j', eq, -, -⟩
    · omega
    · exact ⟨j', rfl, inner.lt_length⟩
    · omega
  closing i j lt h := by
    rcases (partners_pair_iff opens closes balanced).1 h with
      ⟨-, eq⟩ | ⟨i', j', rfl, -, -⟩ | ⟨i', j', -, eq, -⟩
    · omega
    · exact ⟨i', rfl⟩
    · omega
  around i lt :=
    openedBefore_one ((partners_pair_iff opens closes balanced).2 (.inl ⟨rfl, rfl⟩)) (by omega)

/-- Tokens behind a pair do not stand in it. -/
theorem behind (us : List Token) : Separate 0 (ts.length + 2) us (t :: (ts ++ u :: us)) where
  split := ⟨t :: (ts ++ [u]), [], by simp, by simp⟩
  opening i j _ h := by
    rcases (partners_pair_iff opens closes balanced).1 h with
      ⟨zero, -⟩ | ⟨i', j', eq, -, inner⟩ | ⟨i', j', -, rfl, outer⟩
    · omega
    · have := inner.lt
      have := inner.lt_length
      omega
    · exact ⟨j', rfl, outer.lt_length⟩
  closing i j _ h := by
    rcases (partners_pair_iff opens closes balanced).1 h with
      ⟨-, eq⟩ | ⟨i', j', -, eq, inner⟩ | ⟨i', j', rfl, -, -⟩
    · omega
    · have := inner.lt_length
      omega
    · exact ⟨i', rfl⟩
  around i _ := by
    rw [openedBefore, List.countP_eq_zero]
    intro k hk
    have lt := List.mem_range.1 hk
    simp only [decide_eq_true_eq]
    rintro ⟨j, le, h⟩
    rcases (partners_pair_iff opens closes balanced).1 h with
      ⟨-, rfl⟩ | ⟨i', j', -, rfl, inner⟩ | ⟨i', j', rfl, -, -⟩
    · omega
    · have := inner.lt_length
      omega
    · omega

end

end Separate

end Expansion
