import Mathlib
import Expansion.Proofs.Outcome
import Expansion.Request

/-!
# Several bindings in one request

A request with several bindings is answered like the requests with one of them each, put together.

**Theorem (`run_line`).** The request with all the bindings has an answer exactly if each request
with one of them has. Its lines are then those of the single requests, one for each of the bindings.
Otherwise its error is the error of the first single request that fails: unmoved if the expression
is what is wrong, and else moved by the bindings that stand in front and their separators.
-/

namespace Expansion.Request

variable {options : Options} {source : String} {sets : List String} {x : Expression}

/-- The line that asks for the values of an expression with each of the bindings. -/
def line (source : String) (sets : List String) : String :=
  String.ofList (Text.joinParts ';' ((source :: sets).map String.toList))

/-- The number of bytes that the bindings take in a line, each with a separator. -/
def width (sets : List String) : Nat := (sets.map (·.utf8ByteSize + 1)).sum

@[simp] theorem width_cons (b : String) (sets : List String) :
    width (b :: sets) = b.utf8ByteSize + 1 + width sets := by
  simp [width]

/-- The text that an expression has with the bindings. -/
def answer (x : Expression) (b : String) : Except Error String :=
  (x.evaluate b).outcome >>= fun p => .ok p.text

theorem exists_of_answer_eq_ok {b text : String} (h : answer x b = .ok text) :
    ∃ p, (x.evaluate b).outcome = .ok p ∧ text = p.text := by
  obtain ⟨p, eq, text_eq⟩ := exists_ok_of_bind h
  exact ⟨p, eq, (Except.ok.inj text_eq).symm⟩

/-- Only the reading of the bindings can fail. -/
theorem parse_of_answer_eq_error {b : String} {e : Error} (h : answer x b = .error e) :
    Bindings.parse b = .error e := by
  rw [answer, Expression.evaluate, Logged.outcome_bind, Logged.outcome_ofExcept] at h
  cases parsed : Bindings.parse b with
  | error e' =>
    rw [parsed] at h
    cases h
    rfl
  | ok bound =>
    rw [parsed] at h
    cases h

/-! ## The loop over the bindings -/

theorem outcome_evaluateAll_cons (x : Expression) (offset : Nat) (b : String)
    (sets : List String) :
    (evaluateAll x offset ((b :: sets).map String.toList)).outcome =
      (answer x b).mapError (Error.shift offset) >>= fun text =>
        (evaluateAll x (offset + (b.utf8ByteSize + 1)) (sets.map String.toList)).outcome >>=
          fun lines => .ok (text :: lines) := by
  rw [List.map_cons, evaluateAll, answer, Expression.evaluate, byteLength_toList,
    String.ofList_toList, Nat.add_assoc]
  simp only [Logged.outcome_bind, Logged.outcome_ofExcept]
  cases Bindings.parse b <;> rfl

/-- The loop has gone through all the bindings, and has a line for each. -/
def Answers (x : Expression) (sets : List String) (lines : List String) : Prop :=
  List.Forall₂ (fun b text => answer x b = .ok text) sets lines

/-- The loop has stopped at the first bindings that are wrong, with the error `e` of these
bindings. -/
structure StopsAt (x : Expression) (sets before : List String) (b : String) (e : Error) :
    Prop where
  /-- The bindings that fail stand right behind those before them. -/
  split : ∃ after, sets = before ++ b :: after
  /-- All the bindings before them have an answer. -/
  answered : ∀ c ∈ before, ∃ text, answer x c = .ok text
  /-- The failing bindings have the error. -/
  failed : answer x b = .error e

theorem StopsAt.cons {before : List String} {b c text : String} {e : Error}
    (h : StopsAt x sets before b e) (first : answer x c = .ok text) :
    StopsAt x (c :: sets) (c :: before) b e where
  split := by
    obtain ⟨after, rfl⟩ := h.split
    exact ⟨after, rfl⟩
  answered := List.forall_mem_cons.2 ⟨⟨text, first⟩, h.answered⟩
  failed := h.failed

/-- The loop ends with a line for each of the bindings, or with the first error, moved to where the
bindings stand. -/
theorem outcome_evaluateAll (x : Expression) (offset : Nat) (sets : List String) :
    (∃ lines, (evaluateAll x offset (sets.map String.toList)).outcome = .ok lines ∧
        Answers x sets lines) ∨
      ∃ before b e, StopsAt x sets before b e ∧
        (evaluateAll x offset (sets.map String.toList)).outcome =
          .error (e.shift (offset + width before)) := by
  induction sets generalizing offset with
  | nil => exact .inl ⟨[], rfl, .nil⟩
  | cons c sets ih =>
    rw [outcome_evaluateAll_cons]
    cases first : answer x c with
    | error e => exact .inr ⟨[], c, e, ⟨⟨sets, rfl⟩, by simp, first⟩, rfl⟩
    | ok text =>
      rcases ih (offset + (c.utf8ByteSize + 1)) with
        ⟨lines, eq, answers⟩ | ⟨before, b, e, stops, eq⟩
      · exact .inl ⟨text :: lines, by rw [eq]; rfl, .cons first answers⟩
      · refine .inr ⟨c :: before, b, e, stops.cons first, ?_⟩
        rw [eq, width_cons, Nat.add_assoc offset]
        rfl

/-! ## The request -/

/-- What a request with some bindings does: it reads the expression and goes through the
bindings. -/
theorem outcome_run_line (no_sep : ∀ p ∈ source :: sets, ';' ∉ p.toList) (ne : sets ≠ []) :
    (run options (line source sets)).outcome =
      (Expression.parse options source).outcome >>= fun x =>
        (evaluateAll x (source.utf8ByteSize + 1) (sets.map String.toList)).outcome := by
  have parts : Text.parts ';' (line source sets).toList = (source :: sets).map String.toList := by
    rw [line, String.toList_ofList]
    exact Text.parts_joinParts (by simp) (List.forall_mem_map.2 no_sep)
  obtain ⟨b, rest, rfl⟩ := List.exists_cons_of_ne_nil ne
  rw [run, parts, List.map_cons, List.map_cons]
  simp only [Logged.outcome_bind, String.ofList_toList, byteLength_toList]

/-- The answer to a request with one of the bindings. -/
theorem outcome_run_single {b : String} (source_no_sep : ';' ∉ source.toList)
    (no_sep : ';' ∉ b.toList) :
    (run options (line source [b])).outcome =
      (Expression.parse options source).outcome >>= fun x =>
        (answer x b).mapError (Error.shift (source.utf8ByteSize + 1)) >>= fun text =>
          .ok [text] := by
  rw [outcome_run_line (by simp [source_no_sep, no_sep]) (List.cons_ne_nil b [])]
  refine congrArg _ (funext fun x => ?_)
  rw [outcome_evaluateAll_cons]
  rfl

/-- The request with one of the bindings has a line if the expression can be read and the bindings
have an answer. -/
theorem outcome_run_answered {b text : String} (source_no_sep : ';' ∉ source.toList)
    (no_sep : ';' ∉ b.toList) (read : (Expression.parse options source).outcome = .ok x)
    (answered : answer x b = .ok text) :
    (run options (line source [b])).outcome = .ok [text] := by
  rw [outcome_run_single source_no_sep no_sep, read]
  change (answer x b).mapError _ >>= _ = _
  rw [answered]
  rfl

/-- The request with one of the bindings fails if the expression can be read but the bindings are
wrong. -/
theorem outcome_run_failed {b : String} {e : Error} (source_no_sep : ';' ∉ source.toList)
    (no_sep : ';' ∉ b.toList) (read : (Expression.parse options source).outcome = .ok x)
    (failed : answer x b = .error e) :
    (run options (line source [b])).outcome = .error (e.shift (source.utf8ByteSize + 1)) := by
  rw [outcome_run_single source_no_sep no_sep, read]
  change (answer x b).mapError _ >>= _ = _
  rw [failed]
  rfl

/-- The lines are those of the requests with one of the bindings each, in the same order, and each
is the text of what the expression is when it is evaluated with these bindings only. -/
def Gathers (options : Options) (source : String) (sets : List String) (lines : List String) :
    Prop :=
  ∃ x, (Expression.parse options source).outcome = .ok x ∧
    List.Forall₂ (fun b text => (run options (line source [b])).outcome = .ok [text] ∧
      ∃ p, (x.evaluate b).outcome = .ok p ∧ text = p.text) sets lines

/-- The error is that of the first of the single requests that fails: the very same if the
expression cannot be read, and else moved by the bindings in front, as it is then an error of the
bindings. -/
def FailsLike (options : Options) (source : String) (sets : List String) (e : Error) : Prop :=
  ∃ before b after e', sets = before ++ b :: after ∧
    (∀ c ∈ before, ∃ lines, (run options (line source [c])).outcome = .ok lines) ∧
    (run options (line source [b])).outcome = .error e' ∧
    ((Expression.parse options source).outcome = .error e' ∧ e = e' ∨
      (∃ x wrong, (Expression.parse options source).outcome = .ok x ∧
        Bindings.parse b = .error wrong ∧ e' = wrong.shift (source.utf8ByteSize + 1)) ∧
      e = e'.shift (width before))

theorem Gathers.single {lines : List String} (h : Gathers options source sets lines) :
    ∀ b ∈ sets, ∃ lines, (run options (line source [b])).outcome = .ok lines := by
  obtain ⟨x, -, each⟩ := h
  exact ((List.forall₂_and_left sets lines).1 (each.imp fun b text h => ⟨⟨[text], h.1⟩, h⟩)).1

theorem FailsLike.single {e : Error} (h : FailsLike options source sets e) :
    ¬∀ b ∈ sets, ∃ lines, (run options (line source [b])).outcome = .ok lines := by
  obtain ⟨before, b, after, e', rfl, -, fails, -⟩ := h
  intro ok
  obtain ⟨lines, eq⟩ := ok b (by simp)
  cases fails.symm.trans eq

/-- A request with some bindings has the lines of the single requests, or fails like the first of
them that fails. -/
theorem gathers_or_failsLike (options : Options) (no_sep : ∀ p ∈ source :: sets, ';' ∉ p.toList)
    (ne : sets ≠ []) :
    (∃ lines, (run options (line source sets)).outcome = .ok lines ∧
        Gathers options source sets lines) ∨
      ∃ e, (run options (line source sets)).outcome = .error e ∧
        FailsLike options source sets e := by
  obtain ⟨source_no_sep, sets_no_sep⟩ := List.forall_mem_cons.1 no_sep
  rw [outcome_run_line no_sep ne]
  cases read : (Expression.parse options source).outcome with
  | error e =>
    -- Already the first of the single requests fails, and as it starts with the expression, too.
    obtain ⟨b, after, rfl⟩ := List.exists_cons_of_ne_nil ne
    refine .inr ⟨e, rfl, [], b, after, e, rfl, by simp, ?_, .inl ⟨read, rfl⟩⟩
    rw [outcome_run_single source_no_sep (sets_no_sep b List.mem_cons_self), read]
    rfl
  | ok x =>
    rcases outcome_evaluateAll x (source.utf8ByteSize + 1) sets with
      ⟨lines, eq, answers⟩ | ⟨before, b, e, ⟨⟨after, rfl⟩, answered, failed⟩, eq⟩
    · have single := (List.forall₂_and_left sets lines).2 ⟨sets_no_sep, answers⟩
      refine .inl ⟨lines, eq, x, read, single.imp fun b text answered => ⟨?_, ?_⟩⟩
      · exact outcome_run_answered source_no_sep answered.1 read answered.2
      · exact exists_of_answer_eq_ok answered.2
    · have b_no_sep : ';' ∉ b.toList := sets_no_sep b (by simp)
      refine .inr ⟨_, eq, before, b, after, _, rfl, fun c hc => ?_,
        outcome_run_failed source_no_sep b_no_sep read failed, .inr ⟨?_, (Error.shift_shift ..).symm⟩⟩
      · obtain ⟨text, answered⟩ := answered c hc
        have c_no_sep : ';' ∉ c.toList := sets_no_sep c (List.mem_append_left _ hc)
        exact ⟨[text], outcome_run_answered source_no_sep c_no_sep read answered⟩
      · exact ⟨x, e, read, parse_of_answer_eq_error failed, rfl⟩

/-- A request with some bindings has an answer exactly if each of the requests with one of them has.
Its lines are then those of the single requests, and otherwise its error is the one of the first
that fails. -/
theorem run_line (no_sep : ∀ p ∈ source :: sets, ';' ∉ p.toList) (ne : sets ≠ []) :
    ((∃ lines, (run options (line source sets)).outcome = .ok lines) ↔
      ∀ b ∈ sets, ∃ lines, (run options (line source [b])).outcome = .ok lines) ∧
    (∀ lines, (run options (line source sets)).outcome = .ok lines →
      Gathers options source sets lines) ∧
    ∀ e, (run options (line source sets)).outcome = .error e →
      FailsLike options source sets e := by
  rcases gathers_or_failsLike options no_sep ne with ⟨lines, eq, gathers⟩ | ⟨e, eq, fails⟩
  · refine ⟨⟨fun _ => gathers.single, fun _ => ⟨lines, eq⟩⟩, fun lines' eq' => ?_, fun e eq' => ?_⟩
    · cases eq.symm.trans eq'
      exact gathers
    · cases eq.symm.trans eq'
  · refine ⟨⟨fun ok => ?_, fun ok => absurd ok fails.single⟩, fun lines eq' => ?_, fun e' eq' => ?_⟩
    · obtain ⟨lines, eq'⟩ := ok
      cases eq.symm.trans eq'
    · cases eq.symm.trans eq'
    · cases eq.symm.trans eq'
      exact fails

/-- Of the bindings `a=5`, `b=3` and `β=2` the last are wrong. Their error is moved by the eight
bytes in front, and the lines of the others are lost. -/
theorem run_line_last_malformed :
    (∀ p ∈ ["a2+b", "a=5", "b=3", "β=2"], ';' ∉ p.toList) ∧
    (run ⟨64⟩ (line "a2+b" ["a=5", "b=3", "β=2"])).outcome =
      .error (.malformedBinding "β=2" ⟨13, 17⟩) ∧
    (run ⟨64⟩ (line "a2+b" ["β=2"])).outcome = .error (.malformedBinding "β=2" ⟨5, 9⟩) ∧
    FailsLike ⟨64⟩ "a2+b" ["a=5", "b=3", "β=2"] (.malformedBinding "β=2" ⟨13, 17⟩) := by
  have no_sep : ∀ p ∈ ["a2+b", "a=5", "b=3", "β=2"], ';' ∉ p.toList := by decide
  have fails : (run ⟨64⟩ (line "a2+b" ["a=5", "b=3", "β=2"])).outcome =
      .error (.malformedBinding "β=2" ⟨13, 17⟩) := by cbv
  have single : (run ⟨64⟩ (line "a2+b" ["β=2"])).outcome =
      .error (.malformedBinding "β=2" ⟨5, 9⟩) := by cbv
  exact ⟨no_sep, fails, single, (run_line no_sep (List.cons_ne_nil _ _)).2.2 _ fails⟩

end Expansion.Request
