import Expansion.Proofs.Context
import Expansion.Proofs.Parsing

/-!
# What the log says about groups

**Theorem (`value_of_mem_log_parse`).** A polynomial that the log gives for a group, or for the
whole text, is the value of that outline.

**Theorem (`mem_log_parse_of_fill`).** There is such a record for every group of a text that is
parsed.
-/

namespace Expansion

/-- What two computations in a row write is what they write one after the other. -/
theorem Logged.mem_log_bind {α β : Type} {x : Logged α} {f : α → Logged β} {r : Record} :
    r ∈ (x >>= f).log ↔ r ∈ x.log ∨ ∃ a, x.outcome = .ok a ∧ r ∈ (f a).log := by
  obtain ⟨log, e | a⟩ := x <;> simp [bind]

namespace Outline

/-- The values of the groups are what is written while the items are found. -/
theorem value_of_mem_log_items {o : Outline} {r : Record} (h : r ∈ o.items.log) :
    ∃ b p, r = .resolvedNode b p ∧ b.itemsOf >>= valueOf = .ok p := by
  induction o with
  | nil => cases h
  | token t rest ih =>
    rw [items] at h
    rcases Logged.mem_log_bind.1 h with inside | ⟨js, -, no_log⟩
    · exact ih inside
    · cases no_log
  | group opening body closing rest ihBody ihRest =>
    rw [items] at h
    rcases Logged.mem_log_bind.1 h with inside | ⟨js, body_items, h⟩
    · exact ihBody inside
    rcases Logged.mem_log_bind.1 h with no_log | ⟨p, value, h⟩
    · cases no_log
    rcases Logged.mem_log_bind.1 h with here | ⟨-, -, h⟩
    · refine ⟨body, p, List.mem_singleton.1 here, ?_⟩
      rw [itemsOf, body_items]
      exact value
    rcases Logged.mem_log_bind.1 h with behind | ⟨ks, -, no_log⟩
    · exact ihRest behind
    · cases no_log

/-- The value of every group is written while the items are found. -/
theorem mem_log_items_fill {C : Context} {b : Outline} {items : List (Item (Operand Value))}
    {p : Polynomial} (h : (C.fill b).itemsOf = .ok items) (value : b.itemsOf >>= valueOf = .ok p) :
    .resolvedNode b p ∈ (C.fill b).items.log := by
  induction C generalizing items with
  | group opening closing rest =>
    obtain ⟨js, body_items, value⟩ := exists_ok_of_bind value
    rw [Context.fill, Outline.items]
    refine Logged.mem_log_bind.2 (.inr ⟨js, body_items, ?_⟩)
    refine Logged.mem_log_bind.2 (.inr ⟨p, value, ?_⟩)
    exact Logged.mem_log_bind.2 (.inl (List.mem_singleton_self _))
  | inside opening C closing rest ih =>
    rw [Context.fill, itemsOf_group] at h
    obtain ⟨q, inner, -⟩ := exists_ok_of_bind h
    obtain ⟨js, filled, -⟩ := exists_ok_of_bind inner
    exact Logged.mem_log_bind.2 (.inl (ih filled))
  | token t C ih =>
    rw [Context.fill, itemsOf_token] at h
    obtain ⟨js, rest, -⟩ := exists_ok_of_bind h
    exact Logged.mem_log_bind.2 (.inl (ih rest))
  | after opening body closing C ih =>
    rw [Context.fill, itemsOf_group] at h
    obtain ⟨q, inner, h⟩ := exists_ok_of_bind h
    obtain ⟨js, body_items, inner⟩ := exists_ok_of_bind inner
    obtain ⟨ks, rest, -⟩ := exists_ok_of_bind h
    rw [Context.fill, Outline.items]
    refine Logged.mem_log_bind.2 (.inr ⟨js, body_items, ?_⟩)
    refine Logged.mem_log_bind.2 (.inr ⟨q, inner, ?_⟩)
    refine Logged.mem_log_bind.2 (.inr ⟨(), rfl, ?_⟩)
    exact Logged.mem_log_bind.2 (.inl (ih rest))

end Outline

namespace Expression

open Outline

/-- A polynomial that is given for an outline in the log is its value. -/
theorem value_of_mem_log_parse {options : Options} {text : String} {b : Outline} {p : Polynomial}
    (h : .resolvedNode b p ∈ (parse options text).log) : b.itemsOf >>= valueOf = .ok p := by
  rw [parse] at h
  rcases Logged.mem_log_bind.1 h with no_log | ⟨o, -, h⟩
  · cases no_log
  rcases Logged.mem_log_bind.1 h with nodes | ⟨q, -, h⟩
  · rw [resolve] at nodes
    rcases Logged.mem_log_bind.1 nodes with inside | ⟨items, whole, nodes⟩
    · obtain ⟨c, q, eq, value⟩ := value_of_mem_log_items inside
      cases eq
      exact value
    rcases Logged.mem_log_bind.1 nodes with no_log | ⟨q, value, nodes⟩
    · cases no_log
    rcases Logged.mem_log_bind.1 nodes with here | ⟨-, -, no_log⟩
    · cases List.mem_singleton.1 here
      rw [itemsOf, whole]
      exact value
    · cases no_log
  · rcases Logged.mem_log_bind.1 h with whole | ⟨-, -, no_log⟩
    · cases List.mem_singleton.1 whole
    · cases no_log

/-- A text that is parsed has a record for each of its groups. -/
theorem mem_log_parse_of_fill {options : Options} {text : String} {e : Expression} {C : Context}
    {b : Outline} {p : Polynomial} (h : (parse options text).outcome = .ok e)
    (whole : ofTokens (tokenize text) = C.fill b) (value : b.itemsOf >>= valueOf = .ok p) :
    .resolvedNode b p ∈ (parse options text).log := by
  obtain ⟨defect, resolved⟩ := parse_ok h
  obtain ⟨items, found, -⟩ := exists_ok_of_bind resolved
  rw [whole] at found
  have read : Outline.parse options text = .ok (C.fill b) := by
    rw [Outline.parse, defect, whole]
  refine Logged.mem_log_bind.2 (.inr ⟨C.fill b, read, Logged.mem_log_bind.2 (.inl ?_)⟩)
  exact Logged.mem_log_bind.2 (.inl (mem_log_items_fill found value))

end Expression

end Expansion
