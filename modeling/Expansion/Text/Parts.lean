/-!
# Cutting a text into parts

`parts sep` cuts a text at every `sep`; joining the parts with `sep` gives the text back
(`joinParts_parts`), and cutting what was joined gives the parts back (`parts_joinParts`). `lines`
cuts a text into lines, where a carriage return right before a line feed belongs to the line end
and a last line needs no line feed.
-/

namespace Expansion.Text

/-- Puts a character in front of the first part. -/
def pushFront (c : Char) : List (List Char) → List (List Char)
  | [] => [[c]]
  | p :: ps => (c :: p) :: ps

/-- The parts of the text between the separators. There is one more of them than separators. -/
def parts (sep : Char) (cs : List Char) : List (List Char) :=
  cs.foldr (fun c ps => if c = sep then [] :: ps else pushFront c ps) [[]]

/-- The parts written one after another with a separator between them. -/
def joinParts (sep : Char) : List (List Char) → List Char
  | [] => []
  | [p] => p
  | p :: q :: ps => p ++ sep :: joinParts sep (q :: ps)

@[simp] theorem parts_nil (sep : Char) : parts sep [] = [[]] := rfl

theorem parts_cons (sep c : Char) (cs : List Char) :
    parts sep (c :: cs) = if c = sep then [] :: parts sep cs else pushFront c (parts sep cs) := rfl

theorem parts_ne_nil (sep : Char) (cs : List Char) : parts sep cs ≠ [] := by
  induction cs with
  | nil => simp
  | cons c cs ih =>
    rw [parts_cons]
    split
    · simp
    · cases h : parts sep cs <;> simp [pushFront]

/-- No separator is left in the parts. -/
theorem not_mem_of_mem_parts {sep : Char} {cs p : List Char} (h : p ∈ parts sep cs) : sep ∉ p := by
  induction cs generalizing p with
  | nil => simp_all
  | cons c cs ih =>
    rw [parts_cons] at h
    split at h
    · rcases List.mem_cons.1 h with rfl | h
      · exact List.not_mem_nil
      · exact ih h
    · next ne =>
      match hp : parts sep cs, parts_ne_nil sep cs with
      | q :: qs, _ =>
        rw [hp] at h ih
        rcases List.mem_cons.1 h with rfl | h
        · simpa [Ne.symm ne] using ih List.mem_cons_self
        · exact ih (List.mem_cons_of_mem q h)

theorem joinParts_pushFront (sep c : Char) {ps : List (List Char)} (h : ps ≠ []) :
    joinParts sep (pushFront c ps) = c :: joinParts sep ps := by
  match ps with
  | [] => exact absurd rfl h
  | [p] => rfl
  | p :: q :: ps => rfl

/-- Nothing is lost by cutting a text into parts. -/
theorem joinParts_parts (sep : Char) (cs : List Char) : joinParts sep (parts sep cs) = cs := by
  induction cs with
  | nil => rfl
  | cons c cs ih =>
    rw [parts_cons]
    split
    · next h =>
      match hp : parts sep cs, parts_ne_nil sep cs with
      | p :: ps, _ => simp [joinParts, ← hp, ih, h]
    · rw [joinParts_pushFront sep c (parts_ne_nil sep cs), ih]

theorem parts_append_cons {sep : Char} {p : List Char} (no_sep : sep ∉ p) (cs : List Char) :
    parts sep (p ++ sep :: cs) = p :: parts sep cs := by
  induction p with
  | nil => rw [List.nil_append, parts_cons, if_pos rfl]
  | cons c p ih =>
    rw [List.mem_cons, not_or] at no_sep
    rw [List.cons_append, parts_cons, if_neg (Ne.symm no_sep.1), ih no_sep.2]
    rfl

theorem parts_eq_singleton {sep : Char} {p : List Char} (no_sep : sep ∉ p) : parts sep p = [p] := by
  induction p with
  | nil => rfl
  | cons c p ih =>
    rw [List.mem_cons, not_or] at no_sep
    rw [parts_cons, if_neg (Ne.symm no_sep.1), ih no_sep.2]
    rfl

/-- Parts without separators are found again in the text that they are joined to. -/
theorem parts_joinParts {sep : Char} {ps : List (List Char)} (ne : ps ≠ [])
    (no_sep : ∀ p ∈ ps, sep ∉ p) : parts sep (joinParts sep ps) = ps := by
  match ps with
  | [] => exact absurd rfl ne
  | [p] => exact parts_eq_singleton (no_sep p List.mem_cons_self)
  | p :: q :: ps =>
    rw [joinParts, parts_append_cons (no_sep p List.mem_cons_self)]
    exact congrArg (p :: ·)
      (parts_joinParts (List.cons_ne_nil q ps) fun r hr => no_sep r (List.mem_cons_of_mem p hr))

/-- The line without one carriage return at its end. -/
def dropReturn (line : List Char) : List Char :=
  if line.getLast? = some '\r' then line.dropLast else line

/-- The lines among the parts between line feeds: the last part is a line only if it is not empty,
and only a line that a line feed ends loses its carriage return. -/
def endLines : List (List Char) → List (List Char)
  | [] => []
  | [last] => if last.isEmpty then [] else [last]
  | p :: q :: ps => dropReturn p :: endLines (q :: ps)

/-- The lines of the text, without their ends. -/
def lines (cs : List Char) : List (List Char) := endLines (parts '\n' cs)

end Expansion.Text
