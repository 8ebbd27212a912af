import Expansion.Session.Step

/-!
# Sessions

A *session* is a list of steps. Every step has the register with its own number for its result, and
all steps are run, also after one that failed. Binding a name changes the register that holds the
bindings.
-/

namespace Expansion.Session

/-- The register of a step that answered so. -/
def Answer.content? : Answer → Option Content
  | made c => some c
  | _ => none

/-- The registers with the bindings of the step put into the register that it changes. -/
def Step.update (rs : Registers) (answer : Answer) : Step → Registers
  | bindings (.insert a _ _) => match answer with
    | .bound _ now => rs.set a (some (.bindings now))
    | _ => rs
  | _ => rs

/-- The registers after a step. -/
def Step.next (rs : Registers) (s : Step) : Registers :=
  let answer := s.answer rs
  s.update rs answer ++ [answer.content?]

/-- The answers to the steps, where earlier steps have left the registers. -/
def runFrom (rs : Registers) : List Step → List Answer
  | [] => []
  | s :: steps => s.answer rs :: runFrom (s.next rs) steps

/-- The answers to the steps of a session. -/
def run (steps : List Step) : List Answer := runFrom [] steps

end Expansion.Session
