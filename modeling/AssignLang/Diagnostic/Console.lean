import AssignLang.Diagnostic.Problem
import AssignLang.Text.Utf8

namespace AssignLang

/-- What ends a computation early. -/
inductive Failure where
  /-- A stage reported the problems that were waiting. -/
  | stopped (stage : Stage) (problems : List Problem)
  /-- A problem that was to be written out has no wording. -/
  | wordless
  | tooDeep
  | notANumber (text : Text)
  | undecodable (cause : Text.Undecodable)

namespace Failure

def message : Failure → Text
  | stopped _ ps => Problem.renderAll ps
  | wordless => "list index out of range".toList
  | tooDeep => "The program is nested too deeply.".toList
  | notANumber t => "could not convert string to float: ".toList ++ t.quote
  | undecodable e => e.message

end Failure

/-- Warnings and problems that wait to be reported, and everything printed so far. -/
structure Console where
  warnings : List Warning := []
  problems : List Problem := []
  printed : Text := []

/-- How much room it takes to report a problem where it is met: to have it wait, to combine the
warnings that wait, to write these out, and to write out the problems. -/
structure Headroom where
  filing : Nat := 0
  combining : Nat := 0
  warning : Nat := 0
  raising : Nat := 0
  filing_le : filing ≤ combining := by decide
  combining_le : combining ≤ warning := by decide
  warning_le : warning ≤ raising := by decide

namespace Console

def print (c : Console) (t : Text) : Console := {c with printed := c.printed ++ t}

def warn (c : Console) (ws : List Warning) : Console := {c with warnings := c.warnings ++ ws}

def warnIllegal (c : Console) (source : Source) (offsets : List Nat) : Console :=
  c.warn (offsets.map (fun o : Nat => ⟨source,⟨o,o+1⟩,true,none⟩))

def file (c : Console) (p : Problem) : Console := {c with problems := c.problems ++ [p]}

def combine (c : Console) : Console := {c with warnings := Warning.combine c.warnings}

/-- Prints the warnings and empties both queues. -/
def flush (c : Console) : Console :=
  ⟨[],[],c.printed ++ Warning.renderAll (Warning.combine c.warnings)⟩

/-- Prints the warnings, and ends a stage with the problems that wait. They go on waiting if one of
those to be written out has no wording. -/
def raise (stage : Stage) (c : Console) : Failure × Console :=
  if (c.problems.take Warning.limit).all Problem.hasWording then (.stopped stage c.problems,c.flush)
  else (.wordless,{c.flush with problems := c.problems})

/-- Prints the warnings, and fails if a problem is waiting. -/
def report (stage : Stage) (c : Console) : Except Failure Unit × Console :=
  if c.problems.isEmpty then (.ok (),c.flush)
  else
    let (f,c) := c.raise stage
    (.error f,c)

/-- The failure of a stage that cannot go on: the new problem is the last of those reported. -/
def fail (c : Console) (source : Source) (span : Span) (fault : Fault) : Failure × Console :=
  (c.file {source,span,fault := some fault}).raise fault.stage

/-- The failure of a stage with only so much room left. If this is not enough to report the problem,
the stage fails for want of room, and the problem may go on waiting. -/
def failWithin (need : Headroom) (room : Nat) (c : Console) (source : Source) (span : Span)
    (fault : Fault) : Failure × Console :=
  let p : Problem := {source,span,fault := some fault}
  if need.raising ≤ room then c.fail source span fault
  else if need.warning ≤ room then (.tooDeep,{c.flush with problems := c.problems ++ [p]})
  else if need.combining ≤ room then (.tooDeep,(c.file p).combine)
  else if need.filing ≤ room then (.tooDeep,c.file p)
  else (.tooDeep,c)

end Console
end AssignLang
