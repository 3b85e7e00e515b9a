import AssignLang.Diagnostic.Console

namespace AssignLang

/-- A console whose diagnostics can be asked for by number after they were queued, and also after
they gave way to others. -/
structure Register where
  console : Console := {}
  entries : List (Warning ⊕ Problem) := []

namespace Register

def addWarning (r : Register) (source : Source) (span : Span) (illegal : Bool) : Register :=
  let w : Warning := ⟨source,span,illegal,some r.entries.length⟩
  ⟨r.console.warn [w],r.entries ++ [.inl w]⟩

def addProblem (r : Register) (source : Source) (span : Span) : Register :=
  let p : Problem := {source,span,ticket := some r.entries.length}
  ⟨r.console.file p,r.entries ++ [.inr p]⟩

def note (entries : List (Warning ⊕ Problem)) (w : Warning) : List (Warning ⊕ Problem) :=
  match w.ticket with
  | some k => entries.set k (.inl w)
  | none => entries

def combine (r : Register) : Register :=
  ⟨r.console.combine,(Warning.settle r.console.warnings).foldl note r.entries⟩

/-- Runs a step of the console that combines the warnings. -/
def step {α : Type} (r : Register) (f : Console → α × Console) : α × Register :=
  let (a,console) := f r.console
  (a,⟨console,r.combine.entries⟩)

def warning? (r : Register) (k : Nat) : Option Warning := r.entries[k]?.bind Sum.getLeft?

def problem? (r : Register) (k : Nat) : Option Problem := r.entries[k]?.bind Sum.getRight?

/-- Sets how many lines are shown around a registered problem, also while it is waiting. -/
def setContext (r : Register) (k : Nat) (above below : Int) : Register :=
  let change (p : Problem) : Problem := if p.ticket = some k then {p with above,below} else p
  ⟨{r.console with problems := r.console.problems.map change},r.entries.map (Sum.map id change)⟩

end Register
end AssignLang
