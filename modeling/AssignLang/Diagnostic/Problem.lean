import AssignLang.Diagnostic.Warning

namespace AssignLang

/-- What a program goes through. Each stage reports what went wrong in it. -/
inductive Stage where
  | translator
  | scanner
  | parser
  | evaluator
  deriving DecidableEq

/-- Why a stage cannot go on. -/
inductive Fault where
  | unrecoverable
  | unexpected (position : Int) (expected : List Token) (got : Token)
  | undefined (name : Text)
  | unevaluable (node : Text)
  deriving DecidableEq

def Fault.stage : Fault → Stage
  | unrecoverable => .translator
  | unexpected .. => .parser
  | undefined _ => .evaluator
  | unevaluable _ => .evaluator

/-- An error at a place of a program, shown with `above` and `below` lines around it. One without a
fault waits until a stage reports. `ticket` is the number under which it was registered. -/
structure Problem where
  source : Source
  span : Span
  fault : Option Fault := none
  above : Int := 1
  below : Int := 1
  ticket : Option Nat := none
  deriving DecidableEq

namespace Problem

def defaultLabel : Text := "TranslatorError".toList

def explain (p : Problem) (before : Text) (after : Text := []) (label : Text := defaultLabel) :
    Text :=
  (Notice.mk label before after p.above p.below .red).render p.source.text p.span

def chars (p : Problem) : Text := Text.slice p.source.text p.span.start p.span.stop

/-- "a, b or c". -/
def alternatives : List Text → Text
  | [] => []
  | [t] => t
  | [t,u] => t ++ " or ".toList ++ u
  | t :: ts => t ++ ", ".toList ++ alternatives ts

def outline (label : Text) (p : Problem) : Text :=
  label ++ "(program=".toList ++ p.source.text.quote ++ ", span=".toList ++ p.span.outline ++
    ", n_before=".toList ++ Text.ofInt p.above ++ ", n_after=".toList ++ Text.ofInt p.below ++ [')']

/-- A token is unexpected only where something else was expected, so without any alternative there
is nothing to say. -/
def hasWording (p : Problem) : Bool :=
  match p.fault with
  | some (.unexpected _ [] _) => false
  | _ => true

def message (p : Problem) : Text :=
  match p.fault with
  | none => p.outline defaultLabel
  | some .unrecoverable => p.outline "UnrecoverableError".toList
  | some (.unexpected position expected got) =>
    p.explain ("Expected ".toList ++ alternatives (expected.map Token.describe) ++
      ", but got ".toList ++ got.describe ++ " instead at position ".toList ++
      Text.ofInt position ++ ['.']) [] "SyntaxError".toList
  | some (.undefined name) =>
    p.explain
      ("Undefined variable: ".toList ++ name.quote ++ " at ".toList ++ p.span.place ++ ['.'])
      [] "EvaluationError".toList
  | some (.unevaluable node) =>
    p.explain ("Cannot evaluate a ".toList ++ node ++ " at ".toList ++ p.span.place ++ ['.'])
      [] "EvaluationError".toList

def renderAll (ps : List Problem) : Text :=
  Text.join ['\n','\n'] ((ps.take Warning.limit).map message) ++
    (if ps.length ≤ Warning.limit then []
     else ['\n','\n'] ++ Warning.omission "error".toList ps.length)

end Problem
end AssignLang
