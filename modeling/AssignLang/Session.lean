import AssignLang.Listing
import AssignLang.Tree.Bounded
import AssignLang.Tree.Value

namespace AssignLang

inductive Trace where
  | text (t : Text)
  | value (x : Float)

/-- What a program was going through when it was given up. -/
inductive Phase where
  | reading
  | evaluating
  deriving DecidableEq

def Phase.label : Phase → Text
  | reading => "SyntaxError".toList
  | evaluating => "EvaluationError".toList

/-- Programs one after another. They share the store, and their code is collected. `copies` is the
number of files read so far. -/
structure Session where
  nesting : Nesting := .standard
  debug : Bool := false
  store : Store := {}
  code : Text := []
  traces : List Trace := []
  console : Console := {}
  copies : Nat := 0

namespace Session

def print (s : Session) (t : Text) : Session := {s with console := s.console.print t}

def trace (s : Session) (t : Trace) : Session :=
  if s.debug then {s with traces := s.traces ++ [t]} else s

def traceTree (s : Session) (t : Tree) : Except Failure Unit × Session :=
  if s.debug then
    match t.outlineWithin s.nesting with
    | .ok outline => (.ok (),s.trace (.text outline))
    | .error f => (.error f,s)
  else (.ok (),s)

/-- Reads the first statement of a program, or all of them as a block. -/
def read (full : Bool) (source : Source) (s : Session) : Except Failure Tree × Session :=
  match (if full then source.block else source.statement) .standard s.nesting s.console with
  | (.error f,console) => (.error f,{s with console})
  | (.ok t,console) =>
    let (r,s) := {s with console}.traceTree t
    (r.map (fun _ => t),s)

/-- Adds the code of a tree, unless it is empty, and ends its line. -/
def append (t : Tree) (s : Session) : Except Failure Unit × Session :=
  match t.codeWithin s.nesting with
  | .error f => (.error f,s)
  | .ok fragment =>
    let s := s.trace (.text fragment)
    (.ok (),if fragment.isEmpty then s else {s with code := s.code ++ fragment ++ ['\n']})

/-- Evaluates a statement, and adds its code if it has a value. -/
def execute (source : Source) (t : Tree) (s : Session) : Except Failure Unit × Session :=
  match t.evaluate s.nesting source s.store s.console with
  | (.error f,store,console) => (.error f,{s with store,console})
  | (.ok x,store,console) => ({s with store,console}.trace (.value x)).append t

def executeAll (source : Source) : List Tree → Session → Except Failure Unit × Session
  | [], s => (.ok (),s)
  | t :: ts, s =>
    match s.execute source t with
    | (.error f,s) => (.error f,s)
    | (.ok (),s) => s.executeAll source ts

/-- Reports why a program is given up. What no program can be blamed for goes on as a failure. -/
def giveUp (phase : Phase) (f : Failure) (s : Session) : Except Failure Bool × Session :=
  match f with
  | .stopped .. => (.ok false,s.print (f.message ++ ['\n']))
  | .tooDeep => (.ok false,s.print (phase.label ++ ": ".toList ++ f.message ++ ['\n']))
  | _ => (.error f,s)

/-- Translates one program, or only its first statement, and says whether nothing was wrong with it.
Statements in front of a failing one keep their effect. -/
def translate (full : Bool) (source : Source) (s : Session) : Except Failure Bool × Session :=
  match (s.trace (.text source.text)).read full source with
  | (.error f,s) => s.giveUp .reading f
  | (.ok t,s) =>
    match s.executeAll source t.statements with
    | (.error f,s) => s.giveUp .evaluating f
    | (.ok (),s) => (.ok true,s)

/-- Translates the first statement of each program, and counts the programs something was wrong
with. -/
def translateAll : List Text → Session → Except Failure Nat × Session
  | [], s => (.ok 0,s)
  | p :: ps, s =>
    match s.translate false {text := p} with
    | (.error f,s) => (.error f,s)
    | (.ok done,s) =>
      let (r,s) := s.translateAll ps
      (r.map (fun n => if done then n else n+1),s)

/-- Translates all of a file. -/
def translateBytes (bytes : List UInt8) (s : Session) : Except Failure Bool × Session :=
  match Text.ofBytes bytes with
  | .error e => (.error (.undecodable e),s)
  | .ok text => {s with copies := s.copies+1}.translate true ⟨text,s.copies+1⟩

def listing (s : Session) : Listing := ⟨s.code,s.store⟩

end Session
end AssignLang
