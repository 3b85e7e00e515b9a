import AssignLang.CommandLine.Arguments
import AssignLang.CommandLine.Directory
import AssignLang.CommandLine.Usage
import AssignLang.Session

namespace AssignLang.CommandLine

/-- The compiler at hand. One that works makes a program of a source, and that prints something. -/
inductive Compiler where
  | missing
  | failing (status : Nat)
  | working (printed : Text → Text)

/-- Why the C program could not be run. -/
inductive Compiler.Fault where
  | missing
  | failed (status : Nat)
  deriving DecidableEq

namespace Compiler

def run (source : Text) : Compiler → Except Fault Text
  | missing => .error .missing
  | failing status => .error (.failed status)
  | working printed => .ok (printed source)

def name : Text := "cc".toList

def command : List Text := [name,"main.c".toList,"-o".toList,"main".toList]

def Fault.message : Fault → Text
  | missing => Access.missing.message name
  | failed status =>
    "Command '[".toList ++ Text.join ", ".toList (command.map Text.quote) ++
      "]' returned non-zero exit status ".toList ++ Text.ofNat status ++ ['.']

end Compiler

structure Surroundings where
  read : Text → Except Access (List UInt8)
  /-- Why a file cannot be written, if it cannot. -/
  unwritable : Text → Option Access
  compiler : Compiler

inductive Ending where
  | exit (status : Nat)
  /-- The command line was answered by its usage. -/
  | usage (status : Nat)
  | failed (cause : Failure)
  | unwritable (cause : Access) (path : Text)
  | pathless
  /-- No path has a null character in it. -/
  | brokenPath

/-- How a run ended, what it printed, and the file it wrote. Diagnostics are in the session. -/
structure Report where
  ending : Ending
  session : Session
  printed : Text := []
  written : Option (Text × Text) := none

def status (failures : Nat) : Nat := if failures = 0 then 0 else 1

def tokenLine (t : Token) : Text := t.kind.code.padRight 10 ++ t.text ++ ['\n']

/-- Prints the tokens of each program, and counts the programs that cannot be read. -/
def listTokens : List Text → Console → Except Failure Nat × Text × Console
  | [], c => (.ok 0,[],c)
  | p :: ps, c =>
    match Source.tokens .standard {text := p} c with
    | (.ok ts,c) =>
      let (r,printed,c) := listTokens ps c
      (r,ts.flatMap tokenLine ++ printed,c)
    | (.error (.stopped stage problems),c) =>
      let message := (Failure.stopped stage problems).message ++ ['\n']
      let (r,printed,c) := listTokens ps (c.print message)
      (r.map (· + 1),printed,c)
    | (.error f,c) => (.error f,[],c)

def unreadable (path : Text) (a : Access) : Text :=
  "Error: Could not read ".toList ++ path.quote ++ ": ".toList ++ a.reason ++ ['\n']

/-- Translates files, and counts those that cannot be read or that something is wrong with. -/
def translateFiles (read : Text → Except Access (List UInt8)) :
    List (Option Text) → Session → Except Ending Nat × Session
  | [], s => (.ok 0,s)
  | none :: _, s => (.error .pathless,s)
  | some path :: paths, s =>
    if path.contains '\x00' then (.error .brokenPath,s)
    else match read path with
    | .error a =>
      let (r,s) := translateFiles read paths (s.print (unreadable path a))
      (r.map (· + 1),s)
    | .ok bytes =>
      match s.translateBytes bytes with
      | (.error f,s) => (.error (.failed f),s)
      | (.ok done,s) =>
        let (r,s) := translateFiles read paths s
        (r.map (fun n => if done then n else n+1),s)

/-- Translates programs, then files, and counts those something is wrong with. -/
def translateEverything (read : Text → Except Access (List UInt8)) (a : Arguments) (s : Session) :
    Except Ending Nat × Session :=
  match s.translateAll a.programs with
  | (.error f,s) => (.error (.failed f),s)
  | (.ok n,s) =>
    let (r,s) := translateFiles read a.files s
    (r.map (n + ·),s)

/-- Runs the C program of a session that is done but for that. -/
def compile (compiler : Compiler) (r : Report) : Report :=
  match compiler.run r.session.listing.render with
  | .ok printed => {r with printed := r.printed ++ printed}
  | .error f =>
    let message := "Error: Could not run the C program: ".toList ++ f.message ++ ['\n']
    {r with ending := .exit 1,session := r.session.print message}

/-- Prints or writes the C program of a session with some failures, and runs it if that is asked
for. -/
def finish (around : Surroundings) (a : Arguments) (failures : Nat) (s : Session) : Report :=
  let code := s.listing.render
  let ending := Ending.exit (status failures)
  let after (r : Report) : Report := if a.run then compile around.compiler r else r
  match a.output with
  | none => after {ending,session := s,printed := code}
  | some path =>
    if path.contains '\x00' then {ending := .brokenPath,session := s}
    else match around.unwritable path with
    | some cause => {ending := .unwritable cause path,session := s}
    | none => after {ending,session := s,written := some (path,code)}

def perform (around : Surroundings) (a : Arguments) (c : Console) : Report :=
  if a.tokens then
    match listTokens a.programs c with
    | (.ok failures,printed,console) =>
      {ending := .exit (status failures),session := {console},printed}
    | (.error f,printed,console) => {ending := .failed f,session := {console},printed}
  else
    match translateEverything around.read a {debug := a.debug,console := c} with
    | (.ok failures,s) => finish around a failures s
    | (.error ending,s) => {ending,session := s}

/-- Runs a command line in its surroundings. What waits in `c` is reported on the way. -/
def run (around : Surroundings) (arguments : List Text) (c : Console) : Report :=
  match Arguments.ofTexts arguments with
  | .error m => {ending := .usage 2,session := {console := c.print (refusal m.message)}}
  | .ok none => {ending := .usage 0,session := {console := c},printed := help}
  | .ok (some a) => perform around a c

/-- What can be reached from a directory. -/
def Surroundings.within (d : Directory) (compiler : Compiler) : Surroundings where
  read := d.read
  unwritable path := match d.writePlace path with
    | .ok _ => none
    | .error a => some a
  compiler := compiler

end AssignLang.CommandLine
