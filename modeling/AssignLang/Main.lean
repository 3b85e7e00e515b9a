import AssignLang.CommandLine.Run

namespace AssignLang.CommandLine

def accessOf (e : IO.Error) : Access :=
  match e with
  | .inappropriateType _ code _ => if code = 21 then .isFolder else .notFolder
  | .invalidArgument .. => .tooLong
  | _ => .missing

def readFile (path : Text) : IO (Except Access (List UInt8)) := do
  try
    return .ok (← IO.FS.readBinFile (String.ofList path)).toList
  catch e =>
    return .error (accessOf e)

/-- Reads the files a command line names ahead of the run. -/
def readFiles (arguments : List Text) : IO (List (Text × Except Access (List UInt8))) := do
  match Arguments.ofTexts arguments with
  | .ok (some a) => (a.files.filterMap id).mapM (fun path => return (path,← readFile path))
  | _ => return []

/-- Writes the file of a report. A report whose file cannot be written ends for that reason. -/
def writeFile (r : Report) : IO Report := do
  match r.written with
  | none => return r
  | some (path,text) =>
    try
      IO.FS.writeBinFile (String.ofList path) (String.ofList text).toUTF8
      return r
    catch e =>
      return {r with ending := .unwritable (accessOf e) path}

def printOutput (t : Text) : IO Unit := do (← IO.getStdout).putStr (String.ofList t)

def printDiagnostics (t : Text) : IO Unit := do (← IO.getStderr).putStr (String.ofList t)

def traceLine : Trace → Text
  | .text t => t ++ ['\n']
  | .value x => (toString x).toList ++ ['\n']

/-- Does what a report tells, and gives the exit status. -/
def carryOut (r : Report) : IO UInt32 := do
  let r ← writeFile r
  printDiagnostics (r.session.traces.flatMap traceLine ++ r.session.console.printed)
  printOutput r.printed
  match r.ending with
  | .exit n | .usage n => return n.toUInt32
  | .failed f =>
    printDiagnostics (f.message ++ ['\n'])
    return 1
  | .unwritable a path =>
    printDiagnostics (a.message path ++ ['\n'])
    return 1
  | .pathless =>
    printDiagnostics "A file has no path.\n".toList
    return 1
  | .brokenPath =>
    printDiagnostics "embedded null byte\n".toList
    return 1

end AssignLang.CommandLine

open AssignLang.CommandLine in
def main (arguments : List String) : IO UInt32 := do
  let arguments := arguments.map String.toList
  let files ← readFiles arguments
  let read path := (files.lookup path).getD (.error .missing)
  carryOut (run ⟨read,fun _ => none,.missing⟩ arguments {})
