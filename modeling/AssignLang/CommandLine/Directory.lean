import AssignLang.Text.Utf8

namespace AssignLang.CommandLine

/-- Why a file cannot be read or written. -/
inductive Access where
  | missing
  | notFolder
  | isFolder
  | tooLong
  deriving DecidableEq

namespace Access

def reason : Access → Text
  | missing => "No such file or directory".toList
  | notFolder => "Not a directory".toList
  | isFolder => "Is a directory".toList
  | tooLong => "File name too long".toList

def number : Access → Nat
  | missing => 2
  | notFolder => 20
  | isFolder => 21
  | tooLong => 36

/-- The full wording, with the file that was wanted. -/
def message (a : Access) (path : Text) : Text :=
  "[Errno ".toList ++ Text.ofNat a.number ++ "] ".toList ++ a.reason ++ ": ".toList ++ path.quote

end Access

/-- The names of a path, which are empty between two slashes and behind the last one. -/
def names : Text → List Text
  | [] => [[]]
  | c :: r =>
    if c = '/' then [] :: names r
    else match names r with
      | [] => [[c]]
      | n :: ns => (c :: n) :: ns

/-- No name has more than 255 bytes, and no path more than 4095. -/
def fitsName (name : Text) : Bool := name.toBytes.length ≤ 255

def fitsPath (path : Text) : Bool := path.toBytes.length ≤ 4095

/-- The files and folders of a folder at any depth, each with its names from there. -/
structure Directory where
  files : List (List Text × List UInt8)
  folders : List (List Text)

namespace Directory

def isFolder (d : Directory) (place : List Text) : Bool :=
  place.isEmpty || d.folders.any (fun f => place.isPrefixOf f) ||
    d.files.any (fun f => place.isPrefixOf f.1.dropLast)

def file? (d : Directory) (place : List Text) : Option (List UInt8) := d.files.lookup place

/-- Whether a name leads to the folder itself or to the one around it. -/
def isDots (name : Text) : Bool := name = [] || name = ['.'] || name = ['.','.']

/-- The folder that `name` leads to. A folder outside the directory is `none`. Nothing is known to
be in there, but it may be written to. -/
def enter (d : Directory) (here : Option (List Text)) (name : Text) :
    Except Access (Option (List Text)) :=
  if name = [] ∨ name = ['.'] then .ok here
  else if name = ['.','.'] then
    .ok (here.bind (fun place => if place = [] then none else some place.dropLast))
  else if !fitsName name then .error .tooLong
  else match here with
    | none => .error .missing
    | some place =>
      let inner := place ++ [name]
      if d.isFolder inner then .ok (some inner)
      else if (d.file? inner).isSome then .error .notFolder
      else .error .missing

def enterAll (d : Directory) : Option (List Text) → List Text → Except Access (Option (List Text))
  | here, [] => .ok here
  | here, n :: ns => do d.enterAll (← d.enter here n) ns

/-- A path from the root leads outside. -/
def start (path : Text) : Option (List Text) := if path.head? = some '/' then none else some []

/-- The place that the last of some names leads to, if it is no folder. -/
def place (d : Directory) (here : Option (List Text)) (name : Text) :
    Except Access (Option (List Text)) :=
  if isDots name then .error .isFolder
  else if !fitsName name then .error .tooLong
  else match here with
    | none => .ok none
    | some folder =>
      if d.isFolder (folder ++ [name]) then .error .isFolder else .ok (some (folder ++ [name]))

def read (d : Directory) (path : Text) : Except Access (List UInt8) := do
  if path.isEmpty then .error .missing
  else if !fitsPath path then .error .tooLong
  else
    let ns := names path
    let here ← d.enterAll (start path) ns.dropLast
    let place ← d.place here (ns.getLastD [])
    match place.bind d.file? with
    | some bytes => .ok bytes
    | none => .error .missing

/-- The place where a file can be written. Slashes behind a name ask for a folder. -/
def writePlace (d : Directory) (path : Text) : Except Access (Option (List Text)) := do
  if path.isEmpty then .error .missing
  else if !fitsPath path then .error .tooLong
  else
    let ns := names path
    let named := (ns.reverse.dropWhile List.isEmpty).reverse
    let here ← d.enterAll (start path) named.dropLast
    if ns.getLast? = some [] then .error .isFolder
    else d.place here (named.getLastD [])

/-- The files that differ after `text` was written to `path`, by their path from the directory. -/
def changes (d : Directory) (path text : Text) : List (Text × Text) :=
  match d.writePlace path with
  | .ok (some place) =>
    if d.file? place = some text.toBytes then [] else [(Text.join ['/'] place,text)]
  | _ => []

end Directory
end AssignLang.CommandLine
