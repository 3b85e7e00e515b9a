import AssignLang.Text.Digit
import AssignLang.Text.Quoted

namespace AssignLang.CommandLine

inductive Flag where
  | help
  | file
  | output
  | tokens
  | run
  | debug
  deriving DecidableEq

namespace Flag

def all : List Flag := [help,file,output,tokens,run,debug]

def letter? : Flag → Option Char
  | help => some 'h'
  | file => some 'f'
  | output => some 'o'
  | _ => none

def word : Flag → Text
  | help => "--help".toList
  | file => "--file".toList
  | output => "--output".toList
  | tokens => "--tokens".toList
  | run => "--run".toList
  | debug => "--debug".toList

def takesValue : Flag → Bool
  | file | output => true
  | _ => false

def title (f : Flag) : Text :=
  match f.letter? with
  | some c => '-' :: c :: '/' :: f.word
  | none => f.word

def ofLetter? (c : Char) : Option Flag := all.find? (fun f => f.letter? = some c)

def ofName? (t : Text) : Option Flag :=
  all.find? (fun f => f.word = t || f.letter?.map (['-',·]) = some t)

end Flag

/-- Why a command line is refused. -/
inductive Misuse where
  | ambiguous (written : Text) (matching : List Flag)
  | valueMissing (flag : Flag)
  | valueUnwanted (flag : Flag) (value : Text)
  | unrecognized (arguments : List Text)
  deriving DecidableEq

def Misuse.message : Misuse → Text
  | ambiguous t fs =>
    "ambiguous option: ".toList ++ t ++ " could match ".toList ++
      Text.join ", ".toList (fs.map Flag.word)
  | valueMissing f => "argument ".toList ++ f.title ++ ": expected one argument".toList
  | valueUnwanted f v =>
    "argument ".toList ++ f.title ++ ": ignored explicit argument ".toList ++ v.quote
  | unrecognized ts => "unrecognized arguments: ".toList ++ Text.join [' '] ts

/-- What stands in the same argument as a flag: nothing, a text behind its letter, with or without
an equals sign, or one behind its word and an equals sign. -/
inductive Attached where
  | nothing
  | behind (t : Text)
  | assigned (t : Text)
  deriving DecidableEq

/-- An argument of the command line. What stands behind the separator is plain. -/
inductive Item where
  | plain (t : Text)
  | separator
  | flag (f : Flag) (attached : Attached)
  | unknown (t : Text)
  deriving DecidableEq

namespace Item

/-- The texts in front of and behind the first equals sign. -/
def splitEquals? (t : Text) : Option (Text × Text) :=
  match t.dropWhile (· != '=') with
  | [] => none
  | _ :: value => some (t.takeWhile (· != '='),value)

/-- A minus sign and digits of any script, with a point in front of the last of them or none. A line
feed at the end is overlooked. -/
def isNegativeNumber (t : Text) : Bool :=
  let isDigit (c : Char) : Bool := (Text.digitValue? c).isSome
  match t with
  | '-' :: r =>
    let r := if r.getLast? = some '\n' then r.dropLast else r
    match r.dropWhile isDigit with
    | [] => !r.isEmpty
    | '.' :: ds => !ds.isEmpty && ds.all isDigit
    | _ => false
  | _ => false

def beginningWith (word : Text) : List Flag := Flag.all.filter (fun f => word.isPrefixOf f.word)

/-- The flags an argument may stand for: a word may be shortened as long as it is clear which one is
meant, and a letter has its value right behind it. -/
def candidates : Text → List Flag × Attached
  | '-' :: '-' :: r =>
    match splitEquals? r with
    | some (name,value) => (beginningWith ('-' :: '-' :: name),.assigned value)
    | none => (beginningWith ('-' :: '-' :: r),.nothing)
  | '-' :: c :: r => ((Flag.ofLetter? c).toList,.behind r)
  | _ => ([],.nothing)

def ofText (t : Text) : Except Misuse Item :=
  if t.head? ≠ some '-' ∨ t = ['-'] then .ok (plain t)
  else match Flag.ofName? t,splitEquals? t with
    | some f,_ => .ok (flag f .nothing)
    | none,some (name,value) =>
      match Flag.ofName? name with
      | some f => .ok (flag f (if f.word = name then .assigned value else .behind value))
      | none => guess
    | none,none => guess
where
  guess : Except Misuse Item :=
    match candidates t with
    | ([f],attached) => .ok (flag f attached)
    | ([],_) => .ok (if isNegativeNumber t || t.contains ' ' then plain t else unknown t)
    | (fs,_) => .error (.ambiguous t fs)

def ofTexts : List Text → Except Misuse (List Item)
  | [] => .ok []
  | t :: ts =>
    if t = ['-','-'] then .ok (separator :: ts.map plain)
    else do
      let i ← ofText t
      let is ← ofTexts ts
      return i :: is

end Item

/-- What a command line asks for. A file is `none` if its flag has no value but a separator. -/
structure Arguments where
  programs : List Text := []
  files : List (Option Text) := []
  output : Option Text := none
  tokens : Bool := false
  run : Bool := false
  debug : Bool := false
  deriving DecidableEq

/-- The programs are the first plain arguments that stand together. -/
inductive Stretch where
  | before
  | inside
  | behind
  deriving DecidableEq

/-- The arguments read so far, and those nobody knows what to do with. -/
structure Reading where
  arguments : Arguments := {}
  extras : List Text := []
  stretch : Stretch := .before

namespace Reading

def plain (r : Reading) (t : Text) : Reading :=
  match r.stretch with
  | .behind => {r with extras := r.extras ++ [t]}
  | _ =>
    {r with
      arguments := {r.arguments with programs := r.arguments.programs ++ [t]},stretch := .inside}

def separator (r : Reading) : Reading :=
  match r.stretch with
  | .behind => {r with extras := r.extras ++ [['-','-']]}
  | _ => {r with stretch := .inside}

def interrupt (r : Reading) : Reading :=
  match r.stretch with
  | .inside => {r with stretch := .behind}
  | _ => r

def unknown (r : Reading) (t : Text) : Reading := {r.interrupt with extras := r.extras ++ [t]}

def flag (r : Reading) (f : Flag) (value : Option Text) : Reading :=
  let a := r.arguments
  let a := match f with
    | .help => a
    | .file => {a with files := a.files ++ [value]}
    | .output => {a with output := value.filter (fun v => !v.isEmpty)}
    | .tokens => {a with tokens := true}
    | .run => {a with run := true}
    | .debug => {a with debug := true}
  {r.interrupt with arguments := a}

/-- A value in the same argument as its flag. A separator there is no value. -/
def value? (t : Text) : Option Text := if t = ['-','-'] then none else some t

/-- What is wrong with the text behind the letter for help, which takes no value: it must be letters
of flags, up to the first that takes a value. -/
def misuseBehindHelp? (followed : Bool) : Text → Option Misuse
  | [] => some (.valueUnwanted .help [])
  | c :: r =>
    match Flag.ofLetter? c,r with
    | none,_ => some (.valueUnwanted .help (c :: r))
    | some .help,[] => none
    | some .help,_ => misuseBehindHelp? followed r
    | some f,[] => if followed then none else some (.valueMissing f)
    | some _,_ => none

/-- What a command line asks for, or `none` if it asks for help. -/
def collect : List Item → Reading → Except Misuse (Option Arguments)
  | [], r => if r.extras.isEmpty then .ok (some r.arguments) else .error (.unrecognized r.extras)
  | .plain t :: is, r => collect is (r.plain t)
  | .separator :: is, r => collect is r.separator
  | .unknown t :: is, r => collect is (r.unknown t)
  | .flag f .nothing :: is, r =>
    if f = .help then .ok none
    else if f.takesValue then
      match is with
      | .plain v :: is => collect is (r.flag f (some v))
      | _ => .error (.valueMissing f)
    else collect is (r.flag f none)
  | .flag f (.assigned v) :: is, r =>
    if f.takesValue then collect is (r.flag f (value? v)) else .error (.valueUnwanted f v)
  | .flag f (.behind v) :: is, r =>
    if f.takesValue then collect is (r.flag f (value? v))
    else
      let followed := match is with
        | .plain _ :: _ => true
        | _ => false
      match misuseBehindHelp? followed v with
      | some m => .error m
      | none => .ok none

end Reading

/-- Reads a command line. The answer is `none` if it asks for help. -/
def Arguments.ofTexts (ts : List Text) : Except Misuse (Option Arguments) := do
  Reading.collect (← Item.ofTexts ts) {}

end AssignLang.CommandLine
