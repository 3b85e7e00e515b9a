import AssignLang.Diagnostic.Console
import AssignLang.Numeral
import AssignLang.Reading
import AssignLang.Store

namespace AssignLang

/-- What keeps a tree from having a value. -/
inductive Obstacle where
  | undefined (span : Span) (name : Text)
  | unevaluable (span : Span) (node : Text)
  | notANumber (text : Text)
  | tooDeep

/-- The quotient of two numbers, unless the divisor is zero. -/
def quotient? (left right : Float) : Option Float :=
  if right == 0.0 then none else some (left/right)

/-- The magnitude of a number with the sign of another one, which is the highest bit. -/
def copySign (x sign : Float) : Float :=
  if sign.toBits.toNat ≥ 0x8000000000000000 then -x.abs else x.abs

/-- IEEE division: a zero divisor gives an infinity of the sign of the quotient, or no number. -/
def divide? (left right : Float) : Option Float :=
  if right == 0.0 then
    if left == 0.0 || left.isNaN then some (0.0/0.0)
    else some (copySign (1.0/0.0) left * copySign 1.0 right)
  else quotient? left right

theorem isSome_divide? (left right : Float) : (divide? left right).isSome := by
  unfold divide?
  split
  · split <;> rfl
  · rename_i h
    rw [quotient?,if_neg h]
    rfl

def divide (left right : Float) : Float := (divide? left right).get (isSome_divide? left right)

theorem divide?_eq (left right : Float) : divide? left right = some (divide left right) :=
  (Option.some_get (isSome_divide? left right)).symm

def arithmetic? : Kind → Option (Float → Float → Float)
  | .plus => some (· + ·)
  | .minus => some (· - ·)
  | .star => some (· * ·)
  | .slash => some divide
  | _ => none

namespace Tree

mutual

/-- The value of a tree, and the store afterwards, which keeps all assignments made on the way even
if an obstacle was met. Left comes before right, a value before its assignment, and each node needs
one unit of room. -/
def value : Tree → Nat → Store → Except Obstacle Float × Store
  | _, 0, s => (.error .tooDeep,s)
  | t@(leaf span), _+1, s => (.error (.unevaluable span t.label),s)
  | number _ a, _+1, s =>
    match Numeral.ofText? a.text with
    | some n => (.ok n.toFloat,s)
    | none => (.error (.notANumber a.text),s)
  | name span a, _+1, s =>
    match s.get? a.text with
    | some x => (.ok x,s)
    | none => (.error (.undefined span a.text),s)
  | t@(unary span op operand), room+1, s =>
    if op.kind = .minus then
      match operand.value room s with
      | (.ok x,s) => (.ok (-x),s)
      | (.error e,s) => (.error e,s)
    else (.error (.unevaluable span t.label),s)
  | t@(binary span left op right), room+1, s =>
    match left.value room s with
    | (.error e,s) => (.error e,s)
    | (.ok x,s) =>
      match right.value room s with
      | (.error e,s) => (.error e,s)
      | (.ok y,s) =>
        match arithmetic? op.kind with
        | some f => (.ok (f x y),s)
        | none => (.error (.unevaluable span t.label),s)
  | group _ inner, room+1, s => inner.value room s
  | assign _ target t, room+1, s =>
    match t.value room s with
    | (.ok x,s) => (.ok x,s.put target.text x)
    | (.error e,s) => (.error e,s)
  | block _ ts, room+1, s => valueAll ts room s 0.0

/-- The value of the last tree, or `last` if there is none. -/
def valueAll : List Tree → Nat → Store → Float → Except Obstacle Float × Store
  | [], _, s, last => (.ok last,s)
  | t :: ts, room, s, _ =>
    match t.value room s with
    | (.ok x,s) => valueAll ts room s x
    | (.error e,s) => (.error e,s)

end

mutual

/-- The room that is left below the node at which evaluation ends. -/
def roomLeft : Tree → Nat → Store → Nat
  | _, 0, _ => 0
  | leaf _, room+1, _ => room
  | number _ _, room+1, _ => room
  | name _ _, room+1, _ => room
  | unary _ op operand, room+1, s => if op.kind = .minus then operand.roomLeft room s else room
  | binary _ left _ right, room+1, s =>
    match left.value room s with
    | (.error _,_) => left.roomLeft room s
    | (.ok _,s) =>
      match right.value room s with
      | (.error _,_) => right.roomLeft room s
      | (.ok _,_) => room
  | group _ inner, room+1, s => inner.roomLeft room s
  | assign _ _ t, room+1, s => t.roomLeft room s
  | block _ ts, room+1, s => roomLeftAll ts room s

def roomLeftAll : List Tree → Nat → Store → Nat
  | [], room, _ => room
  | t :: ts, room, s =>
    match t.value room s with
    | (.ok _,s) => roomLeftAll ts room s
    | (.error _,_) => t.roomLeft room s

end

/-- Reports what was met in a tree of `source` where its evaluation ended. -/
def report (nesting : Nesting) (source : Source) (t : Tree) (s : Store) (c : Console)
    (span : Span) (fault : Fault) : Failure × Console :=
  c.failWithin nesting.walkingNeeds (t.roomLeft (nesting.walkingRoom t) s) source span fault

/-- Evaluates a tree of `source`. An obstacle in it is reported. -/
def evaluate (nesting : Nesting) (source : Source) (t : Tree) (s : Store) (c : Console) :
    Except Failure Float × Store × Console :=
  match t.value (nesting.walkingRoom t) s with
  | (.ok x,s) => (.ok x,s,c)
  | (.error (.undefined span x),s') =>
    let (f,c) := t.report nesting source s c span (.undefined x)
    (.error f,s',c)
  | (.error (.unevaluable span node),s') =>
    let (f,c) := t.report nesting source s c span (.unevaluable node)
    (.error f,s',c)
  | (.error (.notANumber a),s) => (.error (.notANumber a),s,c)
  | (.error .tooDeep,s) => (.error .tooDeep,s,c)

/-- Looks a variable up, and reports one that was never assigned. -/
def lookup (source : Source) (span : Span) (x : Text) (s : Store) (c : Console) :
    Except Failure Float × Console :=
  match s.get? x with
  | some v => (.ok v,c)
  | none => let (f,c) := c.fail source span (.undefined x); (.error f,c)

end Tree
end AssignLang
