import AssignLang.Proofs.Tree.Spelling
import AssignLang.Session

namespace AssignLang

/-- A value of C. Variables and constants with a point are doubles, other constants are integers.
These have no bounds. -/
inductive Quantity where
  | integer (n : Int)
  | double (x : Float)
  deriving DecidableEq

namespace Quantity

def isInteger : Quantity → Bool
  | integer _ => true
  | double _ => false

def toFloat : Quantity → Float
  | integer n => .ofInt n
  | double x => x

def neg : Quantity → Quantity
  | integer n => integer (-n)
  | double x => double (-x)

/-- Integer arithmetic, with division towards zero. There is none by zero. -/
def whole? : Kind → Int → Int → Option Int
  | .plus, m, n => some (m+n)
  | .minus, m, n => some (m-n)
  | .star, m, n => some (m*n)
  | .slash, m, n => if n = 0 then none else some (m.tdiv n)
  | _, _, _ => none

/-- Two integers make an integer. If there is a double, the other operand becomes one. -/
def combine? (k : Kind) : Quantity → Quantity → Option Quantity
  | integer m, integer n => (whole? k m n).map integer
  | x, y => (arithmetic? k).map fun f => double (f x.toFloat y.toFloat)

/-- The number of octal digits, if all are. -/
def octal? (ds : Text) : Option Nat :=
  if ds.all fun c => '0' ≤ c && c ≤ '7' then
    some (ds.foldl (fun n c => 8*n+(c.toNat - '0'.toNat)) 0)
  else none

/-- A zero in front of further digits makes them octal. -/
def ofConstant? (t : Text) : Option Quantity :=
  if '.' ∈ t then (Numeral.ofText? t).map fun n => double n.toFloat
  else match t with
    | '0' :: d :: ds => (octal? (d :: ds)).map fun n => integer n
    | ds => some (integer (Numeral.naturalOf ds))

end Quantity

namespace Tree

/-- What an expression means in C, where the store has the variables that were assigned. -/
def meaning? : Tree → Store → Option Quantity
  | number _ a, _ => Quantity.ofConstant? a.text
  | name _ a, s => (s.get? a.text).map .double
  | unary _ op t, s => if op.kind = .minus then (t.meaning? s).map .neg else none
  | binary _ l op r, s =>
    (l.meaning? s).bind fun x => (r.meaning? s).bind fun y => x.combine? op.kind y
  | group _ t, s => t.meaning? s
  | _, _ => none

/-- Runs an assignment of C. The value becomes a double. -/
def exec? : Tree → Store → Option Store
  | assign _ x t, s => (t.meaning? s).map fun q => s.put x.text q.toFloat
  | _, _ => none

/-- An expression that C takes for an integer. -/
def isInteger : Tree → Bool
  | number _ a => '.' ∉ a.text
  | unary _ _ t => t.isInteger
  | binary _ l _ r => l.isInteger && r.isInteger
  | group _ t => t.isInteger
  | _ => false

/-- The largest parts that C takes for integers. -/
def integers : Tree → List Tree
  | t@(number ..) => if t.isInteger then [t] else []
  | t@(unary _ _ u) => if t.isInteger then [t] else u.integers
  | t@(binary _ l _ r) => if t.isInteger then [t] else l.integers ++ r.integers
  | t@(group _ u) => if t.isInteger then [t] else u.integers
  | assign _ _ t => t.integers
  | _ => []

/-- A constant that means in C what it is evaluated to. -/
def Exact (t : Tree) : Prop :=
  (t.meaning? {}).map Quantity.toFloat = (t.value t.height {}).1.toOption

instance (t : Tree) : Decidable t.Exact :=
  inferInstanceAs (Decidable ((t.meaning? {}).map Quantity.toFloat = _))

end Tree

namespace Listing

/-- A line of C as an assignment, if C does not take some of its characters together. -/
def statement? (line : Text) : Option Tree :=
  if line.IsPlainC then (Source.statement .standard .unlimited ⟨line,0⟩ {}).1.toOption else none

def runLines? : List Text → Store → Option Store
  | [], s => some s
  | l :: ls, s => (statement? l).bind fun t => (t.exec? s).bind fun s => runLines? ls s

/-- Runs the assignments of a C program, and gives the variables in the end. -/
def run? (l : Listing) : Option Store := runLines? l.code.lines {}

end Listing
end AssignLang
