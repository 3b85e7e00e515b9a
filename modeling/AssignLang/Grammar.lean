import AssignLang.Tree.Basic

namespace AssignLang

/-- Why reading tokens stopped, and what was still to come there. `room` was left then. -/
inductive Stop where
  | unexpected (wanted : List Kind) (rest : List Token) (room : Nat)
  | tooDeep (rest : List Token)

abbrev Reader (α : Type) := List Token → Except Stop (α × List Token)

namespace Grammar

def isSum (k : Kind) : Bool := k = .plus || k = .minus

def isProduct (k : Kind) : Bool := k = .star || k = .slash

/-- The kinds a factor may start with. -/
def factorStarts : List Kind := [.minus,.lparen,.number,.name]

def take (room : Nat) (k : Kind) : Reader Token
  | [] => .error (.unexpected [k] [] room)
  | t :: ts => if t.kind = k then .ok (t,ts) else .error (.unexpected [k] (t :: ts) room)

/-- Reads up to `n` times an operator and an operand behind `left`, and groups them to the left. -/
def chain (isOperator : Kind → Bool) (operand : Reader Tree) : Nat → Tree → Reader Tree
  | _, left, [] => .ok (left,[])
  | 0, left, ts => .ok (left,ts)
  | n+1, left, op :: ts =>
    if isOperator op.kind then
      match operand ts with
      | .error e => .error e
      | .ok (right,ts) =>
        chain isOperator operand n (.binary (left.span.join right.span) left op right) ts
    else .ok (left,op :: ts)

mutual

/-- A sum of terms. Each level of nesting uses up room. -/
def expression : Nat → Reader Tree
  | 0, ts => .error (.tooDeep ts)
  | room+1, ts =>
    match term room ts with
    | .error e => .error e
    | .ok (left,ts) => chain isSum (term room) ts.length left ts

/-- A product of factors. -/
def term : Nat → Reader Tree
  | 0, ts => .error (.tooDeep ts)
  | room+1, ts =>
    match factor room ts with
    | .error e => .error e
    | .ok (left,ts) => chain isProduct (factor room) ts.length left ts

/-- A number, a name, a group, or a factor behind a minus sign. -/
def factor : Nat → Reader Tree
  | 0, ts => .error (.tooDeep ts)
  | room+1, [] => .error (.unexpected factorStarts [] room)
  | room+1, t :: ts =>
    match t.kind with
    | .minus =>
      match factor room ts with
      | .error e => .error e
      | .ok (operand,ts) => .ok (.unary (t.span.join operand.span) t operand,ts)
    | .lparen =>
      match expression room ts with
      | .error e => .error e
      | .ok (inner,ts) =>
        match take room .rparen ts with
        | .error e => .error e
        | .ok (close,ts) => .ok (.group (t.span.join close.span) inner,ts)
    | .number => .ok (.number t.span t,ts)
    | .name => .ok (.name t.span t,ts)
    | _ => .error (.unexpected factorStarts (t :: ts) room)

end

/-- A name, an equals sign, an expression and a semicolon. -/
def statement (room : Nat) : Reader Tree := fun ts => do
  let (target,ts) ← take room .name ts
  let (_,ts) ← take room .equals ts
  let (value,ts) ← expression room ts
  let (semicolon,ts) ← take room .semicolon ts
  return (.assign ((target.span.join value.span).join semicolon.span) target value,ts)

/-- Up to `n` statements, through the end or through a token that stands for the end. -/
def statements (room : Nat) : Nat → Reader (List Tree)
  | _, [] => .ok ([],[])
  | 0, ts => .ok ([],ts)
  | n+1, t :: ts =>
    if t.kind = .eof then .ok ([],t :: ts)
    else do
      let (s,ts) ← statement room (t :: ts)
      let (ss,ts) ← statements room n ts
      return (s :: ss,ts)

/-- Room enough for any nesting of `n` tokens: no token opens more than three levels. -/
def ample (n : Nat) : Nat := 3*n+3

end Grammar
end AssignLang
