import AssignLang.Token.Basic

namespace AssignLang

/-- A program as a tree. A `leaf` says nothing. -/
inductive Tree where
  | leaf (span : Span)
  | number (span : Span) (token : Token)
  | name (span : Span) (token : Token)
  | unary (span : Span) (operator : Token) (operand : Tree)
  | binary (span : Span) (left : Tree) (operator : Token) (right : Tree)
  | group (span : Span) (inner : Tree)
  | assign (span : Span) (target : Token) (value : Tree)
  | block (span : Span) (body : List Tree)

namespace Tree

def span : Tree → Span
  | leaf s => s
  | number s _ => s
  | name s _ => s
  | unary s _ _ => s
  | binary s _ _ _ => s
  | group s _ => s
  | assign s _ _ => s
  | block s _ => s

def label : Tree → Text
  | leaf _ => "Node".toList
  | number .. => "NumNode".toList
  | name .. => "VariableNode".toList
  | unary .. => "Op1Node".toList
  | binary .. => "Op2Node".toList
  | group .. => "GroupNode".toList
  | assign .. => "StmtAssNode".toList
  | block .. => "StmtListNode".toList

/-- The statements of a block; any other tree is one. -/
def statements : Tree → List Tree
  | block _ body => body
  | t => [t]

mutual

/-- How many nodes lie above each other. -/
def height : Tree → Nat
  | leaf _ | number .. | name .. => 1
  | unary _ _ t => t.height+1
  | binary _ l _ r => max l.height r.height+1
  | group _ t => t.height+1
  | assign _ _ t => t.height+1
  | block _ ts => heightAll ts+1

def heightAll : List Tree → Nat
  | [] => 0
  | t :: ts => max t.height (heightAll ts)

end

mutual

/-- Equality up to the places. -/
def same : Tree → Tree → Bool
  | leaf _, leaf _ => true
  | number _ a, number _ b => a.same b
  | name _ a, name _ b => a.same b
  | unary _ a t, unary _ b u => a.same b && t.same u
  | binary _ l a r, binary _ l' b r' => l.same l' && a.same b && r.same r'
  | group _ t, group _ u => t.same u
  | assign _ a t, assign _ b u => a.same b && t.same u
  | block _ ts, block _ us => sameAll ts us
  | _, _ => false

def sameAll : List Tree → List Tree → Bool
  | [], [] => true
  | t :: ts, u :: us => t.same u && sameAll ts us
  | _, _ => false

end

end Tree
end AssignLang
