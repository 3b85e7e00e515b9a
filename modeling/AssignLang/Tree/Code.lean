import AssignLang.Tree.Basic

namespace AssignLang

/-- An operator in front of its operand. Two minus signs are kept apart, for C would read them as
one operator. -/
def attach (operator operand : Text) : Text :=
  if operator = ['-'] ∧ operand.head? = some '-' then operator ++ ' ' :: operand
  else operator ++ operand

namespace Tree

mutual

/-- The tree as C. Which operand belongs to which operator is left to the shape of the tree, and
only groups have parentheses. -/
def code : Tree → Text
  | leaf _ => []
  | number _ t => t.text
  | name _ t => t.text
  | unary _ op t => attach op.text t.code
  | binary _ l op r => l.code ++ attach op.text r.code
  | group _ t => '(' :: t.code ++ [')']
  | assign _ x t => x.text ++ " = ".toList ++ t.code ++ [';']
  | block _ ts => Text.join ['\n'] (codeAll ts)

def codeAll : List Tree → List Text
  | [] => []
  | t :: ts => t.code :: codeAll ts

end

end Tree
end AssignLang
