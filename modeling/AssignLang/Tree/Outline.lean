import AssignLang.Tree.Basic

namespace AssignLang.Tree

mutual

/-- The tree as nested terms, without its places. -/
def outline : Tree → Text
  | t@(leaf _) => t.label ++ "()".toList
  | t@(number _ a) => t.label ++ "(token=".toList ++ a.outline ++ [')']
  | t@(name _ a) => t.label ++ "(id=".toList ++ a.outline ++ [')']
  | t@(unary _ op u) =>
    t.label ++ "(operator=".toList ++ op.outline ++ ", operand=".toList ++ u.outline ++ [')']
  | t@(binary _ l op r) =>
    t.label ++ "(left=".toList ++ l.outline ++ ", operator=".toList ++ op.outline ++
      ", right=".toList ++ r.outline ++ [')']
  | t@(group _ u) => t.label ++ "(exp=".toList ++ u.outline ++ [')']
  | t@(assign _ x u) =>
    t.label ++ "(id=".toList ++ x.outline ++ ", exp=".toList ++ u.outline ++ [')']
  | t@(block _ ts) =>
    t.label ++ "(body=[".toList ++ Text.join ", ".toList (outlineAll ts) ++ "])".toList

def outlineAll : List Tree → List Text
  | [] => []
  | t :: ts => t.outline :: outlineAll ts

end

end AssignLang.Tree
