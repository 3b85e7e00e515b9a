import AssignLang.Reading
import AssignLang.Tree.Code
import AssignLang.Tree.Outline

namespace AssignLang.Tree

/-- The code of a tree, unless it is too deep to be written. -/
def codeWithin (nesting : Nesting) (t : Tree) : Except Failure Text :=
  if t.height ≤ nesting.writingRoom t then .ok t.code else .error .tooDeep

/-- What is shown of a tree, unless it is too deep to be walked. -/
def outlineWithin (nesting : Nesting) (t : Tree) : Except Failure Text :=
  if t.height ≤ nesting.walkingRoom t then .ok t.outline else .error .tooDeep

end AssignLang.Tree
