import AssignLang.Token.Basic

namespace AssignLang

/-- Which texts are operators, and which names are reserved, each with its kind. -/
structure Vocabulary where
  operators : List (Text × Kind)
  keywords : List (Text × Kind)

namespace Vocabulary

def standard : Vocabulary where
  operators :=
    [(['='],.equals),(['+'],.plus),(['-'],.minus),(['*'],.star),(['/'],.slash),(['('],.lparen),
      ([')'],.rparen),([';'],.semicolon)]
  keywords := []

/-- Further operators and keywords, which win over those already there. -/
def extend (v : Vocabulary) (operators keywords : List (Text × Kind)) : Vocabulary :=
  ⟨operators ++ v.operators,keywords ++ v.keywords⟩

def operator? (v : Vocabulary) (t : Text) : Option Kind := v.operators.lookup t

def wordKind (v : Vocabulary) (t : Text) : Kind := (v.keywords.lookup t).getD .name

/-- The operator a text starts with, of two characters if there is one, else of one. -/
def operatorAt? (v : Vocabulary) : Text → Option (Text × Kind)
  | [] => none
  | [c] => (v.operator? [c]).map ([c],·)
  | c :: d :: _ =>
    match v.operator? [c,d] with
    | some k => some ([c,d],k)
    | none => (v.operator? [c]).map ([c],·)

end Vocabulary
end AssignLang
