import AssignLang.Listing
import AssignLang.Proofs.Token.Lexeme

namespace AssignLang

namespace Text

/-- A letter or an underscore, and letters, digits or underscores behind it. -/
def isIdentifier : Text → Bool
  | [] => false
  | c :: r => (c.isAlpha || c = '_') && r.all fun d => d.isAlphanum || d = '_'

theorem IsWord.isIdentifier {t : Text} (h : t.IsWord) : t.isIdentifier := by
  cases h with
  | mk hc hr =>
    simp only [Text.isIdentifier,hc,Bool.true_or,Bool.true_and,List.all_eq_true]
    intro d hd
    rw [hr d hd,Bool.true_or]

instance : (t : Text) → Decidable t.IsWord
  | [] => isFalse (by intro h; cases h)
  | c :: r => decidable_of_iff (c.isAlpha ∧ r.all Char.isAlphanum)
      ⟨fun h => .mk h.1 (List.all_eq_true.1 h.2),fun h => by
        cases h with
        | mk hc hr => exact ⟨hc,List.all_eq_true.2 hr⟩⟩

end Text

namespace Listing

/-- The keywords of C, but for those with an underscore in them. -/
def reserved : List Text :=
  ["auto","break","case","char","const","continue","default","do","double","else","enum","extern",
    "float","for","goto","if","inline","int","long","register","restrict","return","short","signed",
    "sizeof","static","struct","switch","typedef","union","unsigned","void","volatile",
    "while"].map String.toList

/-- The keywords, and the only function that the body of a program calls. -/
def taken : List Text := "printf".toList :: reserved

theorem isWord_of_mem_taken : ∀ x ∈ taken, x.IsWord := by decide +kernel

/-- Different identifiers of which none is a keyword or `printf`. -/
structure Declarable (xs : List Text) : Prop where
  identifiers : ∀ x ∈ xs, x.isIdentifier
  nodup : xs.Nodup
  free : ∀ x ∈ xs, x ∉ taken

theorem declarable_iff_of_isWord {xs : List Text} (hw : ∀ x ∈ xs, x.IsWord) (hn : xs.Nodup) :
    Declarable xs ↔ ∀ x ∈ xs, x ∉ taken :=
  ⟨Declarable.free,fun h => ⟨fun x hx => (hw x hx).isIdentifier,hn,h⟩⟩

/-- The names between `double` and the semicolon of a declaration. -/
def declarators (line : Text) : List Text :=
  if "double ".toList <+: line then (line.drop "double ".length).dropLast.splitOn ',' else []

/-- The names that a C program declares in front of the body of its only function. -/
def declared (program : Text) : List Text :=
  (program.lines[header.length]?.map declarators).getD []

theorem declarators_declaration {xs : List Text} (hne : xs ≠ []) (hw : ∀ x ∈ xs, x.IsWord) :
    declarators ("double ".toList ++ Text.join [','] xs ++ [';']) = xs := by
  have hcomma : ∀ x ∈ xs, ',' ∉ x := by
    intro x hx hmem
    exact absurd ((hw x hx).forall_isAlphanum ',' hmem) (by decide)
  have hopen : "double ".toList <+: "double ".toList ++ Text.join [','] xs ++ [';'] := by
    rw [List.append_assoc]
    exact List.prefix_append _ _
  have hdrop : ("double ".toList ++ Text.join [','] xs ++ [';']).drop "double ".length =
      Text.join [','] xs ++ [';'] := by
    rw [List.append_assoc]
    exact List.drop_left' rfl
  rw [declarators,if_pos hopen,hdrop,List.dropLast_concat]
  exact List.splitOn_intercalate ',' hcomma hne

example : declared "#include <stdio.h>\nint main() \x7b\ndouble a,b;\na = 1;\n".toList =
    ["a".toList,"b".toList] := by decide +kernel

end Listing
end AssignLang
