import AssignLang.Span
import AssignLang.Token.Kind

namespace AssignLang

structure Token where
  text : Text
  kind : Kind
  span : Span := .unknown
  deriving DecidableEq

namespace Token

def ofKind (k : Kind) (span : Span := .unknown) : Token := ⟨k.text,k,span⟩

/-- Equality up to the place. -/
def same (a b : Token) : Bool := a.text = b.text && a.kind = b.kind

/-- A token of which no more than a kind with many texts is known is called by its kind, any other
is quoted. -/
def describe (t : Token) : Text :=
  if t.kind.isClass && t.text = t.kind.text then t.kind.withArticle else t.text.quote

def outline (t : Token) : Text := "Token(text=".toList ++ t.text.quote ++ [')']

end Token
end AssignLang
