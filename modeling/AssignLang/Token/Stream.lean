import AssignLang.Token.Piece

namespace AssignLang

namespace Piece

/-- The tokens among pieces of which the first stands at offset `o`. -/
def tokens : Nat → List Piece → List Token
  | _, [] => []
  | o, lexeme k t :: ps => ⟨t,k,⟨o,(o+t.length : Nat)⟩⟩ :: tokens (o+t.length) ps
  | o, p :: ps => tokens (o+p.text.length) ps

/-- The offsets of the illegal characters among pieces of which the first stands at offset `o`. -/
def illegals : Nat → List Piece → List Nat
  | _, [] => []
  | o, illegal _ :: ps => o :: illegals (o+1) ps
  | o, p :: ps => illegals (o+p.text.length) ps

/-- The illegal characters up to the next token, that token, and the offset behind it. -/
def advance : Nat → List Piece → List Nat × Option Token × Nat
  | o, [] => ([],none,o)
  | o, lexeme k t :: _ => ([],some ⟨t,k,⟨o,(o+t.length : Nat)⟩⟩,o+t.length)
  | o, illegal _ :: ps => let (bad,t,e) := advance (o+1) ps; (o :: bad,t,e)
  | o, p :: ps => advance (o+p.text.length) ps

end Piece

/-- A program as its tokens, the offsets of the characters skipped, and its length. -/
structure Stream where
  tokens : List Token
  illegals : List Nat
  length : Nat

namespace Stream

def ofText (v : Vocabulary) (t : Text) : Stream :=
  let ps := Piece.ofText v t
  ⟨Piece.tokens 0 ps,Piece.illegals 0 ps,t.length⟩

def eof (s : Stream) : Token := .ofKind .eof ⟨s.length,s.length⟩

/-- The token to be looked at where `rest` is still to come. -/
def current (s : Stream) (rest : List Token) : Token := rest.headD s.eof

/-- The illegal characters met until `rest` is still to come. -/
def skipped (s : Stream) (rest : List Token) : List Nat :=
  s.illegals.filter (fun o => (o : Int) < (s.current rest).span.start)

end Stream
end AssignLang
