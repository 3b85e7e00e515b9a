import AssignLang.Diagnostic.Console
import AssignLang.Token.Stream

namespace AssignLang

/-- A place in a program, and the token read last. -/
structure Cursor where
  source : Source
  vocabulary : Vocabulary
  position : Nat := 0
  token : Option Token := none

namespace Cursor

def rest (c : Cursor) : Text := c.source.text.drop c.position

def done (c : Cursor) : Bool := c.source.text.length ≤ c.position

def moveBy (c : Cursor) (n : Nat) : Cursor := {c with position := c.position+n}

/-- Takes the next `n` characters as a token. -/
def takeToken (c : Cursor) (kind : Kind) (lexeme : Text) : Cursor :=
  let stop := c.position+lexeme.length
  {c with position := stop,token := some ⟨lexeme,kind,⟨c.position,stop⟩⟩}

def takeNumber (c : Cursor) : Cursor := c.takeToken .number (Piece.numberAt c.rest)

def takeWord (c : Cursor) : Cursor :=
  c.takeToken (c.vocabulary.wordKind (Piece.wordAt c.rest)) (Piece.wordAt c.rest)

/-- Stays where it is if no operator stands there. -/
def takeOperator (c : Cursor) : Cursor :=
  match c.vocabulary.operatorAt? c.rest with
  | some (lexeme,kind) => c.takeToken kind lexeme
  | none => c

def skipMany (c : Cursor) (chars : Text) : Cursor :=
  c.moveBy (c.rest.takeWhile (fun d => chars.contains d)).length

def skipThrough (c : Cursor) (char : Char) : Cursor := c.moveBy (Piece.through char c.rest).length

/-- Reads the next token, and says whether there was one before the end. -/
def next (c : Cursor) (o : Console) : Bool × Cursor × Console :=
  let (bad,token,stop) := Piece.advance c.position (Piece.ofText c.vocabulary c.rest)
  let o := o.warnIllegal c.source bad
  match token with
  | some t => (true,{c with position := stop,token := some t},o)
  | none => (false,{c with position := stop,token := some (.ofKind .eof ⟨stop,stop⟩)},o)

def current (c : Cursor) (o : Console) : Except Failure Token × Console :=
  match c.token with
  | some t => (.ok t,o)
  | none =>
    let (f,o) := o.fail c.source ⟨c.position,c.position⟩
      (.unexpected c.position [.ofKind .any] (.ofKind .empty))
    (.error f,o)

/-- Gives the current token and goes on behind it, if it is of the kind expected. -/
def expect (c : Cursor) (expected : Token) (o : Console) :
    Except Failure Token × Cursor × Console :=
  match c.current o with
  | (.error f,o) => (.error f,c,o)
  | (.ok t,o) =>
    if expected.kind = t.kind then
      let (_,c,o) := c.next o
      (.ok t,c,o)
    else
      let (f,o) := o.fail c.source t.span (.unexpected c.position [expected] t)
      (.error f,c,o)

/-- Reads all tokens still to come. -/
def remaining (c : Cursor) (o : Console) : Except Failure (List Token) × Cursor × Console :=
  let pieces := Piece.ofText c.vocabulary c.rest
  let stop := c.source.text.length
  let (r,o) := (o.warnIllegal c.source (Piece.illegals c.position pieces)).report .scanner
  (r.map (fun _ => Piece.tokens c.position pieces),
    {c with position := stop,token := some (.ofKind .eof ⟨stop,stop⟩)},o)

end Cursor
end AssignLang
