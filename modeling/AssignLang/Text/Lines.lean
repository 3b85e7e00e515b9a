import AssignLang.Text.Basic

namespace AssignLang.Text

/-- Line feed, vertical tab, form feed, carriage return, the file, group and record separators,
next line, and the line and paragraph separators. -/
def isLineBreak (c : Char) : Bool :=
  c ∈ ['\n','\x0b','\x0c','\r','\x1c','\x1d','\x1e','\u0085','\u2028','\u2029']

/-- The lines of a text without their ends. A carriage return and a line feed end one line together,
and an end of line at the end of the text opens no further line. -/
def lines : Text → List Text
  | [] => []
  | '\r' :: '\n' :: r => [] :: lines r
  | c :: r =>
    if isLineBreak c then [] :: lines r
    else match lines r with
      | [] => [[c]]
      | l :: ls => (c::l) :: ls

/-- Line from one and column from zero of an offset. Only line feeds count, and an offset outside
the text stands for the nearer end. -/
def position (t : Text) (offset : Int) : Nat × Nat :=
  let before := t.take offset.toNat
  (before.count '\n'+1,(before.reverse.takeWhile (· != '\n')).length)

end AssignLang.Text
