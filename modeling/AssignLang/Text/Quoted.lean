import AssignLang.Text.Printable

namespace AssignLang.Text

/-- `n` in hexadecimal with at least `width` digits. -/
def hexadecimal (width n : Nat) : Text :=
  let digits := Nat.toDigits 16 n
  List.replicate (width-digits.length) '0' ++ digits

/-- One character between quotes `q`: the backslash and the quote are marked by a backslash, the
common layout characters have names, and what cannot be printed is written by its number. -/
def escapeChar (q c : Char) : Text :=
  if c = q ∨ c = '\\' then ['\\',c]
  else if c = '\n' then ['\\','n']
  else if c = '\r' then ['\\','r']
  else if c = '\t' then ['\\','t']
  else if isPrintable c then [c]
  else if c.toNat < 0x100 then '\\' :: 'x' :: hexadecimal 2 c.toNat
  else if c.toNat < 0x10000 then '\\' :: 'u' :: hexadecimal 4 c.toNat
  else '\\' :: 'U' :: hexadecimal 8 c.toNat

/-- Single quotes, unless they occur in the text and double quotes do not. -/
def quoteMark (t : Text) : Char := if '\'' ∈ t ∧ '"' ∉ t then '"' else '\''

def quote (t : Text) : Text :=
  let q := quoteMark t
  q :: t.flatMap (escapeChar q) ++ [q]

end AssignLang.Text
