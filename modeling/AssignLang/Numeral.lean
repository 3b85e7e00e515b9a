import AssignLang.Text.Digit

namespace AssignLang

/-- What the text of a number says: a decimal `digits * 10 ^ exponent` or a value that is none. -/
inductive Numeral where
  | finite (negative : Bool) (digits : Nat) (exponent : Int)
  | infinite (negative : Bool)
  | nan
  deriving DecidableEq

namespace Numeral

def naturalOf (ds : Text) : Nat := ds.foldl (fun n c => 10*n+(c.toNat - '0'.toNat)) 0

def isBlank (c : Char) : Bool := c = ' ' || ('\t' ≤ c && c ≤ '\r')

def trim (t : Text) : Text := ((t.dropWhile isBlank).reverse.dropWhile isBlank).reverse

/-- Digits and blanks of all scripts as those of ASCII. Anything else cannot be part of a number. -/
def plainChar (c : Char) : Char :=
  if c.toNat < 127 then c
  else if Text.isWideBlank c then ' '
  else match Text.digitValue? c with
    | some d => Char.ofNat ('0'.toNat+d)
    | none => '?'

/-- Leaves out the underscores, each of which must stand between two digits. -/
def dropUnderscores? (last : Option Char) : Text → Option Text
  | [] => some []
  | '_' :: d :: r =>
    if last.any Char.isDigit && d.isDigit then (dropUnderscores? (some d) r).map (d :: ·) else none
  | ['_'] => none
  | c :: r => (dropUnderscores? (some c) r).map (c :: ·)

/-- The sign in front, and the rest. -/
def splitSign : Text → Bool × Text
  | '-' :: r => (true,r)
  | '+' :: r => (false,r)
  | t => (false,t)

def exponent? : Text → Option Int
  | [] => some 0
  | e :: r =>
    let (negative,ds) := splitSign r
    if (e = 'e' ∨ e = 'E') ∧ ds ≠ [] ∧ ds.all Char.isDigit then
      some (if negative then -(naturalOf ds : Int) else naturalOf ds)
    else none

/-- Digits with a point before, inside or behind them or none, and an exponent or none. -/
def decimal? (negative : Bool) (t : Text) : Option Numeral :=
  let whole := t.takeWhile Char.isDigit
  let (fraction,rest) := match t.dropWhile Char.isDigit with
    | '.' :: r => (r.takeWhile Char.isDigit,r.dropWhile Char.isDigit)
    | r => ([],r)
  if whole = [] ∧ fraction = [] then none
  else (exponent? rest).map fun e =>
    finite negative (naturalOf (whole ++ fraction)) (e-fraction.length)

def ofText? (t : Text) : Option Numeral := do
  let t ← dropUnderscores? none (trim (t.map plainChar))
  let (negative,t) := splitSign t
  let word := t.map Char.toLower
  if word = "inf".toList ∨ word = "infinity".toList then some (infinite negative)
  else if word = "nan".toList then some nan
  else decimal? negative t

def signed (negative : Bool) (x : Float) : Float := if negative then -x else x

/-- The nearest double, ties to even. Far outside the range of doubles the power of ten need not be
worked out. -/
def toFloat : Numeral → Float
  | finite negative digits exponent =>
    signed negative <|
      if digits = 0 then 0.0
      else if exponent > 400 then 1.0/0.0
      else if exponent < -(digits.log2+400 : Int) then 0.0
      else Float.ofScientific digits (exponent < 0) exponent.natAbs
  | infinite negative => signed negative (1.0/0.0)
  | nan => 0.0/0.0

end Numeral
end AssignLang
