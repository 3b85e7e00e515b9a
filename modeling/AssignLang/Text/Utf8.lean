import AssignLang.Text.Quoted

namespace AssignLang.Text

inductive Utf8Fault where
  | lead
  | continuation
  | truncated
  deriving DecidableEq

/-- Bytes `first` up to `stop` that are no character; `byte` is the one at `first`. -/
structure Undecodable where
  fault : Utf8Fault
  first : Nat
  stop : Nat
  byte : UInt8
  deriving DecidableEq

namespace Utf8Fault

def reason : Utf8Fault → Text
  | lead => "invalid start byte".toList
  | continuation => "invalid continuation byte".toList
  | truncated => "unexpected end of data".toList

end Utf8Fault

def Undecodable.message (e : Undecodable) : Text :=
  let place :=
    if e.stop = e.first+1 then
      "byte 0x".toList ++ hexadecimal 2 e.byte.toNat ++ " in position ".toList ++ ofNat e.first
    else "bytes in position ".toList ++ ofNat e.first ++ ['-'] ++ ofNat (e.stop-1)
  "'utf-8' codec can't decode ".toList ++ place ++ ": ".toList ++ e.fault.reason

/-- A character of which some bytes were read: `owed` more must follow, the next of them between
`low` and `high`, to complete `value`. -/
structure Utf8Partial where
  first : Nat
  lead : UInt8
  owed : Nat
  low : UInt8
  high : UInt8
  value : Nat

/-- What the first byte of a character of several bytes promises. The bounds on the second byte keep
out longer forms than needed, surrogates and numbers above the last code point. -/
def Utf8Partial.ofLead? (first : Nat) (b : UInt8) : Option Utf8Partial :=
  if 0xC2 ≤ b ∧ b ≤ 0xDF then some ⟨first,b,1,0x80,0xBF,b.toNat-0xC0⟩
  else if b = 0xE0 then some ⟨first,b,2,0xA0,0xBF,0⟩
  else if b = 0xED then some ⟨first,b,2,0x80,0x9F,0xD⟩
  else if 0xE1 ≤ b ∧ b ≤ 0xEF then some ⟨first,b,2,0x80,0xBF,b.toNat-0xE0⟩
  else if b = 0xF0 then some ⟨first,b,3,0x90,0xBF,0⟩
  else if b = 0xF4 then some ⟨first,b,3,0x80,0x8F,4⟩
  else if 0xF1 ≤ b ∧ b ≤ 0xF3 then some ⟨first,b,3,0x80,0xBF,b.toNat-0xF0⟩
  else none

/-- Reads on at byte `here`, behind an unfinished character, if there is one. -/
def decodeFrom (here : Nat) : Option Utf8Partial → List UInt8 → Except Undecodable Text
  | none, [] => .ok []
  | some p, [] => .error ⟨.truncated,p.first,here,p.lead⟩
  | none, b :: r =>
    if b < 0x80 then (decodeFrom (here+1) none r).map (Char.ofNat b.toNat :: ·)
    else match Utf8Partial.ofLead? here b with
      | none => .error ⟨.lead,here,here+1,b⟩
      | some p => decodeFrom (here+1) (some p) r
  | some p, b :: r =>
    if p.low ≤ b ∧ b ≤ p.high then
      let value := p.value*64+(b.toNat-0x80)
      if p.owed ≤ 1 then (decodeFrom (here+1) none r).map (Char.ofNat value :: ·)
      else decodeFrom (here+1) (some {p with owed := p.owed-1,low := 0x80,high := 0xBF,value}) r
    else .error ⟨.continuation,p.first,here,p.lead⟩

/-- A carriage return, alone or with the line feed after it, becomes a line feed. -/
def unifyNewlines : Text → Text
  | [] => []
  | '\r' :: '\n' :: r => '\n' :: unifyNewlines r
  | '\r' :: r => '\n' :: unifyNewlines r
  | c :: r => c :: unifyNewlines r

/-- The text of a file. A byte order mark stays a character of it. -/
def ofBytes (bytes : List UInt8) : Except Undecodable Text :=
  (decodeFrom 0 none bytes).map unifyNewlines

def toBytes (t : Text) : List UInt8 := (String.ofList t).toUTF8.toList

end AssignLang.Text
