import AssignLang.Text.Lines

namespace AssignLang

/-- The offsets from `start` up to `stop`. A negative `start` stands for a place nobody knows. -/
structure Span where
  start : Int
  stop : Int
  deriving DecidableEq

namespace Span

def unknown : Span := ⟨-1,-1⟩

def isUnknown (s : Span) : Bool := s.start < 0

/-- The least span around two known ones. -/
def join (a b : Span) : Span :=
  if a.isUnknown then b
  else if b.isUnknown then a
  else ⟨min a.start b.start,max a.stop b.stop⟩

/-- The lines of the first and the last offset inside. -/
def lines (s : Span) (t : Text) : Nat × Nat :=
  ((t.position s.start).1,(t.position (max s.start (s.stop-1))).1)

def place (s : Span) : Text :=
  if s.isUnknown then "an unknown position".toList
  else if s.stop-s.start > 1 then
    "positions [".toList ++ Text.ofInt s.start ++ ['-'] ++ Text.ofInt (s.stop-1) ++ [']']
  else "position [".toList ++ Text.ofInt s.start ++ [']']

def outline (s : Span) : Text :=
  "Span(start=".toList ++ Text.ofInt s.start ++ ", end=".toList ++ Text.ofInt s.stop ++ [')']

end Span

/-- A program together with the copy it was read from: equal texts are one program only if they are
the same copy. What is passed in as text is copy zero, and every file read is a copy of its own. -/
structure Source where
  text : Text
  copy : Nat := 0
  deriving DecidableEq

/-- Diagnostics that know no program point at nothing. -/
def Source.nowhere : Source := ⟨[],0⟩

end AssignLang
