import AssignLang.Diagnostic.Console
import AssignLang.Grammar
import AssignLang.Token.Stream

namespace AssignLang

/-- How deeply a program may nest: levels of grammar while it is read, and nodes above each other
while its tree is evaluated, shown, or written as code. Reporting a problem takes room as well, in
levels while a program is read and in nodes while it is evaluated. Without a limit any program may
be read and walked, and any problem reported. -/
structure Nesting where
  reading : Option Nat := none
  walking : Option Nat := none
  writing : Option Nat := none
  readingNeeds : Headroom := {}
  walkingNeeds : Headroom := {}
  readingNeeds_raising : reading = none → readingNeeds.raising = 0 := by decide
  walkingNeeds_raising : walking = none → walkingNeeds.raising = 0 := by decide

namespace Nesting

def standard : Nesting where
  reading := some 990
  walking := some 499
  writing := some 498
  readingNeeds := {filing := 0,combining := 2,warning := 7,raising := 8}
  walkingNeeds := {filing := 3,combining := 4,warning := 6,raising := 7}

def unlimited : Nesting := {}

def readingRoom (n : Nesting) (tokens : Nat) : Nat := n.reading.getD (Grammar.ample tokens)

def walkingRoom (n : Nesting) (t : Tree) : Nat := n.walking.getD t.height

def writingRoom (n : Nesting) (t : Tree) : Nat := n.writing.getD t.height

end Nesting

namespace Source

/-- The failure of reading `s` that stopped early. Illegal characters up to the token that stopped
it are reported before. -/
def stop (s : Source) (need : Headroom) (stream : Stream) (c : Console) : Stop → Failure × Console
  | .tooDeep rest => (.tooDeep,c.warnIllegal s (stream.skipped rest))
  | .unexpected wanted rest room =>
    let got := stream.current rest
    (c.warnIllegal s (stream.skipped rest)).failWithin need room s got.span
      (.unexpected got.span.stop (wanted.map Token.ofKind) got)

/-- Keeps the warnings that are about other programs, or lie in front of an offset. -/
def keepBefore (s : Source) (offset : Int) (c : Console) : Console :=
  {c with warnings := c.warnings.filter (fun w => w.source ≠ s || w.span.start < offset)}

/-- Reads the first statement. Whatever stands behind it plays no part, nor do illegal characters
there. -/
def statement (v : Vocabulary) (nesting : Nesting) (s : Source) (c : Console) :
    Except Failure Tree × Console :=
  let stream := Stream.ofText v s.text
  match Grammar.statement (nesting.readingRoom stream.tokens.length) stream.tokens with
  | .error e => let (f,c) := s.stop nesting.readingNeeds stream c e; (.error f,c)
  | .ok (tree,rest) =>
    let c := s.keepBefore tree.span.stop (c.warnIllegal s (stream.skipped rest))
    let (r,c) := c.report .parser
    (r.map (fun _ => tree),c)

/-- Reads all statements as a block. -/
def block (v : Vocabulary) (nesting : Nesting) (s : Source) (c : Console) :
    Except Failure Tree × Console :=
  let stream := Stream.ofText v s.text
  let room := nesting.readingRoom stream.tokens.length
  match Grammar.statements room stream.tokens.length stream.tokens with
  | .error e => let (f,c) := s.stop nesting.readingNeeds stream c e; (.error f,c)
  | .ok (body,rest) =>
    let span := match body.head?, body.getLast? with
      | some a, some b => a.span.join b.span
      | _, _ => (stream.current rest).span
    let (r,c) := (c.warnIllegal s (stream.skipped rest)).report .parser
    (r.map (fun _ => .block span body),c)

/-- The tokens of a whole program. -/
def tokens (v : Vocabulary) (s : Source) (c : Console) : Except Failure (List Token) × Console :=
  let stream := Stream.ofText v s.text
  let (r,c) := (c.warnIllegal s stream.illegals).report .scanner
  (r.map (fun _ => stream.tokens),c)

end Source
end AssignLang
