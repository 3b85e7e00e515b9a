import AssignLang.Span

namespace AssignLang

inductive Color where
  | red
  | green
  | yellow
  | blue
  | plain
  deriving DecidableEq

def Color.sequence : Color → Text
  | red => "\x1b[31m".toList
  | green => "\x1b[32m".toList
  | yellow => "\x1b[33m".toList
  | blue => "\x1b[34m".toList
  | plain => "\x1b[m".toList

namespace Excerpt

/-- A source line as it is shown. In a marked line the part `lit` is coloured. -/
structure Line where
  number : Nat
  marked : Bool
  front : Text
  lit : Text
  back : Text

/-- How line `i` is shown if the part from `start` to `stop`, both as line and column, is marked. -/
def Line.ofSource (start stop : Nat × Nat) (i : Nat) (l : Text) : Line :=
  if i < start.1 ∨ stop.1 < i then ⟨i,false,l,[],[]⟩
  else if i = start.1 then
    if start.1 = stop.1 then
      ⟨i,true,l.take start.2,(l.take stop.2).drop start.2,l.drop stop.2⟩
    else ⟨i,true,l.take start.2,l.drop start.2,[]⟩
  else if i < stop.1 then ⟨i,true,[],l,[]⟩
  else ⟨i,true,[],l.take stop.2,l.drop stop.2⟩

/-- `width` is the number of digits of the last line number shown. -/
def Line.render (color : Color) (width : Nat) (l : Line) : Text :=
  let number := Text.spaces (width-(Text.ofNat l.number).length) ++ Text.ofNat l.number
  if l.marked then
    "-> ".toList ++ number ++ ". ".toList ++ l.front ++ color.sequence ++ l.lit ++
      Color.plain.sequence ++ l.back
  else "   ".toList ++ number ++ ". ".toList ++ l.front

def number (i : Nat) : List Text → List (Nat × Text)
  | [] => []
  | l :: ls => (i,l) :: number (i+1) ls

/-- The lines of a span with `above` lines before and `below` lines behind it. -/
def lines (program : Text) (span : Span) (above below : Int) : List Line :=
  let start := program.position span.start
  let stop := program.position span.stop
  let shown := Text.slice program.lines (max 0 (start.1-above-1)) (stop.1+below)
  (number (max 1 (start.1-above)).toNat shown).map (fun (i,l) => Line.ofSource start stop i l)

def render (color : Color) (ls : List Line) : List Text :=
  let width := (Text.ofNat ((ls.getLast?.map Line.number).getD 0)).length
  ls.map (Line.render color width)

end Excerpt

/-- What a diagnostic says and how much of the program it shows. -/
structure Notice where
  label : Text
  before : Text
  after : Text := []
  above : Int := 1
  below : Int := 1
  color : Color := .red

/-- The wording, an excerpt if there is a program and a known place in it, and the closing words. -/
def Notice.render (n : Notice) (program : Text) (span : Span) : Text :=
  let shown :=
    if program.isEmpty || span.isUnknown then []
    else Excerpt.render n.color (Excerpt.lines program span n.above n.below)
  let closing := if n.after = [] then [] else [n.after]
  Text.join ['\n'] ((n.label ++ ": ".toList ++ n.before) :: shown ++ closing)

end AssignLang
