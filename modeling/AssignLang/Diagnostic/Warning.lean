import AssignLang.Diagnostic.Excerpt
import AssignLang.Token.Basic

namespace AssignLang

/-- Something the programmer should know of, at a place of a program. A warning that is not about
illegal characters has no wording of its own. `ticket` is the number under which it was
registered. -/
structure Warning where
  source : Source
  span : Span
  illegal : Bool := true
  ticket : Option Nat := none
  deriving DecidableEq

namespace Warning

def label : Text := "Warning".toList

def notice (before after : Text) (below : Int) : Notice := ⟨label,before,after,1,below,.yellow⟩

def explain (w : Warning) (before : Text) (after : Text := []) (below : Int := 1) : Text :=
  (notice before after below).render w.source.text w.span

def chars (w : Warning) : Text := Text.slice w.source.text w.span.start w.span.stop

def message (w : Warning) : Text :=
  if w.illegal then
    w.explain ("Skipped illegal character".toList ++ (if w.chars.length > 1 then ['s'] else []) ++
      [' '] ++ w.chars.quote ++ " at ".toList ++ w.span.place ++ ['.'])
  else
    label ++ "(program=".toList ++ w.source.text.quote ++ ", span=".toList ++ w.span.outline ++
      [')']

/-- Two warnings about neighbouring illegal characters of one program. -/
def adjoins (a b : Warning) : Bool :=
  a.illegal && b.illegal && a.span.stop = b.span.start && a.source = b.source

/-- `b` takes over the place of `a`. -/
def widen (a b : Warning) : Warning := {b with span := a.span.join b.span}

/-- Combines `a` with those behind it as long as they adjoin. -/
def combineFrom (a : Warning) : List Warning → List Warning
  | [] => [a]
  | b :: r => if a.adjoins b then combineFrom (a.widen b) r else a :: combineFrom b r

def combine : List Warning → List Warning
  | [] => []
  | a :: r => combineFrom a r

/-- What becomes of `a` and of those behind it while they are combined. Also a warning that gives
way to the next one keeps the place it had taken over before. -/
def settleFrom (a : Warning) : List Warning → List Warning
  | [] => [a]
  | b :: r => a :: settleFrom (if a.adjoins b then a.widen b else b) r

def settle : List Warning → List Warning
  | [] => []
  | a :: r => settleFrom a r

/-- At most this many diagnostics are written out at a time. -/
def limit : Nat := 10

/-- How many were left out, if any. -/
def omission (what : Text) (n : Nat) : Text :=
  if n ≤ limit then []
  else
    "Showing ".toList ++ Text.ofNat limit ++ [' '] ++ what ++ "s, omitting ".toList ++
      Text.ofNat (n-limit) ++ [' '] ++ what ++ (if n-limit > 1 then ['s'] else []) ++ "...".toList

def renderAll (ws : List Warning) : Text :=
  (ws.take limit).flatMap (fun w => w.message ++ ['\n','\n']) ++
    (if ws.length ≤ limit then [] else omission "warning".toList ws.length ++ ['\n'])

end Warning
end AssignLang
