import AssignLang.Text.Basic

namespace AssignLang

/-- The values of variables in the order in which they were first assigned. -/
structure Store where
  entries : List (Text × Float) := []

namespace Store

def names (s : Store) : List Text := s.entries.map Prod.fst

def get? (s : Store) (x : Text) : Option Float := s.entries.lookup x

def size (s : Store) : Nat := s.entries.length

def contains (s : Store) (x : Text) : Bool := (s.get? x).isSome

/-- A known name keeps its place, a new one comes last. -/
def putEntry (x : Text) (value : Float) : List (Text × Float) → List (Text × Float)
  | [] => [(x,value)]
  | (y,old) :: es => if x = y then (x,value) :: es else (y,old) :: putEntry x value es

def put (s : Store) (x : Text) (value : Float) : Store := ⟨putEntry x value s.entries⟩

def ofList (es : List (Text × Float)) : Store := es.foldl (fun s (x,value) => s.put x value) {}

/-- A line that declares all variables, if there are any. -/
def declarationLines (s : Store) : List Text :=
  if s.entries.isEmpty then [] else ["double ".toList ++ Text.join [','] s.names ++ [';']]

def declaration (s : Store) : Text := s.declarationLines.flatMap (· ++ ['\n'])

theorem lookup_putEntry (x y : Text) (v : Float) (es : List (Text × Float)) :
    (putEntry x v es).lookup y = if y = x then some v else es.lookup y := by
  induction es with
  | nil =>
    by_cases h : y = x
    · simp [putEntry,h]
    · simp [putEntry,List.lookup_cons,h,beq_eq_false_iff_ne.2 h]
  | cons e es ih =>
    obtain ⟨z,w⟩ := e
    by_cases hx : x = z
    · subst hx
      by_cases h : y = x
      · simp [putEntry,h]
      · simp [putEntry,List.lookup_cons,h,beq_eq_false_iff_ne.2 h]
    · by_cases h : y = z
      · subst h
        simp [putEntry,hx,Ne.symm hx]
      · simp [putEntry,hx,List.lookup_cons,beq_eq_false_iff_ne.2 h,ih]

@[simp] theorem get?_put (s : Store) (x y : Text) (v : Float) :
    (s.put x v).get? y = if y = x then some v else s.get? y := lookup_putEntry x y v s.entries

/-- The order of first assignment is kept. -/
theorem names_put (s : Store) (x : Text) (v : Float) :
    (s.put x v).names = if x ∈ s.names then s.names else s.names ++ [x] := by
  obtain ⟨es⟩ := s
  simp only [names,put]
  induction es with
  | nil => rfl
  | cons e es ih =>
    by_cases h : x = e.1
    · simp [putEntry,h]
    · by_cases hx : x ∈ es.map Prod.fst <;> simp [putEntry,h,ih,hx]

end Store
end AssignLang
