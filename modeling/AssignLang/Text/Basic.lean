namespace AssignLang

/-- Programs, names and messages are sequences of code points, so every offset and length counts
code points. -/
abbrev Text := List Char

namespace Text

def ofNat (n : Nat) : Text := Nat.toDigits 10 n

def ofInt : Int → Text
  | .ofNat n => ofNat n
  | .negSucc n => '-' :: ofNat (n+1)

def join (separator : Text) (parts : List Text) : Text := List.intercalate separator parts

def spaces (n : Nat) : Text := List.replicate n ' '

/-- Fills up with spaces on the right. -/
def padRight (width : Nat) (t : Text) : Text := t ++ spaces (width-t.length)

/-- A bound counted from the front, or from the end if it is negative, kept inside a sequence of
`n` elements. -/
def bound (n : Nat) (i : Int) : Nat := if i < 0 then (n+i).toNat else min i.toNat n

/-- The elements from bound `i` up to bound `j`; none if `j` does not lie behind `i`. -/
def slice {α : Type} (l : List α) (i j : Int) : List α :=
  (l.take (bound l.length j)).drop (bound l.length i)

theorem bound_ofNat (n k : Nat) : bound n (k : Int) = min k n := by
  unfold bound
  split <;> omega

theorem slice_ofNat {α : Type} (l : List α) (i j : Nat) :
    slice l (i : Int) (j : Int) = (l.take j).drop i := by
  simp only [slice,bound_ofNat]
  by_cases hi : i ≤ l.length
  · simp [Nat.min_eq_left hi,List.take_eq_take_min]
  · have h : l.length ≤ i := by omega
    rw [Nat.min_eq_right h,List.drop_eq_nil_of_le (by simp only [List.length_take]; omega),
      List.drop_eq_nil_of_le (by simp only [List.length_take]; omega)]

end Text
end AssignLang
