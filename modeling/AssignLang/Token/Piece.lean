import AssignLang.Token.Vocabulary

namespace AssignLang

/-- What a program consists of, read from left to right. -/
inductive Piece where
  | blank (c : Char)
  | comment (text : Text)
  | illegal (c : Char)
  | lexeme (kind : Kind) (text : Text)
  deriving DecidableEq

namespace Piece

def text : Piece → Text
  | blank c => [c]
  | comment t => t
  | illegal c => [c]
  | lexeme _ t => t

def isBlank (c : Char) : Bool := c ∈ [' ','\t','\n','\r']

/-- Digits, and a point with digits behind it or none. -/
def numberAt (t : Text) : Text :=
  match t.dropWhile Char.isDigit with
  | '.' :: r => t.takeWhile Char.isDigit ++ '.' :: r.takeWhile Char.isDigit
  | _ => t.takeWhile Char.isDigit

/-- ASCII letters and digits. -/
def wordAt (t : Text) : Text := t.takeWhile Char.isAlphanum

/-- Everything through the first `c`, or through the end. -/
def through (c : Char) (t : Text) : Text :=
  t.takeWhile (· != c) ++ (t.dropWhile (· != c)).take 1

/-- The piece at the front of `c :: r`. An operator is looked for only where its first character is
an operator by itself. -/
def first (v : Vocabulary) (c : Char) (r : Text) : Piece :=
  if isBlank c then blank c
  else if c = '/' ∧ r.head? = some '/' then comment (through '\n' (c :: r))
  else if c.isDigit then lexeme .number (numberAt (c :: r))
  else if c.isAlpha then lexeme (v.wordKind (wordAt (c :: r))) (wordAt (c :: r))
  else match v.operator? [c], v.operatorAt? (c :: r) with
    | some _, some (t,k) => lexeme k t
    | _, _ => illegal c

/-- At most `n` pieces from the front of a text. -/
def read (v : Vocabulary) : Nat → Text → List Piece
  | 0, _ => []
  | _, [] => []
  | n+1, c :: r => first v c r :: read v n ((c :: r).drop (first v c r).text.length)

/-- No piece is empty, so a text has at most as many pieces as characters. -/
def ofText (v : Vocabulary) (t : Text) : List Piece := read v t.length t

theorem numberAt_isPrefix (t : Text) : numberAt t <+: t := by
  unfold numberAt
  split
  · rename_i r h
    have ht := List.takeWhile_append_dropWhile (p := Char.isDigit) (l := t)
    refine ⟨r.dropWhile Char.isDigit,?_⟩
    rw [List.append_assoc,List.cons_append,List.takeWhile_append_dropWhile,← h,ht]
  · exact List.takeWhile_prefix _

theorem through_isPrefix (c : Char) (t : Text) : through c t <+: t := by
  refine ⟨(t.dropWhile (· != c)).drop 1,?_⟩
  rw [through,List.append_assoc,List.take_append_drop,List.takeWhile_append_dropWhile]

theorem operatorAt?_isPrefix {v : Vocabulary} {t l : Text} {k : Kind}
    (h : v.operatorAt? t = some (l,k)) : l <+: t ∧ l ≠ [] := by
  unfold Vocabulary.operatorAt? at h
  split at h
  · simp at h
  · obtain ⟨k',-,hk⟩ := Option.map_eq_some_iff.1 h
    simp only [Prod.mk.injEq] at hk
    simp [← hk.1]
  · split at h
    · simp only [Option.some.injEq,Prod.mk.injEq] at h
      simp [← h.1]
    · obtain ⟨k',-,hk⟩ := Option.map_eq_some_iff.1 h
      simp only [Prod.mk.injEq] at hk
      simp [← hk.1]

/-- A piece is the beginning of the text it was read from. -/
theorem first_isPrefix (v : Vocabulary) (c : Char) (r : Text) : (first v c r).text <+: c :: r := by
  unfold first
  split
  · simp [text]
  · split
    · exact through_isPrefix _ _
    · split
      · exact numberAt_isPrefix _
      · split
        · exact List.takeWhile_prefix _
        · split
          · rename_i h
            exact (operatorAt?_isPrefix h).1
          · simp [text]

theorem first_text_ne_nil (v : Vocabulary) (c : Char) (r : Text) : (first v c r).text ≠ [] := by
  unfold first
  split
  · simp [text]
  · split
    · rename_i hc
      simp [text,through,hc.1]
    · split
      · rename_i hd
        simp only [text,numberAt]
        split <;> simp [hd]
      · split
        · rename_i hd
          simp [text,wordAt,Char.isAlphanum,hd]
        · split
          · rename_i h
            exact (operatorAt?_isPrefix h).2
          · simp [text]

theorem length_drop_first_lt (v : Vocabulary) (c : Char) (r : Text) :
    ((c :: r).drop (first v c r).text.length).length < (c :: r).length := by
  have h := List.length_pos_iff.2 (first_text_ne_nil v c r)
  simp only [List.length_drop,List.length_cons]
  omega

theorem read_of_le (v : Vocabulary) {n m : Nat} {t : Text} (hn : t.length ≤ n) (hm : t.length ≤ m) :
    read v n t = read v m t := by
  induction n generalizing m t with
  | zero =>
    obtain rfl := List.length_eq_zero_iff.1 (Nat.le_zero.1 hn)
    cases m <;> rfl
  | succ n ih =>
    cases t with
    | nil => cases m <;> rfl
    | cons c r =>
      cases m with
      | zero => simp at hm
      | succ m =>
        have h := length_drop_first_lt v c r
        simp only [read,List.cons.injEq,true_and]
        apply ih <;> omega

@[simp] theorem ofText_nil (v : Vocabulary) : ofText v [] = [] := rfl

theorem ofText_cons (v : Vocabulary) (c : Char) (r : Text) :
    ofText v (c :: r) =
      first v c r :: ofText v ((c :: r).drop (first v c r).text.length) := by
  have h := length_drop_first_lt v c r
  simp only [List.length_cons] at h
  simp only [ofText,List.length_cons,read,List.cons.injEq,true_and]
  exact read_of_le v (by omega) (Nat.le_refl _)

/-- The pieces of a text make it up without a gap. -/
theorem flatMap_text_ofText (v : Vocabulary) (t : Text) : (ofText v t).flatMap text = t := by
  induction hn : t.length using Nat.strongRecOn generalizing t with
  | ind n ih =>
    subst hn
    cases t with
    | nil => rfl
    | cons c r =>
      rw [ofText_cons,List.flatMap_cons,ih _ (length_drop_first_lt v c r) _ rfl]
      exact List.prefix_iff_eq_append.1 (first_isPrefix v c r)

end Piece
end AssignLang
