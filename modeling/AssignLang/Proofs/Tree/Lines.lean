import AssignLang.Proofs.Tree.Canonical
import AssignLang.Text.Lines

namespace AssignLang

namespace Text

/-- A text with no end of a line in it. -/
def IsUnbroken (t : Text) : Prop := ∀ c ∈ t, isLineBreak c = false

instance (t : Text) : Decidable t.IsUnbroken := List.decidableBAll _ t

theorem isUnbroken_nil : IsUnbroken [] := by simp [IsUnbroken]

theorem IsUnbroken.cons {c : Char} {t : Text} (hc : isLineBreak c = false) (h : t.IsUnbroken) :
    IsUnbroken (c :: t) := List.forall_mem_cons.2 ⟨hc,h⟩

theorem IsUnbroken.append {t u : Text} (ht : t.IsUnbroken) (hu : u.IsUnbroken) :
    (t ++ u).IsUnbroken := List.forall_mem_append.2 ⟨ht,hu⟩

theorem lines_cons {c : Char} (h : isLineBreak c = false) (t : Text) :
    lines (c :: t) = match lines t with
      | [] => [[c]]
      | l :: ls => (c :: l) :: ls := by
  have hr : c ≠ '\r' := by
    rintro rfl
    exact absurd h (by decide)
  rw [lines,h]
  · rfl
  · intro r hc
    exact absurd hc hr

theorem lines_append {t : Text} (h : t.IsUnbroken) (r : Text) :
    lines (t ++ '\n' :: r) = t :: lines r := by
  induction t with
  | nil => rfl
  | cons c t ih =>
    obtain ⟨hc,ht⟩ := List.forall_mem_cons.1 h
    rw [List.cons_append,lines_cons hc,ih ht]

/-- A text without an end of a line is a line. -/
theorem lines_of_isUnbroken {t : Text} (h : t.IsUnbroken) (hne : t ≠ []) : t.lines = [t] := by
  induction t with
  | nil => exact absurd rfl hne
  | cons c t ih =>
    obtain ⟨hc,ht⟩ := List.forall_mem_cons.1 h
    rw [lines_cons hc]
    cases t with
    | nil => rfl
    | cons d t => rw [ih ht (List.cons_ne_nil d t)]

theorem head?_lines_join {t : Text} (h : t.IsUnbroken) (hne : t ≠ []) (ts : List Text) :
    (join ['\n'] (t :: ts)).lines.head? = some t := by
  cases ts with
  | nil =>
    rw [join,List.intercalate_singleton,lines_of_isUnbroken h hne]
    rfl
  | cons u us =>
    rw [join,List.intercalate_cons_cons,List.append_assoc,List.singleton_append,lines_append h]
    rfl

/-- Unbroken texts with line feeds behind them are just the lines. -/
theorem lines_flatMap {ts : List Text} (h : ∀ t ∈ ts, t.IsUnbroken) :
    lines (ts.flatMap (· ++ ['\n'])) = ts := by
  induction ts with
  | nil => rfl
  | cons t ts ih =>
    have ht := h t List.mem_cons_self
    have hts := ih fun u hu => h u (List.mem_cons_of_mem t hu)
    rw [List.flatMap_cons,List.append_assoc]
    change lines (t ++ '\n' :: ts.flatMap (· ++ ['\n'])) = t :: ts
    rw [lines_append ht,hts]

theorem isLineBreak_of_isAlphanum {c : Char} (h : c.isAlphanum) : isLineBreak c = false := by
  rw [isLineBreak,decide_eq_false_iff_not]
  intro hc
  simp only [List.mem_cons,List.not_mem_nil,or_false] at hc
  rcases hc with rfl | rfl | rfl | rfl | rfl | rfl | rfl | rfl | rfl | rfl <;>
    exact absurd h (by decide)

theorem isUnbroken_of_digits {ds : Text} (h : ∀ c ∈ ds, c.isDigit) : ds.IsUnbroken := by
  intro c hc
  exact isLineBreak_of_isAlphanum (Piece.isAlphanum_of_isDigit (h c hc))

theorem isUnbroken_ofInt (n : Int) : (ofInt n).IsUnbroken := by
  have hdigits (m : Nat) : (ofNat m).IsUnbroken :=
    isUnbroken_of_digits fun c hc => Nat.isDigit_of_mem_toDigits (by decide) (by decide) hc
  cases n with
  | ofNat m => exact hdigits m
  | negSucc m => exact (hdigits (m+1)).cons rfl

theorem IsNumeral.isUnbroken {t : Text} (h : t.IsNumeral) : t.IsUnbroken := by
  cases h with
  | whole hne hd => exact isUnbroken_of_digits hd
  | decimal hne hd hf => exact (isUnbroken_of_digits hd).append ((isUnbroken_of_digits hf).cons rfl)

theorem IsWord.isUnbroken {t : Text} (h : t.IsWord) : t.IsUnbroken := by
  intro c hc
  exact isLineBreak_of_isAlphanum (h.forall_isAlphanum c hc)

end Text

theorem Token.IsLexeme.isUnbroken {t : Token} (h : t.IsLexeme) : t.text.IsUnbroken := by
  obtain ⟨text,kind,span⟩ := t
  have hops : ∀ p ∈ Vocabulary.standard.operators, Text.IsUnbroken p.1 := by decide
  cases kind with
  | number => exact Text.IsNumeral.isUnbroken h
  | name => exact Text.IsWord.isUnbroken h
  | _ => exact hops _ h

theorem attach_isUnbroken {op code : Text} (hop : op.IsUnbroken) (h : code.IsUnbroken) :
    (attach op code).IsUnbroken := by
  rw [attach]
  split
  · exact hop.append (h.cons rfl)
  · exact hop.append h

namespace Tree

theorem Arithmetic.isUnbroken_code {t : Tree} (h : t.Arithmetic) : t.code.IsUnbroken := by
  induction h with
  | number hk ht => exact ht.isUnbroken
  | name hk ht => exact ht.isUnbroken
  | unary hk hop h ih => exact attach_isUnbroken hop.isUnbroken ih
  | binary hl hop hr ihl ihr => exact ihl.append (attach_isUnbroken hop.2.isUnbroken ihr)
  | group h ih => exact (ih.append (Text.isUnbroken_nil.cons rfl)).cons rfl

/-- A statement is one line of code. -/
theorem Canonical.isUnbroken_code {t : Tree} (h : t.Canonical .statement) : t.code.IsUnbroken := by
  cases h with
  | assign hk hx h =>
    have hsign : Text.IsUnbroken " = ".toList := by decide
    have hvalue := Arithmetic.isUnbroken_code h.arithmetic
    rw [code]
    exact ((hx.isUnbroken.append hsign).append hvalue).append (Text.isUnbroken_nil.cons rfl)

theorem Canonical.code_ne_nil {t : Tree} (h : t.Canonical .statement) : t.code ≠ [] := by
  cases h with
  | assign hk hx h =>
    rw [code]
    exact List.append_ne_nil_of_right_ne_nil _ (by simp)

end Tree
end AssignLang
