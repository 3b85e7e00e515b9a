import AssignLang.Proofs.Tree.Canonical
import Mathlib.Data.List.Chain

namespace AssignLang

namespace Text

/-- The characters that C takes together: increments and decrements, assignments with an operator,
comparisons, and the beginnings of comments. -/
def fused : List (Char × Char) :=
  [('+','+'),('-','-'),('+','='),('-','='),('*','='),('/','='),('=','='),('/','/'),('/','*')]

/-- A text whose operators are characters of their own for C, too. -/
def IsPlainC (t : Text) : Prop := t.IsChain fun a b => (a,b) ∉ fused

instance (t : Text) : Decidable t.IsPlainC :=
  inferInstanceAs (Decidable (t.IsChain fun a b => (a,b) ∉ fused))

/-- What ends with none of these can be followed by anything. -/
def Closed (c : Char) : Prop := c ∉ ['+','-','*','/','=']

/-- What begins with none of these can follow any operator, unless it makes a minus sign two. -/
def Open (c : Char) : Prop := c ∉ ['+','*','/','=']

instance (c : Char) : Decidable (Closed c) := inferInstanceAs (Decidable (c ∉ _))

instance (c : Char) : Decidable (Open c) := inferInstanceAs (Decidable (c ∉ _))

theorem Closed.not_fused {a b : Char} (h : Closed a) : (a,b) ∉ fused := by
  intro hf
  apply h
  simp only [fused,List.mem_cons,List.not_mem_nil,or_false,Prod.mk.injEq] at hf ⊢
  grind

theorem Open.not_fused {a b : Char} (h : Open b) (hm : a = '-' → b ≠ '-') : (a,b) ∉ fused := by
  intro hf
  apply h
  simp only [fused,List.mem_cons,List.not_mem_nil,or_false,Prod.mk.injEq] at hf ⊢
  grind

theorem Closed.isOpen {c : Char} (h : Closed c) : Open c := by
  intro hc
  apply h
  simp only [List.mem_cons,List.not_mem_nil,or_false] at hc ⊢
  grind

theorem closed_of_isAlphanum {c : Char} (h : c.isAlphanum) : Closed c := by
  intro hc
  simp only [List.mem_cons,List.not_mem_nil,or_false] at hc
  rcases hc with rfl | rfl | rfl | rfl | rfl <;> exact absurd h (by decide)

/-- Code that stands for itself between operators. -/
structure IsOperand (t : Text) : Prop where
  plain : t.IsPlainC
  ne_nil : t ≠ []
  head : ∀ c ∈ t.head?, Open c
  last : ∀ c ∈ t.getLast?, Closed c

theorem IsPlainC.append {t u : Text} (ht : t.IsPlainC) (hu : u.IsPlainC)
    (h : ∀ c ∈ t.getLast?, Closed c) : (t ++ u).IsPlainC :=
  List.IsChain.append ht hu fun c hc _ _ => (h c hc).not_fused

theorem isOperand_of_closed {t : Text} (hne : t ≠ []) (h : ∀ c ∈ t, Closed c) : t.IsOperand where
  plain := by
    induction t with
    | nil => exact .nil
    | cons c t ih =>
      obtain ⟨hc,ht⟩ := List.forall_mem_cons.1 h
      cases t with
      | nil => exact .singleton c
      | cons d t => exact .cons_cons hc.not_fused (ih (by simp) ht)
  ne_nil := hne
  head c hc := (h c (List.mem_of_mem_head? hc)).isOpen
  last c hc := h c (List.mem_of_mem_getLast? hc)

theorem IsNumeral.isOperand {t : Text} (h : t.IsNumeral) : t.IsOperand := by
  have hd {c : Char} (hc : c.isDigit) : Closed c :=
    closed_of_isAlphanum (Piece.isAlphanum_of_isDigit hc)
  cases h with
  | whole hne hds => exact isOperand_of_closed hne fun c hc => hd (hds c hc)
  | decimal hne hds hfs =>
    apply isOperand_of_closed (by simp)
    intro c hc
    rcases List.mem_append.1 hc with hc | hc
    · exact hd (hds c hc)
    · rcases List.mem_cons.1 hc with rfl | hc
      · exact (by decide : Closed '.')
      · exact hd (hfs c hc)

theorem IsWord.isOperand {t : Text} (h : t.IsWord) : t.IsOperand := by
  cases h with
  | mk hc hr =>
    refine isOperand_of_closed (by simp) (List.forall_mem_cons.2 ⟨?_,?_⟩)
    · exact closed_of_isAlphanum (Piece.isAlphanum_of_isAlpha hc)
    · exact fun d hd => closed_of_isAlphanum (hr d hd)

end Text

theorem attach_plain {op : Token} (hop : op.IsOperator) {code : Text} (h : code.IsOperand) :
    (attach op.text code).IsPlainC ∧ ∀ c ∈ (attach op.text code).getLast?, Text.Closed c := by
  obtain ⟨c,ht,-⟩ := hop.exists_char
  obtain ⟨d,r,rfl⟩ := List.exists_cons_of_ne_nil h.ne_nil
  rw [attach,ht]
  split
  · have hc : (c,' ') ∉ Text.fused := Text.Open.not_fused (by decide) (by simp)
    have hd : (' ',d) ∉ Text.fused := Text.Closed.not_fused (by decide)
    refine ⟨.cons_cons hc (.cons_cons hd h.plain),?_⟩
    change ∀ x ∈ (c :: ' ' :: d :: r).getLast?, Text.Closed x
    rw [List.getLast?_cons_cons,List.getLast?_cons_cons]
    exact h.last
  · rename_i hminus
    have hc : (c,d) ∉ Text.fused := by
      apply (h.head d rfl).not_fused
      rintro rfl rfl
      exact hminus ⟨rfl,rfl⟩
    refine ⟨.cons_cons hc h.plain,?_⟩
    change ∀ x ∈ (c :: d :: r).getLast?, Text.Closed x
    rw [List.getLast?_cons_cons]
    exact h.last

namespace Text.IsOperand

theorem attach_minus {op : Token} (hk : op.kind = .minus) (hop : op.IsLexeme) {code : Text}
    (h : code.IsOperand) : (attach op.text code).IsOperand := by
  obtain ⟨hplain,hlast⟩ := attach_plain ⟨by simp [hk],hop⟩ h
  rw [Token.IsLexeme,hk] at hop
  simp [Kind.Spells,Vocabulary.standard] at hop
  obtain ⟨r,hr⟩ : ∃ r, attach op.text code = '-' :: r := by
    rw [attach,hop]
    split <;> exact ⟨_,rfl⟩
  constructor
  · exact hplain
  · rw [hr]
    exact List.cons_ne_nil _ _
  · rw [hr]
    rintro c ⟨rfl⟩
    decide
  · exact hlast

theorem append_attach {op : Token} (hop : op.IsOperator) {left right : Text}
    (hl : left.IsOperand) (hr : right.IsOperand) : (left ++ attach op.text right).IsOperand := by
  obtain ⟨hplain,hlast⟩ := attach_plain hop hr
  obtain ⟨c,m,rfl⟩ := List.exists_cons_of_ne_nil hl.ne_nil
  obtain ⟨d,n,hd⟩ : ∃ d n, attach op.text right = d :: n := by
    obtain ⟨d,hd,-⟩ := hop.exists_char
    rw [attach,hd]
    split <;> exact ⟨d,_,rfl⟩
  constructor
  · exact hl.plain.append hplain hl.last
  · exact List.cons_ne_nil _ _
  · exact hl.head
  · rw [hd,List.getLast?_append_cons,← hd]
    exact hlast

theorem group {inner : Text} (h : inner.IsOperand) : IsOperand ('(' :: inner ++ [')']) := by
  have hopen : Text.IsPlainC ('(' :: inner) := by
    apply Text.IsPlainC.append (.singleton '(') h.plain
    rintro c ⟨rfl⟩
    decide
  have hlast : ∀ c ∈ ('(' :: inner).getLast?, Text.Closed c := by
    rw [List.getLast?_cons_of_ne_nil h.ne_nil]
    exact h.last
  constructor
  · exact hopen.append (.singleton ')') hlast
  · exact List.cons_ne_nil _ _
  · rintro c ⟨rfl⟩
    decide
  · rw [List.getLast?_append]
    rintro c ⟨rfl⟩
    decide

end Text.IsOperand

namespace Tree

/-- In the code of an expression C sees the operators of the expression and no others. -/
theorem Arithmetic.isOperand_code {t : Tree} (h : t.Arithmetic) : t.code.IsOperand := by
  induction h with
  | number hk ht =>
    rw [Token.IsLexeme,hk] at ht
    exact Text.IsNumeral.isOperand ht
  | name hk ht =>
    rw [Token.IsLexeme,hk] at ht
    exact Text.IsWord.isOperand ht
  | unary hk hop h ih => exact ih.attach_minus hk hop
  | binary hl hop hr ihl ihr => exact ihl.append_attach hop ihr
  | group h ih => exact ih.group

theorem isPlainC_assign {s : Span} {x : Token} {t : Tree} (hk : x.kind = .name) (hx : x.IsLexeme)
    (h : t.Arithmetic) : (assign s x t).code.IsPlainC := by
  have hsign : Text.IsPlainC " = ".toList := by decide
  have hvalue := h.isOperand_code
  rw [Token.IsLexeme,hk] at hx
  have hname := Text.IsWord.isOperand hx
  rw [code]
  refine ((hname.plain.append hsign hname.last).append hvalue.plain ?_).append (.singleton ';') ?_
  · rw [List.getLast?_append]
    rintro c ⟨rfl⟩
    decide
  · rw [List.getLast?_append,Option.or_of_isSome]
    · exact hvalue.last
    · simpa using hvalue.ne_nil

/-- A statement has nothing in it that C takes together. -/
theorem Canonical.isPlainC_code {t : Tree} (h : t.Canonical .statement) : t.code.IsPlainC := by
  cases h with
  | assign hk hx h => exact isPlainC_assign hk hx h.arithmetic

end Tree
end AssignLang
