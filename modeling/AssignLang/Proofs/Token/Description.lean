import AssignLang.Proofs.Token.Partition
import AssignLang.Proofs.Tree.Lines

namespace AssignLang

namespace Text

/-- A printable ASCII character that is neither the quote nor the mark in front of one. Between
quotes it stands as it is. -/
def IsQuotable (c : Char) : Prop := 0x20 ≤ c.toNat ∧ c.toNat < 0x7F ∧ c ≠ '\'' ∧ c ≠ '\\'

instance (c : Char) : Decidable (IsQuotable c) := inferInstanceAs (Decidable (_ ∧ _))

theorem isPrintable_of_toNat {c : Char} (hlow : 0x20 ≤ c.toNat) (hhigh : c.toNat < 0x7F) :
    isPrintable c := by
  have hranges : ∀ r ∈ unprintableRanges, r.2 < 0x20 ∨ 0x7F ≤ r.1 := by decide +kernel
  have hnone : ∀ r ∈ unprintableRanges, ¬ (r.1 ≤ c.toNat ∧ c.toNat ≤ r.2) := by
    intro r hr
    have hout := hranges r hr
    omega
  rw [isPrintable,Bool.not_eq_true',List.any_eq_false]
  intro r hr
  simpa using hnone r hr

theorem IsQuotable.escapeChar_eq {c : Char} (h : IsQuotable c) : escapeChar '\'' c = [c] := by
  obtain ⟨hlow,hhigh,hquote,hmark⟩ := h
  have hcontrol : ∀ d : Char, d.toNat < 0x20 → c ≠ d := by
    rintro d hd rfl
    omega
  rw [escapeChar,if_neg (by simp [hquote,hmark]),if_neg (hcontrol '\n' (by decide)),
    if_neg (hcontrol '\r' (by decide)),if_neg (hcontrol '\t' (by decide)),
    if_pos (isPrintable_of_toNat hlow hhigh)]

theorem flatMap_escapeChar {t : Text} (h : ∀ c ∈ t, IsQuotable c) :
    t.flatMap (escapeChar '\'') = t := by
  induction t with
  | nil => rfl
  | cons c t ih =>
    obtain ⟨hc,ht⟩ := List.forall_mem_cons.1 h
    rw [List.flatMap_cons,hc.escapeChar_eq,ih ht,List.singleton_append]

/-- A text of such characters is quoted by quotes around it. -/
theorem quote_of_isQuotable {t : Text} (h : ∀ c ∈ t, IsQuotable c) :
    t.quote = '\'' :: (t ++ ['\'']) := by
  have hmark : quoteMark t = '\'' := by
    have hnot : '\'' ∉ t := fun hmem => (h _ hmem).2.2.1 rfl
    rw [quoteMark,if_neg (by simp [hnot])]
  have hquote : t.quote = quoteMark t :: t.flatMap (escapeChar (quoteMark t)) ++ [quoteMark t] :=
    rfl
  rw [hquote,hmark,flatMap_escapeChar h,List.cons_append]

theorem isQuotable_of_isAlphanum {c : Char} (h : c.isAlphanum) : IsQuotable c := by
  rw [Char.isAlphanum,Bool.or_eq_true,Piece.isAlpha_iff_toNat,Char.isDigit_iff_toNat] at h
  have hcode : (65 ≤ c.toNat ∧ c.toNat ≤ 90 ∨ 97 ≤ c.toNat ∧ c.toNat ≤ 122) ∨
      48 ≤ c.toNat ∧ c.toNat ≤ 57 := h
  refine ⟨by omega,by omega,?_,?_⟩
  · rintro rfl
    exact absurd hcode (by decide)
  · rintro rfl
    exact absurd hcode (by decide)

theorem IsNumeral.isQuotable {t : Text} (h : t.IsNumeral) : ∀ c ∈ t, IsQuotable c := by
  have hdigits : ∀ ds : Text, (∀ c ∈ ds, c.isDigit) → ∀ c ∈ ds, IsQuotable c :=
    fun ds hd c hc => isQuotable_of_isAlphanum (Piece.isAlphanum_of_isDigit (hd c hc))
  cases h with
  | whole hne hd => exact hdigits _ hd
  | decimal hne hd hf =>
    exact List.forall_mem_append.2
      ⟨hdigits _ hd,List.forall_mem_cons.2 ⟨by decide,hdigits _ hf⟩⟩

theorem IsWord.isQuotable {t : Text} (h : t.IsWord) : ∀ c ∈ t, IsQuotable c :=
  fun c hc => isQuotable_of_isAlphanum (h.forall_isAlphanum c hc)

end Text

/-- What a kind that was wanted is called. Numbers and names are named, operators are quoted. -/
inductive Kind.Called : Kind → Text → Prop
  | number : Called .number "a number".toList
  | name : Called .name "a variable".toList
  | operator {k : Kind} {t : Text} (h : (t,k) ∈ Vocabulary.standard.operators) : Called k t.quote

theorem Kind.called_of_spells {k : Kind} {t : Text} (h : k.Spells t) :
    k.Called (Token.ofKind k).describe := by
  rcases h.cases with ⟨rfl,-⟩ | ⟨rfl,-⟩ | hoperator
  · exact .number
  · exact .name
  · have hquoted : ∀ p ∈ Vocabulary.standard.operators,
        (Token.ofKind p.2).describe = p.1.quote := by decide +kernel
    rw [hquoted _ hoperator]
    exact .operator hoperator

namespace Token.IsLexeme

variable {t : Token}

theorem isQuotable (h : t.IsLexeme) : ∀ c ∈ t.text, Text.IsQuotable c := by
  have hoperators : ∀ p ∈ Vocabulary.standard.operators,
      p.1.all fun c => decide (Text.IsQuotable c) := by decide
  rcases Kind.Spells.cases h with ⟨-,hnumeral⟩ | ⟨-,hword⟩ | hoperator
  · exact hnumeral.isQuotable
  · exact hword.isQuotable
  · intro c hc
    exact of_decide_eq_true (List.all_eq_true.1 (hoperators _ hoperator) c hc)

theorem quote_eq (h : t.IsLexeme) : t.text.quote = '\'' :: (t.text ++ ['\'']) :=
  Text.quote_of_isQuotable h.isQuotable

theorem isUnbroken_quote (h : t.IsLexeme) : t.text.quote.IsUnbroken := by
  rw [h.quote_eq]
  exact (h.isUnbroken.append (Text.isUnbroken_nil.cons rfl)).cons rfl

/-- A token of a program is quoted, unless its text is the one that stands for any name. -/
theorem describe_eq (h : t.IsLexeme) :
    t.describe = if t.text = "id".toList then "a variable".toList else t.text.quote := by
  obtain ⟨text,kind,span⟩ := t
  rcases Kind.Spells.cases h with ⟨rfl,hnumeral⟩ | ⟨rfl,-⟩ | hoperator
  · -- the text of a number begins with a digit
    obtain ⟨c,r,rfl,hc⟩ := hnumeral.exists_head
    have hne : ∀ d u, d.isDigit = false → c :: r ≠ d :: u := by
      intro d u hd heq
      rw [(List.cons.inj heq).1,hd] at hc
      cases hc
    have hkind : c :: r ≠ Kind.number.text := hne 'n' _ rfl
    have hid : c :: r ≠ "id".toList := hne 'i' _ rfl
    rw [describe,if_neg (by simp [hkind]),if_neg hid]
  · by_cases hid : text = "id".toList
    · rw [hid]
      rfl
    · have hkind : text ≠ Kind.name.text := hid
      rw [describe,if_neg (by simp [hkind]),if_neg hid]
  · have hquoted : ∀ p ∈ Vocabulary.standard.operators, p.1 ≠ "id".toList ∧
        describe ⟨p.1,p.2,.unknown⟩ = p.1.quote := by decide +kernel
    obtain ⟨hid,hquote⟩ := hquoted _ hoperator
    rw [if_neg hid]
    exact hquote

/-- Names that stand for other kinds are quoted like any other. -/
example : Token.describe ⟨"EOF".toList,.name,.unknown⟩ = "'EOF'".toList := by decide +kernel

theorem describe_of_id (h : t.IsLexeme) (hid : t.text = "id".toList) :
    t.describe = "a variable".toList := by rw [h.describe_eq,if_pos hid]

theorem describe_of_ne (h : t.IsLexeme) (hid : t.text ≠ "id".toList) :
    t.describe = t.text.quote := by rw [h.describe_eq,if_neg hid]

theorem describe_eq_quote_iff (h : t.IsLexeme) :
    t.describe = t.text.quote ↔ t.text ≠ "id".toList := by
  constructor
  · intro hquote hid
    rw [h.describe_of_id hid,hid] at hquote
    exact absurd hquote (by decide)
  · exact h.describe_of_ne

/-- A token is never called as the end of the input is. -/
theorem describe_ne_end (h : t.IsLexeme) : t.describe ≠ "the end of input".toList := by
  by_cases hid : t.text = "id".toList
  · rw [h.describe_of_id hid]
    decide
  · rw [h.describe_of_ne hid,h.quote_eq]
    intro heq
    exact absurd (List.cons.inj heq).1 (by decide)

theorem isUnbroken_describe (h : t.IsLexeme) : t.describe.IsUnbroken := by
  by_cases hid : t.text = "id".toList
  · rw [h.describe_of_id hid]
    decide
  · rw [h.describe_of_ne hid]
    exact h.isUnbroken_quote

end Token.IsLexeme

theorem Kind.Called.isUnbroken {k : Kind} {t : Text} (h : k.Called t) : t.IsUnbroken := by
  cases h with
  | number => decide
  | name => decide
  | operator h =>
    have hlexeme : Token.IsLexeme ⟨_,k,.unknown⟩ := Piece.spells_of_operator h
    exact hlexeme.isUnbroken_quote

end AssignLang
