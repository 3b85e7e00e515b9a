import AssignLang.Proofs.RoundTrip
import AssignLang.Proofs.Tree.Spelling

namespace AssignLang

namespace Text

/-- Nothing that C takes together occurs in a plain text. -/
theorem IsPlainC.not_infix {t : Text} (h : t.IsPlainC) {a b : Char} (hf : (a,b) ∈ fused) :
    ¬ [a,b] <:+: t := by
  intro hin
  have hpair : IsPlainC [a,b] := List.IsChain.infix h hin
  exact (List.isChain_cons_cons.1 hpair).1 hf

/-- Plain lines that end with what can be followed by anything make a plain text. -/
theorem isPlainC_join {ls : List Text} (h : ∀ l ∈ ls, l.IsPlainC ∧ ∀ c ∈ l.getLast?, Closed c) :
    (join ['\n'] ls).IsPlainC := by
  induction ls with
  | nil => exact .nil
  | cons l ls ih =>
    obtain ⟨⟨hplain,hlast⟩,hls⟩ := List.forall_mem_cons.1 h
    cases ls with
    | nil => simpa [join] using hplain
    | cons m ls =>
      have hfeed : IsPlainC ['\n'] := .singleton '\n'
      have hline : IsPlainC (['\n'] ++ join ['\n'] (m :: ls)) := by
        apply hfeed.append (ih hls)
        rintro c ⟨rfl⟩
        decide
      rw [join,List.intercalate_cons_cons,List.append_assoc]
      exact hplain.append hline hlast

end Text

namespace Tree

/-- An assignment of an expression of any shape to a name. -/
inductive IsAssignment : Tree → Prop
  | mk {s : Span} {x : Token} {t : Tree} (hk : x.kind = .name) (hx : x.IsLexeme)
      (h : t.Arithmetic) : IsAssignment (assign s x t)

/-- Expressions of any shape, assignments of them, and lists of such assignments. -/
inductive Writable : Tree → Prop
  | expression {t : Tree} (h : t.Arithmetic) : Writable t
  | assignment {t : Tree} (h : t.IsAssignment) : Writable t
  | block {s : Span} {ts : List Tree} (h : ∀ t ∈ ts, t.IsAssignment) : Writable (block s ts)

theorem IsAssignment.reads_code {t : Tree} (h : t.IsAssignment) (r : Text) :
    Piece.Reads t.code t.tokens r := by
  cases h with
  | mk hk hx h => exact reads_assign hk hx h r

theorem IsAssignment.isPlainC_code {t : Tree} (h : t.IsAssignment) :
    t.code.IsPlainC ∧ ∀ c ∈ t.code.getLast?, Text.Closed c := by
  cases h with
  | mk hk hx h =>
    refine ⟨isPlainC_assign hk hx h,?_⟩
    rw [code,List.getLast?_append]
    rintro c ⟨rfl⟩
    decide

theorem mem_codeAll {l : Text} {ts : List Tree} (h : l ∈ codeAll ts) : ∃ t ∈ ts, l = t.code := by
  induction ts with
  | nil => cases h
  | cons t ts ih =>
    rcases List.mem_cons.1 h with rfl | h
    · exact ⟨t,List.mem_cons_self,rfl⟩
    · obtain ⟨u,hu,rfl⟩ := ih h
      exact ⟨u,List.mem_cons_of_mem t hu,rfl⟩

namespace Writable

variable {t : Tree}

/-- Code is read as the tokens of its tree. -/
theorem content_code (h : t.Writable) :
    Piece.content (Piece.ofText .standard t.code) = t.tokens.map Piece.ofToken := by
  have hreads : Piece.Reads t.code t.tokens [] := by
    cases h with
    | expression h => exact h.reads_code (by simp [Piece.Apart])
    | assignment h => exact h.reads_code []
    | block h => exact reads_join (fun t ht => (h t ht).reads_code) []
  rw [Piece.Reads,List.append_nil] at hreads
  exact hreads.trans (List.append_nil _)

theorem isPlainC_code (h : t.Writable) : t.code.IsPlainC := by
  cases h with
  | expression h => exact h.isOperand_code.plain
  | assignment h => exact h.isPlainC_code.1
  | block h =>
    apply Text.isPlainC_join
    intro l hl
    obtain ⟨t,ht,rfl⟩ := mem_codeAll hl
    exact (h t ht).isPlainC_code

end Writable
end Tree

namespace Source

/-- A text in which nothing stands but layout and certain tokens is scanned as these, with no
warning. -/
theorem tokens_of_content {s : Source} {ts : List Token}
    (h : Piece.content (Piece.ofText .standard s.text) = ts.map Piece.ofToken) {c : Console}
    (hc : c.Idle) :
    ∃ us, s.tokens .standard c = (.ok us,c) ∧ us.map Token.bare = ts.map Token.bare := by
  have hi : (Stream.ofText .standard s.text).illegals = [] := Piece.illegals_eq_nil h
  refine ⟨s.standardTokens,?_,Piece.map_bare_of_ofToken (map_standardTokens h)⟩
  rw [tokens,hi,Console.warnIllegal_nil,Console.report_of_problems hc.problems,hc.flush]
  rfl

/-- However expressions are nested in a tree, its code is scanned as the tokens of the tree in their
order, with no warning, and neither a decrement nor a comment comes about. -/
theorem code_keeps_tokens (t : Tree) (h : t.Writable) (copy : Nat) (c : Console) (hc : c.Idle) :
    (∃ ts, Source.tokens .standard ⟨t.code,copy⟩ c = (.ok ts,c) ∧
      ts.map Token.bare = t.tokens.map Token.bare) ∧
    ∀ w ∈ ["--","//","/*"], ¬ w.toList <:+: t.code := by
  have hplain := h.isPlainC_code
  refine ⟨tokens_of_content (s := ⟨t.code,copy⟩) h.content_code hc,?_⟩
  intro w hw
  simp only [List.mem_cons,List.not_mem_nil,or_false] at hw
  rcases hw with rfl | rfl | rfl
  · exact hplain.not_infix (a := '-') (b := '-') (by decide)
  · exact hplain.not_infix (a := '/') (b := '/') (by decide)
  · exact hplain.not_infix (a := '/') (b := '*') (by decide)

/-- The sum stands below the product here, as it would not if the code was read again, and the two
minus signs meet although the second one is deep on the right. -/
theorem code_keeps_tokens_minuses :
    Console.Idle {} ∧ ∃ (a b c x three : Token) (t : Tree),
      t = .assign .unknown x (.binary .unknown (.name .unknown a) (.ofKind .minus)
        (.binary .unknown (.unary .unknown (.ofKind .minus) (.name .unknown b)) (.ofKind .star)
          (.binary .unknown (.name .unknown c) (.ofKind .plus) (.number .unknown three)))) ∧
      t.Writable ∧ t.code = "x = a- -b*c+3.;".toList ∧
      ∃ ts, Source.tokens .standard ⟨"x = a- -b*c+3.;".toList,0⟩ {} = (.ok ts,{}) ∧
        ts.map Token.text =
          ["x","=","a","-","-","b","*","c","+","3.",";"].map String.toList := by
  let named (d : Char) : Token := ⟨[d],.name,.unknown⟩
  have hname (d : Char) (hd : d.isAlpha) : (named d).IsLexeme := .mk hd (by simp)
  let three : Token := ⟨['3','.'],.number,.unknown⟩
  have hthree : three.IsLexeme :=
    @Text.IsNumeral.decimal ['3'] [] (by simp) (List.forall_mem_singleton.2 rfl) (by simp)
  have hmem : ∀ k ∈ [Kind.plus,.minus,.star,.slash],
      (k.text,k) ∈ Vocabulary.standard.operators := by decide
  have hsign (k : Kind) (hk : k ∈ [Kind.plus,.minus,.star,.slash]) :
      (Token.ofKind k).IsOperator := ⟨hk,Piece.spells_of_operator (hmem k hk)⟩
  let sum : Tree := .binary .unknown (.name .unknown (named 'c')) (.ofKind .plus)
    (.number .unknown three)
  have hsum : sum.Arithmetic :=
    .binary (.name rfl (hname 'c' rfl)) (hsign .plus (by decide)) (.number rfl hthree)
  let negative : Tree := .unary .unknown (.ofKind .minus) (.name .unknown (named 'b'))
  have hnegative : negative.Arithmetic :=
    .unary rfl (hsign .minus (by decide)).2 (.name rfl (hname 'b' rfl))
  let product : Tree := .binary .unknown negative (.ofKind .star) sum
  have hproduct : product.Arithmetic := .binary hnegative (hsign .star (by decide)) hsum
  let t : Tree := .assign .unknown (named 'x') (.binary .unknown (.name .unknown (named 'a'))
    (.ofKind .minus) product)
  have ht : t.Writable := .assignment (.mk rfl (hname 'x' rfl)
    (.binary (.name rfl (hname 'a' rfl)) (hsign .minus (by decide)) hproduct))
  have hcode : t.code = "x = a- -b*c+3.;".toList := by decide
  obtain ⟨⟨ts,hts,hbare⟩,-⟩ := code_keeps_tokens t ht 0 {} ⟨rfl,rfl⟩
  rw [hcode] at hts
  refine ⟨⟨rfl,rfl⟩,named 'a',named 'b',named 'c',named 'x',three,t,rfl,ht,hcode,ts,hts,?_⟩
  have htexts := congrArg (List.map Token.text) hbare
  rw [List.map_map,List.map_map] at htexts
  exact htexts

end Source
end AssignLang
