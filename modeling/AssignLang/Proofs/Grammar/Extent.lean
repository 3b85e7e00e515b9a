import AssignLang.Proofs.Token.Passage
import AssignLang.Proofs.Tree.Canonical

namespace AssignLang

open Grammar

/-- Known, and nowhere outside of the offsets from `lo` up to `hi`. -/
structure Span.Within (lo hi : Int) (s : Span) : Prop where
  known : 0 ≤ s.start
  start : lo ≤ s.start
  stop : s.stop ≤ hi

namespace Span

variable {a b : Span} {lo hi : Int}

theorem join_of_known (ha : 0 ≤ a.start) (hb : 0 ≤ b.start) :
    a.join b = ⟨min a.start b.start,max a.stop b.stop⟩ := by
  have hua : a.isUnknown = false := by
    rw [isUnknown,decide_eq_false_iff_not]
    omega
  have hub : b.isUnknown = false := by
    rw [isUnknown,decide_eq_false_iff_not]
    omega
  rw [join,hua,hub]
  rfl

theorem Within.join (ha : a.Within lo hi) (hb : b.Within lo hi) : (a.join b).Within lo hi := by
  rw [join_of_known ha.known hb.known]
  obtain ⟨hka,hsa,hea⟩ := ha
  obtain ⟨hkb,hsb,heb⟩ := hb
  constructor
  · exact Int.le_min.2 ⟨hka,hkb⟩
  · exact Int.le_min.2 ⟨hsa,hsb⟩
  · exact Int.max_le.2 ⟨hea,heb⟩

/-- What lies from the beginning of one span to the end of another does not lengthen the two. -/
theorem join_between {c : Span} (ha : a.Within a.start b.stop) (hb : b.Within a.start b.stop)
    (hc : c.Within a.start b.stop) : (a.join c).join b = ⟨a.start,b.stop⟩ := by
  have hac := ha.join hc
  rw [join_of_known ha.known hc.known] at hac ⊢
  rw [join_of_known hac.known hb.known,Span.mk.injEq]
  have hbs := hb.start
  have hcs := hc.start
  have has := ha.stop
  have hce := hc.stop
  simp only
  omega

end Span

namespace Grammar

variable {lo hi : Int}

mutual

/-- The tree of a derivation lies within its tokens. -/
theorem Chain.within : {l : Level} → (d : Chain l) → (∀ t ∈ d.tokens, t.span.Within lo hi) →
    d.tree.span.Within lo hi
  | _, .mk first links, h => by
    rw [Chain.tokens,List.forall_mem_append] at h
    exact links.within h.2 (first.within h.1)

theorem Links.within : {l : Level} → (d : Links l) → (∀ t ∈ d.tokens, t.span.Within lo hi) →
    {left : Tree} → left.span.Within lo hi → (d.fold left).span.Within lo hi
  | _, .nil, _, _, hl => hl
  | _, .cons op hop operand links, h, _, hl => by
    rw [Links.tokens,List.forall_mem_cons,List.forall_mem_append] at h
    exact links.within h.2.2 (hl.join (operand.within h.2.1))

theorem Operand.within : {l : Level} → (d : Operand l) → (∀ t ∈ d.tokens, t.span.Within lo hi) →
    d.tree.span.Within lo hi
  | _, .term product, h => product.within h
  | _, .minus sign hs factor, h => by
    rw [Operand.tokens,List.forall_mem_cons] at h
    exact h.1.join (factor.within h.2)
  | _, .group opening _ inner closing _, h => by
    rw [Operand.tokens,List.forall_mem_cons,List.forall_mem_append] at h
    exact h.1.join (h.2.2 closing List.mem_cons_self)
  | _, .number token _, h => h token List.mem_cons_self
  | _, .name token _, h => h token List.mem_cons_self

end

/-- A statement takes up the place from its target through its semicolon. -/
theorem Statement.span_tree (d : Statement)
    (hordered : d.tokens.Pairwise fun t u => t.span.stop ≤ u.span.start)
    (hspan : ∀ t ∈ d.tokens, 0 ≤ t.span.start ∧ t.span.start ≤ t.span.stop) :
    d.tree.span = ⟨d.target.span.start,d.semicolon.span.stop⟩ := by
  obtain ⟨htarget,hrest⟩ := List.pairwise_cons.1 hordered
  obtain ⟨-,hrest⟩ := List.pairwise_cons.1 hrest
  obtain ⟨-,-,hvalue⟩ := List.pairwise_append.1 hrest
  have hsemicolon := htarget d.semicolon (by simp)
  obtain ⟨ht,hts⟩ := hspan d.target (by simp [tokens])
  obtain ⟨-,hss⟩ := hspan d.semicolon (by simp [tokens])
  apply Span.join_between
  · exact ⟨ht,Int.le_refl _,by omega⟩
  · exact ⟨by omega,by omega,Int.le_refl _⟩
  · apply d.value.within
    intro t hmem
    have hstart := htarget t (by simp [hmem])
    have hstop := hvalue t hmem d.semicolon (by simp)
    exact ⟨by omega,by omega,by omega⟩

theorem Statement.span_of_standardTokens {s : Source} {before after : List Token} (d : Statement)
    (h : s.standardTokens = before ++ d.tokens ++ after) :
    d.tree.span = ⟨d.target.span.start,d.semicolon.span.stop⟩ := by
  have hsub := Source.sublist_of_part h
  apply d.span_tree (s.standardTokens_ordered.sublist hsub)
  intro t ht
  exact Source.span_of_mem_standardTokens (hsub.subset ht)

end Grammar

namespace Piece

theorem ofToken_ofKind {t : Token} {k : Kind} (hk : t.kind = k) (ht : t.IsLexeme)
    (h : k ∈ [Kind.lparen,.rparen,.equals,.semicolon]) : ofToken (.ofKind k) = ofToken t := by
  rw [Token.IsLexeme,hk] at ht
  simp only [List.mem_cons,List.not_mem_nil,or_false] at h
  rcases h with rfl | rfl | rfl | rfl <;>
    simp_all [Kind.Spells,Vocabulary.standard,ofToken,Token.ofKind,Kind.text]

end Piece

namespace Grammar

mutual

/-- The tree of a derivation has the tokens that were derived. -/
theorem Chain.tokens_tree : {l : Level} → (d : Chain l) → (∀ t ∈ d.tokens, t.IsLexeme) →
    d.tree.tokens.map Piece.ofToken = d.tokens.map Piece.ofToken
  | _, .mk first links, h => by
    rw [Chain.tokens,List.forall_mem_append] at h
    rw [Chain.tree,links.tokens_fold h.2,first.tokens_tree h.1,Chain.tokens,List.map_append]

theorem Links.tokens_fold : {l : Level} → (d : Links l) → (∀ t ∈ d.tokens, t.IsLexeme) →
    (left : Tree) → (d.fold left).tokens.map Piece.ofToken =
      left.tokens.map Piece.ofToken ++ d.tokens.map Piece.ofToken
  | _, .nil, _, left => (List.append_nil _).symm
  | _, .cons op hop operand links, h, left => by
    rw [Links.tokens,List.forall_mem_cons,List.forall_mem_append] at h
    rw [Links.fold,links.tokens_fold h.2.2,Tree.tokens,List.map_append,List.map_cons,
      operand.tokens_tree h.2.1,Links.tokens,List.map_cons,List.map_append,List.append_assoc]
    rfl

theorem Operand.tokens_tree : {l : Level} → (d : Operand l) → (∀ t ∈ d.tokens, t.IsLexeme) →
    d.tree.tokens.map Piece.ofToken = d.tokens.map Piece.ofToken
  | _, .term product, h => product.tokens_tree h
  | _, .minus sign hs factor, h => by
    rw [Operand.tokens,List.forall_mem_cons] at h
    rw [Operand.tree,Tree.tokens,Operand.tokens,List.map_cons,List.map_cons,
      factor.tokens_tree h.2]
  | _, .group opening ho inner closing hc, h => by
    rw [Operand.tokens,List.forall_mem_cons,List.forall_mem_append] at h
    have hopening := Piece.ofToken_ofKind ho h.1 (by simp)
    have hclosing := Piece.ofToken_ofKind hc (h.2.2 closing List.mem_cons_self) (by simp)
    rw [Operand.tree,Tree.tokens,Operand.tokens,List.cons_append,List.map_cons,List.map_cons,
      List.map_append,List.map_append,inner.tokens_tree h.2.1,hopening,List.map_singleton,
      List.map_singleton,hclosing]
  | _, .number token _, _ => rfl
  | _, .name token _, _ => rfl

end

theorem Statement.tokens_tree (d : Statement) (h : ∀ t ∈ d.tokens, t.IsLexeme) :
    d.tree.tokens.map Piece.ofToken = d.tokens.map Piece.ofToken := by
  rw [Statement.tokens,List.forall_mem_cons,List.forall_mem_cons,List.forall_mem_append] at h
  have hequals := Piece.ofToken_ofKind d.isEquals h.2.1 (by simp)
  have hsemicolon := Piece.ofToken_ofKind d.isSemicolon (h.2.2.2 _ List.mem_cons_self) (by simp)
  rw [Statement.tree,Tree.tokens,Statement.tokens]
  simp only [List.map_cons,List.map_append,List.cons_append,d.value.tokens_tree h.2.2.1,hequals,
    hsemicolon,List.map_nil]

theorem tokens_block (ds : List Statement) (h : ∀ t ∈ ds.flatMap Statement.tokens, t.IsLexeme) :
    (Tree.tokensAll (ds.map Statement.tree)).map Piece.ofToken =
      (ds.flatMap Statement.tokens).map Piece.ofToken := by
  induction ds with
  | nil => rfl
  | cons d ds ih =>
    rw [List.flatMap_cons,List.forall_mem_append] at h
    rw [List.map_cons,Tree.tokensAll,List.map_append,d.tokens_tree h.1,ih h.2,List.flatMap_cons,
      List.map_append]

end Grammar

end AssignLang
