import AssignLang.Proofs.Grammar.Subtree
import AssignLang.Proofs.Token.Bracket
import AssignLang.Proofs.Tree.Grouping

namespace AssignLang

namespace Grammar

open Piece

variable {e : Chain .sum} {u : Tree} {ps : List Span}

theorem Chain.bordered (h : Token.InOrder e.tokens) (hg : e.tree.GroupedAt ps u) :
    Bordered ps e.tokens := by
  intro p hp
  obtain ⟨n,hn,rfl⟩ := hg.exists_node hp
  obtain ⟨d,before,after,ht,rfl,-⟩ := e.contains_of_mem_nodes hn
  have hsub : d.tokens.Sublist e.tokens := by
    rw [ht]
    simp
  obtain ⟨first,last,hfirst,hlast,hspan⟩ := d.frames (h.sublist hsub)
  rw [hspan]
  exact ⟨⟨first,hsub.subset (List.mem_of_mem_head? hfirst),rfl⟩,
    last,hsub.subset (List.mem_of_getLast? hlast),rfl⟩

/-- The parentheses of a group are two tokens of its derivation. -/
theorem Chain.ofToken_group {inner : Chain .sum} {s : Span} {opening closing : Token}
    (hlexemes : ∀ t ∈ e.tokens, t.IsLexeme)
    (ht : e.tokens = opening :: (inner.tokens ++ [closing])) (he : e.tree = .group s inner.tree) :
    ofToken opening = Piece.opening ∧ ofToken closing = Piece.closing := by
  have hinner := inner.tokens_tree fun t hmem => hlexemes t (by simp [ht,hmem])
  have htokens := e.tokens_tree hlexemes
  rw [he,ht,Tree.tokens,List.cons_append,List.map_cons,List.map_cons,List.map_append,
    List.map_append,hinner] at htokens
  obtain ⟨hopening,hrest⟩ := List.cons.inj htokens
  have hclosing := List.append_cancel_left hrest
  exact ⟨hopening.symm,(List.cons.inj hclosing).1.symm⟩

/-- Further groups are parentheses around the tokens of the nodes in them. -/
theorem Chain.tokens_groupedAt (hlexemes : ∀ t ∈ e.tokens, t.IsLexeme)
    (h : Token.InOrder e.tokens) (hg : e.tree.GroupedAt ps u) :
    u.tokens.map ofToken = Piece.bracketed ps e.tokens := by
  generalize ht : e.tree = t at hg
  induction hg generalizing e with
  | number | name =>
    rw [← ht,e.tokens_tree hlexemes,bracketed_nil]
  | @unary s op t u ps hg ih =>
    cases e.composed with
    | @minus _ inner sign htokens he =>
      obtain ⟨rfl,rfl,rfl⟩ := Tree.unary.inj (he.symm.trans ht)
      have hall : e.tokens = [sign] ++ inner.tokens ++ [] := by simp [htokens]
      rw [hall] at h hlexemes ⊢
      have hinner : Token.InOrder inner.tokens := h.sublist (by simp)
      have hvalue := ih (fun t ht => hlexemes t (by simp [ht])) hinner rfl
      rw [(Chain.bordered hinner hg).bracketed_within h,← hvalue]
      exact (List.append_nil _).symm
    | number _ he | name _ he | group _ he | binary _ he => cases he.symm.trans ht
  | @group s t u ps hg ih =>
    cases e.composed with
    | @group _ inner opening closing htokens he =>
      obtain ⟨rfl,rfl⟩ := Tree.group.inj (he.symm.trans ht)
      obtain ⟨hleft,hright⟩ := e.ofToken_group hlexemes htokens he
      have hall : e.tokens = [opening] ++ inner.tokens ++ [closing] := htokens
      rw [hall] at h hlexemes ⊢
      have hinner : Token.InOrder inner.tokens := h.sublist (by simp)
      have hvalue := ih (fun t ht => hlexemes t (by simp [ht])) hinner rfl
      rw [(Chain.bordered hinner hg).bracketed_within h,← hvalue,Tree.tokens]
      simp only [List.cons_append,List.map_cons,List.map_append,List.map_nil,hleft,hright]
      rfl
    | number _ he | name _ he | minus _ he | binary _ he => cases he.symm.trans ht
  | @binary s l l' r r' op ps qs hgl hgr ihl ihr =>
    cases e.composed with
    | @binary _ left right op htokens he =>
      obtain ⟨rfl,rfl,rfl,rfl⟩ := Tree.binary.inj (he.symm.trans ht)
      rw [htokens] at h hlexemes ⊢
      have hleft : Token.InOrder left.tokens := h.sublist (by simp)
      have hright : Token.InOrder right.tokens := h.sublist (by simp)
      have hl := ihl (fun t ht => hlexemes t (by simp [ht])) hleft rfl
      have hr := ihr (fun t ht => hlexemes t (by simp [ht])) hright rfl
      rw [(Chain.bordered hleft hgl).bracketed_both (Chain.bordered hright hgr) h,← hl,← hr,
        Tree.tokens,List.map_append,List.append_assoc]
      rfl
    | number _ he | name _ he | minus _ he | group _ he => cases he.symm.trans ht
  | @around t u ps hg ih =>
    subst ht
    rw [bracketed_frames (e.frames h) h,← ih hlexemes h rfl,Tree.tokens,List.cons_append,
      List.map_cons,List.map_append]
    rfl

theorem Statement.tokens_groupedAt {d : Statement} (hlexemes : ∀ t ∈ d.tokens, t.IsLexeme)
    (h : Token.InOrder d.tokens) (hg : d.value.tree.GroupedAt ps u) :
    (Tree.assign d.tree.span d.target u).tokens.map ofToken = Piece.bracketed ps d.tokens := by
  have hequals := ofToken_ofKind d.isEquals (hlexemes d.equals (by simp [tokens])) (by simp)
  have hsemicolon := ofToken_ofKind d.isSemicolon (hlexemes d.semicolon (by simp [tokens]))
    (by simp)
  have hinner : Token.InOrder d.value.tokens := h.sublist d.value_sublist
  have hvalue := Chain.tokens_groupedAt (fun t ht => hlexemes t (d.value_sublist.subset ht))
    hinner hg
  have hall : d.tokens = [d.target,d.equals] ++ d.value.tokens ++ [d.semicolon] := rfl
  rw [hall] at h ⊢
  rw [(Chain.bordered hinner hg).bracketed_within h,← hvalue,Tree.tokens]
  simp only [List.cons_append,List.map_cons,List.map_append,List.map_nil,hequals,hsemicolon,
    List.nil_append]

/-- A statement with further groups in its value is derived from its tokens and their
parentheses. -/
theorem Statement.exists_groupedAt {d : Statement} (hlexemes : ∀ t ∈ d.tokens, t.IsLexeme)
    (h : Token.InOrder d.tokens) (hg : d.value.tree.GroupedAt ps u) {ts : List Token}
    (hts : ts.map ofToken = Piece.bracketed ps d.tokens) :
    ∃ d' : Statement, d'.tokens = ts ∧
      d'.tree.bare = (Tree.assign d.tree.span d.target u).bare := by
  have hvalue : ∀ t ∈ d.value.tokens, t.IsLexeme := fun t ht =>
    hlexemes t (d.value_sublist.subset ht)
  have htarget : d.target.IsLexeme := hlexemes d.target List.mem_cons_self
  have hcanonical := hg.canonical (k := .expression) trivial (d.value.canonical hvalue)
  exact (Tree.Canonical.assign d.isName htarget hcanonical).derives ts
    (hts.trans (Statement.tokens_groupedAt hlexemes h hg).symm)

end Grammar

end AssignLang
