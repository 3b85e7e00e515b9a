import AssignLang.Proofs.Grammar.Extent
import AssignLang.Proofs.Grammar.Lookahead
import AssignLang.Proofs.RoundTrip
import AssignLang.Proofs.Token.Slice

namespace AssignLang

open Grammar

namespace Grammar

section
variable {room : Nat} {r : List Token}

/-- Reading a statement takes room enough for its value. -/
theorem depth_of_statement (d : Statement) {p : Tree × List Token}
    (h : statement room (d.tokens ++ r) = .ok p) : d.value.depth ≤ room := by
  have ht : d.tokens ++ r =
      d.target :: d.equals :: (d.value.tokens ++ d.semicolon :: r) := by simp [Statement.tokens]
  rw [ht] at h
  obtain ⟨⟨target,us⟩,h₁,h⟩ := exists_of_bind h
  obtain ⟨⟨equals,vs⟩,h₂,h⟩ := exists_of_bind h
  obtain ⟨⟨value,ws⟩,h₃,h⟩ := exists_of_bind h
  obtain ⟨⟨semicolon,xs⟩,h₄,-⟩ := exists_of_bind h
  obtain ⟨h₁,-⟩ := of_take h₁
  obtain ⟨-,rfl⟩ := List.cons.inj h₁
  obtain ⟨h₂,-⟩ := of_take h₂
  obtain ⟨-,rfl⟩ := List.cons.inj h₂
  obtain ⟨rfl,hs⟩ := of_take h₄
  obtain ⟨e,he,-,hdepth⟩ := (exists_derivation room).1 .sum _ _ _ h₃
  obtain ⟨rfl,-⟩ := d.value.append_inj e (ends_of_kind (.inr d.isSemicolon))
    (ends_of_kind (.inr hs)) he
  exact hdepth

/-- A statement is read where there is room for one of the same kinds of tokens. -/
theorem statement_of_alike {d d' : Statement} (h : d.value.depth ≤ room)
    (halike : Alike d'.tokens d.tokens) : statement room (d'.tokens ++ r) = .ok (d'.tree,r) := by
  have hvalue : expression room (d.value.tokens ++ [d.semicolon]) =
      .ok (d.value.tree,[d.semicolon]) :=
    d.value.chainAt_tokens h (ends_of_kind (.inr d.isSemicolon))
  have hkinds : Alike d'.value.tokens d.value.tokens := by
    have hbehind := (List.cons.inj (List.cons.inj halike).2).2
    change (d'.value.tokens ++ [d'.semicolon]).map Token.kind =
      (d.value.tokens ++ [d.semicolon]).map Token.kind at hbehind
    rw [List.map_append,List.map_append] at hbehind
    exact List.append_inj_left' hbehind rfl
  have hsemicolon : Alike ((d'.semicolon :: r).take 1) ([d.semicolon].take 1) := by
    simp [Alike,d.isSemicolon,d'.isSemicolon]
  apply statement_of_value
  obtain ⟨front,hfront,hlocal⟩ := (local_reading room).1 .sum
    (d.value.tokens ++ [d.semicolon]) none [d.semicolon] (congrArg outcome hvalue)
  obtain rfl := List.append_cancel_right hfront
  obtain ⟨t,ht⟩ := outcome_eq_done
    (hlocal room d'.value.tokens (d'.semicolon :: r) (Nat.le_refl _) hkinds hsemicolon)
  obtain ⟨e,he,rfl,-⟩ := (exists_derivation room).1 .sum _ _ _ ht
  obtain ⟨rfl,-⟩ := d'.value.append_inj e (ends_of_kind (.inr d'.isSemicolon))
    (ends_of_kind (.inr d'.isSemicolon)) he
  exact ht

end

/-- Every statement of a block was read in the room of the block. -/
theorem exists_of_mem_statements {room n : Nat} {ts rest : List Token} {ss : List Tree}
    (h : statements room n ts = .ok (ss,rest)) {u : Tree} (hu : u ∈ ss) :
    ∃ (before after : List Token) (d : Statement), ts = before ++ d.tokens ++ after ∧ u = d.tree ∧
      d.value.depth ≤ room := by
  induction n generalizing ts ss rest with
  | zero =>
    have hss : ss = [] := by
      cases ts with
      | nil => exact (Prod.mk.inj (Except.ok.inj h)).1.symm
      | cons t ts => exact (Prod.mk.inj (Except.ok.inj h)).1.symm
    rw [hss] at hu
    cases hu
  | succ n ih =>
    cases ts with
    | nil =>
      obtain ⟨rfl,-⟩ := Prod.mk.inj (Except.ok.inj h)
      cases hu
    | cons t ts =>
      rw [statements] at h
      split at h
      · obtain ⟨rfl,-⟩ := Prod.mk.inj (Except.ok.inj h)
        cases hu
      · obtain ⟨⟨s,us⟩,h₁,h⟩ := exists_of_bind h
        obtain ⟨⟨ss',vs⟩,h₂,h⟩ := exists_of_bind h
        obtain ⟨rfl,rfl⟩ := Prod.mk.inj (Except.ok.inj h)
        obtain ⟨d,hd,rfl⟩ := exists_of_statement h₁
        rw [hd] at h₁ ⊢
        rcases List.mem_cons.1 hu with rfl | hu
        · exact ⟨[],us,d,rfl,rfl,depth_of_statement d h₁⟩
        · obtain ⟨before,after,e,rfl,rfl,he⟩ := ih h₂ hu
          exact ⟨d.tokens ++ before,after,e,by simp,rfl,he⟩

/-- Room that was enough in a longer program is enough in a shorter one. -/
theorem Statement.depth_le_readingRoom (d : Statement) {nesting : Nesting} {n : Nat}
    (h : d.value.depth ≤ nesting.readingRoom n) :
    d.value.depth ≤ nesting.readingRoom d.tokens.length := by
  rw [Nesting.readingRoom] at h ⊢
  cases hlimit : nesting.reading with
  | none =>
    have hneed := need_value_le d
    have hdepth := d.value.depth_le_need
    exact Nat.le_trans hdepth hneed
  | some limit =>
    rw [hlimit] at h
    exact h

end Grammar

namespace Source

/-- The text that a tree was read from. -/
def textOf (s : Source) (t : Tree) : Text := Text.slice s.text t.span.start t.span.stop

/-- A program with the tokens of a statement is read as this statement. -/
theorem reading_of_statement {s : Source} {nesting : Nesting} {n : Nat} {d : Statement}
    (hlexemes : ∀ t ∈ d.tokens, t.IsLexeme)
    (htokens : s.standardTokens.map Piece.ofToken = d.tokens.map Piece.ofToken)
    (hdepth : d.value.depth ≤ nesting.readingRoom n) :
    ∃ u : Tree, u.bare = d.tree.bare ∧
      ∀ c : Console, c.problems = [] → (s.reading false nesting c).1 = .ok u := by
  have hkinds := htokens.trans (d.tokens_tree hlexemes).symm
  obtain ⟨d',hd',hbare⟩ := (d.canonical hlexemes).derives _ hkinds
  refine ⟨d'.tree,hbare,?_⟩
  intro c hc
  have halike : Alike d'.tokens d.tokens := by
    rw [hd']
    exact alike_of_bare (Piece.map_bare_of_ofToken htokens)
  have hlength : d.tokens.length = s.standardTokens.length := by
    have hsame := congrArg List.length htokens
    rw [List.length_map,List.length_map] at hsame
    exact hsame.symm
  have hroom := d.depth_le_readingRoom hdepth
  rw [hlength] at hroom
  have hread := statement_of_alike (r := []) hroom halike
  rw [List.append_nil,hd'] at hread
  exact congrArg Prod.fst (statement_of_statement hc hread)

/-- The text of each statement of a block that was read is read as that statement, by itself and
within the same limit. -/
theorem reading_slice {s : Source} {nesting : Nesting} {c₀ : Console} {t u : Tree}
    (h : (s.block .standard nesting c₀).1 = .ok t) (hu : u ∈ t.statements) (copy : Nat) :
    ∃ u' : Tree, u'.bare = u.bare ∧ ∀ (c : Console), c.problems = [] →
      (reading false nesting ⟨s.textOf u,copy⟩ c).1 = .ok u' := by
  obtain ⟨body,hbody,rfl⟩ := statements_of_block h
  obtain ⟨before,after,d,hts,rfl,hdepth⟩ := exists_of_mem_statements hbody hu
  have hlexemes := isLexeme_of_part hts
  have hspan := d.span_of_standardTokens hts
  have hlast : d.tokens.getLast? = some d.semicolon :=
    List.getLast?_eq_some_iff.2 ⟨d.target :: d.equals :: d.value.tokens,by simp [Statement.tokens]⟩
  have hsemicolon := hlexemes _ (List.mem_of_getLast? hlast)
  have hstands : (Piece.ofToken d.semicolon).Stands [] :=
    Piece.stands_of_isLexeme hsemicolon (by simp [Piece.Apart]) (by simp)
  obtain ⟨mid,hslice,hmid,htokens⟩ := tokens_of_slice hts rfl hlast hstands
  rw [List.append_nil] at hmid
  refine reading_of_statement hlexemes ?_ hdepth
  rw [standardTokens,textOf,hspan,hslice,Stream.ofText,hmid]
  simpa using htokens 0

end Source
end AssignLang
