import AssignLang.Proofs.Grammar.Subtree
import AssignLang.Proofs.Slice

namespace AssignLang

open Grammar

/-- Reading a text gives a statement that is `t` up to the places. -/
def Text.ReadsAs (nesting : Nesting) (text : Text) (t : Tree) : Prop :=
  ∀ (copy : Nat) (c : Console), c.problems = [] →
    ∃ u, (Source.reading false nesting ⟨text,copy⟩ c).1 = .ok u ∧ u.same t

/-- A name for a value to be assigned to. -/
def Token.placeholder : Token := ⟨['x'],.name,.unknown⟩

namespace Grammar

/-- An expression assigned to a name. -/
def Chain.assigned (e : Chain .sum) : Statement where
  target := .placeholder
  isName := rfl
  equals := .ofKind .equals
  isEquals := rfl
  value := e
  semicolon := .ofKind .semicolon
  isSemicolon := rfl

theorem Chain.isLexeme_assigned (e : Chain .sum) (h : ∀ t ∈ e.tokens, t.IsLexeme) :
    ∀ t ∈ e.assigned.tokens, t.IsLexeme := by
  have htarget : Token.placeholder.IsLexeme := .mk (by decide) (by simp)
  have hequals : (Token.ofKind .equals).IsLexeme := by
    simp [Token.IsLexeme,Kind.Spells,Token.ofKind,Kind.text,Vocabulary.standard]
  have hsemicolon : (Token.ofKind .semicolon).IsLexeme := by
    simp [Token.IsLexeme,Kind.Spells,Token.ofKind,Kind.text,Vocabulary.standard]
  rw [Statement.tokens,List.forall_mem_cons,List.forall_mem_cons,List.forall_mem_append]
  exact ⟨htarget,hequals,h,by simpa [assigned] using hsemicolon⟩

end Grammar

namespace Piece

/-- What is read of an assignment to a name, if the text of the value is read apart from the
semicolon. -/
theorem tokens_assignment {ps : List Piece} {ts : List Token}
    (h : ofText .standard (ps.flatMap text ++ [';']) = ps ++ ofText .standard [';'])
    (hts : ∀ o, (tokens o ps).map ofToken = ts.map ofToken) :
    (tokens 0 (ofText .standard ("x = ".toList ++ ps.flatMap text ++ [';']))).map ofToken =
      ofToken .placeholder :: ofToken (.ofKind .equals) ::
        (ts.map ofToken ++ [ofToken (.ofKind .semicolon)]) := by
  have hname (r : Text) : ofText .standard ('x' :: ' ' :: r) =
      lexeme .name ['x'] :: ofText .standard (' ' :: r) :=
    ofText_name (l := ['x']) (.mk (by decide) (by simp)) (apart_cons r (by decide))
  have hequals (r : Text) : ofText .standard ('=' :: ' ' :: r) =
      lexeme .equals ['='] :: ofText .standard (' ' :: r) :=
    ofText_operator (by simp [Vocabulary.standard]) (by simp)
  have hsemicolon : ofText .standard [';'] = [lexeme .semicolon [';']] :=
    ofText_operator (by simp [Vocabulary.standard]) (by simp)
  change (tokens 0 (ofText .standard ('x' :: ' ' :: '=' :: ' ' :: (ps.flatMap text ++ [';'])))).map
    ofToken = _
  rw [hname,ofText_blank rfl,hequals,ofText_blank rfl,h,hsemicolon]
  simp only [tokens,tokens_append,List.map_cons,List.map_append,hts]
  rfl

end Piece

namespace Source

variable {s : Source} {nesting : Nesting} {size : Nat} {before after : List Token}

/-- The tokens of a tree stand together in the program, and its place goes from the first through
the last of them. -/
def Locates (s : Source) (t : Tree) : Prop :=
  ∃ before ts after, s.standardTokens = before ++ ts ++ after ∧
    ts.map Piece.ofToken = t.tokens.map Piece.ofToken ∧ t.span.Frames ts

theorem inOrder_of_part {ts : List Token} (h : s.standardTokens = before ++ ts ++ after) :
    Token.InOrder ts := s.inOrder_standardTokens.sublist (sublist_of_part h)

theorem exists_value_part (d : Statement) (h : s.standardTokens = before ++ d.tokens ++ after) :
    ∃ us vs, s.standardTokens = us ++ d.value.tokens ++ vs := by
  refine ⟨before ++ [d.target,d.equals],d.semicolon :: after,?_⟩
  rw [h,Statement.tokens]
  simp

/-- The text of an expression is read as the expression, where it is assigned. -/
theorem readsAs_value (e : Chain .sum) (h : s.standardTokens = before ++ e.tokens ++ after)
    (hdepth : e.depth ≤ nesting.readingRoom size) :
    Text.ReadsAs nesting ("x = ".toList ++ s.textOf e.tree ++ [';'])
      (.assign .unknown .placeholder e.tree) := by
  intro copy
  have hlexemes := isLexeme_of_part h
  obtain ⟨first,last,hfirst,hlast,hspan⟩ := e.frames (inOrder_of_part h)
  -- Whatever follows in the program, here it is a semicolon, which lengthens no lexeme.
  have hstands : (Piece.ofToken last).Stands [';'] := Piece.stands_of_isLexeme
    (hlexemes last (List.mem_of_getLast? hlast)) (Piece.apart_cons [] (by decide)) (by simp)
  obtain ⟨mid,hslice,hmid,htokens⟩ := tokens_of_slice h hfirst hlast hstands
  have hread : (standardTokens ⟨"x = ".toList ++ s.textOf e.tree ++ [';'],copy⟩).map
      Piece.ofToken = e.assigned.tokens.map Piece.ofToken := by
    rw [standardTokens,textOf,hspan,hslice,Stream.ofText]
    simp only [Piece.tokens_assignment hmid htokens]
    simp [Chain.assigned,Statement.tokens]
  obtain ⟨u,hu,hreading⟩ := reading_of_statement (e.isLexeme_assigned hlexemes) hread hdepth
  intro c hc
  exact ⟨u,hreading c hc,(Tree.same_iff u _).2 hu⟩

theorem locates_value (e : Chain .sum) (h : s.standardTokens = before ++ e.tokens ++ after) :
    s.Locates e.tree :=
  ⟨before,e.tokens,after,h,(e.tokens_tree (isLexeme_of_part h)).symm,e.frames (inOrder_of_part h)⟩

theorem locates_statement (d : Statement) (h : s.standardTokens = before ++ d.tokens ++ after) :
    s.Locates d.tree :=
  ⟨before,d.tokens,after,h,(d.tokens_tree (isLexeme_of_part h)).symm,d.frames (inOrder_of_part h)⟩

theorem locates_block {ds : List Statement} (h : ds.flatMap Statement.tokens = s.standardTokens)
    (hne : ds ≠ []) (length : Nat) :
    s.Locates (.block (blockSpan length (ds.map Statement.tree)) (ds.map Statement.tree)) := by
  have hall : s.standardTokens = [] ++ ds.flatMap Statement.tokens ++ [] := by simp [h]
  have hfirst := List.head?_eq_some_head hne
  have hlast := List.getLast?_eq_some_getLast hne
  have hframes := (frames_block hfirst hlast (inOrder_of_part hall) length).2
  have htokens := tokens_block ds (isLexeme_of_part hall)
  exact ⟨[],_,[],hall,htokens.symm,hframes⟩

/-- Whatever is below an expression is an expression of some of its tokens. -/
theorem exists_part_of_mem_nodes (e : Chain .sum)
    (h : s.standardTokens = before ++ e.tokens ++ after) {n : Tree} (hn : n ∈ e.tree.nodes) :
    ∃ (d : Chain .sum) (before after : List Token),
      s.standardTokens = before ++ d.tokens ++ after ∧ n = d.tree ∧ d.depth ≤ e.depth := by
  obtain ⟨d,us,vs,ht,hd,hdepth⟩ := e.contains_of_mem_nodes hn
  refine ⟨d,before ++ us,vs ++ after,?_,hd,hdepth⟩
  rw [h,ht]
  simp only [List.append_assoc]

theorem in_place_of_mem_nodes (d : Statement)
    (h : s.standardTokens = before ++ d.tokens ++ after) {n : Tree} (hn : n ∈ d.tree.nodes) :
    n.Orderly ∧ s.Locates n := by
  rcases List.mem_cons.1 hn with rfl | hn
  · exact ⟨d.orderly (inOrder_of_part h),locates_statement d h⟩
  · obtain ⟨us,vs,hvalue⟩ := exists_value_part d h
    obtain ⟨e,us,vs,he,rfl,-⟩ := exists_part_of_mem_nodes d.value hvalue hn
    exact ⟨e.orderly (inOrder_of_part he),locates_value e he⟩

/-- Every node of a block that was read is where its tokens are, and its text is read as the node
again, as a statement or as the value of one. -/
theorem block_locates {s : Source} {nesting : Nesting} {c₀ : Console} {t : Tree}
    (h : (s.block .standard nesting c₀).1 = .ok t) :
    (∀ n ∈ t.nodes, n.Orderly ∧ (n.tokens ≠ [] → s.Locates n)) ∧
    ∃ span body, t = .block span body ∧
      (∀ first ∈ body.head?, ∀ last ∈ body.getLast?, span = ⟨first.span.start,last.span.stop⟩) ∧
      ∀ u ∈ body, Text.ReadsAs nesting (s.textOf u) u ∧
        ∃ place x value, u = .assign place x value ∧
          ∀ n ∈ value.nodes, Text.ReadsAs nesting ("x = ".toList ++ s.textOf n ++ [';'])
            (.assign .unknown .placeholder n) := by
  obtain ⟨ds,hds,ht⟩ := exists_of_block h
  obtain ⟨body,hbody,hblock⟩ := statements_of_block h
  obtain ⟨-,rfl⟩ := Tree.block.inj (ht.symm.trans hblock)
  have horder : Token.InOrder (ds.flatMap Statement.tokens) := by
    rw [hds]
    exact s.inOrder_standardTokens
  refine ⟨?_,_,_,ht,?_,?_⟩
  · rw [ht]
    intro n hn
    rcases List.mem_cons.1 hn with rfl | hn
    · refine ⟨orderly_block horder _,?_⟩
      intro htokens
      apply locates_block hds
      rintro rfl
      exact htokens rfl
    · obtain ⟨u,hu,hn⟩ := Tree.mem_nodesAll.1 hn
      obtain ⟨before,after,d,hd,rfl,-⟩ := exists_of_mem_statements hbody hu
      obtain ⟨horderly,hlocates⟩ := in_place_of_mem_nodes d hd hn
      exact ⟨horderly,fun _ => hlocates⟩
  · intro first hfirst last hlast
    rw [List.head?_map] at hfirst
    rw [List.getLast?_map] at hlast
    obtain ⟨d,hd,rfl⟩ := Option.map_eq_some_iff.1 hfirst
    obtain ⟨e,he,rfl⟩ := Option.map_eq_some_iff.1 hlast
    exact (frames_block hd he horder _).1
  · intro u hu
    have hslice : Text.ReadsAs nesting (s.textOf u) u := by
      intro copy c hc
      have hmem : u ∈ t.statements := by
        rw [ht]
        exact hu
      obtain ⟨u',hsame,hreading⟩ := reading_slice h hmem copy
      exact ⟨u',hreading c hc,(Tree.same_iff u' u).2 hsame⟩
    refine ⟨hslice,?_⟩
    obtain ⟨before,after,d,hd,rfl,hdepth⟩ := exists_of_mem_statements hbody hu
    refine ⟨_,_,_,rfl,?_⟩
    intro n hn
    obtain ⟨us,vs,hvalue⟩ := exists_value_part d hd
    obtain ⟨e,us,vs,he,rfl,hle⟩ := exists_part_of_mem_nodes d.value hvalue hn
    exact readsAs_value e he (Nat.le_trans hle hdepth)

/-- A comment, a line feed and an illegal character are in the text of the group, and the brackets
are not in that of the difference. -/
theorem block_locates_group :
    ∃ t, (block .standard .unlimited ⟨"y=1*(2//z\n-$3);".toList,0⟩ {}).1 = .ok t ∧
      t.nodes.map (textOf ⟨"y=1*(2//z\n-$3);".toList,0⟩) =
        ["y=1*(2//z\n-$3);","y=1*(2//z\n-$3);","1*(2//z\n-$3)","1","(2//z\n-$3)","2//z\n-$3","2",
          "3"].map String.toList ∧
      (∀ n ∈ t.nodes, n.Orderly) ∧
      ∀ u ∈ t.statements, ∃ place x value, u = .assign place x value ∧ ∀ n ∈ value.nodes,
        Text.ReadsAs .unlimited
          ("x = ".toList ++ textOf ⟨"y=1*(2//z\n-$3);".toList,0⟩ n ++ [';'])
          (.assign .unknown .placeholder n) := by
  have htexts : ((block .standard .unlimited ⟨"y=1*(2//z\n-$3);".toList,0⟩ {}).1.map
      fun t => t.nodes.map (textOf ⟨"y=1*(2//z\n-$3);".toList,0⟩)).toOption =
      some (["y=1*(2//z\n-$3);","y=1*(2//z\n-$3);","1*(2//z\n-$3)","1","(2//z\n-$3)","2//z\n-$3",
        "2","3"].map String.toList) := by decide +kernel
  cases ht : (block .standard .unlimited ⟨"y=1*(2//z\n-$3);".toList,0⟩ {}).1 with
  | error f =>
    rw [ht] at htexts
    cases htexts
  | ok t =>
    rw [ht] at htexts
    obtain ⟨hnodes,span,body,rfl,-,hbody⟩ := block_locates ht
    refine ⟨_,rfl,Option.some.inj htexts,fun n hn => (hnodes n hn).1,?_⟩
    intro u hu
    exact (hbody u hu).2

end Source
end AssignLang
