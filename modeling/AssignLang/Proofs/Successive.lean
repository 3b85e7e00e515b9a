import AssignLang.Proofs.Beginning

namespace AssignLang

open Grammar

namespace Source

variable {p : Text} {k copy : Nat}

/-- The tokens from offset `k` on, each where it stands in the whole text. -/
def tokensFrom (p : Text) (k : Nat) : List Token :=
  Piece.tokens k (Piece.ofText .standard (p.drop k))

theorem tokensFrom_zero (s : Source) : tokensFrom s.text 0 = s.standardTokens := rfl

theorem map_shift_standardTokens (p : Text) (k copy : Nat) :
    (standardTokens ⟨p.drop k,copy⟩).map (Token.shift k) = tokensFrom p k := by
  have hadd := Piece.tokens_add 0 k (Piece.ofText .standard (p.drop k))
  rw [Nat.zero_add] at hadd
  exact hadd.symm

/-- Behind a statement the text reads on as if it began there. -/
theorem tokensFrom_behind {d : Statement} {rest : List Token}
    (h : standardTokens ⟨p.drop k,copy⟩ = d.tokens ++ rest) :
    tokensFrom p (k+d.tree.span.stop.toNat) = rest.map (Token.shift k) := by
  obtain ⟨front,hfront⟩ := exists_opens h
  obtain ⟨back,hpieces⟩ := hfront.pieces
  have hback : Piece.ofText .standard (p.drop (k+(front.flatMap Piece.text).length)) = back := by
    have hdrop := Piece.ofText_drop hpieces
    rwa [List.drop_drop] at hdrop
  have hrest : Piece.tokens (front.flatMap Piece.text).length back = rest := by
    have hall : Piece.tokens 0 (front ++ back) = d.tokens ++ rest := by
      rw [← hpieces]
      exact h
    rw [Piece.tokens_append,hfront.tokens,Nat.zero_add] at hall
    exact List.append_cancel_left hall
  have hmove := Piece.tokens_add (front.flatMap Piece.text).length k back
  rw [hfront.span_stop,Int.toNat_natCast,tokensFrom,hback,Nat.add_comm k,hmove,hrest]

theorem tree_shift_of_standardTokens {s : Source} {d : Statement} {rest : List Token}
    (h : s.standardTokens = d.tokens ++ rest) (k : Nat) : (d.shift k).tree = d.tree.shift k := by
  have hwithin : ∀ t ∈ d.tokens, t.span.Within 0 s.text.length := by
    intro t ht
    apply within_of_mem_standardTokens
    rw [h]
    exact List.mem_append_left rest ht
  exact d.tree_shift k hwithin

/-- A statement that is read from offset `k` on has been derived there. -/
theorem derivation_from {c : Console} {t : Tree}
    (h : (statement .standard .unlimited ⟨p.drop k,copy⟩ c).1 = .ok t) :
    ∃ d : Statement, d.tree = t.shift k ∧
      tokensFrom p k = d.tokens ++ tokensFrom p (k+t.span.stop.toNat) := by
  obtain ⟨d,rest,hd,rfl⟩ := exists_of_statement h
  refine ⟨d.shift k,tree_shift_of_standardTokens hd.symm k,?_⟩
  rw [tokensFrom_behind hd.symm,← map_shift_standardTokens p k copy,← hd,List.map_append,
    d.tokens_shift]

/-- A statement derived from offset `k` on is read there. -/
theorem statement_from {c : Console} (hc : c.problems = []) {d : Statement} {rest : List Token}
    (h : tokensFrom p k = d.tokens ++ rest) (copy : Nat) :
    ∃ t c', statement .standard .unlimited ⟨p.drop k,copy⟩ c = (.ok t,c') ∧ c'.Idle ∧
      d.tree = t.shift k ∧ tokensFrom p (k+t.span.stop.toNat) = rest := by
  rw [← map_shift_standardTokens p k copy] at h
  obtain ⟨us,vs,htokens,hus,hvs⟩ := List.map_eq_append_iff.1 h
  have hkinds : us.map Piece.ofToken = d.tokens.map Piece.ofToken := by
    rw [← hus,List.map_map]
    rfl
  have hall : standardTokens ⟨p.drop k,copy⟩ = [] ++ us ++ vs := htokens
  have hlexemes : ∀ t ∈ d.tokens, t.IsLexeme := by
    intro t ht
    rw [← hus] at ht
    obtain ⟨u,hu,rfl⟩ := List.mem_map.1 ht
    have hlexeme : u.IsLexeme := isLexeme_of_part hall u hu
    exact hlexeme
  obtain ⟨e,rfl,-⟩ := (d.canonical hlexemes).derives us
    (hkinds.trans (d.tokens_tree hlexemes).symm)
  have hshift : e.shift k = d := by
    rw [← e.tokens_shift] at hus
    have hsame : (e.shift k).tokens ++ [] = d.tokens ++ [] := by rw [hus]
    exact ((e.shift k).append_inj d hsame).1
  have hread := statement_of_derivation hc htokens.symm
  have hbehind := tokensFrom_behind htokens
  rw [hvs] at hbehind
  refine ⟨e.tree,_,hread,Console.idle_flush _,?_,hbehind⟩
  rw [← hshift]
  exact tree_shift_of_standardTokens htokens k

/-- Reading one statement at a time, each from the text behind the one before, leads from offset `k`
to offset `k'`. Each statement comes with the offset at which its text starts. -/
inductive Successive (p : Text) (copy : Nat) :
    Nat → Console → List (Nat × Tree) → Nat → Console → Prop
  | nil {k : Nat} {c : Console} : Successive p copy k c [] k c
  | cons {k k' : Nat} {c c₁ c' : Console} {t : Tree} {rs : List (Nat × Tree)}
      (h : statement .standard .unlimited ⟨p.drop k,copy⟩ c = (.ok t,c₁))
      (hs : Successive p copy (k+t.span.stop.toNat) c₁ rs k' c') :
      Successive p copy k c ((k,t) :: rs) k' c'

/-- The statements read one at a time have been derived one behind the other. -/
theorem Successive.derivation {c c' : Console} {k' : Nat} {rs : List (Nat × Tree)}
    (h : Successive p copy k c rs k' c') : ∃ ds : List Statement,
      ds.map Statement.tree = rs.map (fun r => r.2.shift r.1) ∧
      tokensFrom p k = ds.flatMap Statement.tokens ++ tokensFrom p k' := by
  induction h with
  | nil => exact ⟨[],rfl,rfl⟩
  | cons h hs ih =>
    obtain ⟨ds,htrees,htokens⟩ := ih
    obtain ⟨d,hd,hfrom⟩ := derivation_from (congrArg Prod.fst h)
    refine ⟨d :: ds,?_,?_⟩
    · rw [List.map_cons,hd,htrees,List.map_cons]
    · rw [hfrom,htokens,List.flatMap_cons,List.append_assoc]

/-- Statements derived one behind the other are read one at a time. -/
theorem successive_of_derivation (p : Text) (copy : Nat) (ds : List Statement) {k : Nat}
    {c : Console} (hc : c.problems = []) (h : tokensFrom p k = ds.flatMap Statement.tokens) :
    ∃ rs k' c', Successive p copy k c rs k' c' ∧ tokensFrom p k' = [] ∧
      ds.map Statement.tree = rs.map (fun r => r.2.shift r.1) := by
  induction ds generalizing k c with
  | nil => exact ⟨[],k,c,.nil,h,rfl⟩
  | cons d ds ih =>
    rw [List.flatMap_cons] at h
    obtain ⟨t,c₁,hread,hidle,htree,hrest⟩ := statement_from hc h copy
    obtain ⟨rs,k',c',hs,hend,htrees⟩ := ih hidle.problems hrest
    exact ⟨(k,t) :: rs,k',c',.cons hread hs,hend,by rw [List.map_cons,htree,htrees,List.map_cons]⟩

/-- Whether the first token of a text stands for its end. -/
def startsWithEnd (s : Source) (c : Console) : Bool :=
  ((Cursor.start s).next c).2.1.token.map Token.kind = some .eof

theorem startsWithEnd_iff (s : Source) (c : Console) :
    s.startsWithEnd c ↔ s.standardTokens = [] := by
  rw [startsWithEnd,decide_eq_true_eq]
  rcases (Cursor.start s).next_cases (Nat.zero_le _) c with
    ⟨hnil,hnext⟩ | ⟨bad,t,c',hnext,hc',-,-,hcons,-⟩
  · rw [hnext]
    exact ⟨fun _ => hnil,fun _ => rfl⟩
  · have hmem : t ∈ s.standardTokens := by
      have htokens : s.standardTokens = t :: Piece.tokens c'.position c'.pieces := hcons
      rw [htokens]
      exact List.mem_cons_self
    have htoken : c'.token = some t := by rw [hc']
    rw [hnext]
    simp only [htoken,Option.map_some,Option.some.injEq]
    constructor
    · intro heof
      exact absurd heof (kind_ne_eof hmem)
    · intro hnil
      rw [hnil] at hmem
      cases hmem

theorem tokensFrom_eq_nil_iff (p : Text) (k copy : Nat) (c : Console) :
    tokensFrom p k = [] ↔ (⟨p.drop k,copy⟩ : Source).startsWithEnd c := by
  rw [startsWithEnd_iff,← map_shift_standardTokens p k copy,List.map_eq_nil_iff]

/-- A program is read as a block just if reading its statements one at a time comes to the end of
the text, and as the block of these statements, each moved to the place where its text starts. -/
theorem block_iff_successive (s : Source) (c : Console) (hc : c.Idle) (copy : Nat)
    (ts : List Tree) :
    (∃ span, (s.block .standard .unlimited c).1 = .ok (.block span ts)) ↔
      ∃ rs k c', Successive s.text copy 0 c rs k c' ∧
        (⟨s.text.drop k,copy⟩ : Source).startsWithEnd c' ∧
        ts = rs.map fun r => r.2.shift r.1 := by
  constructor
  · rintro ⟨span,h⟩
    obtain ⟨ds,hds,ht⟩ := exists_of_block h
    obtain ⟨-,rfl⟩ := Tree.block.inj ht
    obtain ⟨rs,k,c',hs,hend,htrees⟩ :=
      successive_of_derivation s.text copy ds hc.problems ((tokensFrom_zero s).trans hds.symm)
    exact ⟨rs,k,c',hs,(tokensFrom_eq_nil_iff _ _ _ _).1 hend,htrees⟩
  · rintro ⟨rs,k,c',hs,hend,rfl⟩
    obtain ⟨ds,htrees,htokens⟩ := hs.derivation
    rw [(tokensFrom_eq_nil_iff _ _ _ _).2 hend,List.append_nil,tokensFrom_zero] at htokens
    rw [block_of_derivation hc.problems htokens.symm,htrees]
    exact ⟨_,rfl⟩

/-- Neither a comment nor illegal characters behind a statement are in the way of the next one. -/
theorem block_iff_successive_comments :
    Console.Idle {} ∧ ∃ rs k c',
      Successive "a=1;$ //b=2;\n#b=a;//".toList 0 0 {} rs k c' ∧
      (⟨"a=1;$ //b=2;\n#b=a;//".toList.drop k,0⟩ : Source).startsWithEnd c' ∧
      rs.map (fun r => r.2.code) = ["a = 1;".toList,"b = a;".toList] := by
  have hcodes : ((block .standard .unlimited ⟨"a=1;$ //b=2;\n#b=a;//".toList,0⟩ {}).1.map
      fun t => t.statements.map Tree.code).toOption = some ["a = 1;".toList,"b = a;".toList] := by
    decide +kernel
  refine ⟨⟨rfl,rfl⟩,?_⟩
  cases ht : (block .standard .unlimited ⟨"a=1;$ //b=2;\n#b=a;//".toList,0⟩ {}).1 with
  | error f =>
    rw [ht] at hcodes
    cases hcodes
  | ok t =>
    obtain ⟨ds,-,rfl⟩ := exists_of_block ht
    obtain ⟨rs,k,c',hs,hend,htrees⟩ := (block_iff_successive _ {} ⟨rfl,rfl⟩ 0 _).1 ⟨_,ht⟩
    refine ⟨rs,k,c',hs,hend,?_⟩
    rw [ht] at hcodes
    have hmap : (ds.map Statement.tree).map Tree.code = ["a = 1;".toList,"b = a;".toList] :=
      Option.some.inj hcodes
    rw [htrees,List.map_map] at hmap
    rw [← hmap]
    apply List.map_congr_left
    intro r hr
    exact (Tree.code_eq_of_bare (Tree.bare_shift r.1 r.2)).symm

end Source
end AssignLang
