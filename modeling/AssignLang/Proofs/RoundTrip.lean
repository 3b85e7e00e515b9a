import AssignLang.Proofs.Reading
import AssignLang.Proofs.Tree.Canonical

namespace AssignLang

open Grammar

/-- What reading makes of a program. -/
def Rank.ofReading : Bool → Rank
  | true => .program
  | false => .statement

namespace Tree

theorem reads_statement {t : Tree} (h : t.Canonical .statement) (r : Text) :
    Piece.Reads t.code t.tokens r := by
  cases h with
  | assign hk hx h => exact reads_assign hk hx h.arithmetic r

/-- What is read by itself in front of anything is read line by line. -/
theorem reads_join {body : List Tree} (h : ∀ t ∈ body, ∀ r, Piece.Reads t.code t.tokens r)
    (r : Text) : Piece.Reads (Text.join ['\n'] (codeAll body)) (tokensAll body) r := by
  induction body with
  | nil => exact Piece.reads_nil r
  | cons t body ih =>
    obtain ⟨ht,hrest⟩ := List.forall_mem_cons.1 h
    have hbody := ih hrest
    cases body with
    | nil =>
      rw [codeAll,codeAll,tokensAll,tokensAll,List.append_nil]
      simpa [Text.join,List.intercalate] using ht r
    | cons u body =>
      have hline : Piece.Reads (['\n'] ++ Text.join ['\n'] (codeAll (u :: body)))
          ([] ++ tokensAll (u :: body)) r := (Piece.reads_blank rfl _).append hbody
      exact (ht _).append hline

theorem reads_program {t : Tree} (h : t.Canonical .program) (r : Text) :
    Piece.Reads t.code t.tokens r := by
  cases h with
  | block h => exact reads_join (fun t ht => reads_statement (h t ht)) r

theorem reads_of_rank {full : Bool} {t : Tree} (h : t.Canonical (.ofReading full)) :
    Piece.content (Piece.ofText .standard t.code) = t.tokens.map Piece.ofToken := by
  have hr : Piece.Reads t.code t.tokens [] := by
    cases full with
    | true => exact reads_program h []
    | false => exact reads_statement h []
  rw [Piece.Reads,List.append_nil] at hr
  rw [hr]
  exact List.append_nil _

end Tree

namespace Source

theorem map_standardTokens {s : Source} {ts : List Token}
    (h : Piece.content (Piece.ofText .standard s.text) = ts.map Piece.ofToken) :
    s.standardTokens.map Piece.ofToken = ts.map Piece.ofToken := Piece.map_ofToken_tokens h

theorem warned_of_content {s : Source} {ts rest : List Token} {c : Console}
    (h : Piece.content (Piece.ofText .standard s.text) = ts.map Piece.ofToken) :
    s.warned rest c = c := by
  have hi : (Stream.ofText .standard s.text).illegals = [] := Piece.illegals_eq_nil h
  rw [warned,Stream.skipped,hi]
  exact Console.warnIllegal_nil c s

theorem keepBefore_of_idle {s : Source} {c : Console} (hc : c.Idle) (offset : Int) :
    s.keepBefore offset c = c := by
  obtain ⟨warnings,problems,printed⟩ := c
  obtain rfl : warnings = [] := hc.warnings
  rfl

/-- What is read has one of the shapes of programs. -/
theorem canonical_of_reading {full : Bool} {nesting : Nesting} {s : Source} {c : Console} {t : Tree}
    (h : (s.reading full nesting c).1 = .ok t) : t.Canonical (.ofReading full) := by
  cases full with
  | true =>
    obtain ⟨ds,hds,rfl⟩ := exists_of_block h
    apply Tree.Canonical.block
    intro u hu
    obtain ⟨d,hd,rfl⟩ := List.mem_map.1 hu
    refine d.canonical fun t ht => isLexeme_of_mem_standardTokens (s := s) ?_
    rw [← hds]
    exact List.mem_flatMap.2 ⟨d,hd,ht⟩
  | false =>
    obtain ⟨d,rest,hd,rfl⟩ := exists_of_statement h
    refine d.canonical fun t ht => isLexeme_of_mem_standardTokens (s := s) ?_
    rw [← hd]
    exact List.mem_append_left rest ht

/-- What a limit lets pass is read as without it. -/
theorem reading_unlimited {full : Bool} {nesting : Nesting} {s : Source} {c c' : Console} {t : Tree}
    (h : (s.reading full nesting c).1 = .ok t) (hc : c'.problems = []) :
    (s.reading full .unlimited c').1 = .ok t := by
  cases full with
  | true =>
    obtain ⟨ds,hds,rfl⟩ := exists_of_block h
    exact congrArg Prod.fst (block_of_derivation hc hds)
  | false =>
    obtain ⟨d,rest,hd,rfl⟩ := exists_of_statement h
    exact congrArg Prod.fst (statement_of_derivation hc hd)

/-- A text made of the tokens of a canonical tree is read as this tree, with no warning. -/
theorem reading_of_content {full : Bool} {t : Tree} (h : t.Canonical (.ofReading full)) {s : Source}
    (hs : Piece.content (Piece.ofText .standard s.text) = t.tokens.map Piece.ofToken)
    {c : Console} (hc : c.Idle) :
    ∃ u, s.reading full .unlimited c = (.ok u,c) ∧ u.bare = t.bare := by
  have hts := map_standardTokens hs
  cases full with
  | true =>
    obtain ⟨ds,hds,hbare⟩ := h.derives _ hts
    refine ⟨.block (blockSpan s.text.length (ds.map Statement.tree)) (ds.map Statement.tree),?_,
      hbare _⟩
    rw [reading,if_pos rfl,block_of_derivation hc.problems hds,warned_of_content hs,hc.flush]
  | false =>
    obtain ⟨d,hd,hbare⟩ := h.derives _ hts
    refine ⟨d.tree,?_,hbare⟩
    rw [reading,if_neg (by simp),
      statement_of_derivation hc.problems ((List.append_nil _).trans hd),warned_of_content hs,
      keepBefore_of_idle hc,hc.flush]

theorem reading_code {full : Bool} {t : Tree} (h : t.Canonical (.ofReading full)) (copy : Nat)
    {c : Console} (hc : c.Idle) :
    ∃ u, reading full .unlimited ⟨t.code,copy⟩ c = (.ok u,c) ∧ u.bare = t.bare :=
  reading_of_content h (Tree.reads_of_rank h) hc

/-- Reading and writing are inverse to each other on canonical trees, which are all that is read. -/
theorem reading_inverts_code (full : Bool) (copy : Nat) (c : Console) (hc : c.Idle) :
    (∀ (nesting : Nesting) (s : Source) (c₀ : Console) (t : Tree),
      (s.reading full nesting c₀).1 = .ok t → t.Canonical (.ofReading full)) ∧
    (∀ t : Tree, t.Canonical (.ofReading full) →
      ∃ u, reading full .unlimited ⟨t.code,copy⟩ c = (.ok u,c) ∧ u.same t) ∧
    ∀ (nesting : Nesting) (s : Source) (c₀ : Console) (t : Tree),
      (s.reading full nesting c₀).1 = .ok t →
        ∃ u, reading full .unlimited ⟨t.code,copy⟩ c = (.ok u,c) ∧ u.same t ∧ u.code = t.code := by
  refine ⟨fun nesting s c₀ t => canonical_of_reading,?_,?_⟩
  · intro t ht
    obtain ⟨u,hu,hbare⟩ := reading_code ht copy hc
    exact ⟨u,hu,(Tree.same_iff u t).2 hbare⟩
  · intro nesting s c₀ t ht
    obtain ⟨u,hu,hbare⟩ := reading_code (canonical_of_reading ht) copy hc
    exact ⟨u,hu,(Tree.same_iff u t).2 hbare,Tree.code_eq_of_bare hbare⟩

/-- The parentheses, the blank between two minus signs and the point of `2.` come back. -/
theorem reading_inverts_code_minuses :
    Console.Idle {} ∧
      ((reading true .unlimited ⟨"x=--a*(2. - b)/3;//y\ny=x;".toList,0⟩ {}).1.map
        Tree.code).toOption = some "x = - -a*(2.-b)/3;\ny = x;".toList ∧
      ∃ u, reading true .unlimited ⟨"x = - -a*(2.-b)/3;\ny = x;".toList,0⟩ {} = (.ok u,{}) ∧
        u.code = "x = - -a*(2.-b)/3;\ny = x;".toList := by
  have hcode : ((reading true .unlimited ⟨"x=--a*(2. - b)/3;//y\ny=x;".toList,0⟩ {}).1.map
      Tree.code).toOption = some "x = - -a*(2.-b)/3;\ny = x;".toList := by decide +kernel
  refine ⟨⟨rfl,rfl⟩,hcode,?_⟩
  cases ht : (reading true .unlimited ⟨"x=--a*(2. - b)/3;//y\ny=x;".toList,0⟩ {}).1 with
  | error f =>
    rw [ht] at hcode
    cases hcode
  | ok t =>
    rw [ht] at hcode
    obtain ⟨u,hu,-,hc⟩ := (reading_inverts_code true 0 {} ⟨rfl,rfl⟩).2.2 .unlimited _ {} t ht
    rw [Option.some.inj hcode] at hu hc
    exact ⟨u,hu,hc⟩

end Source
end AssignLang
