import AssignLang.Proofs.Diagnostic.Skipped
import AssignLang.Proofs.Session.Concatenation

namespace AssignLang

open Grammar

namespace Piece

theorem bounds_of_mem_illegals {o i : Nat} {ps : List Piece} (h : i ∈ illegals o ps) :
    o ≤ i ∧ i < o+(ps.flatMap text).length := by
  induction ps generalizing o with
  | nil => cases h
  | cons p ps ih =>
    rw [length_text_cons]
    cases p with
    | illegal c =>
      have hone : (illegal c).text.length = 1 := rfl
      rcases List.mem_cons.1 h with rfl | h
      · omega
      · have hbehind := ih h
        omega
    | blank | comment | lexeme =>
      have hbehind := ih h
      omega

end Piece

namespace Source

/-- A statement at the beginning of the tokens is read if its own tokens leave room for it. -/
theorem statement_of_beginning {s : Source} {d : Statement} {rest : List Token}
    (h : s.standardTokens = d.tokens ++ rest) {nesting : Nesting}
    (hdepth : d.value.depth ≤ nesting.readingRoom d.tokens.length) :
    Grammar.statement (nesting.readingRoom s.standardTokens.length) s.standardTokens =
      .ok (d.tree,rest) := by
  rw [h,List.length_append]
  apply statement_of_depth
  exact Nat.le_trans hdepth (nesting.readingRoom_mono (Nat.le_add_right _ _))

/-- The text begins with pieces that have the tokens of a statement and end with its semicolon. -/
structure Opens (s : Source) (front : List Piece) (d : Statement) : Prop where
  pieces : ∃ back, Piece.ofText .standard s.text = front ++ back
  tokens : Piece.tokens 0 front = d.tokens
  stop : d.semicolon.span.stop = (front.flatMap Piece.text).length
  last : front.getLast? = some (Piece.ofToken d.semicolon)

theorem exists_opens {s : Source} {d : Statement} {rest : List Token}
    (h : s.standardTokens = d.tokens ++ rest) : ∃ front, s.Opens front d := by
  have hsplit : s.standardTokens =
      (d.target :: d.equals :: d.value.tokens) ++ d.semicolon :: rest := by
    rw [h]
    simp [Statement.tokens]
  obtain ⟨front,back,hpieces,hfront,hstop,hlast⟩ := Piece.exists_through hsplit
  rw [Nat.zero_add] at hstop
  exact ⟨front,⟨back,hpieces⟩,hfront,hstop,hlast⟩

namespace Opens
variable {s : Source} {front : List Piece} {d : Statement} (h : s.Opens front d)
include h

theorem exists_standardTokens : ∃ rest, s.standardTokens = d.tokens ++ rest := by
  obtain ⟨back,hpieces⟩ := h.pieces
  refine ⟨Piece.tokens (0+(front.flatMap Piece.text).length) back,?_⟩
  rw [standardTokens,Stream.ofText,hpieces,Piece.tokens_append,h.tokens]

/-- The pieces stand in front of the rest of the text. -/
theorem exists_allStand : ∃ back, Piece.ofText .standard s.text = front ++ back ∧
    Piece.AllStand front (back.flatMap Piece.text) := by
  obtain ⟨back,hpieces⟩ := h.pieces
  have hstand : Piece.AllStand ([] ++ front ++ back) [] := by
    rw [List.nil_append,← hpieces]
    exact Piece.allStand_ofText s.text
  have hmiddle := hstand.middle
  rw [List.append_nil] at hmiddle
  exact ⟨back,hpieces,hmiddle⟩

theorem span_stop : d.tree.span.stop = (front.flatMap Piece.text).length := by
  obtain ⟨rest,hrest⟩ := h.exists_standardTokens
  have hall : s.standardTokens = [] ++ d.tokens ++ rest := hrest
  rw [d.span_of_standardTokens hall]
  exact h.stop

/-- A semicolon stands in front of any text. -/
theorem stands_last (q : Text) : ∀ p ∈ front.getLast?, p.Stands q := by
  obtain ⟨rest,hrest⟩ := h.exists_standardTokens
  have hlexeme : d.semicolon.IsLexeme :=
    isLexeme_of_mem_standardTokens (s := s) (by simp [hrest,Statement.tokens])
  have hoperator : ([';'],Kind.semicolon) ∈ Vocabulary.standard.operators := by decide
  have hstands : (Piece.ofToken (.ofKind .semicolon)).Stands q :=
    Piece.stands_operator hoperator (by simp)
  intro p hp
  rw [h.last,← Piece.ofToken_ofKind d.isSemicolon hlexeme (by simp)] at hp
  obtain rfl := Option.some.inj hp
  exact hstands

/-- Whatever stands behind the semicolon, other text may take its place. -/
theorem replace (q : Text) (copy : Nat) :
    Opens ⟨s.text.take d.tree.span.stop.toNat ++ q,copy⟩ front d := by
  obtain ⟨back,hpieces,hstand⟩ := h.exists_allStand
  have htake : s.text.take d.tree.span.stop.toNat = front.flatMap Piece.text := by
    rw [h.span_stop,Int.toNat_natCast,← Piece.flatMap_text_ofText .standard s.text,hpieces,
      List.flatMap_append,List.take_left]
  refine ⟨⟨Piece.ofText .standard q,?_⟩,h.tokens,h.stop,h.last⟩
  rw [htake]
  exact (hstand.before (h.stands_last q)).ofText_eq

/-- Skipped in front of the end of the statement is what these pieces skip. -/
theorem mem_illegals_iff (i : Nat) :
    i ∈ Piece.illegals 0 front ↔ s.IsSkipped i ∧ (i : Int) < d.tree.span.stop := by
  obtain ⟨back,hpieces⟩ := h.pieces
  rw [isSkipped_iff,Stream.ofText,hpieces,Piece.illegals_append,List.mem_append,h.span_stop,
    Int.ofNat_lt]
  constructor
  · intro hi
    have hbounds := Piece.bounds_of_mem_illegals hi
    exact ⟨.inl hi,by omega⟩
  · rintro ⟨hi | hi,hlt⟩
    · exact hi
    · have hbounds := Piece.bounds_of_mem_illegals hi
      omega

theorem illegals_sorted : (Piece.illegals 0 front).Pairwise (· < ·) := by
  obtain ⟨back,hpieces⟩ := h.pieces
  have hsorted := s.illegals_ordered
  rw [Stream.ofText,hpieces,Piece.illegals_append] at hsorted
  exact (List.pairwise_append.1 hsorted).1

theorem filter_skipped {rest : List Token} (hrest : s.standardTokens = d.tokens ++ rest) :
    ((Stream.ofText .standard s.text).skipped rest).filter
        (fun i : Nat => (i : Int) < d.tree.span.stop) = Piece.illegals 0 front := by
  obtain ⟨back,hpieces⟩ := h.pieces
  have hnext := stop_le_current hrest (t := d.semicolon) (by simp [Statement.tokens])
  have hillegals : (Stream.ofText .standard s.text).illegals = Piece.illegals 0 front ++
      Piece.illegals (0+(front.flatMap Piece.text).length) back := by
    rw [Stream.ofText,hpieces,Piece.illegals_append]
  rw [h.stop] at hnext
  rw [Stream.skipped,List.filter_filter,hillegals,List.filter_append,h.span_stop]
  rw [List.filter_eq_self.2,List.filter_eq_nil_iff.2,List.append_nil]
  · intro i hi
    have hbounds := Piece.bounds_of_mem_illegals hi
    simp only [Bool.and_eq_true,decide_eq_true_eq]
    omega
  · intro i hi
    have hbounds := Piece.bounds_of_mem_illegals hi
    simp only [Bool.and_eq_true,decide_eq_true_eq]
    omega

/-- What is read and reported is settled by these pieces. -/
theorem statement_eq {nesting : Nesting} {c : Console} (hc : c.Idle)
    (hdepth : d.value.depth ≤ nesting.readingRoom d.tokens.length) :
    s.statement .standard nesting c =
      (.ok d.tree,(c.warnIllegal s (Piece.illegals 0 front)).flush) := by
  obtain ⟨rest,hrest⟩ := h.exists_standardTokens
  rw [statement_of_statement hc.problems (statement_of_beginning hrest hdepth),warned,
    keepBefore_warnIllegal hc,h.filter_skipped hrest]

theorem tallies {c : Console} (hc : c.Idle) : s.Tallies (fun i => (i : Int) < d.tree.span.stop)
    (Piece.illegals 0 front) (runs (Piece.illegals 0 front)) c
      (c.warnIllegal s (Piece.illegals 0 front)).flush := by
  obtain ⟨rest,hrest⟩ := h.exists_standardTokens
  have hmem : d.semicolon ∈ s.standardTokens := by simp [hrest,Statement.tokens]
  obtain ⟨a,b,hspan,hab,-⟩ := exists_span_of_mem hmem
  have hstart : d.semicolon.span.start = a := by rw [hspan]
  have hstop : d.semicolon.span.stop = b := by rw [hspan]
  have hend : b = (front.flatMap Piece.text).length := Int.ofNat_inj.1 (hstop.symm.trans h.stop)
  have htallies : s.Tallies (· < b) (Piece.illegals 0 front) (runs (Piece.illegals 0 front)) c
      (c.warnIllegal s (Piece.illegals 0 front)).flush := by
    apply tallies_runs hc h.illegals_sorted
    · intro k
      rw [h.mem_illegals_iff,h.span_stop,← hend,Int.ofNat_lt]
    · intro k hkb hk
      exact absurd hk (not_isSkipped_of_token hmem (by omega) (by omega))
  apply htallies.congr
  intro k _
  rw [h.span_stop,← hend,Int.ofNat_lt]

end Opens

/-- Reading one statement depends on nothing behind its end: any other text may stand there, and the
same tree is read, with the same places, and the same runs of skipped characters are reported. -/
theorem statement_reads_beginning (nesting : Nesting) (s : Source) (c : Console) (hc : c.Idle)
    {t : Tree} (h : (s.statement .standard nesting c).1 = .ok t) (q : Text) (copy : Nat) :
    ∃ (s' : Source) (os : List Nat) (rs : List (Nat × Nat)),
      s' = ⟨s.text.take t.span.stop.toNat ++ q,copy⟩ ∧
      s.Tallies (fun i => (i : Int) < t.span.stop) os rs c (s.statement .standard nesting c).2 ∧
      s'.Tallies (fun i => (i : Int) < t.span.stop) os rs c (s'.statement .standard nesting c).2 ∧
      s.statement .standard nesting c =
        (.ok t,⟨[],[],c.printed ++ Warning.renderAll (rs.map s.warning)⟩) ∧
      s'.statement .standard nesting c =
        (.ok t,⟨[],[],c.printed ++ Warning.renderAll (rs.map s'.warning)⟩) := by
  have hread : (s.reading false nesting c).1 = .ok t := h
  obtain ⟨-,rest,htree⟩ := treeOf_of_reading hread
  have hs : Grammar.statement (nesting.readingRoom s.standardTokens.length) s.standardTokens =
    .ok (t,rest) := htree
  obtain ⟨d,hd,rfl⟩ := Grammar.exists_of_statement hs
  obtain ⟨front,hfront⟩ := exists_opens hd
  have hdepth : d.value.depth ≤ nesting.readingRoom d.tokens.length := by
    rw [hd] at hs
    exact d.depth_le_readingRoom (depth_of_statement d hs)
  have hreplaced := hfront.replace q copy
  have hfirst := hfront.statement_eq hc hdepth
  have hother := hreplaced.statement_eq hc hdepth
  refine ⟨_,Piece.illegals 0 front,runs (Piece.illegals 0 front),rfl,?_,?_,?_,?_⟩
  · rw [hfirst]
    exact hfront.tallies hc
  · rw [hother]
    exact hreplaced.tallies hc
  · rw [hfirst,flush_warnIllegal hc]
  · rw [hother,flush_warnIllegal hc]

/-- Neither an illegal character nor an open comment nor half a statement behind the first one makes
a difference. -/
theorem statement_reads_beginning_comment :
    Console.Idle {} ∧ ∃ t, (statement .standard .standard ⟨"$x=@#1;y=2;".toList,0⟩ {}).1 = .ok t ∧
      t.span = ⟨1,7⟩ ∧
      (statement .standard .standard ⟨"$x=@#1;#//y=".toList,0⟩ {}).1 = .ok t ∧
      ∃ rs : List (Nat × Nat), (∀ i j, (i,j) ∈ rs ↔
          IsRun (IsSkipped ⟨"$x=@#1;y=2;".toList,0⟩) i j ∧ (i : Int) < 7) ∧
        (statement .standard .standard ⟨"$x=@#1;#//y=".toList,0⟩ {}).2.printed =
          Warning.renderAll (rs.map (warning ⟨"$x=@#1;#//y=".toList,0⟩)) := by
  have hspan : ((statement .standard .standard ⟨"$x=@#1;y=2;".toList,0⟩ {}).1.map
      Tree.span).toOption = some ⟨1,7⟩ := by decide +kernel
  refine ⟨⟨rfl,rfl⟩,?_⟩
  cases ht : (statement .standard .standard ⟨"$x=@#1;y=2;".toList,0⟩ {}).1 with
  | error f =>
    rw [ht] at hspan
    cases hspan
  | ok t =>
    rw [ht] at hspan
    have hplace : t.span = ⟨1,7⟩ := Option.some.inj hspan
    obtain ⟨s',os,rs,hs',htallies,-,-,hread⟩ :=
      statement_reads_beginning .standard _ {} ⟨rfl,rfl⟩ ht "#//y=".toList 0
    have hrs := htallies.mem_runs
    rw [hplace] at hs' hrs
    have hsource : s' = ⟨"$x=@#1;#//y=".toList,0⟩ := hs'
    rw [hsource] at hread
    exact ⟨t,rfl,hplace,congrArg Prod.fst hread,rs,hrs,congrArg (fun r => r.2.printed) hread⟩

end Source
end AssignLang
