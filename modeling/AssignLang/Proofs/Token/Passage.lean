import AssignLang.Proofs.Reading
import AssignLang.Proofs.Token.Partition
import AssignLang.Token.Cursor

namespace AssignLang

namespace Piece

/-- A text cut off where a piece ends reads as the pieces behind it. -/
theorem ofText_drop {v : Vocabulary} {t : Text} {ps qs : List Piece} (h : ofText v t = ps ++ qs) :
    ofText v (t.drop (ps.flatMap text).length) = qs := by
  induction ps generalizing t with
  | nil => exact h
  | cons p ps ih =>
    cases t with
    | nil => cases h
    | cons c r =>
      rw [ofText_cons] at h
      obtain ⟨hp,hps⟩ := List.cons.inj h
      have hrest := ih hps
      rw [List.drop_drop,hp] at hrest
      rw [List.flatMap_cons,List.length_append]
      exact hrest

/-- Either no token is left, or the next one is found with the illegal characters in front of it,
and the pieces behind it are left. -/
theorem advance_cases (o : Nat) (ps : List Piece) :
    (tokens o ps = [] ∧ advance o ps = (illegals o ps,none,o+(ps.flatMap text).length)) ∨
    ∃ (bad : List Nat) (t : Token) (front back : List Piece), ps = front ++ back ∧
      advance o ps = (bad,some t,o+(front.flatMap text).length) ∧
      t.span.stop = (o+(front.flatMap text).length : Nat) ∧
      tokens o ps = t :: tokens (o+(front.flatMap text).length) back ∧
      illegals o ps = bad ++ illegals (o+(front.flatMap text).length) back := by
  induction ps generalizing o with
  | nil => exact .inl ⟨rfl,rfl⟩
  | cons p ps ih =>
    have hcons (front : List Piece) : o+p.text.length+(front.flatMap text).length =
        o+((p :: front).flatMap text).length := by
      rw [List.flatMap_cons,List.length_append]
      omega
    cases p with
    | lexeme k t =>
      refine .inr ⟨[],⟨t,k,⟨o,(o+t.length : Nat)⟩⟩,[lexeme k t],ps,rfl,?_⟩
      simp [advance,tokens,illegals,text]
    | blank c =>
      rcases ih (o+1) with ⟨hts,ha⟩ | ⟨bad,t,front,back,rfl,ha,hstop,hts,hbad⟩
      · exact .inl ⟨hts,by rw [← hcons]; exact ha⟩
      · refine .inr ⟨bad,t,blank c :: front,back,rfl,?_⟩
        rw [← hcons]
        exact ⟨ha,hstop,hts,hbad⟩
    | comment u =>
      rcases ih (o+u.length) with ⟨hts,ha⟩ | ⟨bad,t,front,back,rfl,ha,hstop,hts,hbad⟩
      · exact .inl ⟨hts,by rw [← hcons]; exact ha⟩
      · refine .inr ⟨bad,t,comment u :: front,back,rfl,?_⟩
        rw [← hcons]
        exact ⟨ha,hstop,hts,hbad⟩
    | illegal c =>
      rcases ih (o+1) with ⟨hts,ha⟩ | ⟨bad,t,front,back,rfl,ha,hstop,hts,hbad⟩
      · refine .inl ⟨hts,?_⟩
        rw [← hcons,advance,ha]
        rfl
      · refine .inr ⟨o :: bad,t,illegal c :: front,back,rfl,?_⟩
        rw [← hcons,advance,ha]
        exact ⟨rfl,hstop,hts,congrArg (o :: ·) hbad⟩

end Piece

theorem Console.warnIllegal_append (c : Console) (s : Source) (os us : List Nat) :
    (c.warnIllegal s os).warnIllegal s us = c.warnIllegal s (os ++ us) := by
  simp [warnIllegal,warn]

namespace Cursor

/-- Reading one token after the other gives `ts`. -/
inductive Passes : Cursor → Console → List Token → Cursor → Console → Prop
  | nil {c : Cursor} {o : Console} : Passes c o [] c o
  | cons {c c₁ c₂ : Cursor} {o o₁ o₂ : Console} {t : Token} {ts : List Token}
      (h : c.next o = (true,c₁,o₁)) (ht : c₁.token = some t) (hs : Passes c₁ o₁ ts c₂ o₂) :
      Passes c o (t :: ts) c₂ o₂

/-- Reading goes on until there is no further token. -/
def Scans (c : Cursor) (o : Console) (ts : List Token) (c' : Cursor) (o' : Console) : Prop :=
  ∃ c₁ o₁, Passes c o ts c₁ o₁ ∧ c₁.next o₁ = (false,c',o')

/-- The cursor in front of a program. -/
def start (s : Source) : Cursor := {source := s,vocabulary := .standard}

/-- The cursor behind the whole program. -/
def finished (c : Cursor) : Cursor :=
  let stop := c.source.text.length
  {c with position := stop,token := some (.ofKind .eof ⟨stop,stop⟩)}

/-- The pieces still to come. -/
def pieces (c : Cursor) : List Piece := Piece.ofText c.vocabulary c.rest

theorem Passes.exists_of_append {c c₂ : Cursor} {o o₂ : Console} {ts us : List Token}
    (h : Passes c o (ts ++ us) c₂ o₂) :
    ∃ c₁ o₁, Passes c o ts c₁ o₁ ∧ Passes c₁ o₁ us c₂ o₂ := by
  induction ts generalizing c o with
  | nil => exact ⟨c,o,.nil,h⟩
  | cons t ts ih =>
    cases h with
    | cons hn ht hs =>
      obtain ⟨c₁,o₁,hts,hus⟩ := ih hs
      exact ⟨c₁,o₁,.cons hn ht hts,hus⟩

section
variable {c c' : Cursor} {o o' : Console} {bad : List Nat} {stop : Nat}

theorem next_of_none (h : Piece.advance c.position c.pieces = (bad,none,stop)) :
    c.next o = (false,{c with position := stop,token := some (.ofKind .eof ⟨stop,stop⟩)},
      o.warnIllegal c.source bad) := by
  rw [pieces] at h
  rw [next,h]

theorem next_of_some {t : Token} (h : Piece.advance c.position c.pieces = (bad,some t,stop)) :
    c.next o = (true,{c with position := stop,token := some t},o.warnIllegal c.source bad) := by
  rw [pieces] at h
  rw [next,h]

/-- A cursor stands behind the token it has read. -/
theorem position_of_next {more : Bool} (h : c.next o = (more,c',o')) :
    ∃ t, c'.token = some t ∧ t.span.stop = c'.position := by
  rcases Piece.advance_cases c.position c.pieces with
    ⟨-,ha⟩ | ⟨bad,t,front,back,-,ha,hstop,-,-⟩
  · rw [next_of_none ha] at h
    obtain ⟨-,h⟩ := Prod.mk.inj h
    obtain ⟨rfl,-⟩ := Prod.mk.inj h
    exact ⟨_,rfl,rfl⟩
  · rw [next_of_some ha] at h
    obtain ⟨-,h⟩ := Prod.mk.inj h
    obtain ⟨rfl,-⟩ := Prod.mk.inj h
    exact ⟨t,rfl,hstop⟩

end

/-- Either the cursor comes to the end, or to the next token, with the illegal characters in front
of it, and the other ones are still to come. -/
theorem next_cases (c : Cursor) (hc : c.position ≤ c.source.text.length) (o : Console) :
    (Piece.tokens c.position c.pieces = [] ∧ c.next o = (false,c.finished,
      o.warnIllegal c.source (Piece.illegals c.position c.pieces))) ∨
    ∃ (bad : List Nat) (t : Token) (c' : Cursor),
      c.next o = (true,c',o.warnIllegal c.source bad) ∧
      c' = {c with position := c'.position,token := some t} ∧ t.span.stop = c'.position ∧
      c'.position ≤ c.source.text.length ∧
      Piece.tokens c.position c.pieces = t :: Piece.tokens c'.position c'.pieces ∧
      Piece.illegals c.position c.pieces = bad ++ Piece.illegals c'.position c'.pieces := by
  have htext : (c.pieces.flatMap Piece.text).length = c.source.text.length-c.position := by
    rw [pieces,Piece.flatMap_text_ofText,rest,List.length_drop]
  rcases Piece.advance_cases c.position c.pieces with
    ⟨hnil,ha⟩ | ⟨bad,t,front,back,hpieces,ha,hstop,hcons,hbad⟩
  · have hend : c.position+(c.pieces.flatMap Piece.text).length = c.source.text.length := by omega
    have hnext : c.next o = (false,_,_) := next_of_none ha
    rw [hend] at hnext
    exact .inl ⟨hnil,hnext⟩
  · let c' : Cursor := {c with
      position := c.position+(front.flatMap Piece.text).length,token := some t}
    have hback : c'.pieces = back := by
      rw [pieces] at hpieces
      have hdrop := Piece.ofText_drop hpieces
      rwa [rest,List.drop_drop] at hdrop
    refine .inr ⟨bad,t,c',next_of_some ha,rfl,hstop,?_,?_,?_⟩
    · change c.position+(front.flatMap Piece.text).length ≤ c.source.text.length
      rw [hpieces,List.flatMap_append,List.length_append] at htext
      omega
    · rw [hback]
      exact hcons
    · rw [hback]
      exact hbad

/-- A cursor scans just the tokens still to come, queues the illegal characters still to come, and
ends at the end. -/
theorem scans (c : Cursor) (hc : c.position ≤ c.source.text.length) (o : Console) :
    c.Scans o (Piece.tokens c.position c.pieces) c.finished
      (o.warnIllegal c.source (Piece.illegals c.position c.pieces)) := by
  induction hts : Piece.tokens c.position c.pieces generalizing c o with
  | nil =>
    rcases c.next_cases hc o with ⟨-,hnext⟩ | ⟨bad,t,c',-,-,-,-,hcons,-⟩
    · exact ⟨c,o,.nil,hnext⟩
    · rw [hcons] at hts
      cases hts
  | cons t ts ih =>
    rcases c.next_cases hc o with ⟨hnil,-⟩ | ⟨bad,u,c',hnext,hc',-,hle,hcons,hbad⟩
    · rw [hnil] at hts
      cases hts
    · rw [hcons] at hts
      obtain ⟨rfl,rfl⟩ := List.cons.inj hts
      have hsource : c'.source = c.source := by rw [hc']
      have htoken : c'.token = some u := by rw [hc']
      have hfinished : c'.finished = c.finished := by
        rw [hc']
        rfl
      rw [← hsource] at hle
      obtain ⟨c₂,o₂,hpass,hend⟩ := ih c' hle (o.warnIllegal c.source bad) rfl
      refine ⟨c₂,o₂,.cons hnext htoken hpass,?_⟩
      rw [hend,hfinished,hsource,Console.warnIllegal_append,← hbad]

end Cursor

namespace Source

theorem scans_start (s : Source) (o : Console) :
    (Cursor.start s).Scans o s.standardTokens (Cursor.start s).finished
      (o.warnIllegal s (Piece.illegals 0 (Piece.ofText .standard s.text))) :=
  (Cursor.start s).scans (Nat.zero_le _) o

end Source

namespace Segment

variable {program : Text} {ss : List Segment}

theorem LiesIn.token {s : Segment} (h : s.LiesIn program) {t : Token} (ht : s.token? = some t) :
    t.IsLexeme ∧ t.span = ⟨s.start,s.stop⟩ ∧ t.text = (program.take s.stop).drop s.start := by
  obtain ⟨r,hr,hs⟩ := h
  obtain ⟨o,p⟩ := s
  cases p with
  | lexeme k u =>
    obtain rfl := Option.some.inj ht
    refine ⟨hs.1,rfl,?_⟩
    have hr' : program.drop o = u ++ r := hr
    have hstop : stop ⟨o,.lexeme k u⟩ = o+u.length := rfl
    rw [hstop,List.drop_take,hr']
    simp
  | blank | comment | illegal => cases ht

theorem LiesIn.illegal {s : Segment} {i : Nat} (hi : s.illegal? = some i) : s.start = i := by
  obtain ⟨o,p⟩ := s
  cases p with
  | illegal c => exact Option.some.inj hi
  | blank | comment | lexeme => cases hi

end Segment

namespace Partition

variable {program : Text} {ss : List Segment}

/-- Each token is a lexeme, and the text of its span. -/
theorem token (h : Partition program ss) {t : Token} (ht : t ∈ ss.filterMap Segment.token?) :
    t.IsLexeme ∧ ∃ i j : Nat, t.span = ⟨i,j⟩ ∧ i < j ∧ j ≤ program.length ∧
      t.text = (program.take j).drop i := by
  obtain ⟨s,hs,hst⟩ := List.mem_filterMap.1 ht
  have hlies := h.lies s hs
  obtain ⟨hlexeme,hspan,htext⟩ := hlies.token hst
  exact ⟨hlexeme,s.start,s.stop,hspan,hlies.start_lt_stop,hlies.stop_le,htext⟩

theorem tokens_ordered (h : Partition program ss) :
    (ss.filterMap Segment.token?).Pairwise fun t u => t.span.stop ≤ u.span.start := by
  rw [List.pairwise_filterMap]
  apply h.ordered.imp_of_mem
  intro a b ha hb hab t ht u hu
  obtain ⟨-,hspan,-⟩ := (h.lies a ha).token ht
  obtain ⟨-,hspan',-⟩ := (h.lies b hb).token hu
  rw [hspan,hspan']
  exact Int.ofNat_le.2 hab

theorem illegals_ordered (h : Partition program ss) :
    (ss.filterMap Segment.illegal?).Pairwise (· < ·) := by
  rw [List.pairwise_filterMap]
  apply h.ordered.imp_of_mem
  intro a b ha hb hab i hi j hj
  have hlt := (h.lies a ha).start_lt_stop
  have hai := Segment.LiesIn.illegal hi
  have hbj := Segment.LiesIn.illegal hj
  omega

end Partition

namespace Source

/-- The tokens of a program stand one behind the other. -/
theorem standardTokens_ordered (s : Source) :
    s.standardTokens.Pairwise fun t u => t.span.stop ≤ u.span.start := by
  have hpartition := (partition_segments s.text).tokens_ordered
  rwa [← Piece.tokens_eq_filterMap] at hpartition

theorem sublist_of_part {s : Source} {before ts after : List Token}
    (h : s.standardTokens = before ++ ts ++ after) : ts.Sublist s.standardTokens := by
  rw [h]
  exact (List.sublist_append_right before ts).trans (List.sublist_append_left _ after)

theorem isLexeme_of_part {s : Source} {before ts after : List Token}
    (h : s.standardTokens = before ++ ts ++ after) : ∀ t ∈ ts, t.IsLexeme :=
  fun _ ht => isLexeme_of_mem_standardTokens ((sublist_of_part h).subset ht)

theorem exists_span_of_mem {s : Source} {t : Token} (h : t ∈ s.standardTokens) :
    ∃ i j : Nat, t.span = ⟨i,j⟩ ∧ i < j ∧ j ≤ s.text.length ∧
      t.text = (s.text.take j).drop i := by
  have hmem : t ∈ Piece.tokens 0 (Piece.ofText .standard s.text) := h
  rw [Piece.tokens_eq_filterMap] at hmem
  exact ((partition_segments s.text).token hmem).2

theorem span_of_mem_standardTokens {s : Source} {t : Token} (h : t ∈ s.standardTokens) :
    0 ≤ t.span.start ∧ t.span.start ≤ t.span.stop := by
  obtain ⟨i,j,hspan,hij,-⟩ := exists_span_of_mem h
  rw [hspan]
  simp only
  omega

/-- Scanning a program comes to an end and partitions it, in the only way there is: into the tokens
it gives, the blanks and comments it skips, and the illegal characters it queues a warning for. -/
theorem scan_partitions (s : Source) (o : Console) (ho : o.problems = []) :
    ∃ ss ts bad, Partition s.text ss ∧ (∀ ss', Partition s.text ss' → ss' = ss) ∧
      ts = ss.filterMap Segment.token? ∧ bad = ss.filterMap Segment.illegal? ∧
      (∀ t ∈ ts, t.IsLexeme ∧ ∃ i j : Nat, t.span = ⟨i,j⟩ ∧ i < j ∧ j ≤ s.text.length ∧
        t.text = (s.text.take j).drop i) ∧
      ts.Pairwise (fun t u => t.span.stop ≤ u.span.start) ∧ bad.Pairwise (· < ·) ∧
      ∃ c o', (Cursor.start s).Scans o ts c o' ∧
        o'.warnings = o.warnings ++ bad.map (fun i : Nat => ⟨s,⟨i,i+1⟩,true,none⟩) ∧
        s.tokens .standard o = (.ok ts,o'.flush) := by
  have hpartition := partition_segments s.text
  have hscans := s.scans_start o
  have htokens := Piece.tokens_eq_filterMap 0 (Piece.ofText .standard s.text)
  have hillegals := Piece.illegals_eq_filterMap 0 (Piece.ofText .standard s.text)
  have hreport : s.tokens .standard o =
      (.ok s.standardTokens,(o.warnIllegal s (Stream.ofText .standard s.text).illegals).flush) := by
    have hqueue : (o.warnIllegal s (Stream.ofText .standard s.text).illegals).problems = [] := ho
    rw [tokens,Console.report_of_problems hqueue]
    rfl
  refine ⟨_,_,_,hpartition,fun ss' h => h.eq_segments,htokens,hillegals,?_,?_,?_,_,_,hscans,rfl,
    hreport⟩
  · intro t ht
    rw [htokens] at ht
    exact hpartition.token ht
  · rw [htokens]
    exact hpartition.tokens_ordered
  · rw [hillegals]
    exact hpartition.illegals_ordered

/-- The point behind `x` is illegal, that of `2.` is part of the number, and the second stroke of a
comment is not a division. -/
theorem scan_partitions_points :
    Console.problems {} = [] ∧
      ∃ ss o', Partition "x.=2.3./a//b".toList ss ∧
        ss.filterMap Segment.illegal? = [1,6] ∧ ss.map Segment.start = [0,1,2,3,6,7,8,9] ∧
        Source.tokens .standard ⟨"x.=2.3./a//b".toList,0⟩ {} =
          (.ok (ss.filterMap Segment.token?),o') := by
  obtain ⟨ss,ts,bad,hpartition,-,rfl,rfl,-,-,-,c,o',-,-,htokens⟩ :=
    scan_partitions ⟨"x.=2.3./a//b".toList,0⟩ {} rfl
  obtain rfl := hpartition.eq_segments
  exact ⟨rfl,_,_,hpartition,by decide +kernel,by decide +kernel,htokens⟩

end Source
end AssignLang
