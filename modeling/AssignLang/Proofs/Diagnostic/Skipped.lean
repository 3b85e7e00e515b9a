import AssignLang.Proofs.Diagnostic.Combination
import AssignLang.Proofs.Grammar.Extent
import AssignLang.Proofs.SyntaxError

namespace AssignLang

open Grammar

namespace Source

/-- A character that is neither blank nor part of a token or a comment. -/
def IsSkipped (s : Source) (i : Nat) : Prop :=
  ∃ ss c, Partition s.text ss ∧ ⟨i,.illegal c⟩ ∈ ss

/-- How the skipped characters `os` come to be printed, in runs `rs`: each one that has the property
waits as a warning, these are combined to one for each run whose beginning has the property, of which
the first ten are shown, and then the queues are empty. -/
structure Tallies (s : Source) (p : Nat → Prop) (os : List Nat) (rs : List (Nat × Nat))
    (c c' : Console) : Prop where
  mem_skipped : ∀ k, k ∈ os ↔ s.IsSkipped k ∧ p k
  skipped_ordered : os.Pairwise (· < ·)
  mem_runs : ∀ i j, (i,j) ∈ rs ↔ IsRun s.IsSkipped i j ∧ p i
  runs_ordered : rs.Pairwise fun a b => a.2 < b.1
  queued : c' = (c.warn (os.map fun k => s.warning (k,k+1))).flush
  combined : Warning.combine (os.map fun k => s.warning (k,k+1)) = rs.map s.warning
  idle : c'.Idle
  few : rs.length ≤ 10 → c'.printed = c.printed ++
    rs.flatMap fun r => (s.warning r).message ++ ['\n','\n']
  many : 10 < rs.length → c'.printed = c.printed ++
    ((rs.take 10).flatMap fun r => (s.warning r).message ++ ['\n','\n']) ++
      "Showing ".toList ++ Text.counted 10 "warning".toList ++ ", omitting ".toList ++
      Text.counted (rs.length-10) "warning".toList ++ "...\n".toList

/-- Just the skipped characters with a property are reported, in runs. -/
def Reports (s : Source) (p : Nat → Prop) (c c' : Console) : Prop :=
  ∃ os rs, s.Tallies p os rs c c'

variable {s : Source} {i : Nat} {c : Console}

theorem isSkipped_iff : s.IsSkipped i ↔ i ∈ (Stream.ofText .standard s.text).illegals := by
  have hillegals := Piece.illegals_eq_filterMap 0 (Piece.ofText .standard s.text)
  rw [Stream.ofText,hillegals,List.mem_filterMap]
  constructor
  · rintro ⟨ss,c,hss,hmem⟩
    rw [hss.eq_segments] at hmem
    exact ⟨_,hmem,rfl⟩
  · rintro ⟨⟨o,p⟩,hmem,ho⟩
    cases p with
    | illegal c =>
      obtain rfl := Option.some.inj ho
      exact ⟨_,c,partition_segments s.text,hmem⟩
    | blank | comment | lexeme => cases ho

theorem illegals_ordered (s : Source) :
    (Stream.ofText .standard s.text).illegals.Pairwise (· < ·) := by
  have hordered := (partition_segments s.text).illegals_ordered
  rwa [← Piece.illegals_eq_filterMap] at hordered

theorem IsSkipped.lt_length (h : s.IsSkipped i) : i < s.text.length := by
  obtain ⟨ss,c,hss,hmem⟩ := h
  have hlies := hss.lies _ hmem
  exact Nat.lt_of_lt_of_le hlies.start_lt_stop hlies.stop_le

theorem not_isSkipped_of_token {t : Token} (ht : t ∈ s.standardTokens) (hstart : t.span.start ≤ i)
    (hstop : i < t.span.stop) : ¬ s.IsSkipped i := by
  rintro ⟨ss,c,hss,hmem⟩
  have htoken : t ∈ ss.filterMap Segment.token? := by
    rwa [hss.eq_segments,← Piece.tokens_eq_filterMap]
  obtain ⟨a,ha,hat⟩ := List.mem_filterMap.1 htoken
  obtain ⟨-,hspan,-⟩ := (hss.lies a ha).token hat
  rw [hspan] at hstart hstop
  have heq : a = ⟨i,.illegal c⟩ := by
    apply Segment.eq_of_covers hss.ordered ha hmem (i := i)
    · exact ⟨Int.ofNat_le.1 hstart,Int.ofNat_lt.1 hstop⟩
    · exact ⟨Nat.le_refl i,Nat.lt_succ_self i⟩
  rw [heq] at hat
  cases hat

theorem Tallies.congr {p q : Nat → Prop} {os : List Nat} {rs : List (Nat × Nat)} {c' : Console}
    (h : s.Tallies p os rs c c') (hpq : ∀ i, s.IsSkipped i → (p i ↔ q i)) :
    s.Tallies q os rs c c' := by
  refine { h with mem_skipped := ?_,mem_runs := ?_ }
  · intro k
    rw [h.mem_skipped]
    exact and_congr_right (hpq k)
  · intro i j
    rw [h.mem_runs]
    apply and_congr_right
    intro hrun
    exact hpq i (hrun.inside i (Nat.le_refl i) hrun.lt)

theorem Reports.congr {p q : Nat → Prop} {c' : Console} (h : s.Reports p c c')
    (hpq : ∀ i, s.IsSkipped i → (p i ↔ q i)) : s.Reports q c c' := by
  obtain ⟨os,rs,htallies⟩ := h
  exact ⟨os,rs,htallies.congr hpq⟩

theorem flush_warnIllegal (hc : c.Idle) (s : Source) (os : List Nat) : (c.warnIllegal s os).flush =
    ⟨[],[],c.printed ++ Warning.renderAll ((runs os).map s.warning)⟩ := by
  rw [← combine_warning,Console.warnIllegal,Console.flush,Console.warn,hc.warnings]
  rfl

/-- Queued are the skipped characters up to a bound, and the bound does not split a run. -/
theorem tallies_runs {os : List Nat} {bound : Nat} (hc : c.Idle) (hsorted : os.Pairwise (· < ·))
    (hos : ∀ k, k ∈ os ↔ s.IsSkipped k ∧ k < bound)
    (hcut : ∀ k, k+1 = bound → s.IsSkipped k → ¬ s.IsSkipped bound) :
    s.Tallies (· < bound) os (runs os) c (c.warnIllegal s os).flush := by
  have hprinted := congrArg Console.printed (flush_warnIllegal hc s os)
  refine ⟨hos,hsorted,?_,runs_ordered hsorted,rfl,combine_warning s os,Console.idle_flush _,?_,?_⟩
  · intro i j
    rw [mem_runs_iff hsorted,IsRun.congr hos]
    exact IsRun.below_iff hcut
  · intro hfew
    rw [hprinted,Warning.renderAll_of_le (by rwa [List.length_map]),List.flatMap_map]
  · intro hmany
    rw [hprinted,Warning.renderAll_of_gt (by rwa [List.length_map]),List.length_map,← List.map_take,
      List.flatMap_map]
    simp only [List.append_assoc]

theorem reports_flush {os : List Nat} {bound : Nat} (hc : c.Idle) (hsorted : os.Pairwise (· < ·))
    (hos : ∀ k, k ∈ os ↔ s.IsSkipped k ∧ k < bound)
    (hcut : ∀ k, k+1 = bound → s.IsSkipped k → ¬ s.IsSkipped bound) :
    s.Reports (· < bound) c (c.warnIllegal s os).flush :=
  ⟨os,runs os,tallies_runs hc hsorted hos hcut⟩

/-- All of them lie in front of the end, where there is nothing to skip. -/
theorem reports_all {os : List Nat} (hc : c.Idle) (hsorted : os.Pairwise (· < ·))
    (hos : ∀ k, k ∈ os ↔ s.IsSkipped k) :
    s.Reports (fun _ => True) c (c.warnIllegal s os).flush := by
  have hreports : s.Reports (· < s.text.length) c (c.warnIllegal s os).flush := by
    apply reports_flush hc hsorted
    · intro k
      rw [hos]
      exact ⟨fun h => ⟨h,h.lt_length⟩,And.left⟩
    · intro k _ _ hend
      exact Nat.lt_irrefl _ hend.lt_length
  apply hreports.congr
  intro k hk
  exact iff_true_intro hk.lt_length

theorem reports_tokens (hc : c.Idle) : s.Reports (fun _ => True) c (s.tokens .standard c).2 := by
  have hproblems : (c.warnIllegal s (Stream.ofText .standard s.text).illegals).problems = [] :=
    hc.problems
  rw [tokens,Console.report_of_problems hproblems]
  exact reports_all hc s.illegals_ordered fun k => isSkipped_iff.symm

/-- The token looked at stands where nothing is skipped. -/
theorem exists_current_start {before rest : List Token} (h : s.standardTokens = before ++ rest) :
    ∃ start : Nat, ((Stream.ofText .standard s.text).current rest).span.start = start ∧
      ¬ s.IsSkipped start := by
  cases rest with
  | nil => exact ⟨s.text.length,rfl,fun hend => Nat.lt_irrefl _ hend.lt_length⟩
  | cons t ts =>
    have ht : t ∈ s.standardTokens := by simp [h]
    obtain ⟨i,j,hspan,hij,-⟩ := exists_span_of_mem ht
    have hstart : t.span.start = i := by rw [hspan]
    have hstop : t.span.stop = j := by rw [hspan]
    exact ⟨i,hstart,not_isSkipped_of_token ht (by omega) (by omega)⟩

/-- No token read lies behind the one looked at. -/
theorem stop_le_current {before rest : List Token} (h : s.standardTokens = before ++ rest)
    {t : Token} (ht : t ∈ before) :
    t.span.stop ≤ ((Stream.ofText .standard s.text).current rest).span.start := by
  cases rest with
  | nil =>
    have hmem : t ∈ s.standardTokens := by simp [h,ht]
    obtain ⟨i,j,hspan,-,hj,-⟩ := exists_span_of_mem hmem
    rw [hspan]
    exact Int.ofNat_le.2 hj
  | cons u us =>
    have hordered := s.standardTokens_ordered
    rw [h,List.pairwise_append] at hordered
    exact hordered.2.2 t ht u List.mem_cons_self

theorem mem_skipped_iff {rest : List Token} (k : Nat) :
    k ∈ (Stream.ofText .standard s.text).skipped rest ↔
      s.IsSkipped k ∧ (k : Int) < ((Stream.ofText .standard s.text).current rest).span.start := by
  rw [Stream.skipped,List.mem_filter,decide_eq_true_iff,isSkipped_iff]

theorem skipped_ordered (s : Source) (rest : List Token) :
    ((Stream.ofText .standard s.text).skipped rest).Pairwise (· < ·) :=
  s.illegals_ordered.sublist List.filter_sublist

variable {nesting : Nesting} {t : Tree}

theorem reports_block (hc : c.Idle) (h : (s.block .standard nesting c).1 = .ok t) :
    s.Reports (fun _ => True) c (s.block .standard nesting c).2 := by
  obtain ⟨body,hbody,-⟩ := statements_of_block h
  rw [block_of_statements hc.problems hbody]
  apply reports_all hc (s.skipped_ordered [])
  intro k
  rw [mem_skipped_iff]
  exact ⟨And.left,fun h => ⟨h,Int.ofNat_lt.2 h.lt_length⟩⟩

/-- Warnings about what lies behind an offset are dropped. -/
theorem keepBefore_warnIllegal (hc : c.Idle) (os : List Nat) (offset : Int) :
    s.keepBefore offset (c.warnIllegal s os) =
      c.warnIllegal s (os.filter fun o => (o : Int) < offset) := by
  obtain ⟨warnings,problems,printed⟩ := c
  obtain rfl : warnings = [] := hc.warnings
  simp [keepBefore,Console.warnIllegal,Console.warn,List.filter_map,Function.comp_def]

theorem reports_statement (hc : c.Idle) (h : (s.statement .standard nesting c).1 = .ok t) :
    s.Reports (fun i => (i : Int) < t.span.stop) c (s.statement .standard nesting c).2 := by
  have hread : (s.reading false nesting c).1 = .ok t := h
  obtain ⟨-,rest,hs⟩ := treeOf_of_reading hread
  obtain ⟨d,hd,rfl⟩ := Grammar.exists_of_statement hs
  rw [statement_of_statement hc.problems hs]
  have hlast : d.semicolon ∈ s.standardTokens := by simp [hd,Statement.tokens]
  have hnext := stop_le_current hd (t := d.semicolon) (by simp [Statement.tokens])
  have hfront : s.standardTokens = [] ++ d.tokens ++ rest := hd
  have htree := d.span_of_standardTokens hfront
  obtain ⟨i,j,hspan,hij,-⟩ := exists_span_of_mem hlast
  have hstart : d.semicolon.span.start = i := by rw [hspan]
  have hstop : d.semicolon.span.stop = j := by rw [hspan]
  rw [htree,warned,keepBefore_warnIllegal hc]
  have hreports : s.Reports (· < j) c (c.warnIllegal s
      (((Stream.ofText .standard s.text).skipped rest).filter
        fun o => (o : Int) < d.semicolon.span.stop)).flush := by
    apply reports_flush hc ((s.skipped_ordered rest).sublist List.filter_sublist)
    · intro k
      rw [List.mem_filter,decide_eq_true_iff,mem_skipped_iff]
      constructor
      · rintro ⟨⟨hk,-⟩,hkj⟩
        exact ⟨hk,by omega⟩
      · rintro ⟨hk,hkj⟩
        exact ⟨⟨hk,by omega⟩,by omega⟩
    · intro k hkj hk
      exact absurd hk (not_isSkipped_of_token hlast (by omega) (by omega))
  apply hreports.congr
  intro k _
  rw [hstop]
  exact Int.ofNat_lt.symm

theorem reports_offence {full : Bool} {f : Failure} (hc : c.Idle)
    (h : (s.reading full nesting c).1 = .error f) :
    ¬ (nesting.reading = none ∧ nesting.readingNeeds.raising = 0) ∧ f = .tooDeep ∨
      ∃ wanted got, f = .stopped .parser [s.offence wanted got] ∧
        s.Reports (fun i => (i : Int) < got.span.start) c (s.reading full nesting c).2 := by
  rcases stuck_or_tooDeep hc.problems h with
    ⟨wanted,rest,room,-,hstuck,⟨-,hread⟩ | ⟨hlt,c',hread,-⟩⟩ | ⟨rest,-,hread,hroom⟩
  · rw [hread] at h ⊢
    refine .inr ⟨wanted,_,(Except.error.inj h).symm,?_⟩
    obtain ⟨-,before,hbefore⟩ := exists_of_stuck hstuck
    obtain ⟨start,hstart,hnot⟩ := exists_current_start hbefore
    have hreports : s.Reports (· < start) c (s.warned rest c).flush := by
      apply reports_flush hc (s.skipped_ordered rest)
      · intro k
        rw [mem_skipped_iff,hstart,Int.ofNat_lt]
      · intro k _ _
        exact hnot
    apply hreports.congr
    intro k _
    rw [hstart]
    exact Int.ofNat_lt.symm
  · rw [hread] at h
    refine .inl ⟨?_,(Except.error.inj h).symm⟩
    rintro ⟨-,hneed⟩
    omega
  · rw [hread c] at h
    refine .inl ⟨?_,(Except.error.inj h).symm⟩
    rintro ⟨hnone,-⟩
    rw [Nesting.readingRoom,hnone] at hroom
    exact hroom (Nat.le_refl _)

/-- Each skipped character is reported once, as part of its run, if it belongs to what was read: all
of them with a whole program, those in front of its end with a single statement, and those in front
of the token at which reading got stuck. Only a limit keeps what was met there from being reported. -/
theorem reports_what_was_read (nesting : Nesting) (s : Source) (c : Console) (hc : c.Idle) :
    (s.tokens .standard c).1 = .ok s.standardTokens ∧
      s.Reports (fun _ => True) c (s.tokens .standard c).2 ∧
      (∀ t, (s.block .standard nesting c).1 = .ok t →
        s.Reports (fun _ => True) c (s.block .standard nesting c).2) ∧
      (∀ t, (s.statement .standard nesting c).1 = .ok t →
        s.Reports (fun i => (i : Int) < t.span.stop) c (s.statement .standard nesting c).2) ∧
      ∀ full f, (s.reading full nesting c).1 = .error f →
        ¬ (nesting.reading = none ∧ nesting.readingNeeds.raising = 0) ∧ f = .tooDeep ∨
        ∃ wanted got, f = .stopped .parser [s.offence wanted got] ∧
          s.Reports (fun i => (i : Int) < got.span.start) c (s.reading full nesting c).2 := by
  refine ⟨tokens_of_problems hc.problems,reports_tokens hc,?_,?_,?_⟩
  · intro t
    exact reports_block hc
  · intro t
    exact reports_statement hc
  · intro full f
    exact reports_offence hc

/-- Four characters are skipped. Two of them are a run, and one lies behind the statement. -/
theorem reports_what_was_read_gaps :
    Console.Idle {} ∧
      (∀ i, IsSkipped ⟨"$x=@#1;$y".toList,0⟩ i ↔ i ∈ [0,3,4,7]) ∧
      ∃ t, (statement .standard .unlimited ⟨"$x=@#1;$y".toList,0⟩ {}).1 = .ok t ∧
        t.span.stop = 7 ∧
        Reports ⟨"$x=@#1;$y".toList,0⟩ (fun i => (i : Int) < 7) {}
          (statement .standard .unlimited ⟨"$x=@#1;$y".toList,0⟩ {}).2 := by
  have hstop : ((statement .standard .unlimited ⟨"$x=@#1;$y".toList,0⟩ {}).1.map
      fun t => t.span.stop).toOption = some 7 := by
    decide +kernel
  have hillegals : (Stream.ofText .standard "$x=@#1;$y".toList).illegals = [0,3,4,7] := by
    decide +kernel
  obtain ⟨-,-,-,hstatement,-⟩ :=
    reports_what_was_read .unlimited ⟨"$x=@#1;$y".toList,0⟩ {} ⟨rfl,rfl⟩
  refine ⟨⟨rfl,rfl⟩,?_,?_⟩
  · intro i
    rw [isSkipped_iff,hillegals]
  · cases ht : (statement .standard .unlimited ⟨"$x=@#1;$y".toList,0⟩ {}).1 with
    | error f =>
      rw [ht] at hstop
      cases hstop
    | ok t =>
      rw [ht] at hstop
      have hseven : t.span.stop = 7 := Option.some.inj hstop
      have hreports := hstatement t ht
      rw [hseven] at hreports
      exact ⟨t,rfl,hseven,hreports⟩

end Source
end AssignLang
