import AssignLang.Proofs.Diagnostic.Message
import AssignLang.Proofs.Session.Replay
import AssignLang.Proofs.Token.Progress
import AssignLang.Proofs.Tree.Reads

namespace AssignLang

open Excerpt Grammar Text

/-- The places of the problems that a result comes with. -/
def Failure.spans {α : Type} : Except Failure α → List Span
  | .error (stopped _ ps) => ps.map Problem.span
  | _ => []

namespace Source

variable {s : Source} {c c₀ : Console}

theorem shows_unexpected (hs : s.text ≠ []) {i j : Nat} (h : s.text.Flat i j) (position : Int)
    (wanted : List Token) (got : Token) : s.Shows ⟨i,j⟩ .red
      (Problem.message ⟨s,⟨i,j⟩,some (.unexpected position wanted got),1,1,none⟩) :=
  shows_of_flat hs h _ _ _

theorem shows_undefined (hs : s.text ≠ []) {i j : Nat} (h : s.text.Flat i j) (x : Text) :
    s.Shows ⟨i,j⟩ .red (Problem.message ⟨s,⟨i,j⟩,some (.undefined x),1,1,none⟩) :=
  shows_of_flat hs h _ _ _

/-- The token looked at, or the end, is a flat place. -/
theorem exists_flat_of_current {before rest : List Token} (h : s.standardTokens = before ++ rest) :
    ∃ i j : Nat, ((Stream.ofText .standard s.text).current rest).span = ⟨i,j⟩ ∧
      s.text.Flat i j := by
  cases rest with
  | nil => exact ⟨_,_,rfl,s.flat_eof⟩
  | cons t ts => exact exists_flat_of_mem (t := t) (by simp [h])

theorem isSkipped_of_mem_skipped {rest : List Token} {k : Nat}
    (h : k ∈ (Stream.ofText .standard s.text).skipped rest) : s.IsSkipped k :=
  ((mem_skipped_iff k).1 h).1

/-- What was met instead of something wanted is shown. -/
theorem shows_offence (hs : s.text ≠ []) {full : Bool} {nesting : Nesting} {wanted : List Kind}
    {rest : List Token} {room : Nat}
    (h : s.treeOf full nesting = .error (.unexpected wanted rest room)) :
    let p := s.offence wanted ((Stream.ofText .standard s.text).current rest)
    s.Shows p.span .red p.message := by
  have hstuck : recognized full (nesting.readingRoom s.standardTokens.length) s.standardTokens =
      some (some wanted,rest) := by
    rw [← outcome_treeOf,h]
    rfl
  obtain ⟨before,hbefore,-⟩ := local_recognized full _ _ _ _ hstuck
  obtain ⟨i,j,hspan,hflat⟩ := exists_flat_of_current hbefore
  intro p
  have hp : p.span = ⟨i,j⟩ := hspan
  rw [hp]
  simp only [p,offence,hspan]
  exact shows_unexpected hs hflat _ _ _

theorem tells_reading (hs : s.text ≠ []) (hc : s.Awaits c) (hp : c.problems = []) (full : Bool)
    (nesting : Nesting) : s.Tells c (s.reading full nesting c).2 := by
  have hwarned (rest : List Token) : s.Tells c (s.warned rest c) :=
    hc.tells.warnIllegal fun _ => isSkipped_of_mem_skipped
  cases ht : s.treeOf full nesting with
  | ok p =>
    obtain ⟨t,rest⟩ := p
    rw [reading_eq hp ht]
    cases full with
    | true => exact (hwarned rest).flush hs
    | false =>
      have hkept := (hwarned rest).of_printed ((hwarned rest).1.keepBefore t.span.stop) rfl
      exact hkept.flush hs
  | error e =>
    rw [reading_of_error ht]
    cases e with
    | tooDeep rest => exact hwarned rest
    | unexpected wanted rest room =>
      rcases Nat.lt_or_ge room nesting.readingNeeds.raising with hlt | hle
      · obtain ⟨c',hfail,hleaves⟩ := Console.failWithin_of_lt hlt (s.warned rest c) s _ _
        have hstop : s.stop nesting.readingNeeds (.ofText .standard s.text) c
            (.unexpected wanted rest room) = (.tooDeep,c') := hfail
        rw [hstop]
        exact (hwarned rest).leaves hs (shows_offence hs ht) hleaves
      · rw [stop_of_unexpected (isDue_of_treeOf ht) hp hle]
        exact (hwarned rest).flush hs

theorem blames_of_reading (hs : s.text ≠ []) (hc : c.problems = []) {full : Bool}
    {nesting : Nesting} {f : Failure} (h : (s.reading full nesting c).1 = .error f) :
    s.Blames f := by
  rcases stuck_or_tooDeep hc h with
    ⟨wanted,rest,room,-,hstuck,⟨-,hread⟩ | ⟨-,c',hread,-⟩⟩ | ⟨rest,-,hread,-⟩
  · rw [hread] at h
    obtain rfl := Except.error.inj h
    exact ⟨_,rfl,shows_offence hs hstuck⟩
  · rw [hread] at h
    obtain rfl := Except.error.inj h
    trivial
  · rw [hread] at h
    obtain rfl := Except.error.inj h
    trivial

/-- A problem is left waiting only where reading was given up as too deep. -/
theorem problems_reading (hc : c.problems = []) {full : Bool} {nesting : Nesting}
    (h : (s.reading full nesting c).1 ≠ .error .tooDeep) :
    (s.reading full nesting c).2.problems = [] := by
  rcases reading_cases full nesting s (Console.worded_of_problems hc) with
    ⟨t,c',hr,hidle⟩ | ⟨f,c',hr,hfails⟩
  · rw [hr]
    exact hidle.problems
  · rw [hr] at h ⊢
    refine (hfails.idle ?_).problems
    rintro rfl
    exact h rfl

/-- Evaluating what was read tells of nothing else than what was waiting, and blames a variable, or
nesting. -/
theorem evaluate_blames (hs : s.text ≠ []) (hc : s.Awaits c) (hp : c.problems = []) {full : Bool}
    {nesting : Nesting} {t u : Tree} (h : (s.reading full nesting c₀).1 = .ok t)
    (hu : u = t ∨ u ∈ t.statements) (limit : Nesting) (store : Store) :
    s.Tells c (u.evaluate limit s store c).2.2 ∧
      ((u.evaluate limit s store c).1 ≠ .error .tooDeep →
        (u.evaluate limit s store c).2.2.problems = []) ∧
      ∀ f, (u.evaluate limit s store c).1 = .error f → s.Blames f := by
  have hdue : ∀ e s', u.value (limit.walkingRoom u) store = (.error e,s') → e.IsDue := by
    intro e s' hv
    have hcanonical := canonical_of_reading h
    rcases hu with rfl | hu
    · exact hcanonical.isDue hv
    · have hstatement : u.Canonical (.ofReading false) := hcanonical.of_mem_statements hu
      exact hstatement.isDue hv
  rw [Tree.evaluate]
  cases hv : u.value (limit.walkingRoom u) store with
  | mk r store' =>
    cases r with
    | ok x => exact ⟨hc.tells,fun _ => hp,fun f hf => by cases hf⟩
    | error e =>
      cases e with
      | undefined span x =>
        obtain ⟨a,ha,hspan⟩ := exists_token_of_mem_reads h hu (u.mem_reads_of_value _ _ hv)
        obtain ⟨i,j,hij,hflat⟩ := exists_flat_of_mem ha
        obtain rfl : span = ⟨i,j⟩ := hspan.symm.trans hij
        have hshows := shows_undefined hs hflat x
        rcases Nat.lt_or_ge (u.roomLeft (limit.walkingRoom u) store)
          limit.walkingNeeds.raising with hlt | hle
        · obtain ⟨c',hfail,hleaves⟩ := Console.failWithin_of_lt hlt c s ⟨i,j⟩ (.undefined x)
          have hreport : u.report limit s store c ⟨i,j⟩ (.undefined x) = (.tooDeep,c') := hfail
          simp only [hreport]
          refine ⟨hc.tells.leaves hs hshows hleaves,fun hne => absurd rfl hne,?_⟩
          rintro f ⟨⟩
          trivial
        · have hfail : c.fail s ⟨i,j⟩ (.undefined x) = _ := Console.fail_eq hp rfl
          simp only [Tree.report_of_le hle,hfail]
          refine ⟨hc.tells.flush hs,fun _ => rfl,?_⟩
          rintro f ⟨⟩
          exact ⟨_,rfl,hshows⟩
      | tooDeep =>
        refine ⟨hc.tells,fun _ => hp,?_⟩
        rintro f ⟨⟩
        trivial
      | unevaluable | notANumber => exact (hdue _ _ hv).elim

end Source

namespace Cursor

/-- A cursor that goes through a program and has nothing to tell of but what is wrong with it. -/
structure Follows (s : Source) (c₀ : Console) (c : Cursor) (o : Console) : Prop where
  reached : ∃ n, c.Reached s n
  illegals : ∀ k ∈ Piece.illegals c.position c.pieces, s.IsSkipped k
  problems : o.problems = []
  tells : s.Tells c₀ o

section
variable {s : Source} {c₀ o : Console} {c : Cursor}

theorem follows_start (h : s.Awaits o) (hp : o.problems = []) : (start s).Follows s o o where
  reached := ⟨0,reached_start s⟩
  illegals := fun _ => Source.isSkipped_iff.2
  problems := hp
  tells := h.tells

theorem illegals_finished (c : Cursor) :
    Piece.illegals c.finished.position c.finished.pieces = [] := by
  have hrest : c.finished.rest = [] := List.drop_length
  rw [pieces,hrest]
  rfl

theorem Follows.next (h : c.Follows s c₀ o) :
    ∃ more c' o', c.next o = (more,c',o') ∧ c'.Follows s c₀ o' := by
  obtain ⟨⟨n,hreached⟩,hillegals,hproblems,htells⟩ := h
  obtain rfl := hreached.source
  obtain ⟨c₁,bad₁,hnext₁,hreached₁⟩ := hreached.next o
  rcases c.next_cases hreached.position_le o with ⟨-,hnext⟩ | ⟨bad,t,c',hnext,-,-,-,-,hsplit⟩
  · obtain ⟨-,hpair⟩ := Prod.mk.inj (hnext₁.symm.trans hnext)
    obtain ⟨rfl,-⟩ := Prod.mk.inj hpair
    refine ⟨_,_,_,hnext,⟨_,hreached₁⟩,?_,hproblems,htells.warnIllegal hillegals⟩
    rw [illegals_finished]
    simp
  · obtain ⟨-,hpair⟩ := Prod.mk.inj (hnext₁.symm.trans hnext)
    obtain ⟨rfl,-⟩ := Prod.mk.inj hpair
    rw [hsplit] at hillegals
    obtain ⟨hbad,hbehind⟩ := List.forall_mem_append.1 hillegals
    exact ⟨_,_,_,hnext,⟨_,hreached₁⟩,hbehind,hproblems,htells.warnIllegal hbad⟩

theorem Follows.flush (hs : s.text ≠ []) (h : c.Follows s c₀ o) : c.Follows s c₀ o.flush :=
  ⟨h.reached,h.illegals,rfl,h.tells.flush hs⟩

theorem Follows.remaining (hs : s.text ≠ []) (h : c.Follows s c₀ o) :
    ∃ ts c' o', c.remaining o = (.ok ts,c',o') ∧ c'.Follows s c₀ o' := by
  obtain ⟨⟨n,hreached⟩,hillegals,hproblems,htells⟩ := h
  obtain rfl := hreached.source
  have hremaining : c.remaining o = _ := remaining_eq hproblems
  obtain ⟨c',o',-,hsame,-,hreached'⟩ := hreached.remaining hproblems
  obtain ⟨-,hpair⟩ := Prod.mk.inj (hsame.symm.trans hremaining)
  obtain ⟨rfl,-⟩ := Prod.mk.inj hpair
  refine ⟨_,_,_,hremaining,⟨_,hreached'⟩,?_,rfl,(htells.warnIllegal hillegals).flush hs⟩
  rw [illegals_finished]
  simp

theorem Follows.perform (hs : s.text ≠ []) (h : c.Follows s c₀ o) (a : Action) :
    ∃ ts c' o', c.perform o a = (ts,c',o') ∧ c'.Follows s c₀ o' := by
  rcases c.perform_cases h.problems a with ⟨o',hstay,ho'⟩ | hnext | ⟨ts,c',o',hremaining,hall⟩
  · refine ⟨[],c,o',hstay,?_⟩
    rcases ho' with rfl | rfl
    · exact h
    · exact h.flush hs
  · obtain ⟨more,c',o',hc',hfollows⟩ := h.next
    rw [hc'] at hnext
    exact ⟨_,c',o',hnext,hfollows⟩
  · obtain ⟨us,c₁,o₁,hsame,hfollows⟩ := h.remaining hs
    rw [hsame] at hremaining
    obtain ⟨-,hrest⟩ := Prod.mk.inj hremaining
    obtain ⟨rfl,rfl⟩ := Prod.mk.inj hrest
    exact ⟨_,c₁,o₁,hall,hfollows⟩

theorem Follows.performAll (hs : s.text ≠ []) (h : c.Follows s c₀ o) (as : List Action) :
    ∃ ts c' o', c.performAll o as = (ts,c',o') ∧ c'.Follows s c₀ o' := by
  induction as generalizing c o with
  | nil => exact ⟨[],c,o,rfl,h⟩
  | cons a as ih =>
    obtain ⟨ts,c₁,o₁,ha,h₁⟩ := h.perform hs a
    obtain ⟨us,c₂,o₂,has,h₂⟩ := ih h₁
    exact ⟨ts ++ us,c₂,o₂,by simp only [Cursor.performAll,ha,has],h₂⟩

/-- The current token, or the end, is a flat place. -/
theorem Reached.exists_flat {n : Nat} (h : c.Reached s n) {t : Token} (ht : c.token = some t) :
    ∃ i j : Nat, t.span = ⟨i,j⟩ ∧ s.text.Flat i j := by
  cases n with
  | zero =>
    rw [(h.first rfl).2] at ht
    cases ht
  | succ n =>
    obtain rfl := Option.some.inj (h.token.symm.trans ht)
    rcases Nat.lt_or_ge n s.standardTokens.length with hlt | hge
    · apply Source.exists_flat_of_mem
      rw [Source.nth,List.getD_eq_getElem?_getD,List.getElem?_eq_getElem hlt]
      exact List.getElem_mem hlt
    · rw [Source.nth_of_le hge]
      exact ⟨_,_,rfl,s.flat_eof⟩

theorem Follows.blames_current (hs : s.text ≠ []) (h : c.Follows s c₀ o) {f : Failure}
    (hf : (c.current o).1 = .error f) : s.Blames f := by
  obtain ⟨n,hreached⟩ := h.reached
  obtain rfl := hreached.source
  cases ht : c.token with
  | none =>
    rw [current_of_none ht h.problems] at hf
    obtain rfl := Except.error.inj hf
    refine ⟨_,rfl,?_⟩
    rw [offence,hreached.position_eq_zero ht]
    exact Source.shows_unexpected hs c.source.flat_start _ _ _
  | some t =>
    rw [current_of_some ht] at hf
    cases hf

theorem Follows.blames_expect (hs : s.text ≠ []) (h : c.Follows s c₀ o) {w : Token} {f : Failure}
    (hf : (c.expect w o).1 = .error f) : s.Blames f := by
  have ho := h.problems
  cases ht : c.token with
  | none =>
    rw [expect_of_none ht ho] at hf
    apply h.blames_current hs
    rw [current_of_none ht ho]
    exact hf
  | some t =>
    by_cases hw : w.kind = t.kind
    · rw [expect_of_eq ht hw] at hf
      cases hf
    · obtain ⟨n,hreached⟩ := h.reached
      obtain rfl := hreached.source
      obtain ⟨i,j,hspan,hflat⟩ := hreached.exists_flat ht
      rw [expect_of_ne ht hw ho] at hf
      obtain rfl := Except.error.inj hf
      refine ⟨_,rfl,?_⟩
      rw [offence,hspan]
      exact Source.shows_unexpected hs hflat _ _ _

end

end Cursor

namespace Source

variable {s : Source}

/-- The only problem that a program is blamed for is pointed at if counting leads there. -/
theorem pinpoints_of_blames {α : Type} {r : Except Failure α}
    (h : ∀ f, r = .error f → s.Blames f) {i j : Nat} (hspans : Failure.spans r = [⟨i,j⟩]) :
    Pinpoints s.text (lines s.text ⟨i,j⟩ 1 1) i j ↔ s.text.Counted i j := by
  cases r with
  | ok x => cases hspans
  | error f =>
    have hblames := h f rfl
    cases f with
    | stopped stage ps =>
      obtain ⟨p,rfl,i',j',wording,hspan,-,hiff⟩ := hblames
      have hsame : p.span = ⟨i,j⟩ := (List.cons.inj hspans).1
      rw [hspan] at hsame hiff
      obtain ⟨hi,hj⟩ := Span.mk.inj hsame
      obtain rfl := Int.ofNat.inj hi
      obtain rfl := Int.ofNat.inj hj
      exact hiff
    | _ => cases hspans

/-- Whatever is told of a program while it is scanned, read and evaluated is told with an excerpt.
Just one line of it is marked, and just the place in question is coloured there, if and only if all
lines up to the place end with line feeds and the place is not behind the last one of the text. -/
theorem points_if_feeds_count (s : Source) (hs : s.text ≠ []) (c : Console) (hc : s.Awaits c)
    (hp : c.problems = []) :
    s.Tells c c.flush ∧ s.Tells c (s.tokens .standard c).2 ∧
    (∀ full nesting, s.Tells c (s.reading full nesting c).2 ∧
      ((s.reading full nesting c).1 ≠ .error .tooDeep →
        (s.reading full nesting c).2.problems = []) ∧
      ∀ f, (s.reading full nesting c).1 = .error f → s.Blames f) ∧
    (∀ full nesting c₀ t, (s.reading full nesting c₀).1 = .ok t →
      ∀ u, u = t ∨ u ∈ t.statements → ∀ limit store,
        s.Tells c (u.evaluate limit s store c).2.2 ∧
          ((u.evaluate limit s store c).1 ≠ .error .tooDeep →
            (u.evaluate limit s store c).2.2.problems = []) ∧
          ∀ f, (u.evaluate limit s store c).1 = .error f → s.Blames f) ∧
    ∀ as, ∃ ts cursor o, (Cursor.start s).performAll c as = (ts,cursor,o) ∧ s.Tells c o ∧
      o.problems = [] ∧ (∀ f, (cursor.current o).1 = .error f → s.Blames f) ∧
      ∀ w f, (cursor.expect w o).1 = .error f → s.Blames f := by
  refine ⟨hc.tells.flush hs,?_,?_,?_,?_⟩
  · have hillegals : ∀ k ∈ (Stream.ofText .standard s.text).illegals, s.IsSkipped k :=
      fun _ => isSkipped_iff.2
    have hproblems : (c.warnIllegal s (Stream.ofText .standard s.text).illegals).problems = [] := hp
    rw [tokens,Console.report_of_problems hproblems]
    exact (hc.tells.warnIllegal hillegals).flush hs
  · intro full nesting
    exact ⟨tells_reading hs hc hp full nesting,problems_reading hp,fun f => blames_of_reading hs hp⟩
  · intro full nesting c₀ t ht u hu limit store
    exact evaluate_blames hs hc hp ht hu limit store
  · intro as
    obtain ⟨ts,cursor,o,hrun,hfollows⟩ := (Cursor.follows_start hc hp).performAll hs as
    exact ⟨ts,cursor,o,hrun,hfollows.tells,hfollows.problems,fun f => hfollows.blames_current hs,
      fun w f => hfollows.blames_expect hs⟩

/-- The undefined variable in the first line is pointed at. The end, where a semicolon is missing,
is not. -/
theorem points_if_feeds_count_end :
    ∃ s : Source, s = ⟨"x = y;\nz = 1\n".toList,0⟩ ∧ s.text ≠ [] ∧ s.Awaits {} ∧
      Console.problems {} = [] ∧ (∃ t, (s.reading false .unlimited {}).1 = .ok t ∧
        Failure.spans (t.evaluate .unlimited s {} {}).1 = [⟨4,5⟩] ∧
        Pinpoints s.text (lines s.text ⟨4,5⟩ 1 1) 4 5) ∧
      Failure.spans (s.reading true .unlimited {}).1 = [⟨13,13⟩] ∧
        ¬ Pinpoints s.text (lines s.text ⟨13,13⟩ 1 1) 13 13 := by
  let s : Source := ⟨"x = y;\nz = 1\n".toList,0⟩
  have hs : s.text ≠ [] := by decide
  have hc : s.Awaits {} := s.awaits_of_idle ⟨rfl,rfl⟩
  obtain ⟨-,-,hread,hevaluate,-⟩ := points_if_feeds_count s hs {} hc rfl
  refine ⟨s,rfl,hs,hc,rfl,?_,?_⟩
  · have hplaces : ((s.reading false .unlimited {}).1.map fun t =>
        Failure.spans (t.evaluate .unlimited s {} {}).1).toOption = some [⟨4,5⟩] := by
      decide +kernel
    cases ht : (s.reading false .unlimited {}).1 with
    | error f =>
      rw [ht] at hplaces
      cases hplaces
    | ok t =>
      rw [ht] at hplaces
      have hspans : Failure.spans (t.evaluate .unlimited s {} {}).1 = [⟨4,5⟩] :=
        Option.some.inj hplaces
      obtain ⟨-,-,hblames⟩ := hevaluate false .unlimited {} t ht t (.inl rfl) .unlimited {}
      refine ⟨t,rfl,hspans,(pinpoints_of_blames hblames hspans).2 ⟨?_,by simp [s]⟩⟩
      have hnone : ∀ k < 5, s.text[k]?.all fun d => !isLineBreak d := by decide
      intro k hk d hd hbreak
      have hplain := hnone k hk
      rw [hd] at hplain
      simp [hbreak] at hplain
  · have hspans : Failure.spans (s.reading true .unlimited {}).1 = [⟨13,13⟩] := by decide +kernel
    obtain ⟨-,-,hblames⟩ := hread true .unlimited
    refine ⟨hspans,?_⟩
    intro hpinpoints
    obtain ⟨-,hlast⟩ := (pinpoints_of_blames hblames (i := 13) (j := 13) hspans).1 hpinpoints
    exact hlast rfl rfl

end Source
end AssignLang
