import AssignLang.Proofs.Diagnostic.Queue
import AssignLang.Proofs.Grammar.Statements
import AssignLang.Proofs.Token.Lexeme
import AssignLang.Reading
import AssignLang.Tree.Code

namespace AssignLang

open Grammar

namespace Nesting

theorem readingRoom_unlimited (n : Nat) : unlimited.readingRoom n = ample n := rfl

theorem walkingRoom_unlimited (t : Tree) : unlimited.walkingRoom t = t.height := rfl

/-- There is the same room for all trees, or what each of them needs, and then any problem is
reported. -/
theorem walkingRoom_cases (n : Nesting) : (∃ room, ∀ t, n.walkingRoom t = room) ∨
    n.walkingNeeds.raising = 0 ∧ ∀ t, n.walkingRoom t = t.height := by
  unfold walkingRoom
  cases hlimit : n.walking with
  | some room => exact .inl ⟨room,fun _ => rfl⟩
  | none => exact .inr ⟨n.walkingNeeds_raising hlimit,fun _ => rfl⟩

end Nesting

namespace Source

/-- The tokens of a program. -/
def standardTokens (s : Source) : List Token := (Stream.ofText .standard s.text).tokens

theorem isLexeme_of_mem_standardTokens {s : Source} {t : Token} (h : t ∈ s.standardTokens) :
    t.IsLexeme := Piece.isLexeme_of_mem_tokens h

theorem kind_ne_eof {s : Source} {t : Token} (h : t ∈ s.standardTokens) : t.kind ≠ .eof := by
  intro hk
  have ht := isLexeme_of_mem_standardTokens h
  rw [Token.IsLexeme,hk] at ht
  simp [Kind.Spells,Vocabulary.standard] at ht

theorem tokens_of_problems {s : Source} {c : Console} (h : c.problems = []) :
    (s.tokens .standard c).1 = .ok s.standardTokens := by
  rw [tokens,Console.report_of_problems (by rw [Console.problems_warnIllegal,h])]
  rfl

/-- Reads a whole program, or only its first statement. -/
def reading (full : Bool) (nesting : Nesting) (s : Source) (c : Console) :
    Except Failure Tree × Console :=
  (if full then s.block else s.statement) .standard nesting c

/-- The place of a block of statements in a program of `length` characters. -/
def blockSpan (length : Nat) (body : List Tree) : Span :=
  match body.head?,body.getLast? with
  | some a,some b => a.span.join b.span
  | _,_ => ⟨length,length⟩

/-- The illegal characters in front of `rest` as warnings of `s`. -/
def warned (s : Source) (rest : List Token) (c : Console) : Console :=
  c.warnIllegal s ((Stream.ofText .standard s.text).skipped rest)

/-- What the tokens of a program, or those of its first statement, are read as, and the tokens that
are left. -/
def treeOf (full : Bool) (nesting : Nesting) (s : Source) : Except Stop (Tree × List Token) :=
  let room := nesting.readingRoom s.standardTokens.length
  if full then
    match statements room s.standardTokens.length s.standardTokens with
    | .error e => .error e
    | .ok (body,rest) => .ok (.block (blockSpan s.text.length body) body,rest)
  else Grammar.statement room s.standardTokens

/-- What is reported once `t` was read in front of `rest`. -/
def kept (full : Bool) (s : Source) (t : Tree) (rest : List Token) (c : Console) : Console :=
  if full then s.warned rest c else s.keepBefore t.span.stop (s.warned rest c)

/-- What is reported where `got` was met and one of other kinds was wanted. -/
def offence (s : Source) (wanted : List Kind) (got : Token) : Problem :=
  ⟨s,got.span,some (.unexpected got.span.stop (wanted.map Token.ofKind) got),1,1,none⟩

theorem hasWording_offence (s : Source) (got : Token) {wanted : List Kind} (hw : wanted ≠ []) :
    (s.offence wanted got).hasWording := by
  cases wanted with
  | nil => exact absurd rfl hw
  | cons k ks => rfl

section
variable {s : Source} {full : Bool} {nesting : Nesting} {c : Console} {t : Tree}
  {rest : List Token} {e : Stop}

theorem problems_kept (full : Bool) (s : Source) (t : Tree) (rest : List Token) (c : Console) :
    (s.kept full t rest c).problems = c.problems := by cases full <;> rfl

/-- A tree that the tokens are read as is the result if no problem waits. -/
theorem reading_of_ok (h : s.treeOf full nesting = .ok (t,rest)) (c : Console) :
    s.reading full nesting c = (((s.kept full t rest c).report .parser).1.map (fun _ => t),
      ((s.kept full t rest c).report .parser).2) := by
  cases full with
  | true =>
    rw [treeOf,if_pos rfl] at h
    cases hs : statements (nesting.readingRoom s.standardTokens.length) s.standardTokens.length
        s.standardTokens with
    | error e => simp [hs] at h
    | ok p =>
      obtain ⟨body,rest'⟩ := p
      obtain ⟨rfl,-⟩ := exists_of_statements (fun t ht => kind_ne_eof ht) (Nat.le_refl _) hs
      simp only [hs,Except.ok.injEq,Prod.mk.injEq] at h
      obtain ⟨rfl,rfl⟩ := h
      change s.block .standard nesting c = _
      simp only [block]
      simp only [standardTokens] at hs
      rw [hs]
      rfl
  | false =>
    rw [treeOf,if_neg (by simp)] at h
    change s.statement .standard nesting c = _
    simp only [statement]
    simp only [standardTokens] at h
    rw [h]
    rfl

theorem reading_of_error (h : s.treeOf full nesting = .error e) (c : Console) :
    s.reading full nesting c =
      (.error (s.stop nesting.readingNeeds (.ofText .standard s.text) c e).1,
        (s.stop nesting.readingNeeds (.ofText .standard s.text) c e).2) := by
  cases full with
  | true =>
    rw [treeOf,if_pos rfl] at h
    cases hs : statements (nesting.readingRoom s.standardTokens.length) s.standardTokens.length
        s.standardTokens with
    | ok p => simp [hs] at h
    | error e' =>
      simp only [hs,Except.error.injEq] at h
      rw [h] at hs
      change s.block .standard nesting c = _
      simp only [block]
      simp only [standardTokens] at hs
      rw [hs]
  | false =>
    rw [treeOf,if_neg (by simp)] at h
    change s.statement .standard nesting c = _
    simp only [statement]
    simp only [standardTokens] at h
    rw [h]

theorem reading_eq (hc : c.problems = []) (h : s.treeOf full nesting = .ok (t,rest)) :
    s.reading full nesting c = (.ok t,(s.kept full t rest c).flush) := by
  have hproblems := (s.problems_kept full t rest c).trans hc
  rw [reading_of_ok h,Console.report_of_problems hproblems]
  rfl

/-- Problems that wait are reported instead. -/
theorem reading_of_waiting (hc : c.Worded) (hwaiting : c.problems ≠ [])
    (h : s.treeOf full nesting = .ok (t,rest)) : s.reading full nesting c =
      (.error (.stopped .parser c.problems),(s.kept full t rest c).flush) := by
  have hproblems := s.problems_kept full t rest c
  have hreport := (hc.congr hproblems).report (by rwa [hproblems]) .parser
  rw [reading_of_ok h,hreport,hproblems]
  rfl

/-- What is read was read off the tokens, with no problem waiting. -/
theorem treeOf_of_reading (h : (s.reading full nesting c).1 = .ok t) :
    c.problems = [] ∧ ∃ rest, s.treeOf full nesting = .ok (t,rest) := by
  cases ht : s.treeOf full nesting with
  | error e =>
    rw [reading_of_error ht] at h
    cases h
  | ok p =>
    obtain ⟨u,rest⟩ := p
    rw [reading_of_ok ht,Console.report] at h
    split at h
    · rename_i hproblems
      rw [List.isEmpty_iff,problems_kept] at hproblems
      obtain rfl := Except.ok.inj h
      exact ⟨hproblems,rest,rfl⟩
    · cases h

/-- Behind what was read nothing waits. -/
theorem idle_of_reading (h : (s.reading full nesting c).1 = .ok t) :
    (s.reading full nesting c).2.Idle := by
  obtain ⟨hc,rest,ht⟩ := treeOf_of_reading h
  rw [reading_eq hc ht]
  exact Console.idle_flush _

/-- Reading tokens stops where others were wanted, or because the room was not enough. -/
theorem isDue_of_treeOf (h : s.treeOf full nesting = .error e) :
    IsDue (ample s.standardTokens.length ≤ nesting.readingRoom s.standardTokens.length) e := by
  cases full with
  | true =>
    rw [treeOf,if_pos rfl] at h
    cases hs : statements (nesting.readingRoom s.standardTokens.length) s.standardTokens.length
        s.standardTokens with
    | ok p => simp [hs] at h
    | error e' =>
      simp only [hs,Except.error.injEq] at h
      exact h ▸ isDue_of_statements hs
  | false => exact isDue_of_statement h

/-- Where there is room to report it, an unexpected token is, and nothing is left waiting. -/
theorem stop_of_unexpected {need : Headroom} {room : Nat} {wanted : List Kind}
    (hw : wanted ≠ []) (hc : c.problems = []) (hroom : need.raising ≤ room) :
    s.stop need (.ofText .standard s.text) c (.unexpected wanted rest room) =
      (.stopped .parser [s.offence wanted ((Stream.ofText .standard s.text).current rest)],
        (s.warned rest c).flush) := by
  have hwording := s.hasWording_offence ((Stream.ofText .standard s.text).current rest) hw
  rw [stop,Console.failWithin_of_le hroom]
  exact Console.fail_eq (c := s.warned rest c) hc hwording

theorem reading_of_tooDeep (h : s.treeOf full nesting = .error (.tooDeep rest)) (c : Console) :
    s.reading full nesting c = (.error .tooDeep,s.warned rest c) := by
  rw [reading_of_error h]
  rfl

/-- Reading fails where it gets stuck, and says so if there is room to, or where the program nests
too deeply. -/
theorem stuck_or_tooDeep {f : Failure} (hc : c.problems = [])
    (h : (s.reading full nesting c).1 = .error f) :
    (∃ wanted rest room, wanted ≠ [] ∧
      s.treeOf full nesting = .error (.unexpected wanted rest room) ∧
      (nesting.readingNeeds.raising ≤ room ∧ s.reading full nesting c = (.error (.stopped .parser
          [s.offence wanted ((Stream.ofText .standard s.text).current rest)]),
            (s.warned rest c).flush) ∨
        room < nesting.readingNeeds.raising ∧ ∃ c', s.reading full nesting c = (.error .tooDeep,c') ∧
          (s.warned rest c).Leaves
            (s.offence wanted ((Stream.ofText .standard s.text).current rest)) c')) ∨
    ∃ rest, s.treeOf full nesting = .error (.tooDeep rest) ∧
      (∀ c, s.reading full nesting c = (.error .tooDeep,s.warned rest c)) ∧
      ¬ ample s.standardTokens.length ≤ nesting.readingRoom s.standardTokens.length := by
  cases ht : s.treeOf full nesting with
  | ok p =>
    rw [reading_eq hc ht] at h
    cases h
  | error e =>
    have he := isDue_of_treeOf ht
    cases e with
    | tooDeep rest => exact .inr ⟨rest,rfl,reading_of_tooDeep ht,he⟩
    | unexpected wanted rest room =>
      refine .inl ⟨wanted,rest,room,he,rfl,?_⟩
      rw [reading_of_error ht]
      rcases Nat.lt_or_ge room nesting.readingNeeds.raising with hlt | hle
      · obtain ⟨c',hfail,hleaves⟩ := Console.failWithin_of_lt hlt (s.warned rest c) s _ _
        have hstop : s.stop nesting.readingNeeds (.ofText .standard s.text) c
            (.unexpected wanted rest room) = (.tooDeep,c') := hfail
        exact .inr ⟨hlt,c',by rw [hstop],hleaves⟩
      · exact .inl ⟨hle,by rw [stop_of_unexpected he hc hle]⟩

/-- Whatever the program, and whatever waits, what goes on waiting can be worded. Reading fails only
where the program is to blame. If it succeeds, nothing is left waiting. -/
theorem reading_cases (full : Bool) (nesting : Nesting) (s : Source) (hc : c.Worded) :
    (∃ t c', s.reading full nesting c = (.ok t,c') ∧ c'.Idle) ∨
      ∃ f c', s.reading full nesting c = (.error f,c') ∧ c.Fails nesting.readingNeeds f c' := by
  cases ht : s.treeOf full nesting with
  | ok p =>
    obtain ⟨t,rest⟩ := p
    by_cases hp : c.problems = []
    · exact .inl ⟨t,_,reading_eq hp ht,Console.idle_flush _⟩
    · have hidle := (s.kept full t rest c).idle_flush
      exact .inr ⟨_,_,reading_of_waiting hc hp ht,trivial,hidle.worded,fun _ => hidle,fun _ _ => rfl⟩
  | error e =>
    right
    rw [reading_of_error ht]
    have he := isDue_of_treeOf ht
    cases e with
    | tooDeep rest => exact ⟨.tooDeep,_,rfl,hc.tooDeep nesting.readingNeeds rfl⟩
    | unexpected wanted rest room =>
      have hwarned : (s.warned rest c).Worded := hc
      obtain ⟨f,c',hfail,hfails⟩ := hwarned.failWithin nesting.readingNeeds room
        (s.hasWording_offence ((Stream.ofText .standard s.text).current rest) he)
      have hstop : s.stop nesting.readingNeeds (.ofText .standard s.text) c
          (.unexpected wanted rest room) = (f,c') := hfail
      exact ⟨f,c',by rw [hstop],hfails.isDue,hfails.worded,hfails.idle,hfails.problems⟩

/-- Without a limit reading fails only with problems reported by the parser. -/
theorem reading_stopped {f : Failure} (hc : c.problems = [])
    (h : (s.reading full .unlimited c).1 = .error f) : ∃ ps, f = .stopped .parser ps := by
  rcases stuck_or_tooDeep hc h with ⟨_,_,room,-,-,⟨-,hread⟩ | ⟨hlt,-⟩⟩ | ⟨rest,-,-,hroom⟩
  · rw [hread] at h
    exact ⟨_,(Except.error.inj h).symm⟩
  · exact absurd hlt (Nat.not_lt_zero room)
  · exact absurd (Nat.le_refl _) hroom

end

section
variable {s : Source} {nesting : Nesting} {c : Console}

theorem treeOf_of_statements {body : List Tree} {rest : List Token}
    (h : statements (nesting.readingRoom s.standardTokens.length) s.standardTokens.length
      s.standardTokens = .ok (body,rest)) :
    s.treeOf true nesting = .ok (.block (blockSpan s.text.length body) body,rest) := by
  rw [treeOf,if_pos rfl]
  simp only [h]

theorem block_of_statements {body : List Tree} (hc : c.problems = [])
    (h : statements (nesting.readingRoom s.standardTokens.length) s.standardTokens.length
      s.standardTokens = .ok (body,[])) :
    s.block .standard nesting c =
      (.ok (.block (blockSpan s.text.length body) body),(s.warned [] c).flush) :=
  reading_eq hc (treeOf_of_statements h)

theorem statement_of_statement {t : Tree} {rest : List Token} (hc : c.problems = [])
    (h : Grammar.statement (nesting.readingRoom s.standardTokens.length) s.standardTokens =
      .ok (t,rest)) :
    s.statement .standard nesting c =
      (.ok t,(s.keepBefore t.span.stop (s.warned rest c)).flush) := by
  have htree : s.treeOf false nesting = .ok (t,rest) := h
  exact reading_eq hc htree

/-- A block that is read is made of statements that are read, through the end. -/
theorem statements_of_block {t : Tree} (h : (s.block .standard nesting c).1 = .ok t) :
    ∃ body, statements (nesting.readingRoom s.standardTokens.length) s.standardTokens.length
      s.standardTokens = .ok (body,[]) ∧ t = .block (blockSpan s.text.length body) body := by
  have hread : (s.reading true nesting c).1 = .ok t := h
  obtain ⟨-,rest,ht⟩ := treeOf_of_reading hread
  cases hs : statements (nesting.readingRoom s.standardTokens.length) s.standardTokens.length
      s.standardTokens with
  | error e => simp [treeOf,hs] at ht
  | ok p =>
    obtain ⟨body,rest'⟩ := p
    obtain ⟨rfl,-⟩ := exists_of_statements (fun t ht => kind_ne_eof ht) (Nat.le_refl _) hs
    rw [treeOf_of_statements hs] at ht
    obtain ⟨rfl,-⟩ := Prod.mk.inj (Except.ok.inj ht)
    exact ⟨body,rfl,rfl⟩

/-- A block that is read was derived. -/
theorem exists_of_block {t : Tree} (h : (s.block .standard nesting c).1 = .ok t) :
    ∃ ds : List Statement, ds.flatMap Statement.tokens = s.standardTokens ∧
      t = .block (blockSpan s.text.length (ds.map Statement.tree)) (ds.map Statement.tree) := by
  obtain ⟨body,hbody,rfl⟩ := statements_of_block h
  obtain ⟨-,ds,hds,rfl⟩ := exists_of_statements (fun t ht => kind_ne_eof ht) (Nat.le_refl _) hbody
  exact ⟨ds,hds.symm,rfl⟩

/-- A statement that is read was derived. -/
theorem exists_of_statement {t : Tree} (h : (s.statement .standard nesting c).1 = .ok t) :
    ∃ (d : Statement) (rest : List Token), d.tokens ++ rest = s.standardTokens ∧ t = d.tree := by
  have hread : (s.reading false nesting c).1 = .ok t := h
  obtain ⟨-,rest,ht⟩ := treeOf_of_reading hread
  obtain ⟨d,hd,rfl⟩ := Grammar.exists_of_statement ht
  exact ⟨d,rest,hd.symm,rfl⟩

end

section
variable {s : Source} {c : Console}

/-- A block that was derived is read. -/
theorem block_of_derivation (hc : c.problems = []) {ds : List Statement}
    (hds : ds.flatMap Statement.tokens = s.standardTokens) :
    s.block .standard .unlimited c =
      (.ok (.block (blockSpan s.text.length (ds.map Statement.tree)) (ds.map Statement.tree)),
        (s.warned [] c).flush) := by
  refine block_of_statements hc ?_
  rw [Nesting.readingRoom_unlimited,← hds]
  exact statements_tokens ds (Nat.le_refl _) (Nat.le_refl _)

/-- A statement that was derived is read. -/
theorem statement_of_derivation (hc : c.problems = []) {d : Statement} {rest : List Token}
    (hd : d.tokens ++ rest = s.standardTokens) :
    s.statement .standard .unlimited c =
      (.ok d.tree,(s.keepBefore d.tree.span.stop (s.warned rest c)).flush) := by
  refine statement_of_statement hc ?_
  rw [Nesting.readingRoom_unlimited,← hd]
  refine statement_tokens d (ample_mono ?_)
  rw [List.length_append]
  exact Nat.le_add_right _ _

end

/-- What is read is just what the grammar derives, and as the tree of its only derivation. Whatever
else is given up by the parser. -/
theorem reads_just_the_derived (s : Source) (c : Console) (hc : c.Idle) :
    ∃ ts, (s.tokens .standard c).1 = .ok ts ∧
      (∀ t, (s.block .standard .unlimited c).1 = .ok t ↔
        ∃ ds : List Statement, ds.flatMap Statement.tokens = ts ∧
          t = .block (blockSpan s.text.length (ds.map Statement.tree)) (ds.map Statement.tree)) ∧
      (∀ ds ds' : List Statement, ds.flatMap Statement.tokens = ts →
        ds'.flatMap Statement.tokens = ts → ds = ds') ∧
      (∀ f, (s.block .standard .unlimited c).1 = .error f → ∃ ps, f = .stopped .parser ps) ∧
      (∀ t, (s.statement .standard .unlimited c).1 = .ok t ↔
        ∃ d : Statement, d.tokens <+: ts ∧ t = d.tree) ∧
      (∀ d d' : Statement, d.tokens <+: ts → d'.tokens <+: ts → d = d') ∧
      ∀ f, (s.statement .standard .unlimited c).1 = .error f → ∃ ps, f = .stopped .parser ps := by
  refine ⟨s.standardTokens,tokens_of_problems hc.problems,?_,?_,?_,?_,?_,?_⟩
  · intro t
    constructor
    · exact exists_of_block
    · rintro ⟨ds,hds,rfl⟩
      rw [block_of_derivation hc.problems hds]
  · intro ds ds' h h'
    exact Statement.flatMap_tokens_inj (h.trans h'.symm)
  · intro f hf
    have hread : (s.reading true .unlimited c).1 = .error f := hf
    exact reading_stopped hc.problems hread
  · intro t
    constructor
    · intro h
      obtain ⟨d,rest,hd,rfl⟩ := exists_of_statement h
      exact ⟨d,⟨rest,hd⟩,rfl⟩
    · rintro ⟨d,⟨rest,hd⟩,rfl⟩
      rw [statement_of_derivation hc.problems hd]
  · rintro d d' ⟨r,hd⟩ ⟨r',hd'⟩
    exact (d.append_inj d' (hd.trans hd'.symm)).1
  · intro f hf
    have hread : (s.reading false .unlimited c).1 = .error f := hf
    exact reading_stopped hc.problems hread

/-- The second difference has the first one on its left. -/
theorem reads_just_the_derived_chain :
    Console.Idle {} ∧ ∃ ts, (tokens .standard ⟨"x=1-2-a*3;".toList,0⟩ {}).1 = .ok ts ∧
      ∃ d : Statement, (∀ ds : List Statement, ds.flatMap Statement.tokens = ts ↔ ds = [d]) ∧
        d.tree.code = "x = 1-2-a*3;".toList := by
  have hcode : ((block .standard .unlimited ⟨"x=1-2-a*3;".toList,0⟩ {}).1.map
      fun t => t.statements.map Tree.code).toOption = some ["x = 1-2-a*3;".toList] := by
    decide +kernel
  obtain ⟨ts,hts,hblock,hinj,-⟩ := reads_just_the_derived ⟨"x=1-2-a*3;".toList,0⟩ {} ⟨rfl,rfl⟩
  refine ⟨⟨rfl,rfl⟩,ts,hts,?_⟩
  cases ht : (block .standard .unlimited ⟨"x=1-2-a*3;".toList,0⟩ {}).1 with
  | error f =>
    rw [ht] at hcode
    cases hcode
  | ok t =>
    obtain ⟨ds,hds,rfl⟩ := (hblock t).1 ht
    rw [ht] at hcode
    obtain ⟨d,rfl,hd⟩ : ∃ d, ds = [d] ∧ d.tree.code = "x = 1-2-a*3;".toList := by
      have hmap : (ds.map Statement.tree).map Tree.code = ["x = 1-2-a*3;".toList] :=
        Option.some.inj hcode
      rw [List.map_map] at hmap
      exact List.map_eq_singleton_iff.1 hmap
    refine ⟨d,fun ds' => ⟨fun h => hinj ds' [d] h hds,?_⟩,hd⟩
    rintro rfl
    exact hds

end Source
end AssignLang
