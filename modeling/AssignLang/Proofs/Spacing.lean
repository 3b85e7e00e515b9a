import AssignLang.Proofs.Grammar.Places
import AssignLang.Proofs.RoundTrip
import AssignLang.Proofs.Session.History
import AssignLang.Proofs.Token.Spacing

namespace AssignLang

open Grammar

/-- A fault without its place. -/
def Fault.bare : Fault → Fault
  | unexpected _ expected got => unexpected 0 expected got.bare
  | f => f

def Problem.bare (p : Problem) : Problem :=
  {p with source := ⟨[],0⟩,span := .unknown,fault := p.fault.map Fault.bare}

/-- A failure without the places of its problems. -/
def Failure.bare : Failure → Failure
  | stopped stage ps => stopped stage (ps.map Problem.bare)
  | f => f

namespace Source

section
variable {s s' : Source} {full : Bool} {nesting : Nesting}

theorem bare_current {rest rest' : List Token} (h : rest'.map Token.bare = rest.map Token.bare) :
    ((Stream.ofText .standard s'.text).current rest').bare =
      ((Stream.ofText .standard s.text).current rest).bare := by
  cases rest with
  | nil =>
    cases rest' with
    | nil => rfl
    | cons t' rest' => simp at h
  | cons t rest =>
    cases rest' with
    | nil => simp at h
    | cons t' rest' => exact (List.cons.inj h).1

theorem bareRead_treeOf (full : Bool) (nesting : Nesting) (s : Source) :
    bareRead Tree.bare (s.treeOf full nesting) =
      let ts := s.standardTokens.map Token.bare
      let room := nesting.readingRoom ts.length
      if full then
        match statements room ts.length ts with
        | .error e => .error e
        | .ok (body,rest) => .ok (.block .unknown body,rest)
      else Grammar.statement room ts := by
  simp only [List.length_map,statements_bare,statement_bare]
  rw [treeOf]
  cases full with
  | true =>
    simp only [if_true]
    cases statements (nesting.readingRoom s.standardTokens.length) s.standardTokens.length
      s.standardTokens <;> rfl
  | false => rfl

/-- The places of tokens do not show in what they are read as. -/
theorem treeOf_of_bare (h : s'.standardTokens.map Token.bare = s.standardTokens.map Token.bare) :
    bareRead Tree.bare (s'.treeOf full nesting) = bareRead Tree.bare (s.treeOf full nesting) := by
  rw [bareRead_treeOf,bareRead_treeOf,h]

end

section
variable {s s' : Source} {ts : List Token} {c : Console}
  (hs : Piece.content (Piece.ofText .standard s.text) = ts.map Piece.ofToken)
include hs

/-- Without illegal characters reading says nothing besides its result. -/
theorem block_of_tree {nesting : Nesting} {t : Tree} {rest : List Token} (hc : c.Idle)
    (h : s.treeOf true nesting = .ok (t,rest)) : s.block .standard nesting c = (.ok t,c) := by
  have hread : s.block .standard nesting c = (.ok t,(s.warned rest c).flush) :=
    reading_eq hc.problems h
  rw [hread,warned_of_content hs,hc.flush]

theorem block_of_tooDeep {nesting : Nesting} {rest : List Token}
    (h : s.treeOf true nesting = .error (.tooDeep rest)) :
    s.block .standard nesting c = (.error .tooDeep,c) := by
  have hread : s.block .standard nesting c = (.error .tooDeep,s.warned rest c) :=
    reading_of_tooDeep h c
  rw [hread,warned_of_content hs]

theorem block_of_stuck {nesting : Nesting} {wanted : List Kind} {rest : List Token} {room : Nat}
    (hc : c.Idle) (h : s.treeOf true nesting = .error (.unexpected wanted rest room)) :
    let need := nesting.readingNeeds
    let p := s.offence wanted ((Stream.ofText .standard s.text).current rest)
    s.block .standard nesting c =
      (.error (if need.raising ≤ room then .stopped .parser [p] else .tooDeep),
        {c with problems := if need.raising ≤ room then [] else if need.filing ≤ room then [p]
          else []}) := by
  have hwording := s.hasWording_offence ((Stream.ofText .standard s.text).current rest)
    (isDue_of_treeOf h)
  have hread : s.block .standard nesting c = (.error _,_) := reading_of_error h c
  have hwarned : s.warned rest c = c := warned_of_content hs
  rw [warned] at hwarned
  rw [hread,stop,hwarned,hc.failWithin _ _ hwording]
  rfl

/-- Programs with the same tokens are both read, as the same tree, or both fail, for the same
reason. -/
theorem block_cases_of_content (nesting : Nesting) {c' : Console}
    (hs' : Piece.content (Piece.ofText .standard s'.text) = ts.map Piece.ofToken)
    (hc : c.Idle) (hc' : c'.Idle) :
    (∃ t u, s.block .standard nesting c = (.ok t,c) ∧ s'.block .standard nesting c' = (.ok u,c') ∧
      u.bare = t.bare) ∨
    ∃ f f' ps ps', s.block .standard nesting c = (.error f,{c with problems := ps}) ∧
      s'.block .standard nesting c' = (.error f',{c' with problems := ps'}) ∧ f'.bare = f.bare ∧
      ps'.map Problem.bare = ps.map Problem.bare ∧
      (f ≠ .tooDeep ∨ nesting.readingNeeds.raising = 0 → ps = []) := by
  have hbare : s'.standardTokens.map Token.bare = s.standardTokens.map Token.bare :=
    Piece.map_bare_of_ofToken ((map_standardTokens hs').trans (map_standardTokens hs).symm)
  have hsame : bareRead Tree.bare (s'.treeOf true nesting) =
      bareRead Tree.bare (s.treeOf true nesting) := treeOf_of_bare hbare
  have hidle : {c with problems := []} = c := by rw [← hc.problems]
  have hidle' : {c' with problems := []} = c' := by rw [← hc'.problems]
  rcases cases_of_bareRead hsame with ⟨t,u,rest,rest',ht,hu,htree⟩ | ⟨rest,rest',ht,hu⟩ |
    ⟨wanted,rest,rest',room,ht,hu,hrest⟩
  · exact .inl ⟨t,u,block_of_tree hs hc ht,block_of_tree hs' hc' hu,htree⟩
  · refine .inr ⟨.tooDeep,.tooDeep,[],[],?_,?_,rfl,rfl,fun _ => rfl⟩
    · rw [hidle,block_of_tooDeep hs ht]
    · rw [hidle',block_of_tooDeep hs' hu]
  · have hgot : ((Stream.ofText .standard s'.text).current rest').bare =
        ((Stream.ofText .standard s.text).current rest).bare := bare_current hrest
    have hproblem : (s'.offence wanted ((Stream.ofText .standard s'.text).current rest')).bare =
        (s.offence wanted ((Stream.ofText .standard s.text).current rest)).bare := by
      simp [Problem.bare,Fault.bare,offence,hgot]
    refine .inr ⟨_,_,_,_,block_of_stuck hs hc ht,block_of_stuck hs' hc' hu,?_,?_,?_⟩
    · split <;> simp [Failure.bare,hproblem]
    · split
      · rfl
      split <;> simp [hproblem]
    · rintro (hne | hneed)
      · rw [if_pos (Decidable.byContradiction fun h => hne (if_neg h))]
      · rw [if_pos (by omega)]

end

end Source

/-- The failure of a stage that cannot go on when nothing else is waiting, without its place. It is
for want of room if the fault is not `reported`. -/
def Fault.failure (reported : Bool) (fault : Fault) : Failure :=
  if reported then
    .stopped fault.stage [{source := ⟨[],0⟩,span := .unknown,fault := some fault.bare}]
  else .tooDeep

/-- The failure that an obstacle comes to, without its place. -/
def Obstacle.failure (reported : Bool) : Obstacle → Failure
  | undefined _ x => (Fault.undefined x).failure reported
  | unevaluable _ node => (Fault.unevaluable node).failure reported
  | notANumber text => .notANumber text
  | tooDeep => .tooDeep

namespace Tree

/-- What evaluation comes to, without the places of its problems. -/
def bareOutcome (r : Except Failure Float × Store × Console) : Except Failure Float × Store :=
  (r.1.mapError Failure.bare,r.2.1)

theorem bare_report (t : Tree) (nesting : Nesting) (source : Source) (s : Store) {c : Console}
    (hc : c.problems = []) (span : Span) (fault : Fault)
    (hw : Problem.hasWording {source,span,fault := some fault}) :
    (t.report nesting source s c span fault).1.bare =
      fault.failure (nesting.walkingNeeds.raising ≤ t.roomLeft (nesting.walkingRoom t) s) := by
  rcases Nat.lt_or_ge (t.roomLeft (nesting.walkingRoom t) s) nesting.walkingNeeds.raising with
    hlt | hle
  · obtain ⟨c',hfail,-⟩ := Console.failWithin_of_lt hlt c source span fault
    have hnot : ¬ nesting.walkingNeeds.raising ≤ t.roomLeft (nesting.walkingRoom t) s := by omega
    rw [report,hfail,decide_eq_false hnot]
    rfl
  · rw [report_of_le hle,Console.fail_eq hc hw,decide_eq_true hle]
    rfl

theorem bareOutcome_evaluate (t : Tree) (nesting : Nesting) (source : Source) (s : Store)
    {c : Console} (hc : c.problems = []) :
    let room := nesting.walkingRoom t
    bareOutcome (t.evaluate nesting source s c) =
      ((t.bare.value room s).1.mapError
        (Obstacle.failure (nesting.walkingNeeds.raising ≤ t.bare.roomLeft room s)),
        (t.bare.value room s).2) := by
  simp only [value_bare,roomLeft_bare,evaluate]
  cases hv : t.value (nesting.walkingRoom t) s with
  | mk r s' =>
    cases r with
    | ok x => rfl
    | error e =>
      cases e with
      | undefined span x =>
        have hreport := t.bare_report nesting source s hc span (.undefined x) rfl
        exact Prod.ext (congrArg Except.error hreport) rfl
      | unevaluable span node =>
        have hreport := t.bare_report nesting source s hc span (.unevaluable node) rfl
        exact Prod.ext (congrArg Except.error hreport) rfl
      | notANumber text => rfl
      | tooDeep => rfl

/-- The places in a tree show in the places of problems alone. -/
theorem evaluate_of_bare {t u : Tree} (h : u.bare = t.bare) (nesting : Nesting)
    (source source' : Source) (s : Store) {c c' : Console} (hc : c.problems = [])
    (hc' : c'.problems = []) :
    bareOutcome (u.evaluate nesting source' s c') =
      bareOutcome (t.evaluate nesting source s c) := by
  rw [bareOutcome_evaluate u nesting source' s hc',bareOutcome_evaluate t nesting source s hc,h,
    nesting.walkingRoom_of_bare h]

end Tree

namespace Spacing

/-- The program with this spacing. -/
def source (a : Spacing) (copy : Nat) : Source := ⟨a.text,copy⟩

theorem tokens_source (a : Spacing) (copy : Nat) {c : Console} (hc : c.Idle) :
    (a.source copy).tokens .standard c = (.ok a.tokens,c) := by
  have htokens : (Stream.ofText .standard a.text).tokens = a.tokens := a.ofText_text.1
  have hillegals : (Stream.ofText .standard a.text).illegals = [] :=
    Piece.illegals_eq_nil a.ofText_text.2
  simp only [Source.tokens,source,htokens,hillegals,Console.warnIllegal_nil]
  rw [Console.report_of_problems hc.problems,hc.flush]
  rfl

/-- Layout is not seen: the tokens are found at their places, without a warning, and with other
layout around them a program is read as the same tree, of the same code and value, or fails for the
same reason. -/
theorem layout_is_not_seen (a b : Spacing) (h : b.lexemes = a.lexemes) (copy copy' : Nat)
    (nesting : Nesting) (c c' : Console) (hc : c.Idle) (hc' : c'.Idle) :
    (a.source copy).tokens .standard c = (.ok a.tokens,c) ∧
    (b.source copy').tokens .standard c' = (.ok b.tokens,c') ∧
    ((∃ t u, (a.source copy).block .standard nesting c = (.ok t,c) ∧
      (b.source copy').block .standard nesting c' = (.ok u,c') ∧ u.same t ∧ u.code = t.code ∧
      ∀ (walking : Nesting) (s : Store) (o o' : Console), o.problems = [] → o'.problems = [] →
        Tree.bareOutcome (u.evaluate walking (b.source copy') s o') =
          Tree.bareOutcome (t.evaluate walking (a.source copy) s o)) ∨
    ∃ f f' ps ps', (a.source copy).block .standard nesting c = (.error f,{c with problems := ps}) ∧
      (b.source copy').block .standard nesting c' = (.error f',{c' with problems := ps'}) ∧
      f'.bare = f.bare ∧ ps'.map Problem.bare = ps.map Problem.bare ∧
      (f ≠ .tooDeep ∨ nesting.readingNeeds.raising = 0 → ps = [])) := by
  refine ⟨a.tokens_source copy hc,b.tokens_source copy' hc',?_⟩
  have ha : Piece.content (Piece.ofText .standard (a.source copy).text) =
      a.lexemes.map Piece.ofToken := a.ofText_text.2
  have hb : Piece.content (Piece.ofText .standard (b.source copy').text) =
      a.lexemes.map Piece.ofToken := h ▸ b.ofText_text.2
  cases Source.block_cases_of_content ha nesting hb hc hc' with
  | inl hok =>
    obtain ⟨t,u,ht,hu,hsame⟩ := hok
    refine .inl ⟨t,u,ht,hu,(Tree.same_iff u t).2 hsame,Tree.code_eq_of_bare hsame,?_⟩
    intro walking s o o' ho ho'
    exact Tree.evaluate_of_bare hsame walking _ _ s ho ho'
  | inr herror => exact .inr herror

/-- Comments with a semicolon and an equals sign in them, and one that is not ended. -/
theorem layout_is_not_seen_quotient :
    ∃ a b : Spacing, a.text = "//;\nx =\t//=\n1. /\n2\r; //y".toList ∧
      b.text = "x = 1. / 2 ; ".toList ∧ b.lexemes = a.lexemes ∧ Console.Idle {} ∧
      ∃ t u, (a.source 0).block .standard .standard {} = (.ok t,{}) ∧
        (b.source 1).block .standard .standard {} = (.ok u,{}) ∧ u.same t ∧ u.code = t.code := by
  have hx : Token.IsLexeme ⟨['x'],.name,.unknown⟩ := .mk (by decide) (by simp)
  have hpoint : Text.IsNumeral (['1'] ++ ['.']) :=
    .decimal (by simp) (List.forall_mem_singleton.2 rfl) (by simp)
  have hone : Token.IsLexeme ⟨['1','.'],.number,.unknown⟩ := hpoint
  have htwo : Token.IsLexeme ⟨['2'],.number,.unknown⟩ :=
    .whole (by simp) (List.forall_mem_singleton.2 rfl)
  have hoperator : ∀ k ∈ [Kind.equals,.slash,.semicolon], (Token.ofKind k).IsLexeme := by
    simp [Token.IsLexeme,Token.ofKind,Kind.Spells,Kind.text,Vocabulary.standard]
  have hblank (c : Char) (g : Text) (hc : Piece.isBlank c) : Text.StartsBlank (c :: g) :=
    ⟨c,g,rfl,hc⟩
  have hcomment (body : Text) (hbody : '\n' ∉ body) :
      Text.IsLayout ('/' :: '/' :: (body ++ ['\n']) ++ []) := .comment hbody .nil
  have hopen : Text.IsEnding ([' '] ++ '/' :: '/' :: ['y']) :=
    .comment (.blank rfl .nil) (by simp)
  have hspaced : Spaced [(⟨['x'],.name,.unknown⟩,[' ']),(.ofKind .equals,"\t//=\n".toList),
      (⟨['1','.'],.number,.unknown⟩,[' ']),(.ofKind .slash,['\n']),
      (⟨['2'],.number,.unknown⟩,['\r']),(.ofKind .semicolon," //y".toList)] :=
    .cons hx (hblank _ _ rfl) (.blank rfl .nil) <|
    .cons (hoperator _ (by simp)) (hblank _ _ rfl) (.blank rfl (hcomment ['='] (by simp))) <|
    .cons hone (hblank _ _ rfl) (.blank rfl .nil) <|
    .cons (hoperator _ (by simp)) (hblank _ _ rfl) (.blank rfl .nil) <|
    .cons htwo (hblank _ _ rfl) (.blank rfl .nil) <|
    .last (hoperator _ (by simp)) (.inr (hblank _ _ rfl)) hopen
  have hread : (Source.block .standard .standard
      ⟨"//;\nx =\t//=\n1. /\n2\r; //y".toList,0⟩ {}).1.toOption.isSome := by decide +kernel
  let a : Spacing :=
    ⟨"//;\n".toList,_,hspaced,fun _ => hcomment [';'] (by simp),by simp⟩
  let b : Spacing := plain a.lexemes a.isLexeme_of_mem_lexemes
  have htext : a.text = "//;\nx =\t//=\n1. /\n2\r; //y".toList := rfl
  refine ⟨a,b,htext,rfl,rfl,⟨rfl,rfl⟩,?_⟩
  obtain ⟨-,-,hcases⟩ := layout_is_not_seen a b rfl 0 1 .standard {} {} ⟨rfl,rfl⟩ ⟨rfl,rfl⟩
  cases hcases with
  | inl hok =>
    obtain ⟨t,u,ht,hu,hsame,hcode,-⟩ := hok
    exact ⟨t,u,ht,hu,hsame,hcode⟩
  | inr herror =>
    obtain ⟨f,f',ps,ps',hf,-⟩ := herror
    rw [source,htext] at hf
    rw [hf] at hread
    cases hread

end Spacing
end AssignLang
