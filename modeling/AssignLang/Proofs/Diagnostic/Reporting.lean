import AssignLang.Proofs.Session.Isolation
import AssignLang.Proofs.Token.Progress

namespace AssignLang

open Grammar

namespace Console

/-- How the report of a stage ends with `r` and leaves `c'` behind: nothing waits any more, what is
shown of the combined warnings are the first ten, and what is shown of the problems are the first
ten too, but all of them are handed on. -/
structure Reports (c : Console) (stage : Stage) (r : Except Failure Unit) (c' : Console) :
    Prop where
  warnings : c'.warnings = []
  problems : c'.problems = []
  silent : c'.printed = c.printed ↔ c.warnings = []
  few : (Warning.combine c.warnings).length ≤ 10 → c'.printed = c.printed ++
    (Warning.combine c.warnings).flatMap fun w => w.message ++ ['\n','\n']
  many : 10 < (Warning.combine c.warnings).length → c'.printed = c.printed ++
    (((Warning.combine c.warnings).take 10).flatMap fun w => w.message ++ ['\n','\n']) ++
      "Showing ".toList ++ Text.counted 10 "warning".toList ++ ", omitting ".toList ++
      Text.counted ((Warning.combine c.warnings).length-10) "warning".toList ++ "...\n".toList
  done : r = .ok () ↔ c.problems = []
  stopped : ∀ f, r = .error f → f = .stopped stage c.problems ∧
    (c.problems.length ≤ 10 → f.message = Text.join ['\n','\n'] (c.problems.map Problem.message)) ∧
    (10 < c.problems.length → f.message =
      Text.join ['\n','\n'] ((c.problems.take 10).map Problem.message) ++ ['\n','\n'] ++
        "Showing ".toList ++ Text.counted 10 "error".toList ++ ", omitting ".toList ++
        Text.counted (c.problems.length-10) "error".toList ++ "...".toList)

theorem printed_flush (c : Console) :
    c.flush.printed = c.printed ++ Warning.renderAll (Warning.combine c.warnings) := rfl

theorem printed_flush_eq_iff (c : Console) : c.flush.printed = c.printed ↔ c.warnings = [] := by
  rw [printed_flush,List.append_right_eq_self]
  constructor
  · exact Warning.renderAll_combine_eq_nil
  · intro h
    rw [h]
    rfl

/-- The queues are emptied in the same way whether or not a problem was waiting. -/
theorem Worded.report_eq {c : Console} (hc : c.Worded) (stage : Stage) : c.report stage =
    (if c.problems = [] then .ok () else .error (.stopped stage c.problems),c.flush) := by
  by_cases h : c.problems = []
  · rw [report_of_problems h,if_pos h]
  · rw [hc.report h,if_neg h]

theorem reports_report {c : Console} (hc : c.Worded) (stage : Stage) :
    c.Reports stage (c.report stage).1 (c.report stage).2 := by
  rw [hc.report_eq]
  constructor
  · rfl
  · rfl
  · exact c.printed_flush_eq_iff
  · intro h
    rw [printed_flush,Warning.renderAll_of_le h]
  · intro h
    rw [printed_flush,Warning.renderAll_of_gt h]
    simp only [List.append_assoc]
  · by_cases h : c.problems = [] <;> simp [h]
  · intro f hf
    by_cases h : c.problems = []
    · simp [h] at hf
    · rw [if_neg h] at hf
      have hstopped := (Except.error.inj hf).symm
      rw [hstopped]
      exact ⟨rfl,Problem.renderAll_of_le,Problem.renderAll_of_gt⟩

variable {β : Type} {c : Console} {source : Source} {span : Span} {fault : Fault}
  {ended : Failure → Console → β}

/-- Files a problem and has its stage report at once. `next` is what would be done behind that. -/
def fileThen (c : Console) (source : Source) (span : Span) (fault : Fault)
    (ended : Failure → Console → β) (next : Console → β) : β :=
  match (c.file {source,span,fault := some fault}).report fault.stage with
  | (.error f,c) => ended f c
  | (.ok (),c) => next c

/-- There is always the new problem to report, so nothing is done behind. -/
theorem fileThen_eq (next : Console → β) :
    c.fileThen source span fault ended next =
      ended (c.fail source span fault).1 (c.fail source span fault).2 := by
  have hwaiting : ¬ (c.file {source,span,fault := some fault}).problems.isEmpty := by simp [file]
  rw [fileThen,report,if_neg hwaiting]
  rfl

/-- `r` is what comes of filing a problem, whatever stands behind that: the stage of the problem
stops with all that were waiting and the new one as the last, and nothing is left waiting. -/
structure Ends (c : Console) (source : Source) (span : Span) (fault : Fault)
    (ended : Failure → Console → β) (r : β) : Prop where
  whatever : ∀ next, c.fileThen source span fault ended next = r
  stopped :
    r = ended (.stopped fault.stage (c.problems ++ [{source,span,fault := some fault}])) c.flush

theorem ends_fail (hc : c.Worded)
    (hw : Problem.hasWording {source,span,fault := some fault}) (ended : Failure → Console → β) :
    c.Ends source span fault ended
      (ended (c.fail source span fault).1 (c.fail source span fault).2) where
  whatever := fileThen_eq
  stopped := by rw [hc.fail hw]

end Console

theorem Grammar.outcome_eq_stuck {α : Type} {r : Except Stop (α × List Token)} {wanted : List Kind}
    {rest : List Token} (h : outcome r = some (some wanted,rest)) :
    ∃ room, r = .error (.unexpected wanted rest room) := by
  cases r with
  | ok p => simp [outcome] at h
  | error e =>
    cases e with
    | tooDeep rest => simp [outcome] at h
    | unexpected wanted' rest' room =>
      simp only [outcome,Option.some.injEq,Prod.mk.injEq] at h
      exact ⟨room,by rw [h.1,h.2]⟩

section
variable {c : Console}

theorem Cursor.ends_current (hc : c.Worded) {u : Cursor}
    (ht : u.token = none) :
    c.Ends u.source ⟨u.position,u.position⟩
      (.unexpected u.position [.ofKind .any] (.ofKind .empty)) (fun f c => (.error f,c))
      (u.current c) := by
  rw [current,ht]
  exact Console.ends_fail hc rfl _

theorem Cursor.ends_expect (hc : c.Worded) {u : Cursor} {w t : Token}
    (ht : u.token = some t) (hw : w.kind ≠ t.kind) :
    c.Ends u.source t.span (.unexpected u.position [w] t) (fun f c => (.error f,u,c))
      (u.expect w c) := by
  rw [expect,current_of_some ht]
  simp only [if_neg hw]
  exact Console.ends_fail hc rfl _

theorem Tree.ends_lookup (hc : c.Worded) (source : Source) (span : Span)
    {x : Text} {s : Store} (hx : s.get? x = none) :
    c.Ends source span (.undefined x) (fun f c => (.error f,c)) (lookup source span x s c) := by
  rw [lookup,hx]
  exact Console.ends_fail hc rfl _

section
variable {t : Tree} {nesting : Nesting} {s s' : Store} {span : Span}

theorem Tree.ends_of_undefined (hc : c.Worded) (source : Source) {x : Text}
    (hroom : nesting.walkingNeeds.raising ≤ t.roomLeft (nesting.walkingRoom t) s)
    (ht : t.value (nesting.walkingRoom t) s = (.error (.undefined span x),s')) :
    c.Ends source span (.undefined x) (fun f c => (.error f,s',c))
      (t.evaluate nesting source s c) := by
  rw [evaluate,ht]
  simp only [report_of_le hroom]
  exact Console.ends_fail hc rfl fun f c => (Except.error f,s',c)

theorem Tree.ends_of_unevaluable (hc : c.Worded) (source : Source) {node : Text}
    (hroom : nesting.walkingNeeds.raising ≤ t.roomLeft (nesting.walkingRoom t) s)
    (ht : t.value (nesting.walkingRoom t) s = (.error (.unevaluable span node),s')) :
    c.Ends source span (.unevaluable node) (fun f c => (.error f,s',c))
      (t.evaluate nesting source s c) := by
  rw [evaluate,ht]
  simp only [report_of_le hroom]
  exact Console.ends_fail hc rfl fun f c => (Except.error f,s',c)

theorem Tree.evaluate_of_error (source : Source) {o : Obstacle}
    (ht : t.value (nesting.walkingRoom t) s = (.error o,s')) :
    ∃ f, (t.evaluate nesting source s c).1 = .error f := by
  rw [evaluate,ht]
  cases o <;> exact ⟨_,rfl⟩

end

/-- What is got instead of something wanted is reported by the parser, behind the illegal characters
in front of it. -/
theorem Source.ends_reading (hc : c.Worded) {full : Bool} {nesting : Nesting} {s : Source}
    {wanted : List Kind} {rest : List Token} {room : Nat} (hw : wanted ≠ [])
    (hroom : nesting.readingNeeds.raising ≤ room)
    (h : s.treeOf full nesting = .error (.unexpected wanted rest room)) :
    (s.warned rest c).Ends s ((Stream.ofText .standard s.text).current rest).span
      (.unexpected ((Stream.ofText .standard s.text).current rest).span.stop
        (wanted.map Token.ofKind) ((Stream.ofText .standard s.text).current rest))
      (fun f c => (.error f,c)) (s.reading full nesting c) := by
  have hwording := s.hasWording_offence ((Stream.ofText .standard s.text).current rest) hw
  have hwarned : (s.warned rest c).Worded := hc
  rw [reading_of_error h,stop,Console.failWithin_of_le hroom]
  exact Console.ends_fail hwarned hwording fun f c => (Except.error f,c)

end

namespace Console

/-- A report empties both queues and fails only with the problems that were waiting. A fault that
ends a stage is therefore never survived: what asks for a token, expects one, reads a factor, looks
a variable up or comes to a node without a value gives that failure, whatever stands behind, and any
failure at all if there is not room enough to report it. -/
theorem report_empties_and_fault_ends (c : Console) (hc : ∀ p ∈ c.problems, p.hasWording) :
    (∀ stage, c.Reports stage (c.report stage).1 (c.report stage).2) ∧
    (∀ {β : Type} source span fault (ended : Failure → Console → β),
      Problem.hasWording {source,span,fault := some fault} →
        c.Ends source span fault ended
          (ended (c.fail source span fault).1 (c.fail source span fault).2)) ∧
    (∀ u : Cursor, u.token = none →
      c.Ends u.source ⟨u.position,u.position⟩
        (.unexpected u.position [.ofKind .any] (.ofKind .empty)) (fun f c => (.error f,c))
        (u.current c)) ∧
    (∀ (u : Cursor) w t, u.token = some t → w.kind ≠ t.kind →
      c.Ends u.source t.span (.unexpected u.position [w] t) (fun f c => (.error f,u,c))
        (u.expect w c)) ∧
    (∀ room ts, (∀ t ∈ ts.head?, t.kind ∉ factorStarts) →
      factor (room+1) ts = .error (.unexpected factorStarts ts room)) ∧
    (∀ full nesting (s : Source) wanted rest,
      recognized full (nesting.readingRoom s.standardTokens.length) s.standardTokens =
        some (some wanted,rest) →
      wanted ≠ [] ∧ (∃ f, (s.reading full nesting c).1 = .error f) ∧
      ∃ room, s.treeOf full nesting = .error (.unexpected wanted rest room) ∧
        (nesting.readingNeeds.raising ≤ room →
          ∀ got, got = (Stream.ofText .standard s.text).current rest →
            (s.warned rest c).Ends s got.span
              (.unexpected got.span.stop (wanted.map Token.ofKind) got) (fun f c => (.error f,c))
              (s.reading full nesting c))) ∧
    (∀ source span x s, s.get? x = none →
      c.Ends source span (.undefined x) (fun f c => (.error f,c))
        (Tree.lookup source span x s c)) ∧
    ∀ nesting source (t : Tree) s s',
      (∀ o, t.value (nesting.walkingRoom t) s = (.error o,s') →
        ∃ f, (t.evaluate nesting source s c).1 = .error f) ∧
      (nesting.walkingNeeds.raising ≤ t.roomLeft (nesting.walkingRoom t) s →
        (∀ span x, t.value (nesting.walkingRoom t) s = (.error (.undefined span x),s') →
          c.Ends source span (.undefined x) (fun f c => (.error f,s',c))
            (t.evaluate nesting source s c)) ∧
        ∀ span node, t.value (nesting.walkingRoom t) s = (.error (.unevaluable span node),s') →
          c.Ends source span (.unevaluable node) (fun f c => (.error f,s',c))
            (t.evaluate nesting source s c)) := by
  refine ⟨reports_report hc,?_,?_,?_,?_,?_,?_,?_⟩
  · intro β source span fault ended hw
    exact ends_fail hc hw ended
  · intro u ht
    exact Cursor.ends_current hc ht
  · intro u w t ht hw
    exact Cursor.ends_expect hc ht hw
  · intro room ts hts
    cases ts with
    | nil => rfl
    | cons t ts => exact factor_of_other (hts t rfl)
  · intro full nesting s wanted rest h
    rw [← Source.outcome_treeOf] at h
    obtain ⟨room,htree⟩ := outcome_eq_stuck h
    have hw : wanted ≠ [] := Source.isDue_of_treeOf htree
    refine ⟨hw,⟨_,congrArg Prod.fst (Source.reading_of_error htree c)⟩,room,htree,?_⟩
    intro hroom got hgot
    rw [hgot]
    exact Source.ends_reading hc hw hroom htree
  · intro source span x s hx
    exact Tree.ends_lookup hc source span hx
  · intro nesting source t s s'
    refine ⟨fun o => Tree.evaluate_of_error source,?_⟩
    intro hroom
    constructor
    · intro span x ht
      exact Tree.ends_of_undefined hc source hroom ht
    · intro span node ht
      exact Tree.ends_of_unevaluable hc source hroom ht

/-- Eleven warnings that do not adjoin and a problem wait, and then a variable is not found. -/
theorem report_empties_and_fault_ends_eleven :
    ∃ (c : Console) (p : Problem), c.warnings.length = 11 ∧ c.problems = [p] ∧
      (∀ p ∈ c.problems, p.hasWording) ∧
      (∃ f c', c.report .scanner = (.error f,c') ∧ f = .stopped .scanner [p] ∧
        c'.warnings = [] ∧ c'.problems = [] ∧
        ∃ shown, c'.printed = shown ++ "Showing 10 warnings, omitting 1 warning...\n".toList) ∧
      ∀ span, ∃ q c', Tree.lookup ⟨['x'],0⟩ span ['x'] {} c =
        (.error (.stopped .evaluator [p,q]),c') ∧ q.fault = some (.undefined ['x']) ∧
          c'.warnings = [] ∧ c'.problems = [] := by
  let source : Source := ⟨"# # # # # # # # # # #".toList,0⟩
  let ws : List Warning :=
    (List.range 11).map fun (o : Nat) => ⟨source,⟨2*o,2*o+1⟩,true,none⟩
  let p : Problem := {source,span := ⟨0,1⟩}
  have hc : ∀ q ∈ [p], q.hasWording := by decide
  obtain ⟨hreport,-,-,-,-,-,hlookup,-⟩ := report_empties_and_fault_ends ⟨ws,[p],[]⟩ hc
  have hscanner := hreport .scanner
  have hmany := hscanner.many (by decide)
  refine ⟨⟨ws,[p],[]⟩,p,rfl,rfl,hc,?_,?_⟩
  · cases hr : (Console.report .scanner ⟨ws,[p],[]⟩).1 with
    | ok u =>
      have hnone := hscanner.done.1 hr
      simp at hnone
    | error f =>
      refine ⟨f,_,Prod.ext hr rfl,(hscanner.stopped f hr).1,hscanner.warnings,hscanner.problems,?_⟩
      have hnote : "Showing ".toList ++ Text.counted 10 "warning".toList ++ ", omitting ".toList ++
          Text.counted 1 "warning".toList ++ "...\n".toList =
            "Showing 10 warnings, omitting 1 warning...\n".toList := by decide +kernel
      have hlength : (Warning.combine ws).length-10 = 1 := by decide
      refine ⟨[] ++ ((Warning.combine ws).take 10).flatMap fun w => w.message ++ ['\n','\n'],?_⟩
      rw [hmany,hlength,← hnote]
      simp only [List.append_assoc]
  · intro span
    have hends := hlookup ⟨['x'],0⟩ span ['x'] {} rfl
    exact ⟨_,_,hends.stopped,rfl,rfl,rfl⟩

end Console
end AssignLang
