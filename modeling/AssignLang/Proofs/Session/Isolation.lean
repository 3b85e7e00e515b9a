import AssignLang.Proofs.Session.Batch
import AssignLang.Proofs.Session.Frame
import AssignLang.Proofs.SyntaxError

namespace AssignLang

open Grammar

namespace Warning

theorem combineFrom_ne_nil (a : Warning) (ws : List Warning) : combineFrom a ws ≠ [] := by
  induction ws generalizing a with
  | nil => simp [combineFrom]
  | cons b ws ih =>
    rw [combineFrom]
    split
    · exact ih (a.widen b)
    · simp

theorem combine_eq_nil {ws : List Warning} (h : combine ws = []) : ws = [] := by
  cases ws with
  | nil => rfl
  | cons a ws => exact absurd h (combineFrom_ne_nil a ws)

/-- Whatever is printed, lines are ended. -/
theorem feed_mem_renderAll {ws : List Warning} (h : ws ≠ []) : '\n' ∈ renderAll ws := by
  cases ws with
  | nil => exact absurd rfl h
  | cons w ws => simp [renderAll,limit]

/-- Only where nothing waits nothing is printed. -/
theorem renderAll_combine_eq_nil {ws : List Warning} (h : renderAll (combine ws) = []) :
    ws = [] := by
  apply Decidable.byContradiction
  intro hws
  have hfeed := feed_mem_renderAll (mt combine_eq_nil hws)
  rw [h] at hfeed
  cases hfeed

end Warning

/-- Two problems do not fit on one line. -/
theorem Problem.feed_mem_renderAll (p q : Problem) (ps : List Problem) :
    '\n' ∈ renderAll (p :: q :: ps) := by
  simp [renderAll,Warning.limit,Text.join,List.intercalate_cons_cons]

namespace Console

variable {c c' : Console}

theorem warnings_raise (c : Console) (stage : Stage) : (c.raise stage).2.warnings = [] := by
  rw [raise]
  split <;> rfl

theorem warnings_report (c : Console) (stage : Stage) : (c.report stage).2.warnings = [] := by
  rw [report]
  split
  · rfl
  · exact c.warnings_raise stage

theorem warnings_fail (c : Console) (s : Source) (span : Span) (fault : Fault) :
    (c.fail s span fault).2.warnings = [] := warnings_raise _ _

/-- Which warnings go on waiting does not depend on the problems. -/
theorem warnings_failWithin (h : c'.warnings = c.warnings) (need : Headroom) (room : Nat)
    (s : Source) (span : Span) (fault : Fault) :
    (c'.failWithin need room s span fault).2.warnings =
      (c.failWithin need room s span fault).2.warnings := by
  rw [failWithin,failWithin]
  split
  · rw [warnings_fail,warnings_fail]
  split
  · rfl
  split
  · exact congrArg Warning.combine h
  split
  · exact h
  · exact h

/-- A failure leaves none where none were. -/
theorem warnings_failWithin_of_nil (h : c.warnings = []) (need : Headroom) (room : Nat)
    (s : Source) (span : Span) (fault : Fault) :
    (c.failWithin need room s span fault).2.warnings = [] := by
  rcases Nat.lt_or_ge room need.raising with hlt | hle
  · obtain ⟨c',hfail,hleaves⟩ := failWithin_of_lt hlt c s span fault
    rw [hfail]
    exact (hleaves.of_warnings h).1
  · rw [failWithin_of_le hle,warnings_fail]

/-- For want of room nothing of what waits is lost, so that it differs from an empty console unless
nothing waits. -/
theorem idle_of_failWithin {need : Headroom} {room : Nat} (h : room < need.raising) {s : Source}
    {span : Span} {fault : Fault} {q q₀ : Failure × Console}
    (hq : c.failWithin need room s span fault = q)
    (hq₀ : failWithin need room {} s span fault = q₀) (hwarnings : q.2.warnings = q₀.2.warnings)
    (hproblems : q.2.problems = q₀.2.problems) (hprinted : q.2.printed = c.printed ++ q₀.2.printed) :
    c.Idle := by
  rw [failWithin,if_neg (Nat.not_le.2 h)] at hq hq₀
  split at hq
  · rename_i hwarning
    rw [if_pos hwarning] at hq₀
    subst hq hq₀
    have hnone : Warning.renderAll (Warning.combine c.warnings) = [] :=
      List.append_cancel_left (hprinted.trans (congrArg (c.printed ++ ·) rfl))
    exact ⟨Warning.renderAll_combine_eq_nil hnone,List.append_cancel_right hproblems⟩
  rename_i hwarning
  rw [if_neg hwarning] at hq₀
  split at hq
  · rename_i hcombining
    rw [if_pos hcombining] at hq₀
    subst hq hq₀
    exact ⟨Warning.combine_eq_nil hwarnings,List.append_cancel_right hproblems⟩
  rename_i hcombining
  rw [if_neg hcombining] at hq₀
  split at hq
  · rename_i hfiling
    rw [if_pos hfiling] at hq₀
    subst hq hq₀
    exact ⟨hwarnings,List.append_cancel_right hproblems⟩
  · rename_i hfiling
    rw [if_neg hfiling] at hq₀
    subst hq hq₀
    exact ⟨hwarnings,hproblems⟩

end Console

theorem Tree.warnings_evaluate (nesting : Nesting) (source : Source) (t : Tree) (s : Store)
    {c : Console} (h : c.warnings = []) :
    (t.evaluate nesting source s c).2.2.warnings = [] := by
  rw [evaluate]
  split
  · exact h
  · exact Console.warnings_failWithin_of_nil h _ _ source _ _
  · exact Console.warnings_failWithin_of_nil h _ _ source _ _
  · exact h
  · exact h

namespace Source

variable {full : Bool} {nesting : Nesting} {s : Source} {c : Console}

/-- What waits behind a program in front of which `ws` waited. -/
def waiting (full : Bool) (nesting : Nesting) (s : Source) (ws : List Warning) : List Warning :=
  (s.reading full nesting {warnings := ws}).2.warnings

/-- Only if the program is too deep to be read, what waited and what was found on the way waits. -/
theorem waiting_of_reading {ws : List Warning}
    (h : (s.reading full nesting {}).1 ≠ .error .tooDeep) : s.waiting full nesting ws = [] := by
  have hsame : (s.reading full nesting {warnings := ws}).1 = (s.reading full nesting {}).1 :=
    reading_congr full nesting s rfl
  have hworded : Console.Worded {warnings := ws} := Console.worded_of_problems rfl
  rw [waiting]
  rcases reading_cases full nesting s hworded with ⟨t,c,hread,hidle⟩ | ⟨f,c,hread,hfails⟩
  · rw [hread]
    exact hidle.warnings
  · rw [hread] at hsame ⊢
    refine (hfails.idle ?_).warnings
    rintro rfl
    exact h hsame.symm

theorem warnings_reading (full : Bool) (nesting : Nesting) (s : Source) (c : Console) :
    (s.reading full nesting c).2.warnings = s.waiting full nesting c.warnings := by
  rw [waiting]
  cases ht : s.treeOf full nesting with
  | ok p =>
    obtain ⟨t,rest⟩ := p
    rw [reading_of_ok ht,reading_of_ok ht,Console.warnings_report,Console.warnings_report]
  | error e =>
    rw [reading_of_error ht,reading_of_error ht]
    cases e with
    | tooDeep rest => rfl
    | unexpected wanted rest room =>
      have hwarned : (s.warned rest c).warnings =
        (s.warned rest {warnings := c.warnings}).warnings := rfl
      exact Console.warnings_failWithin hwarned nesting.readingNeeds room s _ _

end Source

namespace Session

section
variable (s : Session)

theorem giveUp_warnings (phase : Phase) (f : Failure) :
    (s.giveUp phase f).2.console.warnings = s.console.warnings := by
  cases f <;> rfl

end

section
variable {s : Session}

theorem execute_warnings (source : Source) (t : Tree) (h : s.console.warnings = []) :
    (s.execute source t).2.console.warnings = [] := by
  have hevaluate := t.warnings_evaluate s.nesting source s.store h
  rw [execute]
  split
  · rename_i he
    rw [he] at hevaluate
    exact hevaluate
  · rename_i he
    rw [he] at hevaluate
    rw [append_console,trace_console]
    exact hevaluate

theorem executeAll_warnings (source : Source) (ts : List Tree) (h : s.console.warnings = []) :
    (s.executeAll source ts).2.console.warnings = [] := by
  induction ts generalizing s with
  | nil => exact h
  | cons t ts ih =>
    have hfirst := execute_warnings source t h
    rw [executeAll]
    split
    · rename_i he
      rw [he] at hfirst
      exact hfirst
    · rename_i he
      rw [he] at hfirst
      exact ih hfirst

/-- Statements are executed with no warnings waiting, and leave none waiting. -/
theorem translate_warnings (full : Bool) (source : Source) :
    (s.translate full source).2.console.warnings =
      source.waiting full s.nesting s.console.warnings := by
  have hread := read_console (s.trace (.text source.text)) full source
  rw [trace_console,trace_nesting] at hread
  have hwarnings := Source.warnings_reading full s.nesting source s.console
  rw [← hread] at hwarnings
  rw [translate]
  cases hr : (s.trace (.text source.text)).read full source with
  | mk r s₁ =>
    rw [hr] at hwarnings hread
    cases r with
    | error f => exact (giveUp_warnings s₁ .reading f).trans hwarnings
    | ok t =>
      have hreading := (reading_of_read_fst (congrArg Prod.fst hr)).1
      rw [trace_console,trace_nesting] at hreading
      have hidle := Source.idle_of_reading hreading
      rw [← hread] at hidle
      have hexecute := executeAll_warnings source t.statements hidle.warnings
      rw [← hwarnings,hidle.warnings]
      simp only
      cases he : s₁.executeAll source t.statements with
      | mk r s₂ =>
        rw [he] at hexecute
        cases r with
        | error f => exact (giveUp_warnings s₂ .evaluating f).trans hexecute
        | ok u => exact hexecute

/-- Statements leave nothing waiting unless one of them is too deep. -/
theorem executeAll_idle (source : Source) {ts : List Tree} (hts : ∀ t ∈ ts, t.Canonical .statement)
    (h : s.console.Idle) (hr : (s.executeAll source ts).1 ≠ .error .tooDeep) :
    (s.executeAll source ts).2.console.Idle := by
  induction ts generalizing s with
  | nil => exact h
  | cons t ts ih =>
    obtain ⟨ht,hts⟩ := List.forall_mem_cons.1 hts
    rw [executeAll] at hr ⊢
    rcases execute_cases h.worded source ht with
      ⟨x,store,r,s₁,-,he,-,hsame,-,-⟩ | ⟨o,f,s₁,-,he,-,-,hidle⟩
    · rw [← hsame] at h
      rw [he] at hr ⊢
      cases r with
      | ok u => exact ih hts h hr
      | error f => exact h
    · rw [he] at hr ⊢
      apply hidle
      rintro rfl
      exact hr rfl

end

/-- Why a program is given up, if it is. -/
def cause? (full : Bool) (source : Source) (s : Session) : Option Failure :=
  match (s.trace (.text source.text)).read full source with
  | (.error f,_) => some f
  | (.ok t,s) =>
    match (s.executeAll source t.statements).1 with
    | .error f => some f
    | .ok () => none

section
variable {s : Session}

theorem giveUp_idle (h : s.console.Idle) (phase : Phase) (f : Failure) :
    (s.giveUp phase f).2.console.Idle := by
  cases f <;> exact ⟨h.warnings,h.problems⟩

/-- Nothing is left waiting by a program that is not given up as too deep. -/
theorem translate_idle (hp : s.console.Worded) (full : Bool) (source : Source) :
    (s.translate full source).1 = .ok (s.cause? full source).isNone ∧
      (s.cause? full source ≠ some .tooDeep → (s.translate full source).2.console.Idle) := by
  have htrace := adds_trace hp (.text source.text)
  obtain ⟨b,s',htranslate,-⟩ := translate_adds full source hp
  rw [translate] at htranslate
  rw [translate,cause?]
  rcases read_cases htrace.worded full source with
    ⟨t,s₁,hr,ht,-,hidle⟩ | ⟨f,s₁,hr,hf,-,hidle⟩
  · rw [hr] at htranslate ⊢
    have hcanonical := Source.canonical_of_reading ht
    have hexecute := executeAll_idle source (fun u hu => hcanonical.of_mem_statements hu) hidle
    simp only at htranslate ⊢
    cases he : s₁.executeAll source t.statements with
    | mk r s₂ =>
      rw [he] at htranslate hexecute
      cases r with
      | ok u => exact ⟨rfl,fun _ => hexecute (by simp)⟩
      | error f =>
        refine ⟨?_,?_⟩
        · obtain rfl := giveUp_ok htranslate
          exact congrArg Prod.fst htranslate
        · intro hne
          refine giveUp_idle (hexecute ?_) .evaluating f
          intro heq
          exact hne (congrArg some (Except.error.inj heq))
  · rw [hr] at htranslate ⊢
    refine ⟨?_,?_⟩
    · obtain rfl := giveUp_ok htranslate
      exact congrArg Prod.fst htranslate
    · intro hne
      refine giveUp_idle (hidle ?_) .reading f
      rintro rfl
      exact hne rfl

end

/-- A session in which nothing has happened but that its variables have their values. -/
def renewed (s : Session) : Session := {nesting := s.nesting,debug := s.debug,store := s.store}

/-- The programs that a request has read, each with whether it is read as a whole. -/
def programs (s : Session) : Request → List (Bool × Source)
  | .translate full p => [(full,{text := p})]
  | .translateAll ps => ps.map fun p => (false,{text := p})
  | .translateFile bytes =>
    match Text.ofBytes bytes with
    | .ok text => [(true,⟨text,s.copies+1⟩)]
    | .error _ => []

def programsAll : Session → List Request → List (Bool × Source)
  | _, [] => []
  | s, r :: rs => s.programs r ++ programsAll (s.perform r) rs

/-- What waits behind programs that are read one after the other. -/
def waitingAll (nesting : Nesting) (ps : List (Bool × Source)) (ws : List Warning) :
    List Warning :=
  ps.foldl (fun ws p => p.2.waiting p.1 nesting ws) ws

theorem waitingAll_append (nesting : Nesting) (ps qs : List (Bool × Source)) (ws : List Warning) :
    waitingAll nesting (ps ++ qs) ws = waitingAll nesting qs (waitingAll nesting ps ws) :=
  List.foldl_append

theorem waitingAll_eq_nil {nesting : Nesting} {ps : List (Bool × Source)}
    (h : ∀ p ∈ ps, (p.2.reading p.1 nesting {}).1 ≠ .error .tooDeep) :
    waitingAll nesting ps [] = [] := by
  induction ps with
  | nil => rfl
  | cons p ps ih =>
    obtain ⟨hp,hps⟩ := List.forall_mem_cons.1 h
    rw [waitingAll,List.foldl_cons,Source.waiting_of_reading hp]
    exact ih hps

section
variable {s : Session}

theorem translateAll_warnings (ps : List Text) (hp : s.console.Worded) :
    (s.translateAll ps).2.console.warnings =
      waitingAll s.nesting (s.programs (.translateAll ps)) s.console.warnings := by
  induction ps generalizing s with
  | nil => rfl
  | cons p ps ih =>
    have hfirst := translate_warnings (s := s) false {text := p}
    obtain ⟨b,s₁,ht,hadds⟩ := translate_adds false {text := p} hp
    have hrest := ih hadds.worded
    rw [ht] at hfirst
    rw [hfirst,hadds.nesting] at hrest
    rw [translateAll,ht]
    exact hrest

theorem perform_warnings (r : Request) (hp : s.console.Worded) :
    (s.perform r).console.warnings = waitingAll s.nesting (s.programs r) s.console.warnings := by
  cases r with
  | translate full p => exact translate_warnings full {text := p}
  | translateAll ps => exact translateAll_warnings ps hp
  | translateFile bytes =>
    rw [perform,translateBytes,programs]
    cases Text.ofBytes bytes with
    | error e => rfl
    | ok text =>
      exact translate_warnings (s := {s with copies := s.copies+1}) true ⟨text,s.copies+1⟩

theorem performAll_warnings (rs : List Request) (hp : s.console.Worded) :
    (s.performAll rs).console.warnings =
      waitingAll s.nesting (s.programsAll rs) s.console.warnings := by
  induction rs generalizing s with
  | nil => rfl
  | cons r rs ih =>
    have hr := perform_adds r hp
    have hrest := ih hr.worded
    rw [perform_warnings r hp,hr.nesting,← waitingAll_append] at hrest
    exact hrest

/-- The same with nothing printed. -/
def quiet (s : Session) : Session := {s.renewed with console := {s.console with printed := []}}

/-- Whatever came before, only the store and what waits make a difference. -/
theorem translate_after (s : Session) (full : Bool) (source : Source) :
    s.translate full source = (s.quiet.translate full source).map id (·.behind s) := by
  have hbehind : s.quiet.behind s = s := by simp [quiet,behind,Console.behind,renewed]
  have hframe := translate_behind s s.quiet full source
  rwa [hbehind] at hframe

theorem quiet_of_idle (h : s.console.Idle) : s.quiet = s.renewed := by
  obtain ⟨nesting,debug,store,code,traces,⟨warnings,problems,printed⟩,copies⟩ := s
  obtain ⟨rfl,rfl⟩ : warnings = [] ∧ problems = [] := ⟨h.warnings,h.problems⟩
  rfl

/-- Where no problem waits, nothing else than what is printed and traced tells sessions with the same
store apart. -/
theorem translate_renewed (hp : s.console.problems = []) (full : Bool) (source : Source) :
    ∃ b s' r', s.translate full source = (.ok b,s') ∧
      s.renewed.translate full source = (.ok b,r') ∧
      s'.store = r'.store ∧ s'.code = s.code ++ r'.code := by
  have halike : s.renewed.Alike s.quiet := ⟨⟨rfl,rfl,rfl⟩,hp⟩
  obtain ⟨b,r',hr,-⟩ := translate_adds full source (s := s.renewed) (Console.worded_of_problems rfl)
  obtain ⟨hresult,hsame⟩ := halike.translate full source
  rw [hr] at hresult hsame
  refine ⟨b,(s.quiet.translate full source).2.behind s,r',?_,hr,hsame.store,?_⟩
  · rw [translate_after]
    exact Prod.ext hresult rfl
  · exact congrArg (s.code ++ ·) hsame.code

theorem read_of_error {full : Bool} {source : Source} {f : Failure} {c : Console}
    (h : source.reading full s.nesting s.console = (.error f,c)) :
    s.read full source = (.error f,{s with console := c}) := by
  rw [Source.reading] at h
  rw [read,h]

/-- Problems that wait are blamed on the next program that can be read. -/
theorem translate_of_waiting (hp : s.console.Worded) (hwaiting : s.console.problems ≠ [])
    {full : Bool} {source : Source} {t : Tree}
    (h : (source.reading full s.nesting {}).1 = .ok t) :
    ∃ s' shown, s.translate full source = (.ok false,s') ∧ s'.store = s.store ∧
      s'.code = s.code ∧ s'.console.Idle ∧ s'.console.printed =
        s.console.printed ++ shown ++ Problem.renderAll s.console.problems ++ ['\n'] := by
  obtain ⟨-,rest,htree⟩ := Source.treeOf_of_reading h
  have hread : source.reading full (s.trace (.text source.text)).nesting
      (s.trace (.text source.text)).console =
        (.error (.stopped .parser s.console.problems),(source.kept full t rest s.console).flush) := by
    rw [trace_nesting,trace_console]
    exact Source.reading_of_waiting hp hwaiting htree
  have hprinted : (source.kept full t rest s.console).printed = s.console.printed := by
    cases full <;> rfl
  have htranslate : s.translate full source = (.ok false,({s.trace (.text source.text) with
      console := (source.kept full t rest s.console).flush} : Session).print
        (Problem.renderAll s.console.problems ++ ['\n'])) := by
    rw [translate,read_of_error hread]
    rfl
  refine ⟨_,Warning.renderAll (Warning.combine (source.kept full t rest s.console).warnings),
    htranslate,?_,?_,?_,?_⟩
  · exact trace_store s (.text source.text)
  · exact trace_code s (.text source.text)
  · exact ⟨rfl,rfl⟩
  · simp only [print,Console.print,Console.flush,hprinted,List.append_assoc]

/-- How the empty program is reported with what room there is. -/
def emptyReport (s : Session) : Failure × Console :=
  s.console.failWithin s.nesting.readingNeeds (s.nesting.readingRoom 0) {text := []} ⟨0,0⟩
    (.unexpected 0 [.ofKind .name] (.ofKind .eof ⟨0,0⟩))

theorem translate_empty (s : Session) : s.translate false {text := []} =
    ({s.trace (.text []) with console := s.emptyReport.2} : Session).giveUp .reading
      s.emptyReport.1 := by
  have htree : Source.treeOf false s.nesting {text := []} =
    .error (.unexpected [.name] [] (s.nesting.readingRoom 0)) := rfl
  have hstop : Source.stop {text := []} s.nesting.readingNeeds (.ofText .standard []) s.console
      (.unexpected [.name] [] (s.nesting.readingRoom 0)) = s.emptyReport :=
    congrArg (fun c => Console.failWithin s.nesting.readingNeeds (s.nesting.readingRoom 0) c
        {text := []} ⟨0,0⟩ (.unexpected 0 [.ofKind .name] (.ofKind .eof ⟨0,0⟩)))
      (Console.warnIllegal_nil s.console {text := []})
  have hread : Source.reading false (s.trace (.text [])).nesting {text := []}
      (s.trace (.text [])).console = (.error s.emptyReport.1,s.emptyReport.2) := by
    rw [trace_nesting,trace_console,Source.reading_of_error htree,hstop]
  rw [translate,read_of_error hread]

/-- Whatever waits shows in how the empty program is given up. -/
theorem idle_of_translate_empty (hp : s.console.Worded) (h : s.translate false {text := []} =
    (s.renewed.translate false {text := []}).map id (·.behind s)) : s.console.Idle := by
  rw [translate_empty,translate_empty] at h
  rcases Nat.lt_or_ge (s.nesting.readingRoom 0) s.nesting.readingNeeds.raising with hlt | hle
  · obtain ⟨c,hc,-⟩ := Console.failWithin_of_lt hlt s.console {text := []} ⟨0,0⟩
      (.unexpected 0 [.ofKind .name] (.ofKind .eof ⟨0,0⟩))
    obtain ⟨c₀,hc₀,-⟩ := Console.failWithin_of_lt hlt {} {text := []} ⟨0,0⟩
      (.unexpected 0 [.ofKind .name] (.ofKind .eof ⟨0,0⟩))
    have hreport : s.emptyReport = (.tooDeep,c) := hc
    have hreport₀ : s.renewed.emptyReport = (.tooDeep,c₀) := hc₀
    rw [hreport,hreport₀] at h
    refine Console.idle_of_failWithin hlt hc hc₀ ?_ ?_ ?_
    · exact congrArg (fun q => q.2.console.warnings) h
    · exact congrArg (fun q => q.2.console.problems) h
    · let note := Phase.reading.label ++ ": ".toList ++ Failure.tooDeep.message ++ ['\n']
      have hprinted : c.printed ++ note = s.console.printed ++ (c₀.printed ++ note) :=
        congrArg (fun q => q.2.console.printed) h
      rw [← List.append_assoc s.console.printed] at hprinted
      exact List.append_cancel_right hprinted
  · let p : Problem := Source.offence {text := []} [.name] (.ofKind .eof ⟨0,0⟩)
    have hreport : s.emptyReport =
        (.stopped .parser (s.console.problems ++ [p]),s.console.flush) :=
      (Console.failWithin_of_le hle _ _ _ _).trans (hp.fail rfl)
    have hreport₀ : s.renewed.emptyReport = (.stopped .parser [p],{}) :=
      (Console.failWithin_of_le hle _ _ _ _).trans (Console.fail_eq rfl rfl)
    rw [hreport,hreport₀] at h
    have hprinted : s.console.printed ++ Warning.renderAll (Warning.combine s.console.warnings) ++
        (Problem.renderAll (s.console.problems ++ [p]) ++ ['\n']) =
          s.console.printed ++ (Problem.renderAll [p] ++ ['\n']) :=
      congrArg (fun q => q.2.console.printed) h
    rw [List.append_assoc,← List.append_assoc _ _ ['\n']] at hprinted
    have hshown := List.append_cancel_right (List.append_cancel_left hprinted)
    have hplain : '\n' ∉ Problem.renderAll [p] := by decide +kernel
    rw [← hshown,List.mem_append,not_or] at hplain
    obtain ⟨hwarnings,hproblems⟩ := hplain
    constructor
    · apply Decidable.byContradiction
      intro hws
      exact hwarnings (Warning.feed_mem_renderAll (mt Warning.combine_eq_nil hws))
    · cases hps : s.console.problems with
      | nil => rfl
      | cons q qs =>
        obtain ⟨r,rs,hrs⟩ := List.exists_cons_of_ne_nil (List.append_ne_nil_of_right_ne_nil qs
          (List.cons_ne_nil p []))
        rw [hps,List.cons_append,hrs] at hproblems
        exact absurd (Problem.feed_mem_renderAll q r rs) hproblems

/-- Just where nothing waits a session is as good as renewed. -/
theorem idle_iff (hp : s.console.Worded) : s.console.Idle ↔ ∀ full p,
    s.translate full {text := p} =
      (s.renewed.translate full {text := p}).map id (·.behind s) := by
  constructor
  · intro hidle full p
    rw [translate_after,quiet_of_idle hidle]
  · intro h
    exact idle_of_translate_empty hp (h false [])

end

/-- Programs notice each other by the values of variables alone, unless one was given up as too deep.
What that one leaves waiting is reported along with a later program. Warnings are no more than
printed, but problems are blamed on the first program behind that can be read. -/
theorem apart_but_for_what_waits (nesting : Nesting) (debug : Bool) (rs : List Request) :
    ∃ s, (fresh nesting debug).performAll rs = s ∧
      s.console.warnings = waitingAll nesting ((fresh nesting debug).programsAll rs) [] ∧
      ((∀ p ∈ (fresh nesting debug).programsAll rs,
        (p.2.reading p.1 nesting {}).1 ≠ .error .tooDeep) → s.console.warnings = []) ∧
      (nesting = .unlimited → s.console.Idle) ∧
      (∀ full p, (s.translate full {text := p}).1 = .ok (s.cause? full {text := p}).isNone ∧
        (s.cause? full {text := p} ≠ some .tooDeep →
          (s.translate full {text := p}).2.console.Idle)) ∧
      (s.console.problems = [] → ∀ full p, ∃ b s' r', s.translate full {text := p} = (.ok b,s') ∧
        s.renewed.translate full {text := p} = (.ok b,r') ∧
        s'.store = r'.store ∧ s'.code = s.code ++ r'.code) ∧
      (s.console.problems ≠ [] → ∀ full p t,
        (Source.reading full nesting {text := p} {}).1 = .ok t →
          ∃ s' shown, s.translate full {text := p} = (.ok false,s') ∧ s'.store = s.store ∧
            s'.code = s.code ∧ s'.console.Idle ∧ s'.console.printed = s.console.printed ++ shown ++
              Problem.renderAll s.console.problems ++ ['\n']) ∧
      (s.console.Idle ↔ ∀ full p, s.translate full {text := p} =
        (s.renewed.translate full {text := p}).map id (·.behind s)) := by
  have hadds := adds_history nesting debug rs
  have hfresh : (fresh nesting debug).console.Worded := Console.worded_of_problems rfl
  have hwarnings := performAll_warnings rs hfresh
  have hread (h : ∀ p ∈ (fresh nesting debug).programsAll rs,
      (p.2.reading p.1 nesting {}).1 ≠ .error .tooDeep) :
      ((fresh nesting debug).performAll rs).console.warnings = [] :=
    hwarnings.trans (waitingAll_eq_nil h)
  refine ⟨_,rfl,hwarnings,hread,?_,?_,?_,?_,idle_iff hadds.worded⟩
  · intro hn
    refine ⟨hread ?_,hadds.problems hn rfl⟩
    intro p _ htooDeep
    rw [hn] at htooDeep
    obtain ⟨ps,hstopped⟩ := Source.reading_stopped rfl htooDeep
    cases hstopped
  · intro full p
    exact translate_idle hadds.worded full {text := p}
  · intro hp full p
    exact translate_renewed hp full {text := p}
  · intro hwaiting full p t ht
    have hnesting : ((fresh nesting debug).performAll rs).nesting = nesting := hadds.nesting
    rw [← hnesting] at ht
    exact translate_of_waiting hadds.worded hwaiting ht

/-- With so little room a group within another is too deep, and `$` is still unreported. -/
example : ((fresh {reading := some 6} false).performAll
    [.translate false "$x=((1));".toList]).console.warnings =
      [⟨⟨"$x=((1));".toList,0⟩,⟨0,1⟩,true,none⟩] := by decide +kernel

/-- If it takes more room to report a problem than is left there, the next program is to blame. -/
example : ((fresh {reading := some 5,readingNeeds := {raising := 3}} false).translateAll
    ["x=;".toList,"z=1;".toList,"z=1;".toList]).1.toOption = some 2 := by decide +kernel

end Session
end AssignLang
