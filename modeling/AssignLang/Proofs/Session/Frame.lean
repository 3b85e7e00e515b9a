import AssignLang.Proofs.RoundTrip
import AssignLang.Session

namespace AssignLang

namespace Console

/-- The same console, with something printed before. -/
def behind (past : Text) (c : Console) : Console := {c with printed := past ++ c.printed}

variable (past : Text) (c : Console)

@[simp] theorem warnIllegal_behind (s : Source) (os : List Nat) :
    (c.behind past).warnIllegal s os = (c.warnIllegal s os).behind past := rfl

theorem flush_behind : (c.behind past).flush = c.flush.behind past := by
  simp only [flush,behind,List.append_assoc]

theorem raise_behind (stage : Stage) :
    (c.behind past).raise stage = (c.raise stage).map id (behind past) := by
  rw [raise,raise,flush_behind]
  change (if (c.problems.take Warning.limit).all Problem.hasWording then _ else _) = _
  split <;> rfl

@[simp] theorem report_behind (stage : Stage) :
    (c.behind past).report stage = (c.report stage).map id (behind past) := by
  rw [report,report,raise_behind,flush_behind]
  change (if c.problems.isEmpty then _ else _) = _
  split <;> rfl

@[simp] theorem fail_behind (s : Source) (span : Span) (fault : Fault) :
    (c.behind past).fail s span fault = (c.fail s span fault).map id (behind past) :=
  raise_behind past (c.file {source := s,span,fault := some fault}) fault.stage

@[simp] theorem failWithin_behind (need : Headroom) (room : Nat) (s : Source) (span : Span)
    (fault : Fault) : (c.behind past).failWithin need room s span fault =
      (c.failWithin need room s span fault).map id (behind past) := by
  rw [failWithin,failWithin,fail_behind,flush_behind]
  split
  · rfl
  split
  · rfl
  split
  · rfl
  split
  · rfl
  · rfl

end Console

namespace Source

variable (past : Text) (c : Console)

@[simp] theorem keepBefore_behind (s : Source) (offset : Int) :
    s.keepBefore offset (c.behind past) = (s.keepBefore offset c).behind past := rfl

@[simp] theorem stop_behind (s : Source) (need : Headroom) (stream : Stream) (e : Stop) :
    s.stop need stream (c.behind past) e =
      (s.stop need stream c e).map id (Console.behind past) := by
  cases e with
  | tooDeep rest => rfl
  | unexpected wanted rest room =>
    exact Console.failWithin_behind past (c.warnIllegal s (stream.skipped rest)) need room s _ _

/-- Reading goes by what waits, not by what was printed. -/
theorem reading_behind (full : Bool) (nesting : Nesting) (s : Source) :
    s.reading full nesting (c.behind past) =
      (s.reading full nesting c).map id (Console.behind past) := by
  cases full with
  | true =>
    change s.block .standard nesting (c.behind past) = (s.block .standard nesting c).map _ _
    simp only [block,stop_behind,Console.warnIllegal_behind,Console.report_behind]
    split <;> rfl
  | false =>
    change s.statement .standard nesting (c.behind past) =
      (s.statement .standard nesting c).map _ _
    simp only [statement,stop_behind,Console.warnIllegal_behind,keepBefore_behind,
      Console.report_behind]
    split <;> rfl

end Source

theorem Tree.evaluate_behind (past : Text) (nesting : Nesting) (source : Source) (t : Tree)
    (s : Store) (c : Console) :
    t.evaluate nesting source s (c.behind past) =
      (t.evaluate nesting source s c).map id (Prod.map id (Console.behind past)) := by
  rw [evaluate,evaluate]
  simp only [report,Console.failWithin_behind]
  split <;> rfl

namespace Session

/-- The same session, with another one before it that left the store to it. -/
def behind (s past : Session) : Session :=
  {s with
    code := past.code ++ s.code
    traces := past.traces ++ s.traces
    console := s.console.behind past.console.printed
    copies := past.copies+s.copies}

variable (past s : Session)

@[simp] theorem behind_nesting : (s.behind past).nesting = s.nesting := rfl

@[simp] theorem behind_debug : (s.behind past).debug = s.debug := rfl

@[simp] theorem behind_store : (s.behind past).store = s.store := rfl

@[simp] theorem behind_console :
    (s.behind past).console = s.console.behind past.console.printed := rfl

@[simp] theorem print_behind (t : Text) : (s.behind past).print t = (s.print t).behind past := by
  simp only [print,behind,Console.print,Console.behind,List.append_assoc]

@[simp] theorem trace_behind (t : Trace) :
    (s.behind past).trace t = (s.trace t).behind past := by
  by_cases hd : s.debug
  · have hbehind : (s.behind past).debug := hd
    rw [trace,trace,if_pos hd,if_pos hbehind]
    simp only [behind,List.append_assoc]
  · have hbehind : ¬ (s.behind past).debug := hd
    rw [trace,trace,if_neg hd,if_neg hbehind]

@[simp] theorem traceTree_behind (t : Tree) :
    (s.behind past).traceTree t = (s.traceTree t).map id (·.behind past) := by
  simp only [traceTree,behind_debug,behind_nesting,trace_behind]
  split
  · split <;> rfl
  · rfl

@[simp] theorem read_behind (full : Bool) (source : Source) :
    (s.behind past).read full source = (s.read full source).map id (·.behind past) := by
  have hreading := source.reading_behind past.console.printed s.console full s.nesting
  simp only [Source.reading] at hreading
  simp only [read,behind_nesting,behind_console,hreading]
  cases (if full then source.block else source.statement) .standard s.nesting s.console with
  | mk r c =>
    cases r with
    | error f => rfl
    | ok t =>
      have htrace := traceTree_behind past {s with console := c} t
      exact congrArg (fun q => (q.1.map fun _ => t,q.2)) htrace

@[simp] theorem append_behind (t : Tree) :
    (s.behind past).append t = (s.append t).map id (·.behind past) := by
  simp only [append,behind_nesting,trace_behind]
  split
  · rfl
  · split
    · rfl
    · simp only [behind,Prod.map,id,List.append_assoc]

@[simp] theorem execute_behind (source : Source) (t : Tree) :
    (s.behind past).execute source t = (s.execute source t).map id (·.behind past) := by
  simp only [execute,behind_nesting,behind_console,behind_store,Tree.evaluate_behind]
  cases t.evaluate s.nesting source s.store s.console with
  | mk r p =>
    cases r with
    | error f => rfl
    | ok x =>
      have htrace := trace_behind past {s with store := p.1,console := p.2} (.value x)
      have happend := append_behind past ({s with store := p.1,console := p.2}.trace (.value x)) t
      rw [← htrace] at happend
      exact happend

@[simp] theorem executeAll_behind (source : Source) (ts : List Tree) :
    (s.behind past).executeAll source ts = (s.executeAll source ts).map id (·.behind past) := by
  induction ts generalizing s with
  | nil => rfl
  | cons t ts ih =>
    simp only [executeAll,execute_behind]
    cases s.execute source t with
    | mk r s₁ =>
      cases r with
      | error f => rfl
      | ok u => exact ih s₁

@[simp] theorem giveUp_behind (phase : Phase) (f : Failure) :
    (s.behind past).giveUp phase f = (s.giveUp phase f).map id (·.behind past) := by
  cases f with
  | stopped | tooDeep =>
    simp only [giveUp,print_behind]
    rfl
  | wordless | notANumber | undecodable => rfl

/-- Translating goes by the store and by what waits to be reported, and adds to everything else. -/
theorem translate_behind (full : Bool) (source : Source) :
    (s.behind past).translate full source =
      (s.translate full source).map id (·.behind past) := by
  simp only [translate,trace_behind,read_behind]
  cases (s.trace (.text source.text)).read full source with
  | mk r s₁ =>
    cases r with
    | error f => exact giveUp_behind past s₁ .reading f
    | ok t =>
      have hexecute := executeAll_behind past s₁ source t.statements
      simp only [Prod.map,id,hexecute]
      cases s₁.executeAll source t.statements with
      | mk r s₂ =>
        cases r with
        | error f => exact giveUp_behind past s₂ .evaluating f
        | ok u => rfl

end Session
end AssignLang
