import AssignLang.Proofs.Session.Outcome

namespace AssignLang

open Grammar

namespace Console

/-- The results are equal, and the same problems wait. -/
def Alike {α : Type} (p q : α × Console) : Prop := q.1 = p.1 ∧ q.2.problems = p.2.problems

theorem Alike.exists_eq {α : Type} {p q : α × Console} (h : Alike p q) :
    ∃ x c c', p = (x,c) ∧ q = (x,c') ∧ c'.problems = c.problems :=
  ⟨p.1,p.2,q.2,rfl,Prod.ext h.1 rfl,h.2⟩

variable {c c' : Console}

/-- What is reported does not depend on what was printed, nor on the warnings that wait. -/
theorem alike_raise (h : c'.problems = c.problems) (stage : Stage) :
    Alike (c.raise stage) (c'.raise stage) := by
  rw [raise,raise,h]
  split <;> exact ⟨rfl,rfl⟩

theorem alike_report (h : c'.problems = c.problems) (stage : Stage) :
    Alike (c.report stage) (c'.report stage) := by
  obtain ⟨hfailure,hproblems⟩ := alike_raise h stage
  rw [report,report,h]
  split
  · exact ⟨rfl,rfl⟩
  · exact ⟨congrArg Except.error hfailure,hproblems⟩

theorem alike_fail (h : c'.problems = c.problems) (s : Source) (span : Span) (fault : Fault) :
    Alike (c.fail s span fault) (c'.fail s span fault) := by
  apply alike_raise
  rw [file,file,h]

theorem alike_failWithin (h : c'.problems = c.problems) (need : Headroom) (room : Nat) (s : Source)
    (span : Span) (fault : Fault) :
    Alike (c.failWithin need room s span fault) (c'.failWithin need room s span fault) := by
  have hfile (p : Problem) : c'.problems ++ [p] = c.problems ++ [p] := by rw [h]
  rw [failWithin,failWithin]
  split
  · exact alike_fail h s span fault
  split
  · exact ⟨rfl,hfile _⟩
  split
  · exact ⟨rfl,hfile _⟩
  split
  · exact ⟨rfl,hfile _⟩
  · exact ⟨rfl,h⟩

end Console

namespace Source

variable {c c' : Console}

theorem alike_stop (h : c'.problems = c.problems) (s : Source) (need : Headroom) (stream : Stream)
    (e : Stop) : Console.Alike (s.stop need stream c e) (s.stop need stream c' e) := by
  cases e with
  | tooDeep rest => exact ⟨rfl,h⟩
  | unexpected wanted rest room =>
    have hwarned : (c'.warnIllegal s (stream.skipped rest)).problems =
      (c.warnIllegal s (stream.skipped rest)).problems := h
    exact Console.alike_failWithin hwarned need room s _ _

/-- Neither does what is read. -/
theorem alike_reading (h : c'.problems = c.problems) (full : Bool) (nesting : Nesting)
    (s : Source) : Console.Alike (s.reading full nesting c) (s.reading full nesting c') := by
  cases ht : s.treeOf full nesting with
  | error e =>
    obtain ⟨hfailure,hproblems⟩ := s.alike_stop h nesting.readingNeeds (.ofText .standard s.text) e
    rw [reading_of_error ht,reading_of_error ht]
    exact ⟨congrArg Except.error hfailure,hproblems⟩
  | ok p =>
    obtain ⟨t,rest⟩ := p
    have hkept : (s.kept full t rest c').problems = (s.kept full t rest c).problems := by
      rw [problems_kept,problems_kept,h]
    obtain ⟨hresult,hproblems⟩ := Console.alike_report hkept .parser
    rw [reading_of_ok ht,reading_of_ok ht]
    exact ⟨congrArg (Except.map fun _ => t) hresult,hproblems⟩

theorem reading_congr (full : Bool) (nesting : Nesting) (s : Source)
    (h : c'.problems = c.problems) :
    (s.reading full nesting c').1 = (s.reading full nesting c).1 :=
  (s.alike_reading h full nesting).1

end Source

/-- Nor does what is evaluated. -/
theorem Tree.alike_evaluate {c c' : Console} (h : c'.problems = c.problems) (t : Tree)
    (nesting : Nesting) (source : Source) (s : Store) :
    ∃ r store d d', t.evaluate nesting source s c = (r,store,d) ∧
      t.evaluate nesting source s c' = (r,store,d') ∧ d'.problems = d.problems := by
  have hreport (span : Span) (fault : Fault) : Console.Alike
      (t.report nesting source s c span fault) (t.report nesting source s c' span fault) :=
    Console.alike_failWithin h nesting.walkingNeeds _ source span fault
  rw [evaluate,evaluate]
  split
  · exact ⟨_,_,_,_,rfl,rfl,h⟩
  · rename_i span x s' _
    obtain ⟨f,d,d',hc,hc',hproblems⟩ := (hreport span (.undefined x)).exists_eq
    rw [hc,hc']
    exact ⟨_,_,_,_,rfl,rfl,hproblems⟩
  · rename_i span node s' _
    obtain ⟨f,d,d',hc,hc',hproblems⟩ := (hreport span (.unevaluable node)).exists_eq
    rw [hc,hc']
    exact ⟨_,_,_,_,rfl,rfl,hproblems⟩
  · exact ⟨_,_,_,_,rfl,rfl,h⟩
  · exact ⟨_,_,_,_,rfl,rfl,h⟩

namespace Session

/-- Sessions that differ in nothing but what was printed and traced, and in what waits. -/
structure Matches (s r : Session) : Prop where
  settings : r.settings = s.settings
  store : r.store = s.store
  code : r.code = s.code

/-- Sessions that match, and in which the same problems wait. -/
structure Alike (s r : Session) : Prop extends s.Matches r where
  problems : r.console.problems = s.console.problems

/-- The results are equal, and the sessions go on to be alike. -/
def GoesAlike {α : Type} (p q : α × Session) : Prop := q.1 = p.1 ∧ p.2.Alike q.2

theorem GoesAlike.exists_eq {α : Type} {p q : α × Session} (h : GoesAlike p q) :
    ∃ x s r, p = (x,s) ∧ q = (x,r) ∧ s.Alike r :=
  ⟨p.1,p.2,q.2,rfl,Prod.ext h.1 rfl,h.2⟩

section
variable {s r : Session}

theorem Matches.refl (s : Session) : s.Matches s := ⟨rfl,rfl,rfl⟩

theorem Matches.symm (h : s.Matches r) : r.Matches s :=
  ⟨h.settings.symm,h.store.symm,h.code.symm⟩

theorem Matches.trans {s' : Session} (h : s.Matches r) (h' : r.Matches s') : s.Matches s' :=
  ⟨h'.settings.trans h.settings,h'.store.trans h.store,h'.code.trans h.code⟩

theorem Matches.nesting (h : s.Matches r) : r.nesting = s.nesting :=
  congrArg Prod.fst h.settings

theorem Matches.debug (h : s.Matches r) : r.debug = s.debug :=
  congrArg (fun p => p.2.1) h.settings

theorem Matches.copies (h : s.Matches r) : r.copies = s.copies :=
  congrArg (fun p => p.2.2) h.settings

theorem Alike.console {c c' : Console} (h : s.Alike r) (hc : c'.problems = c.problems) :
    Alike {s with console := c} {r with console := c'} :=
  ⟨⟨h.settings,h.store,h.code⟩,hc⟩

theorem Alike.print (h : s.Alike r) (t u : Text) : (s.print t).Alike (r.print u) :=
  h.console h.problems

theorem Alike.trace (h : s.Alike r) (x : Trace) : (s.trace x).Alike (r.trace x) where
  settings := by rw [trace_settings,trace_settings,h.settings]
  store := by rw [trace_store,trace_store,h.store]
  code := by rw [trace_code,trace_code,h.code]
  problems := by rw [trace_console,trace_console,h.problems]

theorem Alike.traceTree (h : s.Alike r) (t : Tree) : GoesAlike (s.traceTree t) (r.traceTree t) := by
  rw [Session.traceTree,Session.traceTree,h.debug,h.nesting]
  split
  · split
    · exact ⟨rfl,h.trace _⟩
    · exact ⟨rfl,h⟩
  · exact ⟨rfl,h⟩

theorem Alike.read (h : s.Alike r) (full : Bool) (source : Source) :
    GoesAlike (s.read full source) (r.read full source) := by
  have hreading : Console.Alike (source.reading full s.nesting s.console)
      (source.reading full r.nesting r.console) := by
    rw [h.nesting]
    exact source.alike_reading h.problems full s.nesting
  simp only [Source.reading] at hreading
  obtain ⟨x,c,c',hs,hr,hproblems⟩ := hreading.exists_eq
  rw [Session.read,Session.read,hs,hr]
  cases x with
  | error f => exact ⟨rfl,h.console hproblems⟩
  | ok t =>
    obtain ⟨htraced,halike⟩ := (h.console hproblems).traceTree t
    exact ⟨congrArg (Except.map fun _ => t) htraced,halike⟩

theorem Alike.append (h : s.Alike r) (t : Tree) : GoesAlike (s.append t) (r.append t) := by
  rw [Session.append,Session.append,h.nesting]
  split
  · exact ⟨rfl,h⟩
  · rename_i fragment _
    have htrace := h.trace (.text fragment)
    refine ⟨rfl,?_⟩
    dsimp only
    split
    · exact htrace
    · refine ⟨⟨htrace.settings,htrace.store,?_⟩,htrace.problems⟩
      change (r.trace _).code ++ _ ++ _ = (s.trace _).code ++ _ ++ _
      rw [htrace.code]

theorem Alike.execute (h : s.Alike r) (source : Source) (t : Tree) :
    GoesAlike (s.execute source t) (r.execute source t) := by
  obtain ⟨x,store,c,c',hs,hr,hproblems⟩ := t.alike_evaluate h.problems s.nesting source s.store
  rw [← h.nesting,← h.store] at hr
  rw [Session.execute,Session.execute,hs,hr]
  have hsame : Alike {s with store,console := c} {r with store,console := c'} :=
    ⟨⟨h.settings,rfl,h.code⟩,hproblems⟩
  cases x with
  | error f => exact ⟨rfl,hsame⟩
  | ok x => exact (hsame.trace (.value x)).append t

theorem Alike.executeAll (h : s.Alike r) (source : Source) (ts : List Tree) :
    GoesAlike (s.executeAll source ts) (r.executeAll source ts) := by
  induction ts generalizing s r with
  | nil => exact ⟨rfl,h⟩
  | cons t ts ih =>
    obtain ⟨x,s₁,r₁,hs,hr,halike⟩ := (h.execute source t).exists_eq
    rw [Session.executeAll,Session.executeAll,hs,hr]
    cases x with
    | error f => exact ⟨rfl,halike⟩
    | ok u => exact ih halike

theorem Alike.giveUp (h : s.Alike r) (phase : Phase) (f : Failure) :
    GoesAlike (s.giveUp phase f) (r.giveUp phase f) := by
  cases f with
  | stopped | tooDeep => exact ⟨rfl,h.print _ _⟩
  | wordless | notANumber | undecodable => exact ⟨rfl,h⟩

/-- Translating does not tell such sessions apart. -/
theorem Alike.translate (h : s.Alike r) (full : Bool) (source : Source) :
    GoesAlike (s.translate full source) (r.translate full source) := by
  obtain ⟨x,s₁,r₁,hs,hr,halike⟩ := ((h.trace (.text source.text)).read full source).exists_eq
  rw [Session.translate,Session.translate,hs,hr]
  cases x with
  | error f => exact halike.giveUp .reading f
  | ok t =>
    obtain ⟨x,s₂,r₂,hs,hr,halike⟩ := (halike.executeAll source t.statements).exists_eq
    simp only [hs,hr]
    cases x with
    | error f => exact halike.giveUp .evaluating f
    | ok u => exact ⟨rfl,halike⟩

end

end Session
end AssignLang
