import AssignLang.Proofs.Session.Replay

namespace AssignLang.Session

/-- What no program changes. -/
def settings (s : Session) : Nesting × Bool × Nat := (s.nesting,s.debug,s.copies)

section
variable (s : Session)

@[simp] theorem trace_debug (x : Trace) : (s.trace x).debug = s.debug := by
  unfold trace
  split <;> rfl

theorem trace_settings (x : Trace) : (s.trace x).settings = s.settings := by
  unfold trace
  split <;> rfl

theorem traceTree_settings (t : Tree) : (s.traceTree t).2.settings = s.settings := by
  unfold traceTree
  split
  · split
    · exact trace_settings s _
    · rfl
  · rfl

theorem traceTree_console (t : Tree) : (s.traceTree t).2.console = s.console := by
  rw [traceTree]
  split
  · split
    · exact trace_console s _
    · rfl
  · rfl

theorem read_settings (full : Bool) (source : Source) :
    (s.read full source).2.settings = s.settings := by
  unfold read
  split
  · rfl
  · exact traceTree_settings _ _

theorem read_console (full : Bool) (source : Source) :
    (s.read full source).2.console = (source.reading full s.nesting s.console).2 := by
  rw [read,Source.reading]
  split
  · rename_i h
    rw [h]
  · rename_i t c h
    rw [h]
    exact traceTree_console {s with console := c} t

theorem append_settings (t : Tree) : (s.append t).2.settings = s.settings := by
  unfold append
  split
  · rfl
  · simp only
    split
    · exact trace_settings s _
    · exact trace_settings s _

theorem append_console (t : Tree) : (s.append t).2.console = s.console := by
  rw [append]
  split
  · rfl
  · simp only
    split
    · exact trace_console s _
    · exact trace_console s _

theorem execute_settings (source : Source) (t : Tree) :
    (s.execute source t).2.settings = s.settings := by
  unfold execute
  split
  · rfl
  · rw [append_settings,trace_settings]
    rfl

theorem executeAll_settings (source : Source) (ts : List Tree) :
    (s.executeAll source ts).2.settings = s.settings := by
  induction ts generalizing s with
  | nil => rfl
  | cons t ts ih =>
    have hfirst := execute_settings s source t
    rw [executeAll]
    split
    · rename_i h
      rw [h] at hfirst
      exact hfirst
    · rename_i h
      rw [h] at hfirst
      rw [ih]
      exact hfirst

theorem giveUp_settings (phase : Phase) (f : Failure) :
    (s.giveUp phase f).2.settings = s.settings := by
  cases f <;> rfl

/-- How a session reads, whether it traces, and how many files it has read stay as they were. -/
theorem translate_settings (full : Bool) (source : Source) :
    (s.translate full source).2.settings = s.settings := by
  have hread := read_settings (s.trace (.text source.text)) full source
  rw [trace_settings] at hread
  rw [translate]
  split
  · rename_i h
    rw [h] at hread
    rw [giveUp_settings]
    exact hread
  · rename_i t s₁ h
    rw [h] at hread
    have hexecute := executeAll_settings s₁ source t.statements
    split
    · rename_i h'
      rw [h'] at hexecute
      rw [giveUp_settings]
      exact hexecute.trans hread
    · rename_i h'
      rw [h'] at hexecute
      exact hexecute.trans hread

theorem translate_debug (full : Bool) (source : Source) :
    (s.translate full source).2.debug = s.debug :=
  congrArg (fun p => p.2.1) (translate_settings s full source)

end

/-- A session reads what can be read, and traces it if asked to. -/
theorem read_fst (s : Session) (full : Bool) (source : Source) : (s.read full source).1 =
    match (source.reading full s.nesting s.console).1 with
    | .error f => .error f
    | .ok t =>
      if s.debug ∧ ¬ t.height ≤ s.nesting.walkingRoom t then .error .tooDeep else .ok t := by
  cases h : source.reading full s.nesting s.console with
  | mk r c =>
    have hread : (if full then source.block else source.statement) .standard s.nesting s.console =
      (r,c) := h
    rw [read,hread]
    cases r with
    | error f => rfl
    | ok t =>
      by_cases hd : s.debug
      · by_cases hroom : t.height ≤ s.nesting.walkingRoom t <;>
          simp [traceTree,Tree.outlineWithin,hd,hroom,Except.map]
      · simp [traceTree,hd,Except.map]

section
variable {s : Session} {full : Bool} {source : Source} {t : Tree}

theorem read_fst_of_reading (h : (source.reading full s.nesting s.console).1 = .ok t)
    (hroom : s.debug → t.height ≤ s.nesting.walkingRoom t) :
    (s.read full source).1 = .ok t := by
  rw [read_fst,h]
  exact if_neg fun hdeep => hdeep.2 (hroom hdeep.1)

theorem reading_of_read_fst (h : (s.read full source).1 = .ok t) :
    (source.reading full s.nesting s.console).1 = .ok t ∧
      (s.debug → t.height ≤ s.nesting.walkingRoom t) := by
  rw [read_fst] at h
  split at h
  · cases h
  · rename_i u hu
    split at h
    · cases h
    · rename_i hdeep
      obtain rfl := Except.ok.inj h
      exact ⟨hu,fun hd => Decidable.not_not.1 fun hroom => hdeep ⟨hd,hroom⟩⟩

end

/-- A program can be read, and all its statements have values and are written. -/
def passes (full : Bool) (source : Source) (s : Session) : Bool :=
  match (s.read full source).1 with
  | .ok t => (s.executed full source).length = t.statements.length ∧
    ∀ u ∈ t.statements, s.nesting.writes u
  | .error _ => false

section
variable {s : Session} {full : Bool} {source : Source}

theorem executeAll_passes {ts : List Tree} (hts : ∀ t ∈ ts, t.Canonical .statement)
    (hp : s.console.Worded) {r : Except Failure Unit} {s' : Session}
    (h : s.executeAll source ts = (r,s')) :
    r = .ok () ↔ (Tree.evaluable s.nesting ts s.store).length = ts.length ∧
      ∀ t ∈ ts, s.nesting.writes t := by
  induction ts generalizing s with
  | nil =>
    obtain ⟨rfl,-⟩ := Prod.mk.inj h
    simp [Tree.evaluable]
  | cons t ts ih =>
    obtain ⟨ht,hts⟩ := List.forall_mem_cons.1 hts
    rw [executeAll] at h
    rw [Tree.evaluable,List.forall_mem_cons]
    rcases execute_cases hp source ht with
      ⟨x,store,r₁,s₁,hv,he,rfl,-,hadds,hr⟩ | ⟨o,f,s₁,hv,he,-⟩
    · rw [he,hr] at h
      rw [hv]
      cases hwrites : s.nesting.writes t with
      | true =>
        rw [hwrites] at h
        simp only [if_true,List.length_cons,Nat.succ_inj,true_and,← hadds.nesting]
        exact ih hts hadds.worded h
      | false =>
        rw [hwrites] at h
        obtain ⟨rfl,-⟩ := Prod.mk.inj h
        simp
    · rw [he] at h
      obtain ⟨rfl,-⟩ := Prod.mk.inj h
      rw [hv]
      simp

theorem giveUp_ok {phase : Phase} {f : Failure} {b : Bool} {s' : Session}
    (h : s.giveUp phase f = (.ok b,s')) : b = false := by
  cases f with
  | stopped | tooDeep => exact (Except.ok.inj (Prod.mk.inj h).1).symm
  | wordless | notANumber | undecodable => cases h

/-- What has a value leaves what waits as it is. -/
theorem execute_console {t : Tree} {s' : Session} (h : s.execute source t = (.ok (),s')) :
    s'.console = s.console := by
  rw [execute,Tree.evaluate] at h
  split at h
  · cases h
  · rename_i x store c he
    have hconsole := append_console (({s with store,console := c} : Session).trace (.value x)) t
    rw [h,trace_console] at hconsole
    refine hconsole.trans ?_
    split at he <;> simp only [Prod.mk.injEq,reduceCtorEq,false_and] at he
    exact he.2.2.symm

theorem executeAll_console {ts : List Tree} {s' : Session}
    (h : s.executeAll source ts = (.ok (),s')) : s'.console = s.console := by
  induction ts generalizing s with
  | nil =>
    obtain ⟨-,rfl⟩ := Prod.mk.inj h
    rfl
  | cons t ts ih =>
    rw [executeAll] at h
    split at h
    · cases h
    · rename_i s₁ he
      exact (ih h).trans (execute_console he)

/-- Behind a program with nothing wrong in it nothing waits. -/
theorem idle_of_translate {s' : Session} (h : s.translate full source = (.ok true,s')) :
    s'.console.Idle := by
  rw [translate] at h
  have hconsole := read_console (s.trace (.text source.text)) full source
  cases hr : (s.trace (.text source.text)).read full source with
  | mk r s₁ =>
    rw [hr] at h hconsole
    cases r with
    | error f => cases giveUp_ok h
    | ok t =>
      have hidle := Source.idle_of_reading (reading_of_read_fst (congrArg Prod.fst hr)).1
      rw [← hconsole] at hidle
      simp only at h
      cases he : s₁.executeAll source t.statements with
      | mk r s₂ =>
        rw [he] at h
        cases r with
        | error f => cases giveUp_ok h
        | ok u =>
          obtain ⟨-,rfl⟩ := Prod.mk.inj h
          rwa [executeAll_console he]

/-- Translating succeeds just with a program that passes, and has the effect of what is executed. -/
theorem translate_passes (full : Bool) (source : Source) (hp : s.console.Worded) :
    ∃ s', s.translate full source = (.ok (s.passes full source),s') ∧
      s.Adds (s.executed full source) s' ∧ s'.debug = s.debug := by
  obtain ⟨b,s',h,hadds⟩ := translate_adds full source hp
  have hdebug := translate_debug s full source
  rw [h] at hdebug
  refine ⟨s',?_,hadds,hdebug⟩
  have htrace := adds_trace hp (.text source.text)
  have hread := read_trace s (.text source.text) full source
  have hb : b = s.passes full source := by
    rw [translate] at h
    rcases read_cases htrace.worded full source with ⟨t,s₁,hr,ht,hstart,-⟩ | ⟨f,s₁,hr,-⟩
    · have hboth := htrace.append hstart
      have hex : s.executed full source = Tree.evaluable s₁.nesting t.statements s₁.store := by
        rw [executed,← hread,hr,hboth.nesting,hboth.store_of_nil]
      have hcanonical := Source.canonical_of_reading ht
      rw [hr] at h
      rw [passes,hex,← hread,hr,← hboth.nesting]
      cases he : s₁.executeAll source t.statements with
      | mk r s₂ =>
        have hpasses := executeAll_passes (fun u hu => hcanonical.of_mem_statements hu)
          hstart.worded he
        simp only [he] at h
        cases r with
        | ok u =>
          obtain ⟨hb,-⟩ := Prod.mk.inj h
          obtain rfl := Except.ok.inj hb
          exact (decide_eq_true (hpasses.1 rfl)).symm
        | error f =>
          have hb := giveUp_ok h
          rw [hb,eq_comm,decide_eq_false_iff_not]
          intro hall
          cases hpasses.2 hall
    · rw [hr] at h
      rw [passes,← hread,hr]
      exact giveUp_ok h
  rw [h,hb]

theorem exists_of_passes (h : s.passes full source = true) :
    ∃ t, (s.read full source).1 = .ok t ∧ (s.executed full source).length = t.statements.length ∧
      ∀ u ∈ t.statements, s.nesting.writes u := by
  rw [passes] at h
  cases ht : (s.read full source).1 with
  | error f =>
    rw [ht] at h
    cases h
  | ok t =>
    rw [ht] at h
    exact ⟨t,rfl,of_decide_eq_true h⟩

/-- A program of which one statement is read has no effect unless it passes, or its statement was
evaluated and is too deep to be written. -/
theorem executed_of_not_passes (h : s.passes false source = false) :
    s.executed false source = [] ∨
      ∃ u x store, s.executed false source = [u] ∧ (s.read false source).1 = .ok u ∧
        s.nesting.writes u = false ∧ u.value (s.nesting.walkingRoom u) s.store = (.ok x,store) ∧
        Tree.Runs [u] s.store store := by
  rw [passes] at h
  rw [executed] at h ⊢
  cases hr : (s.read false source).1 with
  | error f => exact .inl rfl
  | ok t =>
    simp only [hr] at h
    have hcanonical : t.Canonical .statement :=
      Source.canonical_of_reading (reading_of_read_fst hr).1
    have hstatements : t.statements = [t] := hcanonical.statements_of_bare rfl
    rw [hstatements] at h
    simp only [hstatements,Tree.evaluable] at h ⊢
    rcases hcanonical.value_cases (s.nesting.walkingRoom t) s.store with
      ⟨x,store,hroom,hv⟩ | ⟨e,hv,-⟩
    · have hheight : t.value t.height s.store = (.ok x,store) := by
        rw [Tree.value_congr_room t (Nat.le_refl _) hroom,hv]
      cases hwrites : s.nesting.writes t with
      | true => simp [hv,hwrites] at h
      | false =>
        exact .inr ⟨t,x,store,by simp [hv],rfl,hwrites,hv,.cons hheight .nil⟩
    · rw [hv]
      exact .inl rfl

end

end AssignLang.Session
