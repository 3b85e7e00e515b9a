import AssignLang.Proofs.Session.History
import AssignLang.Proofs.Tree.Lines

namespace AssignLang

namespace Tree

theorem Canonical.of_mem_statements {full : Bool} {t u : Tree} (h : t.Canonical (.ofReading full))
    (hu : u ∈ t.statements) : u.Canonical .statement := by
  cases full with
  | true =>
    cases h with
    | block hbody => exact hbody u hu
  | false =>
    cases h with
    | assign hk hx hv =>
      obtain rfl := List.mem_singleton.1 hu
      exact .assign hk hx hv

theorem Canonical.statements_of_bare {t u : Tree} (h : t.Canonical .statement)
    (hb : u.bare = t.bare) : u.statements = [u] := by
  cases h with
  | assign => cases u <;> first | rfl | cases hb

/-- Lines of code are read as their statements. -/
theorem reads_lines {ts : List Tree} (h : ∀ t ∈ ts, t.Canonical .statement) (r : Text) :
    Piece.Reads (ts.flatMap line) (tokensAll ts) r := by
  induction ts with
  | nil => exact Piece.reads_nil r
  | cons t ts ih =>
    have ht := fun r => reads_statement (h t List.mem_cons_self) r
    have hts := ih fun u hu => h u (List.mem_cons_of_mem t hu)
    have hend : Piece.Reads (['\n'] ++ ts.flatMap line) ([] ++ tokensAll ts) r :=
      (Piece.reads_blank rfl _).append hts
    rw [List.flatMap_cons,line,List.append_assoc,tokensAll]
    exact (ht _).append hend

end Tree

namespace Session

section
variable (s : Session) (x : Trace)

@[simp] theorem trace_nesting : (s.trace x).nesting = s.nesting := by
  unfold trace
  split <;> rfl

@[simp] theorem trace_store : (s.trace x).store = s.store := by
  unfold trace
  split <;> rfl

@[simp] theorem trace_code : (s.trace x).code = s.code := by
  unfold trace
  split <;> rfl

@[simp] theorem trace_console : (s.trace x).console = s.console := by
  unfold trace
  split <;> rfl

end

/-- What leads from `s` to `s'` evaluates just the statements `ts`, writes those of them that are not
too deep, and leaves no problem waiting that cannot be worded, and none at all without a limit. -/
structure Adds (s : Session) (ts : List Tree) (s' : Session) : Prop where
  nesting : s'.nesting = s.nesting
  worded : s'.console.Worded
  problems : s.nesting = .unlimited → s.console.problems = [] → s'.console.problems = []
  canonical : ∀ t ∈ ts, t.Canonical .statement
  code : s'.code = s.code ++ (ts.filter s.nesting.writes).flatMap Tree.line
  runs : Tree.Runs ts s.store s'.store

theorem Adds.append {s s' s'' : Session} {ts us : List Tree} (ht : s.Adds ts s')
    (hu : s'.Adds us s'') : s.Adds (ts ++ us) s'' where
  nesting := hu.nesting.trans ht.nesting
  worded := hu.worded
  problems := fun hn hp => hu.problems (ht.nesting.trans hn) (ht.problems hn hp)
  canonical := List.forall_mem_append.2 ⟨ht.canonical,hu.canonical⟩
  code := by
    rw [hu.code,ht.code,ht.nesting,List.filter_append,List.flatMap_append,List.append_assoc]
  runs := ht.runs.append hu.runs

theorem Adds.store_of_nil {s s' : Session} (h : s.Adds [] s') : s'.store = s.store := by
  have hruns := h.runs
  generalize s'.store = store at hruns
  cases hruns
  rfl

theorem Adds.code_of_nil {s s' : Session} (h : s.Adds [] s') : s'.code = s.code := by
  rw [h.code,List.filter_nil,List.flatMap_nil,List.append_nil]

theorem Adds.of_bareAll {s s' : Session} {ts us : List Tree} (h : s.Adds ts s')
    (hb : Tree.bareAll ts = Tree.bareAll us) (hus : ∀ u ∈ us, u.Canonical .statement) :
    s.Adds us s' where
  nesting := h.nesting
  worded := h.worded
  problems := h.problems
  canonical := hus
  code := by rw [h.code,Tree.flatMap_line_of_bareAll (Tree.filter_writes_of_bareAll s.nesting hb)]
  runs := h.runs.of_bareAll hb

section
variable {s : Session} {full : Bool} {source : Source} {t : Tree}

theorem adds_nil {s' : Session} (hn : s'.nesting = s.nesting) (hp : s.console.Worded)
    (hc : s'.console.problems = s.console.problems) (hcode : s'.code = s.code)
    (hstore : s'.store = s.store) : s.Adds [] s' where
  nesting := hn
  worded := hp.congr hc
  problems := fun _ => hc.trans
  canonical := by simp
  code := by simp [hcode]
  runs := by
    rw [hstore]
    exact .nil

theorem adds_trace (hp : s.console.Worded) (x : Trace) : s.Adds [] (s.trace x) := by
  exact adds_nil (trace_nesting s x) hp (by rw [trace_console]) (trace_code s x) (trace_store s x)

theorem adds_console {c : Console} (hc : c.Worded)
    (hp : s.nesting = .unlimited → s.console.problems = [] → c.problems = []) :
    s.Adds [] {s with console := c} where
  nesting := rfl
  worded := hc
  problems := hp
  canonical := by simp
  code := by simp
  runs := .nil

theorem adds_fails {c : Console} {need : Headroom} {f : Failure} (h : s.console.Fails need f c)
    (hneed : s.nesting = .unlimited → need.raising = 0) : s.Adds [] {s with console := c} :=
  adds_console h.worded fun hn => h.problems (hneed hn)

theorem traceTree_cases (hp : s.console.Worded) (t : Tree) :
    (∃ s', s.traceTree t = (.ok (),s') ∧ s.Adds [] s' ∧ s'.console = s.console) ∨
      s.traceTree t = (.error .tooDeep,s) := by
  by_cases hd : s.debug
  · rw [traceTree,if_pos hd,Tree.outlineWithin]
    by_cases hroom : t.height ≤ s.nesting.walkingRoom t
    · rw [if_pos hroom]
      exact .inl ⟨_,rfl,adds_trace hp _,trace_console s _⟩
    · rw [if_neg hroom]
      exact .inr rfl
  · rw [traceTree,if_neg hd]
    exact .inl ⟨s,rfl,adds_nil rfl hp rfl rfl rfl,rfl⟩

/-- Only a tree that is not too deep to be written gets a line of code. -/
theorem append_cases (ht : t.code ≠ []) : ∃ s',
    s.append t = (if s.nesting.writes t then .ok () else .error .tooDeep,s') ∧
      s'.nesting = s.nesting ∧ s'.console = s.console ∧ s'.store = s.store ∧
      s'.code = s.code ++ ([t].filter s.nesting.writes).flatMap Tree.line := by
  cases hwrites : s.nesting.writes t with
  | true =>
    refine ⟨{s.trace (.text t.code) with code := s.code ++ t.line},?_,trace_nesting s _,
      trace_console s _,trace_store s _,?_⟩
    · rw [append,Tree.codeWithin,if_pos (of_decide_eq_true hwrites)]
      simp only [trace_code,List.isEmpty_iff,if_neg ht,Tree.line,List.append_assoc,if_true]
    · rw [List.filter_cons_of_pos hwrites]
      simp
  | false =>
    refine ⟨s,?_,rfl,rfl,rfl,?_⟩
    · rw [append,Tree.codeWithin,if_neg (of_decide_eq_false hwrites)]
      rfl
    · rw [List.filter_cons_of_neg (by simp [hwrites])]
      simp

theorem giveUp_of_isDue (hp : s.console.Worded) (phase : Phase) {f : Failure}
    (hf : f.IsDue) : ∃ s', s.giveUp phase f = (.ok false,s') ∧ s.Adds [] s' := by
  cases f with
  | stopped stage ps => exact ⟨_,rfl,adds_nil rfl hp rfl rfl rfl⟩
  | tooDeep => exact ⟨_,rfl,adds_nil rfl hp rfl rfl rfl⟩
  | wordless | notANumber _ | undecodable _ => cases hf

/-- Reading a program changes nothing but what is printed and traced, and what waits. -/
theorem read_cases (hp : s.console.Worded) (full : Bool) (source : Source) :
    (∃ t s', s.read full source = (.ok t,s') ∧
      (source.reading full s.nesting s.console).1 = .ok t ∧ s.Adds [] s' ∧ s'.console.Idle) ∨
    ∃ f s', s.read full source = (.error f,s') ∧ f.IsDue ∧ s.Adds [] s' ∧
      (f ≠ .tooDeep → s'.console.Idle) := by
  rcases source.reading_cases full s.nesting hp with ⟨t,c,hr,hc⟩ | ⟨f,c,hr,hfails⟩
  · have hread : (if full then source.block else source.statement) .standard s.nesting s.console =
        (.ok t,c) := hr
    have hconsole : s.Adds [] {s with console := c} := adds_console hc.worded fun _ _ => hc.problems
    rcases traceTree_cases hconsole.worded t with ⟨s',ht,hadds,hsame⟩ | ht
    · refine .inl ⟨t,s',?_,by rw [hr],hconsole.append hadds,by rwa [hsame]⟩
      rw [read,hread]
      simp only [ht,Except.map]
    · refine .inr ⟨.tooDeep,{s with console := c},?_,trivial,hconsole,fun _ => hc⟩
      rw [read,hread]
      simp only [ht,Except.map]
  · have hread : (if full then source.block else source.statement) .standard s.nesting s.console =
        (.error f,c) := hr
    refine .inr ⟨f,{s with console := c},?_,hfails.isDue,adds_fails hfails ?_,hfails.idle⟩
    · rw [read,hread]
    · intro hn
      rw [hn]
      rfl

theorem read_trace (s : Session) (x : Trace) (full : Bool) (source : Source) :
    ((s.trace x).read full source).1 = (s.read full source).1 := by
  unfold trace
  split
  · rename_i hd
    simp only [read,traceTree,hd,if_true]
    split
    · rfl
    · split <;> rfl
  · rfl

end

/-- Evaluation that is kept from a value fails, and leaves a problem waiting only where it ends for
want of room. -/
theorem evaluate_of_isDue (source : Source) {t : Tree} {nesting : Nesting} {store : Store}
    {c : Console} {e : Obstacle} (hv : t.value (nesting.walkingRoom t) store = (.error e,store))
    (he : e.IsDue) (hc : c.Worded) :
    ∃ f c', t.evaluate nesting source store c = (.error f,store,c') ∧
      c.Fails nesting.walkingNeeds f c' := by
  rw [Tree.evaluate,hv]
  cases e with
  | undefined span x =>
    obtain ⟨f,c',hreport,hfails⟩ : ∃ f c', t.report nesting source store c span (.undefined x) =
        (f,c') ∧ c.Fails nesting.walkingNeeds f c' := hc.failWithin nesting.walkingNeeds _ rfl
    exact ⟨f,c',by simp only [hreport],hfails⟩
  | tooDeep => exact ⟨.tooDeep,c,rfl,hc.tooDeep nesting.walkingNeeds rfl⟩
  | unevaluable _ _ | notANumber _ => cases he

/-- A statement is evaluated if it has a value, and then written unless it is too deep for that. If
it has none, it changes neither store nor code. -/
theorem execute_cases {s : Session} (hp : s.console.Worded) (source : Source) {t : Tree}
    (ht : t.Canonical .statement) :
    (∃ x store r s', t.value (s.nesting.walkingRoom t) s.store = (.ok x,store) ∧
      s.execute source t = (r,s') ∧ s'.store = store ∧ s'.console = s.console ∧ s.Adds [t] s' ∧
      r = if s.nesting.writes t then .ok () else .error .tooDeep) ∨
    ∃ o f s', t.value (s.nesting.walkingRoom t) s.store = (.error o,s.store) ∧
      s.execute source t = (.error f,s') ∧ f.IsDue ∧ s.Adds [] s' ∧
      (f ≠ .tooDeep → s'.console.Idle) := by
  rcases ht.value_cases (s.nesting.walkingRoom t) s.store with ⟨x,store,hroom,hv⟩ | ⟨o,hv,ho⟩
  · have he : t.evaluate s.nesting source s.store s.console = (.ok x,store,s.console) := by
      rw [Tree.evaluate,hv]
    have hruns : Tree.Runs [t] s.store store := by
      rw [Tree.value_congr_room t hroom (Nat.le_refl _)] at hv
      exact .cons hv .nil
    obtain ⟨s',ha,hn,hc,hstore,hcode⟩ :=
      append_cases (s := ({s with store} : Session).trace (.value x)) ht.code_ne_nil
    rw [trace_nesting] at ha hn hcode
    rw [trace_console] at hc
    rw [trace_store] at hstore
    rw [trace_code] at hcode
    have hproblems : s'.console.problems = s.console.problems := congrArg Console.problems hc
    refine .inl ⟨x,store,_,s',hv,?_,hstore,hc,
      ⟨hn,hp.congr hproblems,fun _ => hproblems.trans,?_,hcode,?_⟩,rfl⟩
    · rw [execute,he]
      exact ha
    · simpa using ht
    · rwa [hstore]
  · obtain ⟨f,c,he,hfails⟩ := evaluate_of_isDue source hv ho hp
    refine .inr ⟨o,f,{s with console := c},hv,?_,hfails.isDue,adds_fails hfails ?_,hfails.idle⟩
    · rw [execute,he]
    · intro hn
      rw [hn]
      rfl

/-- Statements are evaluated up to the first one that has no value, or through the first one that is
too deep to be written. -/
theorem executeAll_adds (source : Source) {ts : List Tree}
    (hts : ∀ t ∈ ts, t.Canonical .statement) {s : Session} (hp : s.console.Worded) :
    ∃ r s', s.executeAll source ts = (r,s') ∧
      s.Adds (Tree.evaluable s.nesting ts s.store) s' ∧ ∀ f, r = .error f → f.IsDue := by
  induction ts generalizing s with
  | nil => exact ⟨.ok (),s,rfl,adds_nil rfl hp rfl rfl rfl,by simp⟩
  | cons t ts ih =>
    obtain ⟨ht,hts⟩ := List.forall_mem_cons.1 hts
    rw [executeAll,Tree.evaluable]
    rcases execute_cases hp source ht with
      ⟨x,store,r,s₁,hv,he,rfl,-,hadds,hr⟩ | ⟨o,f,s₁,hv,he,hf,hadds,-⟩
    · rw [hv,he,hr]
      cases hwrites : s.nesting.writes t with
      | true =>
        obtain ⟨r,s₂,hr,hadds',hdue⟩ := ih hts hadds.worded
        simp only [if_true,← hadds.nesting]
        exact ⟨r,s₂,hr,hadds.append hadds',hdue⟩
      | false =>
        refine ⟨.error .tooDeep,s₁,rfl,hadds,?_⟩
        intro g hg
        obtain rfl := Except.error.inj hg
        trivial
    · rw [hv,he]
      refine ⟨.error f,s₁,rfl,hadds,?_⟩
      intro g hg
      obtain rfl := Except.error.inj hg
      exact hf

/-- Translating a program never fails for good, and executes just the statements that it says. -/
theorem translate_adds (full : Bool) (source : Source) {s : Session} (hp : s.console.Worded) :
    ∃ b s', s.translate full source = (.ok b,s') ∧ s.Adds (s.executed full source) s' := by
  have htrace := adds_trace hp (.text source.text)
  have hread := read_trace s (.text source.text) full source
  rw [translate]
  rcases read_cases htrace.worded full source with ⟨t,s₁,hr,ht,hadds,-⟩ | ⟨f,s₁,hr,hf,hadds,-⟩
  · have hstart := htrace.append hadds
    have hcanonical := Source.canonical_of_reading ht
    obtain ⟨r,s₂,he,hadds',hdue⟩ := executeAll_adds source
      (fun u hu => hcanonical.of_mem_statements hu) hadds.worded
    have hex : s.executed full source = Tree.evaluable s₁.nesting t.statements s₁.store := by
      rw [executed,← hread,hr,hstart.nesting,hstart.store_of_nil]
    rw [hex,hr]
    simp only [he]
    cases r with
    | ok u => exact ⟨true,s₂,rfl,hstart.append hadds'⟩
    | error f =>
      obtain ⟨s₃,hg,hgive⟩ := giveUp_of_isDue hadds'.worded .evaluating (hdue f rfl)
      have hend := (hstart.append hadds').append hgive
      rw [List.append_nil] at hend
      exact ⟨false,s₃,hg,hend⟩
  · obtain ⟨s₂,hg,hgive⟩ := giveUp_of_isDue hadds.worded .reading hf
    have hex : s.executed full source = [] := by rw [executed,← hread,hr]
    rw [hex,hr]
    exact ⟨false,s₂,hg,htrace.append (hadds.append hgive)⟩

theorem translateAll_adds (ps : List Text) {s : Session} (hp : s.console.Worded) :
    ∃ n s', s.translateAll ps = (.ok n,s') ∧ s.Adds (s.executedAll ps) s' := by
  induction ps generalizing s with
  | nil => exact ⟨0,s,rfl,adds_nil rfl hp rfl rfl rfl⟩
  | cons p ps ih =>
    obtain ⟨b,s₁,ht,hadds⟩ := translate_adds false {text := p} hp
    obtain ⟨n,s₂,hr,hadds'⟩ := ih hadds.worded
    refine ⟨if b then n else n+1,s₂,?_,?_⟩
    · rw [translateAll,ht]
      simp only [hr,Except.map]
    · rw [executedAll,ht]
      exact hadds.append hadds'

theorem translateBytes_adds (bytes : List UInt8) {s : Session} (hp : s.console.Worded) :
    s.Adds (s.executedBytes bytes) (s.translateBytes bytes).2 := by
  rw [translateBytes,executedBytes]
  cases Text.ofBytes bytes with
  | error e => exact adds_nil rfl hp rfl rfl rfl
  | ok text =>
    have hcopy : s.Adds [] {s with copies := s.copies+1} := adds_nil rfl hp rfl rfl rfl
    obtain ⟨b,s',ht,hadds⟩ := translate_adds true ⟨text,s.copies+1⟩ hcopy.worded
    simp only [ht]
    exact hcopy.append hadds

theorem perform_adds (r : Request) {s : Session} (hp : s.console.Worded) :
    s.Adds (s.log r) (s.perform r) := by
  cases r with
  | translate full p =>
    obtain ⟨b,s',ht,hadds⟩ := translate_adds full {text := p} hp
    rw [perform,ht]
    exact hadds
  | translateAll ps =>
    obtain ⟨n,s',ht,hadds⟩ := translateAll_adds ps hp
    rw [perform,ht]
    exact hadds
  | translateFile bytes => exact translateBytes_adds bytes hp

/-- Whatever is asked of a session, it adds its history to the code and to the store. -/
theorem performAll_adds (rs : List Request) {s : Session} (hp : s.console.Worded) :
    s.Adds (s.history rs) (s.performAll rs) := by
  induction rs generalizing s with
  | nil => exact adds_nil rfl hp rfl rfl rfl
  | cons r rs ih =>
    have hr := perform_adds r hp
    exact hr.append (ih hr.worded)

/-- What the code of a session says about it: it is one line for each statement of `log` that is not
too deep to be written. If that is all of them, as it is without a limit, reading and evaluating the
code from an empty store ends with the store of the session. -/
structure Replays (s : Session) (log : List Tree) : Prop where
  code : s.code = (log.filter s.nesting.writes).flatMap fun t => t.code ++ ['\n']
  lines : s.code.lines = (log.filter s.nesting.writes).map Tree.code
  whole : s.nesting = .unlimited → log.filter s.nesting.writes = log
  block : log.filter s.nesting.writes = log → ∀ copy, ∃ t x,
    Source.block .standard .unlimited ⟨s.code,copy⟩ {} = (.ok t,{}) ∧
      t.evaluate .unlimited ⟨s.code,copy⟩ {} {} = (.ok x,s.store,{})

theorem lines_of_canonical {ts : List Tree} (h : ∀ t ∈ ts, t.Canonical .statement) :
    Text.lines (ts.flatMap Tree.line) = ts.map Tree.code := by
  have hlines : ts.flatMap Tree.line = (ts.map Tree.code).flatMap (· ++ ['\n']) := by
    rw [List.flatMap_map]
    rfl
  rw [hlines]
  apply Text.lines_flatMap
  intro l hl
  obtain ⟨t,ht,rfl⟩ := List.mem_map.1 hl
  exact (h t ht).isUnbroken_code

theorem block_of_lines {ts : List Tree} (h : ∀ t ∈ ts, t.Canonical .statement) (copy : Nat)
    {c : Console} (hc : c.Idle) :
    ∃ span us, Source.block .standard .unlimited ⟨ts.flatMap Tree.line,copy⟩ c =
      (.ok (.block span us),c) ∧ Tree.bareAll us = Tree.bareAll ts := by
  have hprogram : (Tree.block .unknown ts).Canonical (.ofReading true) := .block h
  have hreads := Tree.reads_lines h []
  rw [Piece.Reads,List.append_nil] at hreads
  obtain ⟨u,hu,hb⟩ := Source.reading_of_content (s := ⟨ts.flatMap Tree.line,copy⟩) hprogram
    (hreads.trans (List.append_nil _)) hc
  obtain ⟨span,us,rfl⟩ : ∃ span us, u = .block span us := by
    cases u with
    | block span us => exact ⟨span,us,rfl⟩
    | _ => cases hb
  exact ⟨span,us,hu,(Tree.block.inj hb).2⟩

/-- A session in which nothing has happened. -/
def fresh (nesting : Nesting) (debug : Bool) : Session := {nesting,debug}

theorem adds_history (nesting : Nesting) (debug : Bool) (rs : List Request) :
    (fresh nesting debug).Adds ((fresh nesting debug).history rs)
      ((fresh nesting debug).performAll rs) :=
  performAll_adds rs (Console.worded_of_problems rfl)

/-- Whatever is asked of a session, failures included, its code is the log of its store, but for
what is too deep to be written. -/
theorem performAll_replays_history (nesting : Nesting) (debug : Bool) (rs : List Request) :
    ((fresh nesting debug).performAll rs).Replays ((fresh nesting debug).history rs) := by
  have hadds := adds_history nesting debug rs
  have hnesting : ((fresh nesting debug).performAll rs).nesting = nesting := hadds.nesting
  have hcode : ((fresh nesting debug).performAll rs).code =
      (((fresh nesting debug).history rs).filter nesting.writes).flatMap Tree.line := hadds.code
  constructor
  · rw [hnesting]
    exact hcode
  · rw [hnesting,hcode]
    exact lines_of_canonical fun t ht => hadds.canonical t ((List.mem_filter.1 ht).1)
  · intro hunlimited
    rw [hunlimited]
    exact Nesting.filter_writes_unlimited _
  · intro hwhole copy
    rw [hnesting] at hwhole
    rw [hwhole] at hcode
    obtain ⟨span,us,hu,hb⟩ := block_of_lines (c := {}) hadds.canonical copy ⟨rfl,rfl⟩
    have hruns : Tree.Runs us {} ((fresh nesting debug).performAll rs).store :=
      hadds.runs.of_bareAll hb.symm
    obtain ⟨x,hx⟩ := hruns.evaluate span ⟨((fresh nesting debug).performAll rs).code,copy⟩ {}
    rw [← hcode] at hu
    exact ⟨_,x,hu,hx⟩

end Session
end AssignLang
