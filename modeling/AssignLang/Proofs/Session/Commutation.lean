import AssignLang.Proofs.Session.Isolation
import AssignLang.Proofs.Tree.Locality

namespace AssignLang

open Grammar

/-- Evaluation that comes to the same value or obstacle is told in the same way, and reported if that
takes no room. -/
theorem Tree.evaluate_congr {t : Tree} {nesting : Nesting} {s s' : Store} (source : Source)
    (c : Console) (hneeds : nesting.walkingNeeds.raising = 0)
    (h : (t.value (nesting.walkingRoom t) s').1 = (t.value (nesting.walkingRoom t) s).1) :
    t.evaluate nesting source s' c = ((t.evaluate nesting source s c).1,
      (t.value (nesting.walkingRoom t) s').2,(t.evaluate nesting source s c).2.2) := by
  have hreport (store : Store) (span : Span) (fault : Fault) :
      t.report nesting source store c span fault = c.fail source span fault :=
    report_of_le (by omega) source c span fault
  rw [evaluate,evaluate]
  simp only [hreport]
  generalize t.value (nesting.walkingRoom t) s = a at h
  generalize t.value (nesting.walkingRoom t) s' = b at h
  obtain ⟨r,u⟩ := a
  obtain ⟨r',u'⟩ := b
  have hr : r' = r := h
  rw [hr]
  cases r with
  | ok x => rfl
  | error e => cases e <;> rfl

theorem Tree.evaluate_store (t : Tree) (nesting : Nesting) (source : Source) (s : Store)
    (c : Console) :
    (t.evaluate nesting source s c).2.1 = (t.value (nesting.walkingRoom t) s).2 := by
  rw [evaluate]
  generalize t.value (nesting.walkingRoom t) s = a
  obtain ⟨r,u⟩ := a
  cases r with
  | ok x => rfl
  | error e => cases e <;> rfl

namespace Session

def withStore (s : Session) (store : Store) : Session := {s with store}

section
variable (s : Session) (store : Store)

@[simp] theorem withStore_nesting : (s.withStore store).nesting = s.nesting := rfl

@[simp] theorem withStore_console : (s.withStore store).console = s.console := rfl

@[simp] theorem withStore_store : (s.withStore store).store = store := rfl

theorem trace_withStore (x : Trace) :
    (s.withStore store).trace x = (s.trace x).withStore store := by
  by_cases hd : s.debug <;> simp [trace,withStore,hd]

theorem traceTree_withStore (t : Tree) :
    (s.withStore store).traceTree t = (s.traceTree t).map id (·.withStore store) := by
  by_cases hd : s.debug
  · by_cases hroom : t.height ≤ s.nesting.walkingRoom t <;>
      simp [traceTree,Tree.outlineWithin,trace,withStore,hd,hroom]
  · simp [traceTree,withStore,hd]

theorem read_withStore (full : Bool) (source : Source) :
    (s.withStore store).read full source = (s.read full source).map id (·.withStore store) := by
  rw [read,read,withStore_nesting,withStore_console]
  cases (if full then source.block else source.statement) .standard s.nesting s.console with
  | mk r c =>
    cases r with
    | error f => rfl
    | ok t =>
      have htrace := traceTree_withStore {s with console := c} store t
      exact congrArg (fun q => (q.1.map fun _ => t,q.2)) htrace

theorem append_withStore (t : Tree) :
    (s.withStore store).append t = (s.append t).map id (·.withStore store) := by
  have htrace := trace_withStore s store (.text t.code)
  rw [append,append,withStore_nesting]
  by_cases hroom : t.height ≤ s.nesting.writingRoom t
  · simp only [Tree.codeWithin,if_pos hroom,htrace]
    by_cases hcode : t.code.isEmpty <;> simp [hcode,withStore]
  · simp only [Tree.codeWithin,if_neg hroom]
    rfl

theorem giveUp_withStore (phase : Phase) (f : Failure) :
    (s.withStore store).giveUp phase f = (s.giveUp phase f).map id (·.withStore store) := by
  cases f <;> rfl

theorem append_store (t : Tree) : (s.append t).2.store = s.store := by
  rw [append]
  cases t.codeWithin s.nesting with
  | error f => rfl
  | ok fragment =>
    by_cases hcode : fragment.isEmpty <;> simp [hcode]

theorem execute_store (source : Source) (t : Tree) :
    (s.execute source t).2.store = (t.value (s.nesting.walkingRoom t) s.store).2 := by
  rw [← t.evaluate_store s.nesting source s.store s.console,execute]
  cases t.evaluate s.nesting source s.store s.console with
  | mk r rest =>
    cases r with
    | error f => rfl
    | ok x => exact (append_store _ t).trans (trace_store _ _)

/-- With a store in which it comes to the same, a statement does the same but for the store. -/
theorem execute_withStore (source : Source) {t : Tree}
    (hneeds : s.nesting.walkingNeeds.raising = 0)
    (h : (t.value (s.nesting.walkingRoom t) store).1 =
      (t.value (s.nesting.walkingRoom t) s.store).1) :
    (s.withStore store).execute source t =
      (s.execute source t).map id (·.withStore (t.value (s.nesting.walkingRoom t) store).2) := by
  have hevaluate := Tree.evaluate_congr source s.console hneeds h
  rw [execute,execute,withStore_nesting,withStore_console,withStore_store,hevaluate]
  generalize (t.value (s.nesting.walkingRoom t) store).2 = store'
  cases t.evaluate s.nesting source s.store s.console with
  | mk r rest =>
    cases r with
    | error f => rfl
    | ok x =>
      have htrace := trace_withStore {s with store := rest.1,console := rest.2} store' (.value x)
      have happend := append_withStore
        ({s with store := rest.1,console := rest.2}.trace (.value x)) store' t
      rw [← htrace] at happend
      exact happend

end

end Session

/-- The program is read as the statement `u`, which assigns the variable `x`. -/
def Source.Assigns (full : Bool) (p : Source) (u : Tree) (x : Text) : Prop :=
  ∃ t, (p.reading full .unlimited {}).1 = .ok t ∧ t.statements = [u] ∧ u.target? = some x

namespace Session

section
variable {s : Session} {full : Bool} {p : Source} {u : Tree} {x : Text}

theorem canonical_of_assigns (h : p.Assigns full u x) : u.Canonical .statement := by
  obtain ⟨t,ht,hone,-⟩ := h
  have hcanonical := Source.canonical_of_reading ht
  exact hcanonical.of_mem_statements (by simp [hone])

/-- Without a limit the statement is always executed. -/
theorem translate_of_assigns (hn : s.nesting = .unlimited) (hp : s.console.problems = [])
    (h : p.Assigns full u x) :
    ∃ s₁ : Session, s₁.nesting = .unlimited ∧ s₁.store = s.store ∧ ∀ store,
      (s.withStore store).translate full p =
        match (s₁.withStore store).execute p u with
        | (.error f,s₂) => s₂.giveUp .evaluating f
        | (.ok (),s₂) => (.ok true,s₂) := by
  obtain ⟨t,ht,hone,-⟩ := h
  have htrace := adds_trace (Console.worded_of_problems hp) (.text p.text)
  have hread : ((s.trace (.text p.text)).read full p).1 = .ok t := by
    apply read_fst_of_reading
    · rw [trace_nesting,trace_console,hn]
      exact Source.reading_unlimited ht hp
    · rw [trace_nesting,hn]
      exact fun _ => Nat.le_refl _
  rcases read_cases htrace.worded full p with ⟨t',s₁,hr,-,hadds,-⟩ | ⟨f,s₁,hr,-⟩
  · rw [hr] at hread
    have ht' : t' = t := Except.ok.inj hread
    have hboth := htrace.append hadds
    refine ⟨s₁,hboth.nesting.trans hn,hboth.store_of_nil,?_⟩
    intro store
    rw [translate,trace_withStore,read_withStore,hr,ht']
    simp only [Prod.map,id,hone,executeAll]
    cases (s₁.withStore store).execute p u with
    | mk r s₂ => cases r <;> rfl
  · rw [hr] at hread
    cases hread

/-- With a store in which the statement comes to the same, the program does the same but for the
store. -/
theorem translate_withStore (hn : s.nesting = .unlimited) (hp : s.console.problems = [])
    (h : p.Assigns full u x) :
    (s.translate full p).2.store = (u.value u.height s.store).2 ∧
    ∀ store, (u.value u.height store).1 = (u.value u.height s.store).1 →
      (s.withStore store).translate full p =
        (s.translate full p).map id (·.withStore (u.value u.height store).2) := by
  obtain ⟨s₁,hn₁,hstore,htranslate⟩ := translate_of_assigns hn hp h
  have hroom : s₁.nesting.walkingRoom u = u.height := by
    rw [hn₁]
    rfl
  have hself := htranslate s.store
  have hexecute := execute_store s₁ p u
  rw [hroom,hstore] at hexecute
  rw [show s.withStore s.store = s from rfl,show s₁.withStore s.store = s₁ by rw [← hstore]; rfl]
    at hself
  rw [hself]
  constructor
  · cases he : s₁.execute p u with
    | mk r s₂ =>
      rw [he] at hexecute
      cases r with
      | ok v => exact hexecute
      | error f => cases f <;> exact hexecute
  · intro store hvalue
    rw [← hstore,← hroom] at hvalue
    have hneeds : s₁.nesting.walkingNeeds.raising = 0 := by rw [hn₁]; rfl
    rw [htranslate store,execute_withStore s₁ store p hneeds hvalue,hroom]
    cases s₁.execute p u with
    | mk r s₂ =>
      cases r with
      | ok v => rfl
      | error f => exact giveUp_withStore s₂ _ .evaluating f

end

/-- Translating a program in `s` says `b`, prints `out`, adds the lines of code `lines`, traces
`traces`, and leads to `s'` with nothing left waiting. -/
structure Gives (s : Session) (full : Bool) (p : Source) (b : Bool) (out lines : Text)
    (traces : List Trace) (s' : Session) : Prop where
  result : s.translate full p = (.ok b,s')
  printed : s'.console.printed = s.console.printed ++ out
  code : s'.code = s.code ++ lines
  traced : s'.traces = s.traces ++ traces
  idle : s'.console.Idle

section
variable {s s' : Session} {full : Bool} {p : Source} {u : Tree} {x : Text}

theorem renewed_eq_withStore (hn : s'.nesting = s.nesting) (hd : s'.debug = s.debug) :
    s'.renewed = s.renewed.withStore s'.store := by
  simp [renewed,withStore,hn,hd]

theorem idle_of_assigns (hn : s.nesting = .unlimited) (hs : s.console.Idle)
    (h : p.Assigns full u x) : (s.translate full p).2.console.Idle := by
  obtain ⟨t,ht,-,-⟩ := h
  obtain ⟨b,s',htranslate,hadds⟩ := translate_adds full p hs.worded
  have hwarnings := translate_warnings (s := s) full p
  have hreading : (p.reading full s.nesting {}).1 ≠ .error .tooDeep := by
    rw [hn,ht]
    simp
  rw [Source.waiting_of_reading hreading] at hwarnings
  rw [htranslate] at hwarnings ⊢
  exact ⟨hwarnings,hadds.problems hn hs.problems⟩

/-- What a program gives depends on the value of its statement alone. -/
theorem exists_gives (hn : s.nesting = .unlimited) (h : p.Assigns full u x) :
    ∃ b out lines traces, ∀ s' : Session, s'.nesting = s.nesting → s'.debug = s.debug →
      s'.console.Idle → (u.value u.height s'.store).1 = (u.value u.height s.store).1 →
      ∃ s'', s'.Gives full p b out lines traces s'' ∧ s''.nesting = s.nesting ∧
        s''.debug = s.debug ∧ s''.store = s'.store.putOk x (u.value u.height s.store).1 := by
  have hrenewed : s.renewed.console.Worded := Console.worded_of_problems rfl
  obtain ⟨b,r,hr,-⟩ := translate_adds full p hrenewed
  refine ⟨b,r.console.printed,r.code,r.traces,?_⟩
  intro s' hnesting hdebug hidle hvalue
  have hstore := (translate_withStore (s := s.renewed) hn rfl h).2 s'.store hvalue
  have htranslate := translate_after s' full p
  rw [quiet_of_idle hidle,renewed_eq_withStore hnesting hdebug,hstore,hr] at htranslate
  have hend := idle_of_assigns (hnesting.trans hn) hidle h
  have hdebugging := s'.translate_debug full p
  obtain ⟨b',s'',htranslate',hadds⟩ := translate_adds full p hidle.worded
  have hafter := (translate_withStore (hnesting.trans hn) hidle.problems h).1
  have hcanonical := canonical_of_assigns h
  obtain ⟨t,-,-,hx⟩ := h
  rw [hcanonical.value_snd hx,hvalue] at hafter
  rw [htranslate'] at htranslate hend hdebugging hafter
  obtain ⟨hb,hs''⟩ := Prod.mk.inj htranslate
  obtain rfl : b' = b := Except.ok.inj hb
  refine ⟨s'',⟨htranslate',?_,?_,?_,hend⟩,hadds.nesting.trans hnesting,hdebugging.trans hdebug,
    hafter⟩
  · rw [hs'']
    rfl
  · rw [hs'']
    rfl
  · rw [hs'']
    rfl

/-- A statement that assigns a variable it does not read, translated once more, changes nothing. Two
programs of which neither assigns what the other one reads or assigns give the same in either order:
each says, prints and generates the same, and every variable has the same value in the end. -/
theorem independent_programs_commute (s : Session) (hn : s.nesting = .unlimited)
    (hs : s.console.Idle) (full : Bool) (p : Source) (u : Tree) (x : Text)
    (hp : p.Assigns full u x) :
    ((∀ r ∈ u.reads, r.2 ≠ x) → ∃ b out lines traces s₁ s₂,
      s.Gives full p b out lines traces s₁ ∧ s₁.Gives full p b out lines traces s₂ ∧
        s₂.store = s₁.store) ∧
    ∀ (full' : Bool) (q : Source) (u' : Tree) (y : Text), q.Assigns full' u' y → x ≠ y →
      (∀ r ∈ u.reads, r.2 ≠ y) → (∀ r ∈ u'.reads, r.2 ≠ x) →
      ∃ b out lines traces b' out' lines' traces' s₁ s₂ s₁' s₂',
        s.Gives full p b out lines traces s₁ ∧ s₁.Gives full' q b' out' lines' traces' s₂ ∧
        s.Gives full' q b' out' lines' traces' s₁' ∧ s₁'.Gives full p b out lines traces s₂' ∧
        (∀ c, (u.evaluate .unlimited p s₁'.store c).1 = (u.evaluate .unlimited p s.store c).1) ∧
        (∀ c, (u'.evaluate .unlimited q s₁.store c).1 = (u'.evaluate .unlimited q s.store c).1) ∧
        (∀ z, s₂.store.get? z = s₂'.store.get? z) ∧
        s₂.store.names.Perm s₂'.store.names := by
  obtain ⟨b,out,lines,traces,hgives⟩ := exists_gives hn hp
  obtain ⟨s₁,h₁,hn₁,hd₁,hstore₁⟩ := hgives s rfl rfl hs rfl
  constructor
  · intro hreads
    have hagree := Store.agreesOn_putOk s.store (u.value u.height s.store).1 x
    rw [← hstore₁] at hagree
    have hvalue := Tree.value_fst_of_agreesOn hreads u.height hagree
    obtain ⟨s₂,h₂,-,-,hstore₂⟩ := hgives s₁ hn₁ hd₁ h₁.idle hvalue
    refine ⟨b,out,lines,traces,s₁,s₂,h₁,h₂,?_⟩
    rw [hstore₂,hstore₁,Store.putOk_putOk]
  · intro full' q u' y hq hxy hreads hreads'
    obtain ⟨b',out',lines',traces',hgives'⟩ := exists_gives hn hq
    obtain ⟨s₁',h₁',hn₁',hd₁',hstore₁'⟩ := hgives' s rfl rfl hs rfl
    have hagree := Store.agreesOn_putOk s.store (u.value u.height s.store).1 x
    have hagree' := Store.agreesOn_putOk s.store (u'.value u'.height s.store).1 y
    rw [← hstore₁] at hagree
    rw [← hstore₁'] at hagree'
    have hvalue := Tree.value_fst_of_agreesOn hreads u.height hagree'
    have hvalue' := Tree.value_fst_of_agreesOn hreads' u'.height hagree
    obtain ⟨s₂,h₂,-,-,hstore₂⟩ := hgives' s₁ hn₁ hd₁ h₁.idle hvalue'
    obtain ⟨s₂',h₂',-,-,hstore₂'⟩ := hgives s₁' hn₁' hd₁' h₁'.idle hvalue
    rw [hstore₁] at hstore₂
    rw [hstore₁'] at hstore₂'
    refine ⟨b,out,lines,traces,b',out',lines',traces',s₁,s₂,s₁',s₂',h₁,h₂,h₁',h₂',?_,?_,?_,?_⟩
    · intro c
      rw [Tree.evaluate_congr p c rfl hvalue]
    · intro c
      rw [Tree.evaluate_congr q c rfl hvalue']
    · intro z
      rw [hstore₂,hstore₂',Store.get?_putOk_comm s.store _ _ hxy]
    · rw [hstore₂,hstore₂']
      exact Store.names_putOk_comm s.store _ _ hxy

theorem assigns_of_reading {t : Tree} (h : (p.reading false .unlimited {}).1 = .ok t)
    (hx : t.target? = some x) : p.Assigns false t x := by
  have hcanonical : t.Canonical (.ofReading false) := Source.canonical_of_reading h
  exact ⟨t,h,hcanonical.statements_of_bare rfl,hx⟩

/-- The second program fails, as nothing was assigned to `b`. -/
theorem independent_programs_commute_failing :
    ∃ (s : Session) (p q : Source), p.text = "x=x+a;".toList ∧ q.text = "y=b;".toList ∧
      s.nesting = .unlimited ∧ s.console.Idle ∧ ∃ u u', p.Assigns false u ['x'] ∧
        q.Assigns false u' ['y'] ∧ (∀ r ∈ u.reads, r.2 ≠ ['y']) ∧ (∀ r ∈ u'.reads, r.2 ≠ ['x']) ∧
        ∃ b s₁ s₂ s₁' s₂', s.translate false p = (.ok b,s₁) ∧
          s₁.translate false q = (.ok false,s₂) ∧ s.translate false q = (.ok false,s₁') ∧
          s₁'.translate false p = (.ok b,s₂') ∧ ∀ z, s₂.store.get? z = s₂'.store.get? z := by
  let s : Session := {nesting := .unlimited,store := ⟨[(['x'],1.0),(['a'],2.0)]⟩}
  let p : Source := ⟨"x=x+a;".toList,0⟩
  let q : Source := ⟨"y=b;".toList,1⟩
  have hfails : (s.translate false q).1.toOption = some false := by decide +kernel
  have hp : ((p.reading false .unlimited {}).1.map fun t => (t.target?,t.reads)).toOption =
      some (some ['x'],[(⟨2,3⟩,['x']),(⟨4,5⟩,['a'])]) := by decide +kernel
  have hq : ((q.reading false .unlimited {}).1.map fun t => (t.target?,t.reads)).toOption =
      some (some ['y'],[(⟨2,3⟩,['b'])]) := by decide +kernel
  cases hu : (p.reading false .unlimited {}).1 with
  | error f =>
    rw [hu] at hp
    cases hp
  | ok u =>
    cases hu' : (q.reading false .unlimited {}).1 with
    | error f =>
      rw [hu'] at hq
      cases hq
    | ok u' =>
      rw [hu] at hp
      rw [hu'] at hq
      simp only [Except.map,Except.toOption,Option.some.injEq,Prod.mk.injEq] at hp hq
      have hpu := assigns_of_reading hu hp.1
      have hqu := assigns_of_reading hu' hq.1
      have hreads : ∀ r ∈ u.reads, r.2 ≠ ['y'] := by simp [hp.2]
      have hreads' : ∀ r ∈ u'.reads, r.2 ≠ ['x'] := by simp [hq.2]
      obtain ⟨b,_,_,_,b',_,_,_,s₁,s₂,s₁',s₂',h₁,h₂,h₁',h₂',-,-,hstores,-⟩ :=
        (independent_programs_commute s rfl ⟨rfl,rfl⟩ false p u ['x'] hpu).2 false q u' ['y'] hqu
          (by decide) hreads hreads'
      rw [h₁'.result] at hfails
      have hb : b' = false := Option.some.inj hfails
      rw [hb] at h₂ h₁'
      exact ⟨s,p,q,rfl,rfl,rfl,⟨rfl,rfl⟩,u,u',hpu,hqu,hreads,hreads',b,s₁,s₂,s₁',s₂',
        h₁.result,h₂.result,h₁'.result,h₂'.result,hstores⟩

end

end Session
end AssignLang
