import AssignLang.Proofs.Session.Likeness
import AssignLang.Proofs.Slice

namespace AssignLang

open Grammar

namespace Session

section
variable {s r : Session}

/-- A program none of which is executed shows in nothing but what is printed and traced, and in what
waits. -/
theorem matches_of_executed_nil {full : Bool} {source : Source} (hp : s.console.Worded)
    (h : s.executed full source = []) : s.Matches (s.translate full source).2 := by
  obtain ⟨b,s',htranslate,hadds⟩ := translate_adds full source hp
  have hsettings := translate_settings s full source
  rw [htranslate] at hsettings ⊢
  rw [h] at hadds
  exact ⟨hsettings,hadds.store_of_nil,hadds.code_of_nil⟩

/-- The programs of a batch that nothing is wrong with. -/
def translated : List Text → Session → List Text
  | [], _ => []
  | p :: ps, s =>
    match s.translate false {text := p} with
    | (.ok true,s) => p :: translated ps s
    | (_,s) => translated ps s

/-- The others are counted. -/
theorem translateAll_count (ps : List Text) (hp : s.console.Worded) :
    ∃ n s', s.translateAll ps = (.ok n,s') ∧ n+(s.translated ps).length = ps.length := by
  induction ps generalizing s with
  | nil => exact ⟨0,s,rfl,rfl⟩
  | cons p ps ih =>
    obtain ⟨b,s₁,htranslate,hadds⟩ := translate_adds false {text := p} hp
    obtain ⟨n,s',hall,hlength⟩ := ih hadds.worded
    refine ⟨if b then n else n+1,s',?_,?_⟩
    · rw [translateAll,htranslate]
      simp only [hall]
      rfl
    · rw [translated,htranslate]
      cases b with
      | true =>
        simp only [if_true,List.length_cons]
        omega
      | false =>
        simp only [Bool.false_eq_true,if_false,List.length_cons]
        omega

/-- The other programs might as well have been left out, unless a statement of theirs was evaluated
and not written. -/
theorem translateAll_translated (ps : List Text) (h : s.Matches r) (hs : s.console.Worded)
    (hr : r.console.problems = []) (hw : ∀ t ∈ s.executedAll ps, s.nesting.writes t) :
    ∃ r', r.translateAll (s.translated ps) = (.ok 0,r') ∧ (s.translateAll ps).2.Matches r' := by
  induction ps generalizing s r with
  | nil => exact ⟨r,rfl,h⟩
  | cons p ps ih =>
    obtain ⟨s₁,hpasses,hadds,-⟩ := translate_passes false {text := p} hs
    have hbehind : (s.translateAll (p :: ps)).2 = (s₁.translateAll ps).2 := by
      rw [translateAll,hpasses]
    rw [executedAll,List.forall_mem_append,hpasses] at hw
    obtain ⟨hfirst,hrest⟩ := hw
    rw [← hadds.nesting] at hrest
    rw [hbehind,translated,hpasses]
    cases hb : s.passes false {text := p} with
    | true =>
      -- nothing waited, so that the program does the same in both sessions
      rw [hb] at hpasses
      have hwaiting : s.console.problems = [] := by
        obtain ⟨t,ht,-⟩ := exists_of_passes hb
        exact (Source.treeOf_of_reading (reading_of_read_fst ht).1).1
      have halike : s.Alike r := ⟨h,hr.trans hwaiting.symm⟩
      obtain ⟨b,s₂,r₁,hs₂,hr₁,hsame⟩ := (halike.translate false {text := p}).exists_eq
      obtain ⟨rfl,rfl⟩ := Prod.mk.inj (hpasses.symm.trans hs₂)
      have hidle := idle_of_translate hpasses
      obtain ⟨r',hall,hend⟩ := ih hsame.toMatches hadds.worded
        (hsame.problems.trans hidle.problems) hrest
      refine ⟨r',?_,hend⟩
      rw [translateAll,hr₁]
      simp only [hall]
      rfl
    | false =>
      have hnone : s.executed false {text := p} = [] := by
        rcases executed_of_not_passes hb with hnone | ⟨u,x,store,hone,-,hwrites,-,-⟩
        · exact hnone
        · rw [hone] at hfirst
          rw [hfirst u List.mem_cons_self] at hwrites
          cases hwrites
      have hsame := matches_of_executed_nil hs hnone
      rw [hpasses] at hsame
      exact ih (hsame.symm.trans h) hadds.worded hr hrest

end

section
variable {s : Session} {source : Source} {t : Tree}

/-- A statement of a program that was read is also read by itself. -/
theorem read_textOf (h : (s.read true source).1 = .ok t) {u : Tree} (hu : u ∈ t.statements) :
    ∃ u' : Tree, u'.bare = u.bare ∧ ∀ r : Session, r.nesting = s.nesting → r.debug = s.debug →
      r.console.problems = [] → (r.read false {text := source.textOf u}).1 = .ok u' := by
  obtain ⟨hreading,hroom⟩ := reading_of_read_fst h
  obtain ⟨u',hbare,hu'⟩ := Source.reading_slice hreading hu 0
  refine ⟨u',hbare,?_⟩
  intro r hn hd hp
  apply read_fst_of_reading
  · rw [hn]
    exact hu' r.console hp
  · intro hdebug
    rw [hd] at hdebug
    rw [hn,Nesting.walkingRoom_of_bare _ hbare,Tree.height_of_bare hbare]
    exact Nesting.height_le_walkingRoom (Tree.height_le_of_mem_statements hu) (hroom hdebug)

/-- A statement of a program has the same effect by itself. -/
theorem translate_textOf (h : (s.read true source).1 = .ok t) {u : Tree} (hu : u ∈ t.statements)
    (hcanonical : u.Canonical .statement)
    (hroom : u.height ≤ s.nesting.walkingRoom u ∧ s.nesting.writes u)
    {r : Session} (hn : r.nesting = s.nesting) (hd : r.debug = s.debug)
    (hp : r.console.problems = []) {store : Store} (hruns : Tree.Runs [u] r.store store) :
    ∃ r', r.translate false {text := source.textOf u} = (.ok true,r') ∧ r'.debug = r.debug ∧
      r.Adds [u] r' := by
  obtain ⟨u',hbare,hread⟩ := read_textOf h hu
  have hu' := hread r hn hd hp
  have hstatements := hcanonical.statements_of_bare hbare
  have hown : Tree.Runs [u'] r.store store :=
    hruns.of_bareAll (congrArg (fun b => [b]) hbare.symm)
  have hexecuted : r.executed false {text := source.textOf u} = [u'] := by
    rw [executed,hu']
    simp only [hstatements]
    apply hown.evaluable
    intro v hv
    obtain rfl := List.mem_singleton.1 hv
    rw [hn,Nesting.walkingRoom_of_bare _ hbare,Tree.height_of_bare hbare,
      Nesting.writes_of_bare _ hbare]
    exact hroom
  have hpasses : r.passes false {text := source.textOf u} = true := by
    rw [passes,hexecuted,hu']
    simp [hstatements,hn,Nesting.writes_of_bare _ hbare,hroom.2]
  obtain ⟨r',htranslate,hadds,hdebug⟩ :=
    translate_passes false {text := source.textOf u} (Console.worded_of_problems hp)
  rw [hpasses] at htranslate
  rw [hexecuted] at hadds
  exact ⟨r',htranslate,hdebug,
    hadds.of_bareAll (congrArg (fun b => [b]) hbare) (by simpa using hcanonical)⟩

/-- Statements that were run in one program can be translated one by one. -/
theorem translateAll_textOf (h : (s.read true source).1 = .ok t) {ts : List Tree}
    (hts : ∀ u ∈ ts, u ∈ t.statements ∧ u.Canonical .statement ∧
      u.height ≤ s.nesting.walkingRoom u ∧ s.nesting.writes u)
    {r : Session} (hn : r.nesting = s.nesting) (hd : r.debug = s.debug)
    (hp : r.console.problems = []) {store : Store} (hruns : Tree.Runs ts r.store store) :
    ∃ r', r.translateAll (ts.map source.textOf) = (.ok 0,r') ∧ r.Adds ts r' := by
  induction ts generalizing r with
  | nil => exact ⟨r,rfl,adds_nil rfl (Console.worded_of_problems hp) rfl rfl rfl⟩
  | cons u us ih =>
    obtain ⟨⟨hmem,hcanonical,hroom⟩,hus⟩ := List.forall_mem_cons.1 hts
    cases hruns with
    | @cons _ _ _ s₁ _ x hv hrest =>
      have hone : Tree.Runs [u] r.store s₁ := .cons hv .nil
      obtain ⟨r₁,htranslate,hdebug,hadds⟩ :=
        translate_textOf h hmem hcanonical hroom hn hd hp hone
      obtain rfl := hone.unique hadds.runs
      obtain ⟨r₂,hall,hadds₂⟩ := ih hus (hadds.nesting.trans hn) (hdebug.trans hd)
        (idle_of_translate htranslate).problems hrest
      refine ⟨r₂,?_,hadds.append hadds₂⟩
      rw [List.map_cons,translateAll,htranslate]
      simp only [hall]
      rfl

theorem read_of_not_derived
    (h : ¬ ∃ ds : List Statement, ds.flatMap Statement.tokens = source.standardTokens) :
    ∃ f, (s.read true source).1 = .error f := by
  cases hread : (s.read true source).1 with
  | error f => exact ⟨f,rfl⟩
  | ok t =>
    obtain ⟨ds,hds,-⟩ := Source.exists_of_block (reading_of_read_fst hread).1
    exact absurd ⟨ds,hds⟩ h

/-- A program that was read and did not pass has the effect of the statements in front of the one
that has no value, or is too deep to be written. The value of that one is stored nevertheless. -/
theorem translate_of_not_passes (h : (s.read true source).1 = .ok t)
    (hpasses : s.passes true source = false) :
    ∃ s' before u after s'', s.translate true source = (.ok false,s') ∧
      t.statements = before ++ u :: after ∧
      s.translateAll (before.map source.textOf) = (.ok 0,s'') ∧ s'.code = s''.code ∧
      ((∃ e, u.value (s.nesting.walkingRoom u) s''.store = (.error e,s''.store) ∧
          s'.store = s''.store) ∨
        ∃ x, s.nesting.writes u = false ∧
          u.value (s.nesting.walkingRoom u) s''.store = (.ok x,s'.store)) := by
  have hp := (Source.treeOf_of_reading (reading_of_read_fst h).1).1
  obtain ⟨s',htranslate,hadds,-⟩ := translate_passes true source (Console.worded_of_problems hp)
  have hcanonical := Source.canonical_of_reading (reading_of_read_fst h).1
  rw [hpasses] at htranslate
  rw [passes,h] at hpasses
  have hexecuted : s.executed true source = Tree.evaluable s.nesting t.statements s.store := by
    rw [executed,h]
  rw [hexecuted] at hadds hpasses
  rcases Tree.evaluable_cases s.nesting (fun u hu => hcanonical.of_mem_statements hu) s.store with
    ⟨hall,hwrites⟩ | ⟨before,u,after,store,hsplit,hroom,hruns,hend⟩
  · rw [hall] at hpasses
    exact absurd ⟨rfl,hwrites⟩ (of_decide_eq_false hpasses)
  · have hmem : ∀ v ∈ before, v ∈ t.statements := by
      intro v hv
      rw [hsplit]
      exact List.mem_append_left _ hv
    obtain ⟨s'',hall,hadds'⟩ := translateAll_textOf h
      (fun v hv => ⟨hmem v hv,hcanonical.of_mem_statements (hmem v hv),hroom v hv⟩) rfl rfl hp hruns
    obtain rfl := hruns.unique hadds'.runs
    refine ⟨s',before,u,after,s'',htranslate,hsplit,hall,?_⟩
    rw [hadds.code,hadds'.code]
    rcases hend with ⟨e,hbefore,hu⟩ | ⟨x,store,hthrough,hwrites,hu,hheight⟩
    · rw [hbefore] at hadds ⊢
      exact ⟨rfl,.inl ⟨e,hu,hadds'.runs.unique hadds.runs⟩⟩
    · rw [hthrough] at hadds ⊢
      have hstore : s'.store = store :=
        (hadds'.runs.append (.cons hheight .nil)).unique hadds.runs
      refine ⟨?_,.inr ⟨x,hwrites,?_⟩⟩
      · rw [List.filter_append,List.filter_cons_of_neg (by simp [hwrites]),List.filter_nil,
          List.append_nil]
      · rw [hstore,hu]

/-- As long as no problem waits, the programs of a batch with something wrong in them are counted,
and the others have the effect they would have without these, unless a statement was evaluated and
was too deep to be written. Such a statement keeps its value in the store, which is all that a
failing program leaves behind. One that is translated as a whole leaves what the statements in front
of the failing one leave by themselves, and nothing if it cannot be read. -/
theorem failures_leave_nothing_behind (s : Session) (hp : s.console.problems = []) :
    (s.nesting = .unlimited → ∀ t, s.nesting.writes t) ∧
    (∀ ps, ∃ n s', s.translateAll ps = (.ok n,s') ∧ n+(s.translated ps).length = ps.length ∧
      ((∀ t ∈ s.executedAll ps, s.nesting.writes t) →
        ∃ s'', s.translateAll (s.translated ps) = (.ok 0,s'') ∧ s'.store = s''.store ∧
          s'.code = s''.code)) ∧
    (∀ source, ∃ b s', s.translate false source = (.ok b,s') ∧
      (b = false → s'.code = s.code ∧ (s'.store = s.store ∨
        ∃ t x, (s.read false source).1 = .ok t ∧ s.nesting.writes t = false ∧
          t.value (s.nesting.walkingRoom t) s.store = (.ok x,s'.store)))) ∧
    ∀ source, ∃ b s', s.translate true source = (.ok b,s') ∧
      ((¬ ∃ ds : List Statement, ds.flatMap Statement.tokens = source.standardTokens) →
        ∃ f, (s.read true source).1 = .error f) ∧
      (∀ f, (s.read true source).1 = .error f →
        b = false ∧ s'.store = s.store ∧ s'.code = s.code) ∧
      ∀ t, (s.read true source).1 = .ok t → b = false → ∃ before u after s'',
        t.statements = before ++ u :: after ∧
        s.translateAll (before.map source.textOf) = (.ok 0,s'') ∧ s'.code = s''.code ∧
        ((∃ e, u.value (s.nesting.walkingRoom u) s''.store = (.error e,s''.store) ∧
            s'.store = s''.store) ∨
          ∃ x, s.nesting.writes u = false ∧
            u.value (s.nesting.walkingRoom u) s''.store = (.ok x,s'.store)) := by
  have hworded := Console.worded_of_problems hp
  refine ⟨?_,?_,?_,?_⟩
  · intro hn t
    rw [hn]
    exact Nesting.writes_unlimited t
  · intro ps
    obtain ⟨n,s',hall,hlength⟩ := translateAll_count ps hworded
    refine ⟨n,s',hall,hlength,?_⟩
    intro hw
    obtain ⟨s'',hothers,hmatches⟩ := translateAll_translated ps (Matches.refl s) hworded hp hw
    rw [hall] at hmatches
    exact ⟨s'',hothers,hmatches.store.symm,hmatches.code.symm⟩
  · intro source
    obtain ⟨s',htranslate,hadds,-⟩ := translate_passes false source hworded
    refine ⟨_,s',htranslate,?_⟩
    intro hpasses
    rcases executed_of_not_passes hpasses with hnone | ⟨u,x,store,hone,hread,hwrites,hu,hruns⟩
    · rw [hnone] at hadds
      exact ⟨hadds.code_of_nil,.inl hadds.store_of_nil⟩
    · rw [hone] at hadds
      refine ⟨?_,.inr ⟨u,x,hread,hwrites,?_⟩⟩
      · rw [hadds.code,List.filter_cons_of_neg (by simp [hwrites])]
        simp
      · rw [hu,hruns.unique hadds.runs]
  · intro source
    obtain ⟨s',htranslate,hadds,-⟩ := translate_passes true source hworded
    refine ⟨_,s',htranslate,read_of_not_derived,?_,?_⟩
    · intro f hf
      have hexecuted : s.executed true source = [] := by rw [executed,hf]
      rw [hexecuted] at hadds
      exact ⟨by rw [passes,hf],hadds.store_of_nil,hadds.code_of_nil⟩
    · intro t ht hpasses
      obtain ⟨s₁,before,u,after,s'',hfalse,hrest⟩ := translate_of_not_passes ht hpasses
      rw [htranslate] at hfalse
      obtain ⟨-,rfl⟩ := Prod.mk.inj hfalse
      exact ⟨before,u,after,s'',hrest⟩

/-- The second program uses a variable that has no value, and the third one ends too early. -/
theorem failures_leave_nothing_behind_two :
    Console.problems ({} : Session).console = [] ∧ ∃ s' s'',
      ({} : Session).translateAll
        ["x=1;".toList,"y=z;".toList,"x=(;".toList,"y=x+1;".toList] = (.ok 2,s') ∧
      ({} : Session).translateAll ["x=1;".toList,"y=x+1;".toList] = (.ok 0,s'') ∧
      s'.store = s''.store ∧ s'.code = s''.code := by
  have htranslated : ({} : Session).translated
      ["x=1;".toList,"y=z;".toList,"x=(;".toList,"y=x+1;".toList] =
      ["x=1;".toList,"y=x+1;".toList] := by decide +kernel
  have hwrites : ∀ t ∈ ({} : Session).executedAll
      ["x=1;".toList,"y=z;".toList,"x=(;".toList,"y=x+1;".toList],
      Nesting.standard.writes t := by decide +kernel
  obtain ⟨-,hbatch,-⟩ := failures_leave_nothing_behind {} rfl
  obtain ⟨n,s',hall,hlength,hothers⟩ :=
    hbatch ["x=1;".toList,"y=z;".toList,"x=(;".toList,"y=x+1;".toList]
  obtain ⟨s'',hothers,hstore,hcode⟩ := hothers hwrites
  rw [htranslated] at hothers hlength
  obtain rfl : n = 2 := Nat.add_right_cancel hlength
  exact ⟨rfl,s',s'',hall,hothers,hstore,hcode⟩

/-- With less room for writing than for evaluating, a program fails and its variable has a value. -/
example :
    let (r,s) := ({nesting := {walking := some 3,writing := some 2}} : Session).translate false
      {text := "x=1+1;".toList}
    (r.toOption,s.store.names,s.code) = (some false,["x".toList],[]) := by decide +kernel

end

end Session
end AssignLang
