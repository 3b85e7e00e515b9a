import AssignLang.Proofs.Grammar.Shift
import AssignLang.Proofs.Session.Batch

namespace AssignLang

open Grammar

namespace Nesting

theorem readingRoom_mono (n : Nesting) {k l : Nat} (h : k ≤ l) :
    n.readingRoom k ≤ n.readingRoom l := by
  unfold readingRoom
  cases n.reading with
  | none => exact ample_mono h
  | some limit => exact Nat.le_refl _

end Nesting

namespace Grammar

/-- Reading statements takes room enough for the value of each. -/
theorem depth_le_of_statements {ds : List Statement} {room n : Nat}
    (hn : (ds.flatMap Statement.tokens).length ≤ n) {p : List Tree × List Token}
    (h : statements room n (ds.flatMap Statement.tokens) = .ok p) :
    ∀ d ∈ ds, d.value.depth ≤ room := by
  induction ds generalizing n p with
  | nil => simp
  | cons d ds ih =>
    rw [List.flatMap_cons,List.length_append] at hn
    have hpos := List.length_pos_iff.2 d.tokens_ne_nil
    cases n with
    | zero => omega
    | succ n =>
      have hk : d.target.kind ≠ .eof := by simp [d.isName]
      rw [List.flatMap_cons] at h
      change (if d.target.kind = .eof then _ else _) = _ at h
      rw [if_neg hk] at h
      obtain ⟨⟨t,us⟩,h₁,h⟩ := exists_of_bind h
      obtain ⟨⟨ss,vs⟩,h₂,-⟩ := exists_of_bind h
      have hd : d.value.depth ≤ room := depth_of_statement d h₁
      have hread := statement_of_depth d (r := ds.flatMap Statement.tokens) hd
      obtain ⟨-,rfl⟩ := Prod.mk.inj (Except.ok.inj (hread.symm.trans h₁))
      exact List.forall_mem_cons.2 ⟨hd,ih (by omega) h₂⟩

end Grammar

namespace Source

variable {p q r : Source} {nesting : Nesting} {c : Console}

theorem tokens_eq (s : Source) (hc : c.problems = []) : s.tokens .standard c =
    (.ok s.standardTokens,(c.warnIllegal s (Stream.ofText .standard s.text).illegals).flush) := by
  rw [tokens,Console.report_of_problems (by rw [Console.problems_warnIllegal,hc])]
  rfl

theorem within_of_mem_standardTokens {s : Source} {t : Token} (h : t ∈ s.standardTokens) :
    t.span.Within 0 s.text.length := by
  obtain ⟨i,j,hspan,-,hj,-⟩ := exists_span_of_mem h
  rw [hspan]
  exact ⟨Int.natCast_nonneg i,Int.natCast_nonneg i,Int.ofNat_le.2 hj⟩

/-- A block that is read consists of statements for each of which there is room. -/
theorem derivation_of_block {t : Tree} (h : (p.block .standard nesting c).1 = .ok t) :
    ∃ ds : List Statement, ds.flatMap Statement.tokens = p.standardTokens ∧
      t.statements = ds.map Statement.tree ∧
      ∀ d ∈ ds, d.value.depth ≤ nesting.readingRoom p.standardTokens.length := by
  obtain ⟨body,hbody,rfl⟩ := statements_of_block h
  obtain ⟨-,ds,hds,rfl⟩ := exists_of_statements (fun t ht => kind_ne_eof ht) (Nat.le_refl _) hbody
  refine ⟨ds,hds.symm,rfl,?_⟩
  have hlength : (ds.flatMap Statement.tokens).length ≤ p.standardTokens.length :=
    Nat.le_of_eq (congrArg List.length hds.symm)
  have hread : statements (nesting.readingRoom p.standardTokens.length) p.standardTokens.length
      (ds.flatMap Statement.tokens) = .ok (ds.map Statement.tree,[]) := by rw [← hds,hbody]
  exact depth_le_of_statements hlength hread

/-- What is read of a whole program is a block. -/
theorem exists_of_isOk {s : Source} (h : (s.block .standard nesting c).1.isOk) :
    ∃ span ts, (s.block .standard nesting c).1 = .ok (.block span ts) := by
  cases ht : (s.block .standard nesting c).1 with
  | error f =>
    rw [ht] at h
    cases h
  | ok t =>
    obtain ⟨body,-,rfl⟩ := statements_of_block ht
    exact ⟨_,body,rfl⟩

/-- Two programs that can be read can be read as one, and the second one is behind the first. -/
theorem block_concat (h : r.text = p.text ++ '\n' :: q.text) (hc : c.problems = []) {t u : Tree}
    (ht : (p.block .standard nesting c).1 = .ok t) (hu : (q.block .standard nesting c).1 = .ok u) :
    ∃ span, (r.block .standard nesting c).1 =
      .ok (.block span (t.statements ++ u.statements.map (Tree.shift p.past))) := by
  obtain ⟨ds,hds,hts,hdroom⟩ := derivation_of_block ht
  obtain ⟨es,hes,hus,heroom⟩ := derivation_of_block hu
  have htokens : (ds ++ es.map (Statement.shift p.past)).flatMap Statement.tokens =
      r.standardTokens := by
    rw [List.flatMap_append,flatMap_tokens_shift,hds,hes,standardTokens_concat h]
  have htrees : (ds ++ es.map (Statement.shift p.past)).map Statement.tree =
      t.statements ++ u.statements.map (Tree.shift p.past) := by
    have hwithin : ∀ x ∈ es.flatMap Statement.tokens, x.span.Within 0 q.text.length := by
      rw [hes]
      exact fun x hx => within_of_mem_standardTokens hx
    rw [List.map_append,map_tree_shift _ es hwithin,hts,hus]
  have hlength : r.standardTokens.length =
      p.standardTokens.length+q.standardTokens.length := by
    rw [standardTokens_concat h,List.length_append,List.length_map]
  have hroom : ∀ d ∈ ds ++ es.map (Statement.shift p.past),
      d.value.depth ≤ nesting.readingRoom r.standardTokens.length := by
    rw [hlength,List.forall_mem_append,List.forall_mem_map]
    constructor
    · intro d hd
      exact Nat.le_trans (hdroom d hd) (nesting.readingRoom_mono (Nat.le_add_right _ _))
    · intro e he
      have hdepth : (e.shift p.past).value.depth = e.value.depth := e.value.depth_shift p.past
      rw [hdepth]
      exact Nat.le_trans (heroom e he) (nesting.readingRoom_mono (Nat.le_add_left _ _))
  have hread := statements_of_depth _ hroom (Nat.le_of_eq (congrArg List.length htokens))
  rw [htokens,htrees] at hread
  exact ⟨_,congrArg Prod.fst (block_of_statements hc hread)⟩

end Source

namespace Tree

section
variable {nesting : Nesting}

theorem value_eq_of_bare {t u : Tree} (h : t.bare = u.bare) {room : Nat} {s s' : Store} {x : Float}
    (hv : t.value room s = (.ok x,s')) : u.value room s = (.ok x,s') := by
  have ht := value_bare t room s
  rw [h,value_bare,hv] at ht
  exact bareResult_eq_ok ht

/-- What has a value does not depend on places. -/
theorem evaluable_of_bareAll (nesting : Nesting) {ts us : List Tree}
    (h : bareAll ts = bareAll us) (s : Store) :
    bareAll (evaluable nesting ts s) = bareAll (evaluable nesting us s) := by
  induction ts generalizing us s with
  | nil =>
    cases us with
    | nil => rfl
    | cons u us => cases h
  | cons t ts ih =>
    cases us with
    | nil => cases h
    | cons u us =>
      obtain ⟨hu,hus⟩ := List.cons.inj h
      have hroom := nesting.walkingRoom_of_bare hu
      rw [evaluable,evaluable,← hroom]
      cases ht : t.value (nesting.walkingRoom t) s with
      | mk x s₁ =>
        cases x with
        | ok x =>
          rw [value_eq_of_bare hu ht]
          simp only [bareAll,hu,nesting.writes_of_bare hu]
          split
          · rw [ih hus s₁]
          · rfl
        | error e =>
          cases hv : u.value (nesting.walkingRoom t) s with
          | mk y s₂ =>
            cases y with
            | error e => rfl
            | ok y =>
              rw [value_eq_of_bare hu.symm hv] at ht
              cases ht

/-- Statements that have values and are written leave the others to be evaluated. -/
theorem evaluable_append {ts : List Tree} (hts : ∀ t ∈ ts, t.Canonical .statement) {s : Store}
    (h : (evaluable nesting ts s).length = ts.length) (hw : ∀ t ∈ ts, nesting.writes t) :
    ∃ s', Runs ts s s' ∧
      ∀ us, evaluable nesting (ts ++ us) s = ts ++ evaluable nesting us s' := by
  induction ts generalizing s with
  | nil => exact ⟨s,.nil,fun us => rfl⟩
  | cons t ts ih =>
    obtain ⟨ht,hts⟩ := List.forall_mem_cons.1 hts
    obtain ⟨hwrites,hw⟩ := List.forall_mem_cons.1 hw
    rw [evaluable] at h
    rcases ht.value_cases (nesting.walkingRoom t) s with ⟨x,s₁,hroom,hv⟩ | ⟨e,hv,-⟩
    · simp only [hv,hwrites,if_true,List.length_cons,Nat.succ_inj] at h
      obtain ⟨s',hruns,hrest⟩ := ih hts h hw
      have hheight : t.value t.height s = (.ok x,s₁) := by
        rw [value_congr_room t (Nat.le_refl _) hroom,hv]
      refine ⟨s',.cons hheight hruns,?_⟩
      intro us
      rw [List.cons_append,evaluable,hv]
      simp only [hwrites,if_true]
      exact congrArg (t :: ·) (hrest us)
    · rw [hv] at h
      cases h

theorem evaluable_of_length {ts : List Tree} (hts : ∀ t ∈ ts, t.Canonical .statement) {s : Store}
    (h : (evaluable nesting ts s).length = ts.length) (hw : ∀ t ∈ ts, nesting.writes t) :
    evaluable nesting ts s = ts := by
  obtain ⟨s',-,hrest⟩ := evaluable_append hts h hw
  have hall := hrest []
  rwa [List.append_nil,evaluable,List.append_nil] at hall

theorem length_of_bareAll {ts us : List Tree} (h : bareAll ts = bareAll us) :
    ts.length = us.length := by
  induction ts generalizing us with
  | nil =>
    cases us with
    | nil => rfl
    | cons u us => cases h
  | cons t ts ih =>
    cases us with
    | nil => cases h
    | cons u us =>
      obtain ⟨-,hus⟩ := List.cons.inj h
      rw [List.length_cons,List.length_cons,ih hus]

end

end Tree

namespace Session

section
variable {p q r : Source} {s s₁ : Session}

theorem read_concat (h : r.text = p.text ++ '\n' :: q.text) (hs : s.console.problems = [])
    (hwalk : s.debug → s.nesting.walking = none) {t u : Tree}
    (ht : (s.read true p).1 = .ok t) (hu : (q.block .standard s.nesting {}).1 = .ok u) :
    ∃ span, (s.read true r).1 =
      .ok (.block span (t.statements ++ u.statements.map (Tree.shift p.past))) := by
  have hp : (p.block .standard s.nesting s.console).1 = .ok t := (reading_of_read_fst ht).1
  have hq : (q.block .standard s.nesting s.console).1 = .ok u :=
    (q.reading_congr true s.nesting hs).trans hu
  obtain ⟨span,hr⟩ := Source.block_concat h hs hp hq
  refine ⟨span,read_fst_of_reading hr ?_⟩
  intro hd
  rw [Nesting.walkingRoom,hwalk hd]
  exact Nat.le_refl _

/-- A program that was translated is executed as a whole, and what is executed behind it finds the
store it leaves. -/
theorem exists_of_translated (hs : s.console.problems = [])
    (hp : s.translate true p = (.ok true,s₁)) :
    ∃ t, (s.read true p).1 = .ok t ∧ s.Adds t.statements s₁ ∧ s₁.debug = s.debug ∧
      (∀ u ∈ t.statements, s.nesting.writes u) ∧ ∀ us, Tree.evaluable s.nesting (t.statements ++ us) s.store =
        t.statements ++ Tree.evaluable s.nesting us s₁.store := by
  obtain ⟨s₁',hp',hadds,hdebug⟩ := translate_passes true p (Console.worded_of_problems hs)
  obtain ⟨hpasses,rfl⟩ := Prod.mk.inj (hp.symm.trans hp')
  have hpasses := (Except.ok.inj hpasses).symm
  obtain ⟨t,ht,hwhole,hwrites⟩ := exists_of_passes hpasses
  have hcanonical := Source.canonical_of_reading (reading_of_read_fst ht).1
  have hstatements := fun x hx => hcanonical.of_mem_statements (u := x) hx
  have hexecuted : s.executed true p = Tree.evaluable s.nesting t.statements s.store := by
    rw [executed,ht]
  rw [hexecuted] at hwhole hadds
  obtain ⟨store,hruns,hrest⟩ := Tree.evaluable_append hstatements hwhole hwrites
  rw [Tree.evaluable_of_length hstatements hwhole hwrites] at hadds
  obtain rfl : s₁.store = store := hruns.unique hadds.runs
  exact ⟨t,ht,hadds,hdebug,hwrites,hrest⟩

/-- A program in front of which another one was translated does as if it were behind it in the same
text. -/
theorem translate_concat (h : r.text = p.text ++ '\n' :: q.text) (hs : s.console.problems = [])
    (hwalk : s.debug → s.nesting.walking = none) {u : Tree}
    (hu : (q.block .standard s.nesting {}).1 = .ok u) (hp : s.translate true p = (.ok true,s₁)) :
    ∃ b s₂ s', s₁.translate true q = (.ok b,s₂) ∧ s.translate true r = (.ok b,s') ∧
      s'.store = s₂.store ∧ s'.code = s₂.code := by
  obtain ⟨t,ht,hadds,hdebug,hwrites,hrest⟩ := exists_of_translated hs hp
  obtain ⟨s₂,hq,haddsq,-⟩ := translate_passes (s := s₁) true q hadds.worded
  obtain ⟨s',hr,haddsr,-⟩ := translate_passes true r (Console.worded_of_problems hs)
  -- the second program is read behind the first one, and finds the same store
  obtain ⟨span,hread⟩ := read_concat h hs hwalk ht hu
  have hexr : s.executed true r = t.statements ++
      Tree.evaluable s.nesting (u.statements.map (Tree.shift p.past)) s₁.store := by
    rw [executed,hread]
    exact hrest _
  have hreadq : (s₁.read true q).1 = .ok u := by
    apply read_fst_of_reading
    · rw [hadds.nesting]
      exact (q.reading_congr true s.nesting (idle_of_translate hp).problems).trans hu
    · intro hd
      rw [hdebug] at hd
      rw [Nesting.walkingRoom,hadds.nesting,hwalk hd]
      exact Nat.le_refl _
  have hexq : s₁.executed true q = Tree.evaluable s.nesting u.statements s₁.store := by
    rw [executed,hreadq,hadds.nesting]
  -- its places do not matter
  have hbare : Tree.bareAll (u.statements.map (Tree.shift p.past)) = Tree.bareAll u.statements := by
    rw [← Tree.shiftAll_eq_map,Tree.bareAll_shiftAll]
  have hsame := Tree.evaluable_of_bareAll s.nesting hbare s₁.store
  have hlength := Tree.length_of_bareAll hsame
  have hbody (ts : List Tree) : (Tree.block span ts).statements = ts := rfl
  have hwritten : (∀ v ∈ t.statements ++ u.statements.map (Tree.shift p.past),
      s.nesting.writes v) ↔ ∀ v ∈ u.statements, s₁.nesting.writes v := by
    rw [hadds.nesting,List.forall_mem_append,and_iff_right hwrites,List.forall_mem_map]
    simp only [s.nesting.writes_of_bare (Tree.bare_shift _ _)]
  have hresult : s.passes true r = s₁.passes true q := by
    simp only [passes,hread,hreadq,hexr,hexq,hbody,List.length_append,hlength,List.length_map,
      Nat.add_left_cancel_iff,hwritten]
  rw [hexr] at haddsr
  rw [hexq] at haddsq
  refine ⟨_,s₂,s',hq,by rw [hr,hresult],?_,?_⟩
  · have hboth := (hadds.append haddsq).runs
    have hwhole := hadds.runs.append (haddsq.runs.of_bareAll hsame.symm)
    exact hwhole.unique haddsr.runs
  · have hlines := Tree.flatMap_line_of_bareAll (Tree.filter_writes_of_bareAll s.nesting hsame)
    rw [haddsr.code,haddsq.code,hadds.code,hadds.nesting,List.filter_append,List.flatMap_append,
      hlines,List.append_assoc]

/-- Two programs with a line feed between them are read one after the other, whatever the first one
ends in. They have the tokens and the illegal characters they have by themselves, and if both can be
read, the statements. Behind a program that is translated the second one has the effect it would
have had afterwards. In a session that traces a limit to the depth of a whole block would be met
too early. -/
theorem reads_one_behind_the_other (h : r.text = p.text ++ '\n' :: q.text) {c : Console}
    (hc : c.problems = []) : ∃ ps qs bad bad',
    bad = (Stream.ofText .standard p.text).illegals ∧
    bad' = (Stream.ofText .standard q.text).illegals ∧
    p.tokens .standard c = (.ok ps,(c.warnIllegal p bad).flush) ∧
    q.tokens .standard c = (.ok qs,(c.warnIllegal q bad').flush) ∧
    r.tokens .standard c = (.ok (ps ++ qs.map (Token.shift p.past)),
      (c.warnIllegal r (bad ++ bad'.map (· + p.past))).flush) ∧
    ∀ nesting pspan ts qspan us,
      (p.block .standard nesting c).1 = .ok (.block pspan ts) →
      (q.block .standard nesting c).1 = .ok (.block qspan us) →
      (∃ span, (r.block .standard nesting c).1 =
        .ok (.block span (ts ++ us.map (Tree.shift p.past)))) ∧
      ∀ s s₁ : Session, s.nesting = nesting → s.console.problems = [] →
        (s.debug → nesting.walking = none) → s.translate true p = (.ok true,s₁) →
        ∃ b s₂ s', s₁.translate true q = (.ok b,s₂) ∧ s.translate true r = (.ok b,s') ∧
          s'.store = s₂.store ∧ s'.code = s₂.code := by
  have htokens := r.tokens_eq hc
  rw [Source.standardTokens_concat h,Source.illegals_concat h] at htokens
  refine ⟨_,_,_,_,rfl,rfl,p.tokens_eq hc,q.tokens_eq hc,htokens,?_⟩
  intro nesting pspan ts qspan us hp hq
  refine ⟨Source.block_concat h hc hp hq,?_⟩
  rintro s s₁ rfl hs hwalk hfirst
  exact translate_concat h hs hwalk ((q.reading_congr true s.nesting hc.symm).trans hq) hfirst

/-- The line feed ends the comment, and with it the illegal character is the ninth, not the
first. -/
theorem reads_one_behind_the_other_comment :
    Console.problems {} = [] ∧
    (Stream.ofText .standard "a=1.;//b".toList).illegals = [] ∧
    (Stream.ofText .standard "$b=a;c=d;".toList).illegals = [0] ∧
    ∃ ps qs o, Source.tokens .standard ⟨"a=1.;//b".toList,0⟩ {} = (.ok ps,{}) ∧
      (Source.tokens .standard ⟨"$b=a;c=d;".toList,0⟩ {}).1 = .ok qs ∧
      Source.tokens .standard ⟨"a=1.;//b\n$b=a;c=d;".toList,0⟩ {} =
        (.ok (ps ++ qs.map (Token.shift 9)),o) ∧
      ∃ s₁ s₂ s',
        ({} : Session).translate true ⟨"a=1.;//b".toList,0⟩ = (.ok true,s₁) ∧
        s₁.translate true ⟨"$b=a;c=d;".toList,0⟩ = (.ok false,s₂) ∧
        ({} : Session).translate true ⟨"a=1.;//b\n$b=a;c=d;".toList,0⟩ = (.ok false,s') ∧
        s'.store = s₂.store ∧ s'.code = s₂.code := by
  obtain ⟨ps,qs,bad,bad',rfl,rfl,hp,hq,hr,hsessions⟩ := reads_one_behind_the_other
    (p := ⟨"a=1.;//b".toList,0⟩) (q := ⟨"$b=a;c=d;".toList,0⟩)
    (r := ⟨"a=1.;//b\n$b=a;c=d;".toList,0⟩) rfl (c := {}) rfl
  have hbad : (Stream.ofText .standard "a=1.;//b".toList).illegals = [] := by decide +kernel
  have hbad' : (Stream.ofText .standard "$b=a;c=d;".toList).illegals = [0] := by decide +kernel
  obtain ⟨pspan,ts,hpb⟩ : ∃ span ts,
      (Source.block .standard .standard ⟨"a=1.;//b".toList,0⟩ {}).1 = .ok (.block span ts) :=
    Source.exists_of_isOk (by decide +kernel)
  obtain ⟨qspan,us,hqb⟩ : ∃ span ts,
      (Source.block .standard .standard ⟨"$b=a;c=d;".toList,0⟩ {}).1 = .ok (.block span ts) :=
    Source.exists_of_isOk (by decide +kernel)
  have hfirst : (({} : Session).translate true ⟨"a=1.;//b".toList,0⟩).1.toOption = some true := by
    decide +kernel
  have hlast : (({} : Session).translate true ⟨"a=1.;//b\n$b=a;c=d;".toList,0⟩).1.toOption =
      some false := by decide +kernel
  cases htranslate : ({} : Session).translate true ⟨"a=1.;//b".toList,0⟩ with
  | mk x s₁ =>
    rw [htranslate] at hfirst
    obtain rfl : x = .ok true := by
      cases x with
      | error f => cases hfirst
      | ok b => exact congrArg Except.ok (Option.some.inj hfirst)
    obtain ⟨-,heffect⟩ := hsessions .standard _ _ _ _ hpb hqb
    obtain ⟨b,s₂,s',hs₂,hs',hstore,hcode⟩ := heffect {} s₁ rfl rfl (by simp) htranslate
    rw [hs'] at hlast
    obtain rfl : b = false := Option.some.inj hlast
    rw [hbad] at hp
    exact ⟨rfl,hbad,hbad',ps,qs,_,hp,by rw [hq],hr,s₁,s₂,s',rfl,hs₂,hs',hstore,hcode⟩

end

end Session
end AssignLang
