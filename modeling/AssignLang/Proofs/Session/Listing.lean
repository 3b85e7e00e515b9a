import AssignLang.Proofs.Listing.Agreement

namespace AssignLang

namespace Session

theorem Adds.lines_code {s s' : Session} {ts : List Tree} (h : s.Adds ts s') (hs : s.code = []) :
    s'.code.lines = (ts.filter s.nesting.writes).map Tree.code := by
  rw [h.code,hs,List.nil_append]
  exact lines_of_canonical fun t ht => h.canonical t (List.mem_filter.1 ht).1

/-- The code of a statement executes this statement, or nothing. -/
theorem executed_code {s : Session} (hp : s.console.Worded) {t : Tree}
    (ht : t.Canonical .statement) : s.executed false {text := t.code} = [] ∨
      ∃ u, s.executed false {text := t.code} = [u] ∧ u.bare = t.bare := by
  rcases read_cases hp false {text := t.code} with ⟨u,s',hr,hu,-⟩ | ⟨f,s',hr,-⟩
  · have hrank : t.Canonical (.ofReading false) := ht
    obtain ⟨v,hv,hb⟩ := Source.reading_code hrank 0 (c := {}) ⟨rfl,rfl⟩
    have huv : (Source.reading false .unlimited {text := t.code} {}).1 = .ok u :=
      Source.reading_unlimited hu rfl
    rw [hv] at huv
    obtain rfl := Except.ok.inj huv
    rw [executed,hr]
    simp only [ht.statements_of_bare hb,Tree.evaluable]
    obtain ⟨o | x,store⟩ := v.value (s.nesting.walkingRoom v) s.store
    · exact .inl rfl
    · exact .inr ⟨v,by simp,hb⟩
  · rw [executed,hr]
    exact .inl rfl

theorem read_of_unlimited {s : Session} (h : s.nesting = .unlimited) (full : Bool)
    (source : Source) :
    (s.read full source).1 = (source.reading full .unlimited s.console).1 := by
  rw [read,Source.reading,h]
  split
  · rename_i hr
    rw [hr]
  · rename_i hr
    rw [hr]
    unfold traceTree Tree.outlineWithin
    simp only [Nesting.walkingRoom_unlimited,Nat.le_refl,if_true]
    split <;> rfl

/-- Without a limit it executes the statement if this has a value. -/
theorem executed_code_ne_nil {s : Session} (hn : s.nesting = .unlimited)
    (hp : s.console.problems = []) {t : Tree} (ht : t.Canonical .statement) {x : Float}
    {store : Store} (hv : t.value t.height s.store = (.ok x,store)) :
    s.executed false {text := t.code} ≠ [] := by
  have hrank : t.Canonical (.ofReading false) := ht
  obtain ⟨u,hu,hb⟩ := Source.reading_code hrank 0 (c := {}) ⟨rfl,rfl⟩
  have hread := Source.reading_unlimited (congrArg Prod.fst hu) hp
  rw [← read_of_unlimited hn] at hread
  rw [executed,hread,hn]
  simp only [ht.statements_of_bare hb,Tree.evaluable,Nesting.walkingRoom_unlimited,
    Tree.value_of_bare hb.symm hv]
  exact List.cons_ne_nil _ _

/-- The C program of a session ends with the values that the session has. -/
def Faithful (s : Session) : Prop := s.listing.run? = some s.store

section
variable {nesting : Nesting} {debug : Bool} {s s' : Session} {ts us : List Tree}

/-- The C program of a session is run one written statement after the other. -/
theorem run?_of_adds (h : (fresh nesting debug).Adds ts s) (hu : s.Adds us s') :
    s'.listing.run? = (Listing.runLines? ((ts.filter nesting.writes).map Tree.code) {}).bind
      fun store => Listing.runLines? ((us.filter nesting.writes).map Tree.code) store := by
  rw [Listing.run?,listing,(h.append hu).lines_code rfl,List.filter_append,List.map_append]
  exact Listing.runLines?_append _ _ _

/-- A faithful session stays faithful as long as everything is written and the constants are
exact. -/
theorem Faithful.of_adds (hs : s.Faithful) (h : (fresh nesting debug).Adds ts s)
    (hu : s.Adds us s') (hw : ∀ t ∈ us, nesting.writes t)
    (he : ∀ t ∈ us, ∀ e ∈ t.integers, e.Exact) : s'.Faithful := by
  have hrun : Listing.runLines? ((ts.filter nesting.writes).map Tree.code) {} = some s.store := by
    rw [Faithful,Listing.run?,listing,h.lines_code rfl] at hs
    exact hs
  rw [Faithful,run?_of_adds h hu,hrun,Option.bind_some,List.filter_eq_self.2 hw]
  exact Listing.runLines?_of_runs hu.runs hu.canonical he

theorem faithful_of_exact (h : (fresh nesting debug).Adds ts s) (hw : ∀ t ∈ ts, nesting.writes t)
    (he : ∀ t ∈ ts, ∀ e ∈ t.integers, e.Exact) : s.Faithful := by
  have hfresh : (fresh nesting debug).Faithful := rfl
  have hnothing : (fresh nesting debug).Adds [] (fresh nesting debug) :=
    adds_nil rfl (Console.worded_of_problems rfl) rfl rfl rfl
  exact hfresh.of_adds hnothing h hw he

end

/-- If C assigns to a variable what a constant is evaluated to, then the constant is exact. -/
theorem exact_of_exec? {span : Span} {y : Token} {e : Tree} {x : Float} {s s' : Store}
    (hx : ∀ s, e.value e.height s = (.ok x,s)) (hi : e.isInteger)
    (h : (Tree.assign span y e).exec? s = some (s'.put y.text x)) : e.Exact := by
  obtain ⟨q,hq,hput⟩ := Option.map_eq_some_iff.1 h
  have hget := congrArg (Store.get? · y.text) hput
  simp only [Store.get?_put,if_true,Option.some.injEq] at hget
  rw [Tree.Exact,Tree.meaning?_of_isInteger {} s e hi,hq,hx,Option.map_some,hget]
  rfl

section
variable {nesting : Nesting} {debug : Bool} {s : Session} {ts : List Tree} {span : Span} {y : Token}
  {e : Tree}

theorem value_assign_of_isInteger (ht : (Tree.assign span y e).Canonical .statement)
    (hi : e.isInteger) : ∃ x, (∀ s, e.value e.height s = (.ok x,s)) ∧
      ∀ s, (Tree.assign span y e).value (Tree.assign span y e).height s =
        (.ok x,s.put y.text x) := by
  cases ht with
  | assign hk hy h =>
    obtain ⟨x,hx⟩ := (Tree.Canonical.arithmetic h : e.Arithmetic).value_of_isInteger hi
    exact ⟨x,hx,fun s => by simp only [Tree.height,Tree.value,hx]⟩

theorem faithful_of_assign (h : (fresh nesting debug).Adds ts s) (hs : s.Faithful)
    (ht : (Tree.assign span y e).Canonical .statement) (hi : e.isInteger) (he : e.Exact)
    (hw : ∀ u ∈ s.log (.translate false (Tree.assign span y e).code), nesting.writes u) :
    (s.perform (.translate false (Tree.assign span y e).code)).Faithful := by
  have hlast := perform_adds (.translate false (Tree.assign span y e).code) h.worded
  apply hs.of_adds h hlast hw
  intro u hu e' he'
  rcases executed_code h.worded ht with hnil | ⟨v,hv,hb⟩
  · rw [log,hnil] at hu
    cases hu
  · rw [log,hv] at hu
    obtain rfl := List.mem_singleton.1 hu
    obtain ⟨sp,z,e'',rfl,hbare⟩ : ∃ sp z e'', u = .assign sp z e'' ∧ e''.bare = e.bare := by
      cases u with
      | assign sp z e'' => exact ⟨sp,z,e'',rfl,(Tree.assign.inj hb).2.2⟩
      | _ => cases hb
    obtain ⟨x,hx,-⟩ := value_assign_of_isInteger ht hi
    obtain ⟨hi'',he''⟩ := he.of_bare hbare.symm hi (hx {})
    have hmem : e' ∈ e''.integers := he'
    rw [Tree.integers_of_isInteger hi''] at hmem
    obtain rfl := List.mem_singleton.1 hmem
    exact he''

/-- After a constant was assigned and this was written, the C program can end with the store of the
session only if the constant is exact. -/
theorem exact_of_faithful (h : (fresh nesting debug).Adds ts s)
    (ht : (Tree.assign span y e).Canonical .statement) (hi : e.isInteger)
    (hlog : ∃ u ∈ s.log (.translate false (Tree.assign span y e).code), nesting.writes u)
    (hf : (s.perform (.translate false (Tree.assign span y e).code)).Faithful) : e.Exact := by
  obtain ⟨x,hx,hv⟩ := value_assign_of_isInteger ht hi
  have hlast := perform_adds (.translate false (Tree.assign span y e).code) h.worded
  obtain ⟨w,hw,hwrites⟩ := hlog
  have hne : s.executed false {text := (Tree.assign span y e).code} ≠ [] := List.ne_nil_of_mem hw
  obtain ⟨u,hu,hb⟩ := (executed_code h.worded ht).resolve_left hne
  rw [log,hu] at hlast hw
  obtain rfl := List.mem_singleton.1 hw
  have hruns : Tree.Runs [Tree.assign span y e] s.store _ :=
    hlast.runs.of_bareAll (by simp only [Tree.bareAll,hb])
  cases hruns with
  | cons hv' hs =>
    cases hs
    rw [hv] at hv'
    obtain ⟨-,hstore⟩ := Prod.mk.inj hv'
    rw [Faithful,run?_of_adds h hlast,← hstore] at hf
    obtain ⟨s',-,hs'⟩ := Option.bind_eq_some_iff.1 hf
    rw [List.filter_cons_of_pos hwrites,List.filter_nil,List.map_singleton,
      Tree.code_eq_of_bare hb,Listing.runLines?_code ht] at hs'
    obtain ⟨s'',hexec,hend⟩ := Option.bind_eq_some_iff.1 hs'
    obtain rfl := Option.some.inj hend
    exact exact_of_exec? hx hi hexec

end

/-- If all constants that C takes for integers are exact, the C program ends with the values of the
session, unless a statement was too deep to be written. None of the constants can be spared:
assigning an exact one keeps a session faithful, and a session that wrote the assignment of another
one is not. Nothing but a limit keeps it from that. -/
theorem faithful_where_exact (nesting : Nesting) (debug : Bool) (rs : List Request) :
    ((∀ t ∈ (fresh nesting debug).history rs, nesting.writes t) →
      (∀ t ∈ (fresh nesting debug).history rs, ∀ e ∈ t.integers, e.Exact) →
        ((fresh nesting debug).performAll rs).Faithful) ∧
    (nesting = .unlimited → ∀ t, nesting.writes t) ∧
    ∀ t : Tree, t.Canonical .statement → ∀ e ∈ t.integers,
      ∀ (span : Span) (y : Token), y.kind = .name → y.IsLexeme →
        let s := (fresh nesting debug).performAll rs
        let r := Request.translate false (Tree.assign span y e).code
        (e.Exact → (∀ u ∈ s.log r, nesting.writes u) → s.Faithful → (s.perform r).Faithful) ∧
          ((∃ u ∈ s.log r, nesting.writes u) → (s.perform r).Faithful → e.Exact) ∧
          (nesting = .unlimited → s.log r ≠ []) := by
  have hadds := adds_history nesting debug rs
  refine ⟨faithful_of_exact hadds,?_,?_⟩
  · intro hn t
    rw [hn]
    exact Nesting.writes_unlimited t
  intro t ht e hmem span y hk hy
  obtain ⟨hi,hcanonical⟩ := ht.of_mem_integers hmem
  have hassign : (Tree.assign span y e).Canonical .statement := .assign hk hy hcanonical
  refine ⟨?_,?_,?_⟩
  · intro he hw hs
    exact faithful_of_assign hadds hs hassign hi he hw
  · exact exact_of_faithful hadds hassign hi
  · intro hn
    obtain ⟨x,-,hv⟩ := value_assign_of_isInteger hassign hi
    exact executed_code_ne_nil (hadds.nesting.trans hn) (hadds.problems hn rfl) hassign (hv _)

/-- One divided by two, which is zero in C. -/
def half : Tree :=
  .binary .unknown (.number .unknown ⟨['1'],.number,.unknown⟩) (.ofKind .slash)
    (.number .unknown ⟨['2'],.number,.unknown⟩)

theorem half_canonical : half.Canonical .term := by
  have hone : Text.IsNumeral ['1'] := .whole (by simp) (by simp)
  have htwo : Text.IsNumeral ['2'] := .whole (by simp) (by simp)
  have hslash : (['/'],Kind.slash) ∈ Vocabulary.standard.operators := by decide
  exact .product (.ofFactor (.number rfl hone)) (.inr rfl) hslash (.number rfl htwo)

example : half.meaning? {} = some (.integer 0) := by decide +kernel

/-- Doubles are divided as they are evaluated, but integers are not. -/
theorem faithful_where_exact_halves :
    (∀ t ∈ (fresh .standard false).history [.translate true "x=1./2.;y=x*(7-2*3)/007;".toList],
      Nesting.standard.writes t ∧ ∀ e ∈ t.integers, e.Exact) ∧
    ((fresh .standard false).performAll
      [.translate true "x=1./2.;y=x*(7-2*3)/007;".toList]).Faithful ∧
    ¬ half.Exact ∧
    ¬ (((fresh .standard false).performAll []).perform
      (.translate false "x = 1/2;".toList)).Faithful := by
  have hexact : ∀ t ∈ (fresh .standard false).history
      [.translate true "x=1./2.;y=x*(7-2*3)/007;".toList],
      Nesting.standard.writes t ∧ ∀ e ∈ t.integers, e.Exact := by decide +kernel
  have hhalf : ¬ half.Exact := by decide +kernel
  have hx : Text.IsWord ['x'] := .mk rfl (by simp)
  have ht : (Tree.assign .unknown ⟨['x'],.name,.unknown⟩ half).Canonical .statement :=
    .assign rfl hx (.ofTerm half_canonical)
  have hmem : half ∈ half.integers := by
    rw [Tree.integers_of_isInteger (by decide)]
    exact List.mem_singleton.2 rfl
  have hlog : ∃ u ∈ (fresh .standard false).log (.translate false "x = 1/2;".toList),
      Nesting.standard.writes u := by decide +kernel
  refine ⟨hexact,?_,hhalf,?_⟩
  · exact (faithful_where_exact .standard false _).1 (fun t ht => (hexact t ht).1)
      fun t ht => (hexact t ht).2
  · intro hfaithful
    exact hhalf (((faithful_where_exact .standard false []).2.2 _ ht half hmem .unknown
      ⟨['x'],.name,.unknown⟩ rfl hx).2.1 hlog hfaithful)

end Session
end AssignLang
