import AssignLang.Proofs.Session.History
import AssignLang.Proofs.Token.Passage

namespace AssignLang

open Grammar

namespace Tree

/-- The variable a statement assigns. -/
def target? : Tree → Option Text
  | assign _ x _ => some x.text
  | _ => none

/-- A variable is in the store from the beginning, or is assigned by one of the statements. -/
def Known (s : Store) (before : List Tree) (x : Text) : Prop :=
  s.contains x ∨ x ∈ before.filterMap target?

/-- No statement reads a variable that is not known by then. -/
def AllKnown (s : Store) (ts : List Tree) : Prop :=
  ∀ before t after, ts = before ++ t :: after → ∀ r ∈ t.reads, Known s before r.2

theorem Canonical.value_of_missing? {t : Tree} (h : t.Canonical .statement) (s : Store) :
    (t.missing? s = none ∧ ∃ x y, t.target? = some y ∧
      t.value t.height s = (.ok x,s.put y x)) ∨
      ∃ span x, t.missing? s = some (span,x) ∧
        t.value t.height s = (.error (.undefined span x),s) := by
  cases h with
  | @assign span y e hk hy h =>
    rcases Arithmetic.value_of_missing? h.arithmetic s with ⟨hm,x,hx⟩ | ⟨sp,x,hm,hx⟩
    · exact .inl ⟨hm,x,y.text,rfl,by simp only [height,value,hx]⟩
    · exact .inr ⟨sp,x,hm,by simp only [height,value,hx]⟩

section
variable {ts : List Tree} {s s' : Store}

theorem of_missing? {t : Tree} {span : Span} {x : Text} (h : t.missing? s = some (span,x)) :
    s.contains x = false ∧ (span,x) ∈ t.reads := by
  have hx := List.find?_some h
  exact ⟨by simpa using hx,List.mem_of_find?_eq_some h⟩

/-- All other reads of variables not in the store stand behind the first one. -/
theorem leftmost_of_missing? {t : Tree} {span : Span} {x : Text} (h : t.missing? s = some (span,x))
    (hordered : t.reads.Pairwise fun a b => a.1.stop ≤ b.1.start) {r : Span × Text}
    (hr : r ∈ t.reads) (hnot : ¬ s.contains r.2) : r = (span,x) ∨ span.stop ≤ r.1.start := by
  obtain ⟨-,before,after,hreads,hbefore⟩ := List.find?_eq_some_iff_append.1 h
  rw [hreads] at hr hordered
  obtain ⟨-,hback,-⟩ := List.pairwise_append.1 hordered
  rcases List.mem_append.1 hr with hr | hr
  · exact absurd (by simpa using hbefore r hr) hnot
  · rcases List.mem_cons.1 hr with rfl | hr
    · exact .inl rfl
    · exact .inr ((List.pairwise_cons.1 hback).1 r hr)

/-- After statements were run, the store contains what was known there. -/
theorem Runs.contains_iff (h : Runs ts s s') (hts : ∀ t ∈ ts, t.Canonical .statement) (x : Text) :
    s'.contains x ↔ Known s ts x := by
  induction h with
  | nil => simp [Known]
  | @cons t ts s s₁ s₂ v hv hs ih =>
    obtain ⟨ht,hts⟩ := List.forall_mem_cons.1 hts
    rw [ih hts]
    rcases ht.value_of_missing? s with ⟨-,w,y,hy,hw⟩ | ⟨sp,y,-,hw⟩
    · rw [hw] at hv
      obtain ⟨-,rfl⟩ := Prod.mk.inj hv
      simp only [Known,List.filterMap_cons,hy,List.mem_cons,Store.contains,Store.get?_put]
      by_cases hx : x = y <;> simp [hx]
    · rw [hw] at hv
      cases hv

theorem Runs.split {before after : List Tree} (h : Runs (before ++ after) s s') :
    ∃ s₁, Runs before s s₁ ∧ Runs after s₁ s' := by
  induction before generalizing s with
  | nil => exact ⟨s,.nil,h⟩
  | cons t before ih =>
    cases h with
    | cons hv hs =>
      obtain ⟨s₁,hbefore,hafter⟩ := ih hs
      exact ⟨s₁,.cons hv hbefore,hafter⟩

theorem Runs.allKnown (h : Runs ts s s') (hts : ∀ t ∈ ts, t.Canonical .statement) :
    AllKnown s ts := by
  rintro before t after rfl r hr
  obtain ⟨hbefore,hafter⟩ := List.forall_mem_append.1 hts
  obtain ⟨ht,-⟩ := List.forall_mem_cons.1 hafter
  obtain ⟨s₁,hruns,hrest⟩ := h.split
  rw [← hruns.contains_iff hbefore]
  cases hrest with
  | cons hv hs =>
    rcases ht.value_of_missing? s₁ with ⟨hm,-⟩ | ⟨sp,y,-,hw⟩
    · exact missing?_eq_none.1 hm r hr
    · rw [hw] at hv
      cases hv

/-- Statements run to the end, or up to the first one that misses a variable. -/
theorem runs_or_missing (hts : ∀ t ∈ ts, t.Canonical .statement) (s : Store) :
    (∃ s', Runs ts s s') ∨ ∃ before u after s' span x, ts = before ++ u :: after ∧
      Runs before s s' ∧ u.missing? s' = some (span,x) ∧
      u.value u.height s' = (.error (.undefined span x),s') := by
  induction ts generalizing s with
  | nil => exact .inl ⟨s,.nil⟩
  | cons t ts ih =>
    obtain ⟨ht,hts⟩ := List.forall_mem_cons.1 hts
    rcases ht.value_of_missing? s with ⟨-,x,y,-,hx⟩ | ⟨span,x,hm,hx⟩
    · rcases ih hts (s.put y x) with ⟨s',hs'⟩ | ⟨before,u,after,s',span,z,rfl,hruns,hm,hu⟩
      · exact .inl ⟨s',.cons hx hs'⟩
      · exact .inr ⟨t :: before,u,after,s',span,z,rfl,.cons hx hruns,hm,hu⟩
    · exact .inr ⟨[],t,ts,s,span,x,rfl,.nil,hm,hx⟩

theorem heightAll_append (ts us : List Tree) :
    heightAll (ts ++ us) = max (heightAll ts) (heightAll us) := by
  induction ts with
  | nil => simp [heightAll]
  | cons t ts ih => rw [List.cons_append,heightAll,ih,heightAll,Nat.max_assoc]

/-- A block stops at the first of its statements that has no value. -/
theorem Runs.value_block (h : Runs ts s s') {u : Tree} {e : Obstacle}
    (hu : u.value u.height s' = (.error e,s')) (span : Span) (after : List Tree) :
    (block span (ts ++ u :: after)).value (block span (ts ++ u :: after)).height s =
      (.error e,s') := by
  rw [height,heightAll_append,heightAll]
  obtain ⟨x,hx⟩ := h.valueAll_append (Nat.le_max_left _ _) (u :: after) 0.0
  rw [value,hx,Tree.valueAll,value_congr_room u (by omega) (Nat.le_refl _),hu]

/-- The first statement that misses a variable is reported, and ends the evaluation. -/
theorem Runs.evaluate_of_undefined (h : Runs ts s s') {u : Tree} {place : Span} {x : Text}
    (hu : u.value u.height s' = (.error (.undefined place x),s')) (span : Span)
    (after : List Tree) (source : Source) {c : Console} (hc : c.problems = []) :
    (block span (ts ++ u :: after)).evaluate .unlimited source s c =
      (.error (.stopped .evaluator [⟨source,place,some (.undefined x),1,1,none⟩]),s',c.flush) := by
  apply Tree.evaluate_of_undefined hc (Nat.zero_le _)
  rw [Nesting.walkingRoom_unlimited,h.value_block hu]

end

end Tree

namespace Grammar

/-- The names among tokens. -/
def names (ts : List Token) : List (Span × Text) :=
  (ts.filter fun t => t.kind = .name).map fun t => (t.span,t.text)

@[simp] theorem names_nil : names [] = [] := rfl

theorem names_append (ts us : List Token) : names (ts ++ us) = names ts ++ names us := by
  rw [names,List.filter_append,List.map_append]
  rfl

theorem names_of_kind {t : Token} (h : t.kind ≠ .name) (ts : List Token) :
    names (t :: ts) = names ts := by
  rw [names,List.filter_cons_of_neg (by simpa using h)]
  rfl

theorem names_of_name {t : Token} (h : t.kind = .name) : names [t] = [(t.span,t.text)] := by
  simp [names,h]

theorem Level.ne_name {l : Level} {k : Kind} (h : l.isOperator k) : k ≠ .name := by
  rintro rfl
  cases l <;> cases h

mutual

/-- A tree reads the names it was derived from. -/
theorem Chain.reads_tree : {l : Level} → (d : Chain l) → d.tree.reads = names d.tokens
  | _, .mk first links => by
    rw [Chain.tree,Chain.tokens,links.reads_fold,first.reads_tree,names_append]

theorem Links.reads_fold : {l : Level} → (d : Links l) → (left : Tree) →
    (d.fold left).reads = left.reads ++ names d.tokens
  | _, .nil, left => (List.append_nil _).symm
  | _, .cons op hop operand links, left => by
    rw [Links.fold,links.reads_fold,Tree.reads,operand.reads_tree,Links.tokens,
      names_of_kind (Level.ne_name hop),names_append,List.append_assoc]

theorem Operand.reads_tree : {l : Level} → (d : Operand l) → d.tree.reads = names d.tokens
  | _, .term product => product.reads_tree
  | _, .minus sign hs factor => by
    rw [Operand.tree,Tree.reads,Operand.tokens,names_of_kind (by simp [hs]),factor.reads_tree]
  | _, .group opening ho inner closing hc => by
    rw [Operand.tree,Tree.reads,Operand.tokens,names_of_kind (by simp [ho]),names_append,
      names_of_kind (by simp [hc]),inner.reads_tree,names_nil,List.append_nil]
  | _, .number token ht => by
    rw [Operand.tokens,names_of_kind (by simp [ht])]
    rfl
  | _, .name token ht => by
    rw [Operand.tokens,names_of_name ht]
    rfl

end

theorem Statement.reads_tree (d : Statement) : d.tree.reads = names d.value.tokens :=
  d.value.reads_tree

end Grammar

namespace Source

/-- A statement reads its variables from left to right. -/
theorem reads_ordered {s : Source} {nesting : Nesting} {c : Console} {t u : Tree}
    (h : (s.block .standard nesting c).1 = .ok t) (hu : u ∈ t.statements) :
    u.reads.Pairwise fun a b => a.1.stop ≤ b.1.start := by
  obtain ⟨ds,hds,rfl⟩ := exists_of_block h
  obtain ⟨d,hd,rfl⟩ := List.mem_map.1 hu
  have hvalue : List.Sublist d.value.tokens d.tokens :=
    ((List.sublist_append_left d.value.tokens [d.semicolon]).cons d.equals).cons d.target
  have htokens : List.Sublist d.tokens s.standardTokens := by
    rw [← hds,List.flatMap_def]
    exact List.sublist_flatten_of_mem (List.mem_map_of_mem hd)
  rw [d.reads_tree,names,List.pairwise_map]
  exact (s.standardTokens_ordered.sublist (hvalue.trans htokens)).filter _

/-- Evaluating a program that was read comes to a value just if every variable is in the store or
assigned before it is read. Otherwise the first one that is not is reported as the only problem,
after all statements in front of that one were evaluated. A zero divisor keeps nothing from a value:
division gives a number for all divisors, and the quotient where there is one. -/
theorem evaluate_stops_at_first_unknown (s : Source) (nesting : Nesting) (c₀ : Console) (t : Tree)
    (ht : (s.block .standard nesting c₀).1 = .ok t) (store : Store) (c : Console)
    (hc : c.problems = []) :
    ((∃ v, (t.evaluate .unlimited s store c).1 = .ok v) ↔ Tree.AllKnown store t.statements) ∧
    (∀ x y, divide? x y = some (divide x y) ∧ ∀ z, quotient? x y = some z → divide x y = z) ∧
    ∀ f store' c', t.evaluate .unlimited s store c = (.error f,store',c') →
      ∃ before u after span x, t.statements = before ++ u :: after ∧
        Tree.AllKnown store before ∧ (span,x) ∈ u.reads ∧ ¬ Tree.Known store before x ∧
        (∀ r ∈ u.reads, ¬ Tree.Known store before r.2 → r = (span,x) ∨ span.stop ≤ r.1.start) ∧
        (∃ v, (Tree.block .unknown before).evaluate .unlimited s store c = (.ok v,store',c)) ∧
        f = .stopped .evaluator [⟨s,span,some (.undefined x),1,1,none⟩] := by
  have hread : (s.reading true nesting c₀).1 = .ok t := ht
  have hcanonical := canonical_of_reading hread
  obtain ⟨body,-,rfl⟩ := statements_of_block ht
  have hbody : ∀ u ∈ body, u.Canonical .statement := by
    cases hcanonical with
    | block h => exact h
  have hdivide : ∀ x y,
      divide? x y = some (divide x y) ∧ ∀ z, quotient? x y = some z → divide x y = z :=
    fun x y => ⟨divide?_eq x y,fun z => divide_of_quotient?⟩
  rcases Tree.runs_or_missing hbody store with
    ⟨store',hruns⟩ | ⟨before,u,after,s',place,x,hsplit,hruns,hmissing,hu⟩
  · obtain ⟨v,hv⟩ := hruns.evaluate (blockSpan s.text.length body) s c
    refine ⟨⟨fun _ => hruns.allKnown hbody,fun _ => ⟨v,by rw [hv]⟩⟩,hdivide,?_⟩
    intro f store₁ c₁ hf
    rw [hv] at hf
    cases hf
  · obtain ⟨hunknown,hmem⟩ := Tree.of_missing? hmissing
    have hfail := hruns.evaluate_of_undefined hu (blockSpan s.text.length body) after s hc
    rw [← hsplit] at hfail
    have hstatements : (Tree.block (blockSpan s.text.length body) body).statements =
        before ++ u :: after := hsplit
    have hbefore : ∀ w ∈ before, w.Canonical .statement := by
      intro w hw
      apply hbody
      rw [hsplit]
      exact List.mem_append_left _ hw
    have hknown (y : Text) : Tree.Known store before y ↔ s'.contains y :=
      (hruns.contains_iff hbefore y).symm
    have hnot : ¬ Tree.Known store before x := by
      rw [hknown,hunknown]
      simp
    refine ⟨?_,hdivide,?_⟩
    · constructor
      · rintro ⟨v,hv⟩
        rw [hfail] at hv
        cases hv
      · intro hall
        exact absurd (hall before u after hstatements (place,x) hmem) hnot
    · intro f store' c' hf
      rw [hfail] at hf
      obtain ⟨hfailure,hrest⟩ := Prod.mk.inj hf
      obtain ⟨rfl,-⟩ := Prod.mk.inj hrest
      refine ⟨before,u,after,place,x,hstatements,hruns.allKnown hbefore,hmem,hnot,?_,
        hruns.evaluate .unknown s c,(Except.error.inj hfailure).symm⟩
      intro r hr hrnot
      have hordered := reads_ordered ht (u := u) (by rw [hstatements]; simp)
      rw [hknown] at hrnot
      exact Tree.leftmost_of_missing? hmissing hordered hr hrnot

/-- A variable is not known while its first value is computed. -/
theorem evaluate_stops_at_first_unknown_itself :
    Console.problems {} = [] ∧ ∃ t,
      (block .standard .unlimited ⟨"x=1+x*y;".toList,0⟩ {}).1 = .ok t ∧
      (t.evaluate .unlimited ⟨"x=1+x*y;".toList,0⟩ {} {}).1 = .error (.stopped .evaluator
        [⟨⟨"x=1+x*y;".toList,0⟩,⟨4,5⟩,some (.undefined ['x']),1,1,none⟩]) := by
  have hreads : ((block .standard .unlimited ⟨"x=1+x*y;".toList,0⟩ {}).1.map
      fun t => t.statements.map Tree.reads).toOption =
      some [[(⟨4,5⟩,['x']),(⟨6,7⟩,['y'])]] := by decide +kernel
  cases ht : (block .standard .unlimited ⟨"x=1+x*y;".toList,0⟩ {}).1 with
  | error f =>
    rw [ht] at hreads
    cases hreads
  | ok t =>
    rw [ht] at hreads
    obtain ⟨u,hu,hur⟩ := List.map_eq_singleton_iff.1 (Option.some.inj hreads)
    obtain ⟨hvalue,-,hstops⟩ :=
      evaluate_stops_at_first_unknown ⟨"x=1+x*y;".toList,0⟩ .unlimited {} t ht {} {} rfl
    have hunknown (y : Text) : ¬ Tree.Known {} [] y := by
      simp [Tree.Known,Store.contains,Store.get?]
    refine ⟨rfl,t,rfl,?_⟩
    cases hf : t.evaluate .unlimited ⟨"x=1+x*y;".toList,0⟩ {} {} with
    | mk r rest =>
      cases r with
      | ok v =>
        have hall := hvalue.1 ⟨v,by rw [hf]⟩
        exact absurd (hall [] u [] hu (⟨4,5⟩,['x']) (by simp [hur])) (hunknown _)
      | error f =>
        obtain ⟨before,w,after,span,x,hsplit,-,hmem,-,hleft,-,rfl⟩ := hstops f _ _ hf
        have hlength := congrArg List.length (hu.symm.trans hsplit)
        simp only [List.length_append,List.length_cons,List.length_nil] at hlength
        obtain rfl := List.length_eq_zero_iff.1 (show before.length = 0 by omega)
        obtain ⟨rfl,-⟩ := List.cons.inj (hu.symm.trans hsplit)
        rw [hur] at hmem hleft
        rcases hleft (⟨4,5⟩,['x']) (by simp) (hunknown _) with hfirst | hbehind
        · obtain ⟨rfl,rfl⟩ := Prod.mk.inj hfirst
          rfl
        · simp only [List.mem_cons,List.not_mem_nil,or_false,Prod.mk.injEq] at hmem
          rcases hmem with ⟨rfl,-⟩ | ⟨rfl,-⟩
          · exact absurd hbehind (by decide)
          · exact absurd hbehind (by decide)

end Source

end AssignLang
