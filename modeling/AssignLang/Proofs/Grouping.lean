import AssignLang.Proofs.Beginning
import AssignLang.Proofs.Grammar.Grouping
import AssignLang.Proofs.Location

namespace AssignLang

open Grammar

/-- Evaluations that end with the same value, or with the same unknown variable as the only problem,
and with the same store. -/
inductive Tree.SameOutcome : Except Failure Float × Store × Console →
    Except Failure Float × Store × Console → Prop
  | value (x : Float) (store : Store) (c c' : Console) :
      SameOutcome (.ok x,store,c) (.ok x,store,c')
  | undefined (x : Text) (s s' : Source) (place place' : Span) (store : Store) (c c' : Console) :
      SameOutcome (.error (.stopped .evaluator [⟨s,place,some (.undefined x),1,1,none⟩]),store,c)
        (.error (.stopped .evaluator [⟨s',place',some (.undefined x),1,1,none⟩]),store,c')

namespace Tree

/-- Evaluation is given up for want of room, and leaves the store as it is. The tree is too high, or
a variable is missing so deep in it that this cannot be reported. -/
inductive GivenUp (nesting : Nesting) (source : Source) (t : Tree) (s : Store) (c : Console) : Prop
  | tooHigh (h : nesting.walkingRoom t < t.height)
      (hend : t.evaluate nesting source s c = (.error .tooDeep,s,c)) : GivenUp nesting source t s c
  | unreported {place : Span} {x : Text} {c' : Console}
      (hvalue : t.value (nesting.walkingRoom t) s = (.error (.undefined place x),s))
      (h : t.roomLeft (nesting.walkingRoom t) s < nesting.walkingNeeds.raising)
      (hend : t.evaluate nesting source s c = (.error .tooDeep,s,c')) : GivenUp nesting source t s c

theorem not_givenUp_unlimited {t : Tree} {source : Source} {s : Store} {c : Console} :
    ¬ t.GivenUp .unlimited source s c := by
  rintro (⟨h,-⟩ | ⟨-,h,-⟩)
  · exact Nat.lt_irrefl _ h
  · exact Nat.not_lt_zero _ h

variable {t : Tree} {nesting : Nesting} {source : Source} {s s' : Store} {c : Console}

theorem evaluate_of_unreported {place : Span} {x : Text}
    (hroom : t.roomLeft (nesting.walkingRoom t) s < nesting.walkingNeeds.raising)
    (h : t.value (nesting.walkingRoom t) s = (.error (.undefined place x),s')) :
    ∃ c', t.evaluate nesting source s c = (.error .tooDeep,s',c') := by
  obtain ⟨c',hfail,-⟩ := Console.failWithin_of_lt hroom c source place (.undefined x)
  have hreport : t.report nesting source s c place (.undefined x) = (.tooDeep,c') := hfail
  refine ⟨c',?_⟩
  rw [evaluate,h]
  simp only [hreport]

/-- Statements with values that differ in places at most come to the same, unless there is not room
enough for the second one. -/
theorem Canonical.sameOutcome {u : Tree} (ht : t.Canonical .statement) (hu : u.Canonical .statement)
    (h : (u.value (nesting.walkingRoom u) s).1 = .error .tooDeep ∨
      bareResult (u.value (nesting.walkingRoom u) s) =
        bareResult (t.value (nesting.walkingRoom t) s) ∧
      (nesting.walkingNeeds.raising ≤ u.roomLeft (nesting.walkingRoom u) s →
        nesting.walkingNeeds.raising ≤ t.roomLeft (nesting.walkingRoom t) s))
    (source' : Source) {c' : Console} (hc : c.problems = []) (hc' : c'.problems = []) :
    SameOutcome (t.evaluate nesting source s c) (u.evaluate nesting source' s c') ∨
      u.GivenUp nesting source' s c' := by
  by_cases hdeep : (u.value (nesting.walkingRoom u) s).1 = .error .tooDeep
  · obtain ⟨hroom,hvalue⟩ := hu.of_tooDeep hdeep
    exact .inr (.tooHigh hroom (evaluate_of_tooDeep hvalue))
  obtain ⟨hbare,hreported⟩ := h.resolve_left hdeep
  rcases ht.value_cases (nesting.walkingRoom t) s with ⟨x,s',-,hx⟩ | ⟨e,he,hdue⟩
  · rw [hx,bareResult_ok] at hbare
    rw [evaluate_of_ok hx,evaluate_of_ok (bareResult_eq_ok hbare)]
    exact .inl (.value x s' c c')
  · rw [he,bareResult_error] at hbare
    cases e with
    | undefined place x =>
      obtain ⟨place',hvalue⟩ := exists_of_bareResult_undefined hbare
      rcases Nat.lt_or_ge (u.roomLeft (nesting.walkingRoom u) s) nesting.walkingNeeds.raising with
        hlt | hle
      · obtain ⟨c'',hend⟩ := evaluate_of_unreported hlt hvalue
        exact .inr (.unreported hvalue hlt hend)
      · rw [evaluate_of_undefined hc (hreported hle) he,evaluate_of_undefined hc' hle hvalue]
        exact .inl (.undefined x source source' place place' s _ _)
    | tooDeep =>
      rw [← tooDeep_bareResult,hbare] at hdeep
      exact absurd rfl hdeep
    | unevaluable _ _ | notANumber _ => cases hdue

end Tree

namespace Source

/-- `s'` is read as `t'`, which comes to the same as `t` of `s`, unless it is too deep to be read or
to be walked. Without a limit nothing is. -/
def Restates (nesting : Nesting) (s : Source) (t : Tree) (s' : Source) (t' : Tree) : Prop :=
  ∃ d : Statement, d.tree.same t' ∧
    (∀ c, c.problems = [] → (s'.statement .standard nesting c).1 =
      if d.value.depth ≤ nesting.readingRoom d.tokens.length then .ok d.tree
      else .error .tooDeep) ∧
    (∀ store c c', c.problems = [] → c'.problems = [] →
      Tree.SameOutcome (t.evaluate nesting s store c) (d.tree.evaluate nesting s' store c') ∨
        d.tree.GivenUp nesting s' store c') ∧
    (nesting = .unlimited → d.value.depth ≤ nesting.readingRoom d.tokens.length ∧
      ∀ store c, ¬ d.tree.GivenUp nesting s' store c)

/-- A statement is read unless it is too deep. -/
theorem statement_of_tokens {s : Source} {d : Statement} {rest : List Token}
    (h : s.standardTokens = d.tokens ++ rest) (nesting : Nesting) {c : Console}
    (hc : c.problems = []) : (s.statement .standard nesting c).1 =
      if d.value.depth ≤ nesting.readingRoom d.tokens.length then .ok d.tree
      else .error .tooDeep := by
  by_cases hdepth : d.value.depth ≤ nesting.readingRoom d.tokens.length
  · rw [if_pos hdepth,statement_of_statement hc (statement_of_beginning h hdepth)]
  · rw [if_neg hdepth]
    cases ht : s.treeOf false nesting with
    | ok p =>
      have hs : Grammar.statement (nesting.readingRoom s.standardTokens.length) s.standardTokens =
        .ok p := ht
      rw [h] at hs
      exact absurd (d.depth_le_readingRoom (depth_of_statement d hs)) hdepth
    | error e =>
      cases e with
      | tooDeep more => exact congrArg Prod.fst (reading_of_tooDeep ht c)
      | unexpected wanted more room =>
        have hstuck : recognized false (nesting.readingRoom s.standardTokens.length)
            s.standardTokens = some (some wanted,more) := by
          rw [← outcome_treeOf,ht]
          rfl
        have haccepted : s.IsAccepted false :=
          ⟨d.tree,congrArg Prod.fst (statement_of_derivation rfl h.symm)⟩
        obtain ⟨before,hsplit,-⟩ := local_recognized false _ _ _ _ hstuck
        rw [hsplit] at hstuck
        exact absurd haccepted (not_isAccepted_of_stuck hstuck hsplit rfl rfl)

variable {s : Source} {d : Statement} {rest : List Token} {u : Tree} {ps : List Span}

theorem canonical_of_tokens (h : s.standardTokens = d.tokens ++ rest) :
    d.tree.Canonical .statement := by
  have hall : s.standardTokens = [] ++ d.tokens ++ rest := h
  exact d.canonical (isLexeme_of_part hall)

theorem arithmetic_value (h : s.standardTokens = d.tokens ++ rest) :
    d.value.tree.Arithmetic := by
  have hd := canonical_of_tokens h
  rw [Statement.tree] at hd
  cases hd with
  | assign hk ht he => exact he.arithmetic

/-- Parentheses around places in a statement stand among the pieces of the statement. -/
theorem Opens.bracketed {front : List Piece} (hfront : s.Opens front d)
    (hps : Piece.Bordered ps d.tokens) (hd : Token.InOrder d.tokens) : ∃ back,
      Piece.ofText .standard (Text.bracketed ps s.text) =
        Piece.bracket (ps.map Span.start) (ps.map Span.stop) 0 front ++ back := by
  obtain ⟨back,hpieces,hstand⟩ := hfront.exists_allStand
  have hstops : ∀ t ∈ d.tokens, t.span.start < t.span.stop ∧
      t.span.stop ≤ (front.flatMap Piece.text).length := by
    intro t ht
    rw [← hfront.span_stop]
    exact ⟨(hd.proper t ht).2,((d.frames hd).contains hd ht).2⟩
  have hborders : Piece.Borders (ps.map Span.start) (ps.map Span.stop) 0
      (Piece.tokens 0 front) := by
    rw [hfront.tokens]
    constructor
    · intro i hi _
      obtain ⟨p,hp,rfl⟩ := List.mem_map.1 hi
      exact (hps p hp).1
    · intro i hi _
      obtain ⟨p,hp,rfl⟩ := List.mem_map.1 hi
      exact (hps p hp).2
  have hbehind : Text.bracket (ps.map Span.start) (ps.map Span.stop)
      (front.flatMap Piece.text).length (back.flatMap Piece.text) = back.flatMap Piece.text := by
    apply Text.bracket_of_plain
    · intro i hi _ hmem
      obtain ⟨p,hp,hstart⟩ := List.mem_map.1 hmem
      obtain ⟨⟨t,ht,hopen⟩,-⟩ := hps p hp
      have hbounds := hstops t ht
      omega
    · intro i hi _ hmem
      obtain ⟨p,hp,hstop⟩ := List.mem_map.1 hmem
      obtain ⟨-,t,ht,hclose⟩ := hps p hp
      have hbounds := hstops t ht
      omega
  refine ⟨Piece.ofText .standard (back.flatMap Piece.text),?_⟩
  rw [← (hstand.bracket 0).ofText_eq,Piece.flatMap_text_bracket hstand hborders,Text.bracketed]
  rw [← Piece.flatMap_text_ofText .standard s.text,hpieces,List.flatMap_append,Text.bracket_append,
    Nat.zero_add,hbehind]

/-- With parentheses around some of its nodes a statement is derived with groups around them. -/
theorem exists_derivation_bracketed (h : s.standardTokens = d.tokens ++ rest)
    (hg : d.value.tree.GroupedAt ps u) (copy : Nat) :
    ∃ (d' : Statement) (rest' : List Token),
      standardTokens ⟨Text.bracketed ps s.text,copy⟩ = d'.tokens ++ rest' ∧
        d'.tree.bare = (Tree.assign d.tree.span d.target u).bare := by
  have hall : s.standardTokens = [] ++ d.tokens ++ rest := h
  have horder := inOrder_of_part hall
  have hlexemes : ∀ t ∈ d.tokens, t.IsLexeme := isLexeme_of_part hall
  have hps : Piece.Bordered ps d.tokens :=
    (Chain.bordered (horder.sublist d.value_sublist) hg).mono d.value_sublist.subset
  obtain ⟨front,hfront⟩ := exists_opens h
  obtain ⟨back,hpieces⟩ := hfront.bracketed hps horder
  have hts := Piece.map_ofToken_tokens_bracket ps 0 0 front
  rw [hfront.tokens] at hts
  obtain ⟨d',hd',hbare⟩ := Statement.exists_groupedAt hlexemes horder hg hts
  have htokens := Piece.tokens_append 0
    (Piece.bracket (ps.map Span.start) (ps.map Span.stop) 0 front) back
  rw [← hpieces,← hd'] at htokens
  exact ⟨d',_,htokens,hbare⟩

/-- With parentheses around some of its nodes a statement comes to the same. -/
theorem restates_bracketed (h : s.standardTokens = d.tokens ++ rest)
    (hg : d.value.tree.GroupedAt ps u) (nesting : Nesting) (copy : Nat) :
    s.Restates nesting d.tree ⟨Text.bracketed ps s.text,copy⟩
      (.assign d.tree.span d.target u) := by
  obtain ⟨d',rest',h',hbare⟩ := exists_derivation_bracketed h hg copy
  have hheight : d.tree.height ≤ (Tree.assign d.tree.span d.target u).height :=
    Nat.succ_le_succ hg.height_le
  have hfollows : (Tree.assign d.tree.span d.target u).Follows d.tree :=
    Tree.Follows.assign hg.follows
  refine ⟨d',(Tree.same_iff _ _).2 hbare,?_,?_,?_⟩
  · intro c hc
    exact statement_of_tokens h' nesting hc
  · intro store c c' hc hc'
    have hvalue := hfollows.bareResult_eq hheight hbare nesting store
    exact (canonical_of_tokens h).sameOutcome (canonical_of_tokens h') hvalue _ hc hc'
  · rintro rfl
    exact ⟨d'.depth_le_ample,fun store c => Tree.not_givenUp_unlimited⟩

/-- So it does with parentheses around all of them. -/
theorem restates_explicit (h : s.standardTokens = d.tokens ++ rest) (nesting : Nesting)
    (copy : Nat) : s.Restates nesting d.tree
      ⟨Text.bracketed (d.value.tree.nodes.map Tree.span) s.text,copy⟩
      (.assign d.tree.span d.target d.value.tree.explicit) :=
  restates_bracketed h (arithmetic_value h).groupedAt_explicit nesting copy

/-- Parentheses around a node are put in front of its text and behind it. -/
theorem Locates.bracketed_eq {n : Tree} (h : s.Locates n) : Text.bracketed [n.span] s.text =
    s.text.take n.span.start.toNat ++ '(' ::
      (s.textOf n ++ ')' :: s.text.drop n.span.stop.toNat) := by
  obtain ⟨before,ts,after,hts,-,hframes⟩ := h
  have hproper := hframes.proper (inOrder_of_part hts)
  obtain ⟨first,last,hfirst,hlast,hspan⟩ := hframes
  have hsub := sublist_of_part hts
  obtain ⟨i,_,hi,-⟩ := exists_span_of_mem (hsub.subset (List.mem_of_mem_head? hfirst))
  obtain ⟨_,j,hj,-,hle,-⟩ := exists_span_of_mem (hsub.subset (List.mem_of_getLast? hlast))
  rw [hi,hj] at hspan
  rw [hspan] at hproper
  rw [textOf,hspan,Text.slice_ofNat,Text.bracketed_singleton (Int.ofNat_lt.1 hproper.2) hle]
  rfl

/-- Making the grouping of a statement explicit changes nothing. Parentheses around any of the nodes
of its expression, or around all of them at once, give a program that is read as the same tree with
groups there, and that comes to the same value or unknown variable and to the same store. Only the
limits to nesting may keep it from being read or evaluated. -/
theorem explicit_grouping_restates (nesting : Nesting) (s : Source) (c : Console) (t : Tree)
    (h : (s.statement .standard nesting c).1 = .ok t) (copy : Nat) :
    ∃ span x e, t = .assign span x e ∧
      (∀ n ∈ e.nodes, ∃ context : Tree.Context, e = context.plug n) ∧
      (∀ (context : Tree.Context) (n : Tree), e = context.plug n →
        s.Restates nesting t
          ⟨s.text.take n.span.start.toNat ++ '(' ::
            (s.textOf n ++ ')' :: s.text.drop n.span.stop.toNat),copy⟩
          (.assign span x (context.plug (.group n.span n)))) ∧
      s.Restates nesting t ⟨Text.bracketed (e.nodes.map Tree.span) s.text,copy⟩
        (.assign span x e.explicit) := by
  obtain ⟨d,rest,hd,rfl⟩ := exists_of_statement h
  have hall : s.standardTokens = [] ++ d.tokens ++ rest := hd.symm
  have harith := arithmetic_value hd.symm
  refine ⟨d.tree.span,d.target,d.value.tree,rfl,fun n hn => harith.exists_plug hn,?_,?_⟩
  · intro context n hn
    have hg : d.value.tree.GroupedAt [n.span] (context.plug (.group n.span n)) := by
      rw [hn] at harith ⊢
      exact harith.groupedAt_plug
    have hmem : n ∈ d.tree.nodes := by
      apply List.mem_cons_of_mem
      rw [hn]
      exact context.mem_nodes_plug n
    rw [← (in_place_of_mem_nodes d hall hmem).2.bracketed_eq]
    exact restates_bracketed hd.symm hg nesting copy
  · exact restates_explicit hd.symm nesting copy

/-- The product belongs together, and the sign to the variable. -/
theorem explicit_grouping_restates_product : ∃ span x e,
    (statement .standard .standard ⟨"x=1-2*-a;".toList,0⟩ {}).1 = .ok (.assign span x e) ∧
      e.explicit.code = "((1)-((2)*(-(a))))".toList ∧
      Restates .standard ⟨"x=1-2*-a;".toList,0⟩ (.assign span x e)
        ⟨"x=((1)-((2)*(-(a))));".toList,0⟩ (.assign span x e.explicit) := by
  have hread : ((statement .standard .standard ⟨"x=1-2*-a;".toList,0⟩ {}).1.map fun t =>
      (Text.bracketed (t.nodes.tail.map Tree.span) "x=1-2*-a;".toList,
        t.nodes.tail.head?.map fun e => e.explicit.code)).toOption =
      some ("x=((1)-((2)*(-(a))));".toList,some "((1)-((2)*(-(a))))".toList) := by
    decide +kernel
  cases ht : (statement .standard .standard ⟨"x=1-2*-a;".toList,0⟩ {}).1 with
  | error f =>
    rw [ht] at hread
    cases hread
  | ok t =>
    obtain ⟨span,x,e,rfl,-,-,hall⟩ := explicit_grouping_restates .standard _ {} t ht 0
    rw [ht] at hread
    obtain ⟨htext,hcode⟩ := Prod.mk.inj (Option.some.inj hread)
    have hnodes : (Tree.assign span x e).nodes.tail = e.nodes := rfl
    rw [hnodes] at htext hcode
    rw [e.head?_nodes] at hcode
    rw [htext] at hall
    exact ⟨span,x,e,rfl,Option.some.inj hcode,hall⟩

/-- The signs in front of the number, each with parentheses around all it stands in front of. -/
theorem bracketed_minuses :
    Text.bracketed ((List.range 301).map fun i => ⟨(2+i : Nat),303⟩)
        ("x=".toList ++ (List.replicate 300 '-' ++ "1;".toList)) =
      "x=".toList ++ ((List.replicate 300 ['(','-']).flatten ++
        ("(1".toList ++ List.replicate 301 ')' ++ [';'])) := by
  let places : List Span := (List.range 301).map fun i => ⟨(2+i : Nat),303⟩
  let opens := places.map Span.start
  let closes := places.map Span.stop
  have hfront : Text.bracket opens closes 0 "x=".toList = "x=".toList := by decide +kernel
  have hback : Text.bracket opens closes 302 "1;".toList =
      "(1".toList ++ List.replicate 301 ')' ++ [';'] := by decide +kernel
  have hnodup : opens.Nodup := by
    simp only [opens,places,List.map_map]
    refine List.pairwise_map.2 (List.nodup_range.imp ?_)
    intro a b hne heq
    simp only [Function.comp_apply] at heq
    omega
  have hminuses : Text.bracket opens closes 2 (List.replicate 300 '-' ++ "1;".toList) =
      (List.replicate 300 ['(','-']).flatten ++ Text.bracket opens closes 302 "1;".toList := by
    apply Text.bracket_replicate
    · intro i hi hlt
      have hmem : (i : Int) ∈ opens := by
        simp only [opens,places,List.map_map,List.mem_map,List.mem_range,Function.comp_apply]
        exact ⟨i-2,by omega,by omega⟩
      rw [hnodup.count,if_pos hmem]
    · intro i hi hle hmem
      simp only [closes,places,List.map_map,List.mem_map,Function.comp_apply] at hmem
      omega
  rw [Text.bracketed,Text.bracket_append]
  change Text.bracket opens closes 0 "x=".toList ++
    Text.bracket opens closes 2 (List.replicate 300 '-' ++ "1;".toList) = _
  rw [hfront,hminuses,hback]

/-- Without parentheses 300 minus signs are read and evaluated, but not with all of them. -/
theorem explicit_grouping_too_deep : ∃ (s : Source) (span : Span) (x : Token) (e : Tree),
    s.text = "x=".toList ++ (List.replicate 300 '-' ++ "1;".toList) ∧
      (s.statement .standard .standard {}).1 = .ok (.assign span x e) ∧
      ((Tree.assign span x e).evaluate .standard s {} {}).1.isOk ∧
      (statement .standard .standard ⟨Text.bracketed (e.nodes.map Tree.span) s.text,0⟩ {}).1 =
        .error .tooDeep := by
  let s : Source := ⟨"x=".toList ++ (List.replicate 300 '-' ++ "1;".toList),0⟩
  have hread : ((s.statement .standard .standard {}).1.map fun t =>
      (t.nodes.tail.map Tree.span,(t.evaluate .standard s {} {}).1.isOk)).toOption =
      some ((List.range 301).map fun i => ⟨(2+i : Nat),303⟩,true) := by decide +kernel
  have hdeep : (statement .standard .standard ⟨"x=".toList ++
      ((List.replicate 300 ['(','-']).flatten ++
        ("(1".toList ++ List.replicate 301 ')' ++ [';'])),0⟩ {}).1.isOk = false := by
    decide +kernel
  cases ht : (s.statement .standard .standard {}).1 with
  | error f =>
    rw [ht] at hread
    cases hread
  | ok t =>
    rw [ht] at hread
    obtain ⟨hplaces,hvalue⟩ := Prod.mk.inj (Option.some.inj hread)
    obtain ⟨d,rest,hd,rfl⟩ := exists_of_statement ht
    have hnodes : d.tree.nodes.tail = d.value.tree.nodes := rfl
    rw [hnodes] at hplaces
    obtain ⟨d',-,hrestated,-⟩ := restates_explicit hd.symm .standard 0
    have hresult := hrestated {} rfl
    refine ⟨s,d.tree.span,d.target,d.value.tree,rfl,ht,hvalue,?_⟩
    rw [hplaces] at hresult ⊢
    rw [← bracketed_minuses] at hdeep
    split at hresult
    · rw [hresult] at hdeep
      cases hdeep
    · exact hresult

end Source

end AssignLang
