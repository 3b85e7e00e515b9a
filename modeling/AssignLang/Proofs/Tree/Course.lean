import AssignLang.Proofs.Session.History

namespace AssignLang

/-- A store after further assignments. -/
def Store.putAll (s : Store) (as : List (Text × Float)) : Store :=
  as.foldl (fun s a => s.put a.1 a.2) s

theorem Store.putAll_snoc (s : Store) (as : List (Text × Float)) (x : Text) (v : Float) :
    s.putAll (as ++ [(x,v)]) = (s.putAll as).put x v := by
  rw [putAll,List.foldl_append]
  rfl

/-- Names that were there keep their places, and new ones follow in the order of their first
assignments. -/
theorem Store.names_putAll (s : Store) (as : List (Text × Float)) :
    (s.putAll as).names = s.names ++ ((as.map Prod.fst).filter (· ∉ s.names)).eraseDups := by
  induction as generalizing s with
  | nil => simp [putAll]
  | cons a as ih =>
    have hrest : (s.putAll (a :: as)).names = ((s.put a.1 a.2).putAll as).names := rfl
    rw [hrest,ih,names_put,List.map_cons]
    by_cases ha : a.1 ∈ s.names
    · rw [if_pos ha,List.filter_cons_of_neg (by simpa using ha)]
    · rw [if_neg ha,List.filter_cons_of_pos (by simpa using ha),List.eraseDups_cons,
        List.filter_filter,List.append_assoc,List.singleton_append]
      congr 4
      funext x
      by_cases hx : x ∈ s.names
      · simp [hx]
      · rw [Bool.eq_iff_iff]
        simp [hx]

/-- The failure an evaluation of a tree of `source` ends with at an obstacle, and the console then.
A literal that is no number is not reported as a problem. -/
def Obstacle.ending (source : Source) (c : Console) : Obstacle → Failure × Console
  | undefined span x => (.stopped .evaluator [⟨source,span,some (.undefined x),1,1,none⟩],c.flush)
  | unevaluable span node =>
    (.stopped .evaluator [⟨source,span,some (.unevaluable node),1,1,none⟩],c.flush)
  | notANumber a => (.notANumber a,c)
  | tooDeep => (.tooDeep,c)

/-- What happens at one moment of an evaluation. -/
inductive Moment where
  | convert (literal : Text)
  | look (span : Span) (name : Text)
  | refuse (span : Span) (node : Text)
  | negate
  | combine (f : Float → Float → Float)
  | assign (name : Text)
  | zero
  | forget

/-- How far an evaluation has come: the values at hand, the last one first, and the assignments
completed. -/
structure Progress where
  values : List Float := []
  assigned : List (Text × Float) := []

namespace Moment

/-- What a moment of an evaluation that began with the store `s` leads to, or the obstacle that is
met. A variable is looked for among all that was assigned until then. -/
def perform (s : Store) (p : Progress) : Moment → Except Obstacle Progress
  | convert a =>
    match Numeral.ofText? a with
    | some n => .ok ⟨n.toFloat :: p.values,p.assigned⟩
    | none => .error (.notANumber a)
  | look span x =>
    match (s.putAll p.assigned).get? x with
    | some v => .ok ⟨v :: p.values,p.assigned⟩
    | none => .error (.undefined span x)
  | refuse span node => .error (.unevaluable span node)
  | negate =>
    match p.values with
    | x :: xs => .ok ⟨-x :: xs,p.assigned⟩
    | [] => .ok p
  | combine f =>
    match p.values with
    | y :: x :: xs => .ok ⟨f x y :: xs,p.assigned⟩
    | _ => .ok p
  | assign x => .ok ⟨p.values,p.assigned ++ [(x,p.values.headD 0.0)]⟩
  | zero => .ok ⟨0.0 :: p.values,p.assigned⟩
  | forget => .ok ⟨p.values.tail,p.assigned⟩

/-- The variable that is assigned. -/
def target? : Moment → Option Text
  | assign x => some x
  | _ => none

/-- One moment after the other, with no obstacle. -/
inductive Passes (s : Store) : List Moment → Progress → Progress → Prop
  | nil {p : Progress} : Passes s [] p p
  | cons {m : Moment} {ms : List Moment} {p p' p'' : Progress} (h : m.perform s p = .ok p')
      (hs : Passes s ms p' p'') : Passes s (m :: ms) p p''

/-- Where moments lead to: one more value on top of `xs`, or the first obstacle. -/
inductive Leads (s : Store) (ms : List Moment) (p : Progress) (xs : List Float) :
    Except Obstacle Float × Store → Prop
  | value {x : Float} {as : List (Text × Float)} (h : Passes s ms p ⟨x :: xs,as⟩) :
      Leads s ms p xs (.ok x,s.putAll as)
  | obstacle {before behind : List Moment} {m : Moment} {q : Progress} {e : Obstacle}
      (hsplit : ms = before ++ m :: behind) (h : Passes s before p q)
      (hm : m.perform s q = .error e) : Leads s ms p xs (.error e,s.putAll q.assigned)

section
variable {s : Store} {ms ns : List Moment} {p q r : Progress}

theorem Passes.append (h : Passes s ms p q) (h' : Passes s ns q r) : Passes s (ms ++ ns) p r := by
  induction h with
  | nil => exact h'
  | cons hm _ ih => exact .cons hm (ih h')

theorem Passes.snoc {m : Moment} (h : Passes s ms p q) (hm : m.perform s q = .ok r) :
    Passes s (ms ++ [m]) p r := h.append (.cons hm .nil)

/-- Nothing passes by an obstacle. -/
theorem Passes.not_obstacle {before behind : List Moment} {m : Moment} {e : Obstacle}
    (h : Passes s before p q) (hm : m.perform s q = .error e) :
    ¬ Passes s (before ++ m :: behind) p r := by
  induction h with
  | nil =>
    rintro (_ | ⟨hm',-⟩)
    rw [hm] at hm'
    cases hm'
  | cons hb _ ih =>
    rintro (_ | ⟨hb',hs'⟩)
    rw [hb] at hb'
    cases hb'
    exact ih hm hs'

/-- However deep a tree is, its moments are performed one by one. -/
theorem perform_ne_tooDeep {m : Moment} : m.perform s p ≠ .error .tooDeep := by
  intro h
  cases m with
  | convert | look =>
    rw [perform] at h
    split at h <;> cases h
  | negate | combine =>
    rw [perform] at h
    split at h <;> cases h
  | refuse | assign | zero | forget => cases h

/-- What is assigned are the variables of the moments at which something is. -/
theorem perform_assigned {m : Moment} (h : m.perform s p = .ok q) :
    q.assigned.map Prod.fst = p.assigned.map Prod.fst ++ m.target?.toList := by
  cases m with
  | assign x =>
    cases h
    simp [target?]
  | convert a =>
    rw [perform] at h
    split at h <;> cases h
    simp [target?]
  | look span x =>
    rw [perform] at h
    split at h <;> cases h
    simp [target?]
  | negate =>
    rw [perform] at h
    split at h <;> cases h <;> simp [target?]
  | combine f =>
    rw [perform] at h
    split at h <;> cases h <;> simp [target?]
  | refuse => cases h
  | zero | forget =>
    cases h
    simp [target?]

theorem Passes.assigned (h : Passes s ms p q) :
    q.assigned.map Prod.fst = p.assigned.map Prod.fst ++ ms.filterMap target? := by
  induction h with
  | nil => simp
  | @cons m ms p p' p'' hm _ ih =>
    rw [ih,perform_assigned hm,List.append_assoc]
    cases ht : m.target? <;> simp [ht]

variable {xs : List Float} {res : Except Obstacle Float × Store}

theorem Leads.after (h : Passes s ms p q) (h' : Leads s ns q xs res) :
    Leads s (ms ++ ns) p xs res := by
  cases h' with
  | value hp => exact .value (h.append hp)
  | obstacle hsplit hp hm =>
    exact .obstacle (by rw [hsplit,List.append_assoc]) (h.append hp) hm

theorem Leads.cons {m : Moment} (hm : m.perform s p = .ok q) (h : Leads s ms q xs res) :
    Leads s (m :: ms) p xs res := Leads.after (.cons hm .nil) h

/-- The first moment may already be an obstacle. -/
theorem Leads.first {m : Moment} {e : Obstacle} (hm : m.perform s p = .error e) :
    Leads s (m :: ms) p xs (.error e,s.putAll p.assigned) :=
  .obstacle (List.nil_append (m :: ms)).symm .nil hm

theorem Leads.before {e : Obstacle} {s' : Store} {ys : List Float}
    (h : Leads s ms p xs (.error e,s')) (ns : List Moment) :
    Leads s (ms ++ ns) p ys (.error e,s') := by
  cases h with
  | obstacle hsplit hp hm =>
    exact .obstacle (by rw [hsplit,List.append_assoc,List.cons_append]) hp hm

end

end Moment

namespace Tree

mutual

/-- The moments of an evaluation in their order, up to its end if there is no obstacle: left before
right, a value before its assignment. An operator in front of an operand is refused before the
operand if it does not negate, and what is no operator between two operands is refused behind
both. -/
def moments : Tree → List Moment
  | t@(leaf span) => [.refuse span t.label]
  | number _ a => [.convert a.text]
  | name span a => [.look span a.text]
  | t@(unary span op operand) =>
    (if op.kind = .minus then [] else [.refuse span t.label]) ++ (operand.moments ++ [.negate])
  | t@(binary span left op right) =>
    left.moments ++ (right.moments ++
      [match arithmetic? op.kind with
        | some f => .combine f
        | none => .refuse span t.label])
  | group _ inner => inner.moments
  | assign _ target t => t.moments ++ [.assign target.text]
  | block _ ts => .zero :: momentsAll ts

def momentsAll : List Tree → List Moment
  | [] => []
  | t :: ts => .forget :: (t.moments ++ momentsAll ts)

end

open Moment

mutual

/-- The value of a tree is what its moments lead to. -/
theorem leads_moments (s : Store) : (t : Tree) → {room : Nat} → t.height ≤ room →
    (p : Progress) → Leads s t.moments p p.values (t.value room (s.putAll p.assigned))
  | leaf span, _+1, _, p => .first rfl
  | number _ a, _+1, _, p => by
    rw [moments,value]
    cases hn : Numeral.ofText? a.text with
    | some n => exact .value (.cons (by rw [perform,hn]) .nil)
    | none => exact .first (by rw [perform,hn])
  | name span a, _+1, _, p => by
    rw [moments,value]
    cases hv : (s.putAll p.assigned).get? a.text with
    | some v => exact .value (.cons (by rw [perform,hv]) .nil)
    | none => exact .first (by rw [perform,hv])
  | unary span op t, room+1, hroom, p => by
    rw [moments,value]
    rw [height] at hroom
    have ht := leads_moments s t (Nat.le_of_succ_le_succ hroom) p
    split
    · rw [List.nil_append]
      generalize t.value room (s.putAll p.assigned) = result at ht ⊢
      obtain ⟨e | x,s'⟩ := result
      · exact ht.before _
      · cases ht with
        | value h => exact .value (h.snoc rfl)
    · exact .first rfl
  | binary span l op r, room+1, hroom, p => by
    rw [moments,value]
    rw [height] at hroom
    have hl := leads_moments s l (show l.height ≤ room by omega) p
    generalize l.value room (s.putAll p.assigned) = result at hl ⊢
    obtain ⟨e | x,s'⟩ := result
    · exact hl.before _
    · cases hl with
      | @value x as h =>
        apply Leads.after h
        have hr := leads_moments s r (show r.height ≤ room by omega) ⟨x :: p.values,as⟩
        simp only at hr ⊢
        generalize r.value room (s.putAll as) = result at hr ⊢
        obtain ⟨e | y,s''⟩ := result
        · exact hr.before _
        · cases hr with
          | value h =>
            apply Leads.after h
            cases arithmetic? op.kind with
            | some f => exact .value (.cons rfl .nil)
            | none => exact .first rfl
  | group _ t, room+1, hroom, p => by
    rw [height] at hroom
    exact leads_moments s t (Nat.le_of_succ_le_succ hroom) p
  | assign _ x t, room+1, hroom, p => by
    rw [moments,value]
    rw [height] at hroom
    have ht := leads_moments s t (Nat.le_of_succ_le_succ hroom) p
    generalize t.value room (s.putAll p.assigned) = result at ht ⊢
    obtain ⟨e | v,s'⟩ := result
    · exact ht.before _
    · cases ht with
      | @value v as h =>
        simp only [← Store.putAll_snoc]
        exact .value (h.snoc rfl)
  | block _ ts, room+1, hroom, p => by
    rw [height] at hroom
    have hts := leads_momentsAll s ts (Nat.le_of_succ_le_succ hroom) p.values p.assigned 0.0
    exact .cons rfl hts

theorem leads_momentsAll (s : Store) : (ts : List Tree) → {room : Nat} → heightAll ts ≤ room →
    (xs : List Float) → (as : List (Text × Float)) → (last : Float) →
    Leads s (momentsAll ts) ⟨last :: xs,as⟩ xs (valueAll ts room (s.putAll as) last)
  | [], _, _, _, _, _ => .value .nil
  | t :: ts, room, hroom, xs, as, last => by
    rw [momentsAll,valueAll]
    rw [heightAll] at hroom
    apply Leads.cons rfl
    have ht := leads_moments s t (show t.height ≤ room by omega) ⟨xs,as⟩
    simp only [List.tail_cons] at ht ⊢
    generalize t.value room (s.putAll as) = result at ht ⊢
    obtain ⟨e | x,s'⟩ := result
    · exact ht.before _
    · cases ht with
      | @value x bs h =>
        exact .after h (leads_momentsAll s ts (show heightAll ts ≤ room by omega) xs bs x)

end

theorem evaluate_of_obstacle {t : Tree} {nesting : Nesting} {source : Source} {s s' : Store}
    {c : Console} {e : Obstacle} (hc : c.problems = [])
    (hroom : nesting.walkingNeeds.raising ≤ t.roomLeft (nesting.walkingRoom t) s)
    (h : t.value (nesting.walkingRoom t) s = (.error e,s')) :
    t.evaluate nesting source s c = (.error (e.ending source c).1,s',(e.ending source c).2) := by
  cases e with
  | undefined span x => exact evaluate_of_undefined hc hroom h
  | unevaluable span node =>
    have hreport : c.fail source span (.unevaluable node) =
        (.stopped .evaluator [⟨source,span,some (.unevaluable node),1,1,none⟩],c.flush) :=
      Console.fail_eq hc rfl
    rw [evaluate,h]
    simp only [report_of_le hroom,hreport]
    rfl
  | notANumber a | tooDeep =>
    rw [evaluate,h]
    rfl

/-- Whatever a tree looks like, its moments are gone through in their order up to the first one that
meets an obstacle. Without any there is a value. Otherwise the evaluation fails with the first, and
with no other problem. In either case just the assignments in front of it were made. -/
theorem evaluation_ends_at_first_fault (t : Tree) (source : Source) (s : Store) (c : Console)
    (hc : c.problems = []) :
    ((∃ v, (t.evaluate .unlimited source s c).1 = .ok v) ↔ ∃ p, Passes s t.moments {} p) ∧
    ∃ before p, Passes s before {} p ∧
      p.assigned.map Prod.fst = before.filterMap Moment.target? ∧
      (s.putAll p.assigned).names =
        s.names ++ ((p.assigned.map Prod.fst).filter (· ∉ s.names)).eraseDups ∧
      ((before = t.moments ∧ ∃ v, p.values = [v] ∧
          t.evaluate .unlimited source s c = (.ok v,s.putAll p.assigned,c)) ∨
        ∃ m behind e, t.moments = before ++ m :: behind ∧ m.perform s p = .error e ∧
          e ≠ .tooDeep ∧ t.evaluate .unlimited source s c =
            (.error (e.ending source c).1,s.putAll p.assigned,(e.ending source c).2)) := by
  have hleads := leads_moments s t (Nat.le_refl _) {}
  have hstart : s.putAll ({} : Progress).assigned = s := rfl
  rw [hstart] at hleads
  cases hv : t.value t.height s with
  | mk result s' =>
    rw [hv] at hleads
    cases hleads with
    | @value v as h =>
      have heval : t.evaluate .unlimited source s c = (.ok v,s.putAll as,c) := evaluate_of_ok hv
      refine ⟨⟨fun _ => ⟨_,h⟩,fun _ => ⟨v,by rw [heval]⟩⟩,?_⟩
      exact ⟨_,_,h,h.assigned,s.names_putAll _,.inl ⟨rfl,v,rfl,heval⟩⟩
    | @obstacle before behind m p e hsplit h hm =>
      have heval : t.evaluate .unlimited source s c =
          (.error (e.ending source c).1,s.putAll p.assigned,(e.ending source c).2) :=
        evaluate_of_obstacle hc (Nat.zero_le _) hv
      constructor
      · constructor
        · rintro ⟨v,hok⟩
          rw [heval] at hok
          cases hok
        · rintro ⟨q,hq⟩
          rw [hsplit] at hq
          exact (h.not_obstacle hm hq).elim
      · refine ⟨before,p,h,h.assigned,s.names_putAll _,.inr ⟨m,behind,e,hsplit,hm,?_,heval⟩⟩
        rintro rfl
        exact perform_ne_tooDeep hm

/-- On the left of a sign that combines nothing `a` is assigned. On its right a sign that does not
negate is met, before its operand and before the other sign. -/
theorem evaluation_ends_at_first_fault_signs :
    Console.problems {} = [] ∧ ∃ t : Tree,
      t = .binary ⟨0,9⟩ (.assign ⟨0,3⟩ ⟨['a'],.name,⟨0,1⟩⟩ (.block ⟨2,3⟩ [])) (.ofKind .equals)
        (.unary ⟨4,9⟩ (.ofKind .plus) (.assign ⟨5,9⟩ ⟨['b'],.name,⟨5,6⟩⟩ (.leaf ⟨8,9⟩))) ∧
      (¬ ∃ p, Passes {} t.moments {} p) ∧ ∃ before p m behind e,
        t.moments = before ++ m :: behind ∧ Passes {} before {} p ∧ m.perform {} p = .error e ∧
        Store.putAll {} p.assigned = ⟨[(['a'],0.0)]⟩ ∧
        (e.ending .nowhere {}).1 = .stopped .evaluator
          [⟨.nowhere,⟨4,9⟩,some (.unevaluable "Op1Node".toList),1,1,none⟩] := by
  let t : Tree := .binary ⟨0,9⟩ (.assign ⟨0,3⟩ ⟨['a'],.name,⟨0,1⟩⟩ (.block ⟨2,3⟩ []))
    (.ofKind .equals)
    (.unary ⟨4,9⟩ (.ofKind .plus) (.assign ⟨5,9⟩ ⟨['b'],.name,⟨5,6⟩⟩ (.leaf ⟨8,9⟩)))
  have hrun : t.evaluate .unlimited .nowhere {} {} = (.error (.stopped .evaluator
      [⟨.nowhere,⟨4,9⟩,some (.unevaluable "Op1Node".toList),1,1,none⟩]),⟨[(['a'],0.0)]⟩,{}) := rfl
  obtain ⟨hvalue,before,p,hpasses,-,-,⟨-,v,-,hv⟩ | ⟨m,behind,e,hsplit,hm,-,hend⟩⟩ :=
    evaluation_ends_at_first_fault t .nowhere {} {} rfl
  · rw [hrun] at hv
    cases hv
  · rw [hrun] at hend hvalue
    obtain ⟨hfailure,hrest⟩ := Prod.mk.inj hend
    obtain ⟨hstore,-⟩ := Prod.mk.inj hrest
    refine ⟨rfl,t,rfl,?_,before,p,m,behind,e,hsplit,hpasses,hm,hstore.symm,
      (Except.error.inj hfailure).symm⟩
    intro hall
    obtain ⟨v,hv⟩ := hvalue.2 hall
    cases hv

end Tree
end AssignLang
