import AssignLang.Proofs.RoundTrip
import AssignLang.Proofs.Tree.Evaluation
import AssignLang.Session

namespace AssignLang

/-- What can be asked of a session. -/
inductive Request where
  | translate (full : Bool) (program : Text)
  | translateAll (programs : List Text)
  | translateFile (bytes : List UInt8)

/-- Whether a tree is low enough for its code to be written. -/
def Nesting.writes (n : Nesting) (t : Tree) : Bool := t.height ≤ n.writingRoom t

theorem Nesting.writes_unlimited (t : Tree) : unlimited.writes t = true :=
  decide_eq_true (Nat.le_refl _)

theorem Nesting.filter_writes_unlimited (ts : List Tree) : ts.filter unlimited.writes = ts :=
  List.filter_eq_self.2 fun t _ => writes_unlimited t

namespace Tree

/-- The statements in front of the first one that has no value, or through the first one that has a
value and is too deep to be written. -/
def evaluable (nesting : Nesting) : List Tree → Store → List Tree
  | [], _ => []
  | t :: ts, s =>
    match t.value (nesting.walkingRoom t) s with
    | (.ok _,s) => t :: (if nesting.writes t then evaluable nesting ts s else [])
    | (.error _,_) => []

/-- A tree as a line of code. -/
def line (t : Tree) : Text := t.code ++ ['\n']

/-- Evaluates one tree after the other, which takes the store from `s` to `s'`. -/
inductive Runs : List Tree → Store → Store → Prop
  | nil {s : Store} : Runs [] s s
  | cons {t : Tree} {ts : List Tree} {s s' s'' : Store} {x : Float}
      (h : t.value t.height s = (.ok x,s')) (hs : Runs ts s' s'') : Runs (t :: ts) s s''

theorem Runs.append {ts us : List Tree} {s s' s'' : Store} (ht : Runs ts s s')
    (hu : Runs us s' s'') : Runs (ts ++ us) s s'' := by
  induction ht with
  | nil => exact hu
  | cons h hs ih => exact .cons h (ih hu)

theorem Runs.of_bareAll {ts us : List Tree} {s s' : Store} (h : Runs ts s s')
    (hb : bareAll ts = bareAll us) : Runs us s s' := by
  induction h generalizing us with
  | nil =>
    cases us with
    | nil => exact .nil
    | cons u us => cases hb
  | cons hv hs ih =>
    cases us with
    | nil => cases hb
    | cons u us =>
      obtain ⟨hu,hus⟩ := List.cons.inj hb
      exact .cons (value_of_bare hu hv) (ih hus)

theorem flatMap_line_of_bareAll {ts us : List Tree} (h : bareAll ts = bareAll us) :
    ts.flatMap line = us.flatMap line := by
  induction ts generalizing us with
  | nil =>
    cases us with
    | nil => rfl
    | cons u us => cases h
  | cons t ts ih =>
    cases us with
    | nil => cases h
    | cons u us =>
      obtain ⟨hu,hus⟩ := List.cons.inj h
      rw [List.flatMap_cons,List.flatMap_cons,ih hus,line,line,code_eq_of_bare hu]

theorem Runs.unique {ts : List Tree} {s s' s'' : Store} (h : Runs ts s s') (h' : Runs ts s s'') :
    s'' = s' := by
  induction h with
  | nil =>
    cases h'
    rfl
  | cons hv hs ih =>
    cases h' with
    | cons hv' hs' =>
      rw [hv] at hv'
      obtain ⟨-,rfl⟩ := Prod.mk.inj hv'
      exact ih hs'

/-- Statements have values and are written up to the first one that has none, or is not. -/
theorem evaluable_cases (nesting : Nesting) {ts : List Tree}
    (hts : ∀ t ∈ ts, t.Canonical .statement) (s : Store) :
    evaluable nesting ts s = ts ∧ (∀ t ∈ ts, nesting.writes t) ∨
    ∃ before u after s', ts = before ++ u :: after ∧
      (∀ t ∈ before, t.height ≤ nesting.walkingRoom t ∧ nesting.writes t) ∧ Runs before s s' ∧
      ((∃ e, evaluable nesting ts s = before ∧
          u.value (nesting.walkingRoom u) s' = (.error e,s')) ∨
        ∃ x s'', evaluable nesting ts s = before ++ [u] ∧ nesting.writes u = false ∧
          u.value (nesting.walkingRoom u) s' = (.ok x,s'') ∧ u.value u.height s' = (.ok x,s'')) := by
  induction ts generalizing s with
  | nil => exact .inl ⟨rfl,by simp⟩
  | cons t ts ih =>
    obtain ⟨ht,hts⟩ := List.forall_mem_cons.1 hts
    rw [evaluable]
    rcases ht.value_cases (nesting.walkingRoom t) s with ⟨x,s₁,hroom,hv⟩ | ⟨e,hv,-⟩
    · rw [hv]
      have hheight : t.value t.height s = (.ok x,s₁) := by
        rw [value_congr_room t (Nat.le_refl _) hroom,hv]
      cases hwrites : nesting.writes t with
      | false => exact .inr ⟨[],t,ts,s,rfl,by simp,.nil,.inr ⟨x,s₁,rfl,hwrites,hv,hheight⟩⟩
      | true =>
        simp only [if_true]
        rcases ih hts s₁ with ⟨hall,hwritten⟩ | ⟨before,u,after,s',rfl,hrooms,hruns,hend⟩
        · exact .inl ⟨congrArg (t :: ·) hall,List.forall_mem_cons.2 ⟨hwrites,hwritten⟩⟩
        · refine .inr ⟨t :: before,u,after,s',rfl,List.forall_mem_cons.2 ⟨⟨hroom,hwrites⟩,hrooms⟩,
            .cons hheight hruns,?_⟩
          rcases hend with ⟨e,hbefore,hu⟩ | ⟨y,s'',hbefore,hu⟩
          · exact .inl ⟨e,congrArg (t :: ·) hbefore,hu⟩
          · exact .inr ⟨y,s'',congrArg (t :: ·) hbefore,hu⟩
    · rw [hv]
      exact .inr ⟨[],t,ts,s,rfl,by simp,.nil,.inl ⟨e,rfl,hv⟩⟩

/-- What was run has values and is written wherever there is room for it. -/
theorem Runs.evaluable {nesting : Nesting} {ts : List Tree} {s s' : Store} (h : Runs ts s s')
    (hroom : ∀ t ∈ ts, t.height ≤ nesting.walkingRoom t ∧ nesting.writes t) :
    evaluable nesting ts s = ts := by
  induction h with
  | nil => rfl
  | cons hv hs ih =>
    obtain ⟨⟨ht,hwrites⟩,hroom⟩ := List.forall_mem_cons.1 hroom
    rw [Tree.evaluable,value_congr_room _ ht (Nat.le_refl _),hv]
    simp only [hwrites,if_true]
    exact congrArg (_ :: ·) (ih hroom)

/-- Statements that were run leave the others to be evaluated. -/
theorem Runs.valueAll_append {ts : List Tree} {s s' : Store} (h : Runs ts s s') {room : Nat}
    (hroom : heightAll ts ≤ room) (us : List Tree) (last : Float) :
    ∃ x, valueAll (ts ++ us) room s last = valueAll us room s' x := by
  induction h generalizing last with
  | nil => exact ⟨last,rfl⟩
  | @cons t ts s s₁ s₂ x hv hs ih =>
    rw [heightAll] at hroom
    have ht : t.height ≤ room := by omega
    obtain ⟨y,hy⟩ := ih (by omega) x
    refine ⟨y,?_⟩
    rw [List.cons_append,valueAll,value_congr_room t ht (Nat.le_refl _),hv]
    exact hy

theorem Runs.valueAll {ts : List Tree} {s s' : Store} (h : Runs ts s s') {room : Nat}
    (hroom : heightAll ts ≤ room) (last : Float) :
    ∃ x, valueAll ts room s last = (.ok x,s') := by
  obtain ⟨x,hx⟩ := h.valueAll_append hroom [] last
  rw [List.append_nil] at hx
  exact ⟨x,hx⟩

section
variable {t : Tree} {nesting : Nesting} {source : Source} {s s' : Store} {c : Console}

theorem evaluate_of_ok {x : Float} (h : t.value (nesting.walkingRoom t) s = (.ok x,s')) :
    t.evaluate nesting source s c = (.ok x,s',c) := by
  rw [evaluate,h]

theorem evaluate_of_tooDeep (h : t.value (nesting.walkingRoom t) s = (.error .tooDeep,s')) :
    t.evaluate nesting source s c = (.error .tooDeep,s',c) := by
  rw [evaluate,h]

theorem report_of_le (h : nesting.walkingNeeds.raising ≤ t.roomLeft (nesting.walkingRoom t) s)
    (source : Source) (c : Console) (span : Span) (fault : Fault) :
    t.report nesting source s c span fault = c.fail source span fault :=
  Console.failWithin_of_le h c source span fault

theorem evaluate_of_undefined {place : Span} {x : Text} (hc : c.problems = [])
    (hroom : nesting.walkingNeeds.raising ≤ t.roomLeft (nesting.walkingRoom t) s)
    (h : t.value (nesting.walkingRoom t) s = (.error (.undefined place x),s')) :
    t.evaluate nesting source s c =
      (.error (.stopped .evaluator [⟨source,place,some (.undefined x),1,1,none⟩]),s',c.flush) := by
  have hreport : c.fail source place (.undefined x) =
      (.stopped .evaluator [⟨source,place,some (.undefined x),1,1,none⟩],c.flush) :=
    Console.fail_eq hc rfl
  rw [evaluate,h]
  simp only [report_of_le hroom,hreport]

end

/-- A block does what its statements do one after the other. -/
theorem Runs.evaluate {ts : List Tree} {s s' : Store} (h : Runs ts s s') (span : Span)
    (source : Source) (c : Console) :
    ∃ x, (block span ts).evaluate .unlimited source s c = (.ok x,s',c) := by
  obtain ⟨x,hx⟩ := h.valueAll (Nat.le_refl _) 0.0
  refine ⟨x,?_⟩
  apply evaluate_of_ok
  rw [Nesting.walkingRoom_unlimited,height,value,hx]

end Tree

theorem Nesting.walkingRoom_of_bare (n : Nesting) {t u : Tree} (h : t.bare = u.bare) :
    n.walkingRoom t = n.walkingRoom u := by
  rw [walkingRoom,walkingRoom,Tree.height_of_bare h]

theorem Nesting.writes_of_bare (n : Nesting) {t u : Tree} (h : t.bare = u.bare) :
    n.writes t = n.writes u := by
  rw [writes,writes,writingRoom,writingRoom,Tree.height_of_bare h]

theorem Tree.filter_writes_of_bareAll (n : Nesting) {ts us : List Tree}
    (h : bareAll ts = bareAll us) :
    bareAll (ts.filter n.writes) = bareAll (us.filter n.writes) := by
  induction ts generalizing us with
  | nil =>
    cases us with
    | nil => rfl
    | cons u us => cases h
  | cons t ts ih =>
    cases us with
    | nil => cases h
    | cons u us =>
      obtain ⟨hu,hus⟩ := List.cons.inj h
      rw [List.filter_cons,List.filter_cons,n.writes_of_bare hu]
      split
      · simp only [bareAll,hu,ih hus]
      · exact ih hus

theorem Nesting.height_le_walkingRoom {n : Nesting} {t u : Tree} (hle : u.height ≤ t.height)
    (h : t.height ≤ n.walkingRoom t) : u.height ≤ n.walkingRoom u := by
  unfold walkingRoom at h ⊢
  cases hwalk : n.walking with
  | none => exact Nat.le_refl _
  | some limit =>
    rw [hwalk] at h
    exact Nat.le_trans hle h

namespace Session

def perform (s : Session) : Request → Session
  | .translate full p => (s.translate full {text := p}).2
  | .translateAll ps => (s.translateAll ps).2
  | .translateFile bytes => (s.translateBytes bytes).2

def performAll (s : Session) (rs : List Request) : Session := rs.foldl perform s

/-- The statements of a program that are executed, if it can be read at all. -/
def executed (full : Bool) (source : Source) (s : Session) : List Tree :=
  match (s.read full source).1 with
  | .ok t => Tree.evaluable s.nesting t.statements s.store
  | .error _ => []

def executedAll : List Text → Session → List Tree
  | [], _ => []
  | p :: ps, s => s.executed false {text := p} ++ executedAll ps (s.translate false {text := p}).2

def executedBytes (bytes : List UInt8) (s : Session) : List Tree :=
  match Text.ofBytes bytes with
  | .ok text => {s with copies := s.copies+1}.executed true ⟨text,s.copies+1⟩
  | .error _ => []

/-- The statements a request executes in the order of their execution. -/
def log (s : Session) : Request → List Tree
  | .translate full p => s.executed full {text := p}
  | .translateAll ps => s.executedAll ps
  | .translateFile bytes => s.executedBytes bytes

def history : Session → List Request → List Tree
  | _, [] => []
  | s, r :: rs => s.log r ++ history (s.perform r) rs

end Session
end AssignLang
