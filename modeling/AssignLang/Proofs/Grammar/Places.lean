import AssignLang.Proofs.Grammar.Recognition
import AssignLang.Proofs.Tree.Places

namespace AssignLang

theorem Tree.span_bare (t : Tree) : t.bare.span = .unknown := by cases t <;> rfl

/-- Where reading stopped, without the places of the tokens to come. -/
def Stop.bare : Stop → Stop
  | unexpected wanted rest room => unexpected wanted (rest.map Token.bare) room
  | tooDeep rest => tooDeep (rest.map Token.bare)

namespace Grammar

section
variable {α β : Type}

section
variable (f : α → α)

/-- What reading comes to, without places. `f` takes them out of what was read. -/
def bareRead (r : Except Stop (α × List Token)) : Except Stop (α × List Token) :=
  match r with
  | .ok (a,rest) => .ok (f a,rest.map Token.bare)
  | .error e => .error e.bare

@[simp] theorem bareRead_ok (a : α) (rest : List Token) :
    bareRead f (.ok (a,rest)) = .ok (f a,rest.map Token.bare) := rfl

@[simp] theorem bareRead_error (e : Stop) :
    bareRead f (.error e : Except Stop (α × List Token)) = .error e.bare := rfl

end

/-- Places are seen in no step of reading if they are seen neither in the first nor in what is done
with its result. -/
theorem bareRead_bind (f : α → α) {g : β → β} {r r' : Except Stop (α × List Token)}
    {next next' : α × List Token → Except Stop (β × List Token)} (h : r' = bareRead f r)
    (hnext : ∀ a rest, next' (f a,rest.map Token.bare) = bareRead g (next (a,rest))) :
    r' >>= next' = bareRead g (r >>= next) := by
  rw [h]
  cases r with
  | error e => rfl
  | ok p => exact hnext p.1 p.2

/-- What comes to the same without places ended in the same way. -/
theorem cases_of_bareRead {f : α → α} {r r' : Except Stop (α × List Token)}
    (h : bareRead f r' = bareRead f r) :
    (∃ a a' rest rest', r = .ok (a,rest) ∧ r' = .ok (a',rest') ∧ f a' = f a) ∨
    (∃ rest rest', r = .error (.tooDeep rest) ∧ r' = .error (.tooDeep rest')) ∨
    ∃ wanted rest rest' room, r = .error (.unexpected wanted rest room) ∧
      r' = .error (.unexpected wanted rest' room) ∧
      rest'.map Token.bare = rest.map Token.bare := by
  cases r with
  | ok p =>
    cases r' with
    | error e => cases h
    | ok q =>
      obtain ⟨hf,-⟩ := Prod.mk.inj (Except.ok.inj h)
      exact .inl ⟨p.1,q.1,p.2,q.2,rfl,rfl,hf⟩
  | error e =>
    cases r' with
    | ok q => cases h
    | error e' =>
      have he : e'.bare = e.bare := Except.error.inj h
      cases e <;> cases e'
      case tooDeep.tooDeep rest rest' => exact .inr (.inl ⟨rest,rest',rfl,rfl⟩)
      case unexpected.unexpected wanted rest room wanted' rest' room' =>
        obtain ⟨rfl,hrest,rfl⟩ := Stop.unexpected.inj he
        exact .inr (.inr ⟨wanted',rest,rest',room',rfl,rfl,hrest⟩)
      all_goals cases he

end

theorem take_bare (room : Nat) (k : Kind) (ts : List Token) :
    take room k (ts.map Token.bare) = bareRead Token.bare (take room k ts) := by
  cases ts with
  | nil => rfl
  | cons t ts =>
    by_cases hk : t.kind = k <;> simp [take,hk,Stop.bare]

theorem chain_bare {isOperator : Kind → Bool} {operand : Reader Tree}
    (h : ∀ ts, operand (ts.map Token.bare) = bareRead Tree.bare (operand ts)) (n : Nat)
    (left : Tree) (ts : List Token) : chain isOperator operand n left.bare (ts.map Token.bare) =
      bareRead Tree.bare (chain isOperator operand n left ts) := by
  induction n generalizing left ts with
  | zero => cases ts <;> rfl
  | succ n ih =>
    cases ts with
    | nil => rfl
    | cons op ts =>
      rw [List.map_cons,chain,chain,Token.bare_kind]
      by_cases hop : isOperator op.kind
      · rw [if_pos hop,if_pos hop,h]
        cases operand ts with
        | error e => rfl
        | ok p =>
          obtain ⟨right,rest⟩ := p
          have hrest := ih (.binary (left.span.join right.span) left op right) rest
          simp only [bareRead_ok,Tree.span_bare]
          exact hrest
      · rw [if_neg hop,if_neg hop]
        rfl

/-- The levels of the grammar read the same off tokens at other places. -/
theorem levels_bare (room : Nat) (ts : List Token) :
    expression room (ts.map Token.bare) = bareRead Tree.bare (expression room ts) ∧
    term room (ts.map Token.bare) = bareRead Tree.bare (term room ts) ∧
    factor room (ts.map Token.bare) = bareRead Tree.bare (factor room ts) := by
  induction room generalizing ts with
  | zero => exact ⟨rfl,rfl,rfl⟩
  | succ room ih =>
    refine ⟨?expression,?term,?factor⟩
    case expression =>
      rw [expression,expression,(ih ts).2.1]
      cases term room ts with
      | error e => rfl
      | ok p =>
        obtain ⟨left,rest⟩ := p
        have hchain : chain isSum (term room) rest.length left.bare (rest.map Token.bare) = _ :=
          chain_bare (fun us => (ih us).2.1) rest.length left rest
        simpa only [bareRead_ok,List.length_map] using hchain
    case term =>
      rw [term,term,(ih ts).2.2]
      cases factor room ts with
      | error e => rfl
      | ok p =>
        obtain ⟨left,rest⟩ := p
        have hchain : chain isProduct (factor room) rest.length left.bare (rest.map Token.bare) = _ :=
          chain_bare (fun us => (ih us).2.2) rest.length left rest
        simpa only [bareRead_ok,List.length_map] using hchain
    case factor =>
      cases ts with
      | nil => rfl
      | cons t ts =>
        rw [List.map_cons,factor,factor,Token.bare_kind]
        cases t.kind with
        | minus =>
          simp only [(ih ts).2.2]
          cases factor room ts with
          | error e => rfl
          | ok p =>
            obtain ⟨operand,rest⟩ := p
            simp only [bareRead_ok,Tree.span_bare]
            rfl
        | lparen =>
          simp only [(ih ts).1]
          cases expression room ts with
          | error e => rfl
          | ok p =>
            obtain ⟨inner,rest⟩ := p
            simp only [bareRead_ok,take_bare]
            cases take room .rparen rest <;> rfl
        | _ => rfl

theorem statement_bare (room : Nat) (ts : List Token) :
    statement room (ts.map Token.bare) = bareRead Tree.bare (statement room ts) := by
  apply bareRead_bind Token.bare (take_bare room .name ts)
  intro target ts
  apply bareRead_bind Token.bare (take_bare room .equals ts)
  intro equals ts
  apply bareRead_bind Tree.bare (levels_bare room ts).1
  intro value ts
  apply bareRead_bind Token.bare (take_bare room .semicolon ts)
  intro semicolon ts
  simp only [Tree.span_bare]
  rfl

/-- So do statements. -/
theorem statements_bare (room n : Nat) (ts : List Token) :
    statements room n (ts.map Token.bare) = bareRead Tree.bareAll (statements room n ts) := by
  induction n generalizing ts with
  | zero => cases ts <;> rfl
  | succ n ih =>
    cases ts with
    | nil => rfl
    | cons t ts =>
      rw [List.map_cons,statements,statements,Token.bare_kind]
      by_cases hk : t.kind = .eof
      · rw [if_pos hk,if_pos hk]
        rfl
      · rw [if_neg hk,if_neg hk]
        apply bareRead_bind Tree.bare (statement_bare room (t :: ts))
        intro s us
        apply bareRead_bind Tree.bareAll (ih us)
        intro ss vs
        rfl

end Grammar
end AssignLang
