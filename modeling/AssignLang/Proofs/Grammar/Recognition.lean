import AssignLang.Proofs.Grammar.Derivation

namespace AssignLang.Grammar

namespace Level

/-- The reader of one operand. -/
def operandAt : Level → Nat → Reader Tree
  | sum => term
  | product => factor

/-- The reader of a whole chain. -/
def chainAt : Level → Nat → Reader Tree
  | sum => expression
  | product => term

/-- Room in which an operand of `n` tokens can be read. -/
def need : Level → Nat → Nat
  | sum,n => 3*n+2
  | product,n => 3*n+1

theorem need_mono (l : Level) {m n : Nat} (h : m ≤ n) : l.need m ≤ l.need n := by
  cases l <;> simp only [need] <;> omega

theorem chainAt_succ (l : Level) (room : Nat) (ts : List Token) :
    l.chainAt (room+1) ts =
      match l.operandAt room ts with
      | .error e => .error e
      | .ok (left,ts) => chain l.isOperator (l.operandAt room) ts.length left ts := by
  cases l with
  | sum => exact expression.eq_2 ts room
  | product => exact term.eq_2 ts room

end Level

theorem chain_of_begins {p : Kind → Bool} {operand : Reader Tree} {n : Nat} {left : Tree}
    {ts : List Token} (h : begins p ts = false) : chain p operand n left ts = .ok (left,ts) := by
  cases ts with
  | nil => cases n <;> rfl
  | cons t ts =>
    rw [begins_cons] at h
    cases n with
    | zero => rfl
    | succ n => simp [chain,h]

theorem chain_of_operator {p : Kind → Bool} {operand : Reader Tree} {n : Nat} {left : Tree}
    {op : Token} {ts : List Token} (h : p op.kind) :
    chain p operand (n+1) left (op :: ts) =
      match operand ts with
      | .error e => .error e
      | .ok (right,ts) =>
        chain p operand n (.binary (left.span.join right.span) left op right) ts := if_pos h

theorem take_of_kind {room : Nat} {k : Kind} {t : Token} (h : t.kind = k) (ts : List Token) :
    take room k (t :: ts) = .ok (t,ts) := by simp [take,h]

section
variable {room : Nat} {t : Token} {ts : List Token}

theorem factor_of_minus (h : t.kind = .minus) :
    factor (room+1) (t :: ts) =
      match factor room ts with
      | .error e => .error e
      | .ok (operand,ts) => .ok (.unary (t.span.join operand.span) t operand,ts) := by
  obtain ⟨text,kind,span⟩ := t
  obtain rfl : kind = .minus := h
  rfl

theorem factor_of_lparen (h : t.kind = .lparen) :
    factor (room+1) (t :: ts) =
      match expression room ts with
      | .error e => .error e
      | .ok (inner,ts) =>
        match take room .rparen ts with
        | .error e => .error e
        | .ok (close,ts) => .ok (.group (t.span.join close.span) inner,ts) := by
  obtain ⟨text,kind,span⟩ := t
  obtain rfl : kind = .lparen := h
  rfl

theorem factor_of_number (h : t.kind = .number) :
    factor (room+1) (t :: ts) = .ok (.number t.span t,ts) := by simp [factor,h]

theorem factor_of_name (h : t.kind = .name) :
    factor (room+1) (t :: ts) = .ok (.name t.span t,ts) := by simp [factor,h]

theorem factor_of_other (h : t.kind ∉ factorStarts) :
    factor (room+1) (t :: ts) = .error (.unexpected factorStarts (t :: ts) room) := by
  simp only [factorStarts,List.mem_cons,not_or] at h
  cases hk : t.kind <;> simp_all [factor,factorStarts]

end

mutual

/-- The levels of room that reading a derivation uses up. -/
def Chain.depth {l : Level} : Chain l → Nat
  | .mk first links => max first.depth links.depth+1

def Links.depth {l : Level} : Links l → Nat
  | .nil => 0
  | .cons _ _ operand links => max operand.depth links.depth

def Operand.depth {l : Level} : Operand l → Nat
  | .term product => product.depth
  | .minus _ _ factor => factor.depth+1
  | .group _ _ inner _ _ => inner.depth+1
  | .number _ _ => 1
  | .name _ _ => 1

end

mutual

theorem Chain.depth_le_need : {l : Level} → (d : Chain l) → d.depth ≤ l.need d.tokens.length+1
  | l, .mk first links => by
    have hf := first.depth_le_need
    have hl := links.depth_le_need
    have hf' := l.need_mono (Nat.le_add_right first.tokens.length links.tokens.length)
    have hl' := l.need_mono (Nat.le_add_left links.tokens.length first.tokens.length)
    rw [Chain.depth,Chain.tokens,List.length_append]
    omega

theorem Links.depth_le_need : {l : Level} → (d : Links l) → d.depth ≤ l.need d.tokens.length
  | _, .nil => Nat.zero_le _
  | l, .cons op hop operand links => by
    have ho := operand.depth_le_need
    have hl := links.depth_le_need
    have ho' := l.need_mono (show operand.tokens.length ≤
      operand.tokens.length+links.tokens.length+1 by omega)
    have hl' := l.need_mono (show links.tokens.length ≤
      operand.tokens.length+links.tokens.length+1 by omega)
    rw [Links.depth,Links.tokens,List.length_cons,List.length_append]
    omega

theorem Operand.depth_le_need : {l : Level} → (d : Operand l) → d.depth ≤ l.need d.tokens.length
  | _, .term product => product.depth_le_need
  | _, .minus sign hs factor => by
    have hf := factor.depth_le_need
    simp only [Level.need,Operand.depth,Operand.tokens,List.length_cons] at hf ⊢
    omega
  | _, .group opening ho inner closing hc => by
    have hi := inner.depth_le_need
    simp only [Level.need,Operand.depth,Operand.tokens,List.length_cons,List.length_append] at hi ⊢
    omega
  | _, .number token ht => by simp [Level.need,Operand.depth]
  | _, .name token ht => by simp [Level.need,Operand.depth]

end

mutual

/-- What is derived is read, up to where the chain ends. -/
theorem Chain.chainAt_tokens : {l : Level} → (d : Chain l) → {room : Nat} → {r : List Token} →
    d.depth ≤ room → Ends l r → l.chainAt room (d.tokens ++ r) = .ok (d.tree,r)
  | l, .mk first links, room+1, r, hroom, hr => by
    rw [Chain.depth] at hroom
    rw [Chain.tokens,List.append_assoc,l.chainAt_succ,
      first.operandAt_tokens (by omega) (links.begins_lengthens hr.operand)]
    exact links.chain_tokens (by omega) (by simp) hr

theorem Links.chain_tokens : {l : Level} → (d : Links l) → {room n : Nat} → {left : Tree} →
    {r : List Token} → d.depth ≤ room → d.tokens.length ≤ n → Ends l r →
    chain l.isOperator (l.operandAt room) n left (d.tokens ++ r) = .ok (d.fold left,r)
  | _, .nil, _, _, _, _, _, _, hr => chain_of_begins hr.operator
  | l, .cons op hop operand links, room, n+1, left, r, hroom, hn, hr => by
    simp only [Links.tokens,List.length_cons,List.length_append] at hn
    rw [Links.depth] at hroom
    rw [Links.tokens,List.cons_append,List.append_assoc,chain_of_operator hop,
      operand.operandAt_tokens (by omega) (links.begins_lengthens hr.operand)]
    exact links.chain_tokens (by omega) (by omega) hr

theorem Operand.operandAt_tokens : {l : Level} → (d : Operand l) → {room : Nat} →
    {r : List Token} → d.depth ≤ room → begins l.lengthens r = false →
    l.operandAt room (d.tokens ++ r) = .ok (d.tree,r)
  | _, .term product, room, r, hroom, hr => by
    have h : Level.product.chainAt room (product.tokens ++ r) = _ :=
      product.chainAt_tokens hroom (ends_product_of_lengthens hr)
    exact h
  | _, .minus sign hs operand, room+1, r, hroom, hr => by
    have h : factor room (operand.tokens ++ r) = _ :=
      operand.operandAt_tokens (Nat.le_of_succ_le_succ hroom) hr
    change factor (room+1) (sign :: (operand.tokens ++ r)) = _
    rw [factor_of_minus hs,h]
    rfl
  | _, .group opening ho inner closing hc, room+1, r, hroom, _ => by
    have h : expression room (inner.tokens ++ closing :: r) = _ :=
      inner.chainAt_tokens (Nat.le_of_succ_le_succ hroom) (ends_of_kind (.inl hc))
    change factor (room+1) (opening :: (inner.tokens ++ [closing] ++ r)) = _
    rw [List.append_assoc,factor_of_lparen ho,List.singleton_append,h]
    simp only [take_of_kind hc]
    rfl
  | _, .number token ht, _+1, _, _, _ => factor_of_number ht
  | _, .name token ht, _+1, _, _, _ => factor_of_name ht

end

section
variable {l : Level} {room n : Nat} {ts rest : List Token} {left t : Tree}

/-- Whatever reads operands only makes a chain read links. -/
theorem exists_links_of_chain
    (ho : ∀ ts t rest, l.operandAt room ts = .ok (t,rest) →
      ∃ d : Operand l, ts = d.tokens ++ rest ∧ t = d.tree ∧ d.depth ≤ room)
    (h : chain l.isOperator (l.operandAt room) n left ts = .ok (t,rest)) :
    ∃ d : Links l, ts = d.tokens ++ rest ∧ t = d.fold left ∧ d.depth ≤ room := by
  induction n generalizing left ts with
  | zero =>
    have he : (left,ts) = (t,rest) := by
      cases ts with
      | nil => exact Except.ok.inj h
      | cons op ts => exact Except.ok.inj h
    obtain ⟨rfl,rfl⟩ := Prod.mk.inj he
    exact ⟨.nil,rfl,rfl,Nat.zero_le _⟩
  | succ n ih =>
    cases hb : begins l.isOperator ts with
    | false =>
      rw [chain_of_begins hb] at h
      obtain ⟨rfl,rfl⟩ := Prod.mk.inj (Except.ok.inj h)
      exact ⟨.nil,rfl,rfl,Nat.zero_le _⟩
    | true =>
      cases ts with
      | nil => simp at hb
      | cons op ts =>
        rw [begins_cons] at hb
        rw [chain_of_operator hb] at h
        cases hop : l.operandAt room ts with
        | error e => simp [hop] at h
        | ok p =>
          obtain ⟨right,ts'⟩ := p
          obtain ⟨d,rfl,rfl,hd⟩ := ho _ _ _ hop
          simp only [hop] at h
          obtain ⟨ds,rfl,rfl,hds⟩ := ih h
          exact ⟨.cons op hb d ds,by simp [Links.tokens],by rw [Links.fold],Nat.max_le.2 ⟨hd,hds⟩⟩

theorem exists_operand_of_factor
    (he : ∀ ts t rest, expression room ts = .ok (t,rest) →
      ∃ d : Chain .sum, ts = d.tokens ++ rest ∧ t = d.tree ∧ d.depth ≤ room)
    (hf : ∀ ts t rest, factor room ts = .ok (t,rest) →
      ∃ d : Operand .product, ts = d.tokens ++ rest ∧ t = d.tree ∧ d.depth ≤ room)
    (h : factor (room+1) ts = .ok (t,rest)) :
    ∃ d : Operand .product, ts = d.tokens ++ rest ∧ t = d.tree ∧ d.depth ≤ room+1 := by
  cases ts with
  | nil => simp [factor] at h
  | cons s ts =>
    by_cases hk : s.kind ∈ factorStarts
    · simp only [factorStarts,List.mem_cons,List.not_mem_nil,or_false] at hk
      rcases hk with hk | hk | hk | hk
      · rw [factor_of_minus hk] at h
        cases ho : factor room ts with
        | error e => simp [ho] at h
        | ok p =>
          obtain ⟨operand,ts'⟩ := p
          obtain ⟨d,rfl,rfl,hd⟩ := hf _ _ _ ho
          simp only [ho] at h
          obtain ⟨rfl,rfl⟩ := Prod.mk.inj (Except.ok.inj h)
          exact ⟨.minus s hk d,rfl,rfl,Nat.succ_le_succ hd⟩
      · rw [factor_of_lparen hk] at h
        cases hi : expression room ts with
        | error e => simp [hi] at h
        | ok p =>
          obtain ⟨inner,ts'⟩ := p
          obtain ⟨d,rfl,rfl,hd⟩ := he _ _ _ hi
          simp only [hi] at h
          cases ts' with
          | nil => simp [take] at h
          | cons close ts' =>
            by_cases hc : close.kind = .rparen
            · simp only [take_of_kind hc] at h
              obtain ⟨rfl,rfl⟩ := Prod.mk.inj (Except.ok.inj h)
              exact ⟨.group s hk d close hc,by simp [Operand.tokens],rfl,Nat.succ_le_succ hd⟩
            · simp [take,hc] at h
      · rw [factor_of_number hk] at h
        obtain ⟨rfl,rfl⟩ := Prod.mk.inj (Except.ok.inj h)
        exact ⟨.number s hk,rfl,rfl,Nat.le_add_left 1 room⟩
      · rw [factor_of_name hk] at h
        obtain ⟨rfl,rfl⟩ := Prod.mk.inj (Except.ok.inj h)
        exact ⟨.name s hk,rfl,rfl,Nat.le_add_left 1 room⟩
    · rw [factor_of_other hk] at h
      cases h

end

/-- What is read was derived, and no deeper than there was room. -/
theorem exists_derivation (room : Nat) :
    (∀ (l : Level) (ts : List Token) (t : Tree) (rest : List Token),
      l.chainAt room ts = .ok (t,rest) →
        ∃ d : Chain l, ts = d.tokens ++ rest ∧ t = d.tree ∧ d.depth ≤ room) ∧
    ∀ (l : Level) (ts : List Token) (t : Tree) (rest : List Token),
      l.operandAt room ts = .ok (t,rest) →
        ∃ d : Operand l, ts = d.tokens ++ rest ∧ t = d.tree ∧ d.depth ≤ room := by
  induction room with
  | zero =>
    constructor <;> intro l ts t rest h <;> cases l <;>
      simp [Level.chainAt,Level.operandAt,expression,term,factor] at h
  | succ room ih =>
    have hchain (l : Level) (ts : List Token) (t : Tree) (rest : List Token)
        (h : l.chainAt (room+1) ts = .ok (t,rest)) :
        ∃ d : Chain l, ts = d.tokens ++ rest ∧ t = d.tree ∧ d.depth ≤ room+1 := by
      rw [l.chainAt_succ] at h
      cases ho : l.operandAt room ts with
      | error e => simp [ho] at h
      | ok p =>
        obtain ⟨left,ts'⟩ := p
        obtain ⟨first,rfl,rfl,hf⟩ := ih.2 l _ _ _ ho
        simp only [ho] at h
        obtain ⟨links,rfl,rfl,hl⟩ := exists_links_of_chain (ih.2 l) h
        exact ⟨.mk first links,by simp [Chain.tokens],by rw [Chain.tree],
          Nat.succ_le_succ (Nat.max_le.2 ⟨hf,hl⟩)⟩
    refine ⟨hchain,?_⟩
    intro l ts t rest h
    cases l with
    | sum =>
      obtain ⟨d,rfl,rfl,hd⟩ := hchain .product ts t rest h
      exact ⟨.term d,rfl,rfl,hd⟩
    | product => exact exists_operand_of_factor (ih.1 .sum) (ih.2 .product) h

theorem length_rest_lt {l : Level} {room : Nat} {ts rest : List Token} {t : Tree}
    (h : l.operandAt room ts = .ok (t,rest)) : rest.length < ts.length := by
  obtain ⟨d,rfl,-⟩ := (exists_derivation room).2 l ts t rest h
  have hd := List.length_pos_iff.2 d.tokens_ne_nil
  rw [List.length_append]
  omega

/-- A chain fails only where one of its operands does. -/
theorem exists_error_of_chain {l : Level} {room n : Nat} {ts : List Token} {left : Tree} {e : Stop}
    (h : chain l.isOperator (l.operandAt room) n left ts = .error e) :
    ∃ ts', ts'.length < ts.length ∧ l.operandAt room ts' = .error e := by
  induction n generalizing left ts with
  | zero => cases ts <;> cases h
  | succ n ih =>
    cases hb : begins l.isOperator ts with
    | false =>
      rw [chain_of_begins hb] at h
      cases h
    | true =>
      cases ts with
      | nil => simp at hb
      | cons op ts =>
        rw [begins_cons] at hb
        rw [chain_of_operator hb] at h
        cases ho : l.operandAt room ts with
        | error e' =>
          simp only [ho,Except.error.injEq] at h
          exact ⟨ts,by simp,by rw [ho,h]⟩
        | ok p =>
          obtain ⟨right,ts'⟩ := p
          simp only [ho] at h
          obtain ⟨ts'',hlt,he⟩ := ih h
          have hrest := length_rest_lt ho
          exact ⟨ts'',by rw [List.length_cons]; omega,he⟩

/-- Reading stopped at a token where others were wanted, or because the room was not enough. -/
def IsDue (enough : Prop) : Stop → Prop
  | .unexpected wanted _ _ => wanted ≠ []
  | .tooDeep _ => ¬ enough

theorem IsDue.mono {p q : Prop} {e : Stop} (h : IsDue q e) (hpq : p → q) : IsDue p e := by
  cases e with
  | unexpected wanted rest room => exact h
  | tooDeep rest => exact fun hp => h (hpq hp)

theorem isDue_of_take {p : Prop} {room : Nat} {k : Kind} {ts : List Token} {e : Stop}
    (h : take room k ts = .error e) : IsDue p e := by
  cases ts with
  | nil =>
    obtain rfl := Except.error.inj h
    exact List.cons_ne_nil k []
  | cons t ts =>
    rw [take] at h
    split at h
    · cases h
    · obtain rfl := Except.error.inj h
      exact List.cons_ne_nil k []

theorem isDue_of_factor {p : Prop} {room : Nat} {ts : List Token} {e : Stop}
    (he : ∀ ts', ts'.length < ts.length → expression room ts' = .error e → IsDue p e)
    (hf : ∀ ts', ts'.length < ts.length → factor room ts' = .error e → IsDue p e)
    (h : factor (room+1) ts = .error e) : IsDue p e := by
  cases ts with
  | nil =>
    obtain rfl := Except.error.inj h
    exact List.cons_ne_nil _ _
  | cons s ts =>
    by_cases hk : s.kind ∈ factorStarts
    · simp only [factorStarts,List.mem_cons,List.not_mem_nil,or_false] at hk
      rcases hk with hk | hk | hk | hk
      · rw [factor_of_minus hk] at h
        cases ho : factor room ts with
        | error e' =>
          simp only [ho,Except.error.injEq] at h
          exact hf ts (by simp) (by rw [ho,h])
        | ok p => simp [ho] at h
      · rw [factor_of_lparen hk] at h
        cases hi : expression room ts with
        | error e' =>
          simp only [hi,Except.error.injEq] at h
          exact he ts (by simp) (by rw [hi,h])
        | ok p =>
          obtain ⟨inner,ts'⟩ := p
          cases ht : take room .rparen ts' with
          | error e' =>
            simp only [hi,ht,Except.error.injEq] at h
            exact h ▸ isDue_of_take ht
          | ok q => simp [hi,ht] at h
      · rw [factor_of_number hk] at h
        cases h
      · rw [factor_of_name hk] at h
        cases h
    · rw [factor_of_other hk] at h
      obtain rfl := Except.error.inj h
      exact List.cons_ne_nil _ _

/-- With room enough nothing is too deep. -/
theorem isDue_of_error (room : Nat) :
    (∀ (l : Level) (ts : List Token) (e : Stop), l.chainAt room ts = .error e →
      IsDue (l.need ts.length+1 ≤ room) e) ∧
    ∀ (l : Level) (ts : List Token) (e : Stop), l.operandAt room ts = .error e →
      IsDue (l.need ts.length ≤ room) e := by
  induction room with
  | zero =>
    constructor <;> intro l ts e h <;> cases l <;> obtain rfl := Except.error.inj h <;>
      simp [IsDue,Level.need]
  | succ room ih =>
    have hchain (l : Level) (ts : List Token) (e : Stop) (h : l.chainAt (room+1) ts = .error e) :
        IsDue (l.need ts.length+1 ≤ room+1) e := by
      rw [l.chainAt_succ] at h
      cases ho : l.operandAt room ts with
      | error e' =>
        simp only [ho,Except.error.injEq] at h
        exact h ▸ (ih.2 l ts e' ho).mono (by omega)
      | ok p =>
        obtain ⟨left,ts'⟩ := p
        simp only [ho] at h
        obtain ⟨ts'',hlt,he⟩ := exists_error_of_chain h
        have hrest := length_rest_lt ho
        have hneed := l.need_mono (show ts''.length ≤ ts.length by omega)
        exact (ih.2 l ts'' e he).mono (by omega)
    refine ⟨hchain,?_⟩
    intro l ts e h
    cases l with
    | sum => exact hchain .product ts e h
    | product =>
      refine isDue_of_factor (fun ts' hlt hs => (ih.1 .sum ts' e hs).mono ?_)
        (fun ts' hlt hs => (ih.2 .product ts' e hs).mono ?_) h
      all_goals
        simp only [Level.need]
        omega

end AssignLang.Grammar
