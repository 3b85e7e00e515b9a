import AssignLang.Proofs.Grammar.Recognition

namespace AssignLang.Grammar

theorem exists_of_bind {α β : Type} {x : Except Stop α} {f : α → Except Stop β} {b : β}
    (h : (x >>= f) = .ok b) : ∃ a, x = .ok a ∧ f a = .ok b := by
  cases x with
  | error e => cases h
  | ok a => exact ⟨a,rfl,h⟩

theorem error_of_bind {α β : Type} {x : Except Stop α} {f : α → Except Stop β} {e : Stop}
    (h : (x >>= f) = .error e) : x = .error e ∨ ∃ a, x = .ok a ∧ f a = .error e := by
  cases x with
  | error e' => exact .inl (congrArg Except.error (Except.error.inj h))
  | ok a => exact .inr ⟨a,rfl,h⟩

theorem of_take {room : Nat} {k : Kind} {t : Token} {ts rest : List Token}
    (h : take room k ts = .ok (t,rest)) : ts = t :: rest ∧ t.kind = k := by
  cases ts with
  | nil => cases h
  | cons u us =>
    rw [take] at h
    split at h
    · rename_i hk
      obtain ⟨rfl,rfl⟩ := Prod.mk.inj (Except.ok.inj h)
      exact ⟨rfl,hk⟩
    · cases h

theorem need_value_le (d : Statement) : Level.sum.need d.value.tokens.length+1 ≤
    ample d.tokens.length := by
  simp only [Statement.tokens,Level.need,ample,List.length_cons,List.length_append,List.length_nil]
  omega

theorem ample_mono {m n : Nat} (h : m ≤ n) : ample m ≤ ample n := by
  simp only [ample]
  omega

/-- A statement is read where its value is. -/
theorem statement_of_value (d : Statement) {room : Nat} {r : List Token}
    (h : expression room (d.value.tokens ++ d.semicolon :: r) =
      .ok (d.value.tree,d.semicolon :: r)) :
    statement room (d.tokens ++ r) = .ok (d.tree,r) := by
  have ht : d.tokens ++ r =
      d.target :: d.equals :: (d.value.tokens ++ d.semicolon :: r) := by simp [Statement.tokens]
  rw [ht]
  simp only [statement,bind,Except.bind,take_of_kind d.isName,take_of_kind d.isEquals,h,
    take_of_kind d.isSemicolon]
  rfl

theorem statement_of_depth (d : Statement) {room : Nat} {r : List Token}
    (h : d.value.depth ≤ room) : statement room (d.tokens ++ r) = .ok (d.tree,r) :=
  statement_of_value d (d.value.chainAt_tokens h (ends_of_kind (.inr d.isSemicolon)))

theorem Statement.depth_le_ample (d : Statement) : d.value.depth ≤ ample d.tokens.length :=
  Nat.le_trans d.value.depth_le_need (need_value_le d)

/-- A statement that was derived is read, whatever follows. -/
theorem statement_tokens (d : Statement) {room : Nat} {r : List Token}
    (hroom : ample d.tokens.length ≤ room) :
    statement room (d.tokens ++ r) = .ok (d.tree,r) :=
  statement_of_depth d (Nat.le_trans d.depth_le_ample hroom)

/-- A statement that is read was derived. -/
theorem exists_of_statement {room : Nat} {ts rest : List Token} {t : Tree}
    (h : statement room ts = .ok (t,rest)) :
    ∃ d : Statement, ts = d.tokens ++ rest ∧ t = d.tree := by
  obtain ⟨⟨target,ts₁⟩,h₁,h'⟩ := exists_of_bind h
  obtain ⟨⟨equals,ts₂⟩,h₂,h'⟩ := exists_of_bind h'
  obtain ⟨⟨value,ts₃⟩,h₃,h'⟩ := exists_of_bind h'
  obtain ⟨⟨semicolon,ts₄⟩,h₄,h'⟩ := exists_of_bind h'
  obtain ⟨rfl,rfl⟩ := Prod.mk.inj (Except.ok.inj h')
  obtain ⟨rfl,hn⟩ := of_take h₁
  obtain ⟨rfl,he⟩ := of_take h₂
  obtain ⟨d,rfl,rfl,-⟩ := (exists_derivation room).1 .sum _ _ _ h₃
  obtain ⟨rfl,hs⟩ := of_take h₄
  exact ⟨⟨target,hn,equals,he,d,semicolon,hs⟩,by simp [Statement.tokens],rfl⟩

theorem isDue_of_statement {room : Nat} {ts : List Token} {e : Stop}
    (h : statement room ts = .error e) : IsDue (ample ts.length ≤ room) e := by
  rcases error_of_bind h with h₁ | ⟨⟨target,ts₁⟩,h₁,h⟩
  · exact isDue_of_take h₁
  rcases error_of_bind h with h₂ | ⟨⟨equals,ts₂⟩,h₂,h⟩
  · exact isDue_of_take h₂
  rcases error_of_bind h with h₃ | ⟨⟨value,ts₃⟩,h₃,h⟩
  · obtain ⟨rfl,-⟩ := of_take h₁
    obtain ⟨rfl,-⟩ := of_take h₂
    apply ((isDue_of_error room).1 .sum ts₂ e h₃).mono
    intro hroom
    simp only [ample,Level.need,List.length_cons] at hroom ⊢
    omega
  rcases error_of_bind h with h₄ | ⟨⟨semicolon,ts₄⟩,h₄,h⟩
  · exact isDue_of_take h₄
  · cases h

theorem length_rest_lt_of_statement {room : Nat} {ts rest : List Token} {t : Tree}
    (h : statement room ts = .ok (t,rest)) : rest.length < ts.length := by
  obtain ⟨d,rfl,-⟩ := exists_of_statement h
  have hd := List.length_pos_iff.2 d.tokens_ne_nil
  rw [List.length_append]
  omega

/-- Statements that were derived are all read if there is room for each of them. -/
theorem statements_of_depth (ds : List Statement) {room n : Nat}
    (hroom : ∀ d ∈ ds, d.value.depth ≤ room)
    (hn : (ds.flatMap Statement.tokens).length ≤ n) :
    statements room n (ds.flatMap Statement.tokens) = .ok (ds.map Statement.tree,[]) := by
  induction ds generalizing n with
  | nil => cases n <;> rfl
  | cons d ds ih =>
    obtain ⟨hd,hroom⟩ := List.forall_mem_cons.1 hroom
    rw [List.flatMap_cons] at hn ⊢
    rw [List.length_append] at hn
    have hpos := List.length_pos_iff.2 d.tokens_ne_nil
    cases n with
    | zero => omega
    | succ n =>
      have hs := statement_of_depth d (r := ds.flatMap Statement.tokens) hd
      have hds := ih hroom (n := n) (by omega)
      have hk : d.target.kind ≠ .eof := by simp [d.isName]
      change (if d.target.kind = .eof then _ else _) = _
      rw [if_neg hk]
      change (statement room (d.tokens ++ _) >>= _) = _
      rw [hs]
      change (statements room n _ >>= _) = _
      rw [hds]
      rfl

theorem length_tokens_le {d : Statement} {ds : List Statement} (h : d ∈ ds) :
    d.tokens.length ≤ (ds.flatMap Statement.tokens).length := by
  obtain ⟨before,after,rfl⟩ := List.append_of_mem h
  simp only [List.flatMap_append,List.flatMap_cons,List.length_append]
  omega

theorem statements_tokens (ds : List Statement) {room n : Nat}
    (hroom : ample (ds.flatMap Statement.tokens).length ≤ room)
    (hn : (ds.flatMap Statement.tokens).length ≤ n) :
    statements room n (ds.flatMap Statement.tokens) = .ok (ds.map Statement.tree,[]) := by
  apply statements_of_depth ds _ hn
  intro d hd
  exact Nat.le_trans d.depth_le_ample (Nat.le_trans (ample_mono (length_tokens_le hd)) hroom)

/-- Statements that are read were derived. Nothing is left over if no token stands for the end. -/
theorem exists_of_statements {room n : Nat} {ts rest : List Token} {ss : List Tree}
    (heof : ∀ t ∈ ts, t.kind ≠ .eof) (hn : ts.length ≤ n)
    (h : statements room n ts = .ok (ss,rest)) :
    rest = [] ∧ ∃ ds : List Statement, ts = ds.flatMap Statement.tokens ∧
      ss = ds.map Statement.tree := by
  induction n generalizing ts ss rest with
  | zero =>
    obtain rfl := List.length_eq_zero_iff.1 (Nat.le_zero.1 hn)
    obtain ⟨rfl,rfl⟩ := Prod.mk.inj (Except.ok.inj h)
    exact ⟨rfl,[],rfl,rfl⟩
  | succ n ih =>
    cases ts with
    | nil =>
      obtain ⟨rfl,rfl⟩ := Prod.mk.inj (Except.ok.inj h)
      exact ⟨rfl,[],rfl,rfl⟩
    | cons t ts =>
      rw [statements,if_neg (heof t List.mem_cons_self)] at h
      obtain ⟨⟨s,ts'⟩,h₁,h⟩ := exists_of_bind h
      obtain ⟨⟨ss,ts''⟩,h₂,h⟩ := exists_of_bind h
      obtain ⟨rfl,rfl⟩ := Prod.mk.inj (Except.ok.inj h)
      have hlt := length_rest_lt_of_statement h₁
      rw [List.length_cons] at hn hlt
      obtain ⟨d,hd,rfl⟩ := exists_of_statement h₁
      have heof' : ∀ u ∈ ts', u.kind ≠ .eof := fun u hu =>
        heof u (hd ▸ List.mem_append_right d.tokens hu)
      obtain ⟨rfl,ds,rfl,rfl⟩ := ih heof' (by omega) h₂
      exact ⟨rfl,d :: ds,hd,rfl⟩

theorem isDue_of_statements {room n : Nat} {ts : List Token} {e : Stop}
    (h : statements room n ts = .error e) : IsDue (ample ts.length ≤ room) e := by
  induction n generalizing ts with
  | zero => cases ts <;> cases h
  | succ n ih =>
    cases ts with
    | nil => cases h
    | cons t ts =>
      rw [statements] at h
      split at h
      · cases h
      · rcases error_of_bind h with h₁ | ⟨⟨s,ts'⟩,h₁,h⟩
        · exact isDue_of_statement h₁
        · rcases error_of_bind h with h₂ | ⟨_,_,h⟩
          · have hlt := length_rest_lt_of_statement h₁
            exact (ih h₂).mono (Nat.le_trans (ample_mono (Nat.le_of_lt hlt)))
          · cases h

end AssignLang.Grammar
