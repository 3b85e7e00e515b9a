import AssignLang.Grammar

namespace AssignLang.Grammar

/-- The levels at which operands are chained: terms to a sum, and factors to a product. -/
inductive Level where
  | sum
  | product
  deriving DecidableEq

namespace Level

def isOperator : Level → Kind → Bool
  | sum => isSum
  | product => isProduct

/-- The kinds that would lengthen the last operand of a chain. -/
def lengthens : Level → Kind → Bool
  | sum => isProduct
  | product => fun _ => false

end Level

mutual

/-- A derivation of `operand (operator operand)*`: of an expression from terms at the level of
sums, and of a term from factors at the level of products. -/
inductive Chain : Level → Type
  | mk {l : Level} (first : Operand l) (links : Links l) : Chain l

inductive Links : Level → Type
  | nil {l : Level} : Links l
  | cons {l : Level} (operator : Token) (h : l.isOperator operator.kind) (operand : Operand l)
      (links : Links l) : Links l

/-- The operands of sums are terms. Those of products are factors, for which there are four
rules. -/
inductive Operand : Level → Type
  | term (product : Chain .product) : Operand .sum
  | minus (sign : Token) (h : sign.kind = .minus) (factor : Operand .product) : Operand .product
  | group (opening : Token) (ho : opening.kind = .lparen) (inner : Chain .sum) (closing : Token)
      (hc : closing.kind = .rparen) : Operand .product
  | number (token : Token) (h : token.kind = .number) : Operand .product
  | name (token : Token) (h : token.kind = .name) : Operand .product

end

mutual

/-- The tokens a derivation derives. -/
def Chain.tokens {l : Level} : Chain l → List Token
  | .mk first links => first.tokens ++ links.tokens

def Links.tokens {l : Level} : Links l → List Token
  | .nil => []
  | .cons op _ operand links => op :: (operand.tokens ++ links.tokens)

def Operand.tokens {l : Level} : Operand l → List Token
  | .term product => product.tokens
  | .minus sign _ factor => sign :: factor.tokens
  | .group opening _ inner closing _ => opening :: (inner.tokens ++ [closing])
  | .number token _ => [token]
  | .name token _ => [token]

end

mutual

/-- The tree of a derivation. Chains are folded to the left. -/
def Chain.tree {l : Level} : Chain l → Tree
  | .mk first links => links.fold first.tree

/-- What the links make of the tree on their left. -/
def Links.fold {l : Level} : Links l → Tree → Tree
  | .nil, left => left
  | .cons op _ operand links, left =>
    links.fold (.binary (left.span.join operand.tree.span) left op operand.tree)

def Operand.tree {l : Level} : Operand l → Tree
  | .term product => product.tree
  | .minus sign _ factor => .unary (sign.span.join factor.tree.span) sign factor.tree
  | .group opening _ inner closing _ => .group (opening.span.join closing.span) inner.tree
  | .number token _ => .number token.span token
  | .name token _ => .name token.span token

end

/-- A derivation of `name '=' expression ';'`. -/
structure Statement where
  target : Token
  isName : target.kind = .name
  equals : Token
  isEquals : equals.kind = .equals
  value : Chain .sum
  semicolon : Token
  isSemicolon : semicolon.kind = .semicolon

namespace Statement

def tokens (d : Statement) : List Token :=
  d.target :: d.equals :: (d.value.tokens ++ [d.semicolon])

def tree (d : Statement) : Tree :=
  .assign ((d.target.span.join d.value.tree.span).join d.semicolon.span) d.target d.value.tree

end Statement

/-- Whether a token of one of these kinds comes first. -/
def begins (p : Kind → Bool) : List Token → Bool
  | [] => false
  | t :: _ => p t.kind

@[simp] theorem begins_nil (p : Kind → Bool) : begins p [] = false := rfl

@[simp] theorem begins_cons (p : Kind → Bool) (t : Token) (ts : List Token) :
    begins p (t :: ts) = p t.kind := rfl

/-- Where a chain ends, as no token is left that would lengthen it. -/
structure Ends (l : Level) (rest : List Token) : Prop where
  operator : begins l.isOperator rest = false
  operand : begins l.lengthens rest = false

theorem isProduct_eq_false_of_isSum {k : Kind} (h : isSum k) : isProduct k = false := by
  cases k <;> first | rfl | simp [isSum] at h

/-- An operator of a level does not lengthen the operand in front of it. -/
theorem Level.lengthens_eq_false {l : Level} {k : Kind} (h : l.isOperator k) :
    l.lengthens k = false := by
  cases l with
  | sum => exact isProduct_eq_false_of_isSum h
  | product => rfl

theorem Links.begins_lengthens {l : Level} (links : Links l) {rest : List Token}
    (h : begins l.lengthens rest = false) :
    begins l.lengthens (links.tokens ++ rest) = false := by
  cases links with
  | nil => simpa [Links.tokens] using h
  | cons op hop operand links => simpa [Links.tokens] using l.lengthens_eq_false hop

theorem ends_of_kind {l : Level} {t : Token} {ts : List Token}
    (h : t.kind = .rparen ∨ t.kind = .semicolon) : Ends l (t :: ts) := by
  constructor <;> cases l <;> rcases h with h | h <;>
    simp [Level.isOperator,Level.lengthens,isSum,isProduct,h]

theorem ends_product_of_lengthens {rest : List Token}
    (h : begins Level.sum.lengthens rest = false) : Ends .product rest :=
  ⟨h,by cases rest <;> rfl⟩

mutual

theorem Chain.tokens_ne_nil : {l : Level} → (d : Chain l) → d.tokens ≠ []
  | _, .mk first links => by
    rw [Chain.tokens]
    exact List.append_ne_nil_of_left_ne_nil first.tokens_ne_nil _

theorem Operand.tokens_ne_nil : {l : Level} → (d : Operand l) → d.tokens ≠ []
  | _, .term product => by
    rw [Operand.tokens]
    exact product.tokens_ne_nil
  | _, .minus .. => by simp [Operand.tokens]
  | _, .group .. => by simp [Operand.tokens]
  | _, .number .. => by simp [Operand.tokens]
  | _, .name .. => by simp [Operand.tokens]

end

mutual

/-- The tokens of a chain, together with where it ends, leave no choice of derivation. -/
theorem Chain.append_inj : {l : Level} → (d d' : Chain l) → {r r' : List Token} →
    Ends l r → Ends l r' → d.tokens ++ r = d'.tokens ++ r' → d = d' ∧ r = r'
  | _, .mk first links, .mk first' links', _, _, hr, hr', h => by
    rw [Chain.tokens,Chain.tokens,List.append_assoc,List.append_assoc] at h
    obtain ⟨rfl,hl⟩ := first.append_inj first' (links.begins_lengthens hr.operand)
      (links'.begins_lengthens hr'.operand) h
    obtain ⟨rfl,rfl⟩ := links.append_inj links' hr hr' hl
    exact ⟨rfl,rfl⟩

theorem Links.append_inj : {l : Level} → (d d' : Links l) → {r r' : List Token} →
    Ends l r → Ends l r' → d.tokens ++ r = d'.tokens ++ r' → d = d' ∧ r = r'
  | _, .nil, .nil, _, _, _, _, h => ⟨rfl,h⟩
  | _, .nil, .cons op hop operand links, r, r', hr, _, h => by
    have hb := hr.operator
    rw [show r = op :: (operand.tokens ++ links.tokens ++ r') from h,begins_cons,hop] at hb
    contradiction
  | _, .cons op hop operand links, .nil, r, r', _, hr', h => by
    have hb := hr'.operator
    rw [show r' = op :: (operand.tokens ++ links.tokens ++ r) from h.symm,begins_cons,hop] at hb
    contradiction
  | _, .cons op _ operand links, .cons op' _ operand' links', _, _, hr, hr', h => by
    simp only [Links.tokens,List.cons_append,List.append_assoc,List.cons.injEq] at h
    obtain ⟨rfl,ho⟩ := h
    obtain ⟨rfl,hl⟩ := operand.append_inj operand' (links.begins_lengthens hr.operand)
      (links'.begins_lengthens hr'.operand) ho
    obtain ⟨rfl,rfl⟩ := links.append_inj links' hr hr' hl
    exact ⟨rfl,rfl⟩

theorem Operand.append_inj : {l : Level} → (d d' : Operand l) → {r r' : List Token} →
    begins l.lengthens r = false → begins l.lengthens r' = false →
    d.tokens ++ r = d'.tokens ++ r' → d = d' ∧ r = r'
  | _, .term product, .term product', _, _, hr, hr', h => by
    obtain ⟨rfl,rfl⟩ := product.append_inj product' (ends_product_of_lengthens hr)
      (ends_product_of_lengthens hr') h
    exact ⟨rfl,rfl⟩
  | _, .minus sign hs factor, d', _, _, hr, hr', h => by
    cases d' with
    | minus sign' hs' factor' =>
      simp only [Operand.tokens,List.cons_append,List.cons.injEq] at h
      obtain ⟨rfl,hf⟩ := h
      obtain ⟨rfl,rfl⟩ := factor.append_inj factor' hr hr' hf
      exact ⟨rfl,rfl⟩
    | _ => grind [Operand.tokens]
  | _, .group opening ho inner closing hc, d', _, _, _, _, h => by
    cases d' with
    | group opening' ho' inner' closing' hc' =>
      simp only [Operand.tokens,List.cons_append,List.append_assoc,List.cons.injEq] at h
      obtain ⟨rfl,hi⟩ := h
      obtain ⟨rfl,hi'⟩ := inner.append_inj inner' (ends_of_kind (.inl hc))
        (ends_of_kind (.inl hc')) hi
      obtain ⟨rfl,rfl⟩ := List.cons.inj hi'
      exact ⟨rfl,rfl⟩
    | _ => grind [Operand.tokens]
  | _, .number token ht, d', _, _, _, _, h => by
    cases d' <;> grind [Operand.tokens]
  | _, .name token ht, d', _, _, _, _, h => by
    cases d' <;> grind [Operand.tokens]

end

namespace Statement

/-- A statement ends with its semicolon, so no other one is a beginning of the same tokens. -/
theorem append_inj (d d' : Statement) {r r' : List Token}
    (h : d.tokens ++ r = d'.tokens ++ r') : d = d' ∧ r = r' := by
  obtain ⟨target,_,equals,_,value,semicolon,hs⟩ := d
  obtain ⟨target',_,equals',_,value',semicolon',hs'⟩ := d'
  simp only [tokens,List.cons_append,List.append_assoc,List.cons.injEq] at h
  obtain ⟨rfl,rfl,hv⟩ := h
  obtain ⟨rfl,hr⟩ := value.append_inj value' (ends_of_kind (.inr hs)) (ends_of_kind (.inr hs')) hv
  obtain ⟨rfl,rfl⟩ := List.cons.inj hr
  exact ⟨rfl,rfl⟩

theorem tokens_ne_nil (d : Statement) : d.tokens ≠ [] := by simp [tokens]

theorem flatMap_tokens_inj {ds ds' : List Statement}
    (h : ds.flatMap tokens = ds'.flatMap tokens) : ds = ds' := by
  induction ds generalizing ds' with
  | nil =>
    cases ds' with
    | nil => rfl
    | cons d' ds' => simp [tokens] at h
  | cons d ds ih =>
    cases ds' with
    | nil => simp [tokens] at h
    | cons d' ds' =>
      rw [List.flatMap_cons,List.flatMap_cons] at h
      obtain ⟨rfl,ht⟩ := d.append_inj d' h
      rw [ih ht]

end Statement

end AssignLang.Grammar
