import AssignLang.Proofs.Grammar.Derivation
import AssignLang.Proofs.Tree.Rendering

namespace AssignLang

open Grammar

/-- What a tree may stand for. -/
inductive Rank where
  | factor
  | term
  | expression
  | statement
  | program

/-- The shapes in which programs are read. -/
inductive Tree.Canonical : Rank → Tree → Prop
  | number {s : Span} {t : Token} (hk : t.kind = .number) (ht : t.IsLexeme) :
      Canonical .factor (number s t)
  | name {s : Span} {t : Token} (hk : t.kind = .name) (ht : t.IsLexeme) :
      Canonical .factor (name s t)
  | minus {s : Span} {op : Token} {t : Tree} (hk : op.kind = .minus) (hop : op.IsLexeme)
      (h : Canonical .factor t) : Canonical .factor (unary s op t)
  | group {s : Span} {t : Tree} (h : Canonical .expression t) : Canonical .factor (group s t)
  | ofFactor {t : Tree} (h : Canonical .factor t) : Canonical .term t
  | product {s : Span} {l r : Tree} {op : Token} (hl : Canonical .term l)
      (hk : op.kind = .star ∨ op.kind = .slash) (hop : op.IsLexeme) (hr : Canonical .factor r) :
      Canonical .term (binary s l op r)
  | ofTerm {t : Tree} (h : Canonical .term t) : Canonical .expression t
  | sum {s : Span} {l r : Tree} {op : Token} (hl : Canonical .expression l)
      (hk : op.kind = .plus ∨ op.kind = .minus) (hop : op.IsLexeme) (hr : Canonical .term r) :
      Canonical .expression (binary s l op r)
  | assign {s : Span} {x : Token} {t : Tree} (hk : x.kind = .name) (hx : x.IsLexeme)
      (h : Canonical .expression t) : Canonical .statement (assign s x t)
  | block {s : Span} {ts : List Tree} (h : ∀ t ∈ ts, Canonical .statement t) :
      Canonical .program (block s ts)

namespace Grammar

def Level.rank : Level → Rank
  | sum => .expression
  | product => .term

def Level.operandRank : Level → Rank
  | sum => .term
  | product => .factor

end Grammar

namespace Tree.Canonical

theorem ofOperand {l : Level} {t : Tree} (h : Canonical l.operandRank t) : Canonical l.rank t := by
  cases l with
  | sum => exact ofTerm h
  | product => exact ofFactor h

theorem link {l : Level} {s : Span} {left right : Tree} {op : Token} (hl : Canonical l.rank left)
    (hk : l.isOperator op.kind) (hop : op.IsLexeme) (hr : Canonical l.operandRank right) :
    Canonical l.rank (binary s left op right) := by
  cases l with
  | sum => exact sum hl (by simpa [Level.isOperator,isSum] using hk) hop hr
  | product => exact product hl (by simpa [Level.isOperator,isProduct] using hk) hop hr

end Tree.Canonical

namespace Grammar

mutual

/-- The trees of derivations are canonical. -/
theorem Chain.canonical : {l : Level} → (d : Chain l) → (∀ t ∈ d.tokens, t.IsLexeme) →
    d.tree.Canonical l.rank
  | _, .mk first links, h => by
    rw [Chain.tokens,List.forall_mem_append] at h
    exact links.canonical h.2 (.ofOperand (first.canonical h.1))

theorem Links.canonical : {l : Level} → (d : Links l) → (∀ t ∈ d.tokens, t.IsLexeme) →
    {left : Tree} → left.Canonical l.rank → (d.fold left).Canonical l.rank
  | _, .nil, _, _, hl => hl
  | _, .cons op hop operand links, h, _, hl => by
    rw [Links.tokens,List.forall_mem_cons,List.forall_mem_append] at h
    exact links.canonical h.2.2 (.link hl hop h.1 (operand.canonical h.2.1))

theorem Operand.canonical : {l : Level} → (d : Operand l) → (∀ t ∈ d.tokens, t.IsLexeme) →
    d.tree.Canonical l.operandRank
  | _, .term product, h => product.canonical h
  | _, .minus sign hs factor, h => by
    rw [Operand.tokens,List.forall_mem_cons] at h
    exact .minus hs h.1 (factor.canonical h.2)
  | _, .group opening _ inner closing _, h => by
    rw [Operand.tokens,List.forall_mem_cons,List.forall_mem_append] at h
    exact .group (inner.canonical h.2.1)
  | _, .number token ht, h => .number ht (h token List.mem_cons_self)
  | _, .name token ht, h => .name ht (h token List.mem_cons_self)

end

theorem Statement.canonical (d : Statement) (h : ∀ t ∈ d.tokens, t.IsLexeme) :
    d.tree.Canonical .statement := by
  rw [Statement.tokens,List.forall_mem_cons,List.forall_mem_cons,List.forall_mem_append] at h
  exact .assign d.isName h.1 (d.value.canonical h.2.2.1)

/-- One more link at the end. -/
def Links.snoc {l : Level} (op : Token) (h : l.isOperator op.kind) (operand : Operand l) :
    Links l → Links l
  | .nil => .cons op h operand .nil
  | .cons op' h' operand' links => .cons op' h' operand' (links.snoc op h operand)

section
variable {l : Level} (op : Token) (h : l.isOperator op.kind) (operand : Operand l)

theorem Links.tokens_snoc : (links : Links l) →
    (links.snoc op h operand).tokens = links.tokens ++ op :: operand.tokens
  | .nil => by simp [Links.snoc,Links.tokens]
  | .cons op' h' operand' links => by simp [Links.snoc,Links.tokens,links.tokens_snoc]

theorem Links.fold_snoc : (links : Links l) → (left : Tree) →
    (links.snoc op h operand).fold left =
      .binary ((links.fold left).span.join operand.tree.span) (links.fold left) op operand.tree
  | .nil, _ => by simp [Links.snoc,Links.fold]
  | .cons op' h' operand' links, _ => by simp [Links.snoc,Links.fold,links.fold_snoc]

def Chain.snoc : Chain l → Chain l
  | .mk first links => .mk first (links.snoc op h operand)

theorem Chain.tokens_snoc (d : Chain l) :
    (d.snoc op h operand).tokens = d.tokens ++ op :: operand.tokens := by
  cases d with
  | mk first links => simp [Chain.snoc,Chain.tokens,Links.tokens_snoc]

theorem Chain.tree_snoc (d : Chain l) :
    (d.snoc op h operand).tree =
      .binary (d.tree.span.join operand.tree.span) d.tree op operand.tree := by
  cases d with
  | mk first links => simp [Chain.snoc,Chain.tree,Links.fold_snoc]

end

end Grammar

/-- `ts` are derived as a tree that is `t` up to the places. -/
def Rank.Derives : Rank → List Token → Tree → Prop
  | .factor,ts,t => ∃ d : Operand .product, d.tokens = ts ∧ d.tree.bare = t.bare
  | .term,ts,t => ∃ d : Chain .product, d.tokens = ts ∧ d.tree.bare = t.bare
  | .expression,ts,t => ∃ d : Chain .sum, d.tokens = ts ∧ d.tree.bare = t.bare
  | .statement,ts,t => ∃ d : Statement, d.tokens = ts ∧ d.tree.bare = t.bare
  | .program,ts,t => ∃ ds : List Statement, ds.flatMap Statement.tokens = ts ∧
      ∀ s, (Tree.block s (ds.map Statement.tree)).bare = t.bare

namespace Piece

theorem bare_eq_of_ofToken {a b : Token} (h : ofToken a = ofToken b) : a.bare = b.bare := by
  obtain ⟨hk,ht⟩ := lexeme.inj h
  simp [Token.bare,hk,ht]

theorem map_bare_of_ofToken {ts us : List Token} (h : ts.map ofToken = us.map ofToken) :
    ts.map Token.bare = us.map Token.bare := by
  induction ts generalizing us with
  | nil =>
    obtain rfl := List.map_eq_nil_iff.1 h.symm
    rfl
  | cons t ts ih =>
    obtain ⟨u,us,rfl,hu,hus⟩ := List.map_eq_cons_iff.1 h.symm
    rw [List.map_cons,List.map_cons,bare_eq_of_ofToken hu,ih hus.symm]

theorem kind_eq_of_ofToken {a b : Token} (h : ofToken a = ofToken b) : a.kind = b.kind :=
  (lexeme.inj h).1

theorem exists_of_map_snoc {ts us : List Token} {z : Token}
    (h : ts.map ofToken = (us ++ [z]).map ofToken) :
    ∃ vs c, ts = vs ++ [c] ∧ vs.map ofToken = us.map ofToken ∧ ofToken c = ofToken z := by
  rw [List.map_append,List.map_eq_append_iff] at h
  obtain ⟨vs,cs,rfl,hv,hc⟩ := h
  obtain ⟨c,cs,rfl,he,hn⟩ := List.map_eq_cons_iff.1 hc
  obtain rfl := List.map_eq_nil_iff.1 hn
  exact ⟨vs,c,rfl,hv,he⟩

end Piece

namespace Tree.Canonical

theorem derives_link {l : Level} {s : Span} {left right : Tree} {op : Token} {ts : List Token}
    (hop : l.isOperator op.kind)
    (hl : ∀ us, us.map Piece.ofToken = left.tokens.map Piece.ofToken →
      ∃ d : Chain l, d.tokens = us ∧ d.tree.bare = left.bare)
    (hr : ∀ us, us.map Piece.ofToken = right.tokens.map Piece.ofToken →
      ∃ d : Operand l, d.tokens = us ∧ d.tree.bare = right.bare)
    (h : ts.map Piece.ofToken = (binary s left op right).tokens.map Piece.ofToken) :
    ∃ d : Chain l, d.tokens = ts ∧ d.tree.bare = (binary s left op right).bare := by
  rw [tokens,List.map_append,List.map_cons,List.map_eq_append_iff] at h
  obtain ⟨us,vs,rfl,hu,hv⟩ := h
  obtain ⟨op',vs,rfl,ho,hv⟩ := List.map_eq_cons_iff.1 hv
  obtain ⟨d,rfl,hd⟩ := hl us hu
  obtain ⟨e,rfl,he⟩ := hr vs hv
  have hk : l.isOperator op'.kind := by rw [Piece.kind_eq_of_ofToken ho]; exact hop
  exact ⟨d.snoc op' hk e,Chain.tokens_snoc op' hk e d,
    by rw [Chain.tree_snoc,bare,bare,hd,he,Piece.bare_eq_of_ofToken ho]⟩

theorem derives_block {body : List Tree} {ts : List Token}
    (hb : ∀ t ∈ body, ∀ us, us.map Piece.ofToken = t.tokens.map Piece.ofToken →
      Rank.statement.Derives us t)
    (h : ts.map Piece.ofToken = (tokensAll body).map Piece.ofToken) :
    ∃ ds : List Statement, ds.flatMap Statement.tokens = ts ∧
      bareAll (ds.map Statement.tree) = bareAll body := by
  induction body generalizing ts with
  | nil =>
    obtain rfl := List.map_eq_nil_iff.1 h
    exact ⟨[],rfl,rfl⟩
  | cons t body ih =>
    rw [tokensAll,List.map_append,List.map_eq_append_iff] at h
    obtain ⟨us,vs,rfl,hu,hv⟩ := h
    obtain ⟨d,rfl,hd⟩ := hb t List.mem_cons_self us hu
    obtain ⟨ds,rfl,hds⟩ := ih (fun u hu => hb u (List.mem_cons_of_mem t hu)) hv
    exact ⟨d :: ds,by rw [List.flatMap_cons],by rw [List.map_cons,bareAll,bareAll,hd,hds]⟩

/-- A canonical tree is derived from tokens like its own. -/
theorem derives {k : Rank} {t : Tree} (h : t.Canonical k) (ts : List Token)
    (hts : ts.map Piece.ofToken = t.tokens.map Piece.ofToken) : k.Derives ts t := by
  induction h generalizing ts with
  | @number s a hk ht =>
    obtain ⟨b,us,rfl,hb,hu⟩ := List.map_eq_cons_iff.1 hts
    obtain rfl := List.map_eq_nil_iff.1 hu
    exact ⟨.number b ((Piece.kind_eq_of_ofToken hb).trans hk),rfl,
      by rw [Operand.tree,bare,bare,Piece.bare_eq_of_ofToken hb]⟩
  | @name s a hk ht =>
    obtain ⟨b,us,rfl,hb,hu⟩ := List.map_eq_cons_iff.1 hts
    obtain rfl := List.map_eq_nil_iff.1 hu
    exact ⟨.name b ((Piece.kind_eq_of_ofToken hb).trans hk),rfl,
      by rw [Operand.tree,bare,bare,Piece.bare_eq_of_ofToken hb]⟩
  | @minus s op t hk hop h ih =>
    obtain ⟨b,us,rfl,hb,hu⟩ := List.map_eq_cons_iff.1 hts
    obtain ⟨d,rfl,hd⟩ := ih us hu
    exact ⟨.minus b ((Piece.kind_eq_of_ofToken hb).trans hk) d,rfl,
      by rw [Operand.tree,bare,bare,Piece.bare_eq_of_ofToken hb,hd]⟩
  | @group s t h ih =>
    obtain ⟨o,us,rfl,ho,hu⟩ := List.map_eq_cons_iff.1 hts
    obtain ⟨us,c,rfl,hu,hc⟩ := Piece.exists_of_map_snoc hu
    obtain ⟨d,rfl,hd⟩ := ih us hu
    have hopening : o.kind = .lparen := Piece.kind_eq_of_ofToken ho
    have hclosing : c.kind = .rparen := Piece.kind_eq_of_ofToken hc
    exact ⟨.group o hopening d c hclosing,rfl,by rw [Operand.tree,bare,bare,hd]⟩
  | ofFactor h ih =>
    obtain ⟨d,rfl,hd⟩ := ih ts hts
    exact ⟨.mk d .nil,List.append_nil _,hd⟩
  | product hl hk hop hr ihl ihr =>
    exact derives_link (by simpa [Level.isOperator,isProduct] using hk) ihl ihr hts
  | ofTerm h ih =>
    obtain ⟨d,rfl,hd⟩ := ih ts hts
    exact ⟨.mk (.term d) .nil,List.append_nil _,hd⟩
  | sum hl hk hop hr ihl ihr =>
    refine derives_link (by simpa [Level.isOperator,isSum] using hk) ihl (fun us hu => ?_) hts
    obtain ⟨d,rfl,hd⟩ := ihr us hu
    exact ⟨.term d,rfl,hd⟩
  | @assign s x t hk hx h ih =>
    obtain ⟨y,us,rfl,hy,hu⟩ := List.map_eq_cons_iff.1 hts
    obtain ⟨o,us,rfl,ho,hu⟩ := List.map_eq_cons_iff.1 hu
    obtain ⟨us,c,rfl,hu,hc⟩ := Piece.exists_of_map_snoc hu
    obtain ⟨d,rfl,hd⟩ := ih us hu
    exact ⟨⟨y,(Piece.kind_eq_of_ofToken hy).trans hk,o,Piece.kind_eq_of_ofToken ho,d,c,
      Piece.kind_eq_of_ofToken hc⟩,rfl,
      by rw [Statement.tree,bare,bare,Piece.bare_eq_of_ofToken hy,hd]⟩
  | block h ih =>
    obtain ⟨ds,hds,hb⟩ := derives_block ih hts
    exact ⟨ds,hds,fun s => by rw [bare,bare,hb]⟩

/-- What is canonical is made of numbers, names and operators alone. -/
theorem arithmetic {k : Rank} {t : Tree} (h : t.Canonical k) :
    match k with
    | .factor | .term | .expression => t.Arithmetic
    | _ => True := by
  induction h with
  | number hk ht => exact .number hk ht
  | name hk ht => exact .name hk ht
  | minus hk hop h ih => exact .unary hk hop ih
  | group h ih => exact .group ih
  | ofFactor h ih => exact ih
  | product hl hk hop hr ihl ihr =>
    refine .binary ihl ⟨?_,hop⟩ ihr
    rcases hk with hk | hk <;> simp [hk]
  | ofTerm h ih => exact ih
  | sum hl hk hop hr ihl ihr =>
    refine .binary ihl ⟨?_,hop⟩ ihr
    rcases hk with hk | hk <;> simp [hk]
  | assign => trivial
  | block => trivial

end Tree.Canonical

end AssignLang
