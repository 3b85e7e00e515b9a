import AssignLang.Proofs.Grammar.Extent
import AssignLang.Proofs.Slice
import AssignLang.Proofs.Token.Shift

namespace AssignLang

open Grammar

theorem Span.join_shift {a b : Span} (k : Nat) (ha : 0 ≤ a.start) (hb : 0 ≤ b.start) :
    (a.shift k).join (b.shift k) = (a.join b).shift k := by
  have hak : 0 ≤ (a.shift k).start := by simp only [shift]; omega
  have hbk : 0 ≤ (b.shift k).start := by simp only [shift]; omega
  rw [join_of_known ha hb,join_of_known hak hbk]
  simp only [shift,mk.injEq]
  omega

namespace Tree

mutual

/-- The same tree, read `k` characters farther behind. -/
def shift (k : Nat) : Tree → Tree
  | leaf s => leaf (s.shift k)
  | number s a => number (s.shift k) (a.shift k)
  | name s a => name (s.shift k) (a.shift k)
  | unary s op t => unary (s.shift k) (op.shift k) (t.shift k)
  | binary s l op r => binary (s.shift k) (l.shift k) (op.shift k) (r.shift k)
  | group s t => group (s.shift k) (t.shift k)
  | assign s x t => assign (s.shift k) (x.shift k) (t.shift k)
  | block s ts => block (s.shift k) (shiftAll k ts)

def shiftAll (k : Nat) : List Tree → List Tree
  | [] => []
  | t :: ts => t.shift k :: shiftAll k ts

end

@[simp] theorem span_shift (k : Nat) (t : Tree) : (t.shift k).span = t.span.shift k := by
  cases t <;> rfl

theorem shiftAll_eq_map (k : Nat) (ts : List Tree) : shiftAll k ts = ts.map (shift k) := by
  induction ts with
  | nil => rfl
  | cons t ts ih => rw [shiftAll,ih,List.map_cons]

mutual

/-- What a tree is does not depend on where it was read. -/
theorem bare_shift (k : Nat) : (t : Tree) → (t.shift k).bare = t.bare
  | leaf _ => rfl
  | number _ _ => rfl
  | name _ _ => rfl
  | unary _ op t => by
    rw [shift,bare,bare,bare_shift k t]
    rfl
  | binary _ l op r => by
    rw [shift,bare,bare,bare_shift k l,bare_shift k r]
    rfl
  | group _ t => by rw [shift,bare,bare,bare_shift k t]
  | assign _ x t => by
    rw [shift,bare,bare,bare_shift k t]
    rfl
  | block _ ts => by rw [shift,bare,bare,bareAll_shiftAll k ts]

theorem bareAll_shiftAll (k : Nat) : (ts : List Tree) → bareAll (shiftAll k ts) = bareAll ts
  | [] => rfl
  | t :: ts => by rw [shiftAll,bareAll,bareAll,bare_shift k t,bareAll_shiftAll k ts]

end

end Tree

namespace Grammar

mutual

/-- The same derivation, of tokens `k` characters farther behind. -/
def Chain.shift (k : Nat) {l : Level} : Chain l → Chain l
  | .mk first links => .mk (first.shift k) (links.shift k)

def Links.shift (k : Nat) {l : Level} : Links l → Links l
  | .nil => .nil
  | .cons op h operand links => .cons (op.shift k) h (operand.shift k) (links.shift k)

def Operand.shift (k : Nat) {l : Level} : Operand l → Operand l
  | .term product => .term (product.shift k)
  | .minus sign h factor => .minus (sign.shift k) h (factor.shift k)
  | .group opening ho inner closing hc =>
    .group (opening.shift k) ho (inner.shift k) (closing.shift k) hc
  | .number token h => .number (token.shift k) h
  | .name token h => .name (token.shift k) h

end

section
variable (k : Nat)

mutual

theorem Chain.tokens_shift : {l : Level} → (d : Chain l) →
    (d.shift k).tokens = d.tokens.map (Token.shift k)
  | _, .mk first links => by
    rw [Chain.shift,Chain.tokens,Chain.tokens,first.tokens_shift,links.tokens_shift,
      List.map_append]

theorem Links.tokens_shift : {l : Level} → (d : Links l) →
    (d.shift k).tokens = d.tokens.map (Token.shift k)
  | _, .nil => rfl
  | _, .cons op h operand links => by
    simp only [Links.shift,Links.tokens,operand.tokens_shift,links.tokens_shift,List.map_cons,
      List.map_append]

theorem Operand.tokens_shift : {l : Level} → (d : Operand l) →
    (d.shift k).tokens = d.tokens.map (Token.shift k)
  | _, .term product => product.tokens_shift
  | _, .minus sign h factor => by
    simp only [Operand.shift,Operand.tokens,factor.tokens_shift,List.map_cons]
  | _, .group opening ho inner closing hc => by
    simp only [Operand.shift,Operand.tokens,inner.tokens_shift,List.map_cons,List.map_append,
      List.map_nil]
  | _, .number _ _ => rfl
  | _, .name _ _ => rfl

end

mutual

theorem Chain.depth_shift : {l : Level} → (d : Chain l) → (d.shift k).depth = d.depth
  | _, .mk first links => by
    rw [Chain.shift,Chain.depth,Chain.depth,first.depth_shift,links.depth_shift]

theorem Links.depth_shift : {l : Level} → (d : Links l) → (d.shift k).depth = d.depth
  | _, .nil => rfl
  | _, .cons op h operand links => by
    simp only [Links.shift,Links.depth,operand.depth_shift,links.depth_shift]

theorem Operand.depth_shift : {l : Level} → (d : Operand l) → (d.shift k).depth = d.depth
  | _, .term product => product.depth_shift
  | _, .minus sign h factor => by simp only [Operand.shift,Operand.depth,factor.depth_shift]
  | _, .group opening ho inner closing hc => by
    simp only [Operand.shift,Operand.depth,inner.depth_shift]
  | _, .number _ _ => rfl
  | _, .name _ _ => rfl

end

variable {lo hi : Int}

mutual

/-- The places of all nodes move along with the tokens. -/
theorem Chain.tree_shift : {l : Level} → (d : Chain l) → (∀ t ∈ d.tokens, t.span.Within lo hi) →
    (d.shift k).tree = d.tree.shift k
  | _, .mk first links, h => by
    rw [Chain.tokens,List.forall_mem_append] at h
    rw [Chain.shift,Chain.tree,first.tree_shift h.1]
    exact links.fold_shift h.2 (first.within h.1)

theorem Links.fold_shift : {l : Level} → (d : Links l) → (∀ t ∈ d.tokens, t.span.Within lo hi) →
    {left : Tree} → left.span.Within lo hi →
    (d.shift k).fold (left.shift k) = (d.fold left).shift k
  | _, .nil, _, _, _ => rfl
  | _, .cons op hop operand links, h, left, hl => by
    rw [Links.tokens,List.forall_mem_cons,List.forall_mem_append] at h
    have hoperand := operand.within h.2.1
    let node : Tree := .binary (left.span.join operand.tree.span) left op operand.tree
    have hnode : (links.shift k).fold (node.shift k) = (links.fold node).shift k :=
      links.fold_shift h.2.2 (hl.join hoperand)
    simp only [Links.shift,Links.fold,operand.tree_shift h.2.1,Tree.span_shift,
      Span.join_shift k hl.known hoperand.known]
    exact hnode

theorem Operand.tree_shift : {l : Level} → (d : Operand l) →
    (∀ t ∈ d.tokens, t.span.Within lo hi) → (d.shift k).tree = d.tree.shift k
  | _, .term product, h => product.tree_shift h
  | _, .minus sign hs factor, h => by
    rw [Operand.tokens,List.forall_mem_cons] at h
    have hfactor := factor.within h.2
    simp only [Operand.shift,Operand.tree,factor.tree_shift h.2,Tree.span_shift,Token.shift_span,
      Span.join_shift k h.1.known hfactor.known,Tree.shift]
  | _, .group opening ho inner closing hc, h => by
    rw [Operand.tokens,List.forall_mem_cons,List.forall_mem_append] at h
    have hclosing := h.2.2 closing List.mem_cons_self
    simp only [Operand.shift,Operand.tree,inner.tree_shift h.2.1,Token.shift_span,
      Span.join_shift k h.1.known hclosing.known,Tree.shift]
  | _, .number _ _, _ => rfl
  | _, .name _ _, _ => rfl

end

namespace Statement

def shift (d : Statement) : Statement where
  target := d.target.shift k
  isName := d.isName
  equals := d.equals.shift k
  isEquals := d.isEquals
  value := d.value.shift k
  semicolon := d.semicolon.shift k
  isSemicolon := d.isSemicolon

theorem tokens_shift (d : Statement) : (d.shift k).tokens = d.tokens.map (Token.shift k) := by
  simp only [shift,tokens,d.value.tokens_shift,List.map_cons,List.map_append,List.map_nil]

theorem tree_shift (d : Statement) (h : ∀ t ∈ d.tokens, t.span.Within lo hi) :
    (d.shift k).tree = d.tree.shift k := by
  have htarget := h d.target (by simp [tokens])
  have hsemicolon := h d.semicolon (by simp [tokens])
  have hin : ∀ t ∈ d.value.tokens, t.span.Within lo hi := fun t ht => h t (by simp [tokens,ht])
  have hvalue := d.value.within hin
  simp only [shift,tree,d.value.tree_shift k hin,Tree.span_shift,Token.shift_span,
    Span.join_shift k htarget.known hvalue.known,
    Span.join_shift k (htarget.join hvalue).known hsemicolon.known,Tree.shift]

end Statement

theorem flatMap_tokens_shift (ds : List Statement) :
    (ds.map (Statement.shift k)).flatMap Statement.tokens =
      (ds.flatMap Statement.tokens).map (Token.shift k) := by
  induction ds with
  | nil => rfl
  | cons d ds ih =>
    rw [List.map_cons,List.flatMap_cons,List.flatMap_cons,ih,d.tokens_shift,List.map_append]

theorem map_tree_shift (ds : List Statement)
    (h : ∀ t ∈ ds.flatMap Statement.tokens, t.span.Within lo hi) :
    (ds.map (Statement.shift k)).map Statement.tree =
      (ds.map Statement.tree).map (Tree.shift k) := by
  induction ds with
  | nil => rfl
  | cons d ds ih =>
    rw [List.flatMap_cons,List.forall_mem_append] at h
    rw [List.map_cons,List.map_cons,List.map_cons,List.map_cons,ih h.2,d.tree_shift k h.1]

end

end Grammar
end AssignLang
