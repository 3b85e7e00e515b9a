import AssignLang.Proofs.Tree.Order

namespace AssignLang

namespace Grammar

section
variable {l : Level}

theorem Links.eq_snoc : (links : Links l) → links = .nil ∨
    ∃ front op h operand, links = Links.snoc op h operand front
  | .nil => .inl rfl
  | .cons op h operand links => by
    rcases links.eq_snoc with rfl | ⟨front,op',h',operand',rfl⟩
    · exact .inr ⟨.nil,op,h,operand,rfl⟩
    · exact .inr ⟨.cons op h operand front,op',h',operand',rfl⟩

theorem Links.depth_snoc (op : Token) (h : l.isOperator op.kind) (operand : Operand l) :
    (links : Links l) → (links.snoc op h operand).depth = max links.depth operand.depth
  | .nil => by simp [Links.snoc,Links.depth]
  | .cons op' h' operand' links => by
    simp [Links.snoc,Links.depth,links.depth_snoc,Nat.max_assoc]

/-- A chain is a single operand, or a shorter chain and one more link. -/
theorem Chain.eq_snoc (d : Chain l) : (∃ first, d = .mk first .nil) ∨
    ∃ front op h operand, d = Chain.snoc op h operand front := by
  cases d with
  | mk first links =>
    rcases links.eq_snoc with rfl | ⟨front,op,h,operand,rfl⟩
    · exact .inl ⟨first,rfl⟩
    · exact .inr ⟨.mk first front,op,h,operand,rfl⟩

theorem Chain.depth_snoc (op : Token) (h : l.isOperator op.kind) (operand : Operand l)
    (d : Chain l) : (d.snoc op h operand).depth = max d.depth (operand.depth+1) := by
  cases d with
  | mk first links =>
    simp only [Chain.snoc,Chain.depth,Links.depth_snoc]
    omega

end

/-- A term as an expression. -/
def Chain.ofTerm (d : Chain .product) : Chain .sum := .mk (.term d) .nil

/-- A factor as an expression. -/
def Chain.ofFactor (d : Operand .product) : Chain .sum := .ofTerm (.mk d .nil)

section
variable (d : Chain .product) (f : Operand .product)

@[simp] theorem Chain.tokens_ofTerm : (ofTerm d).tokens = d.tokens := List.append_nil _

@[simp] theorem Chain.depth_ofTerm : (ofTerm d).depth = d.depth+1 :=
  congrArg Nat.succ (Nat.max_zero _)

@[simp] theorem Chain.tokens_ofFactor : (ofFactor f).tokens = f.tokens := by
  rw [ofFactor,tokens_ofTerm]
  exact List.append_nil _

@[simp] theorem Chain.depth_ofFactor : (ofFactor f).depth = f.depth+2 := by
  rw [ofFactor,depth_ofTerm,Chain.depth,Links.depth,Nat.max_zero]

end

/-- How expressions are made of smaller ones that are no deeper. -/
inductive Chain.Composed : Chain .sum → Prop
  | number {e : Chain .sum} {a : Token} (ht : e.tokens = [a]) (he : e.tree = .number a.span a) :
      Composed e
  | name {e : Chain .sum} {a : Token} (ht : e.tokens = [a]) (he : e.tree = .name a.span a) :
      Composed e
  | minus {e inner : Chain .sum} {sign : Token} (ht : e.tokens = sign :: inner.tokens)
      (he : e.tree = .unary (sign.span.join inner.tree.span) sign inner.tree)
      (hd : inner.depth ≤ e.depth) (h : Composed inner) : Composed e
  | group {e inner : Chain .sum} {opening closing : Token}
      (ht : e.tokens = opening :: (inner.tokens ++ [closing]))
      (he : e.tree = .group (opening.span.join closing.span) inner.tree)
      (hd : inner.depth ≤ e.depth) (h : Composed inner) : Composed e
  | binary {e left right : Chain .sum} {op : Token}
      (ht : e.tokens = left.tokens ++ [op] ++ right.tokens)
      (he : e.tree = .binary (left.tree.span.join right.tree.span) left.tree op right.tree)
      (hl : left.depth ≤ e.depth) (hr : right.depth ≤ e.depth)
      (hcl : Composed left) (hcr : Composed right) : Composed e

theorem Chain.composed_ofFactor (f : Operand .product)
    (ih : ∀ e : Chain .sum, e.tokens.length < f.tokens.length → e.Composed) :
    (Chain.ofFactor f).Composed := by
  cases f with
  | minus sign hs factor =>
    have hinner := ih (.ofFactor factor) (by simp [Operand.tokens])
    refine .minus ?_ rfl ?_ hinner
    · rw [Chain.tokens_ofFactor,Chain.tokens_ofFactor,Operand.tokens]
    · simp [Operand.depth]
  | group opening ho inner closing hc =>
    have hlt : inner.tokens.length < (opening :: (inner.tokens ++ [closing])).length := by
      rw [List.length_cons,List.length_append]
      omega
    have hinner := ih inner hlt
    refine .group ?_ rfl ?_ hinner
    · rw [Chain.tokens_ofFactor,Operand.tokens]
    · rw [Chain.depth_ofFactor,Operand.depth]
      omega
  | number a ha => exact .number rfl rfl
  | name a ha => exact .name rfl rfl

theorem Chain.composed_split {e left right : Chain .sum} {op : Token}
    (ih : ∀ e' : Chain .sum, e'.tokens.length < e.tokens.length → e'.Composed)
    (ht : e.tokens = left.tokens ++ [op] ++ right.tokens)
    (he : e.tree = .binary (left.tree.span.join right.tree.span) left.tree op right.tree)
    (hl : left.depth ≤ e.depth) (hr : right.depth ≤ e.depth) : e.Composed := by
  have hlength := congrArg List.length ht
  simp only [List.length_append,List.length_singleton] at hlength
  have hleft := ih left (by omega)
  have hright := ih right (by omega)
  exact .binary ht he hl hr hleft hright

theorem Chain.composed (e : Chain .sum) : Composed e := by
  -- By the number of tokens, for a chain without its last link is no part of the derivation.
  induction hn : e.tokens.length using Nat.strongRecOn generalizing e with
  | ind n ih =>
    subst hn
    have ih (e' : Chain .sum) (hlt : e'.tokens.length < e.tokens.length) := ih _ hlt e' rfl
    rcases e.eq_snoc with ⟨⟨d⟩,rfl⟩ | ⟨left,op,h,⟨d⟩,rfl⟩
    · change Composed (.ofTerm d)
      change ∀ e', e'.tokens.length < (ofTerm d).tokens.length → Composed e' at ih
      rcases d.eq_snoc with ⟨f,rfl⟩ | ⟨left,op,h,f,rfl⟩
      · apply composed_ofFactor
        rwa [← Chain.tokens_ofFactor]
      · have ht : (ofTerm (left.snoc op h f)).tokens =
            (ofTerm left).tokens ++ [op] ++ (ofFactor f).tokens := by
          simp [Chain.tokens_snoc]
        have he := left.tree_snoc op h f
        refine composed_split ih ht he ?_ ?_
        · simp only [depth_ofTerm,depth_snoc]
          omega
        · simp only [depth_ofTerm,depth_ofFactor,depth_snoc]
          omega
    · have ht : (left.snoc op h (.term d)).tokens =
          left.tokens ++ [op] ++ (ofTerm d).tokens := by
        simp [Chain.tokens_snoc,Operand.tokens]
      have he := left.tree_snoc op h (.term d)
      refine composed_split ih ht he ?_ ?_
      · rw [depth_snoc]
        omega
      · rw [depth_snoc,depth_ofTerm,Operand.depth]
        omega

/-- The place of an expression goes from its first through its last token. -/
theorem Chain.frames (e : Chain .sum) (h : Token.InOrder e.tokens) :
    e.tree.span.Frames e.tokens := by
  induction e.composed with
  | number ht he | name ht he =>
    rw [ht,he]
    exact Span.frames_token _
  | @minus e inner sign ht he hd hc ih =>
    have hsign : sign.span.Frames [sign] := Span.frames_token sign
    have hinner := ih (h.sublist (by rw [ht]; exact List.sublist_cons_self _ _))
    have hall : e.tokens = [sign] ++ [] ++ inner.tokens := ht
    rw [hall] at h ⊢
    rw [he]
    exact hsign.join hinner h
  | @group e inner opening closing ht he hd hc ih =>
    have hopening : opening.span.Frames [opening] := Span.frames_token opening
    have hclosing : closing.span.Frames [closing] := Span.frames_token closing
    have hall : e.tokens = [opening] ++ inner.tokens ++ [closing] := ht
    rw [hall] at h ⊢
    rw [he]
    exact hopening.join hclosing h
  | @binary e left right op ht he hl hr hcl hcr ihl ihr =>
    rw [ht] at h ⊢
    rw [he]
    have hleft := ihl (h.sublist (by simp))
    have hright := ihr (h.sublist (List.sublist_append_right _ _))
    exact hleft.join hright h

theorem Chain.orderly (e : Chain .sum) (h : Token.InOrder e.tokens) : e.tree.Orderly := by
  have hframes := e.frames h
  cases e.composed with
  | @number _ a ht he | @name _ a ht he =>
    have hparts : e.tree.parts = [(a.span,[a])].map Prod.fst := by rw [he]; rfl
    apply hframes.orderly h hparts
    · simpa using Span.frames_token a
    · simp [ht]
  | @minus _ inner sign ht he hd hc =>
    have hsub : inner.tokens.Sublist e.tokens := by
      rw [ht]
      exact List.sublist_cons_self _ _
    have hinner := inner.frames (h.sublist hsub)
    have hparts : e.tree.parts =
        [(sign.span,[sign]),(inner.tree.span,inner.tokens)].map Prod.fst := by rw [he]; rfl
    apply hframes.orderly h hparts
    · simpa using ⟨Span.frames_token sign,hinner⟩
    · simp [ht]
  | @group _ inner opening closing ht he hd hc =>
    have hsub : inner.tokens.Sublist e.tokens := by
      rw [ht]
      exact (List.sublist_append_left _ _).trans (List.sublist_cons_self _ _)
    have hinner := inner.frames (h.sublist hsub)
    have hparts : e.tree.parts = [(inner.tree.span,inner.tokens)].map Prod.fst := by
      rw [he]
      rfl
    apply hframes.orderly h hparts
    · simpa using hinner
    · simpa using hsub
  | @binary _ left right op ht he hl hr hcl hcr =>
    have hleft := left.frames (h.sublist (by simp [ht]))
    have hright := right.frames (h.sublist (by simp [ht]))
    have hparts : e.tree.parts = [(left.tree.span,left.tokens),(op.span,[op]),
        (right.tree.span,right.tokens)].map Prod.fst := by rw [he]; rfl
    apply hframes.orderly h hparts
    · simpa using ⟨hleft,Span.frames_token op,hright⟩
    · simp [ht]

/-- The tree is an expression of some of the tokens of `e`, and no deeper. -/
def Chain.Contains (e : Chain .sum) (n : Tree) : Prop :=
  ∃ (d : Chain .sum) (before after : List Token),
    e.tokens = before ++ d.tokens ++ after ∧ n = d.tree ∧ d.depth ≤ e.depth

theorem Chain.contains_self (e : Chain .sum) : e.Contains e.tree :=
  ⟨e,[],[],(List.append_nil _).symm,rfl,Nat.le_refl _⟩

theorem Chain.Contains.embed {e inner : Chain .sum} {n : Tree} {us vs : List Token}
    (h : inner.Contains n) (ht : e.tokens = us ++ inner.tokens ++ vs)
    (hd : inner.depth ≤ e.depth) : e.Contains n := by
  obtain ⟨d,before,after,hinner,hn,hdepth⟩ := h
  refine ⟨d,us ++ before,after ++ vs,?_,hn,Nat.le_trans hdepth hd⟩
  rw [ht,hinner]
  simp only [List.append_assoc]

theorem Chain.contains_of_mem_nodes (e : Chain .sum) {n : Tree} (hn : n ∈ e.tree.nodes) :
    e.Contains n := by
  have hself := e.contains_self
  induction e.composed with
  | @number e a ht he | @name e a ht he =>
    rw [he] at hn hself
    obtain rfl := List.mem_singleton.1 hn
    exact hself
  | @minus e inner sign ht he hd hc ih =>
    rw [he] at hn hself
    rcases List.mem_cons.1 hn with rfl | hn
    · exact hself
    · have hall : e.tokens = [sign] ++ inner.tokens ++ [] := by rw [ht]; simp
      exact (ih hn inner.contains_self).embed hall hd
  | @group e inner opening closing ht he hd hc ih =>
    rw [he] at hn hself
    rcases List.mem_cons.1 hn with rfl | hn
    · exact hself
    · have hall : e.tokens = [opening] ++ inner.tokens ++ [closing] := ht
      exact (ih hn inner.contains_self).embed hall hd
  | @binary e left right op ht he hl hr hcl hcr ihl ihr =>
    rw [he] at hn hself
    rcases List.mem_cons.1 hn with rfl | hn
    · exact hself
    rcases List.mem_append.1 hn with hn | hn
    · have hall : e.tokens = [] ++ left.tokens ++ ([op] ++ right.tokens) := by simp [ht]
      exact (ihl hn left.contains_self).embed hall hl
    · have hall : e.tokens = (left.tokens ++ [op]) ++ right.tokens ++ [] := by simp [ht]
      exact (ihr hn right.contains_self).embed hall hr

/-- The place of a statement goes from its target through its semicolon. -/
theorem Statement.frames (d : Statement) (h : Token.InOrder d.tokens) :
    d.tree.span.Frames d.tokens := by
  have hspan : ∀ t ∈ d.tokens, 0 ≤ t.span.start ∧ t.span.start ≤ t.span.stop := by
    intro t ht
    have hproper := h.proper t ht
    omega
  have hlast : d.tokens.getLast? = some d.semicolon :=
    List.getLast?_eq_some_iff.2 ⟨d.target :: d.equals :: d.value.tokens,by simp [tokens]⟩
  exact ⟨d.target,d.semicolon,rfl,hlast,d.span_tree h.ordered hspan⟩

theorem Statement.value_sublist (d : Statement) : d.value.tokens.Sublist d.tokens :=
  (((List.sublist_append_left _ _).cons _).cons _)

theorem Statement.orderly (d : Statement) (h : Token.InOrder d.tokens) : d.tree.Orderly := by
  have hvalue := d.value.frames (h.sublist d.value_sublist)
  have hparts : d.tree.parts =
      [(d.target.span,[d.target]),(d.value.tree.span,d.value.tokens)].map Prod.fst := rfl
  apply (d.frames h).orderly h hparts
  · simpa using ⟨Span.frames_token d.target,hvalue⟩
  · simp [tokens]

/-- The place of a block goes from its first through its last statement. -/
theorem frames_block {ds : List Statement} {first last : Statement} (hfirst : ds.head? = some first)
    (hlast : ds.getLast? = some last) (h : Token.InOrder (ds.flatMap Statement.tokens))
    (length : Nat) :
    let span := Source.blockSpan length (ds.map Statement.tree)
    span = ⟨first.tree.span.start,last.tree.span.stop⟩ ∧
      span.Frames (ds.flatMap Statement.tokens) := by
  have hspan : Source.blockSpan length (ds.map Statement.tree) =
      first.tree.span.join last.tree.span := by
    rw [Source.blockSpan,List.head?_map,List.getLast?_map,hfirst,hlast]
    rfl
  rw [hspan]
  obtain ⟨ds,rfl⟩ := List.head?_eq_some_iff.1 hfirst
  rcases List.eq_nil_or_concat ds with rfl | ⟨front,back,hds⟩
  · obtain rfl : first = last := by simpa using hlast
    rw [List.flatMap_singleton] at h ⊢
    have hframes := first.frames h
    rw [hframes.join_self h]
    exact ⟨rfl,hframes⟩
  · rw [List.concat_eq_append] at hds
    subst hds
    obtain rfl : back = last := by simpa [List.getLast?_cons] using hlast
    have hall : (first :: (front ++ [back])).flatMap Statement.tokens =
        first.tokens ++ front.flatMap Statement.tokens ++ back.tokens := by simp
    rw [hall] at h ⊢
    have hfront := first.frames (h.sublist (by simp))
    have hback := back.frames (h.sublist (List.sublist_append_right _ _))
    exact ⟨hfront.join_eq hback h,hfront.join hback h⟩

theorem orderly_block {ds : List Statement} (h : Token.InOrder (ds.flatMap Statement.tokens))
    (length : Nat) :
    (Tree.block (Source.blockSpan length (ds.map Statement.tree))
      (ds.map Statement.tree)).Orderly := by
  cases hfirst : ds.head? with
  | none =>
    obtain rfl := List.head?_eq_none_iff.1 hfirst
    exact ⟨by simp [Tree.parts],by simp [Tree.parts]⟩
  | some first =>
    have hne : ds ≠ [] := by
      rintro rfl
      cases hfirst
    have hlast := List.getLast?_eq_some_getLast hne
    have hframes := (frames_block hfirst hlast h length).2
    have hparts : Tree.parts (.block (Source.blockSpan length (ds.map Statement.tree))
        (ds.map Statement.tree)) = (ds.map fun d => (d.tree.span,d.tokens)).map Prod.fst := by
      simp [Tree.parts]
    have hsub : List.Sublist ((ds.map fun d => (d.tree.span,d.tokens)).flatMap Prod.snd)
        (ds.flatMap Statement.tokens) := by simp [List.flatMap_map]
    have hparts' : ∀ p ∈ ds.map fun d => (d.tree.span,d.tokens), p.1.Frames p.2 := by
      intro p hp
      obtain ⟨d,hd,rfl⟩ := List.mem_map.1 hp
      apply d.frames
      apply h.sublist
      rw [List.flatMap_def]
      exact List.sublist_flatten_of_mem (List.mem_map_of_mem hd)
    exact Span.Frames.orderly (n := .block _ _) hframes h hparts hparts' hsub

end Grammar

end AssignLang
