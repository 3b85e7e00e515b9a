import AssignLang.Proofs.Tree.Definedness
import AssignLang.Proofs.Tree.Order

namespace AssignLang

namespace Tree

/-- The expression `t` with further groups around some of its nodes, the places of which are
listed. -/
inductive GroupedAt : Tree → List Span → Tree → Prop
  | number {s : Span} {a : Token} : GroupedAt (number s a) [] (number s a)
  | name {s : Span} {a : Token} : GroupedAt (name s a) [] (name s a)
  | unary {s : Span} {op : Token} {t u : Tree} {ps : List Span} (h : GroupedAt t ps u) :
      GroupedAt (unary s op t) ps (unary s op u)
  | binary {s : Span} {l l' r r' : Tree} {op : Token} {ps qs : List Span}
      (hl : GroupedAt l ps l') (hr : GroupedAt r qs r') :
      GroupedAt (binary s l op r) (ps ++ qs) (binary s l' op r')
  | group {s : Span} {t u : Tree} {ps : List Span} (h : GroupedAt t ps u) :
      GroupedAt (group s t) ps (group s u)
  | around {t u : Tree} {ps : List Span} (h : GroupedAt t ps u) :
      GroupedAt t (t.span :: ps) (group t.span u)

/-- All groups that the shape of an expression stands for. -/
def explicit : Tree → Tree
  | unary s op t => group s (unary s op t.explicit)
  | binary s l op r => group s (binary s l.explicit op r.explicit)
  | group s t => group s (group s t.explicit)
  | t => group t.span t

/-- An expression with a gap in it. -/
inductive Context where
  | gap
  | unary (span : Span) (operator : Token) (operand : Context)
  | left (span : Span) (left : Context) (operator : Token) (right : Tree)
  | right (span : Span) (left : Tree) (operator : Token) (right : Context)
  | group (span : Span) (inner : Context)

/-- The expression with `n` in the gap. -/
def Context.plug : Context → Tree → Tree
  | gap,n => n
  | unary s op c,n => .unary s op (c.plug n)
  | left s c op r,n => .binary s (c.plug n) op r
  | right s l op c,n => .binary s l op (c.plug n)
  | group s c,n => .group s (c.plug n)

theorem head?_nodes (t : Tree) : t.nodes.head? = some t := by
  cases t <;> rfl

theorem self_mem_nodes (t : Tree) : t ∈ t.nodes := List.mem_of_mem_head? t.head?_nodes

/-- Contexts say which occurrence of a node is meant. -/
theorem Context.mem_nodes_plug (c : Context) (n : Tree) : n ∈ (c.plug n).nodes := by
  induction c with
  | gap => exact n.self_mem_nodes
  | unary s op c ih | group s c ih => exact List.mem_cons_of_mem _ ih
  | left s c op r ih => exact List.mem_cons_of_mem _ (List.mem_append_left _ ih)
  | right s l op c ih => exact List.mem_cons_of_mem _ (List.mem_append_right _ ih)

theorem Arithmetic.exists_plug {t n : Tree} (h : t.Arithmetic) (hn : n ∈ t.nodes) :
    ∃ c : Context, t = c.plug n := by
  induction h with
  | number | name =>
    obtain rfl := List.mem_singleton.1 hn
    exact ⟨.gap,rfl⟩
  | @unary s op t hk hop h ih =>
    rcases List.mem_cons.1 hn with rfl | hn
    · exact ⟨.gap,rfl⟩
    · obtain ⟨c,hc⟩ := ih hn
      exact ⟨.unary s op c,congrArg _ hc⟩
  | @binary s l r op hl hop hr ihl ihr =>
    rcases List.mem_cons.1 hn with rfl | hn
    · exact ⟨.gap,rfl⟩
    rcases List.mem_append.1 hn with hn | hn
    · obtain ⟨c,hc⟩ := ihl hn
      exact ⟨.left s c op r,by rw [Context.plug,← hc]⟩
    · obtain ⟨c,hc⟩ := ihr hn
      exact ⟨.right s l op c,by rw [Context.plug,← hc]⟩
  | @group s t h ih =>
    rcases List.mem_cons.1 hn with rfl | hn
    · exact ⟨.gap,rfl⟩
    · obtain ⟨c,hc⟩ := ih hn
      exact ⟨.group s c,congrArg _ hc⟩

namespace Arithmetic

variable {t : Tree}

/-- Without further groups an expression is as it was. -/
theorem groupedAt_nil (h : t.Arithmetic) : t.GroupedAt [] t := by
  induction h with
  | number => exact .number
  | name => exact .name
  | unary hk hop h ih => exact .unary ih
  | binary hl hop hr ihl ihr => exact .binary ihl ihr
  | group h ih => exact .group ih

theorem groupedAt_explicit (h : t.Arithmetic) : t.GroupedAt (t.nodes.map span) t.explicit := by
  induction h with
  | number => exact .around .number
  | name => exact .around .name
  | unary hk hop h ih => exact .around (.unary ih)
  | binary hl hop hr ihl ihr =>
    rw [nodes,List.map_cons,List.map_append]
    exact .around (.binary ihl ihr)
  | group h ih => exact .around (.group ih)

theorem groupedAt_plug (c : Context) {n : Tree} (h : (c.plug n).Arithmetic) :
    (c.plug n).GroupedAt [n.span] (c.plug (.group n.span n)) := by
  induction c with
  | gap => exact .around h.groupedAt_nil
  | unary s op c ih =>
    cases h with
    | unary hk hop h => exact .unary (ih h)
  | left s c op r ih =>
    cases h with
    | binary hl hop hr => exact .binary (ih hl) hr.groupedAt_nil
  | right s l op c ih =>
    cases h with
    | binary hl hop hr => exact .binary hl.groupedAt_nil (ih hr)
  | group s c ih =>
    cases h with
    | group h => exact .group (ih h)

end Arithmetic

end Tree

/-- The ranks of expressions. -/
def Rank.IsOperand : Rank → Prop
  | .factor | .term | .expression => True
  | _ => False

namespace Tree

namespace Canonical

variable {k : Rank} {s : Span} {op : Token} {t u l r l' r' : Tree}

theorem ofOperandRank (hk : k.IsOperand) (h : t.Canonical .factor) : t.Canonical k := by
  cases k with
  | factor => exact h
  | term => exact .ofFactor h
  | expression => exact .ofTerm (.ofFactor h)
  | _ => cases hk

theorem expression (hk : k.IsOperand) (h : t.Canonical k) : t.Canonical .expression := by
  cases k with
  | factor => exact .ofTerm (.ofFactor h)
  | term => exact .ofTerm h
  | expression => exact h
  | _ => cases hk

theorem unary_congr (ht : t.Canonical .factor → u.Canonical .factor)
    (h : (Tree.unary s op t).Canonical k) : (Tree.unary s op u).Canonical k := by
  generalize hn : Tree.unary s op t = n at h
  induction h with
  | minus hk hop h =>
    obtain ⟨rfl,rfl,rfl⟩ := unary.inj hn
    exact .minus hk hop (ht h)
  | ofFactor h ih => exact .ofFactor (ih hn)
  | ofTerm h ih => exact .ofTerm (ih hn)
  | _ => cases hn

theorem group_congr (ht : t.Canonical .expression → u.Canonical .expression)
    (h : (Tree.group s t).Canonical k) : (Tree.group s u).Canonical k := by
  generalize hn : Tree.group s t = n at h
  induction h with
  | group h =>
    obtain ⟨rfl,rfl⟩ := Tree.group.inj hn
    exact .group (ht h)
  | ofFactor h ih => exact .ofFactor (ih hn)
  | ofTerm h ih => exact .ofTerm (ih hn)
  | _ => cases hn

theorem binary_congr (hl : ∀ {k : Rank}, k.IsOperand → l.Canonical k → l'.Canonical k)
    (hr : ∀ {k : Rank}, k.IsOperand → r.Canonical k → r'.Canonical k)
    (h : (binary s l op r).Canonical k) : (binary s l' op r').Canonical k := by
  generalize hn : binary s l op r = n at h
  induction h with
  | product hcl hk hop hcr =>
    obtain ⟨rfl,rfl,rfl,rfl⟩ := binary.inj hn
    exact .product (hl trivial hcl) hk hop (hr trivial hcr)
  | sum hcl hk hop hcr =>
    obtain ⟨rfl,rfl,rfl,rfl⟩ := binary.inj hn
    exact .sum (hl trivial hcl) hk hop (hr trivial hcr)
  | ofFactor h ih => exact .ofFactor (ih hn)
  | ofTerm h ih => exact .ofTerm (ih hn)
  | _ => cases hn

end Canonical

namespace GroupedAt

variable {t u : Tree} {ps : List Span}

/-- Groups stand wherever the nodes in them stood. -/
theorem canonical (h : t.GroupedAt ps u) {k : Rank} (hk : k.IsOperand) (ht : t.Canonical k) :
    u.Canonical k := by
  induction h generalizing k with
  | number | name => exact ht
  | unary h ih => exact ht.unary_congr (ih trivial)
  | binary hl hr ihl ihr => exact ht.binary_congr ihl ihr
  | group h ih => exact ht.group_congr (ih trivial)
  | around h ih => exact .ofOperandRank hk (.group (.expression hk (ih hk ht)))

theorem height_le (h : t.GroupedAt ps u) : t.height ≤ u.height := by
  induction h with
  | number | name => exact Nat.le_refl _
  | unary h ih | group h ih => exact Nat.succ_le_succ ih
  | binary hl hr ihl ihr =>
    rw [height,height]
    omega
  | around h ih => exact Nat.le_succ_of_le ih

/-- The places are those of nodes. -/
theorem exists_node (h : t.GroupedAt ps u) {p : Span} (hp : p ∈ ps) :
    ∃ n ∈ t.nodes, n.span = p := by
  induction h with
  | number | name => cases hp
  | unary h ih | group h ih =>
    obtain ⟨n,hn,hspan⟩ := ih hp
    exact ⟨n,List.mem_cons_of_mem _ hn,hspan⟩
  | binary hl hr ihl ihr =>
    rcases List.mem_append.1 hp with hp | hp
    · obtain ⟨n,hn,hspan⟩ := ihl hp
      exact ⟨n,List.mem_cons_of_mem _ (List.mem_append_left _ hn),hspan⟩
    · obtain ⟨n,hn,hspan⟩ := ihr hp
      exact ⟨n,List.mem_cons_of_mem _ (List.mem_append_right _ hn),hspan⟩
  | around h ih =>
    rcases List.mem_cons.1 hp with rfl | hp
    · exact ⟨_,self_mem_nodes _,rfl⟩
    · exact ih hp

end GroupedAt

section
variable {span : Span} {op : Token} {t l r : Tree} {n : Nat} {s s' : Store} {e : Obstacle}

theorem error_unary (hk : op.kind = .minus) (h : (t.value n s).1 = .error e) :
    ((unary span op t).value (n+1) s).1 = .error e := by
  rw [value,if_pos hk]
  generalize t.value n s = v at h ⊢
  obtain ⟨v,s'⟩ := v
  obtain rfl : v = .error e := h
  rfl

theorem error_left (h : (l.value n s).1 = .error e) :
    ((binary span l op r).value (n+1) s).1 = .error e := by
  rw [value]
  generalize l.value n s = v at h ⊢
  obtain ⟨v,s'⟩ := v
  obtain rfl : v = .error e := h
  rfl

theorem error_right {x : Float} (hl : l.value n s = (.ok x,s')) (h : (r.value n s').1 = .error e) :
    ((binary span l op r).value (n+1) s).1 = .error e := by
  rw [value,hl]
  generalize hv : r.value n s' = v at h
  obtain ⟨v,s''⟩ := v
  obtain rfl : v = .error e := h
  simp only [hv]

theorem error_assign {x : Token} (h : (t.value n s).1 = .error e) :
    ((assign span x t).value (n+1) s).1 = .error e := by
  rw [value]
  generalize t.value n s = v at h ⊢
  obtain ⟨v,s'⟩ := v
  obtain rfl : v = .error e := h
  rfl

end

/-- `u` has the value of `t`, also in less room, unless it is too deep for it. Not more of the room
is left where that ends. -/
def Follows (u t : Tree) : Prop := ∀ {m n : Nat}, n ≤ m → ∀ s : Store,
  (u.value n s).1 = .error .tooDeep ∨
    u.value n s = t.value m s ∧ u.roomLeft n s ≤ t.roomLeft m s

namespace Follows

variable {span : Span} {op : Token} {t u l r l' r' : Tree}

theorem of_succ (h : ∀ {m n : Nat}, n ≤ m → ∀ s : Store,
    (u.value (n+1) s).1 = .error .tooDeep ∨
      u.value (n+1) s = t.value (m+1) s ∧ u.roomLeft (n+1) s ≤ t.roomLeft (m+1) s) :
    Follows u t := by
  intro m n hnm s
  cases n with
  | zero => exact .inl (by rw [value_zero])
  | succ n =>
    cases m with
    | zero => exact absurd hnm (Nat.not_succ_le_zero n)
    | succ m => exact h (Nat.le_of_succ_le_succ hnm) s

theorem unary (h : Follows u t) : Follows (.unary span op u) (.unary span op t) := by
  apply of_succ
  intro m n hnm s
  by_cases hk : op.kind = .minus
  · rcases h hnm s with hdeep | ⟨heq,hleft⟩
    · exact .inl (error_unary hk hdeep)
    · right
      rw [value,value,roomLeft,roomLeft,if_pos hk,if_pos hk,if_pos hk,if_pos hk,heq]
      exact ⟨rfl,hleft⟩
  · have hlabel : (Tree.unary span op u).label = (Tree.unary span op t).label := rfl
    right
    rw [value,value,roomLeft,roomLeft,if_neg hk,if_neg hk,if_neg hk,if_neg hk,hlabel]
    exact ⟨rfl,hnm⟩

theorem binary (hl : Follows l' l) (hr : Follows r' r) :
    Follows (.binary span l' op r') (.binary span l op r) := by
  apply of_succ
  intro m n hnm s
  rcases hl hnm s with hdeep | ⟨heq,hleft⟩
  · exact .inl (error_left hdeep)
  cases hv : l.value m s with
  | mk v s' =>
    rw [hv] at heq
    cases v with
    | error e => exact .inr ⟨by simp only [value,heq,hv],by simpa only [roomLeft,heq,hv] using hleft⟩
    | ok x =>
      rcases hr hnm s' with hdeep | ⟨heq',hright⟩
      · exact .inl (error_right heq hdeep)
      · have hlabel : (Tree.binary span l' op r').label = (Tree.binary span l op r).label := rfl
        refine .inr ⟨by simp only [value,heq,hv,heq',hlabel],?_⟩
        simp only [roomLeft,heq,hv,heq']
        split
        · exact hright
        · exact hnm

theorem group (h : Follows u t) : Follows (.group span u) (.group span t) := by
  apply of_succ
  intro m n hnm s
  exact h hnm s

theorem around (h : Follows u t) : Follows (.group span u) t := by
  intro m n hnm s
  cases n with
  | zero => exact .inl (by rw [value_zero])
  | succ n => exact h (Nat.le_of_succ_le hnm) s

theorem assign {x : Token} (h : Follows u t) : Follows (.assign span x u) (.assign span x t) := by
  apply of_succ
  intro m n hnm s
  rcases h hnm s with hdeep | ⟨heq,hleft⟩
  · exact .inl (error_assign hdeep)
  · right
    rw [value,value,heq]
    exact ⟨rfl,hleft⟩

end Follows

/-- Groups have the values of what is in them, unless there is no room for them. -/
theorem GroupedAt.follows {t u : Tree} {ps : List Span} (h : t.GroupedAt ps u) : u.Follows t := by
  induction h with
  | number | name =>
    apply Follows.of_succ
    intro m n hnm s
    exact .inr ⟨rfl,hnm⟩
  | unary h ih => exact ih.unary
  | binary hl hr ihl ihr => exact ihl.binary ihr
  | group h ih => exact ih.group
  | around h ih => exact ih.around

theorem tooDeep_bareResult {r : Except Obstacle Float × Store} :
    (bareResult r).1 = .error .tooDeep ↔ r.1 = .error .tooDeep := by
  obtain ⟨e | x,s⟩ := r
  · cases e <;> simp [Obstacle.bare]
  · simp

theorem exists_of_bareResult_undefined {r : Except Obstacle Float × Store} {x : Text} {s : Store}
    (h : bareResult r = (.error (.undefined .unknown x),s)) :
    ∃ place, r = (.error (.undefined place x),s) := by
  obtain ⟨e | y,s'⟩ := r
  · cases e <;> simp_all [Obstacle.bare]
  · simp at h

/-- The room to walk a tree that is at least as high in is enough for all that the other one has,
and what can be reported of it can be of the other one. -/
theorem Follows.bareResult_eq {t t' u : Tree} (h : t'.Follows t) (hheight : t.height ≤ t'.height)
    (hbare : u.bare = t'.bare) (nesting : Nesting) (s : Store) :
    (u.value (nesting.walkingRoom u) s).1 = .error .tooDeep ∨
      bareResult (u.value (nesting.walkingRoom u) s) =
        bareResult (t.value (nesting.walkingRoom t) s) ∧
      (nesting.walkingNeeds.raising ≤ u.roomLeft (nesting.walkingRoom u) s →
        nesting.walkingNeeds.raising ≤ t.roomLeft (nesting.walkingRoom t) s) := by
  have hsame : bareResult (u.value (nesting.walkingRoom u) s) =
      bareResult (t'.value (nesting.walkingRoom u) s) := by
    rw [← value_bare,hbare,value_bare]
  have hleft : u.roomLeft (nesting.walkingRoom u) s = t'.roomLeft (nesting.walkingRoom u) s := by
    rw [← roomLeft_bare,hbare,roomLeft_bare]
  have hroom : ∃ m, nesting.walkingRoom u ≤ m ∧
      t.value m s = t.value (nesting.walkingRoom t) s ∧
      (m = nesting.walkingRoom t ∨ nesting.walkingNeeds.raising = 0) := by
    rcases nesting.walkingRoom_cases with ⟨room,hroom⟩ | ⟨hneeds,hroom⟩
    · rw [hroom,hroom]
      exact ⟨room,Nat.le_refl _,rfl,.inl rfl⟩
    · have hle : t.height ≤ u.height := by
        rw [height_of_bare hbare]
        exact hheight
      rw [hroom,hroom]
      exact ⟨u.height,Nat.le_refl _,value_congr_room t hle (Nat.le_refl _) s,.inr hneeds⟩
  obtain ⟨m,hm,hvalue,hneeds⟩ := hroom
  rcases h hm s with hdeep | ⟨heq,hle⟩
  · left
    rw [← tooDeep_bareResult,hsame,tooDeep_bareResult]
    exact hdeep
  · refine .inr ⟨by rw [hsame,heq,hvalue],?_⟩
    intro hraising
    rcases hneeds with rfl | hzero
    · rw [hleft] at hraising
      exact Nat.le_trans hraising hle
    · rw [hzero]
      exact Nat.zero_le _

/-- Only what is higher than there is room is too deep, and it leaves the store as it is. -/
theorem Canonical.of_tooDeep {t : Tree} (h : t.Canonical .statement) {room : Nat} {s : Store}
    (hv : (t.value room s).1 = .error .tooDeep) :
    room < t.height ∧ t.value room s = (.error .tooDeep,s) := by
  constructor
  · apply Nat.lt_of_not_le
    intro hle
    rw [value_congr_room t hle (Nat.le_refl _)] at hv
    rcases h.value_of_missing? s with ⟨-,x,y,-,hx⟩ | ⟨span,x,-,hx⟩
    · rw [hx] at hv
      cases hv
    · rw [hx] at hv
      cases hv
  · rcases h.value_cases room s with ⟨x,s',-,hx⟩ | ⟨e,he,-⟩
    · rw [hx] at hv
      cases hv
    · rw [he] at hv ⊢
      rw [Except.error.inj hv]

end Tree

end AssignLang
