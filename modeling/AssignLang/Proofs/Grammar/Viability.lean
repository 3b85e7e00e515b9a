import AssignLang.Proofs.Grammar.Lookahead
import AssignLang.Proofs.Token.Lexeme

namespace AssignLang.Grammar

/-- Behind `before` a token of any of the kinds wanted is well placed: with lexemes behind it the
tokens have `P`. None of these kinds is without a text. -/
structure Completes (P : List Token → Prop) (before : List Token) (wanted : List Kind) : Prop where
  spelled : ∀ k ∈ wanted, ∃ t : Text, k.Spells t
  completed : ∀ u : Token, u.kind ∈ wanted →
    ∃ more, (∀ t ∈ more, t.IsLexeme) ∧ P (before ++ u :: more)

/-- If reading `ts` got stuck, what was read before can be completed as wanted. -/
def Viable (P : List Token → Prop) (ts : List Token) (o : Outcome) : Prop :=
  ∀ wanted rest, o = some (some wanted,rest) →
    ∃ before, ts = before ++ rest ∧ Completes P before wanted

namespace Viable

variable {P Q : List Token → Prop} {ts : List Token} {o : Outcome}

theorem done (rest : List Token) : Viable P ts (some (none,rest)) := by
  intro wanted rest h
  cases h

theorem stuck {wanted : List Kind} (h : Completes P [] wanted) :
    Viable P ts (some (some wanted,ts)) := by
  intro wanted' rest hstuck
  cases hstuck
  exact ⟨[],rfl,h⟩

theorem andThen {next : List Token → Outcome} (h : Viable P ts o)
    (hnext : ∀ us, o = some (none,us) → Viable P ts (next us)) :
    Viable P ts (Grammar.andThen o next) := by
  intro wanted rest hstuck
  cases o with
  | none => cases hstuck
  | some p =>
    obtain ⟨_ | ks,us⟩ := p
    · exact hnext us rfl wanted rest hstuck
    · exact h wanted rest hstuck

/-- What is viable stays so as a part of something that it can always be completed to. -/
theorem extend (h : Viable P ts o) (front : List Token) (hpq : ∀ us, P us →
    ∃ more, (∀ t ∈ more, t.IsLexeme) ∧ Q (front ++ us ++ more)) : Viable Q (front ++ ts) o := by
  intro wanted rest hstuck
  obtain ⟨before,rfl,hspelled,hcompleted⟩ := h wanted rest hstuck
  refine ⟨front ++ before,by rw [List.append_assoc],hspelled,?_⟩
  intro u hu
  obtain ⟨more,hmore,hp⟩ := hcompleted u hu
  obtain ⟨behind,hbehind,hq⟩ := hpq _ hp
  refine ⟨more ++ behind,List.forall_mem_append.2 ⟨hmore,hbehind⟩,?_⟩
  simpa using hq

end Viable

def IsOperand (l : Level) (ts : List Token) : Prop := ∃ d : Operand l, d.tokens = ts

def IsLinks (l : Level) (ts : List Token) : Prop := ∃ d : Links l, d.tokens = ts

def IsChain (l : Level) (ts : List Token) : Prop := ∃ d : Chain l, d.tokens = ts

def IsStatement (ts : List Token) : Prop := ∃ d : Statement, d.tokens = ts

def IsProgram (ts : List Token) : Prop := ∃ ds : List Statement, ds.flatMap Statement.tokens = ts

theorem isLexeme_ofKind {k : Kind} (h : k ∈ [Kind.name,.equals,.semicolon,.rparen]) :
    (Token.ofKind k).IsLexeme := by
  have hword : Text.IsWord "id".toList :=
    .mk (by decide) (List.forall_mem_singleton.2 (by decide))
  simp only [List.mem_cons,List.not_mem_nil,or_false] at h
  rcases h with rfl | rfl | rfl | rfl
  · exact hword
  all_goals simp [Token.IsLexeme,Token.ofKind,Kind.text,Kind.Spells,Vocabulary.standard]

/-- A sample of a factor. -/
def Operand.sample : Operand .product := .name (.ofKind .name) rfl

theorem viable_take (room : Nat) {k : Kind} (hk : ∃ t : Text, k.Spells t) (ts : List Token) :
    Viable (fun us => ∃ t : Token, t.kind = k ∧ [t] = us) ts (outcome (take room k ts)) := by
  have hstop : Viable (fun us => ∃ t : Token, t.kind = k ∧ [t] = us) ts (some (some [k],ts)) := by
    apply Viable.stuck
    constructor
    · intro j hj
      obtain rfl := List.mem_singleton.1 hj
      exact hk
    · intro u hu
      exact ⟨[],by simp,u,List.mem_singleton.1 hu,rfl⟩
  cases ts with
  | nil => exact hstop
  | cons t ts =>
    rw [take]
    split
    · exact Viable.done ts
    · exact hstop

theorem completes_factorStarts : Completes (IsOperand .product) [] factorStarts := by
  constructor
  · intro k hk
    simp only [factorStarts,List.mem_cons,List.not_mem_nil,or_false] at hk
    rcases hk with rfl | rfl | rfl | rfl
    · exact ⟨['-'],by simp [Kind.Spells,Vocabulary.standard]⟩
    · exact ⟨['('],by simp [Kind.Spells,Vocabulary.standard]⟩
    · exact ⟨['0'],.whole (by simp) (List.forall_mem_singleton.2 (by decide))⟩
    · exact ⟨['x'],.mk (by decide) (List.forall_mem_nil _)⟩
  · intro u hu
    have hname := isLexeme_ofKind (k := .name) (by simp)
    have hclose := isLexeme_ofKind (k := .rparen) (by simp)
    simp only [factorStarts,List.mem_cons,List.not_mem_nil,or_false] at hu
    rcases hu with hk | hk | hk | hk
    · exact ⟨[.ofKind .name],by simpa using hname,.minus u hk .sample,rfl⟩
    · exact ⟨[.ofKind .name,.ofKind .rparen],by simpa using ⟨hname,hclose⟩,
        .group u hk (.mk (.term (.mk .sample .nil)) .nil) (.ofKind .rparen) rfl,rfl⟩
    · exact ⟨[],by simp,.number u hk,rfl⟩
    · exact ⟨[],by simp,.name u hk,rfl⟩

theorem viable_factor {room : Nat}
    (he : ∀ us, Viable (IsChain .sum) us (outcome (expression room us)))
    (hf : ∀ us, Viable (IsOperand .product) us (outcome (factor room us))) (ts : List Token) :
    Viable (IsOperand .product) ts (outcome (factor (room+1) ts)) := by
  cases hb : begins (fun k => k ∈ factorStarts) ts with
  | false =>
    rw [outcome_factor_of_other hb]
    exact Viable.stuck completes_factorStarts
  | true =>
    cases ts with
    | nil => simp at hb
    | cons t ts =>
      simp only [begins_cons,factorStarts,List.mem_cons,List.not_mem_nil,or_false,
        decide_eq_true_eq] at hb
      rcases hb with hk | hk | hk | hk
      · rw [outcome_factor_of_minus hk]
        apply (hf ts).extend [t]
        rintro us ⟨d,rfl⟩
        exact ⟨[],by simp,.minus t hk d,by simp [Operand.tokens]⟩
      · rw [outcome_factor_of_lparen hk]
        apply Viable.andThen
        · apply (he ts).extend [t]
          rintro us ⟨d,rfl⟩
          exact ⟨[.ofKind .rparen],by simpa using isLexeme_ofKind (k := .rparen) (by simp),
            .group t hk d (.ofKind .rparen) rfl,rfl⟩
        · intro us hus
          obtain ⟨inner,hinner⟩ := outcome_eq_done hus
          obtain ⟨d,rfl,-⟩ := (exists_derivation room).1 .sum _ _ _ hinner
          have hclose := viable_take room (k := .rparen)
            ⟨[')'],by simp [Kind.Spells,Vocabulary.standard]⟩ us
          apply hclose.extend (t :: d.tokens)
          rintro vs ⟨close,hc,rfl⟩
          exact ⟨[],by simp,.group t hk d close hc,by simp [Operand.tokens]⟩
      · rw [factor_of_number hk]
        exact Viable.done ts
      · rw [factor_of_name hk]
        exact Viable.done ts

section
variable {l : Level} {room : Nat}
  (ho : ∀ us, Viable (IsOperand l) us (outcome (l.operandAt room us)))
include ho

theorem viable_links (n : Nat) (ts : List Token) :
    Viable (IsLinks l) ts
      (many l.isOperator (fun us => outcome (l.operandAt room us.tail)) n ts) := by
  induction n generalizing ts with
  | zero => exact Viable.done ts
  | succ n ih =>
    cases hb : begins l.isOperator ts with
    | false =>
      rw [many_of_begins hb]
      exact Viable.done ts
    | true =>
      cases ts with
      | nil => simp at hb
      | cons op ts =>
        rw [many,if_pos hb]
        apply Viable.andThen
        · apply (ho ts).extend [op]
          rintro us ⟨d,rfl⟩
          exact ⟨[],by simp,.cons op hb d .nil,by simp [Links.tokens]⟩
        · intro us hus
          obtain ⟨right,hright⟩ := outcome_eq_done hus
          obtain ⟨d,hd,-⟩ := (exists_derivation room).2 l _ _ _ hright
          obtain rfl : ts = d.tokens ++ us := hd
          apply (ih us).extend (op :: d.tokens)
          rintro vs ⟨links,rfl⟩
          exact ⟨[],by simp,.cons op hb d links,by simp [Links.tokens]⟩

theorem viable_chain (ts : List Token) :
    Viable (IsChain l) ts (outcome (l.chainAt (room+1) ts)) := by
  rw [outcome_chainAt]
  apply Viable.andThen
  · apply (ho ts).extend []
    rintro us ⟨d,rfl⟩
    exact ⟨[],by simp,.mk d .nil,by simp [Chain.tokens,Links.tokens]⟩
  · intro us hus
    obtain ⟨left,hleft⟩ := outcome_eq_done hus
    obtain ⟨d,rfl,-⟩ := (exists_derivation room).2 l _ _ _ hleft
    apply (viable_links ho us.length us).extend d.tokens
    rintro vs ⟨links,rfl⟩
    exact ⟨[],by simp,.mk d links,by simp [Chain.tokens]⟩

end

/-- Wherever reading an expression gets stuck, the tokens read can be completed. -/
theorem viable_reading (room : Nat) :
    (∀ (l : Level) (ts : List Token), Viable (IsChain l) ts (outcome (l.chainAt room ts))) ∧
      ∀ (l : Level) (ts : List Token), Viable (IsOperand l) ts (outcome (l.operandAt room ts)) := by
  induction room with
  | zero =>
    constructor <;> intro l ts wanted rest h <;> cases l <;> cases h
  | succ room ih =>
    refine ⟨fun l => viable_chain (ih.2 l),?_⟩
    intro l ts
    cases l with
    | sum =>
      apply (viable_chain (ih.2 .product) ts).extend []
      rintro us ⟨d,rfl⟩
      exact ⟨[],by simp,.term d,by simp [Operand.tokens]⟩
    | product => exact viable_factor (ih.1 .sum) (ih.2 .product) ts

theorem viable_statement (room : Nat) (ts : List Token) :
    Viable IsStatement ts (outcome (statement room ts)) := by
  have hequals := isLexeme_ofKind (k := .equals) (by simp)
  have hname := isLexeme_ofKind (k := .name) (by simp)
  have hsemicolon := isLexeme_ofKind (k := .semicolon) (by simp)
  have hspells {k : Kind} (h : (Token.ofKind k).IsLexeme) : ∃ t : Text, k.Spells t := ⟨_,h⟩
  let value : Chain .sum := .mk (.term (.mk .sample .nil)) .nil
  rw [outcome_statement]
  apply Viable.andThen
  · apply (viable_take room (hspells hname) ts).extend []
    rintro us ⟨target,ht,rfl⟩
    exact ⟨[.ofKind .equals,.ofKind .name,.ofKind .semicolon],
      by simpa using ⟨hequals,hname,hsemicolon⟩,
      ⟨target,ht,.ofKind .equals,rfl,value,.ofKind .semicolon,rfl⟩,rfl⟩
  intro us hus
  obtain ⟨target,htarget⟩ := outcome_eq_done hus
  obtain ⟨rfl,ht⟩ := of_take htarget
  apply Viable.andThen
  · apply (viable_take room (hspells hequals) us).extend [target]
    rintro vs ⟨equals,he,rfl⟩
    exact ⟨[.ofKind .name,.ofKind .semicolon],by simpa using ⟨hname,hsemicolon⟩,
      ⟨target,ht,equals,he,value,.ofKind .semicolon,rfl⟩,rfl⟩
  intro vs hvs
  obtain ⟨equals,hequals⟩ := outcome_eq_done hvs
  obtain ⟨rfl,he⟩ := of_take hequals
  apply Viable.andThen
  · apply ((viable_reading room).1 .sum vs).extend [target,equals]
    rintro ws ⟨d,rfl⟩
    exact ⟨[.ofKind .semicolon],by simpa using hsemicolon,
      ⟨target,ht,equals,he,d,.ofKind .semicolon,rfl⟩,rfl⟩
  intro ws hws
  obtain ⟨t,hvalue⟩ := outcome_eq_done hws
  obtain ⟨d,rfl,-⟩ := (exists_derivation room).1 .sum _ _ _ hvalue
  apply (viable_take room (hspells hsemicolon) ws).extend (target :: equals :: d.tokens)
  rintro xs ⟨semicolon,hs,rfl⟩
  exact ⟨[],by simp,⟨target,ht,equals,he,d,semicolon,hs⟩,by simp [Statement.tokens]⟩

theorem viable_statements (room n : Nat) (ts : List Token) :
    Viable IsProgram ts (outcome (statements room n ts)) := by
  rw [outcome_statements]
  induction n generalizing ts with
  | zero => exact Viable.done ts
  | succ n ih =>
    rw [many]
    split
    · apply Viable.andThen
      · apply (viable_statement room ts).extend []
        rintro us ⟨d,rfl⟩
        exact ⟨[],by simp,[d],by simp⟩
      · intro us hus
        obtain ⟨t,ht⟩ := outcome_eq_done hus
        obtain ⟨d,rfl,-⟩ := exists_of_statement ht
        apply (ih us).extend d.tokens
        rintro vs ⟨ds,rfl⟩
        exact ⟨[],by simp,d :: ds,by simp⟩
    · exact Viable.done ts

end AssignLang.Grammar
