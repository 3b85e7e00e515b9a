import AssignLang.Proofs.Token.Lexeme
import AssignLang.Proofs.Tree.Places

namespace AssignLang

namespace Piece

/-- `t` followed by `r` is read as the tokens `ts` followed by what `r` is read as. -/
def Reads (t : Text) (ts : List Token) (r : Text) : Prop :=
  content (ofText .standard (t ++ r)) = ts.map ofToken ++ content (ofText .standard r)

theorem Reads.append {t u r : Text} {ts us : List Token} (ht : Reads t ts (u ++ r))
    (hu : Reads u us r) : Reads (t ++ u) (ts ++ us) r := by
  rw [Reads,List.append_assoc,show content (ofText .standard (t ++ (u ++ r))) = _ from ht,
    show content (ofText .standard (u ++ r)) = _ from hu,List.map_append,List.append_assoc]

theorem reads_nil (r : Text) : Reads [] [] r := rfl

theorem reads_blank {c : Char} (h : isBlank c) (r : Text) : Reads [c] [] r := by
  rw [Reads,List.singleton_append,ofText_blank h]
  rfl

theorem reads_number {t : Token} (hk : t.kind = .number) (ht : t.IsLexeme) {r : Text}
    (hr : Apart r) : Reads t.text [t] r := by
  rw [Token.IsLexeme,hk] at ht
  rw [Reads,ofText_number ht hr,List.map_singleton,ofToken,hk]
  rfl

theorem reads_name {t : Token} (hk : t.kind = .name) (ht : t.IsLexeme) {r : Text}
    (hr : Apart r) : Reads t.text [t] r := by
  rw [Token.IsLexeme,hk] at ht
  rw [Reads,ofText_name ht hr,List.map_singleton,ofToken,hk]
  rfl

theorem reads_operator {c : Char} {k : Kind} {t : Token} (ht : ofToken t = lexeme k [c])
    (h : ([c],k) ∈ Vocabulary.standard.operators) {r : Text}
    (hr : c = '/' → r.head? ≠ some '/') : Reads [c] [t] r := by
  rw [Reads,List.singleton_append,ofText_operator h hr,List.map_singleton,ht]
  rfl

theorem reads_ofKind {c : Char} {k : Kind} (h : ([c],k) ∈ Vocabulary.standard.operators)
    (hk : k.text = [c]) (hc : c ≠ '/') (r : Text) : Reads [c] [.ofKind k] r :=
  reads_operator (by rw [ofToken,Token.ofKind,hk]) h fun he => absurd he hc

end Piece

namespace Token

/-- The operators that stand between or in front of operands. -/
def IsOperator (t : Token) : Prop := t.kind ∈ [Kind.plus,.minus,.star,.slash] ∧ t.IsLexeme

theorem IsOperator.exists_char {t : Token} (h : t.IsOperator) :
    ∃ c, t.text = [c] ∧ ([c],t.kind) ∈ Vocabulary.standard.operators := by
  obtain ⟨hk,ht⟩ := h
  simp only [List.mem_cons,List.not_mem_nil,or_false] at hk
  rcases hk with hk | hk | hk | hk <;> rw [IsLexeme,hk] at ht <;> rw [hk] <;>
    simpa [Kind.Spells,Vocabulary.standard] using ht

end Token

namespace Tree

mutual

/-- The tokens of a tree in the order of its code. -/
def tokens : Tree → List Token
  | leaf _ => []
  | number _ a => [a]
  | name _ a => [a]
  | unary _ op t => op :: t.tokens
  | binary _ l op r => l.tokens ++ op :: r.tokens
  | group _ t => .ofKind .lparen :: t.tokens ++ [.ofKind .rparen]
  | assign _ x t => x :: .ofKind .equals :: t.tokens ++ [.ofKind .semicolon]
  | block _ ts => tokensAll ts

def tokensAll : List Tree → List Token
  | [] => []
  | t :: ts => t.tokens ++ tokensAll ts

end

/-- Expressions of any shape, also of shapes that are not read. -/
inductive Arithmetic : Tree → Prop
  | number {s : Span} {t : Token} (hk : t.kind = .number) (ht : t.IsLexeme) :
      Arithmetic (number s t)
  | name {s : Span} {t : Token} (hk : t.kind = .name) (ht : t.IsLexeme) : Arithmetic (name s t)
  | unary {s : Span} {op : Token} {t : Tree} (hk : op.kind = .minus) (hop : op.IsLexeme)
      (h : Arithmetic t) : Arithmetic (unary s op t)
  | binary {s : Span} {l r : Tree} {op : Token} (hl : Arithmetic l) (hop : op.IsOperator)
      (hr : Arithmetic r) : Arithmetic (binary s l op r)
  | group {s : Span} {t : Tree} (h : Arithmetic t) : Arithmetic (group s t)

/-- No code begins with a stroke, so there are no comments in code. -/
theorem Arithmetic.code_head {t : Tree} (h : t.Arithmetic) : ∃ c r, t.code = c :: r ∧ c ≠ '/' := by
  induction h with
  | number hk ht =>
    rw [Token.IsLexeme,hk] at ht
    obtain ⟨c,r,he,hc⟩ := ht.exists_head
    refine ⟨c,r,he,?_⟩
    rintro rfl
    exact absurd hc (by decide)
  | name hk ht =>
    rw [Token.IsLexeme,hk] at ht
    obtain ⟨c,r,he,hc⟩ := ht.exists_head
    refine ⟨c,r,he,?_⟩
    rintro rfl
    exact absurd hc (by decide)
  | unary hk hop h ih =>
    rw [Token.IsLexeme,hk] at hop
    simp [Kind.Spells,Vocabulary.standard] at hop
    rw [code,attach,hop]
    split <;> exact ⟨'-',_,rfl,by decide⟩
  | binary hl hop hr ihl ihr =>
    obtain ⟨c,r,he,hc⟩ := ihl
    exact ⟨c,_,by rw [code,he]; rfl,hc⟩
  | group h ih => exact ⟨'(',_,rfl,by decide⟩

theorem apart_attach {op : Token} (h : op.IsOperator) (code r : Text) :
    Piece.Apart (attach op.text code ++ r) := by
  obtain ⟨c,ht,hm⟩ := h.exists_char
  obtain ⟨ha,-,hp⟩ := Piece.not_operator hm
  rw [attach,ht]
  split <;> exact Piece.apart_cons _ ⟨ha,hp⟩

theorem reads_attach {op : Token} (h : op.IsOperator) {code r : Text} {ts : List Token}
    (hhead : ∃ c m, code = c :: m ∧ c ≠ '/') (hcode : Piece.Reads code ts r) :
    Piece.Reads (attach op.text code) (op :: ts) r := by
  obtain ⟨c,ht,hm⟩ := h.exists_char
  have hop : Piece.ofToken op = .lexeme op.kind [c] := by rw [Piece.ofToken,ht]
  rw [attach,ht]
  split
  · have hs : Piece.Reads ([' '] ++ code) ([] ++ ts) r := (Piece.reads_blank rfl _).append hcode
    exact (Piece.reads_operator hop hm fun _ => by simp).append hs
  · refine (Piece.reads_operator hop hm fun _ => ?_).append hcode
    obtain ⟨d,m,rfl,hd⟩ := hhead
    simpa using hd

/-- The code of an expression is read as its tokens, if what follows cannot lengthen a number or
a name. -/
theorem Arithmetic.reads_code {t : Tree} (h : t.Arithmetic) {r : Text} (hr : Piece.Apart r) :
    Piece.Reads t.code t.tokens r := by
  induction h generalizing r with
  | number hk ht => exact Piece.reads_number hk ht hr
  | name hk ht => exact Piece.reads_name hk ht hr
  | @unary s op t hk hop h ih =>
    exact reads_attach ⟨by simp [hk],hop⟩ h.code_head (ih hr)
  | @binary s l r' op hl hop hr' ihl ihr =>
    exact (ihl (apart_attach hop r'.code r)).append (reads_attach hop hr'.code_head (ihr hr))
  | @group s t h ih =>
    have hopen : Piece.Reads ['('] [.ofKind .lparen] (t.code ++ [')'] ++ r) :=
      Piece.reads_ofKind (by decide) rfl (by decide) _
    have hclose : Piece.Reads [')'] [.ofKind .rparen] r :=
      Piece.reads_ofKind (by decide) rfl (by decide) r
    exact hopen.append ((ih (Piece.apart_cons _ (by decide))).append hclose)

theorem reads_assign {s : Span} {x : Token} {t : Tree} (hk : x.kind = .name) (hx : x.IsLexeme)
    (h : t.Arithmetic) (r : Text) :
    Piece.Reads (assign s x t).code (assign s x t).tokens r := by
  have hequals (r : Text) : Piece.Reads ['='] [.ofKind .equals] r :=
    Piece.reads_ofKind (by decide) rfl (by decide) r
  have hsemicolon : Piece.Reads [';'] [.ofKind .semicolon] r :=
    Piece.reads_ofKind (by decide) rfl (by decide) r
  have hvalue := (h.reads_code (Piece.apart_cons r (by decide))).append hsemicolon
  have hsign : Piece.Reads " = ".toList [.ofKind .equals] (t.code ++ [';'] ++ r) :=
    (Piece.reads_blank rfl _).append ((hequals _).append (Piece.reads_blank rfl _))
  have hname : Piece.Reads x.text [x] (" = ".toList ++ (t.code ++ [';']) ++ r) :=
    Piece.reads_name hk hx (Piece.apart_cons _ (by decide))
  have hall := hname.append (hsign.append hvalue)
  rw [code,tokens,List.append_assoc,List.append_assoc]
  exact hall

end Tree
end AssignLang
