import AssignLang.Proofs.Token.Layout
import AssignLang.Proofs.Token.Slice
import AssignLang.Proofs.Tree.Places

namespace AssignLang

namespace Text

/-- Layout that ends a program, where the last comment may go on through the end. -/
inductive IsEnding : Text → Prop
  | layout {g : Text} (hg : g.IsLayout) : IsEnding g
  | comment {g body : Text} (hg : g.IsLayout) (hbody : '\n' ∉ body) :
      IsEnding (g ++ '/' :: '/' :: body)

def StartsBlank (g : Text) : Prop := ∃ c r, g = c :: r ∧ Piece.isBlank c

end Text

/-- Tokens, each with the layout behind it. This starts with a blank. Behind the last token it may
also be missing, or end the program with a comment. -/
inductive Spaced : List (Token × Text) → Prop
  | nil : Spaced []
  | cons {t : Token} {g : Text} {items : List (Token × Text)} (ht : t.IsLexeme)
      (hblank : g.StartsBlank) (hg : g.IsLayout) (hs : Spaced items) : Spaced ((t,g) :: items)
  | last {t : Token} {g : Text} (ht : t.IsLexeme) (hblank : g = [] ∨ g.StartsBlank)
      (hg : g.IsEnding) : Spaced [(t,g)]

theorem Spaced.isLexeme {items : List (Token × Text)} (h : Spaced items) :
    ∀ i ∈ items, i.1.IsLexeme := by
  induction h with
  | nil => simp
  | cons ht _ _ _ ih => exact List.forall_mem_cons.2 ⟨ht,ih⟩
  | last ht _ _ => simpa using ht

/-- The text of tokens with the layout behind them. -/
def spread : List (Token × Text) → Text
  | [] => []
  | (t,g) :: items => t.text ++ g ++ spread items

/-- The tokens at the places they have in that text if it begins at offset `o`. -/
def placed : Nat → List (Token × Text) → List Token
  | _, [] => []
  | o, (t,g) :: items =>
    {t with span := ⟨o,(o+t.text.length : Nat)⟩} :: placed (o+t.text.length+g.length) items

/-- A choice of layout around tokens, of which only the texts and kinds matter. -/
structure Spacing where
  front : Text
  items : List (Token × Text)
  spaced : Spaced items
  before : items ≠ [] → front.IsLayout
  alone : items = [] → front.IsEnding

namespace Spacing

def text (a : Spacing) : Text := a.front ++ spread a.items

/-- The tokens at their places. -/
def tokens (a : Spacing) : List Token := placed a.front.length a.items

/-- The tokens without places. -/
def lexemes (a : Spacing) : List Token := a.items.map fun i => i.1.bare

theorem isLexeme_of_mem_lexemes (a : Spacing) : ∀ t ∈ a.lexemes, t.IsLexeme :=
  List.forall_mem_map.2 a.spaced.isLexeme

/-- Any tokens with a blank behind each of them. -/
def plain (ts : List Token) (h : ∀ t ∈ ts, t.IsLexeme) : Spacing where
  front := []
  items := ts.map fun t => (t,[' '])
  spaced := by
    induction ts with
    | nil => exact .nil
    | cons t ts ih =>
      have hs := ih fun u hu => h u (List.mem_cons_of_mem t hu)
      exact .cons (h t List.mem_cons_self) ⟨' ',[],rfl,rfl⟩ (.blank rfl .nil) hs
  before := fun _ => .nil
  alone := fun _ => .layout .nil

end Spacing

namespace Piece

theorem apart_of_startsBlank {g : Text} (h : g.StartsBlank) (r : Text) :
    Apart (g ++ r) ∧ (g ++ r).head? ≠ some '/' := by
  obtain ⟨c,g,hg,hc⟩ := h
  have hapart : (c.isAlphanum = false ∧ c ≠ '.') ∧ c ≠ '/' := by
    simp only [isBlank,decide_eq_true_eq,List.mem_cons,List.not_mem_nil,or_false] at hc
    rcases hc with h | h | h | h <;> rw [h] <;> decide
  rw [hg]
  exact ⟨apart_cons (g ++ r) hapart.1,by simp [hapart.2]⟩

section
variable {ps : List Piece}

theorem tokens_of_isLayout (h : ∀ p ∈ ps, p.isLayout) (o : Nat) : tokens o ps = [] := by
  induction ps generalizing o with
  | nil => rfl
  | cons p ps ih =>
    have hps := ih fun q hq => h q (List.mem_cons_of_mem p hq)
    have hp := h p List.mem_cons_self
    cases p with
    | blank | comment => exact hps _
    | illegal | lexeme => simp [isLayout] at hp

theorem content_of_isLayout (h : ∀ p ∈ ps, p.isLayout) : content ps = [] :=
  List.filter_eq_nil_iff.2 fun p hp => by simp [h p hp]

theorem content_append (ps qs : List Piece) : content (ps ++ qs) = content ps ++ content qs :=
  List.filter_append ps qs

end

/-- A layout at the end is nothing but layout. -/
theorem isLayout_of_isEnding {g : Text} (h : g.IsEnding) (v : Vocabulary) :
    ∀ p ∈ ofText v g, p.isLayout := by
  cases h with
  | layout hg =>
    obtain ⟨ps,hps,-,hall⟩ := ofText_layout hg v []
    rw [List.append_nil,ofText_nil,List.append_nil] at hps
    rwa [hps]
  | @comment g body hg hbody =>
    obtain ⟨ps,hps,-,hall⟩ := ofText_layout hg v ('/' :: '/' :: body)
    have hcomment := ofText_comment (v := v) (r := []) ⟨body,hbody,.inr ⟨rfl,rfl⟩⟩
    rw [List.append_nil,ofText_nil] at hcomment
    rw [hps,hcomment]
    intro p hp
    have hmem : p ∈ ps ∨ p = comment ('/' :: '/' :: body) := by simpa using hp
    cases hmem with
    | inl hin => exact hall p hin
    | inr hlast => simp [hlast,isLayout]

/-- A token with layout behind it is read as this token, and what follows is read as if it stood
alone. -/
theorem ofText_token {t : Token} {g r : Text} (ht : t.IsLexeme) (hblank : g.StartsBlank)
    (hg : g.IsLayout) : ∃ ps, ofText .standard (t.text ++ g ++ r) =
      ofToken t :: (ps ++ ofText .standard r) ∧ ps.flatMap text = g ∧ ∀ p ∈ ps, p.isLayout := by
  obtain ⟨ps,hps,htext,hall⟩ := ofText_layout hg .standard r
  have hapart := apart_of_startsBlank hblank r
  have hstands : (ofToken t).Stands (g ++ r) := stands_of_isLexeme ht hapart.1 hapart.2
  have hread : ofText .standard (t.text ++ (g ++ r)) = _ := hstands.ofText_eq
  refine ⟨ps,?_,htext,hall⟩
  rw [List.append_assoc,hread,hps]

theorem ofText_last {t : Token} {g : Text} (ht : t.IsLexeme) (hblank : g = [] ∨ g.StartsBlank)
    (hg : g.IsEnding) : ∃ ps, ofText .standard (t.text ++ g) = ofToken t :: ps ∧
      ∀ p ∈ ps, p.isLayout := by
  have hapart : Apart g ∧ g.head? ≠ some '/' := by
    cases hblank with
    | inl hnil => simp [hnil,Apart]
    | inr hstart => simpa using apart_of_startsBlank hstart []
  have hstands : (ofToken t).Stands g := stands_of_isLexeme ht hapart.1 hapart.2
  exact ⟨_,hstands.ofText_eq,isLayout_of_isEnding hg .standard⟩

/-- Spaced tokens are read as these tokens at their places, and besides only as layout. -/
theorem ofText_spread {items : List (Token × Text)} (h : Spaced items) :
    (∀ o, tokens o (ofText .standard (spread items)) = placed o items) ∧
      content (ofText .standard (spread items)) = (items.map fun i => i.1.bare).map ofToken := by
  induction h with
  | nil => exact ⟨fun _ => rfl,rfl⟩
  | @cons t g items ht hblank hg hs ih =>
    obtain ⟨ps,hps,htext,hall⟩ := ofText_token (r := spread items) ht hblank hg
    rw [spread,hps]
    constructor
    · intro o
      rw [ofToken,tokens,tokens_append,tokens_of_isLayout hall,htext,ih.1]
      rfl
    · have hcontent := content_append ps (ofText .standard (spread items))
      rw [content_of_isLayout hall,ih.2] at hcontent
      exact congrArg (ofToken t :: ·) hcontent
  | @last t g ht hblank hg =>
    obtain ⟨ps,hps,hall⟩ := ofText_last ht hblank hg
    rw [spread,spread,List.append_nil,hps]
    constructor
    · intro o
      rw [ofToken,tokens,tokens_of_isLayout hall]
      rfl
    · exact congrArg (ofToken t :: ·) (content_of_isLayout hall)

end Piece

namespace Spacing

/-- Layout in front changes no more than the places. -/
theorem ofText_text (a : Spacing) :
    Piece.tokens 0 (Piece.ofText .standard a.text) = a.tokens ∧
      Piece.content (Piece.ofText .standard a.text) = a.lexemes.map Piece.ofToken := by
  by_cases h : a.items = []
  · have hall := Piece.isLayout_of_isEnding (a.alone h) .standard
    rw [text,tokens,lexemes,h,spread,List.append_nil]
    exact ⟨Piece.tokens_of_isLayout hall 0,Piece.content_of_isLayout hall⟩
  · obtain ⟨ps,hps,htext,hall⟩ := Piece.ofText_layout (a.before h) .standard (spread a.items)
    have hread := Piece.ofText_spread a.spaced
    rw [text,tokens,lexemes,hps]
    constructor
    · rw [Piece.tokens_append,Piece.tokens_of_isLayout hall,htext,Nat.zero_add,hread.1]
      rfl
    · rw [Piece.content_append,Piece.content_of_isLayout hall,hread.2]
      rfl

end Spacing
end AssignLang
