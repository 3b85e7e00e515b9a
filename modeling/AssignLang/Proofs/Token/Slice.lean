import AssignLang.Proofs.Token.Passage

namespace AssignLang

namespace Piece

/-- Whether a piece stands is decided by the character behind it. -/
theorem Stands.congr {p : Piece} {r r' : Text} (h : p.Stands r) (hr : r'.head? = r.head?) :
    p.Stands r' := by
  cases p with
  | blank c => exact h
  | illegal c => exact h
  | lexeme k t =>
    obtain ⟨hspells,hmax,hstroke⟩ := h
    exact ⟨hspells,by rwa [hr],by rwa [hr]⟩
  | comment t =>
    obtain ⟨body,hbody,hend⟩ := h
    refine ⟨body,hbody,?_⟩
    rcases hend with ht | ⟨ht,rfl⟩
    · exact .inl ht
    · exact .inr ⟨ht,List.head?_eq_none_iff.1 hr⟩

theorem isAlphanum_of_mem {t : Text} {c : Char} (h : t.IsNumeral ∨ t.IsWord) (hc : c ∈ t) :
    c.isAlphanum ∨ c = '.' := by
  rcases h with h | h
  · cases h with
    | whole _ hd => exact .inl (isAlphanum_of_isDigit (hd c hc))
    | decimal _ hd hf =>
      rcases List.mem_append.1 hc with hc | hc
      · exact .inl (isAlphanum_of_isDigit (hd c hc))
      rcases List.mem_cons.1 hc with rfl | hc
      · exact .inr rfl
      · exact .inl (isAlphanum_of_isDigit (hf c hc))
  · cases h with
    | mk ha hr =>
      rcases List.mem_cons.1 hc with rfl | hc
      · exact .inl (isAlphanum_of_isAlpha ha)
      · exact .inl (hr c hc)

/-- A lexeme stands where nothing follows that belongs to a number, a name or a comment. -/
theorem stands_of_isLexeme {t : Token} {r : Text} (h : t.IsLexeme) (hr : Apart r)
    (hslash : r.head? ≠ some '/') : (ofToken t).Stands r := by
  refine ⟨h,?_,fun _ => hslash⟩
  intro c hc hlonger
  have hmem : c ∈ t.text ++ [c] := by simp
  have hapart (hword : Text.IsNumeral (t.text ++ [c]) ∨ Text.IsWord (t.text ++ [c])) : False := by
    rcases isAlphanum_of_mem hword hmem with halnum | hpoint
    · simp [(hr c hc).1] at halnum
    · exact (hr c hc).2 hpoint
  rcases hlonger.cases with ⟨-,hnumeral⟩ | ⟨-,hword⟩ | hop
  · exact hapart (.inl hnumeral)
  · exact hapart (.inr hword)
  · obtain ⟨d,hd⟩ := Vocabulary.exists_char hop
    have hne := Kind.Spells.ne_nil h
    cases ht : t.text with
    | nil => exact hne ht
    | cons e u => simp [ht] at hd

/-- Every one of these pieces stands in front of those behind it and of `r`. -/
def AllStand (ps : List Piece) (r : Text) : Prop :=
  ∀ before p after, ps = before ++ p :: after → p.Stands (after.flatMap text ++ r)

theorem AllStand.tail {p : Piece} {ps : List Piece} {r : Text} (h : AllStand (p :: ps) r) :
    AllStand ps r := by
  rintro before q after rfl
  exact h (p :: before) q after rfl

/-- Pieces that stand where they do are read. -/
theorem AllStand.ofText_eq {ps : List Piece} {r : Text} (h : AllStand ps r) :
    ofText .standard (ps.flatMap text ++ r) = ps ++ ofText .standard r := by
  induction ps with
  | nil => rfl
  | cons p ps ih =>
    have hp : p.Stands (ps.flatMap text ++ r) := h [] p ps rfl
    rw [List.flatMap_cons,List.append_assoc,hp.ofText_eq,ih h.tail,List.cons_append]

theorem allStand_ofText (t : Text) : AllStand (ofText .standard t) [] := by
  induction t using ofText_induction .standard with
  | nil =>
    intro before p after h
    simp at h
  | cons c r ih =>
    rw [ofText_cons]
    intro before p after h
    cases before with
    | nil =>
      obtain ⟨rfl,rfl⟩ := List.cons.inj h
      rw [flatMap_text_ofText,List.append_nil]
      exact stands_first c r
    | cons q before =>
      obtain ⟨-,htail⟩ := List.cons.inj h
      exact ih before p after htail

/-- Pieces between others stand in front of those behind them. -/
theorem AllStand.middle {front ps back : List Piece} {r : Text}
    (h : AllStand (front ++ ps ++ back) r) : AllStand ps (back.flatMap text ++ r) := by
  rintro before p after rfl
  have hp := h (front ++ before) p (after ++ back) (by simp)
  rwa [List.flatMap_append,List.append_assoc] at hp

/-- Other text may follow, if the last piece stands in front of it. -/
theorem AllStand.before {ps : List Piece} {r r' : Text} (h : AllStand ps r)
    (hlast : ∀ p ∈ ps.getLast?, p.Stands r') : AllStand ps r' := by
  intro before p after hps
  cases after with
  | nil => exact hlast p (by simp [hps])
  | cons q after =>
    have hq : q.text ≠ [] := (h (before ++ [p]) q after (by simp [hps])).text_ne_nil
    obtain ⟨c,t,ht⟩ := List.exists_cons_of_ne_nil hq
    apply (h before p (q :: after) hps).congr
    rw [List.flatMap_cons,ht]
    rfl

theorem length_text_cons (o : Nat) (p : Piece) (ps : List Piece) :
    o+((p :: ps).flatMap text).length = o+p.text.length+(ps.flatMap text).length := by
  rw [List.flatMap_cons,List.length_append]
  omega

theorem length_text_append (o : Nat) (ps qs : List Piece) :
    o+((ps ++ qs).flatMap text).length =
      o+(ps.flatMap text).length+(qs.flatMap text).length := by
  rw [List.flatMap_append,List.length_append]
  omega

theorem tokens_append (o : Nat) (ps qs : List Piece) :
    tokens o (ps ++ qs) = tokens o ps ++ tokens (o+(ps.flatMap text).length) qs := by
  induction ps generalizing o with
  | nil => rfl
  | cons p ps ih =>
    rw [length_text_cons]
    cases p with
    | lexeme k t => exact congrArg (_ :: ·) (ih _)
    | blank | comment | illegal => exact ih _

theorem tokens_ofToken {o : Nat} {t : Token} (h : t.span = ⟨o,(o+t.text.length : Nat)⟩)
    (ps : List Piece) : tokens o (ofToken t :: ps) = t :: tokens (o+t.text.length) ps := by
  rw [ofToken,tokens,← h]

/-- A token is a lexeme behind pieces that are none. -/
theorem exists_of_tokens_cons {o : Nat} {ps : List Piece} {t : Token} {us : List Token}
    (h : tokens o ps = t :: us) : ∃ front back, ps = front ++ ofToken t :: back ∧
      tokens o front = [] ∧ t.span = ⟨(o+(front.flatMap text).length : Nat),
        (o+(front.flatMap text).length+t.text.length : Nat)⟩ ∧
      tokens (o+(front.flatMap text).length+t.text.length) back = us := by
  induction ps generalizing o with
  | nil => cases h
  | cons p ps ih =>
    cases p with
    | lexeme k u =>
      obtain ⟨rfl,hus⟩ := List.cons.inj h
      exact ⟨[],ps,rfl,rfl,rfl,hus⟩
    | blank | comment | illegal =>
      obtain ⟨front,back,rfl,hnone,hspan,hus⟩ := ih h
      refine ⟨_ :: front,back,rfl,hnone,?_,?_⟩
      · rw [length_text_cons]
        exact hspan
      · rw [length_text_cons]
        exact hus

theorem exists_of_tokens_append {o : Nat} {ps : List Piece} {ts us : List Token}
    (h : tokens o ps = ts ++ us) : ∃ front back, ps = front ++ back ∧ tokens o front = ts ∧
      tokens (o+(front.flatMap text).length) back = us := by
  induction ts generalizing o ps with
  | nil => exact ⟨[],ps,rfl,rfl,h⟩
  | cons t ts ih =>
    obtain ⟨front,back,rfl,hnone,hspan,hts⟩ := exists_of_tokens_cons h
    obtain ⟨front',back,rfl,hfront,hback⟩ := ih hts
    refine ⟨front ++ ofToken t :: front',back,by simp,?_,?_⟩
    · rw [tokens_append,hnone,tokens_ofToken hspan,hfront,List.nil_append]
    · rw [length_text_append,length_text_cons]
      exact hback

/-- The pieces from a token on. -/
theorem exists_from {o : Nat} {ps : List Piece} {ts us : List Token} {t : Token}
    (h : tokens o ps = ts ++ t :: us) : ∃ front back, ps = front ++ back ∧
      tokens (o+(front.flatMap text).length) back = t :: us ∧
      t.span.start = (o+(front.flatMap text).length : Nat) := by
  obtain ⟨front,back,rfl,-,hback⟩ := exists_of_tokens_append h
  obtain ⟨front',back,rfl,-,hspan,hus⟩ := exists_of_tokens_cons hback
  refine ⟨front ++ front',ofToken t :: back,by simp,?_,?_⟩
  · rw [length_text_append,tokens_ofToken hspan,hus]
  · rw [length_text_append,hspan]

/-- The pieces through a token. -/
theorem exists_through {o : Nat} {ps : List Piece} {ts us : List Token} {t : Token}
    (h : tokens o ps = ts ++ t :: us) : ∃ front back, ps = front ++ back ∧
      tokens o front = ts ++ [t] ∧ t.span.stop = (o+(front.flatMap text).length : Nat) ∧
      front.getLast? = some (ofToken t) := by
  obtain ⟨front,back,rfl,hfront,hback⟩ := exists_of_tokens_append h
  obtain ⟨front',back,rfl,hnone,hspan,-⟩ := exists_of_tokens_cons hback
  refine ⟨front ++ front' ++ [ofToken t],back,by simp,?_,?_,by simp⟩
  · rw [tokens_append,tokens_append,hfront,hnone,List.append_nil,length_text_append,
      tokens_ofToken hspan]
    rfl
  · rw [length_text_append,length_text_append,hspan,List.flatMap_singleton]
    rfl

/-- The offset of the first piece does not show in the pieces of the tokens. -/
theorem map_ofToken_tokens_congr (o o' : Nat) (ps : List Piece) :
    (tokens o ps).map ofToken = (tokens o' ps).map ofToken := by
  induction ps generalizing o o' with
  | nil => rfl
  | cons p ps ih =>
    cases p with
    | lexeme k t => exact congrArg (_ :: ·) (ih _ _)
    | blank | comment | illegal => exact ih _ _

end Piece

namespace Source

/-- Tokens of a program are those of its text from the first through the last of them, also in front
of other text, if the last one does not run into it. -/
theorem tokens_of_slice {s : Source} {before ts after : List Token} {first last : Token}
    (h : s.standardTokens = before ++ ts ++ after) (hfirst : ts.head? = some first)
    (hlast : ts.getLast? = some last) {r : Text} (hr : (Piece.ofToken last).Stands r) :
    ∃ mid, Text.slice s.text first.span.start last.span.stop = mid.flatMap Piece.text ∧
      Piece.ofText .standard (mid.flatMap Piece.text ++ r) = mid ++ Piece.ofText .standard r ∧
      ∀ o, (Piece.tokens o mid).map Piece.ofToken = ts.map Piece.ofToken := by
  obtain ⟨us,rfl⟩ := List.head?_eq_some_iff.1 hfirst
  have htokens : Piece.tokens 0 (Piece.ofText .standard s.text) =
      before ++ first :: (us ++ after) := by
    rw [← List.cons_append,← List.append_assoc]
    exact h
  obtain ⟨front,rest,hpieces,hrest,hstart⟩ := Piece.exists_from htokens
  obtain ⟨ys,hys⟩ := List.getLast?_eq_some_iff.1 hlast
  have hthrough : first :: (us ++ after) = ys ++ last :: after := by
    rw [← List.cons_append,hys,List.append_assoc]
    rfl
  rw [hthrough] at hrest
  obtain ⟨mid,back,rfl,hmid,hstop,hend⟩ := Piece.exists_through hrest
  refine ⟨mid,?_,?_,?_⟩
  · have htext : s.text = front.flatMap Piece.text ++ (mid.flatMap Piece.text ++
        back.flatMap Piece.text) := by
      rw [← List.flatMap_append,← List.flatMap_append,← hpieces,Piece.flatMap_text_ofText]
    rw [hstart,hstop,Text.slice_ofNat,htext,Nat.zero_add,List.take_length_add_append,
      List.drop_left,List.take_left]
  · have hstand : Piece.AllStand (front ++ mid ++ back) [] := by
      rw [List.append_assoc,← hpieces]
      exact Piece.allStand_ofText s.text
    apply Piece.AllStand.ofText_eq
    apply hstand.middle.before
    intro p hp
    rw [hend] at hp
    obtain rfl := Option.some.inj hp
    exact hr
  · intro o
    rw [Piece.map_ofToken_tokens_congr o,hmid,← hys]

end Source
end AssignLang
