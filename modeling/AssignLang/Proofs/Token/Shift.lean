import AssignLang.Proofs.Token.Slice

namespace AssignLang

/-- The same place, `k` characters farther behind. -/
def Span.shift (k : Nat) (s : Span) : Span := ⟨s.start+k,s.stop+k⟩

def Token.shift (k : Nat) (t : Token) : Token := {t with span := t.span.shift k}

@[simp] theorem Token.shift_kind (k : Nat) (t : Token) : (t.shift k).kind = t.kind := rfl

@[simp] theorem Token.shift_span (k : Nat) (t : Token) : (t.shift k).span = t.span.shift k := rfl

namespace Piece

theorem tokens_add (o k : Nat) (ps : List Piece) :
    tokens (o+k) ps = (tokens o ps).map (Token.shift k) := by
  induction ps generalizing o with
  | nil => rfl
  | cons p ps ih =>
    have hmove (n : Nat) : o+k+n = o+n+k := by omega
    cases p with
    | lexeme kind t =>
      have hspan : (⟨(o+k : Nat),(o+k+t.length : Nat)⟩ : Span) =
          Span.shift k ⟨o,(o+t.length : Nat)⟩ := by
        rw [hmove]
        rfl
      rw [tokens,hmove,ih,← hmove,hspan]
      rfl
    | blank | comment | illegal =>
      simp only [tokens,hmove]
      exact ih _

theorem illegals_add (o k : Nat) (ps : List Piece) :
    illegals (o+k) ps = (illegals o ps).map (· + k) := by
  induction ps generalizing o with
  | nil => rfl
  | cons p ps ih =>
    have hmove (n : Nat) : o+k+n = o+n+k := by omega
    cases p with
    | illegal c =>
      rw [illegals,hmove,ih]
      rfl
    | blank | comment | lexeme =>
      simp only [illegals,hmove]
      exact ih _

theorem illegals_append (o : Nat) (ps qs : List Piece) :
    illegals o (ps ++ qs) = illegals o ps ++ illegals (o+(ps.flatMap text).length) qs := by
  induction ps generalizing o with
  | nil => rfl
  | cons p ps ih =>
    rw [length_text_cons]
    cases p with
    | illegal c => exact congrArg (o :: ·) (ih _)
    | blank | comment | lexeme => exact ih _

/-- The last piece of a text also stands in front of a line feed, unless it is a comment, which the
line feed will end. -/
theorem Stands.of_end {p : Piece} (h : p.Stands []) (r : Text) :
    p.Stands ('\n' :: r) ∨ ∃ body, '\n' ∉ body ∧ p = comment ('/' :: '/' :: body) := by
  cases p with
  | blank c => exact .inl h
  | illegal c => exact .inl h
  | lexeme k t =>
    have hstands : (ofToken ⟨t,k,.unknown⟩).Stands ('\n' :: r) :=
      stands_of_isLexeme h.1 (apart_cons r (by decide)) (by simp)
    exact .inl hstands
  | comment t =>
    obtain ⟨body,hbody,ht | ⟨ht,-⟩⟩ := h
    · exact .inl ⟨body,hbody,.inl ht⟩
    · exact .inr ⟨body,hbody,congrArg comment ht⟩

/-- A text in front of a line feed has the tokens and the illegal characters that it has by itself,
and so has the text behind the line feed. -/
theorem exists_closed (p r : Text) : ∃ ps, ps.flatMap text = p ++ ['\n'] ∧
    ofText .standard (p ++ '\n' :: r) = ps ++ ofText .standard r ∧
    ∀ o, tokens o ps = tokens o (ofText .standard p) ∧
      illegals o ps = illegals o (ofText .standard p) := by
  have htext := flatMap_text_ofText .standard p
  have hall := allStand_ofText p
  generalize ofText .standard p = ps at htext hall
  by_cases hlast : ∀ last ∈ ps.getLast?, last.Stands ('\n' :: r)
  · refine ⟨ps ++ [blank '\n'],by simp [htext,text],?_,?_⟩
    · have hread := (hall.before hlast).ofText_eq
      rw [htext,ofText_blank rfl] at hread
      rw [hread,List.append_assoc,List.singleton_append]
    · intro o
      rw [tokens_append,illegals_append]
      simp [tokens,illegals]
  · obtain ⟨front,last,rfl,hopen⟩ : ∃ front last, ps = front ++ [last] ∧
        ¬ last.Stands ('\n' :: r) := by
      rcases List.eq_nil_or_concat ps with rfl | ⟨front,last,rfl⟩
      · simp at hlast
      · exact ⟨front,last,by simp,by simpa using hlast⟩
    have hend : last.Stands [] := hall front last [] rfl
    obtain ⟨body,hbody,rfl⟩ := (hend.of_end r).resolve_left hopen
    refine ⟨front ++ [comment ('/' :: '/' :: (body ++ ['\n']))],?_,?_,?_⟩
    · simp [← htext,text]
    · have hcomment : (comment ('/' :: '/' :: (body ++ ['\n']))).Stands r :=
        ⟨body,hbody,.inl rfl⟩
      have hfront : AllStand front ('/' :: '/' :: (body ++ '\n' :: r)) := by
        have hwhole : AllStand front ('/' :: '/' :: body) := by
          have hmiddle : AllStand ([] ++ front ++ [comment ('/' :: '/' :: body)]) [] := hall
          simpa [text] using hmiddle.middle
        apply hwhole.before
        intro last hlast
        obtain ⟨before,rfl⟩ := List.getLast?_eq_some_iff.1 hlast
        exact (hwhole before last [] rfl).congr rfl
      have hread := hfront.ofText_eq
      have hrest := ofText_comment (v := .standard) hcomment
      simp only [List.cons_append,List.append_assoc,List.nil_append] at hrest
      rw [hrest] at hread
      rw [← htext]
      simpa [text] using hread
    · intro o
      rw [tokens_append,illegals_append,tokens_append,illegals_append]
      exact ⟨rfl,rfl⟩

end Piece

namespace Source

variable {p q r : Source}

/-- The first of two programs that a line feed separates is as long as this with the line feed. -/
def past (p : Source) : Nat := p.text.length+1

/-- The tokens of both programs, those of the second one behind the first. -/
theorem standardTokens_concat (h : r.text = p.text ++ '\n' :: q.text) :
    r.standardTokens = p.standardTokens ++ q.standardTokens.map (Token.shift p.past) := by
  obtain ⟨ps,htext,hps,hsame⟩ := Piece.exists_closed p.text q.text
  have hlength : (ps.flatMap Piece.text).length = p.past := by
    rw [htext,List.length_append]
    rfl
  have hshift := Piece.tokens_add 0 p.past (Piece.ofText .standard q.text)
  simp only [standardTokens,Stream.ofText,h,hps,Piece.tokens_append,hlength,(hsame 0).1,hshift]

theorem illegals_concat (h : r.text = p.text ++ '\n' :: q.text) :
    (Stream.ofText .standard r.text).illegals = (Stream.ofText .standard p.text).illegals ++
      (Stream.ofText .standard q.text).illegals.map (· + p.past) := by
  obtain ⟨ps,htext,hps,hsame⟩ := Piece.exists_closed p.text q.text
  have hlength : (ps.flatMap Piece.text).length = p.past := by
    rw [htext,List.length_append]
    rfl
  have hshift := Piece.illegals_add 0 p.past (Piece.ofText .standard q.text)
  simp only [Stream.ofText,h,hps,Piece.illegals_append,hlength,(hsame 0).2,hshift]

end Source
end AssignLang
