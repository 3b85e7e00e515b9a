import AssignLang.Proofs.Token.Passage

namespace AssignLang

/-- Blanks, and comments with the line feeds that end them. -/
inductive Text.IsLayout : Text → Prop
  | nil : IsLayout []
  | blank {c : Char} {g : Text} (hc : Piece.isBlank c) (hg : IsLayout g) : IsLayout (c :: g)
  | comment {body g : Text} (hbody : '\n' ∉ body) (hg : IsLayout g) :
      IsLayout ('/' :: '/' :: (body ++ ['\n']) ++ g)

namespace Piece

/-- Layout is read as such, and what stands behind it is read as if it stood alone. -/
theorem ofText_layout {g : Text} (h : g.IsLayout) (v : Vocabulary) (t : Text) :
    ∃ ps, ofText v (g ++ t) = ps ++ ofText v t ∧ ps.flatMap text = g ∧ ∀ p ∈ ps, p.isLayout := by
  induction h with
  | nil => exact ⟨[],rfl,rfl,by simp⟩
  | blank hc hg ih =>
    obtain ⟨ps,hps,htext,hlayout⟩ := ih
    refine ⟨blank _ :: ps,?_,congrArg (_ :: ·) htext,by simpa [isLayout] using hlayout⟩
    rw [List.cons_append,ofText_blank hc,hps]
    rfl
  | @comment body g hbody hg ih =>
    obtain ⟨ps,hps,htext,hlayout⟩ := ih
    refine ⟨comment ('/' :: '/' :: (body ++ ['\n'])) :: ps,?_,?_,
      by simpa [isLayout] using hlayout⟩
    · rw [List.append_assoc,ofText_comment ⟨body,hbody,.inl rfl⟩,hps]
      rfl
    · rw [List.flatMap_cons,htext]
      rfl

/-- Behind layout there stands something else, or nothing more than a comment without an end. -/
theorem exists_layout (t : Text) :
    (∃ (g : Text) (d : Char) (r : Text), g.IsLayout ∧ t = g ++ d :: r ∧ isBlank d = false ∧
      ¬(d = '/' ∧ r.head? = some '/')) ∨
    ∀ v, ∀ p ∈ ofText v t, p.isLayout := by
  induction hn : t.length using Nat.strongRecOn generalizing t with
  | ind n ih =>
    subst hn
    cases t with
    | nil => exact .inr fun v p hp => absurd hp List.not_mem_nil
    | cons c r =>
      cases hblank : isBlank c with
      | true =>
        rcases ih r.length (Nat.lt_succ_self _) r rfl with ⟨g,d,s,hg,rfl,hd⟩ | hlayout
        · exact .inl ⟨c :: g,d,s,.blank hblank hg,rfl,hd⟩
        · refine .inr fun v => ?_
          rw [ofText_blank hblank]
          exact List.forall_mem_cons.2 ⟨rfl,hlayout v⟩
      | false =>
        by_cases hstrokes : c = '/' ∧ r.head? = some '/'
        · obtain ⟨rfl,hr⟩ := hstrokes
          obtain ⟨r,rfl⟩ := List.head?_eq_some_iff.1 hr
          by_cases hfeed : '\n' ∈ r
          · obtain ⟨body,r,rfl,hbody⟩ := List.eq_append_cons_of_mem hfeed
            have htext : '/' :: '/' :: (body ++ '\n' :: r) =
              '/' :: '/' :: (body ++ ['\n']) ++ r := by simp
            have hlt : r.length < ('/' :: '/' :: (body ++ '\n' :: r)).length := by
              simp
              omega
            rw [htext]
            rcases ih r.length hlt r rfl with ⟨g,d,s,hg,rfl,hd⟩ | hlayout
            · exact .inl ⟨_,d,s,.comment hbody hg,(List.append_assoc _ _ _).symm,hd⟩
            · refine .inr fun v => ?_
              rw [ofText_comment ⟨body,hbody,.inl rfl⟩]
              exact List.forall_mem_cons.2 ⟨rfl,hlayout v⟩
          · refine .inr fun v => ?_
            have hread := ofText_comment (v := v) (r := []) ⟨r,hfeed,.inr ⟨rfl,rfl⟩⟩
            rw [List.append_nil] at hread
            rw [hread]
            exact List.forall_mem_cons.2 ⟨rfl,by simp⟩
        · exact .inl ⟨[],c,r,.nil,rfl,hblank,hstrokes⟩

theorem advance_append_of_isLayout {ps : List Piece} (h : ∀ p ∈ ps, p.isLayout) (o : Nat)
    (qs : List Piece) : advance o (ps ++ qs) = advance (o+(ps.flatMap text).length) qs := by
  induction ps generalizing o with
  | nil => rfl
  | cons p ps ih =>
    obtain ⟨hp,hps⟩ := List.forall_mem_cons.1 h
    rw [List.flatMap_cons,List.length_append,← Nat.add_assoc,← ih hps]
    cases p with
    | blank | comment => rfl
    | illegal | lexeme => cases hp

end Piece

namespace Cursor

/-- Behind layout the cursor comes to `d` at offset `n`, where neither further layout nor a comment
without an end begins. -/
structure Faces (c : Cursor) (n : Nat) (d : Char) (r : Text) : Prop where
  layout : ∃ g : Text, g.IsLayout ∧ c.rest = g ++ d :: r ∧ n = c.position+g.length
  blank : Piece.isBlank d = false
  strokes : ¬(d = '/' ∧ r.head? = some '/')

section
variable {c : Cursor} {n : Nat} {d : Char} {r : Text}

theorem Faces.rest (h : c.Faces n d r) : {c with position := n}.rest = d :: r := by
  obtain ⟨g,-,hg,rfl⟩ := h.layout
  have hdrop := congrArg (List.drop g.length) hg
  rwa [Cursor.rest,List.drop_drop,List.drop_left] at hdrop

theorem Faces.advance (h : c.Faces n d r) : Piece.advance c.position c.pieces =
    Piece.advance n (Piece.ofText c.vocabulary (d :: r)) := by
  obtain ⟨g,hlayout,hg,rfl⟩ := h.layout
  obtain ⟨ps,hps,htext,hall⟩ := Piece.ofText_layout hlayout c.vocabulary (d :: r)
  rw [pieces,hg,hps,Piece.advance_append_of_isLayout hall,htext]

/-- A cursor with nothing to face has come to the end. -/
theorem faces_or_ends (c : Cursor) (hc : c.position ≤ c.source.text.length) (o : Console) :
    (∃ n d r, c.Faces n d r) ∨ c.next o = (false,c.finished,o) := by
  rcases Piece.exists_layout c.rest with ⟨g,d,r,hg,hrest,hblank,hstrokes⟩ | hlayout
  · exact .inl ⟨_,d,r,⟨g,hg,hrest,rfl⟩,hblank,hstrokes⟩
  · right
    have hall : ∀ p ∈ c.pieces, p.isLayout := hlayout c.vocabulary
    have hadvance : Piece.advance c.position c.pieces = ([],none,c.source.text.length) := by
      rw [← List.append_nil c.pieces,Piece.advance_append_of_isLayout hall,pieces,
        Piece.flatMap_text_ofText,Cursor.rest,List.length_drop,Nat.add_sub_cancel' hc]
      rfl
    rw [next_of_none hadvance,Console.warnIllegal_nil]
    rfl

end

end Cursor
end AssignLang
