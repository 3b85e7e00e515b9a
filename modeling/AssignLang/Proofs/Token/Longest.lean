import AssignLang.Proofs.Token.Layout

namespace AssignLang

namespace Cursor

/-- The next token is `l` at offset `n`, and nothing is reported. -/
def Takes (c : Cursor) (o : Console) (n : Nat) (l : Text) (k : Kind) : Prop :=
  c.next o = (true,
    {c with position := n+l.length,token := some ⟨l,k,⟨n,(n+l.length : Nat)⟩⟩},o)

/-- The character at offset `n` is reported, and the next token is looked for behind it. -/
def Skips (c : Cursor) (o : Console) (n : Nat) : Prop :=
  c.next o = {c with position := n+1}.next (o.warnIllegal c.source [n])

end Cursor

namespace Vocabulary

/-- The longest operator at the front of a text: one of two characters, or one of one if there is
none of two. -/
inductive Longest (v : Vocabulary) : Text → Text → Kind → Prop
  | two {a b : Char} {r : Text} {k : Kind} (h : v.operator? [a,b] = some k) :
      Longest v (a :: b :: r) [a,b] k
  | one {a : Char} {r : Text} {k : Kind} (h : v.operator? [a] = some k)
      (hno : ∀ b ∈ r.head?, v.operator? [a,b] = none) : Longest v (a :: r) [a] k

/-- Wherever neither a number nor a name begins, the longest operator is taken, and a character is
skipped only if no operator begins with it. -/
def TakesLongest (v : Vocabulary) : Prop :=
  ∀ (c : Cursor) (o : Console) (n : Nat) (d : Char) (r : Text), c.vocabulary = v →
    c.Faces n d r → d.isAlphanum = false →
      (∀ l k, v.Longest (d :: r) l k → c.Takes o n l k) ∧
        ((∀ l k, ¬ v.Longest (d :: r) l k) → c.Skips o n)

/-- Every operator of two characters that can be met begins with one of one. -/
def Opened (v : Vocabulary) : Prop :=
  ∀ a b, (v.operator? [a,b]).isSome → Piece.isBlank a = false → a.isAlphanum = false →
    ¬(a = '/' ∧ b = '/') → (v.operator? [a]).isSome

variable {v : Vocabulary}

theorem operatorAt?_of_longest {t l : Text} {k : Kind} (h : v.Longest t l k) :
    v.operatorAt? t = some (l,k) := by
  cases h with
  | two h => rw [operatorAt?,h]
  | @one a r k h hno =>
    cases r with
    | nil => rw [operatorAt?,h,Option.map_some]
    | cons b r => rw [operatorAt?,hno b rfl,h,Option.map_some]

/-- An operator by itself begins a longest one. -/
theorem exists_longest {d : Char} {k : Kind} (h : v.operator? [d] = some k) (r : Text) :
    ∃ l k', v.Longest (d :: r) l k' := by
  cases r with
  | nil => exact ⟨[d],k,.one h (by simp)⟩
  | cons b r =>
    cases hb : v.operator? [d,b] with
    | some k' => exact ⟨[d,b],k',.two hb⟩
    | none => exact ⟨[d],k,.one h (by simpa using hb)⟩

end Vocabulary

namespace Piece

variable {v : Vocabulary} {d : Char} {r : Text}

/-- Where neither layout nor a number nor a name begins, an operator of one character decides. -/
theorem first_of_operator {l : Text} {k k' : Kind} (hblank : isBlank d = false)
    (hstrokes : ¬(d = '/' ∧ r.head? = some '/')) (hd : d.isAlphanum = false)
    (hone : v.operator? [d] = some k') (hlong : v.operatorAt? (d :: r) = some (l,k)) :
    first v d r = lexeme k l := by
  rw [Char.isAlphanum,Bool.or_eq_false_iff] at hd
  rw [first,hblank,if_neg (by simp),if_neg hstrokes,hd.2,if_neg (by simp),hd.1,if_neg (by simp),
    hone,hlong]

theorem first_of_none (hblank : isBlank d = false) (hstrokes : ¬(d = '/' ∧ r.head? = some '/'))
    (hd : d.isAlphanum = false) (hnone : v.operator? [d] = none) : first v d r = illegal d := by
  rw [Char.isAlphanum,Bool.or_eq_false_iff] at hd
  rw [first,hblank,if_neg (by simp),if_neg hstrokes,hd.2,if_neg (by simp),hd.1,if_neg (by simp),
    hnone]

end Piece

namespace Cursor

variable {c : Cursor} {o : Console} {n : Nat} {d : Char} {r : Text}

/-- Nothing that waits is taken back. -/
theorem exists_warnIllegal_next (c : Cursor) (o : Console) :
    ∃ bad, (c.next o).2.2 = o.warnIllegal c.source bad := by
  rcases hadvance : Piece.advance c.position c.pieces with ⟨bad,t,stop⟩
  cases t with
  | none => exact ⟨bad,by rw [next_of_none hadvance]⟩
  | some t => exact ⟨bad,by rw [next_of_some hadvance]⟩

theorem not_takes_of_skips {l : Text} {k : Kind} (h : c.Skips o n) : ¬ c.Takes o n l k := by
  intro htakes
  obtain ⟨bad,hbad⟩ := exists_warnIllegal_next {c with position := n+1} (o.warnIllegal c.source [n])
  rw [Console.warnIllegal_append,← h,htakes] at hbad
  have hlength := congrArg (fun o => o.warnings.length) hbad
  simp only [Console.warnIllegal,Console.warn,List.length_append,List.length_map] at hlength
  simp at hlength

theorem Faces.takes {k : Kind} {l : Text} (h : c.Faces n d r)
    (hfirst : Piece.first c.vocabulary d r = .lexeme k l) : c.Takes o n l k := by
  have hadvance := h.advance
  rw [Piece.ofText_cons,hfirst,Piece.advance] at hadvance
  rw [Takes,next_of_some hadvance,Console.warnIllegal_nil]

theorem Faces.skips (h : c.Faces n d r) (hfirst : Piece.first c.vocabulary d r = .illegal d) :
    c.Skips o n := by
  have hadvance := h.advance
  have hbehind : {c with position := n+1}.pieces = Piece.ofText c.vocabulary r := by
    have hdrop := congrArg (List.drop 1) h.rest
    rw [Cursor.rest,List.drop_drop] at hdrop
    exact congrArg _ hdrop
  rcases hrest : Piece.advance (n+1) (Piece.ofText c.vocabulary r) with ⟨bad,t,stop⟩
  have hdrop : (d :: r).drop (Piece.illegal d).text.length = r := rfl
  rw [Piece.ofText_cons,hfirst,hdrop,Piece.advance,hrest] at hadvance
  rw [← hbehind] at hrest
  cases t with
  | none => rw [Skips,next_of_none hadvance,next_of_none hrest,Console.warnIllegal_append]; rfl
  | some t => rw [Skips,next_of_some hadvance,next_of_some hrest,Console.warnIllegal_append]; rfl

theorem Faces.takes_longest {l : Text} {k k' : Kind} (h : c.Faces n d r)
    (hd : d.isAlphanum = false) (hone : c.vocabulary.operator? [d] = some k')
    (hlong : c.vocabulary.Longest (d :: r) l k) : c.Takes o n l k :=
  h.takes (Piece.first_of_operator h.blank h.strokes hd hone
    (Vocabulary.operatorAt?_of_longest hlong))

theorem Faces.skips_of_none (h : c.Faces n d r) (hd : d.isAlphanum = false)
    (hnone : c.vocabulary.operator? [d] = none) : c.Skips o n :=
  h.skips (Piece.first_of_none h.blank h.strokes hd hnone)

/-- A name or keyword is the longest run of letters and digits. -/
theorem Faces.takes_word (h : c.Faces n d r) (hd : d.isAlpha) :
    ∃ w rest : Text, d :: r = w ++ rest ∧ w.IsWord ∧ (∀ e ∈ rest.head?, e.isAlphanum = false) ∧
      c.Takes o n w (c.vocabulary.wordKind w) := by
  refine ⟨Piece.wordAt (d :: r),(d :: r).dropWhile Char.isAlphanum,
    List.takeWhile_append_dropWhile.symm,Piece.isWord_wordAt hd r,?_,
    h.takes (Piece.first_of_isAlpha hd r)⟩
  intro e he
  have hhead := List.head?_dropWhile_not Char.isAlphanum (d :: r)
  rw [Option.mem_def.1 he] at hhead
  simpa using hhead

end Cursor

namespace Vocabulary

variable {v : Vocabulary}

theorem Opened.takesLongest (h : v.Opened) : v.TakesLongest := by
  rintro c o n d r rfl hfaces hd
  refine ⟨?_,?_⟩
  · intro l k hlong
    have hone : (c.vocabulary.operator? [d]).isSome := by
      cases hlong with
      | one hone => exact Option.isSome_of_eq_some hone
      | @two d b r k htwo =>
        refine h d b (Option.isSome_of_eq_some htwo) hfaces.blank hd ?_
        rintro ⟨rfl,rfl⟩
        exact hfaces.strokes ⟨rfl,rfl⟩
    obtain ⟨k',hk'⟩ := Option.isSome_iff_exists.1 hone
    exact hfaces.takes_longest hd hk' hlong
  · intro hno
    apply hfaces.skips_of_none hd
    rw [Option.eq_none_iff_forall_ne_some]
    intro k hk
    obtain ⟨l,k',hlong⟩ := exists_longest hk r
    exact hno l k' hlong

/-- An operator that no operator of one character opens is not even taken where it is all there
is. -/
theorem TakesLongest.opened (h : v.TakesLongest) : v.Opened := by
  intro a b htwo hblank ha hstrokes
  obtain ⟨k,hk⟩ := Option.isSome_iff_exists.1 htwo
  let c : Cursor := {source := ⟨[a,b],0⟩,vocabulary := v}
  have hfaces : c.Faces 0 a [b] :=
    ⟨⟨[],.nil,rfl,rfl⟩,hblank,fun hs => hstrokes ⟨hs.1,Option.some.inj hs.2⟩⟩
  have htakes := (h c {} 0 a [b] rfl hfaces ha).1 _ _ (.two hk)
  apply Option.isSome_iff_ne_none.2
  intro hnone
  exact Cursor.not_takes_of_skips (hfaces.skips_of_none ha hnone) htakes

/-- The longest operator is taken everywhere just if those of two characters begin with one of one.
With any operators at all, there is something to face unless the end is reached, the longest
operator is taken where one of one character stands, and every other character that begins neither
a number nor a name is skipped. A name is a keyword just if all of it is. -/
theorem takesLongest_iff_opened (v : Vocabulary) :
    (v.TakesLongest ↔ v.Opened) ∧
      ∀ (c : Cursor) (o : Console), c.vocabulary = v →
        (c.position ≤ c.source.text.length →
          (∃ n d r, c.Faces n d r) ∨ c.next o = (false,c.finished,o)) ∧
        ∀ (n : Nat) (d : Char) (r : Text), c.Faces n d r →
          (d.isAlphanum = false → (v.operator? [d]).isSome →
            ∃ l k, v.Longest (d :: r) l k ∧ c.Takes o n l k) ∧
          (d.isAlphanum = false → v.operator? [d] = none → c.Skips o n) ∧
          (d.isAlpha → ∃ w rest : Text, d :: r = w ++ rest ∧ w.IsWord ∧
            (∀ e ∈ rest.head?, e.isAlphanum = false) ∧
            c.Takes o n w ((v.keywords.lookup w).getD .name)) := by
  refine ⟨⟨TakesLongest.opened,Opened.takesLongest⟩,?_⟩
  rintro c o rfl
  refine ⟨fun hc => c.faces_or_ends hc o,?_⟩
  intro n d r hfaces
  refine ⟨?_,hfaces.skips_of_none,hfaces.takes_word⟩
  intro hd hone
  obtain ⟨k,hk⟩ := Option.isSome_iff_exists.1 hone
  obtain ⟨l,k',hlong⟩ := exists_longest hk r
  exact ⟨l,k',hlong,hfaces.takes_longest hd hk hlong⟩

/-- An exclamation mark is no operator, so it may not open one either. -/
theorem takesLongest_iff_opened_unequal :
    ¬ (standard.extend [(['!','='],.equals)] []).TakesLongest := by
  intro h
  have hopen := (takesLongest_iff_opened _).1.1 h '!' '=' (by decide) (by decide) (by decide)
    (by decide)
  exact absurd hopen (by decide)

end Vocabulary
end AssignLang
