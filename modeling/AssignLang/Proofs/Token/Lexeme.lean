import AssignLang.Token.Stream

namespace AssignLang

/-- Digits, and a point with digits behind it or none. -/
inductive Text.IsNumeral : Text → Prop
  | whole {ds : Text} (hne : ds ≠ []) (hd : ∀ c ∈ ds, c.isDigit) : IsNumeral ds
  | decimal {ds fs : Text} (hne : ds ≠ []) (hd : ∀ c ∈ ds, c.isDigit) (hf : ∀ c ∈ fs, c.isDigit) :
      IsNumeral (ds ++ '.' :: fs)

/-- An ASCII letter, and letters or digits behind it. -/
inductive Text.IsWord : Text → Prop
  | mk {c : Char} {r : Text} (hc : c.isAlpha) (hr : ∀ d ∈ r, d.isAlphanum) : IsWord (c :: r)

theorem Text.IsNumeral.exists_head {t : Text} (h : t.IsNumeral) :
    ∃ c r, t = c :: r ∧ c.isDigit := by
  cases h with
  | whole hne hd =>
    obtain ⟨c,r,rfl⟩ := List.exists_cons_of_ne_nil hne
    exact ⟨c,r,rfl,hd c List.mem_cons_self⟩
  | decimal hne hd =>
    obtain ⟨c,r,rfl⟩ := List.exists_cons_of_ne_nil hne
    exact ⟨c,_,rfl,hd c List.mem_cons_self⟩

theorem Text.IsWord.exists_head {t : Text} (h : t.IsWord) : ∃ c r, t = c :: r ∧ c.isAlpha := by
  cases h with
  | mk hc hr => exact ⟨_,_,rfl,hc⟩

theorem Text.IsWord.forall_isAlphanum {t : Text} (h : t.IsWord) : ∀ c ∈ t, c.isAlphanum := by
  cases h with
  | mk hc hr => exact List.forall_mem_cons.2 ⟨by rw [Char.isAlphanum,hc,Bool.true_or],hr⟩

/-- Which texts tokens of a kind have. -/
def Kind.Spells : Kind → Text → Prop
  | .number,t => t.IsNumeral
  | .name,t => t.IsWord
  | k,t => (t,k) ∈ Vocabulary.standard.operators

def Token.IsLexeme (t : Token) : Prop := t.kind.Spells t.text

namespace Piece

theorem isBlank_eq_false_of_isAlphanum {c : Char} (h : c.isAlphanum) : isBlank c = false := by
  rw [isBlank,decide_eq_false_iff_not]
  intro hc
  simp only [List.mem_cons,List.not_mem_nil,or_false] at hc
  rcases hc with rfl | rfl | rfl | rfl <;> exact absurd h (by decide)

theorem isAlphanum_of_isDigit {c : Char} (h : c.isDigit) : c.isAlphanum := by
  rw [Char.isAlphanum,h,Bool.or_true]

theorem isAlphanum_of_isAlpha {c : Char} (h : c.isAlpha) : c.isAlphanum := by
  rw [Char.isAlphanum,h,Bool.true_or]

/-- The codes of the letters, as those of the digits are given by `Char.isDigit_iff_toNat`. -/
theorem isAlpha_iff_toNat {c : Char} : c.isAlpha ↔
    ('A'.toNat ≤ c.toNat ∧ c.toNat ≤ 'Z'.toNat) ∨ ('a'.toNat ≤ c.toNat ∧ c.toNat ≤ 'z'.toNat) := by
  have hclass : c.isAlpha = (decide ('A'.val ≤ c.val ∧ c.val ≤ 'Z'.val) ||
      decide ('a'.val ≤ c.val) && decide (c.val ≤ 'z'.val)) := rfl
  simp only [hclass,Bool.or_eq_true,Bool.and_eq_true,decide_eq_true_eq,UInt32.le_iff_toNat_le,
    Char.toNat]

theorem isDigit_eq_false_of_isAlpha {c : Char} (h : c.isAlpha) : c.isDigit = false := by
  have hA : '9'.toNat < 'A'.toNat := by decide
  have ha : '9'.toNat < 'a'.toNat := by decide
  rw [← Bool.not_eq_true,Char.isDigit_iff_toNat]
  have hletter := isAlpha_iff_toNat.1 h
  omega

/-- What no number and no name can be lengthened by. -/
def Apart (r : Text) : Prop := ∀ c ∈ r.head?, c.isAlphanum = false ∧ c ≠ '.'

theorem apart_cons {c : Char} (r : Text) (h : c.isAlphanum = false ∧ c ≠ '.') : Apart (c :: r) := by
  simpa [Apart] using h

theorem Apart.takeWhile {p : Char → Bool} {r : Text} (hr : Apart r)
    (hp : ∀ c, p c → c.isAlphanum) : r.takeWhile p = [] ∧ r.dropWhile p = r := by
  cases r with
  | nil => exact ⟨rfl,rfl⟩
  | cons c r =>
    have hc := (hr c rfl).1
    have hn : ¬ p c := fun h => by simp [hp c h] at hc
    simp [hn]

theorem numberAt_append {l r : Text} (h : l.IsNumeral) (hr : Apart r) : numberAt (l ++ r) = l := by
  have hd := hr.takeWhile (fun c => isAlphanum_of_isDigit)
  cases h with
  | whole hne hds =>
    rw [numberAt,List.takeWhile_append_of_pos hds,List.dropWhile_append_of_pos hds,hd.1,hd.2,
      List.append_nil]
    cases r with
    | nil => rfl
    | cons c r =>
      have hc : c ≠ '.' := (hr c rfl).2
      split
      · rename_i he
        exact absurd (List.cons.inj he).1 hc
      · rfl
  | decimal hne hds hfs =>
    rw [numberAt,List.append_assoc,List.takeWhile_append_of_pos hds,
      List.dropWhile_append_of_pos hds]
    simp [List.takeWhile_append_of_pos hfs,hd.1]

theorem wordAt_append {l r : Text} (h : l.IsWord) (hr : Apart r) : wordAt (l ++ r) = l := by
  rw [wordAt,List.takeWhile_append_of_pos h.forall_isAlphanum,(hr.takeWhile (fun _ h => h)).1,
    List.append_nil]

theorem of_mem_takeWhile {p : Char → Bool} {t : Text} : ∀ c ∈ t.takeWhile p, p c :=
  List.all_eq_true.1 List.all_takeWhile

theorem isNumeral_numberAt {c : Char} (h : c.isDigit) (r : Text) :
    (numberAt (c :: r)).IsNumeral := by
  have hne : (c :: r).takeWhile Char.isDigit ≠ [] := by simp [h]
  unfold numberAt
  split
  · exact .decimal hne of_mem_takeWhile of_mem_takeWhile
  · exact .whole hne of_mem_takeWhile

theorem isWord_wordAt {c : Char} (h : c.isAlpha) (r : Text) : (wordAt (c :: r)).IsWord := by
  rw [wordAt,List.takeWhile_cons_of_pos (isAlphanum_of_isAlpha h)]
  exact .mk h of_mem_takeWhile

theorem operatorAt?_standard (c : Char) (r : Text) :
    Vocabulary.standard.operatorAt? (c :: r) =
      (Vocabulary.standard.operator? [c]).map ([c],·) := by
  cases r with
  | nil => rfl
  | cons d r =>
    have h : Vocabulary.standard.operator? [c,d] = none := by
      simp [Vocabulary.operator?,Vocabulary.standard,List.lookup_cons]
    rw [Vocabulary.operatorAt?,h]

/-- No operator of the standard vocabulary is a digit or a letter, or blank. -/
theorem not_operator {c : Char} {k : Kind} (h : ([c],k) ∈ Vocabulary.standard.operators) :
    c.isAlphanum = false ∧ isBlank c = false ∧ c ≠ '.' := by
  simp only [Vocabulary.standard,List.mem_cons,List.not_mem_nil,or_false,Prod.mk.injEq,
    List.cons.injEq,and_true] at h
  rcases h with h | h | h | h | h | h | h | h <;> rw [h.1] <;> decide

theorem operator?_of_mem {t : Text} {k : Kind} (h : (t,k) ∈ Vocabulary.standard.operators) :
    Vocabulary.standard.operator? t = some k := by
  simp only [Vocabulary.standard,List.mem_cons,List.not_mem_nil,or_false,Prod.mk.injEq] at h
  rcases h with ⟨rfl,rfl⟩ | ⟨rfl,rfl⟩ | ⟨rfl,rfl⟩ | ⟨rfl,rfl⟩ | ⟨rfl,rfl⟩ | ⟨rfl,rfl⟩ | ⟨rfl,rfl⟩ |
    ⟨rfl,rfl⟩ <;> rfl

theorem mem_of_operator? {v : Vocabulary} {t : Text} {k : Kind} (h : v.operator? t = some k) :
    (t,k) ∈ v.operators := by
  rw [Vocabulary.operator?,List.lookup_eq_some_iff] at h
  obtain ⟨before,behind,he,-⟩ := h
  simp [he]

theorem spells_of_operator {t : Text} {k : Kind} (h : (t,k) ∈ Vocabulary.standard.operators) :
    k.Spells t := by
  have hk := h
  simp only [Vocabulary.standard,List.mem_cons,List.not_mem_nil,or_false,Prod.mk.injEq] at hk
  rcases hk with ⟨-,rfl⟩ | ⟨-,rfl⟩ | ⟨-,rfl⟩ | ⟨-,rfl⟩ | ⟨-,rfl⟩ | ⟨-,rfl⟩ | ⟨-,rfl⟩ | ⟨-,rfl⟩ <;>
    exact h

/-- Whatever is taken for a token has a text of its kind. -/
theorem spells_of_first {c : Char} {r t : Text} {k : Kind}
    (h : first .standard c r = lexeme k t) : k.Spells t := by
  unfold first at h
  split at h
  · cases h
  · split at h
    · cases h
    · split at h
      · rename_i hd
        obtain ⟨rfl,rfl⟩ := lexeme.inj h
        exact isNumeral_numberAt hd r
      · split at h
        · rename_i ha
          obtain ⟨rfl,rfl⟩ := lexeme.inj h
          exact isWord_wordAt ha r
        · split at h
          · rename_i he
            obtain ⟨rfl,rfl⟩ := lexeme.inj h
            rw [operatorAt?_standard,Option.map_eq_some_iff] at he
            obtain ⟨k,hk,he⟩ := he
            obtain ⟨rfl,rfl⟩ := Prod.mk.inj he
            exact spells_of_operator (mem_of_operator? hk)
          · cases h

/-- What one piece after the other has, all texts have. -/
theorem ofText_induction {P : Text → Prop} (v : Vocabulary) (nil : P [])
    (cons : ∀ c r, P ((c :: r).drop (first v c r).text.length) → P (c :: r)) (t : Text) : P t := by
  induction hn : t.length using Nat.strongRecOn generalizing t with
  | ind n ih =>
    subst hn
    cases t with
    | nil => exact nil
    | cons c r => exact cons c r (ih _ (length_drop_first_lt v c r) _ rfl)

theorem exists_first_of_mem {v : Vocabulary} {p : Piece} {t : Text} (h : p ∈ ofText v t) :
    ∃ c r, p = first v c r := by
  induction t using ofText_induction v with
  | nil => cases h
  | cons c r ih =>
    rw [ofText_cons] at h
    rcases List.mem_cons.1 h with h | h
    · exact ⟨c,r,h⟩
    · exact ih h

/-- The piece that a token stands for. -/
def ofToken (t : Token) : Piece := lexeme t.kind t.text

theorem ofToken_mem {o : Nat} {ps : List Piece} {t : Token} (h : t ∈ tokens o ps) :
    ofToken t ∈ ps := by
  induction ps generalizing o with
  | nil => cases h
  | cons p ps ih =>
    cases p with
    | lexeme k text =>
      rcases List.mem_cons.1 h with rfl | h
      · exact List.mem_cons_self
      · exact List.mem_cons_of_mem _ (ih h)
    | _ => exact List.mem_cons_of_mem _ (ih h)

/-- The tokens of a program have texts of their kinds. -/
theorem isLexeme_of_mem_tokens {o : Nat} {program : Text} {t : Token}
    (h : t ∈ tokens o (ofText .standard program)) : t.IsLexeme := by
  obtain ⟨c,r,he⟩ := exists_first_of_mem (ofToken_mem h)
  exact spells_of_first he.symm

theorem ofText_append_of_first {v : Vocabulary} {c : Char} {l r : Text} {p : Piece}
    (hp : first v c (l ++ r) = p) (ht : p.text = c :: l) :
    ofText v (c :: l ++ r) = p :: ofText v r := by
  rw [List.cons_append,ofText_cons,hp,ht]
  have h : ((c :: l) ++ r).drop (c :: l).length = r := List.drop_left
  exact congrArg (p :: ofText v ·) h

theorem ofText_blank {v : Vocabulary} {c : Char} (h : isBlank c) (r : Text) :
    ofText v (c :: r) = blank c :: ofText v r :=
  ofText_append_of_first (l := []) (by rw [first,if_pos h]) rfl

theorem ne_stroke_of_isAlphanum {c : Char} (h : c.isAlphanum) : c ≠ '/' := by
  rintro rfl
  exact absurd h (by decide)

theorem first_of_isDigit {v : Vocabulary} {c : Char} (h : c.isDigit) (r : Text) :
    first v c r = lexeme .number (numberAt (c :: r)) := by
  have halnum := isAlphanum_of_isDigit h
  have hs := ne_stroke_of_isAlphanum halnum
  rw [first,isBlank_eq_false_of_isAlphanum halnum,if_neg (by simp),if_neg (fun h => hs h.1),
    if_pos h]

theorem first_of_isAlpha {v : Vocabulary} {c : Char} (h : c.isAlpha) (r : Text) :
    first v c r = lexeme (v.wordKind (wordAt (c :: r))) (wordAt (c :: r)) := by
  have halnum := isAlphanum_of_isAlpha h
  have hs := ne_stroke_of_isAlphanum halnum
  rw [first,isBlank_eq_false_of_isAlphanum halnum,if_neg (by simp),if_neg (fun h => hs h.1),
    isDigit_eq_false_of_isAlpha h,if_neg (by simp),if_pos h]

theorem ofText_number {v : Vocabulary} {l r : Text} (h : l.IsNumeral) (hr : Apart r) :
    ofText v (l ++ r) = lexeme .number l :: ofText v r := by
  obtain ⟨c,m,rfl,hc⟩ := h.exists_head
  refine ofText_append_of_first ?_ rfl
  rw [first_of_isDigit hc,← List.cons_append,numberAt_append h hr]

theorem ofText_name {l r : Text} (h : l.IsWord) (hr : Apart r) :
    ofText .standard (l ++ r) = lexeme .name l :: ofText .standard r := by
  obtain ⟨c,m,rfl,hc⟩ := h.exists_head
  refine ofText_append_of_first ?_ rfl
  rw [first_of_isAlpha hc,← List.cons_append,wordAt_append h hr]
  rfl

/-- An operator is read as such, unless two strokes open a comment. -/
theorem ofText_operator {c : Char} {k : Kind} {r : Text}
    (h : ([c],k) ∈ Vocabulary.standard.operators) (hr : c = '/' → r.head? ≠ some '/') :
    ofText .standard (c :: r) = lexeme k [c] :: ofText .standard r := by
  obtain ⟨ha,hb,-⟩ := not_operator h
  rw [Char.isAlphanum,Bool.or_eq_false_iff] at ha
  refine ofText_append_of_first (l := []) ?_ rfl
  rw [List.nil_append,first,hb,if_neg (by simp),if_neg (fun hc => hr hc.1 hc.2),ha.2,
    if_neg (by simp),ha.1,if_neg (by simp),operatorAt?_standard,operator?_of_mem h]
  rfl

def isLayout : Piece → Bool
  | blank _ | comment _ => true
  | _ => false

/-- What is left of pieces without the layout. -/
def content (ps : List Piece) : List Piece := ps.filter (fun p => !p.isLayout)

theorem map_ofToken_tokens {o : Nat} {ps : List Piece} {ts : List Token}
    (h : content ps = ts.map ofToken) : (tokens o ps).map ofToken = ts.map ofToken := by
  induction ps generalizing o ts with
  | nil => exact h
  | cons p ps ih =>
    cases p with
    | blank c => exact ih h
    | comment t => exact ih h
    | illegal c =>
      obtain ⟨t,ts,rfl,he,-⟩ := List.map_eq_cons_iff.1 h.symm
      cases he
    | lexeme k text =>
      obtain ⟨t,ts,rfl,he,hs⟩ := List.map_eq_cons_iff.1 h.symm
      rw [tokens,List.map_cons,ih hs.symm,List.map_cons,he]
      rfl

theorem illegals_eq_nil {o : Nat} {ps : List Piece} {ts : List Token}
    (h : content ps = ts.map ofToken) : illegals o ps = [] := by
  induction ps generalizing o ts with
  | nil => rfl
  | cons p ps ih =>
    cases p with
    | blank c => exact ih h
    | comment t => exact ih h
    | illegal c =>
      obtain ⟨t,ts,rfl,he,-⟩ := List.map_eq_cons_iff.1 h.symm
      cases he
    | lexeme k text =>
      obtain ⟨t,ts,rfl,-,hs⟩ := List.map_eq_cons_iff.1 h.symm
      exact ih hs.symm

end Piece
end AssignLang
