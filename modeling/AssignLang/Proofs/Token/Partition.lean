import AssignLang.Proofs.Token.Lexeme
import Mathlib.Logic.ExistsUnique

namespace AssignLang

namespace Text

/-- A longest text of a class, among those a text begins with, is found from any shorter one that
the next character does not lengthen within the class. -/
theorem eq_of_maximal {P : Text → Prop} {l n r : Text} (hl : l <+: n) (hn : n <+: l ++ r)
    (hclosed : ∀ m, l <+: m → m <+: n → P m) (hmax : ∀ c ∈ r.head?, ¬ P (l ++ [c])) : n = l := by
  obtain ⟨m,rfl⟩ := hl
  obtain ⟨u,hu⟩ := hn
  have hr : m ++ u = r := by
    rw [List.append_assoc] at hu
    exact List.append_cancel_left hu
  cases m with
  | nil => exact List.append_nil l
  | cons c m =>
    have hc : c ∈ r.head? := by
      rw [← hr]
      rfl
    have hfront : l ++ [c] <+: l ++ c :: m := ⟨m,by simp⟩
    have hlonger : P (l ++ [c]) := hclosed _ (List.prefix_append l [c]) hfront
    exact absurd hlonger (hmax c hc)

theorem forall_mem_of_isPrefix {p : Char → Prop} {l n : Text} (h : ∀ c ∈ n, p c) (hl : l <+: n) :
    ∀ c ∈ l, p c := fun c hc => h c (hl.subset hc)

/-- What begins a numeral is a numeral itself. -/
theorem IsNumeral.of_isPrefix {l n : Text} (h : n.IsNumeral) (hl : l <+: n) (hne : l ≠ []) :
    l.IsNumeral := by
  cases h with
  | whole _ hd => exact .whole hne (forall_mem_of_isPrefix hd hl)
  | @decimal ds fs hds hd hf =>
    obtain ⟨u,hu⟩ := hl
    rcases List.append_eq_append_iff.1 hu with ⟨m,rfl,-⟩ | ⟨m,rfl,hm⟩
    · have hfront : l <+: l ++ m := List.prefix_append l m
      exact .whole hne (forall_mem_of_isPrefix hd hfront)
    · cases m with
      | nil => exact .whole hne (by simpa using hd)
      | cons c m =>
        obtain ⟨rfl,hfs⟩ := List.cons.inj hm
        have hfront : m <+: fs := ⟨u,hfs.symm⟩
        exact .decimal hds hd (forall_mem_of_isPrefix hf hfront)

theorem IsWord.of_isPrefix {l n : Text} (h : n.IsWord) (hl : l <+: n) (hne : l ≠ []) :
    l.IsWord := by
  cases h with
  | mk hc hr =>
    obtain ⟨c,m,rfl⟩ := List.exists_cons_of_ne_nil hne
    obtain ⟨rfl,hm⟩ := List.cons_prefix_cons.1 hl
    exact .mk hc (forall_mem_of_isPrefix hr hm)

theorem IsNumeral.ne_nil {t : Text} (h : t.IsNumeral) : t ≠ [] := by
  obtain ⟨c,r,rfl,-⟩ := h.exists_head
  exact List.cons_ne_nil c r

theorem IsWord.ne_nil {t : Text} (h : t.IsWord) : t ≠ [] := by
  obtain ⟨c,r,rfl,-⟩ := h.exists_head
  exact List.cons_ne_nil c r

end Text

/-- An operator is one character. -/
theorem Vocabulary.exists_char {t : Text} {k : Kind} (h : (t,k) ∈ standard.operators) :
    ∃ c, t = [c] := by
  simp only [standard,List.mem_cons,List.not_mem_nil,or_false,Prod.mk.injEq] at h
  rcases h with h | h | h | h | h | h | h | h <;> exact ⟨_,h.1⟩

theorem Vocabulary.eq_stroke {c : Char} (h : ([c],Kind.slash) ∈ standard.operators) : c = '/' := by
  simpa [standard] using h

theorem Kind.eq_slash {k : Kind} (h : (['/'],k) ∈ Vocabulary.standard.operators) : k = .slash := by
  simpa [Vocabulary.standard] using h

/-- Numbers and names apart, a kind is that of an operator. -/
theorem Kind.Spells.cases {k : Kind} {t : Text} (h : k.Spells t) :
    k = .number ∧ t.IsNumeral ∨ k = .name ∧ t.IsWord ∨ (t,k) ∈ Vocabulary.standard.operators := by
  cases k with
  | number => exact .inl ⟨rfl,h⟩
  | name => exact .inr (.inl ⟨rfl,h⟩)
  | _ => exact .inr (.inr h)

theorem Kind.Spells.ne_nil {k : Kind} {t : Text} (h : k.Spells t) : t ≠ [] := by
  rcases h.cases with ⟨-,h⟩ | ⟨-,h⟩ | h
  · exact h.ne_nil
  · exact h.ne_nil
  · obtain ⟨c,rfl⟩ := Vocabulary.exists_char h
    exact List.cons_ne_nil c []

namespace Piece

/-- What makes a piece where `r` follows. A comment ends with the first line feed or with the text.
No lexeme can be lengthened within its kind by the next character, and no stroke is one in front of
another stroke. -/
def Stands : Piece → Text → Prop
  | blank c,_ => isBlank c
  | comment t,r => ∃ body, '\n' ∉ body ∧
      (t = '/' :: '/' :: (body ++ ['\n']) ∨ t = '/' :: '/' :: body ∧ r = [])
  | illegal c,_ => isBlank c = false ∧ c.isAlphanum = false ∧
      ∀ k, ([c],k) ∉ Vocabulary.standard.operators
  | lexeme k t,r => k.Spells t ∧ (∀ c ∈ r.head?, ¬ k.Spells (t ++ [c])) ∧
      (k = .slash → r.head? ≠ some '/')

theorem Stands.text_ne_nil {p : Piece} {r : Text} (h : p.Stands r) : p.text ≠ [] := by
  cases p with
  | blank c => exact List.cons_ne_nil c []
  | comment t =>
    obtain ⟨body,-,rfl | ⟨rfl,-⟩⟩ := h <;> exact List.cons_ne_nil _ _
  | illegal c => exact List.cons_ne_nil c []
  | lexeme k t => exact h.1.ne_nil

theorem isPrefix_numberAt {l : Text} (h : l.IsNumeral) (r : Text) : l <+: numberAt (l ++ r) := by
  cases h with
  | whole hne hd =>
    rw [numberAt,List.takeWhile_append_of_pos hd]
    split
    · rw [List.append_assoc]
      exact List.prefix_append _ _
    · exact List.prefix_append _ _
  | @decimal ds fs hne hd hf =>
    rw [numberAt,List.append_assoc,List.takeWhile_append_of_pos hd,
      List.dropWhile_append_of_pos hd]
    have htake : List.takeWhile Char.isDigit (fs ++ r) = fs ++ r.takeWhile Char.isDigit :=
      List.takeWhile_append_of_pos hf
    simp [htake]

theorem isPrefix_wordAt {l : Text} (h : l.IsWord) (r : Text) : l <+: wordAt (l ++ r) := by
  rw [wordAt,List.takeWhile_append_of_pos h.forall_isAlphanum]
  exact List.prefix_append _ _

/-- A numeral that cannot be lengthened is the number at the front. -/
theorem numberAt_eq {c : Char} {l r : Text} (h : Text.IsNumeral (c :: l))
    (hmax : ∀ d ∈ r.head?, ¬ Text.IsNumeral (c :: l ++ [d])) :
    numberAt (c :: (l ++ r)) = c :: l := by
  have hc : c.isDigit := by
    obtain ⟨d,m,he,hd⟩ := h.exists_head
    rwa [(List.cons.inj he).1]
  have hnumeral := isNumeral_numberAt hc (l ++ r)
  apply Text.eq_of_maximal (P := Text.IsNumeral) (isPrefix_numberAt h r) (numberAt_isPrefix _) _
    hmax
  intro m hm hmn
  apply hnumeral.of_isPrefix hmn
  rintro rfl
  exact List.cons_ne_nil c l (List.prefix_nil.1 hm)

theorem wordAt_eq {c : Char} {l r : Text} (h : Text.IsWord (c :: l))
    (hmax : ∀ d ∈ r.head?, ¬ Text.IsWord (c :: l ++ [d])) : wordAt (c :: (l ++ r)) = c :: l := by
  have hc : c.isAlpha := by
    obtain ⟨d,m,he,hd⟩ := h.exists_head
    rwa [(List.cons.inj he).1]
  have hword := isWord_wordAt hc (l ++ r)
  apply Text.eq_of_maximal (P := Text.IsWord) (isPrefix_wordAt h r) (List.takeWhile_prefix _) _ hmax
  intro m hm hmn
  apply hword.of_isPrefix hmn
  rintro rfl
  exact List.cons_ne_nil c l (List.prefix_nil.1 hm)

/-- No longer text of a kind begins where the number or the name at the front was found. -/
theorem not_spells_of_isPrefix {k : Kind} {n t : Text} {f : Text → Text}
    (hf : ∀ l r, k.Spells l → l <+: f (l ++ r)) (hn : n = f t) (hfront : n <+: t) :
    ∀ c ∈ (t.drop n.length).head?, ¬ k.Spells (n ++ [c]) := by
  intro c hc hspells
  obtain ⟨r,rfl⟩ := hfront
  rw [List.drop_left] at hc
  obtain ⟨d,m,rfl⟩ : ∃ d m, r = d :: m := by
    cases r with
    | nil => cases hc
    | cons d m => exact ⟨d,m,rfl⟩
  obtain rfl : d = c := Option.some.inj hc
  have hlonger := hf (n ++ [d]) m hspells
  rw [List.append_assoc,List.singleton_append,← hn] at hlonger
  have hlength := hlonger.length_le
  rw [List.length_append,List.length_singleton] at hlength
  omega

theorem stands_comment (r : Text) :
    (comment (through '\n' ('/' :: '/' :: r))).Stands
      (('/' :: '/' :: r).drop (through '\n' ('/' :: '/' :: r)).length) := by
  have hbody : '\n' ∉ r.takeWhile (· != '\n') := by
    intro hmem
    have hne := of_mem_takeWhile _ hmem
    simp at hne
  have hthrough : through '\n' ('/' :: '/' :: r) =
      '/' :: '/' :: (r.takeWhile (· != '\n') ++ (r.dropWhile (· != '\n')).take 1) := by
    simp [through]
  have hr := List.takeWhile_append_dropWhile (p := (· != '\n')) (l := r)
  refine ⟨r.takeWhile (· != '\n'),hbody,?_⟩
  cases hd : r.dropWhile (· != '\n') with
  | nil =>
    rw [hd,List.append_nil] at hr
    rw [hd,List.take_nil,List.append_nil] at hthrough
    refine .inr ⟨hthrough,?_⟩
    rw [hthrough,hr]
    simp
  | cons c m =>
    have hc : c = '\n' := by
      have hp := List.head?_dropWhile_not (· != '\n') r
      rw [hd] at hp
      simpa using hp
    rw [hd,hc] at hthrough
    exact .inl hthrough

theorem stands_operator {c : Char} {k : Kind} {r : Text}
    (h : ([c],k) ∈ Vocabulary.standard.operators) (hr : c = '/' → r.head? ≠ some '/') :
    (lexeme k [c]).Stands r := by
  refine ⟨spells_of_operator h,?_,?_⟩
  · intro d _ hspells
    rcases hspells.cases with ⟨rfl,-⟩ | ⟨rfl,-⟩ | hlong
    · simp [Vocabulary.standard] at h
    · simp [Vocabulary.standard] at h
    · obtain ⟨e,he⟩ := Vocabulary.exists_char hlong
      simp at he
  · rintro rfl
    exact hr (Vocabulary.eq_stroke h)

/-- The piece read at the front of a text stands there. -/
theorem stands_first (c : Char) (r : Text) :
    (first .standard c r).Stands ((c :: r).drop (first .standard c r).text.length) := by
  unfold first
  split
  · assumption
  rename_i hblank
  split
  · rename_i hstroke
    obtain ⟨rfl,hr⟩ := hstroke
    obtain ⟨m,rfl⟩ := List.head?_eq_some_iff.1 hr
    exact stands_comment m
  rename_i hstroke
  split
  · rename_i hd
    have hfront := numberAt_isPrefix (c :: r)
    exact ⟨isNumeral_numberAt hd r,
      not_spells_of_isPrefix (k := .number) (fun l r h => isPrefix_numberAt h r) rfl hfront,
      by simp⟩
  rename_i hdigit
  split
  · rename_i ha
    have hfront : wordAt (c :: r) <+: c :: r := List.takeWhile_prefix _
    exact ⟨isWord_wordAt ha r,
      not_spells_of_isPrefix (k := .name) (fun l r h => isPrefix_wordAt h r) rfl hfront,
      by intro hk; cases hk⟩
  rename_i halpha
  rw [operatorAt?_standard]
  cases hop : Vocabulary.standard.operator? [c] with
  | none =>
    refine ⟨by simpa using hblank,by simp [Char.isAlphanum,hdigit,halpha],?_⟩
    intro k hk
    rw [operator?_of_mem hk] at hop
    cases hop
  | some k => exact stands_operator (mem_of_operator? hop) fun hc hr => hstroke ⟨hc,hr⟩

theorem through_append {c : Char} {body : Text} (h : c ∉ body) (r : Text) :
    through c (body ++ r) = body ++ through c r := by
  have hall : ∀ d ∈ body, (d != c) = true := by
    intro d hd
    rw [bne_iff_ne]
    rintro rfl
    exact h hd
  rw [through,through,List.takeWhile_append_of_pos hall,List.dropWhile_append_of_pos hall,
    List.append_assoc]

theorem ofText_comment {v : Vocabulary} {t r : Text} (h : (comment t).Stands r) :
    ofText v (t ++ r) = comment t :: ofText v r := by
  obtain ⟨body,hbody,hend⟩ := h
  have hmem : '\n' ∉ '/' :: '/' :: body := by simpa using hbody
  obtain ⟨m,rfl,hthrough⟩ : ∃ m, t = '/' :: '/' :: m ∧ through '\n' (t ++ r) = t := by
    rcases hend with rfl | ⟨rfl,rfl⟩
    · have hline := through_append hmem ('\n' :: r)
      exact ⟨body ++ ['\n'],rfl,by simpa [through] using hline⟩
    · have hend := through_append hmem []
      exact ⟨body,rfl,by simpa [through] using hend⟩
  refine ofText_append_of_first (l := '/' :: m) ?_ rfl
  have hslash : isBlank '/' = false := rfl
  rw [first,hslash,if_neg (by simp),if_pos ⟨rfl,rfl⟩]
  exact congrArg comment hthrough

theorem ofText_illegal {c : Char} {r : Text} (h : (illegal c).Stands r) :
    ofText .standard (c :: r) = illegal c :: ofText .standard r := by
  obtain ⟨hblank,halnum,hop⟩ := h
  rw [Char.isAlphanum,Bool.or_eq_false_iff] at halnum
  have hslash : c ≠ '/' := by
    rintro rfl
    exact hop .slash (by decide)
  have hnone : Vocabulary.standard.operator? [c] = none := by
    cases hk : Vocabulary.standard.operator? [c] with
    | none => rfl
    | some k => exact absurd (mem_of_operator? hk) (hop k)
  refine ofText_append_of_first (l := []) ?_ rfl
  rw [first,hblank,if_neg (by simp),if_neg (fun hc => hslash hc.1),halnum.2,if_neg (by simp),
    halnum.1,if_neg (by simp),hnone]

theorem ofText_lexeme {k : Kind} {t r : Text} (h : (lexeme k t).Stands r) :
    ofText .standard (t ++ r) = lexeme k t :: ofText .standard r := by
  obtain ⟨hspells,hmax,hstroke⟩ := h
  rcases hspells.cases with ⟨rfl,hn⟩ | ⟨rfl,hw⟩ | hop
  · obtain ⟨c,l,rfl,hc⟩ := Text.IsNumeral.exists_head hn
    refine ofText_append_of_first ?_ rfl
    rw [first_of_isDigit hc,numberAt_eq hn hmax]
  · obtain ⟨c,l,rfl,hc⟩ := Text.IsWord.exists_head hw
    refine ofText_append_of_first ?_ rfl
    rw [first_of_isAlpha hc,wordAt_eq hw hmax]
    rfl
  · obtain ⟨c,rfl⟩ := Vocabulary.exists_char hop
    apply ofText_operator hop
    rintro rfl
    exact hstroke (Kind.eq_slash hop)

/-- Nothing else stands at the front of a text than what is read there. -/
theorem Stands.ofText_eq {p : Piece} {r : Text} (h : p.Stands r) :
    ofText .standard (p.text ++ r) = p :: ofText .standard r := by
  cases p with
  | blank c => exact ofText_blank h r
  | comment t => exact ofText_comment h
  | illegal c => exact ofText_illegal h
  | lexeme k t => exact ofText_lexeme h

end Piece

/-- A piece, and the offset at which it begins. -/
structure Segment where
  start : Nat
  piece : Piece

namespace Segment

def stop (s : Segment) : Nat := s.start+s.piece.text.length

/-- The token of a lexeme. -/
def token? : Segment → Option Token
  | ⟨o,.lexeme k t⟩ => some ⟨t,k,⟨o,(o+t.length : Nat)⟩⟩
  | _ => none

/-- Where an illegal character is. -/
def illegal? : Segment → Option Nat
  | ⟨o,.illegal _⟩ => some o
  | _ => none

/-- A program reads as the segment says, which stands where it does. -/
def LiesIn (s : Segment) (program : Text) : Prop :=
  ∃ r, program.drop s.start = s.piece.text ++ r ∧ s.piece.Stands r

theorem LiesIn.start_lt_stop {s : Segment} {program : Text} (h : s.LiesIn program) :
    s.start < s.stop := by
  obtain ⟨r,-,hs⟩ := h
  have hpos := List.length_pos_iff.2 hs.text_ne_nil
  rw [stop]
  omega

theorem LiesIn.stop_le {s : Segment} {program : Text} (h : s.LiesIn program) :
    s.stop ≤ program.length := by
  have hlt := h.start_lt_stop
  obtain ⟨r,hr,-⟩ := h
  have hlength := congrArg List.length hr
  rw [List.length_drop,List.length_append] at hlength
  rw [stop] at hlt ⊢
  omega

end Segment

/-- A partition of a program: its segments in order, of which just one covers each character. -/
structure Partition (program : Text) (ss : List Segment) : Prop where
  lies : ∀ s ∈ ss, s.LiesIn program
  ordered : ss.Pairwise fun a b => a.stop ≤ b.start
  covered : ∀ i < program.length, ∃! s, s ∈ ss ∧ s.start ≤ i ∧ i < s.stop

namespace Piece

/-- The segments of pieces of which the first begins at offset `o`. -/
def segments : Nat → List Piece → List Segment
  | _, [] => []
  | o, p :: ps => ⟨o,p⟩ :: segments (o+p.text.length) ps

theorem tokens_eq_filterMap (o : Nat) (ps : List Piece) :
    tokens o ps = (segments o ps).filterMap Segment.token? := by
  induction ps generalizing o with
  | nil => rfl
  | cons p ps ih =>
    cases p with
    | lexeme k t => exact congrArg (_ :: ·) (ih _)
    | blank c => exact ih _
    | comment t => exact ih _
    | illegal c => exact ih _

theorem illegals_eq_filterMap (o : Nat) (ps : List Piece) :
    illegals o ps = (segments o ps).filterMap Segment.illegal? := by
  induction ps generalizing o with
  | nil => rfl
  | cons p ps ih =>
    cases p with
    | illegal c => exact congrArg (o :: ·) (ih _)
    | blank c => exact ih _
    | comment t => exact ih _
    | lexeme k t => exact ih _

theorem le_start_of_mem_segments {o : Nat} {ps : List Piece} {s : Segment}
    (h : s ∈ segments o ps) : o ≤ s.start := by
  induction ps generalizing o with
  | nil => cases h
  | cons p ps ih =>
    rcases List.mem_cons.1 h with rfl | h
    · exact Nat.le_refl _
    · have hle := ih h
      omega

theorem segments_ordered (o : Nat) (ps : List Piece) :
    (segments o ps).Pairwise fun a b => a.stop ≤ b.start := by
  induction ps generalizing o with
  | nil => exact .nil
  | cons p ps ih =>
    refine .cons ?_ (ih _)
    intro s hs
    exact le_start_of_mem_segments hs

theorem segments_lie {program t : Text} {o : Nat} (h : program.drop o = t) :
    ∀ s ∈ segments o (ofText .standard t), s.LiesIn program := by
  induction t using ofText_induction .standard generalizing o with
  | nil => simp [segments]
  | cons c r ih =>
    rw [ofText_cons,segments]
    have hfront := first_isPrefix .standard c r
    intro s hs
    rcases List.mem_cons.1 hs with rfl | hs
    · refine ⟨_,?_,stands_first c r⟩
      rw [h]
      exact (List.prefix_iff_eq_append.1 hfront).symm
    · refine ih ?_ s hs
      rw [← h,List.drop_drop]

theorem exists_segment (ps : List Piece) {o i : Nat} (ho : o ≤ i)
    (hi : i < o+(ps.flatMap text).length) : ∃ s ∈ segments o ps, s.start ≤ i ∧ i < s.stop := by
  induction ps generalizing o with
  | nil =>
    simp only [List.flatMap_nil,List.length_nil] at hi
    omega
  | cons p ps ih =>
    rw [List.flatMap_cons,List.length_append] at hi
    by_cases hp : i < o+p.text.length
    · exact ⟨⟨o,p⟩,List.mem_cons_self,ho,hp⟩
    · obtain ⟨s,hs,hc⟩ := ih (o := o+p.text.length) (by omega) (by omega)
      exact ⟨s,List.mem_cons_of_mem _ hs,hc⟩

end Piece

/-- Segments in order do not share a character. -/
theorem Segment.eq_of_covers {ss : List Segment} (h : ss.Pairwise fun a b => a.stop ≤ b.start)
    {a b : Segment} (ha : a ∈ ss) (hb : b ∈ ss) {i : Nat} (hai : a.start ≤ i ∧ i < a.stop)
    (hbi : b.start ≤ i ∧ i < b.stop) : a = b := by
  induction h with
  | nil => cases ha
  | @cons s ss hs h ih =>
    rcases List.mem_cons.1 ha with rfl | ha'
    · rcases List.mem_cons.1 hb with rfl | hb'
      · rfl
      · have hle := hs b hb'
        omega
    · rcases List.mem_cons.1 hb with rfl | hb'
      · have hle := hs a ha'
        omega
      · exact ih ha' hb'

/-- The pieces a program is read as are a partition of it. -/
theorem partition_segments (program : Text) :
    Partition program (Piece.segments 0 (Piece.ofText .standard program)) where
  lies := Piece.segments_lie rfl
  ordered := Piece.segments_ordered 0 _
  covered := by
    intro i hi
    have htext := congrArg List.length (Piece.flatMap_text_ofText .standard program)
    obtain ⟨s,hs,hc⟩ := Piece.exists_segment (Piece.ofText .standard program) (Nat.zero_le i)
      (by omega)
    refine ⟨s,⟨hs,hc⟩,?_⟩
    rintro s' ⟨hs',hc'⟩
    exact Segment.eq_of_covers (Piece.segments_ordered 0 _) hs' hs hc' hc

/-- Segments that begin at `o` and leave out nothing behind it are those that are read there. -/
theorem Segment.eq_segments {program : Text} {ss : List Segment} {o : Nat}
    (hlies : ∀ s ∈ ss, s.LiesIn program) (hordered : ss.Pairwise fun a b => a.stop ≤ b.start)
    (hstart : ∀ s ∈ ss, o ≤ s.start)
    (hcovered : ∀ i < program.length, o ≤ i → ∃ s ∈ ss, s.start ≤ i ∧ i < s.stop) :
    ss = Piece.segments o (Piece.ofText .standard (program.drop o)) := by
  induction ss generalizing o with
  | nil =>
    have hend : program.length ≤ o := by
      apply Nat.not_lt.1
      intro hlt
      obtain ⟨s,hs,-⟩ := hcovered o hlt (Nat.le_refl o)
      cases hs
    rw [List.drop_eq_nil_of_le hend]
    rfl
  | cons a ss ih =>
    obtain ⟨ha,hlies⟩ := List.forall_mem_cons.1 hlies
    obtain ⟨hastart,hstart⟩ := List.forall_mem_cons.1 hstart
    obtain ⟨hfirst,hordered⟩ := List.pairwise_cons.1 hordered
    have halt := ha.start_lt_stop
    have hale := ha.stop_le
    have heq : a.start = o := by
      obtain ⟨s,hs,hle,-⟩ := hcovered o (by omega) (Nat.le_refl o)
      rcases List.mem_cons.1 hs with rfl | hs
      · omega
      · have hbehind := hfirst s hs
        omega
    have hrest := ih (o := a.stop) hlies hordered hfirst (by
      intro i hi hai
      obtain ⟨s,hs,hc⟩ := hcovered i hi (by omega)
      rcases List.mem_cons.1 hs with rfl | hs
      · omega
      · exact ⟨s,hs,hc⟩)
    obtain ⟨r,hr,hstands⟩ := ha
    have hdrop : program.drop a.stop = r := by
      rw [Segment.stop,← List.drop_drop,hr,List.drop_left]
    rw [heq] at hr
    rw [hr,hstands.ofText_eq,Piece.segments,← hdrop,← heq,← Segment.stop,← hrest]

/-- There is no other partition. -/
theorem Partition.eq_segments {program : Text} {ss : List Segment} (h : Partition program ss) :
    ss = Piece.segments 0 (Piece.ofText .standard program) := by
  apply Segment.eq_segments h.lies h.ordered (fun s _ => Nat.zero_le s.start)
  intro i hi _
  obtain ⟨s,⟨hs,hc⟩,-⟩ := h.covered i hi
  exact ⟨s,hs,hc⟩

end AssignLang
