import AssignLang.Proofs.Token.Slice
import AssignLang.Proofs.Tree.Order

namespace AssignLang

namespace Text

/-- A text in which parentheses open in front of some offsets and close in front of others. `o` is
the offset of its first character. -/
def bracket (opens closes : List Int) : Nat → Text → Text
  | _, [] => []
  | o, c :: r => List.replicate (opens.count (o : Int)) '(' ++ c ::
      (List.replicate (closes.count ((o+1 : Nat) : Int)) ')' ++ bracket opens closes (o+1) r)

/-- A text with parentheses around each of the places. -/
def bracketed (places : List Span) (t : Text) : Text :=
  bracket (places.map Span.start) (places.map Span.stop) 0 t

section
variable {opens closes : List Int} {o : Nat} {t : Text}

theorem bracket_append (o : Nat) (t u : Text) : bracket opens closes o (t ++ u) =
    bracket opens closes o t ++ bracket opens closes (o+t.length) u := by
  induction t generalizing o with
  | nil => rfl
  | cons c t ih =>
    have hlength : o+(c :: t).length = o+1+t.length := by
      rw [List.length_cons]
      omega
    rw [List.cons_append,bracket,bracket,ih,hlength]
    simp only [List.append_assoc,List.cons_append]

/-- No parenthesis stands between the characters of a text if none opens or closes there. -/
theorem bracket_of_inside (hne : t ≠ []) (hopens : ∀ i : Nat, o < i → i < o+t.length →
    (i : Int) ∉ opens) (hcloses : ∀ i : Nat, o < i → i < o+t.length → (i : Int) ∉ closes) :
    bracket opens closes o t = List.replicate (opens.count (o : Int)) '(' ++
      (t ++ List.replicate (closes.count ((o+t.length : Nat) : Int)) ')') := by
  induction t generalizing o with
  | nil => exact absurd rfl hne
  | cons c t ih =>
    cases t with
    | nil => simp [bracket]
    | cons d t =>
      have hlength : o+1+(d :: t).length = o+(c :: d :: t).length := by
        simp only [List.length_cons]
        omega
      have hbehind := ih (o := o+1) (List.cons_ne_nil d t)
        (fun i hi hlt => hopens i (by omega) (by omega))
        (fun i hi hlt => hcloses i (by omega) (by omega))
      have hopen : opens.count ((o+1 : Nat) : Int) = 0 := by
        apply List.count_eq_zero.2
        apply hopens (o+1) (by omega)
        simp only [List.length_cons]
        omega
      have hclose : closes.count ((o+1 : Nat) : Int) = 0 := by
        apply List.count_eq_zero.2
        apply hcloses (o+1) (by omega)
        simp only [List.length_cons]
        omega
      rw [bracket,hbehind,hopen,hclose,hlength]
      rfl

theorem bracket_of_plain (hopens : ∀ i : Nat, o ≤ i → i < o+t.length → (i : Int) ∉ opens)
    (hcloses : ∀ i : Nat, o < i → i ≤ o+t.length → (i : Int) ∉ closes) :
    bracket opens closes o t = t := by
  cases t with
  | nil => rfl
  | cons c t =>
    have hopen : opens.count (o : Int) = 0 :=
      List.count_eq_zero.2 (hopens o (Nat.le_refl o) (by simp))
    have hclose : closes.count ((o+(c :: t).length : Nat) : Int) = 0 :=
      List.count_eq_zero.2 (hcloses (o+(c :: t).length) (by simp) (Nat.le_refl _))
    rw [bracket_of_inside (List.cons_ne_nil c t)
      (fun i hi hlt => hopens i (Nat.le_of_lt hi) hlt)
      (fun i hi hlt => hcloses i hi (Nat.le_of_lt hlt)),hopen,hclose]
    exact List.append_nil _

end

/-- Where parentheses open in front of each of some equal characters, and none closes. -/
theorem bracket_replicate {opens closes : List Int} {o n : Nat} (c : Char) (t : Text)
    (hopens : ∀ i : Nat, o ≤ i → i < o+n → opens.count (i : Int) = 1)
    (hcloses : ∀ i : Nat, o < i → i ≤ o+n → (i : Int) ∉ closes) :
    bracket opens closes o (List.replicate n c ++ t) =
      (List.replicate n ['(',c]).flatten ++ bracket opens closes (o+n) t := by
  induction n generalizing o with
  | zero => rfl
  | succ n ih =>
    have hopen := hopens o (Nat.le_refl o) (by omega)
    have hclose : closes.count ((o+1 : Nat) : Int) = 0 :=
      List.count_eq_zero.2 (hcloses (o+1) (by omega) (by omega))
    have hbehind := ih (o := o+1) (fun i hi hlt => hopens i (by omega) (by omega))
      (fun i hi hle => hcloses i (by omega) (by omega))
    have hsum : o+1+n = o+(n+1) := by omega
    rw [List.replicate_succ,List.cons_append,bracket,hbehind,hopen,hclose,hsum]
    rfl

/-- Around a single place the parentheses are put into the text in front of it and behind it. -/
theorem bracketed_singleton {i j : Nat} {t : Text} (hij : i < j) (hj : j ≤ t.length) :
    bracketed [⟨i,j⟩] t = t.take i ++ '(' :: ((t.take j).drop i ++ ')' :: t.drop j) := by
  have hsplit : t = t.take i ++ ((t.take j).drop i ++ t.drop j) := by
    have hfront : t.take i = (t.take j).take i := by
      rw [List.take_take,Nat.min_eq_left (Nat.le_of_lt hij)]
    rw [← List.append_assoc,hfront,List.take_append_drop,List.take_append_drop]
  have hfront : (t.take i).length = i := by
    rw [List.length_take]
    omega
  have hmiddle : ((t.take j).drop i).length = j-i := by
    rw [List.length_drop,List.length_take]
    omega
  have hne : (t.take j).drop i ≠ [] := by
    intro hnil
    rw [hnil,List.length_nil] at hmiddle
    omega
  have hend : i+(j-i) = j := by omega
  have hnot (k n : Nat) (h : k ≠ n) : (k : Int) ∉ [(n : Int)] := by
    rw [List.mem_singleton]
    omega
  have hopen : bracket [(i : Int)] [(j : Int)] 0 (t.take i) = t.take i := by
    apply bracket_of_plain
    · intro k _ hk
      exact hnot k i (by omega)
    · intro k _ hk
      exact hnot k j (by omega)
  have hinside : bracket [(i : Int)] [(j : Int)] i ((t.take j).drop i) =
      '(' :: ((t.take j).drop i ++ [')']) := by
    rw [bracket_of_inside hne,hmiddle,hend]
    · simp
    · intro k hk _
      exact hnot k i (by omega)
    · intro k _ hk
      exact hnot k j (by omega)
  have hclose : bracket [(i : Int)] [(j : Int)] j (t.drop j) = t.drop j := by
    apply bracket_of_plain
    · intro k hk _
      exact hnot k i (by omega)
    · intro k hk _
      exact hnot k j (by omega)
  calc bracketed [⟨i,j⟩] t
      = bracket [(i : Int)] [(j : Int)] 0 (t.take i ++ ((t.take j).drop i ++ t.drop j)) := by
        rw [← hsplit]
        rfl
    _ = t.take i ++ ('(' :: ((t.take j).drop i ++ [')']) ++ t.drop j) := by
        rw [bracket_append,bracket_append,hfront,hmiddle,Nat.zero_add,hend,hopen,hinside,hclose]
    _ = t.take i ++ '(' :: ((t.take j).drop i ++ ')' :: t.drop j) := by simp

end Text

namespace Piece

/-- Parentheses as pieces. -/
def opening : Piece := lexeme .lparen ['(']

def closing : Piece := lexeme .rparen [')']

/-- Pieces in which parentheses open and close at some offsets where lexemes start and stop. -/
def bracket (opens closes : List Int) : Nat → List Piece → List Piece
  | _, [] => []
  | o, lexeme k t :: ps => List.replicate (opens.count (o : Int)) opening ++ lexeme k t ::
      (List.replicate (closes.count ((o+t.length : Nat) : Int)) closing ++
        bracket opens closes (o+t.length) ps)
  | o, p :: ps => p :: bracket opens closes (o+p.text.length) ps

theorem stands_opening (r : Text) : opening.Stands r :=
  stands_operator (by decide) (by simp)

theorem stands_closing (r : Text) : closing.Stands r :=
  stands_operator (by decide) (by simp)

theorem Stands.isLexeme {k : Kind} {t r : Text} (h : (lexeme k t).Stands r) :
    (⟨t,k,.unknown⟩ : Token).IsLexeme := h.1

/-- Whatever stands in front of some text also stands in front of a parenthesis that opens. -/
theorem Stands.before_opening {p : Piece} {r : Text} (h : p.Stands r) (hr : r ≠ []) (r' : Text) :
    p.Stands ('(' :: r') := by
  cases p with
  | blank c => exact h
  | illegal c => exact h
  | lexeme k t =>
    exact stands_of_isLexeme h.isLexeme (apart_cons r' (by decide)) (by simp)
  | comment t =>
    obtain ⟨body,hbody,ht | ⟨-,hnil⟩⟩ := h
    · exact ⟨body,hbody,.inl ht⟩
    · exact absurd hnil hr

theorem AllStand.cons {p : Piece} {ps : List Piece} {r : Text}
    (hp : p.Stands (ps.flatMap text ++ r)) (h : AllStand ps r) : AllStand (p :: ps) r := by
  intro before q after hsplit
  cases before with
  | nil =>
    obtain ⟨rfl,rfl⟩ := List.cons.inj hsplit
    exact hp
  | cons b before =>
    obtain ⟨-,rfl⟩ := List.cons.inj hsplit
    exact h before q after rfl

theorem AllStand.replicate {p : Piece} {ps : List Piece} {r : Text} (hp : ∀ r, p.Stands r)
    (h : AllStand ps r) (n : Nat) : AllStand (List.replicate n p ++ ps) r := by
  induction n with
  | zero => exact h
  | succ n ih => exact ih.cons (hp _)

section
variable {opens closes : List Int}

/-- A text with parentheses begins as it did without them, or with one that opens. -/
theorem head_bracket {ps : List Piece} {r : Text} (h : AllStand ps r) (o : Nat) :
    ((bracket opens closes o ps).flatMap text ++ r).head? = (ps.flatMap text ++ r).head? ∨
      ps.flatMap text ++ r ≠ [] ∧
        ∃ r', (bracket opens closes o ps).flatMap text ++ r = '(' :: r' := by
  cases ps with
  | nil => exact .inl rfl
  | cons p ps =>
    have hp : p.Stands (ps.flatMap text ++ r) := h [] p ps rfl
    obtain ⟨c,t,ht⟩ := List.exists_cons_of_ne_nil hp.text_ne_nil
    cases p with
    | lexeme k u =>
      have hu : u = c :: t := ht
      cases hn : opens.count (o : Int) with
      | zero => simp [bracket,hn,text,hu]
      | succ n => simp [bracket,hn,List.replicate_succ,opening,text,hu]
    | blank | comment | illegal => simp [bracket,ht]

theorem Stands.before_bracket {p : Piece} {ps : List Piece} {r : Text}
    (hp : p.Stands (ps.flatMap text ++ r)) (h : AllStand ps r) (o : Nat) :
    p.Stands ((bracket opens closes o ps).flatMap text ++ r) := by
  rcases head_bracket h o with hhead | ⟨hne,r',hr'⟩
  · exact hp.congr hhead
  · rw [hr']
    exact hp.before_opening hne r'

/-- Parentheses around lexemes leave all pieces where they stand. -/
theorem AllStand.bracket {ps : List Piece} {r : Text} (h : AllStand ps r) (o : Nat) :
    AllStand (Piece.bracket opens closes o ps) r := by
  induction ps generalizing o with
  | nil => exact h
  | cons p ps ih =>
    have hp : p.Stands (ps.flatMap text ++ r) := h [] p ps rfl
    cases p with
    | lexeme k t =>
      have hrest := (ih h.tail (o+t.length)).replicate stands_closing
        (closes.count ((o+t.length : Nat) : Int))
      refine (AllStand.cons ?_ hrest).replicate stands_opening _
      cases closes.count ((o+t.length : Nat) : Int) with
      | zero => exact hp.before_bracket h.tail _
      | succ n =>
        rw [List.replicate_succ]
        exact stands_of_isLexeme hp.isLexeme (apart_cons _ (by decide)) (by simp [closing,text])
    | blank | comment | illegal =>
      exact (ih h.tail _).cons (hp.before_bracket h.tail _)

theorem bounds_of_mem_tokens {o : Nat} {ps : List Piece} {r : Text} (h : AllStand ps r) {t : Token}
    (ht : t ∈ tokens o ps) : (o : Int) ≤ t.span.start ∧ t.span.start < t.span.stop := by
  induction ps generalizing o with
  | nil => cases ht
  | cons p ps ih =>
    have hbehind (ht : t ∈ tokens (o+p.text.length) ps) :
        (o : Int) ≤ t.span.start ∧ t.span.start < t.span.stop := by
      have hbounds := ih h.tail ht
      omega
    cases p with
    | lexeme k u =>
      rcases List.mem_cons.1 ht with rfl | ht
      · have hstands : (lexeme k u).Stands (ps.flatMap text ++ r) := h [] _ ps rfl
        have hpos : 0 < u.length := List.length_pos_iff.2 hstands.text_ne_nil
        simp only
        omega
      · exact hbehind ht
    | blank | comment | illegal => exact hbehind ht

/-- From offset `o` on, parentheses open only where tokens start, and close where they stop. -/
structure Borders (opens closes : List Int) (o : Nat) (ts : List Token) : Prop where
  opens : ∀ i ∈ opens, o ≤ i → ∃ t ∈ ts, t.span.start = i
  closes : ∀ i ∈ closes, o < i → ∃ t ∈ ts, t.span.stop = i

/-- In front of all tokens no parenthesis opens or closes. -/
theorem Borders.bracket_eq {o : Nat} {ts : List Token} {t : Text}
    (hb : Borders opens closes o ts)
    (hts : ∀ a ∈ ts, ((o+t.length : Nat) : Int) ≤ a.span.start ∧ a.span.start < a.span.stop) :
    Text.bracket opens closes o t = t := by
  apply Text.bracket_of_plain
  · intro i hi hlt hmem
    obtain ⟨a,ha,hstart⟩ := hb.opens i hmem (by omega)
    have hbounds := hts a ha
    omega
  · intro i hi hle hmem
    obtain ⟨a,ha,hstop⟩ := hb.closes i hmem (by omega)
    have hbounds := hts a ha
    omega

/-- Around a token that comes first parentheses open in front of it and close behind it. -/
theorem Borders.bracket_token {k : Kind} {o : Nat} {ts : List Token} {t : Text} (hne : t ≠ [])
    (hb : Borders opens closes o (⟨t,k,⟨o,(o+t.length : Nat)⟩⟩ :: ts))
    (hts : ∀ a ∈ ts, ((o+t.length : Nat) : Int) ≤ a.span.start ∧ a.span.start < a.span.stop) :
    Text.bracket opens closes o t = List.replicate (opens.count (o : Int)) '(' ++
      (t ++ List.replicate (closes.count ((o+t.length : Nat) : Int)) ')') := by
  apply Text.bracket_of_inside hne
  · intro i hi hlt hmem
    obtain ⟨a,ha,hstart⟩ := hb.opens i hmem (by omega)
    rcases List.mem_cons.1 ha with rfl | ha
    · simp only at hstart
      omega
    · have hbounds := hts a ha
      omega
  · intro i hi hlt hmem
    obtain ⟨a,ha,hstop⟩ := hb.closes i hmem (by omega)
    rcases List.mem_cons.1 ha with rfl | ha
    · simp only at hstop
      omega
    · have hbounds := hts a ha
      omega

theorem Borders.tail {k : Kind} {o : Nat} {ts : List Token} {t : Text} (hne : t ≠ [])
    (hb : Borders opens closes o (⟨t,k,⟨o,(o+t.length : Nat)⟩⟩ :: ts)) :
    Borders opens closes (o+t.length) ts := by
  have hpos : 0 < t.length := List.length_pos_iff.2 hne
  constructor
  · intro i hi hle
    obtain ⟨a,ha,hstart⟩ := hb.opens i hi (by omega)
    rcases List.mem_cons.1 ha with rfl | ha
    · simp only at hstart
      omega
    · exact ⟨a,ha,hstart⟩
  · intro i hi hlt
    obtain ⟨a,ha,hstop⟩ := hb.closes i hi (by omega)
    rcases List.mem_cons.1 ha with rfl | ha
    · simp only at hstop
      omega
    · exact ⟨a,ha,hstop⟩

theorem Borders.later {o : Nat} {ts : List Token} (hb : Borders opens closes o ts) (n : Nat) :
    Borders opens closes (o+n) ts := by
  constructor
  · intro i hi hle
    exact hb.opens i hi (by omega)
  · intro i hi hlt
    exact hb.closes i hi (by omega)

/-- Parentheses around places that begin and end with lexemes are put between the pieces. -/
theorem flatMap_text_bracket {ps : List Piece} {r : Text} (h : AllStand ps r) {o : Nat}
    (hb : Borders opens closes o (tokens o ps)) :
    (bracket opens closes o ps).flatMap text = Text.bracket opens closes o (ps.flatMap text) := by
  induction ps generalizing o with
  | nil => rfl
  | cons p ps ih =>
    have hp : p.Stands (ps.flatMap text ++ r) := h [] p ps rfl
    have hbehind (t : Token) := bounds_of_mem_tokens (t := t) (o := o+p.text.length) h.tail
    rw [List.flatMap_cons,Text.bracket_append]
    cases p with
    | lexeme k t =>
      have hne : t ≠ [] := hp.text_ne_nil
      have htoken := Borders.bracket_token hne hb hbehind
      rw [bracket,text,htoken]
      simp [opening,closing,text,List.flatMap_replicate,ih h.tail (Borders.tail hne hb)]
    | blank c | comment c | illegal c =>
      rw [Borders.bracket_eq hb hbehind,← ih h.tail (hb.later _)]
      rfl

end

/-- The pieces of some tokens, with parentheses around some places. -/
def bracketed (places : List Span) (ts : List Token) : List Piece :=
  ts.flatMap fun t => List.replicate ((places.map Span.start).count t.span.start) opening ++
    ofToken t :: List.replicate ((places.map Span.stop).count t.span.stop) closing

theorem map_ofToken_replicate (k : Kind) (t : Text) (n o : Nat) :
    (tokens o (List.replicate n (lexeme k t))).map ofToken = List.replicate n (lexeme k t) := by
  induction n generalizing o with
  | zero => rfl
  | succ n ih =>
    rw [List.replicate_succ,tokens,List.map_cons,ih]
    rfl

/-- Parentheses between pieces stand between their tokens. -/
theorem map_ofToken_tokens_bracket (places : List Span) (o o' : Nat) (ps : List Piece) :
    (tokens o' (bracket (places.map Span.start) (places.map Span.stop) o ps)).map ofToken =
      bracketed places (tokens o ps) := by
  induction ps generalizing o o' with
  | nil => rfl
  | cons p ps ih =>
    cases p with
    | lexeme k t =>
      rw [bracket,tokens_append,tokens,tokens_append,List.map_append,List.map_cons,List.map_append,
        ih,opening,closing,map_ofToken_replicate,map_ofToken_replicate]
      change _ = (_ ++ ofToken _ :: _) ++ bracketed places (tokens (o+t.length) ps)
      rw [List.append_assoc]
      rfl
    | blank | comment | illegal => exact ih _ _

section
variable {ps qs : List Span} {ts : List Token}

theorem bracketed_append (ps : List Span) (ts us : List Token) :
    bracketed ps (ts ++ us) = bracketed ps ts ++ bracketed ps us := List.flatMap_append

theorem bracketed_nil (ts : List Token) : bracketed [] ts = ts.map ofToken := by
  simp [bracketed,List.map_eq_flatMap]

/-- No place begins or ends with one of the tokens. -/
def Avoids (ps : List Span) (ts : List Token) : Prop :=
  ∀ p ∈ ps, ∀ t ∈ ts, p.start ≠ t.span.start ∧ p.stop ≠ t.span.stop

theorem Avoids.count_eq (h : Avoids ps ts) {t : Token} (ht : t ∈ ts) :
    (ps.map Span.start).count t.span.start = 0 ∧ (ps.map Span.stop).count t.span.stop = 0 := by
  constructor
  · apply List.count_eq_zero.2
    intro hmem
    obtain ⟨p,hp,hstart⟩ := List.mem_map.1 hmem
    exact (h p hp t ht).1 hstart
  · apply List.count_eq_zero.2
    intro hmem
    obtain ⟨p,hp,hstop⟩ := List.mem_map.1 hmem
    exact (h p hp t ht).2 hstop

/-- Only the places that begin or end with one of the tokens make a difference. -/
theorem bracketed_congr (h : ∀ t ∈ ts,
    (ps.map Span.start).count t.span.start = (qs.map Span.start).count t.span.start ∧
      (ps.map Span.stop).count t.span.stop = (qs.map Span.stop).count t.span.stop) :
    bracketed ps ts = bracketed qs ts := by
  rw [bracketed,bracketed,List.flatMap_def,List.flatMap_def,List.map_congr_left]
  intro t ht
  obtain ⟨hstart,hstop⟩ := h t ht
  rw [hstart,hstop]

theorem Avoids.bracketed_left (h : Avoids qs ts) : bracketed (ps ++ qs) ts = bracketed ps ts := by
  apply bracketed_congr
  intro t ht
  simp [h.count_eq ht]

theorem Avoids.bracketed_right (h : Avoids ps ts) : bracketed (ps ++ qs) ts = bracketed qs ts := by
  apply bracketed_congr
  intro t ht
  simp [h.count_eq ht]

theorem Avoids.bracketed_eq (h : Avoids ps ts) : bracketed ps ts = ts.map ofToken := by
  rw [← bracketed_nil,← List.nil_append ps]
  exact h.bracketed_left

/-- The outermost parentheses around some tokens come first and last. -/
theorem bracketed_frames {s : Span} (h : s.Frames ts) (hts : Token.InOrder ts) (ps : List Span) :
    bracketed (s :: ps) ts = opening :: (bracketed ps ts ++ [closing]) := by
  obtain ⟨first,last,hfirst,hlast,rfl⟩ := h
  obtain ⟨ts,rfl⟩ := List.head?_eq_some_iff.1 hfirst
  rcases List.eq_nil_or_concat ts with rfl | ⟨mid,a,hmid⟩
  · obtain rfl : first = last := by simpa using hlast
    simp [bracketed,List.replicate_succ,← List.replicate_succ']
  · rw [List.concat_eq_append] at hmid
    subst hmid
    obtain rfl : a = last := by simpa [List.getLast?_cons] using hlast
    have hfront := (List.pairwise_cons.1 hts.ordered).1
    have hback := (List.pairwise_append.1 (List.pairwise_cons.1 hts.ordered).2).2.2
    have hlt := fun t ht => (hts.proper t ht).2
    have hmid : Avoids [⟨first.span.start,a.span.stop⟩] mid := by
      intro p hp t ht
      obtain rfl := List.mem_singleton.1 hp
      have hbefore := hfront t (List.mem_append_left _ ht)
      have hbehind := hback t ht a List.mem_cons_self
      have hfirst := hlt first List.mem_cons_self
      have hlast := hlt a (by simp)
      simp only
      omega
    have hstart : first.span.start ≠ a.span.start := by
      have hbefore := hfront a (by simp)
      have hfirst := hlt first List.mem_cons_self
      omega
    have hstop : first.span.stop ≠ a.span.stop := by
      have hbefore := hfront a (by simp)
      have hlast := hlt a (by simp)
      omega
    have hopen : bracketed (⟨first.span.start,a.span.stop⟩ :: ps) [first] =
        opening :: bracketed ps [first] := by
      simp [bracketed,List.count_cons,Ne.symm hstop,List.replicate_succ]
    have hclose : bracketed (⟨first.span.start,a.span.stop⟩ :: ps) [a] =
        bracketed ps [a] ++ [closing] := by
      simp [bracketed,List.count_cons,hstart,List.replicate_succ']
    have hinside : bracketed (⟨first.span.start,a.span.stop⟩ :: ps) mid = bracketed ps mid :=
      hmid.bracketed_right
    have hsplit (qs : List Span) : bracketed qs (first :: (mid ++ [a])) =
        bracketed qs [first] ++ (bracketed qs mid ++ bracketed qs [a]) := by
      rw [← bracketed_append,← bracketed_append]
      rfl
    rw [hsplit,hsplit,hopen,hinside,hclose]
    simp only [List.cons_append,List.append_assoc]

end

/-- Every place begins and ends with one of the tokens. -/
def Bordered (ps : List Span) (ts : List Token) : Prop :=
  ∀ p ∈ ps, (∃ t ∈ ts, t.span.start = p.start) ∧ ∃ t ∈ ts, t.span.stop = p.stop

namespace Bordered

variable {ps qs : List Span} {ts us vs : List Token}

theorem mono (h : Bordered ps ts) (hsub : ts ⊆ us) : Bordered ps us := by
  intro p hp
  obtain ⟨⟨t,ht,hstart⟩,u,hu,hstop⟩ := h p hp
  exact ⟨⟨t,hsub ht,hstart⟩,u,hsub hu,hstop⟩

/-- Other tokens are avoided, as they stand in front of these or behind them. -/
theorem avoids (h : Bordered ps ts)
    (hapart : ∀ t ∈ ts, ∀ u ∈ us, t.span.start ≠ u.span.start ∧ t.span.stop ≠ u.span.stop) :
    Avoids ps us := by
  intro p hp u hu
  obtain ⟨⟨t,ht,hstart⟩,t',ht',hstop⟩ := h p hp
  rw [← hstart,← hstop]
  exact ⟨(hapart t ht u hu).1,(hapart t' ht' u hu).2⟩

theorem avoids_behind (h : Bordered ps ts) (hts : Token.InOrder (ts ++ us)) : Avoids ps us := by
  apply h.avoids
  intro t ht u hu
  have hle := (List.pairwise_append.1 hts.ordered).2.2 t ht u hu
  have hproper := hts.proper t (List.mem_append_left _ ht)
  have hproper' := hts.proper u (List.mem_append_right _ hu)
  omega

theorem avoids_before (h : Bordered ps us) (hts : Token.InOrder (ts ++ us)) : Avoids ps ts := by
  apply h.avoids
  intro u hu t ht
  have hle := (List.pairwise_append.1 hts.ordered).2.2 t ht u hu
  have hproper := hts.proper t (List.mem_append_left _ ht)
  have hproper' := hts.proper u (List.mem_append_right _ hu)
  omega

/-- All parentheses stand around the tokens that the places begin and end with. -/
theorem bracketed_within (h : Bordered ps us) (hts : Token.InOrder (ts ++ us ++ vs)) :
    bracketed ps (ts ++ us ++ vs) = ts.map ofToken ++ bracketed ps us ++ vs.map ofToken := by
  have hfront : Token.InOrder (ts ++ us) := hts.sublist (List.sublist_append_left _ _)
  have hback : Token.InOrder (us ++ vs) := hts.sublist (by simp)
  rw [bracketed_append,bracketed_append,(h.avoids_before hfront).bracketed_eq,
    (h.avoids_behind hback).bracketed_eq]

theorem bracketed_both (hps : Bordered ps ts) (hqs : Bordered qs vs)
    (hts : Token.InOrder (ts ++ us ++ vs)) :
    bracketed (ps ++ qs) (ts ++ us ++ vs) =
      bracketed ps ts ++ us.map ofToken ++ bracketed qs vs := by
  have hfront : Token.InOrder (ts ++ us) := hts.sublist (List.sublist_append_left _ _)
  have hback : Token.InOrder (us ++ vs) := hts.sublist (by simp)
  have hboth : Token.InOrder (ts ++ vs) := hts.sublist (by simp)
  rw [bracketed_append,bracketed_append,(hqs.avoids_before hboth).bracketed_left,
    (hqs.avoids_before hback).bracketed_left,(hps.avoids_behind hfront).bracketed_eq,
    (hps.avoids_behind hboth).bracketed_right]

end Bordered

end Piece
end AssignLang
