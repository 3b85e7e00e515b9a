import AssignLang.Proofs.Tree.Lines

namespace AssignLang.Text

/-- The lines of a text that begins at offset `o`, each with the offset of its beginning. -/
def placed (o : Nat) : Text → List (Nat × Text)
  | [] => []
  | '\r' :: '\n' :: r => (o,[]) :: placed (o+2) r
  | c :: r =>
    if isLineBreak c then (o,[]) :: placed (o+1) r
    else match placed (o+1) r with
      | [] => [(o,[c])]
      | (_,l) :: ls => (o,c :: l) :: ls

/-- Up to offset `j` lines end only where line feeds are counted. -/
def Steady (t : Text) (j : Nat) : Prop :=
  ∀ k < j, ∀ c, t[k]? = some c → isLineBreak c → c = '\n' ∨ c = '\r' ∧ t[k+1]? = some '\n'

/-- Counting line feeds comes to the line of offset `i`. Behind the text there is one only if the
last one is open. -/
structure Clear (t : Text) (i : Nat) : Prop where
  steady : t.Steady i
  last : i = t.length → ∃ c, t.getLast? = some c ∧ c ≠ '\n'

/-- How many line feeds stand in front of an offset. -/
def feeds (t : Text) (i : Nat) : Nat := (t.take i).count '\n'

/-- How far an offset lies behind the last line feed. -/
def column (t : Text) (i : Nat) : Nat := ((t.take i).reverse.takeWhile (· != '\n')).length

theorem position_ofNat (t : Text) (i : Nat) : t.position i = (t.feeds i+1,t.column i) := rfl

theorem feeds_cons (c : Char) (t : Text) (i : Nat) :
    feeds (c :: t) (i+1) = feeds t i + if c = '\n' then 1 else 0 := by
  rw [feeds,feeds,List.take_succ_cons,List.count_cons]
  simp

theorem feeds_nil (i : Nat) : feeds [] i = 0 := by simp [feeds]

theorem feeds_cons_feed (t : Text) (i : Nat) : feeds ('\n' :: t) (i+1) = feeds t i+1 := by
  rw [feeds_cons,if_pos rfl]

theorem feeds_cons_of_ne {c : Char} (h : c ≠ '\n') (t : Text) (i : Nat) :
    feeds (c :: t) (i+1) = feeds t i := by
  rw [feeds_cons,if_neg h,Nat.add_zero]

theorem ne_feed {c : Char} (h : ¬ isLineBreak c) : c ≠ '\n' := by
  rintro rfl
  exact h rfl

theorem takeWhile_of_not_mem {u : Text} (h : '\n' ∉ u) (v : Text) :
    (u ++ v).takeWhile (· != '\n') = u ++ v.takeWhile (· != '\n') := by
  apply List.takeWhile_append_of_pos
  intro c hc
  have hne : c ≠ '\n' := fun heq => h (heq ▸ hc)
  simpa using hne

theorem column_of_feeds {t : Text} {i : Nat} (h : t.feeds i = 0) (hi : i ≤ t.length) :
    t.column i = i := by
  have hnot : '\n' ∉ (t.take i).reverse := by
    rw [List.mem_reverse]
    exact List.count_eq_zero.1 h
  have htake := takeWhile_of_not_mem hnot []
  rw [List.append_nil,List.takeWhile_nil,List.append_nil] at htake
  rw [column,htake,List.length_reverse,List.length_take]
  exact Nat.min_eq_left hi

/-- Only what stands behind the last line feed counts. -/
theorem column_cons {c : Char} {t : Text} {i : Nat} (h : c = '\n' ∨ t.feeds i ≠ 0) :
    column (c :: t) (i+1) = t.column i := by
  rw [column,column,List.take_succ_cons,List.reverse_cons,List.takeWhile_append]
  split
  · rename_i hlength
    have hself := (List.takeWhile_prefix (· != '\n')).eq_of_length hlength
    have hfeeds : t.feeds i = 0 := by
      apply List.count_eq_zero.2
      intro hmem
      rw [← List.mem_reverse,← hself] at hmem
      have hne := List.all_eq_true.1 List.all_takeWhile _ hmem
      exact absurd hne (by simp)
    obtain rfl := h.resolve_right (absurd hfeeds)
    rw [hlength]
    simp
  · rfl

section
variable {t : Text} {o i j k b : Nat} {l : Text}

theorem steady_cons (c : Char) : Steady (c :: t) (j+1) ↔
    (isLineBreak c → c = '\n' ∨ c = '\r' ∧ t[0]? = some '\n') ∧ Steady t j := by
  constructor
  · intro h
    refine ⟨h 0 (Nat.succ_pos j) c rfl,?_⟩
    intro k hk
    exact h (k+1) (Nat.succ_lt_succ hk)
  · rintro ⟨hc,ht⟩ k hk
    cases k with
    | zero =>
      intro d hd
      obtain rfl := Option.some.inj hd
      exact hc
    | succ k => exact ht k (Nat.lt_of_succ_lt_succ hk)

theorem steady_zero (t : Text) : Steady t 0 := fun k hk => absurd hk (Nat.not_lt_zero k)

theorem Steady.mono (h : Steady t j) (hij : i ≤ j) : Steady t i :=
  fun k hk => h k (Nat.lt_of_lt_of_le hk hij)

theorem map_placed (o : Nat) (t : Text) : (placed o t).map Prod.snd = lines t := by
  fun_induction placed o t with
  | case1 => rfl
  | case2 o r ih => exact congrArg ([] :: ·) ih
  | case3 o c r hnot hc ih =>
    rw [lines,if_pos hc]
    · exact congrArg ([] :: ·) ih
    · exact hnot
  | case4 o c r hnot hc hr ih =>
    rw [hr] at ih
    rw [lines_cons (by simpa using hc),← ih]
    rfl
  | case5 o c r hnot hc _ l ls hr ih =>
    rw [hr] at ih
    rw [lines_cons (by simpa using hc),← ih]
    rfl

theorem placed_eq_nil (h : placed o t = []) : t = [] := by
  fun_cases placed o t with
  | case1 => rfl
  | case2 | case3 | case4 | case5 => simp_all [placed]

/-- A line stands where it is placed, and ends at the end of the text or of a line. -/
theorem exists_of_placed (h : (placed o t)[k]? = some (b,l)) :
    ∃ u v, t = u ++ l ++ v ∧ b = o+u.length ∧ l.IsUnbroken ∧
      (k = 0 → u = []) ∧ ∀ c ∈ v.head?, isLineBreak c := by
  fun_induction placed o t generalizing k b l with
  | case1 => cases h
  | case2 o r ih =>
    cases k with
    | zero =>
      obtain ⟨rfl,rfl⟩ := Prod.mk.inj (Option.some.inj h)
      exact ⟨[],'\r' :: '\n' :: r,rfl,rfl,isUnbroken_nil,fun _ => rfl,by simp [isLineBreak]⟩
    | succ k =>
      obtain ⟨u,v,rfl,rfl,hl,-,hv⟩ := ih h
      exact ⟨'\r' :: '\n' :: u,v,rfl,by simp; omega,hl,by simp,hv⟩
  | case3 o c r hnot hc ih =>
    cases k with
    | zero =>
      obtain ⟨rfl,rfl⟩ := Prod.mk.inj (Option.some.inj h)
      exact ⟨[],c :: r,rfl,rfl,isUnbroken_nil,fun _ => rfl,by simpa using hc⟩
    | succ k =>
      obtain ⟨u,v,rfl,rfl,hl,-,hv⟩ := ih h
      exact ⟨c :: u,v,rfl,by simp; omega,hl,by simp,hv⟩
  | case4 o c r hnot hc hr ih =>
    obtain rfl := placed_eq_nil hr
    cases k with
    | zero =>
      obtain ⟨rfl,rfl⟩ := Prod.mk.inj (Option.some.inj h)
      exact ⟨[],[],rfl,rfl,isUnbroken_nil.cons (by simpa using hc),fun _ => rfl,by simp⟩
    | succ k => cases h
  | case5 o c r hnot hc b' l' ls hr ih =>
    rw [hr] at ih
    cases k with
    | zero =>
      obtain ⟨rfl,rfl⟩ := Prod.mk.inj (Option.some.inj h)
      obtain ⟨u,v,rfl,-,hl,hu,hv⟩ := ih (k := 0) rfl
      obtain rfl := hu rfl
      exact ⟨[],v,rfl,rfl,hl.cons (by simpa using hc),fun _ => rfl,hv⟩
    | succ k =>
      obtain ⟨u,v,rfl,rfl,hl,-,hv⟩ := ih (k := k+1) h
      exact ⟨c :: u,v,rfl,by simp; omega,hl,by simp,hv⟩

theorem eq_of_placed {ls : List (Nat × Text)} (h : placed o t = (b,l) :: ls) : b = o := by
  have hfirst : (placed o t)[0]? = some (b,l) := by
    rw [h]
    rfl
  obtain ⟨u,v,-,hb,-,hu,-⟩ := exists_of_placed hfirst
  rw [hb,hu rfl]
  rfl

/-- A line with fewer line feeds in front of it than an offset ends in front of that offset. -/
theorem lt_of_lt_feeds (h : (placed o t)[k]? = some (b,l)) (hk : k < t.feeds i) :
    b+l.length < o+i := by
  fun_induction placed o t generalizing k b l i with
  | case1 => cases h
  | case2 o r ih =>
    obtain ⟨i,rfl⟩ : ∃ m, i = m+2 := by
      match i with
      | 0 => cases hk
      | 1 => cases hk
      | i+2 => exact ⟨i,rfl⟩
    rw [feeds_cons_of_ne (by decide),feeds_cons_feed] at hk
    cases k with
    | zero =>
      obtain ⟨rfl,rfl⟩ := Prod.mk.inj (Option.some.inj h)
      simp
    | succ k =>
      have hlt := ih h (Nat.lt_of_succ_lt_succ hk)
      omega
  | case3 o c r hnot hc ih =>
    cases i with
    | zero => cases hk
    | succ i =>
      cases k with
      | zero =>
        obtain ⟨rfl,rfl⟩ := Prod.mk.inj (Option.some.inj h)
        simp
      | succ k =>
        rw [feeds_cons] at hk
        have hlt := ih (i := i) h (by split at hk <;> omega)
        omega
  | case4 o c r hnot hc hr ih =>
    obtain rfl := placed_eq_nil hr
    cases i with
    | zero => cases hk
    | succ i =>
      rw [feeds_cons_of_ne (ne_feed hc),feeds_nil] at hk
      cases hk
  | case5 o c r hnot hc b' l' ls hr ih =>
    cases i with
    | zero => cases hk
    | succ i =>
      rw [feeds_cons_of_ne (ne_feed hc)] at hk
      obtain rfl := eq_of_placed hr
      rw [hr] at ih
      cases k with
      | zero =>
        obtain ⟨rfl,rfl⟩ := Prod.mk.inj (Option.some.inj h)
        have hlt := ih (k := 0) rfl hk
        simp only [List.length_cons]
        omega
      | succ k =>
        have hlt := ih (k := k+1) h hk
        omega

theorem Clear.cons {c : Char} (h : t.Clear i)
    (hc : isLineBreak c → c = '\n' ∨ c = '\r' ∧ t[0]? = some '\n') : Clear (c :: t) (i+1) := by
  refine ⟨(steady_cons c).2 ⟨hc,h.steady⟩,?_⟩
  intro hi
  obtain ⟨d,hd,hne⟩ := h.last (Nat.succ.inj hi)
  exact ⟨d,by rw [List.getLast?_cons,hd]; rfl,hne⟩

theorem Clear.of_cons {c : Char} (h : Clear (c :: t) (i+1)) (ht : t ≠ []) : t.Clear i := by
  refine ⟨((steady_cons c).1 h.steady).2,?_⟩
  intro hi
  obtain ⟨d,hd,hne⟩ := h.last (congrArg Nat.succ hi)
  obtain ⟨e,t,rfl⟩ := List.exists_cons_of_ne_nil ht
  exact ⟨d,by rwa [List.getLast?_cons_cons] at hd,hne⟩

theorem Clear.getLast?_ne (h : t.Clear i) (hi : i = t.length) : t.getLast? ≠ some '\n' := by
  obtain ⟨c,hc,hne⟩ := h.last hi
  rw [hc]
  exact fun heq => hne (Option.some.inj heq)

theorem clear_of_getLast? (ht : t ≠ []) (hsteady : t.Steady i)
    (hlast : i = t.length → t.getLast? ≠ some '\n') : t.Clear i := by
  refine ⟨hsteady,?_⟩
  intro hi
  have hget := List.getLast?_eq_some_getLast ht
  refine ⟨_,hget,?_⟩
  intro hfeed
  rw [hfeed] at hget
  exact hlast hi hget

/-- Behind the last line feed of a text there is no line. -/
theorem Clear.of_feed (h : Clear ('\n' :: t) (i+1)) (hi : i ≤ t.length) : t.Clear i := by
  apply h.of_cons
  rintro rfl
  obtain rfl : i = 0 := Nat.le_zero.1 hi
  obtain ⟨c,hc,hne⟩ := h.last rfl
  exact hne (Option.some.inj hc).symm

theorem clear_zero (c : Char) (t : Text) : Clear (c :: t) 0 :=
  ⟨steady_zero _,fun h => absurd h (Nat.succ_ne_zero _).symm⟩

theorem exists_succ (h : i = 0 ∨ ('\r' :: '\n' :: t)[i]? ≠ some '\n') (hi : i ≠ 0) :
    ∃ m, i = m+2 ∧ (m = 0 ∨ t[m]? ≠ some '\n') := by
  obtain ⟨m,rfl⟩ := Nat.exists_eq_succ_of_ne_zero hi
  cases m with
  | zero => exact absurd rfl (h.resolve_left hi)
  | succ m => exact ⟨m,rfl,.inr (h.resolve_left hi)⟩

/-- The line with as many line feeds in front of it as the offset is that of the offset only if all
lines in front of it end with line feeds. -/
theorem clear_of_placed (h : (placed o t)[t.feeds i]? = some (b,l)) (hl : o+i ≤ b+l.length)
    (hi : i = 0 ∨ t[i]? ≠ some '\n') : t.Clear i := by
  fun_induction placed o t generalizing b l i with
  | case1 => cases h
  | case2 o r ih =>
    by_cases h0 : i = 0
    · rw [h0]
      exact clear_zero _ _
    · -- no offset asked for lies between the two characters
      obtain ⟨m,rfl,hm⟩ := exists_succ hi h0
      rw [feeds_cons_of_ne (by decide),feeds_cons_feed] at h
      have hclear := ih h (by omega) hm
      exact (hclear.cons fun _ => .inl rfl).cons fun _ => .inr ⟨rfl,rfl⟩
  | case3 o c r hnot hc ih =>
    cases i with
    | zero => exact clear_zero c r
    | succ i =>
      have hri : i = 0 ∨ r[i]? ≠ some '\n' := .inr (hi.resolve_left (Nat.succ_ne_zero i))
      by_cases hfeed : c = '\n'
      · subst hfeed
        rw [feeds_cons_feed] at h
        exact (ih h (by omega) hri).cons fun _ => .inl rfl
      · rw [feeds_cons_of_ne hfeed] at h
        cases hf : feeds r i with
        | zero =>
          rw [hf] at h
          obtain ⟨rfl,rfl⟩ := Prod.mk.inj (Option.some.inj h)
          rw [List.length_nil] at hl
          omega
        | succ k =>
          -- too few lines are counted off, so the line found lies in front of the offset
          rw [hf] at h
          have hlt : b+l.length < o+1+i := lt_of_lt_feeds h (by omega)
          omega
  | case4 o c r hnot hc hr ih =>
    obtain rfl := placed_eq_nil hr
    cases i with
    | zero => exact clear_zero c []
    | succ i =>
      refine ⟨(steady_cons c).2 ⟨fun hbreak => absurd hbreak hc,?_⟩,fun _ => ⟨c,rfl,ne_feed hc⟩⟩
      intro k _ d hd
      cases hd
  | case5 o c r hnot hc b' l' ls hr ih =>
    cases i with
    | zero => exact clear_zero c r
    | succ i =>
      have hri : i = 0 ∨ r[i]? ≠ some '\n' := .inr (hi.resolve_left (Nat.succ_ne_zero i))
      obtain rfl := eq_of_placed hr
      rw [feeds_cons_of_ne (ne_feed hc)] at h
      rw [hr] at ih
      have hclear : Clear r i := by
        cases hf : feeds r i with
        | zero =>
          rw [hf] at h
          obtain ⟨rfl,rfl⟩ := Prod.mk.inj (Option.some.inj h)
          rw [List.length_cons] at hl
          exact ih (i := i) (by rw [hf]; rfl) (by omega) hri
        | succ k =>
          rw [hf] at h
          exact ih (i := i) (by rw [hf]; exact h) (by omega) hri
      exact hclear.cons fun hbreak => absurd hbreak hc

/-- If they do, the line is there, and the offset lies as far behind its beginning as behind the
last line feed. -/
theorem placed_of_clear (o : Nat) (h : t.Clear i) (hi : i = 0 ∨ t[i]? ≠ some '\n')
    (hle : i ≤ t.length) : ∃ b l, (placed o t)[t.feeds i]? = some (b,l) ∧
      b+t.column i = o+i ∧ o+i ≤ b+l.length := by
  fun_induction placed o t generalizing i with
  | case1 o =>
    obtain ⟨c,hc,-⟩ := h.last (Nat.le_zero.1 hle)
    cases hc
  | case2 o r ih =>
    by_cases h0 : i = 0
    · rw [h0]
      exact ⟨o,[],rfl,rfl,Nat.le_refl o⟩
    · obtain ⟨m,rfl,hm⟩ := exists_succ hi h0
      have hlater : m ≤ r.length := by simpa using hle
      have hclear := (h.of_cons (List.cons_ne_nil _ _)).of_feed hlater
      obtain ⟨b,l,hl,hb,hend⟩ := ih hclear hm hlater
      have hcolumn : column ('\r' :: '\n' :: r) (m+2) = column r m := by
        rw [column_cons (.inr (by rw [feeds_cons_feed]; simp)),column_cons (.inl rfl)]
      rw [feeds_cons_of_ne (by decide),feeds_cons_feed,hcolumn]
      exact ⟨b,l,hl,by omega,by omega⟩
  | case3 o c r hnot hc ih =>
    cases i with
    | zero => exact ⟨o,[],rfl,rfl,Nat.le_refl o⟩
    | succ i =>
      obtain rfl : c = '\n' := by
        rcases ((steady_cons c).1 h.steady).1 hc with hfeed | ⟨hreturn,hfeed⟩
        · exact hfeed
        · cases r with
          | nil => cases hfeed
          | cons d r =>
            obtain rfl := Option.some.inj hfeed
            exact absurd rfl (hnot r hreturn)
      have hlater : i ≤ r.length := Nat.le_of_succ_le_succ hle
      obtain ⟨b,l,hl,hb,hend⟩ :=
        ih (h.of_feed hlater) (.inr (hi.resolve_left (Nat.succ_ne_zero i))) hlater
      rw [feeds_cons_feed,column_cons (.inl rfl)]
      exact ⟨b,l,hl,by omega,by omega⟩
  | case4 o c r hnot hc hr ih =>
    obtain rfl := placed_eq_nil hr
    have hfeeds : feeds [c] i = 0 := by
      cases i with
      | zero => rfl
      | succ i => rw [feeds_cons_of_ne (ne_feed hc),feeds_nil]
    rw [hfeeds,column_of_feeds hfeeds hle]
    exact ⟨o,[c],rfl,rfl,Nat.add_le_add_left hle o⟩
  | case5 o c r hnot hc b' l' ls hr ih =>
    cases i with
    | zero => exact ⟨o,c :: l',rfl,rfl,Nat.le_add_right _ _⟩
    | succ i =>
      have hne : r ≠ [] := by
        rintro rfl
        cases hr
      obtain rfl := eq_of_placed hr
      rw [hr] at ih
      obtain ⟨b,l,hl,hb,hend⟩ := ih (h.of_cons hne) (.inr (hi.resolve_left (Nat.succ_ne_zero i)))
        (Nat.le_of_succ_le_succ hle)
      have hfeeds := feeds_cons_of_ne (ne_feed hc) r i
      cases hf : feeds r i with
      | zero =>
        rw [hf] at hl hfeeds
        obtain ⟨rfl,rfl⟩ := Prod.mk.inj (Option.some.inj hl)
        rw [hfeeds,column_of_feeds hfeeds hle]
        exact ⟨o,c :: l',rfl,rfl,by rw [List.length_cons]; omega⟩
      | succ k =>
        rw [hf] at hl
        have hcolumn : column (c :: r) (i+1) = column r i := column_cons (.inr (by omega))
        rw [hfeeds,hf,hcolumn]
        exact ⟨b,l,hl,by omega,by omega⟩

end

end AssignLang.Text
