import AssignLang.Proofs.Diagnostic.Excerpt

namespace AssignLang.Text

/-- In this text lines end with line feeds only. -/
def FeedsOnly (t : Text) : Prop := ∀ c ∈ t, isLineBreak c → c = '\n'

instance (t : Text) : Decidable t.FeedsOnly := List.decidableBAll _ t

theorem splitOn_cons_feed (t : Text) : ('\n' :: t).splitOn '\n' = [] :: t.splitOn '\n' := by
  rw [List.splitOn_cons_eq_if_modifyHead,if_pos (beq_self_eq_true _)]

theorem splitOn_cons_of_ne {c : Char} (h : c ≠ '\n') (t : Text) :
    (c :: t).splitOn '\n' = (t.splitOn '\n').modifyHead (c :: ·) := by
  rw [List.splitOn_cons_eq_if_modifyHead,if_neg (by simpa using h)]

/-- What stands behind the last line feed of a text makes one line with what follows up to the first
one there. -/
theorem splitOn_append (u : Text) : ∃ fs l, u.splitOn '\n' = fs ++ [l] ∧
    fs.length = feeds u u.length ∧ l.length = column u u.length ∧
    ∀ v m ms, v.splitOn '\n' = m :: ms → (u ++ v).splitOn '\n' = fs ++ (l ++ m) :: ms := by
  induction u with
  | nil => exact ⟨[],[],rfl,rfl,rfl,fun v m ms hv => hv⟩
  | cons c u ih =>
    obtain ⟨fs,l,hu,hfs,hl,happend⟩ := ih
    by_cases hc : c = '\n'
    · subst hc
      refine ⟨[] :: fs,l,?_,?_,?_,?_⟩
      · rw [splitOn_cons_feed,hu]
        rfl
      · rw [List.length_cons,List.length_cons,feeds_cons_feed,hfs]
      · rw [List.length_cons,column_cons (.inl rfl),hl]
      · intro v m ms hv
        rw [List.cons_append,splitOn_cons_feed,happend v m ms hv]
        rfl
    · have hfeeds := feeds_cons_of_ne hc u u.length
      cases fs with
      | nil =>
        have hnone : feeds u u.length = 0 := hfs.symm
        refine ⟨[],c :: l,?_,hfs.trans hfeeds.symm,?_,?_⟩
        · rw [splitOn_cons_of_ne hc,hu]
          rfl
        · rw [List.length_cons,List.length_cons,hl,column_of_feeds hnone (Nat.le_refl _),
            column_of_feeds (hfeeds.trans hnone) (Nat.le_refl _)]
        · intro v m ms hv
          rw [List.cons_append,splitOn_cons_of_ne hc,happend v m ms hv]
          rfl
      | cons f fs =>
        have hsome : feeds u u.length ≠ 0 := by
          rw [← hfs]
          exact Nat.succ_ne_zero _
        refine ⟨(c :: f) :: fs,l,?_,hfs.trans hfeeds.symm,?_,?_⟩
        · rw [splitOn_cons_of_ne hc,hu]
          rfl
        · rw [List.length_cons,column_cons (.inr hsome),hl]
        · intro v m ms hv
          rw [List.cons_append,splitOn_cons_of_ne hc,happend v m ms hv]
          rfl

theorem feeds_take (t : Text) (i : Nat) : feeds (t.take i) (t.take i).length = feeds t i := by
  rw [feeds,List.take_length,feeds]

theorem column_take (t : Text) (i : Nat) : column (t.take i) (t.take i).length = column t i := by
  rw [column,List.take_length,column]

theorem lines_ne_nil {t : Text} (h : t ≠ []) : t.lines ≠ [] := by
  intro hlines
  rw [← map_placed 0 t,List.map_eq_nil_iff] at hlines
  exact h (placed_eq_nil hlines)

/-- Where lines end with line feeds only, they are what stands between the line feeds, without the
nothing behind one at the end. -/
theorem splitOn_eq_lines {t : Text} (h : t.FeedsOnly) (hne : t ≠ []) :
    t.splitOn '\n' = t.lines ++ if t.getLast? = some '\n' then [[]] else [] := by
  induction t with
  | nil => exact absurd rfl hne
  | cons c t ih =>
    obtain ⟨hc,ht⟩ := List.forall_mem_cons.1 h
    by_cases hfeed : c = '\n'
    · subst hfeed
      rw [splitOn_cons_feed]
      change _ = [] :: (lines t ++ _)
      cases t with
      | nil => rfl
      | cons d t => rw [ih ht (List.cons_ne_nil d t),List.getLast?_cons_cons]
    · have hbreak : isLineBreak c = false := by
        rw [← Bool.not_eq_true]
        exact fun hb => hfeed (hc hb)
      rw [splitOn_cons_of_ne hfeed,lines_cons hbreak]
      cases t with
      | nil =>
        rw [if_neg (by simpa using hfeed)]
        rfl
      | cons d t =>
        obtain ⟨l,ls,hlines⟩ := List.exists_cons_of_ne_nil (lines_ne_nil (List.cons_ne_nil d t))
        rw [ih ht (List.cons_ne_nil d t),List.getLast?_cons_cons,hlines]
        rfl

theorem join_splitOn (t : Text) : join ['\n'] (t.splitOn '\n') = t := List.intercalate_splitOn '\n'

theorem eq_nil_of_splitOn {t : Text} (h : t.splitOn '\n' = [[]]) : t = [] := by
  rw [← join_splitOn t,h]
  rfl

theorem join_append_nil {ls : List Text} (h : ls ≠ []) :
    join ['\n'] (ls ++ [[]]) = join ['\n'] ls ++ ['\n'] := by
  induction ls with
  | nil => exact absurd rfl h
  | cons l ls ih =>
    cases ls with
    | nil => simp [join,List.intercalate_cons_cons]
    | cons m ls =>
      have htail := ih (List.cons_ne_nil m ls)
      rw [join,join] at htail
      rw [join,join,List.cons_append,List.cons_append,List.intercalate_cons_cons,
        List.intercalate_cons_cons,← List.cons_append,htail,List.append_assoc (l ++ _)]

theorem length_splitOn (t : Text) : (t.splitOn '\n').length = t.count '\n'+1 := by
  obtain ⟨fs,l,ht,hfs,-⟩ := splitOn_append t
  rw [feeds,List.take_length] at hfs
  rw [ht,List.length_append,hfs]
  rfl

/-- The line feed at the end of a text stands behind every offset but the last. -/
theorem feeds_lt_count {t : Text} {j : Nat} (h : t.getLast? = some '\n') (hj : j < t.length) :
    t.feeds j < t.count '\n' := by
  have hlast : (t.drop j).getLast? = some '\n' := by
    rw [List.getLast?_drop,if_neg (Nat.not_le.2 hj),h]
  have hpos := List.count_pos_iff.2 (List.mem_of_getLast? hlast)
  have hcount := congrArg (List.count '\n') (List.take_append_drop j t)
  rw [List.count_append] at hcount
  rw [feeds]
  omega

/-- What stands between two offsets lies in one line, between `l` and `r`, or goes on from `m`
behind `l` in one line to `n` in front of `r` in another. -/
inductive Cut (t : Text) (i j : Nat) : Prop
  | within {fs vs : List Text} {l m r : Text} (hi : t.position i = (fs.length+1,l.length))
      (hj : t.position j = (fs.length+1,(l ++ m).length))
      (hbetween : ((t.take j).drop i).splitOn '\n' = [m])
      (ht : t.splitOn '\n' = fs ++ (l ++ m ++ r) :: vs)
  | across {fs ms vs : List Text} {l m n r : Text} (hi : t.position i = (fs.length+1,l.length))
      (hj : t.position j = (fs.length+1+ms.length+1,n.length))
      (hbetween : ((t.take j).drop i).splitOn '\n' = m :: (ms ++ [n]))
      (ht : t.splitOn '\n' = fs ++ (l ++ m) :: (ms ++ (n ++ r) :: vs))

theorem cut (t : Text) {i j : Nat} (hij : i ≤ j) : Cut t i j := by
  obtain ⟨fs,l,-,hfs,hl,hbehind⟩ := splitOn_append (t.take i)
  obtain ⟨ms,n,hbetween,-,-,hrest⟩ := splitOn_append ((t.take j).drop i)
  obtain ⟨gs,k,hj,hgs,hk,-⟩ := splitOn_append (t.take j)
  obtain ⟨r,vs,hv⟩ := List.exists_cons_of_ne_nil (List.splitOn_ne_nil '\n' (t.drop j))
  have hposition : t.position i = (fs.length+1,l.length) := by
    rw [position_ofNat,hfs,hl,feeds_take,column_take]
  have hposition' : t.position j = (gs.length+1,k.length) := by
    rw [position_ofNat,hgs,hk,feeds_take,column_take]
  have htext : t.take i ++ ((t.take j).drop i ++ t.drop j) = t := by
    rw [← List.append_assoc,take_append_stretch hij,List.take_append_drop]
  cases ms with
  | nil =>
    have ht := hbehind _ _ _ (hrest _ r vs hv)
    have htake := hbehind _ _ _ hbetween
    rw [take_append_stretch hij,hj] at htake
    obtain ⟨rfl,hk⟩ := List.append_inj' htake rfl
    obtain rfl := (List.cons.inj hk).1
    rw [htext] at ht
    exact .within hposition hposition' hbetween (by rw [ht,List.append_assoc])
  | cons m ms =>
    have ht := hbehind _ _ _ (hrest _ r vs hv)
    have htake := hbehind _ _ _ hbetween
    rw [take_append_stretch hij,hj] at htake
    have hsplit : fs ++ (l ++ m) :: (ms ++ [n]) = fs ++ (l ++ m) :: ms ++ [n] := by simp
    obtain ⟨rfl,hk⟩ := List.append_inj' (htake.trans hsplit) rfl
    obtain rfl := (List.cons.inj hk).1
    rw [htext] at ht
    have hlength : (fs ++ (l ++ m) :: ms).length+1 = fs.length+1+ms.length+1 := by
      simp only [List.length_append,List.length_cons]
      omega
    rw [hlength] at hposition'
    exact .across hposition hposition' hbetween ht

/-- An earlier offset has an earlier position. -/
theorem position_mono (t : Text) {i j : Nat} (hij : i ≤ j) :
    (t.position i).1 < (t.position j).1 ∨
      (t.position i).1 = (t.position j).1 ∧ (t.position i).2 ≤ (t.position j).2 := by
  rcases t.cut hij with ⟨hi,hj,-,-⟩ | ⟨hi,hj,-,-⟩
  · rw [hi,hj,List.length_append]
    exact .inr ⟨rfl,Nat.le_add_right _ _⟩
  · rw [hi,hj]
    left
    simp only
    omega

end AssignLang.Text
