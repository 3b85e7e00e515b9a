import Mathlib.Data.Prod.Lex
import AssignLang.Proofs.Diagnostic.Split

namespace AssignLang.Text

/-- How many characters lines take up with a line feed behind each. -/
def extent : List Text → Nat
  | [] => 0
  | l :: ls => l.length+1+extent ls

/-- There is such a line and such a column in it. Behind the last character of a line stands one
column more. -/
structure IsPlace (t : Text) (p : Nat × Nat) : Prop where
  line_pos : 1 ≤ p.1
  column_le : ∃ l, (t.splitOn '\n')[p.1-1]? = some l ∧ p.2 ≤ l.length

/-- The offset of a place: its column, behind all earlier lines. -/
def offset (t : Text) (p : Nat × Nat) : Nat := p.2+extent ((t.splitOn '\n').take (p.1-1))

/-- Line `k` has a place at offset `o`. The character there belongs to the line, as its own or as
the line feed at its end. -/
def OnLine (t : Text) (o k : Nat) : Prop := ∃ c, t.IsPlace (k,c) ∧ t.offset (k,c) = o

theorem extent_cons (l : Text) (ls : List Text) : extent (l :: ls) = l.length+1+extent ls := rfl

theorem extent_snoc (ls : List Text) (l : Text) : extent (ls ++ [l]) = extent ls+l.length+1 := by
  induction ls with
  | nil => rw [List.nil_append,extent_cons,extent,Nat.zero_add,Nat.add_zero]
  | cons m ls ih =>
    rw [List.cons_append,extent_cons,ih,extent_cons]
    omega

theorem extent_splitOn (t : Text) : extent (t.splitOn '\n') = t.length+1 := by
  induction t with
  | nil => rfl
  | cons c t ih =>
    by_cases hc : c = '\n'
    · rw [hc,splitOn_cons_feed,extent_cons,ih,List.length_nil,List.length_cons]
      omega
    · obtain ⟨l,ls,hls⟩ := List.exists_cons_of_ne_nil (List.splitOn_ne_nil '\n' t)
      rw [hls,extent_cons] at ih
      rw [splitOn_cons_of_ne hc,hls,List.modifyHead_cons,extent_cons,List.length_cons,
        List.length_cons]
      omega

/-- The lines in front of a later line take up more than those in front of this one and itself. -/
theorem extent_take_lt {ls : List Text} {k m : Nat} {l : Text} (hk : ls[k]? = some l)
    (hkm : k < m) : extent (ls.take k)+l.length < extent (ls.take m) := by
  induction ls generalizing k m with
  | nil => cases hk
  | cons l' ls ih =>
    obtain ⟨m,rfl⟩ := Nat.exists_eq_succ_of_ne_zero (Nat.ne_zero_of_lt hkm)
    rw [List.take_succ_cons,extent_cons]
    cases k with
    | zero =>
      obtain rfl := Option.some.inj hk
      rw [List.take_zero,extent]
      omega
    | succ k =>
      have hlt := ih hk (Nat.lt_of_succ_lt_succ hkm)
      rw [List.take_succ_cons,extent_cons]
      omega

section
variable {t : Text} {p q : Nat × Nat} {o i j k : Nat}

theorem IsPlace.line_le (h : t.IsPlace p) : p.1 ≤ (t.splitOn '\n').length := by
  obtain ⟨hpos,l,hl,-⟩ := h
  obtain ⟨hlt,-⟩ := List.getElem?_eq_some_iff.1 hl
  omega

/-- No place of the text lies behind its end. -/
theorem IsPlace.offset_le (h : t.IsPlace p) : t.offset p ≤ t.length := by
  have hextent := extent_splitOn t
  have hle := h.line_le
  obtain ⟨hpos,l,hl,hcolumn⟩ := h
  have hlt := extent_take_lt hl (m := (t.splitOn '\n').length) (by omega)
  rw [List.take_length,hextent] at hlt
  rw [offset]
  omega

/-- Places follow each other in the order of lines, and of columns in a line. -/
theorem IsPlace.offset_lt (h : t.IsPlace p) (hpq : toLex p < toLex q) :
    t.offset p < t.offset q := by
  obtain ⟨hpos,l,hl,hcolumn⟩ := h
  rcases Prod.Lex.toLex_lt_toLex.1 hpq with hline | ⟨hline,hlt⟩
  · have hextent := extent_take_lt hl (m := q.1-1) (by omega)
    rw [offset,offset]
    omega
  · rw [offset,offset,hline]
    omega

theorem IsPlace.eq_of_offset (h : t.IsPlace p) (h' : t.IsPlace q) (heq : t.offset p = t.offset q) :
    p = q := by
  rcases lt_trichotomy (toLex p) (toLex q) with hlt | hpq | hlt
  · exact absurd heq (Nat.ne_of_lt (h.offset_lt hlt))
  · exact toLex.injective hpq
  · exact absurd heq.symm (Nat.ne_of_lt (h'.offset_lt hlt))

/-- An offset of the text has a place in it. -/
theorem isPlace_position (ho : o ≤ t.length) :
    t.IsPlace (t.position o) ∧ t.offset (t.position o) = o := by
  obtain ⟨fs,l,hfront,hfs,hl,hbehind⟩ := splitOn_append (t.take o)
  obtain ⟨m,ms,hms⟩ := List.exists_cons_of_ne_nil (List.splitOn_ne_nil '\n' (t.drop o))
  have ht := hbehind _ m ms hms
  rw [List.take_append_drop] at ht
  have hposition : t.position o = (fs.length+1,l.length) := by
    rw [position_ofNat,hfs,hl,feeds_take,column_take]
  have hextent := extent_splitOn (t.take o)
  rw [hfront,extent_snoc,List.length_take,Nat.min_eq_left ho] at hextent
  rw [hposition]
  constructor
  · refine ⟨Nat.succ_pos _,l ++ m,?_,?_⟩
    · rw [ht,Nat.add_sub_cancel,List.getElem?_append_right (Nat.le_refl _),Nat.sub_self]
      rfl
    · rw [List.length_append]
      exact Nat.le_add_right _ _
  · simp only [offset]
    rw [ht,Nat.add_sub_cancel,List.take_left]
    omega

theorem position_offset (h : t.IsPlace p) : t.position (t.offset p) = p := by
  obtain ⟨hplace,hoffset⟩ := isPlace_position h.offset_le
  exact hplace.eq_of_offset h hoffset

theorem position_lt (hij : i < j) (hj : j ≤ t.length) :
    toLex (t.position i) < toLex (t.position j) := by
  obtain ⟨-,hi⟩ := isPlace_position (Nat.le_of_lt (Nat.lt_of_lt_of_le hij hj))
  obtain ⟨hplace,hj⟩ := isPlace_position hj
  rcases lt_trichotomy (toLex (t.position i)) (toLex (t.position j)) with hlt | heq | hlt
  · exact hlt
  · rw [toLex.injective heq] at hi
    omega
  · have hback := hplace.offset_lt hlt
    omega

theorem position_of_neg {o : Int} (ho : o < 0) : t.position o = t.position 0 := by
  rw [position,position,Int.toNat_of_nonpos (Int.le_of_lt ho)]
  rfl

theorem position_of_length_lt {o : Int} (ho : t.length < o) :
    t.position o = t.position t.length := by
  have hle : t.length ≤ o.toNat := by omega
  rw [position,position,Int.toNat_natCast,List.take_of_length_le hle,List.take_length]

theorem onLine_iff (ho : o ≤ t.length) : t.OnLine o k ↔ k = (t.position o).1 := by
  obtain ⟨hplace,hoffset⟩ := isPlace_position ho
  constructor
  · rintro ⟨c,hc,heq⟩
    rw [← heq,position_offset hc]
  · rintro rfl
    exact ⟨_,hplace,hoffset⟩

/-- The last of the characters between two offsets, or the offset if there is none between. -/
def lastOffset (i j : Nat) : Nat := if i = j then i else j-1

theorem lines_eq_iff (hij : i ≤ j) (hj : j ≤ t.length) {k m : Nat} :
    Span.lines ⟨i,j⟩ t = (k,m) ↔ t.OnLine i k ∧ t.OnLine (lastOffset i j) m := by
  have hlast : max (i : Int) (j-1) = (lastOffset i j : Nat) := by
    rw [lastOffset]
    split <;> omega
  have hle : lastOffset i j ≤ t.length := by
    rw [lastOffset]
    split <;> omega
  rw [onLine_iff (hij.trans hj),onLine_iff hle,Span.lines,hlast,Prod.mk.injEq]
  constructor
  · rintro ⟨hk,hm⟩
    exact ⟨hk.symm,hm.symm⟩
  · rintro ⟨rfl,rfl⟩
    exact ⟨rfl,rfl⟩

/-- Line and column number the offsets of a text one to one and in their order: every offset has a
place, which leads back to it, and every place is that of just one offset. What lies outside the
text counts as its nearer end, and the lines of a stretch are those of its first and its last
character. -/
theorem position_numbers_offsets (t : Text) :
    (∀ o ≤ t.length, t.IsPlace (t.position o) ∧ t.offset (t.position o) = o) ∧
    (∀ p, t.IsPlace p → ∃! o : Nat, o ≤ t.length ∧ t.position o = p) ∧
    (∀ i j : Nat, i < j → j ≤ t.length → toLex (t.position i) < toLex (t.position j)) ∧
    (∀ o : Int, (o < 0 → t.position o = t.position 0) ∧
      (t.length < o → t.position o = t.position t.length)) ∧
    ∀ i j : Nat, i ≤ j → j ≤ t.length → ∀ k m, Span.lines ⟨i,j⟩ t = (k,m) ↔
      t.OnLine i k ∧ t.OnLine (lastOffset i j) m := by
  refine ⟨fun o => isPlace_position,?_,fun i j => position_lt,?_,?_⟩
  · intro p hp
    refine ⟨t.offset p,⟨hp.offset_le,position_offset hp⟩,?_⟩
    rintro o ⟨ho,rfl⟩
    exact (isPlace_position ho).2.symm
  · intro o
    exact ⟨position_of_neg,position_of_length_lt⟩
  · intro i j hij hj k m
    exact lines_eq_iff hij hj

end

/-- Each of two line feeds on end belongs to the line it ends, and the end of the text lies in a
line of its own. -/
theorem position_numbers_offsets_feeds :
    ∃ t : Text, t = "ab\n\nc\n".toList ∧ Span.lines ⟨2,4⟩ t = (1,2) ∧ t.OnLine 2 1 ∧
      t.OnLine 3 2 ∧ toLex (t.position 5) < toLex (t.position 6) ∧ t.position 6 = (4,0) ∧
      t.IsPlace (4,0) ∧ t.offset (4,0) = 6 := by
  let t : Text := "ab\n\nc\n".toList
  obtain ⟨hplace,-,hlt,-,hlines⟩ := position_numbers_offsets t
  have hpair : Span.lines ⟨2,4⟩ t = (1,2) := by decide
  have hposition : t.position (6 : Nat) = (4,0) := by decide
  obtain ⟨hfirst,hlast⟩ := (hlines 2 4 (by decide) (by decide) 1 2).1 hpair
  obtain ⟨hend,hoffset⟩ := hplace 6 (by decide)
  have hnext := hlt 5 6 (by decide) (by decide)
  rw [hposition] at hend hoffset
  exact ⟨t,rfl,hpair,hfirst,hlast,hnext,hposition,hend,hoffset⟩

end AssignLang.Text
