import AssignLang.Diagnostic.Excerpt
import AssignLang.Proofs.Diagnostic.Lines

namespace AssignLang

namespace Text

theorem mem_stretch {t : Text} {i j k : Nat} {c : Char} (hk : i ≤ k) (hj : k < j)
    (hc : t[k]? = some c) : c ∈ (t.take j).drop i := by
  apply List.mem_of_getElem? (i := k-i)
  rw [List.getElem?_drop,Nat.add_sub_cancel' hk,List.getElem?_take,if_pos hj,hc]

theorem take_append_stretch {t : Text} {i j : Nat} (h : i ≤ j) :
    t.take i ++ (t.take j).drop i = t.take j := by
  have hsplit := List.take_append_drop i (t.take j)
  rwa [List.take_take,Nat.min_eq_left h] at hsplit

/-- Counting line feeds leads to the stretch from `i` up to `j`: all lines up to there end with one,
and the stretch is not what stands behind the last one of a text. -/
def Counted (t : Text) (i j : Nat) : Prop :=
  t.Steady j ∧ (i = t.length → t.getLast? ≠ some '\n')

/-- A stretch of a text in which no line ends, as far as line feeds and carriage returns go. It is
empty only at an end of the text. -/
structure Flat (t : Text) (i j : Nat) : Prop where
  le : i ≤ j
  le_length : j ≤ t.length
  flat : ∀ c ∈ (t.take j).drop i, c ≠ '\n' ∧ c ≠ '\r'
  ends : i = j → i = 0 ∨ i = t.length

namespace Flat

variable {t : Text} {i j : Nat}

theorem not_mem (h : t.Flat i j) : '\n' ∉ (t.take j).drop i := fun hmem => (h.flat _ hmem).1 rfl

theorem feeds_eq (h : t.Flat i j) : t.feeds j = t.feeds i := by
  have hnone : ((t.take j).drop i).count '\n' = 0 := List.count_eq_zero.2 h.not_mem
  rw [feeds,← take_append_stretch h.le,List.count_append,hnone]
  rfl

theorem column_eq (h : t.Flat i j) : t.column j = t.column i+(j-i) := by
  have hnone : '\n' ∉ ((t.take j).drop i).reverse := by
    rw [List.mem_reverse]
    exact h.not_mem
  have hlength : ((t.take j).drop i).length = j-i := by
    rw [List.length_drop,List.length_take,Nat.min_eq_left h.le_length]
  rw [column,← take_append_stretch h.le,List.reverse_append,takeWhile_of_not_mem hnone,
    List.length_append,List.length_reverse,hlength,column,Nat.add_comm]

theorem start_ne (h : t.Flat i j) : i = 0 ∨ t[i]? ≠ some '\n' := by
  rcases Nat.lt_or_ge i j with hlt | hge
  · refine .inr fun hfeed => ?_
    exact (h.flat _ (mem_stretch (Nat.le_refl i) hlt hfeed)).1 rfl
  · rcases h.ends (Nat.le_antisymm h.le hge) with h0 | hend
    · exact .inl h0
    · refine .inr ?_
      rw [hend,List.getElem?_eq_none (Nat.le_refl _)]
      simp

end Flat
end Text

namespace Excerpt

open Text

/-- Just one line is marked. It is the line of the program in which offset `i` lies, and coloured in
it is what stands from `i` up to `j`. -/
def Pinpoints (p : Text) (ls : List Line) (i j : Nat) : Prop :=
  ∃ l k b text, ls.filter Line.marked = [l] ∧ l.number = k+1 ∧ (p.placed 0)[k]? = some (b,text) ∧
    b ≤ i ∧ i ≤ b+text.length ∧ l.front ++ l.lit ++ l.back = text ∧ l.lit = (p.take j).drop i

section
variable {start stop : Nat × Nat} {i : Nat}

theorem filter_marked_of_lt (h : stop.1 < i) (ls : List Text) :
    ((number i ls).map fun x => Line.ofSource start stop x.1 x.2).filter Line.marked = [] := by
  induction ls generalizing i with
  | nil => rfl
  | cons l ls ih =>
    have hline : (Line.ofSource start stop i l).marked = false := by
      rw [Line.ofSource,if_pos (.inr h)]
    rw [number,List.map_cons,List.filter_cons_of_neg (by simp [hline]),ih (Nat.lt_succ_of_lt h)]

/-- A place in one line marks this line only. -/
theorem filter_marked (h : start.1 = stop.1) (hi : i ≤ start.1) (ls : List Text) :
    ((number i ls).map fun x => Line.ofSource start stop x.1 x.2).filter Line.marked =
      (ls[start.1-i]?.map (Line.ofSource start stop start.1)).toList := by
  induction ls generalizing i with
  | nil => rfl
  | cons l ls ih =>
    rw [number,List.map_cons]
    rcases Nat.lt_or_eq_of_le hi with hlt | rfl
    · have hline : (Line.ofSource start stop i l).marked = false := by
        rw [Line.ofSource,if_pos (.inl hlt)]
      have hindex : start.1-i = start.1-(i+1)+1 := by omega
      rw [List.filter_cons_of_neg (by simp [hline]),ih hlt,hindex]
      rfl
    · have hline : (Line.ofSource start stop start.1 l).marked = true := by
        rw [Line.ofSource,if_neg (by omega),if_pos rfl,if_pos h]
      rw [List.filter_cons_of_pos hline,filter_marked_of_lt (by omega),Nat.sub_self]
      rfl

end

section
variable {p : Text} {i j : Nat}

/-- What is marked for a place in line `k`, counted from zero. -/
theorem filter_lines {k a b : Nat} (hi : p.position i = (k+1,a)) (hj : p.position j = (k+1,b)) :
    (lines p ⟨i,j⟩ 1 1).filter Line.marked =
      (p.lines[k]?.map fun l => ⟨k+1,true,l.take a,(l.take b).drop a,l.drop b⟩).toList := by
  have hfirst : max 0 (((k+1 : Nat) : Int)-1-1) = ((k-1 : Nat) : Int) := by omega
  have hbehind : ((k+1 : Nat) : Int)+1 = ((k+2 : Nat) : Int) := by omega
  have hnumber : (max 1 (((k+1 : Nat) : Int)-1)).toNat = max 1 k := by omega
  have hindex : k-1+(k+1-max 1 k) = k := by omega
  have hshown : (Text.slice p.lines (k-1 : Nat) (k+2 : Nat))[k+1-max 1 k]? = p.lines[k]? := by
    rw [slice_ofNat,List.getElem?_drop,hindex,List.getElem?_take,if_pos (by omega)]
  have hline : Line.ofSource (k+1,a) (k+1,b) (k+1) =
      fun l => ⟨k+1,true,l.take a,(l.take b).drop a,l.drop b⟩ := by
    funext l
    rw [Line.ofSource,if_neg (by omega),if_pos rfl,if_pos rfl]
  rw [lines,hi,hj]
  simp only [hfirst,hbehind,hnumber]
  have hsame : ((k+1,a) : Nat × Nat).1 = ((k+1,b) : Nat × Nat).1 := rfl
  have hlater : max 1 k ≤ ((k+1,a) : Nat × Nat).1 := by
    simp only
    omega
  rw [filter_marked hsame hlater,hshown,hline]

/-- A stretch that lies in a line is found in it. -/
theorem drop_take_line {u l v : Text} {a b : Nat} (hb : b ≤ l.length) :
    ((u ++ l ++ v).take (u.length+b)).drop (u.length+a) = (l.take b).drop a := by
  rw [List.append_assoc,List.take_length_add_append,List.drop_length_add_append,
    List.take_append_of_le_length hb]

/-- A flat place ends in the line it begins in. -/
theorem le_of_flat (h : p.Flat i j) (hsteady : p.Steady j) {k b : Nat} {l : Text}
    (hl : (p.placed 0)[k]? = some (b,l)) (hi : i ≤ b+l.length) : j ≤ b+l.length := by
  obtain ⟨u,v,hp,hb,-,-,hv⟩ := exists_of_placed hl
  apply Nat.not_lt.1
  intro hlt
  cases v with
  | nil =>
    have hlength := congrArg List.length hp
    have hle := h.le_length
    simp only [List.length_append,List.length_nil] at hlength
    omega
  | cons c v =>
    -- the line would end inside of the place
    have hc : p[b+l.length]? = some c := by
      rw [hp,hb,List.getElem?_append_right (by simp)]
      simp
    have hflat := h.flat c (mem_stretch hi hlt hc)
    rcases hsteady _ hlt c hc (hv c rfl) with hfeed | ⟨hreturn,-⟩
    · exact hflat.1 hfeed
    · exact hflat.2 hreturn

theorem position_stop (h : p.Flat i j) : p.position j = (p.feeds i+1,p.column j) := by
  rw [position_ofNat,h.feeds_eq]

/-- If just the place is marked, counting leads to it. -/
theorem counted_of_pinpoints (h : p.Flat i j) (hp : Pinpoints p (lines p ⟨i,j⟩ 1 1) i j) :
    p.Counted i j := by
  obtain ⟨l,k,b,text,hl,hk,htext,-,hi,hline,hlit⟩ := hp
  rw [filter_lines (position_ofNat p i) (position_stop h)] at hl
  have hnumber : l.number = p.feeds i+1 := by
    cases hlines : p.lines[p.feeds i]? with
    | none =>
      rw [hlines] at hl
      cases hl
    | some t =>
      rw [hlines] at hl
      rw [← (List.cons.inj hl).1]
  obtain rfl : k = p.feeds i := by omega
  have hclear := clear_of_placed htext (by omega) h.start_ne
  obtain ⟨-,-,-,-,hunbroken,-⟩ := exists_of_placed htext
  refine ⟨?_,hclear.getLast?_ne⟩
  intro m hm c hc hbreak
  rcases Nat.lt_or_ge m i with hlt | hge
  · exact hclear.steady m hlt c hc hbreak
  · have hmem : c ∈ text := by
      rw [← hline,hlit,List.append_assoc]
      exact List.mem_append_right _ (List.mem_append_left _ (mem_stretch hge hm hc))
    rw [hunbroken c hmem] at hbreak
    cases hbreak

/-- If counting leads to the place, just the place is marked. -/
theorem pinpoints_of_counted (hp : p ≠ []) (h : p.Flat i j) (hcounted : p.Counted i j) :
    Pinpoints p (lines p ⟨i,j⟩ 1 1) i j := by
  obtain ⟨hsteady,hlast⟩ := hcounted
  have hclear := clear_of_getLast? hp (hsteady.mono h.le) hlast
  obtain ⟨b,l,hl,hb,hend⟩ :=
    placed_of_clear 0 hclear h.start_ne (Nat.le_trans h.le h.le_length)
  have hlines : p.lines[p.feeds i]? = some l := by
    rw [← map_placed 0 p,List.getElem?_map,hl]
    rfl
  obtain ⟨u,v,huv,hu,-⟩ := exists_of_placed hl
  have hstop := le_of_flat h hsteady hl (by omega)
  have hcolumn := h.column_eq
  have hle := h.le
  rw [Pinpoints,filter_lines (position_ofNat p i) (position_stop h),hlines]
  refine ⟨_,p.feeds i,b,l,rfl,rfl,hl,by omega,by omega,?_,?_⟩
  · have hfront : p.column i ≤ p.column j := by omega
    simp only [take_append_stretch hfront,List.take_append_drop]
  · -- the line begins behind `u`, so its columns are offsets less the length of `u`
    have hi : i = u.length+p.column i := by omega
    have hj : j = u.length+p.column j := by omega
    have hcolumns : p.column j ≤ l.length := by omega
    have hline := drop_take_line (u := u) (v := v) (a := p.column i) hcolumns
    rw [← huv,← hi,← hj] at hline
    exact hline.symm

/-- The excerpt of a flat place marks just this place if and only if counting leads to it. -/
theorem pinpoints_iff (hp : p ≠ []) (h : p.Flat i j) :
    Pinpoints p (lines p ⟨i,j⟩ 1 1) i j ↔ p.Counted i j :=
  ⟨counted_of_pinpoints h,pinpoints_of_counted hp h⟩

end

end Excerpt
end AssignLang
