import Mathlib.Data.List.Forall2
import AssignLang.Proofs.Diagnostic.Split

namespace AssignLang

namespace Excerpt

/-- The lines `ls` of a program, of which the first has number `k`, as they would all be shown. -/
def shown (start stop : Nat × Nat) (k : Nat) (ls : List Text) : List Line :=
  (number k ls).map fun x => Line.ofSource start stop x.1 x.2

section
variable {start stop : Nat × Nat} {k : Nat}

theorem shown_cons (l : Text) (ls : List Text) : shown start stop k (l :: ls) =
    Line.ofSource start stop k l :: shown start stop (k+1) ls := rfl

theorem shown_append (ls ms : List Text) : shown start stop k (ls ++ ms) =
    shown start stop k ls ++ shown start stop (k+ls.length) ms := by
  induction ls generalizing k with
  | nil => rfl
  | cons l ls ih =>
    have hk : k+1+ls.length = k+(l :: ls).length := Nat.add_right_comm k 1 ls.length
    rw [List.cons_append,shown_cons,shown_cons,ih,hk,List.cons_append]

theorem take_shown (n : Nat) (ls : List Text) :
    (shown start stop k ls).take n = shown start stop k (ls.take n) := by
  induction n generalizing k ls with
  | zero => rfl
  | succ n ih =>
    cases ls with
    | nil => rfl
    | cons l ls => rw [shown_cons,List.take_succ_cons,List.take_succ_cons,ih,shown_cons]

theorem drop_shown (n : Nat) (ls : List Text) :
    (shown start stop k ls).drop n = shown start stop (k+n) (ls.drop n) := by
  induction n generalizing k ls with
  | zero => rfl
  | succ n ih =>
    cases ls with
    | nil => rfl
    | cons l ls =>
      have hk : k+1+n = k+(n+1) := Nat.add_right_comm k 1 n
      rw [shown_cons,List.drop_succ_cons,List.drop_succ_cons,ih,hk]

theorem number_ofSource (l : Text) : (Line.ofSource start stop k l).number = k := by
  unfold Line.ofSource
  split_ifs <;> rfl

theorem marked_ofSource (l : Text) :
    (Line.ofSource start stop k l).marked = true ↔ start.1 ≤ k ∧ k ≤ stop.1 := by
  unfold Line.ofSource
  split_ifs <;> simp <;> omega

theorem map_number_shown (ls : List Text) :
    (shown start stop k ls).map Line.number = List.range' k ls.length := by
  induction ls generalizing k with
  | nil => rfl
  | cons l ls ih =>
    rw [shown_cons,List.map_cons,ih,number_ofSource,List.length_cons,List.range'_succ]

theorem filter_marked_of_le {ls : List Text} (h : k+ls.length ≤ start.1) :
    (shown start stop k ls).filter Line.marked = [] := by
  induction ls generalizing k with
  | nil => rfl
  | cons l ls ih =>
    rw [List.length_cons] at h
    have hline : ¬ (Line.ofSource start stop k l).marked = true := by
      rw [marked_ofSource]
      omega
    rw [shown_cons,List.filter_cons_of_neg hline,ih (by omega)]

/-- Between the first and the last line of a span all is coloured. -/
theorem map_lit_of_between {ls : List Text} (hstart : start.1 < k) (hstop : k+ls.length ≤ stop.1) :
    ((shown start stop k ls).filter Line.marked).map Line.lit = ls := by
  induction ls generalizing k with
  | nil => rfl
  | cons l ls ih =>
    rw [List.length_cons] at hstop
    have hline : Line.ofSource start stop k l = ⟨k,true,[],l,[]⟩ := by
      rw [Line.ofSource,if_neg (by omega),if_neg (by omega),if_pos (by omega)]
    rw [shown_cons,hline,List.filter_cons_of_pos rfl,List.map_cons,ih (by omega) (by omega)]

theorem ofSource_within (l m r : Text) : Line.ofSource (k,l.length) (k,(l ++ m).length) k
    (l ++ m ++ r) = ⟨k,true,l,m,r⟩ := by
  have hfront : (l ++ m ++ r).take l.length = l := by
    rw [List.append_assoc,List.take_left]
  rw [Line.ofSource,if_neg (by simp),if_pos rfl,if_pos rfl,hfront,List.take_left,List.drop_left,
    List.drop_left]

theorem ofSource_first (h : k < stop.1) (l m : Text) :
    Line.ofSource (k,l.length) stop k (l ++ m) = ⟨k,true,l,m,[]⟩ := by
  rw [Line.ofSource,if_neg (by simp only; omega),if_pos rfl,if_neg (by simp only; omega),
    List.take_left,List.drop_left]

theorem ofSource_last (h : start.1 < k) (n r : Text) :
    Line.ofSource start (k,n.length) k (n ++ r) = ⟨k,true,[],n,r⟩ := by
  rw [Line.ofSource,if_neg (by simp only; omega),if_neg (by omega),if_neg (by simp),List.take_left,
    List.drop_left]

/-- What is coloured of all lines of a text is what stands between the offsets. -/
theorem map_lit_splitOn {p : Text} {i j : Nat} (hij : i ≤ j) :
    ((shown (p.position i) (p.position j) 1 (p.splitOn '\n')).filter Line.marked).map Line.lit =
      ((p.take j).drop i).splitOn '\n' := by
  rcases p.cut hij with
    @⟨fs,vs,l,m,r,hi,hj,hbetween,hp⟩ | @⟨fs,ms,vs,l,m,n,r,hi,hj,hbetween,hp⟩
  · have hline := ofSource_within (k := fs.length+1) l m r
    rw [hi,hj,hbetween,hp,shown_append,shown_cons,List.filter_append,
      filter_marked_of_le (by omega),List.nil_append,Nat.add_comm 1,hline,
      List.filter_cons_of_pos rfl,shown,filter_marked_of_lt (by simp)]
    rfl
  · have hlt : fs.length+1 < fs.length+1+ms.length+1 := by omega
    have hfirst : Line.ofSource (fs.length+1,l.length) (fs.length+1+ms.length+1,n.length)
        (fs.length+1) (l ++ m) = ⟨_,true,l,m,[]⟩ := ofSource_first hlt l m
    have hlast : Line.ofSource (fs.length+1,l.length) (fs.length+1+ms.length+1,n.length)
        (fs.length+1+ms.length+1) (n ++ r) = ⟨_,true,[],n,r⟩ := ofSource_last hlt n r
    rw [hi,hj,hbetween,hp,shown_append,shown_cons,shown_append,shown_cons,List.filter_append,
      filter_marked_of_le (by omega),List.nil_append,Nat.add_comm 1,hfirst,
      List.filter_cons_of_pos rfl,List.filter_append,List.map_cons,List.map_append,
      map_lit_of_between (by simp) (by simp only; omega),Nat.add_right_comm (fs.length+1) 1,hlast,
      List.filter_cons_of_pos rfl,shown,filter_marked_of_lt (by simp)]
    rfl

theorem getElem?_shown (n : Nat) (ls : List Text) :
    (shown start stop k ls)[n]? = ls[n]?.map (Line.ofSource start stop (k+n)) := by
  induction ls generalizing k n with
  | nil => rfl
  | cons l ls ih =>
    cases n with
    | zero => rfl
    | succ n =>
      have hk : k+1+n = k+(n+1) := Nat.add_right_comm k 1 n
      rw [shown_cons,List.getElem?_cons_succ,List.getElem?_cons_succ,ih,hk]

/-- Nothing is lost of a line. -/
theorem whole_ofSource (h : start.1 = stop.1 → start.2 ≤ stop.2) (l : Text) :
    (Line.ofSource start stop k l).front ++ (Line.ofSource start stop k l).lit ++
      (Line.ofSource start stop k l).back = l := by
  unfold Line.ofSource
  split_ifs with _ _ hsame
  · simp
  · simp only [Text.take_append_stretch (h hsame),List.take_append_drop]
  · simp
  · simp
  · simp

theorem lit_ofSource_nil : (Line.ofSource start stop k []).lit = [] := by
  unfold Line.ofSource
  split_ifs <;> simp

end

section
variable {p : Text} {i j : Nat}

/-- The lines of an excerpt. -/
theorem lines_eq_shown (p : Text) (i j above below : Nat) : lines p ⟨i,j⟩ above below =
    shown (p.position i) (p.position j) (1+((p.position i).1-1-above))
      ((p.lines.take ((p.position j).1+below)).drop ((p.position i).1-1-above)) := by
  have hpos : 0 < (p.position i).1 := Nat.succ_pos _
  have hfirst : max 0 (((p.position i).1 : Int)-above-1) =
      (((p.position i).1-1-above : Nat) : Int) := by omega
  have hbehind : ((p.position j).1 : Int)+below = (((p.position j).1+below : Nat) : Int) := by omega
  have hnumber : (max 1 (((p.position i).1 : Int)-above)).toNat =
      1+((p.position i).1-1-above) := by omega
  rw [lines]
  simp only [hfirst,hbehind,hnumber,Text.slice_ofNat]
  rfl

theorem filter_take {ls : List Line} {n : Nat} (h : (ls.drop n).filter Line.marked = []) :
    (ls.take n).filter Line.marked = ls.filter Line.marked := by
  have hsplit := congrArg (List.filter Line.marked) (List.take_append_drop n ls)
  rwa [List.filter_append,h,List.append_nil] at hsplit

theorem filter_drop {ls : List Line} {n : Nat} (h : (ls.take n).filter Line.marked = []) :
    (ls.drop n).filter Line.marked = ls.filter Line.marked := by
  have hsplit := congrArg (List.filter Line.marked) (List.take_append_drop n ls)
  rwa [List.filter_append,h,List.nil_append] at hsplit

/-- All marked lines are in the excerpt. -/
theorem filter_marked_lines (p : Text) (i j above below : Nat) :
    (lines p ⟨i,j⟩ above below).filter Line.marked =
      (shown (p.position i) (p.position j) 1 p.lines).filter Line.marked := by
  have hpos : 0 < (p.position i).1 := Nat.succ_pos _
  rw [lines_eq_shown,← drop_shown,← take_shown,filter_drop,filter_take]
  · rw [drop_shown]
    exact filter_marked_of_lt (by omega) _
  · rw [take_shown,take_shown]
    apply filter_marked_of_le
    rw [List.length_take]
    omega

/-- What is coloured in the lines of a program. -/
def coloured (p : Text) (i j : Nat) : List Text :=
  ((shown (p.position i) (p.position j) 1 p.lines).filter Line.marked).map Line.lit

theorem map_lit_append (hp : p ≠ []) (hfeed : p.FeedsOnly) (hij : i ≤ j) :
    coloured p i j ++ ((shown (p.position i) (p.position j) (1+p.lines.length)
      (if p.getLast? = some '\n' then [[]] else [])).filter Line.marked).map Line.lit =
        ((p.take j).drop i).splitOn '\n' := by
  have hall := map_lit_splitOn (p := p) hij
  rwa [Text.splitOn_eq_lines hfeed hp,shown_append,List.filter_append,List.map_append] at hall

theorem length_lines (hp : p ≠ []) (hfeed : p.FeedsOnly) (hlast : p.getLast? = some '\n') :
    p.lines.length = p.count '\n' := by
  have hlength := congrArg List.length (Text.splitOn_eq_lines hfeed hp)
  rw [Text.length_splitOn,List.length_append,if_pos hlast] at hlength
  exact (Nat.succ.inj hlength).symm

/-- The lines of what stands between the offsets are coloured. -/
theorem coloured_eq (hp : p ≠ []) (hfeed : p.FeedsOnly) (hij : i ≤ j) (hj : j ≤ p.length)
    (hend : j = p.length → p.getLast? ≠ some '\n') :
    coloured p i j = ((p.take j).drop i).splitOn '\n' := by
  rw [← map_lit_append hp hfeed hij]
  split
  · rename_i hlast
    -- the nothing behind the last line feed is not reached
    have hlt := Nat.lt_of_le_of_ne hj fun h => hend h hlast
    have hfeeds := Text.feeds_lt_count hlast hlt
    have hbehind : (p.position j).1 < 1+p.lines.length := by
      rw [length_lines hp hfeed hlast,Text.position_ofNat]
      simp only
      omega
    rw [shown,filter_marked_of_lt hbehind]
    exact (List.append_nil _).symm
  · exact (List.append_nil _).symm

/-- Up to the end of a program that ends with a line feed, nothing is the last of these lines, and
there is no line of the program for it. -/
theorem coloured_append_nil (hp : p ≠ []) (hfeed : p.FeedsOnly) (hi : i ≤ p.length)
    (hlast : p.getLast? = some '\n') :
    coloured p i p.length ++ [[]] = (p.drop i).splitOn '\n' := by
  have hmono := p.position_mono hi
  have hstop : (p.position p.length).1 = 1+p.lines.length := by
    rw [length_lines hp hfeed hlast,Text.position_ofNat,Text.feeds,List.take_length,Nat.add_comm]
  have hmarked : (Line.ofSource (p.position i) (p.position p.length) (1+p.lines.length)
      []).marked = true := by
    rw [marked_ofSource]
    omega
  have hall := map_lit_append hp hfeed hi
  rwa [if_pos hlast,shown_cons,List.filter_cons_of_pos hmarked,List.map_cons,lit_ofSource_nil,
    List.take_length] at hall

/-- What is coloured is what stands between the offsets, but for a line feed at the end of the
program. -/
theorem join_coloured (hp : p ≠ []) (hfeed : p.FeedsOnly) (hij : i ≤ j) (hj : j ≤ p.length) :
    Text.join ['\n'] (coloured p i j) =
      if j = p.length ∧ p.getLast? = some '\n' ∧ i < j then ((p.take j).drop i).dropLast
      else (p.take j).drop i := by
  by_cases hend : j = p.length ∧ p.getLast? = some '\n'
  · obtain ⟨rfl,hlast⟩ := hend
    have hall := coloured_append_nil hp hfeed hij hlast
    rw [List.take_length]
    by_cases hnil : coloured p i p.length = []
    · rw [hnil] at hall
      have hdrop := Text.eq_nil_of_splitOn hall.symm
      rw [hnil,hdrop]
      split <;> rfl
    · have hlt : i < p.length := by
        apply Nat.lt_of_not_le
        intro hle
        rw [List.drop_eq_nil_of_le hle,List.splitOn_nil] at hall
        exact hnil (List.append_inj' (hall.trans (List.nil_append [[]]).symm) rfl).1
      have hjoin := Text.join_splitOn (p.drop i)
      rw [← hall,Text.join_append_nil hnil] at hjoin
      rw [if_pos ⟨rfl,hlast,hlt⟩,← hjoin,List.dropLast_concat]
  · rw [if_neg fun h => hend ⟨h.1,h.2.1⟩,coloured_eq hp hfeed hij hj fun h hlast => hend ⟨h,hlast⟩]
    exact Text.join_splitOn _

end

/-- The lines shown for the stretch from `i` up to `j`, with `above` lines before and `below` lines
behind it as far as there are any. -/
structure Shows (p : Text) (i j above below : Nat) (rows : List Line) : Prop where
  numbers : rows.map Line.number = List.range' (max 1 ((p.position i).1-above))
    (min p.lines.length ((p.position j).1+below)+1-max 1 ((p.position i).1-above))
  marked : ∀ r ∈ rows,
    r.marked = true ↔ (p.position i).1 ≤ r.number ∧ r.number ≤ (p.position j).1
  whole : ∀ r ∈ rows, p.lines[r.number-1]? = some (r.front ++ r.lit ++ r.back)
  lit : Text.join ['\n'] ((rows.filter Line.marked).map Line.lit) =
    if j = p.length ∧ p.getLast? = some '\n' ∧ i < j then ((p.take j).drop i).dropLast
    else (p.take j).drop i

/-- A number behind spaces that fill up `width` columns. -/
def Aligned (width k : Nat) (t : Text) : Prop :=
  ∃ n, t = Text.spaces n ++ Text.ofNat k ∧ t.length = width

/-- What is printed for a line: its number, and all of it. One part of a marked line is coloured. -/
inductive Prints (color : Color) (width : Nat) : Line → Text → Prop
  | marked {k : Nat} {no front lit back : Text} (h : Aligned width k no) :
      Prints color width ⟨k,true,front,lit,back⟩ ("-> ".toList ++ no ++ ". ".toList ++ front ++
        color.sequence ++ lit ++ Color.plain.sequence ++ back)
  | unmarked {k : Nat} {no line : Text} (h : Aligned width k no) :
      Prints color width ⟨k,false,line,[],[]⟩ ("   ".toList ++ no ++ ". ".toList ++ line)

theorem length_ofNat_mono {m n : Nat} (h : m ≤ n) :
    (Text.ofNat m).length ≤ (Text.ofNat n).length := by
  have hn := (Nat.length_toDigits_le_iff (n := n) (by decide) Nat.length_toDigits_pos).1
    (Nat.le_refl (Nat.toDigits 10 n).length)
  exact (Nat.length_toDigits_le_iff (by decide) Nat.length_toDigits_pos).2 (Nat.lt_of_le_of_lt h hn)

theorem aligned {width k : Nat} (h : (Text.ofNat k).length ≤ width) :
    Aligned width k (Text.spaces (width-(Text.ofNat k).length) ++ Text.ofNat k) := by
  refine ⟨_,rfl,?_⟩
  rw [List.length_append,Text.spaces,List.length_replicate,Nat.sub_add_cancel h]

theorem prints_render {width : Nat} {l : Line} (color : Color)
    (h : (Text.ofNat l.number).length ≤ width)
    (hplain : l.marked = false → l.lit = [] ∧ l.back = []) :
    Prints color width l (l.render color width) := by
  obtain ⟨k,marked,front,lit,back⟩ := l
  cases marked with
  | true => exact .marked (aligned h)
  | false =>
    obtain ⟨rfl,rfl⟩ := hplain rfl
    exact .unmarked (aligned h)

theorem plain_ofSource {start stop : Nat × Nat} {k : Nat} {l : Text}
    (h : (Line.ofSource start stop k l).marked = false) :
    (Line.ofSource start stop k l).lit = [] ∧ (Line.ofSource start stop k l).back = [] := by
  have hout : k < start.1 ∨ stop.1 < k := by
    have hnot := mt (marked_ofSource l).2 (Bool.eq_false_iff.1 h)
    omega
  rw [Line.ofSource,if_pos hout]
  exact ⟨rfl,rfl⟩

section
variable {p : Text} {i j : Nat}

theorem exists_of_mem_lines {above below : Nat} {r : Line}
    (h : r ∈ lines p ⟨i,j⟩ above below) : ∃ k l, p.lines[k]? = some l ∧
      r = Line.ofSource (p.position i) (p.position j) (k+1) l := by
  obtain ⟨n,hn⟩ := List.mem_iff_getElem?.1 h
  rw [lines_eq_shown,getElem?_shown,Option.map_eq_some_iff] at hn
  obtain ⟨l,hl,rfl⟩ := hn
  rw [List.getElem?_drop,List.getElem?_take] at hl
  split at hl
  · exact ⟨_,l,hl,by rw [Nat.add_assoc,Nat.add_comm 1]⟩
  · cases hl

theorem map_number_lines (above below : Nat) :
    (lines p ⟨i,j⟩ above below).map Line.number = List.range' (max 1 ((p.position i).1-above))
      (min p.lines.length ((p.position j).1+below)+1-max 1 ((p.position i).1-above)) := by
  have hpos : 0 < (p.position i).1 := Nat.succ_pos _
  rw [lines_eq_shown,map_number_shown,List.length_drop,List.length_take]
  congr 1 <;> omega

theorem shows_lines (hp : p ≠ []) (hfeed : p.FeedsOnly) (hij : i ≤ j) (hj : j ≤ p.length)
    (above below : Nat) :
    Shows p i j above below (lines p ⟨i,j⟩ above below) where
  numbers := map_number_lines above below
  marked := by
    intro r hr
    obtain ⟨k,l,-,rfl⟩ := exists_of_mem_lines hr
    rw [marked_ofSource,number_ofSource]
  whole := by
    intro r hr
    obtain ⟨k,l,hl,rfl⟩ := exists_of_mem_lines hr
    rw [number_ofSource,Nat.add_sub_cancel,hl,whole_ofSource]
    have hmono := p.position_mono hij
    omega
  lit := by
    rw [filter_marked_lines]
    exact join_coloured hp hfeed hij hj

/-- The number of the last line shown. -/
theorem last_number {above below : Nat} (h : lines p ⟨i,j⟩ above below ≠ []) :
    (lines p ⟨i,j⟩ above below).getLast?.map Line.number =
      some (min p.lines.length ((p.position j).1+below)) := by
  have hnumbers := map_number_lines (p := p) (i := i) (j := j) above below
  have hlength := congrArg List.length hnumbers
  have hpos := List.length_pos_iff.2 h
  rw [List.length_map,List.length_range'] at hlength
  rw [← List.getLast?_map,hnumbers,List.getLast?_range',if_neg (by omega)]
  congr 1
  omega

theorem forall_prints (color : Color) (above below : Nat) : List.Forall₂
    (Prints color (Text.ofNat (min p.lines.length ((p.position j).1+below))).length)
    (lines p ⟨i,j⟩ above below) (render color (lines p ⟨i,j⟩ above below)) := by
  by_cases hnil : lines p ⟨i,j⟩ above below = []
  · rw [hnil]
    exact .nil
  rw [render,last_number hnil,List.forall₂_map_right_iff,List.forall₂_same]
  intro r hr
  have hnumber := List.mem_map_of_mem (f := Line.number) hr
  rw [map_number_lines,List.mem_range'_1] at hnumber
  apply prints_render
  · apply length_ofNat_mono
    omega
  · obtain ⟨k,l,-,rfl⟩ := exists_of_mem_lines hr
    exact plain_ofSource

end
end Excerpt

namespace Notice

/-- The excerpt shows the lines around the stretch and no others, each with its number and as it
stands in the program, and colours just the stretch. -/
theorem render_exact (n : Notice) (p : Text) (hp : p ≠ []) (hfeed : p.FeedsOnly) (i j : Nat)
    (hij : i ≤ j) (hj : j ≤ p.length) (above below : Nat) :
    ∃ rows printed, Excerpt.Shows p i j above below rows ∧
      List.Forall₂ (Excerpt.Prints n.color
        (Text.ofNat (min p.lines.length ((p.position j).1+below))).length) rows printed ∧
      {n with above := above,below := below}.render p ⟨i,j⟩ =
        Text.join ['\n'] ((n.label ++ ": ".toList ++ n.before) :: printed ++
          if n.after = [] then [] else [n.after]) := by
  refine ⟨_,_,Excerpt.shows_lines hp hfeed hij hj above below,
    Excerpt.forall_prints n.color above below,?_⟩
  have hempty : p.isEmpty = false := by simpa using hp
  have hknown : Span.isUnknown ⟨i,j⟩ = false := by simp [Span.isUnknown]
  rw [render,hempty,hknown]
  rfl

/-- The stretch ends behind the last line feed, where no line is left to be shown. -/
theorem render_exact_last : ∃ (p : Text) (n : Notice) (rows : List Excerpt.Line)
    (printed : List Text), p = "1\n2\n3\n4\n5\n6\n7\n8\nnine\nten\n".toList ∧ p ≠ [] ∧
      p.FeedsOnly ∧ 18 ≤ 25 ∧ 25 ≤ p.length ∧
      Excerpt.Shows p 18 25 1 1 rows ∧ List.Forall₂ (Excerpt.Prints n.color 2) rows printed ∧
      n.render p ⟨18,25⟩ = Text.join ['\n'] ("Error: here".toList :: printed) ∧
      n.render p ⟨18,25⟩ = ("Error: here\n" ++ "    8. 8\n" ++ "->  9. ni\x1b[31mne\x1b[m\n" ++
        "-> 10. \x1b[31mten\x1b[m").toList := by
  let p : Text := "1\n2\n3\n4\n5\n6\n7\n8\nnine\nten\n".toList
  let n : Notice := {label := "Error".toList,before := "here".toList}
  obtain ⟨rows,printed,hshows,hprints,hrender⟩ :=
    render_exact n p (by decide) (by decide) 18 25 (by decide) (by decide) 1 1
  have hwidth : (Text.ofNat (min p.lines.length ((p.position 25).1+1))).length = 2 := by
    decide +kernel
  have htext : n.render p ⟨18,25⟩ = Text.join ['\n'] ("Error: here".toList :: printed) := by
    rw [← List.append_nil printed]
    exact hrender
  rw [← hwidth]
  exact ⟨p,n,rows,printed,rfl,by decide,by decide,by decide,by decide,hshows,hprints,htext,
    by decide +kernel⟩

end Notice
end AssignLang
