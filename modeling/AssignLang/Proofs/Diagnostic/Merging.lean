import AssignLang.Diagnostic.Console
import Mathlib.Data.List.Forall2
import Mathlib.Data.List.SplitBy

namespace AssignLang

/-- The offsets from the start of a span up to its end. -/
def Span.offsets (s : Span) : List Int :=
  (List.range (s.stop-s.start).toNat).map fun k : Nat => s.start+k

theorem Span.offsets_append {i j k : Int} (hij : i ≤ j) (hjk : j ≤ k) :
    Span.offsets ⟨i,j⟩ ++ Span.offsets ⟨j,k⟩ = Span.offsets ⟨i,k⟩ := by
  have hlength : (k-i).toNat = (j-i).toNat+(k-j).toNat := by omega
  have hmove (n : Nat) : i+((j-i).toNat+n : Nat) = j+n := by omega
  simp only [offsets,hlength,List.range_add,List.map_append,List.map_map]
  congr 1
  apply List.map_congr_left
  intro n _
  exact (hmove n).symm

namespace Warning

/-- A warning at a place that is known and does not end before it starts. -/
def IsPlaced (w : Warning) : Prop := 0 ≤ w.span.start ∧ w.span.start ≤ w.span.stop

/-- What warnings are about: all offsets they cover, each with its program. -/
def coverage (ws : List Warning) : List (Source × Int) :=
  ws.flatMap fun w => w.span.offsets.map (w.source,·)

/-- The only way to cut warnings into blocks that are as long as can be, where each warning of a
block adjoins the next one. -/
structure Blocks (ws : List Warning) (bs : List (List Warning)) : Prop where
  flatten : bs.flatten = ws
  nonempty : [] ∉ bs
  adjoin : ∀ b ∈ bs, b.IsChain fun u w => u.adjoins w
  apart : bs.IsChain fun a b => ∃ u w, a.getLast? = some u ∧ b.head? = some w ∧ ¬ u.adjoins w

/-- The last warning of a block, from where the first one starts. -/
def Merges (block : List Warning) (w : Warning) : Prop :=
  ∃ first last, block.head? = some first ∧ block.getLast? = some last ∧
    w = {last with span := ⟨first.span.start,last.span.stop⟩}

/-- Goes through a queue of `count` warnings from place `i` on. A warning that adjoins the next one
is taken out after the next one took over its place. -/
inductive Sweeps : List Warning → Nat → Nat → List Warning → Prop
  | done {ws : List Warning} {count i : Nat} (h : ¬ i+1 < count) : Sweeps ws count i ws
  | merge {ws ws' : List Warning} {count i : Nat} {a b : Warning} (h : i+1 < count)
      (ha : ws[i]? = some a) (hb : ws[i+1]? = some b) (hab : a.adjoins b)
      (hs : Sweeps ((ws.set (i+1) (a.widen b)).eraseIdx i) (count-1) i ws') :
      Sweeps ws count i ws'
  | pass {ws ws' : List Warning} {count i : Nat} {a b : Warning} (h : i+1 < count)
      (ha : ws[i]? = some a) (hb : ws[i+1]? = some b) (hab : ¬ a.adjoins b)
      (hs : Sweeps ws count (i+1) ws') : Sweeps ws count i ws'

theorem Sweeps.unique {ws us vs : List Warning} {count i : Nat} (hu : Sweeps ws count i us)
    (hv : Sweeps ws count i vs) : us = vs := by
  induction hu with
  | done h =>
    cases hv with
    | done _ => rfl
    | merge h' => exact absurd h' h
    | pass h' => exact absurd h' h
  | merge h ha hb hab hs ih =>
    cases hv with
    | done h' => exact absurd h h'
    | merge _ ha' hb' _ hs' =>
      rw [ha] at ha'
      rw [hb] at hb'
      cases ha'
      cases hb'
      exact ih hs'
    | pass _ ha' hb' hab' _ =>
      rw [ha] at ha'
      rw [hb] at hb'
      cases ha'
      cases hb'
      exact absurd hab hab'
  | pass h ha hb hab hs ih =>
    cases hv with
    | done h' => exact absurd h h'
    | merge _ ha' hb' hab' _ =>
      rw [ha] at ha'
      rw [hb] at hb'
      cases ha'
      cases hb'
      exact absurd hab' hab
    | pass _ _ _ _ hs' => exact ih hs'

/-- In front of place `i` nothing is touched any more. -/
theorem sweeps_combineFrom (front : List Warning) (a : Warning) (r : List Warning) :
    Sweeps (front ++ a :: r) (front ++ a :: r).length front.length
      (front ++ combineFrom a r) := by
  induction r generalizing front a with
  | nil =>
    apply Sweeps.done
    simp
  | cons b r ih =>
    have hcount : front.length+1 < (front ++ a :: b :: r).length := by simp
    have ha : (front ++ a :: b :: r)[front.length]? = some a := by simp
    have hb : (front ++ a :: b :: r)[front.length+1]? = some b := by simp
    by_cases hab : a.adjoins b
    · have hqueue : ((front ++ a :: b :: r).set (front.length+1) (a.widen b)).eraseIdx
          front.length = front ++ a.widen b :: r := by
        simp [List.eraseIdx_append_of_length_le]
      have hless : (front ++ a :: b :: r).length-1 = (front ++ a.widen b :: r).length := by simp
      apply Sweeps.merge hcount ha hb hab
      rw [hqueue,hless,combineFrom,if_pos hab]
      exact ih front (a.widen b)
    · have hnext := ih (front ++ [a]) b
      simp only [List.append_assoc,List.singleton_append,List.length_append,List.length_singleton]
        at hnext
      apply Sweeps.pass hcount ha hb hab
      rw [combineFrom,if_neg hab,List.length_append]
      exact hnext

/-- Going through the whole queue comes to an end, with nothing else than the combined warnings. -/
theorem sweeps_iff (ws us : List Warning) : Sweeps ws ws.length 0 us ↔ us = combine ws := by
  have hends : Sweeps ws ws.length 0 (combine ws) := by
    cases ws with
    | nil => exact .done (by simp)
    | cons a r => exact sweeps_combineFrom [] a r
  constructor
  · intro h
    exact h.unique hends
  · intro h
    rw [h]
    exact hends

section
variable {a b w : Warning} {r : List Warning}

theorem adjoins_iff : a.adjoins b ↔
    a.illegal ∧ b.illegal ∧ a.span.stop = b.span.start ∧ a.source = b.source := by
  simp [adjoins,and_assoc]

/-- The offsets of two warnings that adjoin are those from the start of the first one up to the end
of the second one. -/
theorem span_widen (ha : a.IsPlaced) (hb : b.IsPlaced) (h : a.adjoins b) :
    (a.widen b).span = ⟨a.span.start,b.span.stop⟩ := by
  have hmeet := (adjoins_iff.1 h).2.2.1
  have hknown : ¬ a.span.start < 0 ∧ ¬ b.span.start < 0 := by
    have ha' := ha.1
    have hb' := hb.1
    omega
  have hmin : min a.span.start b.span.start = a.span.start := by
    have ha' := ha.2
    omega
  have hmax : max a.span.stop b.span.stop = b.span.stop := by
    have hb' := hb.2
    omega
  simp [widen,Span.join,Span.isUnknown,hknown.1,hknown.2,hmin,hmax]

theorem isPlaced_widen (ha : a.IsPlaced) (hb : b.IsPlaced) (h : a.adjoins b) :
    (a.widen b).IsPlaced := by
  have hmeet := (adjoins_iff.1 h).2.2.1
  have ha' := ha.2
  have hb' := hb.2
  rw [IsPlaced,span_widen ha hb h]
  exact ⟨ha.1,show a.span.start ≤ b.span.stop by omega⟩

/-- Merging two warnings covers what they cover, in the same order. -/
theorem coverage_widen (ha : a.IsPlaced) (hb : b.IsPlaced) (h : a.adjoins b) :
    coverage (a.widen b :: r) = coverage (a :: b :: r) := by
  have hmeet := (adjoins_iff.1 h).2.2.1
  have hsource := (adjoins_iff.1 h).2.2.2
  have hsplit : a.span.offsets ++ b.span.offsets = (a.widen b).span.offsets := by
    have hstart : a.span.stop ≤ b.span.stop := by
      rw [hmeet]
      exact hb.2
    have hsecond : b.span = ⟨a.span.stop,b.span.stop⟩ := by rw [hmeet]
    rw [span_widen ha hb h,← Span.offsets_append ha.2 hstart,← hsecond]
  have hname : (a.widen b).source = b.source := rfl
  simp only [coverage,List.flatMap_cons,← hsplit,hname,hsource,List.map_append,
    List.append_assoc]

theorem coverage_combineFrom (ha : a.IsPlaced) (hr : ∀ w ∈ r, w.IsPlaced) :
    coverage (combineFrom a r) = coverage (a :: r) := by
  induction r generalizing a with
  | nil => rfl
  | cons b r ih =>
    have hplaced := List.forall_mem_cons.1 hr
    have hb := hplaced.1
    by_cases hab : a.adjoins b
    · rw [combineFrom,if_pos hab,ih (isPlaced_widen ha hb hab) hplaced.2,coverage_widen ha hb hab]
    · have hrest := ih hb hplaced.2
      simp only [coverage] at hrest
      simp only [combineFrom,if_neg hab,coverage,List.flatMap_cons,hrest]

/-- A warning that adjoins the first one of a queue adjoins what becomes of it, and no other
does. -/
theorem adjoins_head_combineFrom (ha : a.IsPlaced) (hr : ∀ w ∈ r, w.IsPlaced) :
    ∀ u ∈ (combineFrom a r).head?, w.adjoins u = w.adjoins a := by
  induction r generalizing a with
  | nil => simp [combineFrom]
  | cons b r ih =>
    have hplaced := List.forall_mem_cons.1 hr
    have hb := hplaced.1
    by_cases hab : a.adjoins b
    · intro u hu
      have hadjoins := adjoins_iff.1 hab
      have hsame : w.adjoins (a.widen b) = w.adjoins a := by
        have hspan := span_widen ha hb hab
        have hillegal : (a.widen b).illegal = b.illegal := rfl
        have hsource : (a.widen b).source = b.source := rfl
        simp [adjoins,hspan,hillegal,hsource,hadjoins.1,hadjoins.2.1,hadjoins.2.2.2]
      rw [combineFrom,if_pos hab] at hu
      rw [ih (isPlaced_widen ha hb hab) hplaced.2 u hu,hsame]
    · simp [combineFrom,hab]

theorem isChain_combineFrom (ha : a.IsPlaced) (hr : ∀ w ∈ r, w.IsPlaced) :
    (combineFrom a r).IsChain fun u w => ¬ u.adjoins w := by
  induction r generalizing a with
  | nil => simp [combineFrom]
  | cons b r ih =>
    have hplaced := List.forall_mem_cons.1 hr
    have hb := hplaced.1
    by_cases hab : a.adjoins b
    · rw [combineFrom,if_pos hab]
      exact ih (isPlaced_widen ha hb hab) hplaced.2
    · rw [combineFrom,if_neg hab,List.isChain_cons]
      constructor
      · intro u hu
        rw [adjoins_head_combineFrom hb hplaced.2 u hu]
        exact hab
      · exact ih hb hplaced.2

/-- Where nothing adjoins there is nothing to combine. -/
theorem combineFrom_of_isChain (h : (a :: r).IsChain fun u w => ¬ u.adjoins w) :
    combineFrom a r = a :: r := by
  induction r generalizing a with
  | nil => rfl
  | cons b r ih =>
    rw [List.isChain_cons_cons] at h
    rw [combineFrom,if_neg h.1,ih h.2]

theorem coverage_combine {ws : List Warning} (h : ∀ w ∈ ws, w.IsPlaced) :
    coverage (combine ws) = coverage ws := by
  cases ws with
  | nil => rfl
  | cons a r =>
    have hr := List.forall_mem_cons.1 h
    exact coverage_combineFrom hr.1 hr.2

theorem isChain_combine {ws : List Warning} (h : ∀ w ∈ ws, w.IsPlaced) :
    (combine ws).IsChain fun u w => ¬ u.adjoins w := by
  cases ws with
  | nil => exact .nil
  | cons a r =>
    have hr := List.forall_mem_cons.1 h
    exact isChain_combineFrom hr.1 hr.2

theorem combine_of_isChain {ws : List Warning} (h : ws.IsChain fun u w => ¬ u.adjoins w) :
    combine ws = ws := by
  cases ws with
  | nil => rfl
  | cons a r => exact combineFrom_of_isChain h

end

theorem blocks_iff (ws : List Warning) (bs : List (List Warning)) :
    Blocks ws bs ↔ ws.splitBy adjoins = bs := by
  have hapart (a b : List Warning) :
      (∃ u w, a.getLast? = some u ∧ b.head? = some w ∧ ¬ u.adjoins w) ↔
        ∃ ha hb, (a.getLast ha).adjoins (b.head hb) = false := by
    rcases List.eq_nil_or_concat a with ha | ⟨front,u,ha⟩
    · simp [ha]
    · cases b with
      | nil => simp
      | cons w back => simp [ha]
  rw [List.splitBy_eq_iff]
  constructor
  · intro h
    exact ⟨h.flatten.symm,h.nonempty,h.adjoin,h.apart.imp fun a b => (hapart a b).1⟩
  · intro h
    exact ⟨h.1.symm,h.2.1,h.2.2.1,h.2.2.2.imp fun a b => (hapart a b).2⟩

/-- A block and its merged warning, and one more warning. -/
theorem Merges.snoc {block : List Warning} {a b : Warning} (h : Merges block a) (ha : a.IsPlaced)
    (hb : b.IsPlaced) (hab : a.adjoins b) : Merges (block ++ [b]) (a.widen b) := by
  obtain ⟨first,last,hfirst,-,hmerged⟩ := h
  have hstart : a.span.start = first.span.start := by rw [hmerged]
  refine ⟨first,b,?_,by simp,?_⟩
  · rw [List.head?_append,hfirst]
    rfl
  · rw [← hstart,← span_widen ha hb hab]
    rfl

theorem Merges.adjoins_eq {block : List Warning} {a : Warning} (h : Merges block a)
    (b : Warning) : ∀ last ∈ block.getLast?, last.adjoins b = a.adjoins b := by
  obtain ⟨first,last,-,hlast,hmerged⟩ := h
  intro u hu
  rw [hlast] at hu
  cases hu
  rw [hmerged]
  rfl

/-- While the queue is gone through, `a` stands for the block in front of what is left. -/
theorem merges_combineFrom {block r : List Warning} {a : Warning} (h : Merges block a)
    (hblock : block.IsChain fun u w => u.adjoins w) (ha : a.IsPlaced)
    (hr : ∀ w ∈ r, w.IsPlaced) :
    List.Forall₂ Merges ((block ++ r).splitBy adjoins) (combineFrom a r) := by
  have hne : block ≠ [] := by
    obtain ⟨first,last,hfirst,-⟩ := h
    intro hnil
    simp [hnil] at hfirst
  have hwhole := List.splitBy_of_isChain hne hblock
  induction r generalizing block a with
  | nil =>
    rw [List.append_nil,hwhole]
    exact .cons h .nil
  | cons b r ih =>
    have hplaced := List.forall_mem_cons.1 hr
    have hb := hplaced.1
    by_cases hab : a.adjoins b
    · have hlonger : (block ++ [b]).IsChain fun u w => u.adjoins w := by
        rw [List.isChain_append]
        refine ⟨hblock,List.isChain_singleton b,?_⟩
        intro last hlast w hw
        cases hw
        rw [h.adjoins_eq b last hlast]
        exact hab
      have hmore : block ++ [b] ≠ [] := by simp
      have hrest := ih (h.snoc ha hb hab) hlonger (isPlaced_widen ha hb hab) hplaced.2 hmore
        (List.splitBy_of_isChain hmore hlonger)
      rw [List.append_assoc,List.singleton_append] at hrest
      rw [combineFrom,if_pos hab]
      exact hrest
    · have hcut : ∀ last ∈ block.getLast?, last.adjoins b = false := by
        intro last hlast
        rw [h.adjoins_eq b last hlast]
        simpa using hab
      have hsingle : Merges [b] b := ⟨b,b,rfl,rfl,rfl⟩
      have hrest := ih hsingle (List.isChain_singleton b) hb hplaced.2 (by simp)
        (List.splitBy_of_isChain (by simp) (List.isChain_singleton b))
      rw [List.splitBy_append_cons r hcut,hwhole,combineFrom,if_neg hab]
      exact .cons h hrest

/-- Each block gives one warning. -/
theorem merges_combine {ws : List Warning} (h : ∀ w ∈ ws, w.IsPlaced) :
    List.Forall₂ Merges (ws.splitBy adjoins) (combine ws) := by
  cases ws with
  | nil => exact .nil
  | cons a r =>
    have hr := List.forall_mem_cons.1 h
    have hsingle : Merges [a] a := ⟨a,a,rfl,rfl,rfl⟩
    exact merges_combineFrom hsingle (List.isChain_singleton a) hr.1 hr.2

/-- What is a block by itself stays as it is. -/
theorem sublist_of_merges {bs : List (List Warning)} {ws : List Warning}
    (h : List.Forall₂ Merges bs ws) :
    List.Sublist (bs.filter fun b => b.length = 1).flatten ws := by
  induction h with
  | nil => simp
  | @cons b w bs ws hb hs ih =>
    by_cases hone : b.length = 1
    · obtain ⟨a,ha⟩ := List.length_eq_one_iff.1 hone
      obtain ⟨first,last,hfirst,hlast,hmerged⟩ := hb
      rw [ha] at hfirst hlast
      cases hfirst
      cases hlast
      rw [List.filter_cons_of_pos (by simpa using hone),List.flatten_cons,ha,hmerged]
      exact ih.cons_cons a
    · rw [List.filter_cons_of_neg (by simpa using hone)]
      exact ih.cons w

end Warning

namespace Console

open Warning (IsPlaced Blocks Merges Sweeps coverage)

/-- Combining comes to an end, and leaves one warning for each block of warnings about neighbouring
illegal characters. It loses and invents nothing, and leaves nothing to be combined. -/
theorem combine_merges_blocks (c : Console) (h : ∀ w ∈ c.warnings, w.IsPlaced) :
    (∀ ws, Sweeps c.warnings c.warnings.length 0 ws ↔ ws = c.combine.warnings) ∧
    (∃ bs, Blocks c.warnings bs ∧ (∀ bs', Blocks c.warnings bs' → bs' = bs) ∧
      List.Forall₂ Merges bs c.combine.warnings ∧
      List.Sublist (bs.filter fun b => b.length = 1).flatten c.combine.warnings) ∧
    coverage c.combine.warnings = coverage c.warnings ∧
    (c.combine.warnings.IsChain fun u w => ¬ u.adjoins w) ∧
    c.combine.combine = c.combine ∧
    c.combine.problems = c.problems ∧ c.combine.printed = c.printed := by
  have hmerges := Warning.merges_combine h
  have hchain := Warning.isChain_combine h
  have hblocks := Warning.blocks_iff c.warnings
  refine ⟨Warning.sweeps_iff c.warnings,
    ⟨_,(hblocks _).2 rfl,?_,hmerges,Warning.sublist_of_merges hmerges⟩,
    Warning.coverage_combine h,hchain,?_,rfl,rfl⟩
  · intro bs' hbs'
    exact ((hblocks bs').1 hbs').symm
  · have hagain := Warning.combine_of_isChain hchain
    simp [Console.combine,hagain]

/-- One block goes over an empty place. The others are kept apart by another program, and by a
warning that is not about an illegal character. -/
theorem combine_merges_blocks_four : ∃ (p q : Source) (c : Console),
    c.warnings = [⟨p,⟨0,1⟩,true,none⟩,⟨p,⟨1,1⟩,true,none⟩,⟨p,⟨1,2⟩,true,some 7⟩,
      ⟨q,⟨2,3⟩,true,none⟩,⟨p,⟨3,4⟩,false,none⟩,⟨p,⟨4,5⟩,true,none⟩] ∧
    (∀ w ∈ c.warnings, w.IsPlaced) ∧
    Sweeps c.warnings 6 0 [⟨p,⟨0,2⟩,true,some 7⟩,⟨q,⟨2,3⟩,true,none⟩,⟨p,⟨3,4⟩,false,none⟩,
      ⟨p,⟨4,5⟩,true,none⟩] ∧
    ∃ bs, Blocks c.warnings bs ∧ bs.map List.length = [3,1,1,1] ∧
      List.Forall₂ Merges bs c.combine.warnings := by
  let p : Source := ⟨"@# ~$".toList,0⟩
  let q : Source := ⟨"@#$".toList,0⟩
  let c : Console := {warnings := [⟨p,⟨0,1⟩,true,none⟩,⟨p,⟨1,1⟩,true,none⟩,⟨p,⟨1,2⟩,true,some 7⟩,
    ⟨q,⟨2,3⟩,true,none⟩,⟨p,⟨3,4⟩,false,none⟩,⟨p,⟨4,5⟩,true,none⟩]}
  have hplaced : ∀ w ∈ c.warnings, w.IsPlaced := by simp [c,IsPlaced]
  obtain ⟨hsweeps,⟨bs,hblocks,-,hmerges,-⟩,-⟩ := combine_merges_blocks c hplaced
  refine ⟨p,q,c,rfl,hplaced,(hsweeps _).2 (by decide +kernel),bs,hblocks,?_,hmerges⟩
  rw [← (Warning.blocks_iff _ _).1 hblocks]
  decide +kernel

end Console
end AssignLang
