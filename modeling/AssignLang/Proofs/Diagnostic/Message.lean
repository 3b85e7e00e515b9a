import AssignLang.Proofs.Diagnostic.Excerpt
import AssignLang.Proofs.Diagnostic.Skipped
import AssignLang.Proofs.Token.Progress
import AssignLang.Proofs.Tree.Definedness

namespace AssignLang

open Excerpt Grammar

namespace Source

/-- A message with an excerpt, which points at the place it is about if and only if counting line
feeds leads there. -/
def Shows (s : Source) (span : Span) (color : Color) (message : Text) : Prop :=
  ∃ (i j : Nat) (wording : Text), span = ⟨i,j⟩ ∧
    message = Text.join ['\n'] (wording :: render color (lines s.text span 1 1)) ∧
    (Pinpoints s.text (lines s.text span 1 1) i j ↔ s.text.Counted i j)

/-- A failure on account of a program tells of one problem in it, or of nesting. -/
def Blames (s : Source) : Failure → Prop
  | .stopped _ ps => ∃ p, ps = [p] ∧ s.Shows p.span .red p.message
  | .tooDeep => True
  | _ => False

/-- The characters from `r.1` up to `r.2` are skipped, at least one. -/
def Skips (s : Source) (r : Nat × Nat) : Prop :=
  r.1 < r.2 ∧ ∀ k, r.1 ≤ k → k < r.2 → s.IsSkipped k

/-- What waits to be reported are problems in this program and characters of it that were
skipped. -/
structure Awaits (s : Source) (c : Console) : Prop where
  problems : ∀ p ∈ c.problems, s.Shows p.span .red p.message
  warnings : ∃ rs : List (Nat × Nat), c.warnings = rs.map s.warning ∧ ∀ r ∈ rs, s.Skips r

/-- What was printed meanwhile are warnings that point at places in this program. -/
def Tells (s : Source) (c c' : Console) : Prop :=
  s.Awaits c' ∧ ∃ wss : List (List Warning),
    c'.printed = c.printed ++ wss.flatMap Warning.renderAll ∧
    ∀ ws ∈ wss, ∀ w ∈ ws, s.Shows w.span .yellow w.message

variable {s : Source} {i j : Nat} {c c' : Console}

theorem shows_of_flat (hs : s.text ≠ []) (h : s.text.Flat i j) (label before : Text)
    (color : Color) :
    s.Shows ⟨i,j⟩ color ((Notice.mk label before [] 1 1 color).render s.text ⟨i,j⟩) := by
  refine ⟨i,j,label ++ ": ".toList ++ before,rfl,?_,pinpoints_iff hs h⟩
  have hknown : (s.text.isEmpty || Span.isUnknown ⟨i,j⟩) = false := by
    simp [hs,Span.isUnknown]
  rw [Notice.render]
  simp only [hknown]
  simp

theorem flat_start (s : Source) : s.text.Flat 0 0 where
  le := Nat.le_refl 0
  le_length := Nat.zero_le _
  flat := by simp
  ends := fun _ => .inl rfl

theorem flat_eof (s : Source) : s.text.Flat s.text.length s.text.length where
  le := Nat.le_refl _
  le_length := Nat.le_refl _
  flat := by simp
  ends := fun _ => .inr rfl

theorem exists_flat_of_mem {t : Token} (ht : t ∈ s.standardTokens) :
    ∃ i j : Nat, t.span = ⟨i,j⟩ ∧ s.text.Flat i j := by
  have hlexeme := isLexeme_of_mem_standardTokens ht
  obtain ⟨i,j,hspan,hij,hj,htext⟩ := exists_span_of_mem ht
  refine ⟨i,j,hspan,Nat.le_of_lt hij,hj,?_,fun heq => absurd heq (Nat.ne_of_lt hij)⟩
  intro c hc
  rw [← htext] at hc
  have hunbroken := hlexeme.isUnbroken c hc
  constructor
  · rintro rfl
    cases hunbroken
  · rintro rfl
    cases hunbroken

/-- No end of a line that is counted or goes with one is skipped. -/
theorem IsSkipped.isBlank {c : Char} (h : s.IsSkipped i) (hc : s.text[i]? = some c) :
    Piece.isBlank c = false := by
  obtain ⟨ss,d,hss,hmem⟩ := h
  obtain ⟨r,hr,hblank,-⟩ := hss.lies _ hmem
  have hhead := congrArg List.head? hr
  rw [List.head?_drop,hc] at hhead
  obtain rfl := Option.some.inj hhead
  exact hblank

theorem flat_of_isSkipped (hij : i < j) (h : ∀ k, i ≤ k → k < j → s.IsSkipped k) :
    s.text.Flat i j where
  le := Nat.le_of_lt hij
  le_length := by
    have hlast := (h (j-1) (by omega) (by omega)).lt_length
    omega
  flat := by
    intro c hc
    obtain ⟨k,hk⟩ := List.mem_iff_getElem?.1 hc
    rw [List.getElem?_drop,List.getElem?_take] at hk
    split at hk
    · rename_i hlt
      have hblank := (h (i+k) (Nat.le_add_right i k) hlt).isBlank hk
      constructor
      · rintro rfl
        cases hblank
      · rintro rfl
        cases hblank
    · cases hk
  ends := fun heq => absurd heq (Nat.ne_of_lt hij)

theorem shows_warning (hs : s.text ≠ []) {r : Nat × Nat} (h : s.Skips r) :
    s.Shows (s.warning r).span .yellow (s.warning r).message :=
  shows_of_flat hs (flat_of_isSkipped h.1 h.2) _ _ _

theorem skips_of_isSkipped {k : Nat} (h : s.IsSkipped k) : s.Skips (k,k+1) := by
  refine ⟨Nat.lt_succ_self k,?_⟩
  intro m hle hlt
  obtain rfl : k = m := by omega
  exact h

theorem Skips.append {k : Nat} (h : s.Skips (i,j)) (h' : s.Skips (j,k)) : s.Skips (i,k) := by
  refine ⟨Nat.lt_trans h.1 h'.1,?_⟩
  intro m hle hlt
  rcases Nat.lt_or_ge m j with hmj | hjm
  · exact h.2 m hle hmj
  · exact h'.2 m hjm hlt

theorem exists_combineFrom {r : Nat × Nat} (hr : s.Skips r) {rs : List (Nat × Nat)}
    (hrs : ∀ q ∈ rs, s.Skips q) : ∃ qs : List (Nat × Nat),
      Warning.combineFrom (s.warning r) (rs.map s.warning) = qs.map s.warning ∧
        ∀ q ∈ qs, s.Skips q := by
  induction rs generalizing r with
  | nil => exact ⟨[r],rfl,List.forall_mem_singleton.2 hr⟩
  | cons q rs ih =>
    obtain ⟨i,j⟩ := r
    obtain ⟨k,l⟩ := q
    obtain ⟨hq,hrest⟩ := List.forall_mem_cons.1 hrs
    rw [List.map_cons,Warning.combineFrom]
    by_cases hjk : j = k
    · subst hjk
      rw [if_pos ((adjoins_warning s i j j l).2 rfl),widen_warning hr.1 hq.1]
      exact ih (hr.append hq) hrest
    · obtain ⟨qs,hqs,hall⟩ := ih hq hrest
      rw [if_neg (mt (adjoins_warning s i j k l).1 hjk),hqs]
      exact ⟨(i,j) :: qs,rfl,List.forall_mem_cons.2 ⟨hr,hall⟩⟩

/-- Combining joins skipped characters to more of them. -/
theorem exists_combine {rs : List (Nat × Nat)} (h : ∀ r ∈ rs, s.Skips r) :
    ∃ qs : List (Nat × Nat),
      Warning.combine (rs.map s.warning) = qs.map s.warning ∧ ∀ q ∈ qs, s.Skips q := by
  cases rs with
  | nil => exact ⟨[],rfl,by simp⟩
  | cons r rs =>
    obtain ⟨hr,hrs⟩ := List.forall_mem_cons.1 h
    exact exists_combineFrom hr hrs

theorem awaits_of_idle (s : Source) (hc : c.Idle) : s.Awaits c where
  problems := by simp [hc.problems]
  warnings := ⟨[],hc.warnings,by simp⟩

theorem Awaits.tells (h : s.Awaits c) : s.Tells c c := ⟨h,[],by simp,by simp⟩

theorem Awaits.warnIllegal (h : s.Awaits c) {bad : List Nat} (hbad : ∀ k ∈ bad, s.IsSkipped k) :
    s.Awaits (c.warnIllegal s bad) where
  problems := h.problems
  warnings := by
    obtain ⟨rs,hrs,hskips⟩ := h.warnings
    refine ⟨rs ++ bad.map fun k => (k,k+1),?_,List.forall_mem_append.2 ⟨hskips,?_⟩⟩
    · rw [Console.warnIllegal,Console.warn,hrs,List.map_append,List.map_map]
      rfl
    · intro r hr
      obtain ⟨k,hk,rfl⟩ := List.mem_map.1 hr
      exact skips_of_isSkipped (hbad k hk)

theorem Awaits.keepBefore (h : s.Awaits c) (offset : Int) :
    s.Awaits (s.keepBefore offset c) where
  problems := h.problems
  warnings := by
    obtain ⟨rs,hrs,hskips⟩ := h.warnings
    refine ⟨_,by rw [Source.keepBefore,hrs,List.filter_map],?_⟩
    intro r hr
    exact hskips r (List.mem_filter.1 hr).1

theorem Awaits.combine (h : s.Awaits c) : s.Awaits c.combine where
  problems := h.problems
  warnings := by
    obtain ⟨rs,hrs,hskips⟩ := h.warnings
    rw [Console.combine,hrs]
    exact exists_combine hskips

/-- Nothing was printed on the way. -/
theorem Tells.of_printed {c₀ : Console} (h : s.Tells c₀ c) (hc' : s.Awaits c')
    (hp : c'.printed = c.printed) : s.Tells c₀ c' := by
  obtain ⟨-,wss,hprinted,hshows⟩ := h
  exact ⟨hc',wss,hp.trans hprinted,hshows⟩

theorem Tells.warnIllegal {c₀ : Console} (h : s.Tells c₀ c) {bad : List Nat}
    (hbad : ∀ k ∈ bad, s.IsSkipped k) : s.Tells c₀ (c.warnIllegal s bad) :=
  h.of_printed (h.1.warnIllegal hbad) rfl

/-- The warnings waiting are printed, each for some characters skipped one behind the other. -/
theorem Tells.flush {c₀ : Console} (hs : s.text ≠ []) (h : s.Tells c₀ c) : s.Tells c₀ c.flush := by
  obtain ⟨hawaits,wss,hprinted,hshows⟩ := h
  obtain ⟨rs,hrs,hskips⟩ := hawaits.combine.warnings
  refine ⟨s.awaits_of_idle c.idle_flush,wss ++ [rs.map s.warning],?_,?_⟩
  · have hcombine : Warning.combine c.warnings = rs.map s.warning := hrs
    rw [Console.flush,hcombine,hprinted]
    simp
  · refine List.forall_mem_append.2 ⟨hshows,?_⟩
    intro ws hws w hw
    obtain rfl := List.mem_singleton.1 hws
    obtain ⟨r,hr,rfl⟩ := List.mem_map.1 hw
    exact shows_warning hs (hskips r hr)

/-- A problem that cannot be reported for want of room goes on waiting. -/
theorem Tells.leaves {c₀ : Console} (hs : s.text ≠ []) (h : s.Tells c₀ c) {p : Problem}
    (hp : s.Shows p.span .red p.message) (hc' : c.Leaves p c') : s.Tells c₀ c' := by
  have hproblems : ∀ q ∈ c'.problems, s.Shows q.span .red q.message := by
    rcases hc'.problems with hsame | hnew
    · rw [hsame]
      exact h.1.problems
    · rw [hnew]
      exact List.forall_mem_append.2 ⟨h.1.problems,List.forall_mem_singleton.2 hp⟩
  rcases hc'.warnings with ⟨hprinted,hsame | hcombined⟩ | ⟨hprinted,hnone⟩
  · exact h.of_printed ⟨hproblems,by rw [hsame]; exact h.1.warnings⟩ hprinted
  · exact h.of_printed ⟨hproblems,by rw [hcombined]; exact h.1.combine.warnings⟩ hprinted
  · exact (h.flush hs).of_printed ⟨hproblems,[],hnone,by simp⟩ hprinted

end Source
end AssignLang
