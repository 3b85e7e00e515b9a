import AssignLang.Diagnostic.Console

namespace AssignLang

/-- A program is to blame for a failure. -/
def Failure.IsDue : Failure → Prop
  | stopped _ _ => True
  | wordless => False
  | tooDeep => True
  | notANumber _ => False
  | undecodable _ => False

/-- "1 warning", "2 warnings". -/
def Text.counted (n : Nat) (what : Text) : Text :=
  Text.ofNat n ++ [' '] ++ what ++ (if n = 1 then [] else ['s'])

namespace Warning

theorem omission_of_gt (what : Text) {n : Nat} (h : 10 < n) :
    omission what n = "Showing ".toList ++ Text.counted 10 what ++ ", omitting ".toList ++
      Text.counted (n-10) what ++ "...".toList := by
  have hcut : "s, omitting ".toList = 's' :: ", omitting ".toList := by decide
  have hplural : (if n-10 > 1 then ['s'] else []) = if n-10 = 1 then [] else ['s'] := by
    by_cases h1 : n-10 = 1
    · simp [h1]
    · have hmany : n-10 > 1 := by omega
      simp [h1,hmany]
  rw [omission,if_neg (show ¬ n ≤ limit from Nat.not_le.2 h),limit,hplural]
  simp [Text.counted,hcut]

theorem renderAll_of_le {ws : List Warning} (h : ws.length ≤ 10) :
    renderAll ws = ws.flatMap fun w => w.message ++ ['\n','\n'] := by
  rw [renderAll,limit,if_pos h,List.take_of_length_le h,List.append_nil]

theorem renderAll_of_gt {ws : List Warning} (h : 10 < ws.length) :
    renderAll ws = ((ws.take 10).flatMap fun w => w.message ++ ['\n','\n']) ++
      "Showing ".toList ++ Text.counted 10 "warning".toList ++ ", omitting ".toList ++
      Text.counted (ws.length-10) "warning".toList ++ "...\n".toList := by
  have hcut : "...\n".toList = "...".toList ++ ['\n'] := by decide
  rw [renderAll,limit,if_neg (Nat.not_le.2 h),omission_of_gt _ h,hcut]
  simp only [List.append_assoc]

end Warning

namespace Problem

theorem renderAll_of_le {ps : List Problem} (h : ps.length ≤ 10) :
    renderAll ps = Text.join ['\n','\n'] (ps.map message) := by
  rw [renderAll,Warning.limit,if_pos h,List.take_of_length_le h,List.append_nil]

theorem renderAll_of_gt {ps : List Problem} (h : 10 < ps.length) :
    renderAll ps = Text.join ['\n','\n'] ((ps.take 10).map message) ++ ['\n','\n'] ++
      "Showing ".toList ++ Text.counted 10 "error".toList ++ ", omitting ".toList ++
      Text.counted (ps.length-10) "error".toList ++ "...".toList := by
  rw [renderAll,Warning.limit,if_neg (Nat.not_le.2 h),Warning.omission_of_gt _ h]
  simp only [List.append_assoc]

end Problem

namespace Console

/-- Nothing waits to be reported. -/
structure Idle (c : Console) : Prop where
  warnings : c.warnings = []
  problems : c.problems = []

/-- All problems that wait can be worded. -/
def Worded (c : Console) : Prop := ∀ p ∈ c.problems, p.hasWording

/-- What the report of `p` leaves behind if there is not room enough for it. The problem may wait,
and the warnings may have been combined or printed. -/
structure Leaves (c : Console) (p : Problem) (c' : Console) : Prop where
  problems : c'.problems = c.problems ∨ c'.problems = c.problems ++ [p]
  warnings : c'.printed = c.printed ∧
      (c'.warnings = c.warnings ∨ c'.warnings = Warning.combine c.warnings) ∨
    c'.printed = c.flush.printed ∧ c'.warnings = []

/-- How a stage fails on account of a program. Nothing is left waiting unless the failure is for
want of room, and a problem that is can be worded. If it takes no room to report problems, none is
left where none was waiting. -/
structure Fails (c : Console) (need : Headroom) (f : Failure) (c' : Console) : Prop where
  isDue : f.IsDue
  worded : c'.Worded
  idle : f ≠ .tooDeep → c'.Idle
  problems : need.raising = 0 → c.problems = [] → c'.problems = []

section
variable {c c' : Console}

theorem report_of_problems (h : c.problems = []) (stage : Stage) :
    c.report stage = (.ok (),c.flush) := by
  rw [report,h]
  rfl

theorem idle_flush (c : Console) : c.flush.Idle := ⟨rfl,rfl⟩

theorem Idle.flush (h : c.Idle) : c.flush = c := by
  obtain ⟨warnings,problems,printed⟩ := c
  obtain ⟨rfl,rfl⟩ : warnings = [] ∧ problems = [] := ⟨h.warnings,h.problems⟩
  exact congrArg (Console.mk [] []) (List.append_nil printed)

theorem worded_of_problems (h : c.problems = []) : c.Worded := by simp [Worded,h]

theorem Idle.worded (h : c.Idle) : c.Worded := worded_of_problems h.problems

theorem Worded.congr (h : c.Worded) (hc : c'.problems = c.problems) : c'.Worded := by
  rwa [Worded,hc]

theorem Worded.snoc (h : c.Worded) {p : Problem} (hp : p.hasWording)
    (hc : c'.problems = c.problems ++ [p]) : c'.Worded := by
  rw [Worded,hc]
  exact List.forall_mem_append.2 ⟨h,List.forall_mem_singleton.2 hp⟩

theorem Leaves.worded {p : Problem} (h : c.Leaves p c') (hc : c.Worded) (hp : p.hasWording) :
    c'.Worded := by
  rcases h.problems with hsame | hnew
  · exact hc.congr hsame
  · exact hc.snoc hp hnew

/-- Where no warnings wait, none are printed, and none wait behind it. -/
theorem Leaves.of_warnings {p : Problem} (h : c.Leaves p c') (hc : c.warnings = []) :
    c'.warnings = [] ∧ c'.printed = c.printed := by
  have hcombine : Warning.combine c.warnings = [] := by rw [hc]; rfl
  have hflush : c.flush.printed = c.printed ++ Warning.renderAll [] :=
    congrArg (fun ws => c.printed ++ Warning.renderAll ws) hcombine
  rcases h.warnings with ⟨hprinted,hsame | hcombined⟩ | ⟨hprinted,hnone⟩
  · exact ⟨hsame.trans hc,hprinted⟩
  · exact ⟨hcombined.trans hcombine,hprinted⟩
  · exact ⟨hnone,hprinted.trans (hflush.trans (List.append_nil _))⟩

/-- Problems that can all be worded are reported together. -/
theorem Worded.raise (h : c.Worded) (stage : Stage) :
    c.raise stage = (.stopped stage c.problems,c.flush) := by
  have hall : (c.problems.take Warning.limit).all Problem.hasWording :=
    List.all_eq_true.2 fun p hp => h p (List.mem_of_mem_take hp)
  rw [Console.raise,if_pos hall]

/-- A stage fails if any are waiting. -/
theorem Worded.report (h : c.Worded) (hc : c.problems ≠ []) (stage : Stage) :
    c.report stage = (.error (.stopped stage c.problems),c.flush) := by
  rw [Console.report,if_neg (by simpa using hc),h.raise]

end

section
variable {c : Console} {s : Source} {span : Span} {fault : Fault}

/-- A fault that can be worded is reported behind those that were waiting. -/
theorem Worded.fail (hc : c.Worded)
    (hw : Problem.hasWording {source := s,span,fault := some fault}) :
    c.fail s span fault =
      (.stopped fault.stage (c.problems ++ [{source := s,span,fault := some fault}]),c.flush) := by
  have hall : (c.file {source := s,span,fault := some fault}).Worded := hc.snoc hw rfl
  exact hall.raise fault.stage

/-- If none were, it is the only problem reported. -/
theorem fail_eq (h : c.problems = [])
    (hw : Problem.hasWording {source := s,span,fault := some fault}) :
    c.fail s span fault =
      (.stopped fault.stage [{source := s,span,fault := some fault}],c.flush) := by
  have hfail := (worded_of_problems h).fail hw
  rwa [h,List.nil_append] at hfail

variable {need : Headroom} {room : Nat}

theorem failWithin_of_le (h : need.raising ≤ room) (c : Console) (s : Source) (span : Span)
    (fault : Fault) : c.failWithin need room s span fault = c.fail s span fault := if_pos h

/-- A problem for which there is not room enough is not reported. -/
theorem failWithin_of_lt (h : room < need.raising) (c : Console) (s : Source) (span : Span)
    (fault : Fault) : ∃ c', c.failWithin need room s span fault = (.tooDeep,c') ∧
      c.Leaves {source := s,span,fault := some fault} c' := by
  rw [failWithin,if_neg (Nat.not_le.2 h)]
  split
  · exact ⟨_,rfl,.inr rfl,.inr ⟨rfl,rfl⟩⟩
  split
  · exact ⟨_,rfl,.inr rfl,.inl ⟨rfl,.inr rfl⟩⟩
  split
  · exact ⟨_,rfl,.inr rfl,.inl ⟨rfl,.inl rfl⟩⟩
  · exact ⟨_,rfl,.inl rfl,.inl ⟨rfl,.inl rfl⟩⟩

/-- A fault that is met when nothing waits is reported alone if there is room to. Otherwise it may
be left waiting, and nothing is printed. -/
theorem Idle.failWithin (hc : c.Idle) (need : Headroom) (room : Nat)
    (hw : Problem.hasWording {source := s,span,fault := some fault}) :
    c.failWithin need room s span fault =
      (if need.raising ≤ room then
          .stopped fault.stage [{source := s,span,fault := some fault}] else .tooDeep,
        {c with problems := if need.raising ≤ room then [] else if need.filing ≤ room then
          [{source := s,span,fault := some fault}] else []}) := by
  have hfail := fail_eq hc.problems hw
  obtain ⟨warnings,problems,printed⟩ := c
  obtain ⟨rfl,rfl⟩ : warnings = [] ∧ problems = [] := ⟨hc.warnings,hc.problems⟩
  have hflush : Console.flush ⟨[],[],printed⟩ = ⟨[],[],printed⟩ := hc.flush
  rw [Console.failWithin,hfail,hflush]
  have hcombining := need.filing_le
  have hwarning := need.combining_le
  by_cases hraising : need.raising ≤ room
  · simp only [if_pos hraising]
  by_cases hfiling : need.filing ≤ room
  · simp only [if_neg hraising,if_pos hfiling]
    split
    · rfl
    split
    · rfl
    · rfl
  · have hnot : ¬ need.combining ≤ room := by omega
    have hnot' : ¬ need.warning ≤ room := by omega
    simp only [if_neg hraising,if_neg hfiling,if_neg hnot,if_neg hnot']

/-- A fault that can be worded ends a stage, and what goes on waiting can be worded. -/
theorem Worded.failWithin (hc : c.Worded) (need : Headroom) (room : Nat)
    (hw : Problem.hasWording {source := s,span,fault := some fault}) :
    ∃ f c', c.failWithin need room s span fault = (f,c') ∧ c.Fails need f c' := by
  rcases Nat.lt_or_ge room need.raising with hlt | hle
  · obtain ⟨c',hfail,hleaves⟩ := failWithin_of_lt hlt c s span fault
    refine ⟨.tooDeep,c',hfail,trivial,hleaves.worded hc hw,fun h => absurd rfl h,?_⟩
    intro hneed
    omega
  · rw [failWithin_of_le hle,hc.fail hw]
    exact ⟨_,_,rfl,trivial,c.idle_flush.worded,fun _ => c.idle_flush,fun _ _ => rfl⟩

/-- For want of room a stage may also fail with nothing new waiting. -/
theorem Worded.tooDeep (hc : c.Worded) (need : Headroom) (h : c'.problems = c.problems) :
    c.Fails need .tooDeep c' where
  isDue := trivial
  worded := hc.congr h
  idle := fun hne => absurd rfl hne
  problems := fun _ => h.trans

end

theorem problems_warnIllegal (c : Console) (s : Source) (offsets : List Nat) :
    (c.warnIllegal s offsets).problems = c.problems := rfl

theorem warnIllegal_nil (c : Console) (s : Source) : c.warnIllegal s [] = c := by
  simp [warnIllegal,warn]

end Console
end AssignLang
