import Mathlib.Data.List.Forall2
import AssignLang.Proofs.Diagnostic.Reporting
import AssignLang.Proofs.SyntaxError
import AssignLang.Proofs.Token.Description

namespace AssignLang

open Grammar

namespace Problem

/-- How a syntax error begins: what was wanted, what was met instead, and where. -/
def headline (wanted : List Text) (met : Text) (position : Int) : Text :=
  "SyntaxError".toList ++ ": ".toList ++
    ("Expected ".toList ++ alternatives wanted ++ ", but got ".toList ++ met ++
      " instead at position ".toList ++ Text.ofInt position ++ ['.'])

theorem isUnbroken_alternatives {ts : List Text} (h : ∀ t ∈ ts, t.IsUnbroken) :
    (alternatives ts).IsUnbroken := by
  fun_induction alternatives ts with
  | case1 => exact Text.isUnbroken_nil
  | case2 t => exact h t List.mem_cons_self
  | case3 t u =>
    have hor : Text.IsUnbroken " or ".toList := by decide
    exact ((h t (by simp)).append hor).append (h u (by simp))
  | case4 t ts _ _ ih =>
    obtain ⟨ht,hts⟩ := List.forall_mem_cons.1 h
    have hcomma : Text.IsUnbroken ", ".toList := by decide
    exact (ht.append hcomma).append (ih hts)

theorem isUnbroken_headline {wanted : List Text} {met : Text}
    (hw : ∀ t ∈ wanted, t.IsUnbroken) (hm : met.IsUnbroken) (position : Int) :
    (headline wanted met position).IsUnbroken := by
  have hlabel : Text.IsUnbroken ("SyntaxError".toList ++ ": ".toList) := by decide
  have hexpected : Text.IsUnbroken "Expected ".toList := by decide
  have hbut : Text.IsUnbroken ", but got ".toList := by decide
  have hat : Text.IsUnbroken " instead at position ".toList := by decide
  have hstop : Text.IsUnbroken ['.'] := by decide
  have hwanted := (hexpected.append (isUnbroken_alternatives hw)).append hbut
  exact hlabel.append ((((hwanted.append hm).append hat).append
    (Text.isUnbroken_ofInt position)).append hstop)

theorem headline_ne_nil (wanted : List Text) (met : Text) (position : Int) :
    headline wanted met position ≠ [] :=
  List.append_ne_nil_of_left_ne_nil (List.append_ne_nil_of_left_ne_nil (by decide) _) _

end Problem

/-- A problem that is reported alone is all of the message. -/
theorem Failure.message_stopped (stage : Stage) (p : Problem) :
    (stopped stage [p]).message = p.message := by
  have hall : (stopped stage [p]).message = Text.join ['\n','\n'] [p.message] :=
    @Problem.renderAll_of_le [p] (Nat.le_of_ble_eq_true rfl)
  exact hall.trans List.intercalate_singleton

namespace Source

variable {s : Source}

/-- What is found at the place of a token is its text. -/
theorem chars_offence (wanted : List Kind) {t : Token} (ht : t ∈ s.standardTokens) :
    (s.offence wanted t).chars = t.text := by
  obtain ⟨i,j,hspan,-,-,htext⟩ := exists_span_of_mem ht
  rw [Problem.chars,offence,hspan,Text.slice_ofNat]
  exact htext.symm

theorem current_cases {before rest : List Token} (h : s.standardTokens = before ++ rest) :
    (Stream.ofText .standard s.text).current rest ∈ s.standardTokens ∨
      (Stream.ofText .standard s.text).current rest =
        .ofKind .eof ⟨s.text.length,s.text.length⟩ := by
  cases rest with
  | nil => exact .inr rfl
  | cons t ts => exact .inl (by simp [h,Stream.current])

/-- The description of the end of the input as a token of its kind. -/
theorem isUnbroken_describe_eof (span : Span) : (Token.ofKind .eof span).describe.IsUnbroken := by
  change Text.IsUnbroken "the end of input".toList
  decide

theorem exists_message_offence (s : Source) (wanted : List Kind) (got : Token) :
    ∃ excerpt, (s.offence wanted got).message = Text.join ['\n']
      (Problem.headline ((wanted.map Token.ofKind).map Token.describe) got.describe got.span.stop ::
        excerpt) := ⟨_,rfl⟩

/-- A syntax error begins with its headline, whatever is shown below. -/
theorem head?_lines_offence {wanted : List Kind} {got : Token}
    (hw : ∀ k ∈ wanted, k.Called (Token.ofKind k).describe) (hgot : got.describe.IsUnbroken) :
    (s.offence wanted got).message.lines.head? =
      some (Problem.headline ((wanted.map Token.ofKind).map Token.describe) got.describe
        got.span.stop) := by
  have hnames : ∀ t ∈ (wanted.map Token.ofKind).map Token.describe, t.IsUnbroken := by
    intro t ht
    rw [List.map_map] at ht
    obtain ⟨k,hk,rfl⟩ := List.mem_map.1 ht
    exact (hw k hk).isUnbroken
  obtain ⟨excerpt,hmessage⟩ := s.exists_message_offence wanted got
  rw [hmessage]
  exact Text.head?_lines_join (Problem.isUnbroken_headline hnames hgot _)
    (Problem.headline_ne_nil _ _ _) excerpt

/-- The first line of a syntax error tells what was wanted and what was met instead. The end of the
input is called so, and nothing else is. Any other token is quoted as it stands in the program,
unless its text is the one that stands for any name. Of that name it only tells that it is one. -/
theorem names_found_unless_id (full : Bool) (s : Source) (c : Console) (hc : c.problems = [])
    (f : Failure) (h : (s.reading full .unlimited c).1 = .error f) :
    ∃ wanted got names met, f = .stopped .parser [s.offence wanted got] ∧
      (got ∈ s.standardTokens ∨ got = .ofKind .eof ⟨s.text.length,s.text.length⟩) ∧
      wanted ≠ [] ∧ List.Forall₂ Kind.Called wanted names ∧
      f.message.lines.head? = some (Problem.headline names met got.span.stop) ∧
      (met = "the end of input".toList ↔ got.kind = .eof) ∧
      (got.kind ≠ .eof → ∃ found, (s.offence wanted got).chars = found ∧
        found.quote = '\'' :: (found ++ ['\'']) ∧
        (met = found.quote ↔ found ≠ "id".toList) ∧
        (found = "id".toList → met = "a variable".toList)) := by
  obtain ⟨wanted,rest,hw,hstuck,rfl⟩ := stuck_of_reading hc h
  obtain ⟨before,hts,hspelled,-⟩ := viable_recognized full _ _ wanted rest hstuck
  have hgot := current_cases hts
  -- from here on the token met is one of the program's or the end, whichever it is
  generalize (Stream.ofText .standard s.text).current rest = got at hgot ⊢
  have hcalled : ∀ k ∈ wanted, k.Called (Token.ofKind k).describe := by
    intro k hk
    obtain ⟨t,ht⟩ := hspelled k hk
    exact Kind.called_of_spells ht
  refine ⟨wanted,got,(wanted.map Token.ofKind).map Token.describe,got.describe,rfl,hgot,hw,?_,?_,
    ?_,?_⟩
  · rw [List.map_map,List.forall₂_map_right_iff,List.forall₂_same]
    exact hcalled
  · rw [Failure.message_stopped]
    apply head?_lines_offence hcalled
    rcases hgot with hmem | rfl
    · exact (isLexeme_of_mem_standardTokens hmem).isUnbroken_describe
    · exact isUnbroken_describe_eof _
  · rcases hgot with hmem | rfl
    · exact iff_of_false (isLexeme_of_mem_standardTokens hmem).describe_ne_end (kind_ne_eof hmem)
    · exact iff_of_true rfl rfl
  · intro heof
    rcases hgot with hmem | rfl
    · have hlexeme := isLexeme_of_mem_standardTokens hmem
      exact ⟨got.text,chars_offence wanted hmem,hlexeme.quote_eq,hlexeme.describe_eq_quote_iff,
        hlexeme.describe_of_id⟩
    · exact absurd rfl heof

/-- A name `id` that stands where an operator is due is only called a variable. -/
theorem names_found_unless_id_lone :
    ∃ s : Source, s = ⟨"x=1 id;".toList,0⟩ ∧ Console.problems {} = [] ∧
      ∃ f, (s.reading false .unlimited {}).1 = .error f ∧
        f = .stopped .parser [s.offence [.semicolon] ⟨"id".toList,.name,⟨4,6⟩⟩] ∧
        (s.offence [.semicolon] ⟨"id".toList,.name,⟨4,6⟩⟩).chars = "id".toList ∧
        f.message.lines.head? =
          some "SyntaxError: Expected ';', but got a variable instead at position 6.".toList := by
  let s : Source := ⟨"x=1 id;".toList,0⟩
  have hstuck : recognized false (ample s.standardTokens.length) s.standardTokens =
      some (some [.semicolon],[⟨"id".toList,.name,⟨4,6⟩⟩,⟨[';'],.semicolon,⟨6,7⟩⟩]) := by
    decide +kernel
  have hread := reading_of_stuck (c := {}) rfl hstuck
  obtain ⟨wanted,got,names,met,hstopped,-,-,hcalled,hline,-,hfound⟩ :=
    names_found_unless_id false s {} rfl _ hread
  have hoffence := (List.cons.inj (Failure.stopped.inj hstopped).2).1
  obtain ⟨-,-,hfault,-⟩ := Problem.mk.inj hoffence
  obtain ⟨-,hkinds,rfl⟩ := Fault.unexpected.inj (Option.some.inj hfault)
  obtain ⟨k,ks,rfl,hk,hks⟩ := List.map_eq_cons_iff.1 hkinds.symm
  obtain rfl := List.map_eq_nil_iff.1 hks
  obtain rfl : k = .semicolon := congrArg Token.kind hk
  have hchars : (s.offence [.semicolon] ⟨"id".toList,.name,⟨4,6⟩⟩).chars = "id".toList := by
    decide
  obtain ⟨found,hfound,-,-,hid⟩ := hfound (by decide)
  obtain rfl := hid (hfound.symm.trans hchars)
  cases hcalled with
  | cons hname hnone =>
    cases hnone
    cases hname with
    | @operator _ t hsemicolon =>
      obtain rfl : t = [';'] := by simpa [Vocabulary.standard] using hsemicolon
      have hheadline : Problem.headline [Text.quote [';']] "a variable".toList 6 =
          "SyntaxError: Expected ';', but got a variable instead at position 6.".toList := by
        decide +kernel
      exact ⟨s,rfl,rfl,_,hread,rfl,hchars,hline.trans (congrArg some hheadline)⟩

end Source
end AssignLang
