import AssignLang.Proofs.Grammar.Viability
import AssignLang.Proofs.RoundTrip
import AssignLang.Proofs.Token.Passage

namespace AssignLang

open Grammar

namespace Grammar

/-- Where reading a whole program, or only its first statement, comes to an end. -/
def recognized (full : Bool) (room : Nat) (ts : List Token) : Outcome :=
  if full then outcome (statements room ts.length ts) else outcome (statement room ts)

/-- The tokens of a whole program, or of its first statement. -/
def IsDerived : Bool → List Token → Prop
  | true => IsProgram
  | false => IsStatement

theorem local_recognized (full : Bool) (room : Nat) (ts : List Token) :
    Local (recognized full) room ts := by
  cases full with
  | true => exact local_statements room ts
  | false => exact local_statement room ts

theorem viable_recognized (full : Bool) (room : Nat) (ts : List Token) :
    Viable (IsDerived full) ts (recognized full room ts) := by
  cases full with
  | true => exact viable_statements room ts.length ts
  | false => exact viable_statement room ts

theorem recognized_of_isDerived {full : Bool} {ts : List Token} (h : IsDerived full ts) :
    recognized full (ample ts.length) ts = some (none,[]) := by
  cases full with
  | true =>
    obtain ⟨ds,rfl⟩ := h
    have hread := statements_tokens ds (Nat.le_refl _) (Nat.le_refl _)
    rw [recognized,if_pos rfl,hread,outcome]
  | false =>
    obtain ⟨d,rfl⟩ := h
    have hread := statement_tokens d (r := []) (Nat.le_refl _)
    rw [List.append_nil] at hread
    rw [recognized,if_neg (by simp),hread,outcome]

end Grammar

namespace Piece

/-- A token is read in front of a blank. -/
theorem reads_token {t : Token} (h : t.IsLexeme) (r : Text) : Reads (t.text ++ [' ']) [t] r := by
  have hblank : Reads [' '] [] r := reads_blank rfl r
  have hapart : Apart ([' '] ++ r) := apart_cons r (by decide)
  have hread : Reads t.text [t] ([' '] ++ r) := by
    rcases Kind.Spells.cases h with ⟨hk,-⟩ | ⟨hk,-⟩ | hop
    · exact reads_number hk h hapart
    · exact reads_name hk h hapart
    · obtain ⟨c,hc⟩ := Vocabulary.exists_char hop
      have hpiece : ofToken t = lexeme t.kind [c] := by rw [ofToken,hc]
      rw [hc] at hop ⊢
      exact reads_operator hpiece hop fun _ => by simp
  exact hread.append hblank

theorem reads_tokens {ts : List Token} (h : ∀ t ∈ ts, t.IsLexeme) (r : Text) :
    Reads (ts.flatMap fun t => t.text ++ [' ']) ts r := by
  induction ts with
  | nil => exact reads_nil r
  | cons t ts ih =>
    obtain ⟨ht,hts⟩ := List.forall_mem_cons.1 h
    rw [List.flatMap_cons]
    exact (reads_token ht _).append (ih hts)

end Piece

namespace Source

/-- A program made of tokens. -/
def ofTokens (ts : List Token) : Source := ⟨ts.flatMap fun t => t.text ++ [' '],0⟩

theorem standardTokens_ofTokens {ts : List Token} (h : ∀ t ∈ ts, t.IsLexeme) :
    (ofTokens ts).standardTokens.map Token.bare = ts.map Token.bare := by
  have hreads := Piece.reads_tokens h []
  rw [Piece.Reads,List.append_nil] at hreads
  apply Piece.map_bare_of_ofToken
  apply map_standardTokens
  exact hreads.trans (List.append_nil _)

def IsAccepted (full : Bool) (s : Source) : Prop :=
  ∃ t, (s.reading full .unlimited {}).1 = .ok t

theorem isAccepted_iff {full : Bool} {s : Source} : s.IsAccepted full ↔
    ∃ rest, recognized full (ample s.standardTokens.length) s.standardTokens =
      some (none,rest) := by
  cases full with
  | true =>
    constructor
    · rintro ⟨t,ht⟩
      obtain ⟨ds,hds,-⟩ := exists_of_block ht
      have hderived : IsDerived true s.standardTokens := ⟨ds,hds⟩
      exact ⟨[],recognized_of_isDerived hderived⟩
    · rintro ⟨rest,h⟩
      obtain ⟨body,hbody⟩ := outcome_eq_done h
      obtain ⟨-,ds,hds,-⟩ := exists_of_statements (fun t ht => kind_ne_eof ht) (Nat.le_refl _) hbody
      exact ⟨_,congrArg Prod.fst (block_of_derivation rfl hds.symm)⟩
  | false =>
    constructor
    · rintro ⟨t,ht⟩
      obtain ⟨d,rest,hd,-⟩ := exists_of_statement ht
      have hlength : d.tokens.length ≤ s.standardTokens.length := by
        rw [← hd,List.length_append]
        omega
      have hread := statement_tokens d (r := rest) (ample_mono hlength)
      rw [hd] at hread
      exact ⟨rest,by rw [recognized,if_neg (by simp),hread,outcome]⟩
    · rintro ⟨rest,h⟩
      obtain ⟨t,ht⟩ := outcome_eq_done h
      obtain ⟨d,hd,-⟩ := Grammar.exists_of_statement ht
      exact ⟨_,congrArg Prod.fst (statement_of_derivation rfl hd.symm)⟩

theorem outcome_treeOf (full : Bool) (nesting : Nesting) (s : Source) :
    outcome (s.treeOf full nesting) =
      recognized full (nesting.readingRoom s.standardTokens.length) s.standardTokens := by
  cases full with
  | true =>
    rw [treeOf,recognized,if_pos rfl,if_pos rfl]
    cases statements (nesting.readingRoom s.standardTokens.length) s.standardTokens.length
        s.standardTokens with
    | ok p => rfl
    | error e => cases e <;> rfl
  | false => rfl

/-- Where reading gets stuck, the tokens in front were read. -/
theorem exists_of_stuck {full : Bool} {nesting : Nesting} {s : Source} {wanted : List Kind}
    {rest : List Token} {room : Nat}
    (h : s.treeOf full nesting = .error (.unexpected wanted rest room)) :
    recognized full (nesting.readingRoom s.standardTokens.length) s.standardTokens =
      some (some wanted,rest) ∧ ∃ before, s.standardTokens = before ++ rest := by
  have hstuck : recognized full (nesting.readingRoom s.standardTokens.length) s.standardTokens =
      some (some wanted,rest) := by
    rw [← outcome_treeOf,h]
    rfl
  obtain ⟨before,hbefore,-⟩ := local_recognized full _ _ _ _ hstuck
  exact ⟨hstuck,before,hbefore⟩

/-- Without a limit reading fails only where it gets stuck. -/
theorem stuck_of_reading {full : Bool} {s : Source} {c : Console} {f : Failure}
    (hc : c.problems = []) (h : (s.reading full .unlimited c).1 = .error f) :
    ∃ wanted rest, wanted ≠ [] ∧
      recognized full (ample s.standardTokens.length) s.standardTokens =
        some (some wanted,rest) ∧
      f = .stopped .parser [s.offence wanted ((Stream.ofText .standard s.text).current rest)] := by
  have houtcome := outcome_treeOf full .unlimited s
  rw [Nesting.readingRoom_unlimited] at houtcome
  rcases stuck_or_tooDeep hc h with ⟨wanted,rest,room,hw,hstuck,hend⟩ | ⟨rest,-,-,hroom⟩
  · rw [← houtcome,hstuck]
    rcases hend with ⟨-,hread⟩ | ⟨hlt,-⟩
    · rw [hread] at h
      exact ⟨wanted,rest,hw,rfl,(Except.error.inj h).symm⟩
    · exact absurd hlt (Nat.not_lt_zero room)
  · exact absurd (Nat.le_refl _) hroom

/-- Where reading the tokens gets stuck, reading the program fails. -/
theorem reading_of_stuck {full : Bool} {s : Source} {c : Console} {wanted : List Kind}
    {rest : List Token} (hc : c.problems = [])
    (h : recognized full (ample s.standardTokens.length) s.standardTokens =
      some (some wanted,rest)) :
    (s.reading full .unlimited c).1 = .error (.stopped .parser
      [s.offence wanted ((Stream.ofText .standard s.text).current rest)]) := by
  cases hread : (s.reading full .unlimited c).1 with
  | ok t =>
    obtain ⟨rest',hdone⟩ := isAccepted_iff.1 ⟨t,reading_unlimited hread rfl⟩
    cases h.symm.trans hdone
  | error f =>
    obtain ⟨wanted',rest',-,hstuck,rfl⟩ := stuck_of_reading hc hread
    cases h.symm.trans hstuck
    rfl

end Source

namespace Grammar

/-- These tokens are the first ones of a program that is accepted. -/
def Begins (full : Bool) (ts : List Token) : Prop :=
  ∃ p : Source, p.IsAccepted full ∧ ts.map Token.bare <+: p.standardTokens.map Token.bare

/-- What is derived from lexemes is the tokens of a program that is accepted. -/
theorem isAccepted_ofTokens {full : Bool} {ts : List Token} (hts : ∀ t ∈ ts, t.IsLexeme)
    (h : IsDerived full ts) : (Source.ofTokens ts).IsAccepted full := by
  have hbare := Source.standardTokens_ofTokens hts
  have hlength := congrArg List.length hbare
  rw [List.length_map,List.length_map] at hlength
  have hread := recognized_of_isDerived h
  obtain ⟨before,hbefore,hlocal⟩ := local_recognized full _ ts none [] hread
  rw [List.append_nil] at hbefore
  obtain rfl := hbefore
  have halike := alike_of_bare hbare
  have hsame := hlocal (ample ts.length) _ [] (Nat.le_refl _) halike rfl
  rw [List.append_nil,← hlength] at hsame
  exact Source.isAccepted_iff.2 ⟨[],hsame⟩

theorem begins_of_isDerived {full : Bool} {before more : List Token}
    (hbefore : ∀ t ∈ before, t.IsLexeme) (hmore : ∀ t ∈ more, t.IsLexeme)
    (h : IsDerived full (before ++ more)) : Begins full before := by
  have hall := List.forall_mem_append.2 ⟨hbefore,hmore⟩
  refine ⟨_,isAccepted_ofTokens hall h,?_⟩
  rw [Source.standardTokens_ofTokens hall,List.map_append]
  exact List.prefix_append _ _

/-- Where something was wanted, accepted programs go on. -/
theorem begins_of_completes {full : Bool} {before : List Token} {wanted : List Kind}
    (hbefore : ∀ t ∈ before, t.IsLexeme) (hw : wanted ≠ [])
    (h : Completes (IsDerived full) before wanted) :
    Begins full before ∧ ∀ k ∈ wanted, (∃ t : Text, k.Spells t) ∧
      ∀ u : Token, u.kind = k → u.IsLexeme → Begins full (before ++ [u]) := by
  obtain ⟨hspelled,hcompleted⟩ := h
  have hwanted : ∀ k ∈ wanted, (∃ t : Text, k.Spells t) ∧
      ∀ u : Token, u.kind = k → u.IsLexeme → Begins full (before ++ [u]) := by
    intro k hk
    refine ⟨hspelled k hk,?_⟩
    intro u hu hlexeme
    obtain ⟨more,hmore,hderived⟩ := hcompleted u (hu ▸ hk)
    rw [List.append_cons] at hderived
    have hfront : ∀ t ∈ before ++ [u], t.IsLexeme :=
      List.forall_mem_append.2 ⟨hbefore,by simpa using hlexeme⟩
    exact begins_of_isDerived hfront hmore hderived
  refine ⟨?_,hwanted⟩
  obtain ⟨k,ks,rfl⟩ := List.exists_cons_of_ne_nil hw
  obtain ⟨⟨t,ht⟩,hbegin⟩ := hwanted k List.mem_cons_self
  obtain ⟨p,hp,hfirst⟩ := hbegin ⟨t,k,.unknown⟩ rfl ht
  rw [List.map_append] at hfirst
  exact ⟨p,hp,(List.prefix_append _ _).trans hfirst⟩

/-- No program is accepted whose tokens are like those with which reading got stuck. -/
theorem not_isAccepted_of_stuck {full : Bool} {room : Nat} {before rest : List Token}
    {wanted : List Kind} (h : recognized full room (before ++ rest) = some (some wanted,rest))
    {p : Source} {before' rest' : List Token} (hp : p.standardTokens = before' ++ rest')
    (hb : Alike before' before) (hr : Alike (rest'.take 1) (rest.take 1)) :
    ¬ p.IsAccepted full := by
  intro haccepted
  obtain ⟨behind,hdone⟩ := Source.isAccepted_iff.1 haccepted
  let more := max room (ample p.standardTokens.length)
  have hstuck : recognized full more p.standardTokens = some (some wanted,rest') := by
    obtain ⟨front,hfront,hlocal⟩ := local_recognized full room _ _ _ h
    obtain rfl := List.append_cancel_right hfront
    rw [hp]
    exact hlocal more before' rest' (Nat.le_max_left _ _) hb hr
  have hread : recognized full more p.standardTokens = some (none,behind) := by
    obtain ⟨front,hfront,hlocal⟩ := local_recognized full _ _ _ _ hdone
    have hsame := hlocal more front behind (Nat.le_max_right _ _) rfl rfl
    rwa [← hfront] at hsame
  rw [hstuck] at hread
  cases hread

end Grammar

namespace Source

/-- Reading fails at the first token with which no accepted program goes on, and says so. Whatever
it wanted there instead, an accepted program goes on with. -/
theorem reading_fails_at_first_offence (full : Bool) (s : Source) (c : Console)
    (hc : c.problems = []) (f : Failure) (h : (s.reading full .unlimited c).1 = .error f) :
    ∃ before got wanted, f = .stopped .parser [s.offence wanted got] ∧
      (before ++ [got] <+: s.standardTokens ∨
        before = s.standardTokens ∧ got = .ofKind .eof ⟨s.text.length,s.text.length⟩) ∧
      Begins full before ∧ ¬ Begins full (before ++ [got]) ∧
      (got.kind = .eof → ∀ p : Source, p.IsAccepted full →
        p.standardTokens.map Token.bare ≠ before.map Token.bare) ∧
      (∀ k ∈ wanted, (∃ t : Text, k.Spells t) ∧
        ∀ u : Token, u.kind = k → u.IsLexeme → Begins full (before ++ [u])) ∧
      ∃ c₁ c₂ o₁ o₂ more, (Cursor.start s).Passes c before c₁ o₁ ∧
        c₁.next o₁ = (more,c₂,o₂) ∧ c₂.token = some got ∧ got.span.stop = c₂.position := by
  obtain ⟨wanted,rest,hw,hstuck,hf⟩ := stuck_of_reading hc h
  obtain ⟨before,hts,hcompletes⟩ := viable_recognized full _ _ wanted rest hstuck
  have hlexemes : ∀ t ∈ before, t.IsLexeme := by
    intro t ht
    apply isLexeme_of_mem_standardTokens (s := s)
    rw [hts]
    exact List.mem_append_left rest ht
  obtain ⟨hbegins,hwanted⟩ := begins_of_completes hlexemes hw hcompletes
  rw [hts] at hstuck
  obtain ⟨c₁,o₁,hpass,hend⟩ := s.scans_start c
  cases rest with
  | nil =>
    rw [List.append_nil] at hts
    refine ⟨before,.ofKind .eof ⟨s.text.length,s.text.length⟩,wanted,hf,.inr ⟨hts.symm,rfl⟩,
      hbegins,?_,?_,hwanted,c₁,_,o₁,_,false,?_,hend,rfl,rfl⟩
    · rintro ⟨p,-,hfirst⟩
      have hmem : (Token.ofKind .eof ⟨s.text.length,s.text.length⟩).bare ∈
          p.standardTokens.map Token.bare := hfirst.subset (by simp)
      obtain ⟨t,ht,hbare⟩ := List.mem_map.1 hmem
      exact kind_ne_eof ht (congrArg Token.kind hbare)
    · intro _ p hp hbare
      exact not_isAccepted_of_stuck hstuck (List.append_nil _).symm (alike_of_bare hbare) rfl hp
    · rwa [hts] at hpass
  | cons got rest =>
    rw [hts] at hpass
    obtain ⟨c₂,o₂,hbefore,hgot⟩ := hpass.exists_of_append
    cases hgot with
    | cons hnext htoken _ =>
      obtain ⟨t,ht,hposition⟩ := Cursor.position_of_next hnext
      obtain rfl : t = got := Option.some.inj (ht.symm.trans htoken)
      refine ⟨before,t,wanted,hf,.inl ⟨rest,by rw [hts,List.append_assoc]; rfl⟩,hbegins,?_,?_,
        hwanted,c₂,_,o₂,_,true,hbefore,hnext,htoken,hposition⟩
      · rintro ⟨p,hp,behind,hfirst⟩
        rw [List.map_append,List.append_assoc] at hfirst
        obtain ⟨before',rest',hsplit,hb,hr⟩ := List.map_eq_append_iff.1 hfirst.symm
        have hface : Alike (rest'.take 1) [t] := by
          obtain ⟨u,us,rfl,hu,-⟩ := List.map_eq_cons_iff.1 hr
          exact alike_of_bare (congrArg (fun x => [x]) hu)
        exact not_isAccepted_of_stuck hstuck hsplit (alike_of_bare hb) hface hp
      · intro heof
        have hmem : t ∈ s.standardTokens := by simp [hts]
        exact absurd heof (kind_ne_eof hmem)

/-- The semicolon behind a plus sign was not wanted, but a minus sign was. -/
theorem reading_fails_at_first_offence_sum :
    Console.problems {} = [] ∧ ∃ f, (reading true .unlimited ⟨"x=(1+;".toList,0⟩ {}).1 = .error f ∧
      f = .stopped .parser [offence ⟨"x=(1+;".toList,0⟩ factorStarts ⟨[';'],.semicolon,⟨5,6⟩⟩] ∧
      ∃ before, before ++ [⟨[';'],.semicolon,⟨5,6⟩⟩] <+: standardTokens ⟨"x=(1+;".toList,0⟩ ∧
        ¬ Begins true (before ++ [⟨[';'],.semicolon,⟨5,6⟩⟩]) ∧
        Begins true (before ++ [⟨['-'],.minus,.unknown⟩]) := by
  have hproblems : (match (reading true .unlimited ⟨"x=(1+;".toList,0⟩ {}).1 with
      | .error (.stopped _ ps) => ps
      | _ => []) = [offence ⟨"x=(1+;".toList,0⟩ factorStarts ⟨[';'],.semicolon,⟨5,6⟩⟩] := by
    decide +kernel
  cases hf : (reading true .unlimited ⟨"x=(1+;".toList,0⟩ {}).1 with
  | ok t =>
    rw [hf] at hproblems
    cases hproblems
  | error f =>
    obtain ⟨before,got,wanted,rfl,htokens,-,hnot,-,hwanted,-⟩ :=
      reading_fails_at_first_offence true ⟨"x=(1+;".toList,0⟩ {} rfl f hf
    rw [hf] at hproblems
    have hoffence := (List.cons.inj hproblems).1
    obtain ⟨-,-,hfault,-⟩ := Problem.mk.inj hoffence
    obtain ⟨-,hkinds,rfl⟩ := Fault.unexpected.inj (Option.some.inj hfault)
    have hminus : Kind.minus ∈ wanted := by
      have hmem : Token.ofKind .minus ∈ wanted.map Token.ofKind := by
        rw [hkinds]
        decide
      obtain ⟨k,hk,hkind⟩ := List.mem_map.1 hmem
      obtain rfl : k = .minus := congrArg Token.kind hkind
      exact hk
    refine ⟨rfl,_,rfl,by rw [hoffence],before,?_,hnot,
      (hwanted .minus hminus).2 _ rfl (by simp [Token.IsLexeme,Kind.Spells,Vocabulary.standard])⟩
    rcases htokens with htokens | ⟨-,heof⟩
    · exact htokens
    · cases heof

end Source
end AssignLang
