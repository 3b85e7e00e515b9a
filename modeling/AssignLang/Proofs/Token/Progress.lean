import AssignLang.Proofs.Token.Passage

namespace AssignLang

namespace Source

/-- The end of a program as a token. -/
def eof (s : Source) : Token := .ofKind .eof ⟨s.text.length,s.text.length⟩

/-- The tokens of a program, and behind them its end, forever. -/
def nth (s : Source) (i : Nat) : Token := s.standardTokens.getD i s.eof

theorem nth_of_drop {s : Source} {n : Nat} {t : Token} {ts : List Token}
    (h : s.standardTokens.drop n = t :: ts) : s.nth n = t := by
  have hget := congrArg List.head? h
  rw [List.head?_drop] at hget
  rw [nth,List.getD_eq_getElem?_getD,hget]
  rfl

theorem nth_of_le {s : Source} {n : Nat} (h : s.standardTokens.length ≤ n) : s.nth n = s.eof := by
  rw [nth,List.getD_eq_getElem?_getD,List.getElem?_eq_none h]
  rfl

/-- Only the end is of its kind. -/
theorem kind_nth_ne_eof {s : Source} {n : Nat} :
    (s.nth n).kind ≠ .eof ↔ n < s.standardTokens.length := by
  constructor
  · intro h
    apply Nat.lt_of_not_le
    intro hn
    rw [nth_of_le hn] at h
    exact h rfl
  · intro h
    rw [nth,List.getD_eq_getElem?_getD,List.getElem?_eq_getElem h]
    exact kind_ne_eof (List.getElem_mem h)

/-- `k` tokens from the one with number `n` on. -/
def stretch (s : Source) (n k : Nat) : List Token := (List.range' n k).map s.nth

theorem length_stretch (s : Source) (n k : Nat) : (s.stretch n k).length = k := by simp [stretch]

theorem stretch_succ {s : Source} (n k : Nat) :
    s.stretch n (k+1) = s.nth n :: s.stretch (n+1) k := by
  rw [stretch,List.range'_succ,List.map_cons,stretch]

theorem stretch_append (s : Source) (n k l : Nat) :
    s.stretch n k ++ s.stretch (n+k) l = s.stretch n (k+l) := by
  rw [stretch,stretch,stretch,← List.map_append,List.range'_append_1]

/-- All tokens still to come, and the end. -/
theorem drop_append_eof (s : Source) (n : Nat) :
    s.standardTokens.drop n ++ [s.eof] = s.stretch n (s.standardTokens.length-n+1) := by
  induction hk : s.standardTokens.length-n generalizing n with
  | zero =>
    rw [List.drop_eq_nil_of_le (by omega),stretch,List.range'_one,List.map_singleton,
      nth_of_le (by omega)]
    rfl
  | succ k ih =>
    have hn : n < s.standardTokens.length := by omega
    have hfirst := List.drop_eq_getElem_cons hn
    have hnth := nth_of_drop hfirst
    rw [hfirst,List.cons_append,ih (n+1) (by omega),stretch_succ n (k+1),hnth]

end Source

namespace Cursor

/-- What can be asked of a cursor. -/
inductive Action where
  | next
  | current
  | expect (t : Token)
  | position
  | done
  | remaining

/-- The tokens that become current on the way, and where it leads to. A failure does not end the use
of a cursor. -/
def perform (c : Cursor) (o : Console) : Action → List Token × Cursor × Console
  | .next =>
    let (_,c,o) := c.next o
    (c.token.toList,c,o)
  | .current => ([],c,(c.current o).2)
  | .expect t =>
    match c.expect t o with
    | (.ok _,c,o) => (c.token.toList,c,o)
    | (.error _,c,o) => ([],c,o)
  | .position => ([],c,o)
  | .done => ([],c,o)
  | .remaining =>
    match c.remaining o with
    | (.ok ts,c,o) => (ts ++ c.token.toList,c,o)
    | (.error _,c,o) => ([],c,o)

def performAll (c : Cursor) (o : Console) : List Action → List Token × Cursor × Console
  | [] => ([],c,o)
  | a :: as =>
    let (ts,c,o) := c.perform o a
    let (us,c,o) := c.performAll o as
    (ts ++ us,c,o)

/-- What is reported where a cursor stands at something that was not wanted. -/
def offence (c : Cursor) (span : Span) (wanted got : Token) : Problem :=
  ⟨c.source,span,some (.unexpected c.position [wanted] got),1,1,none⟩

/-- A cursor in a program, `n` tokens of which have become current. -/
structure Reached (s : Source) (n : Nat) (c : Cursor) : Prop where
  source : c.source = s
  vocabulary : c.vocabulary = .standard
  tokens : Piece.tokens c.position c.pieces = s.standardTokens.drop n
  position_le : c.position ≤ s.text.length
  first : n = 0 → c.position = 0 ∧ c.token = none
  last : ∀ k, n = k+1 → c.token = some (s.nth k) ∧ (s.nth k).span.stop = c.position

theorem reached_start (s : Source) : (start s).Reached s 0 where
  source := rfl
  vocabulary := rfl
  tokens := rfl
  position_le := Nat.zero_le _
  first := fun _ => ⟨rfl,rfl⟩
  last := fun k hk => by omega

section
variable {s : Source} {n : Nat} {c : Cursor} {o : Console}

/-- Nothing is to come behind the end. -/
theorem reached_finished (hs : c.source = s) (hv : c.vocabulary = .standard)
    (hn : s.standardTokens.length ≤ n) : c.finished.Reached s (n+1) where
  source := hs
  vocabulary := hv
  tokens := by
    have hrest : c.finished.rest = [] := List.drop_length
    rw [pieces,hrest,List.drop_eq_nil_of_le (by omega)]
    rfl
  position_le := Nat.le_of_eq (congrArg (fun s => s.text.length) hs)
  first := fun h => by omega
  last := by
    intro k hk
    obtain rfl : n = k := by omega
    rw [Source.nth_of_le hn,Source.eof,← hs]
    exact ⟨rfl,rfl⟩

theorem Reached.next (h : c.Reached s n) (o : Console) :
    ∃ c' bad, c.next o = (decide (n < s.standardTokens.length),c',o.warnIllegal s bad) ∧
      c'.Reached s (n+1) := by
  obtain ⟨rfl,hv,htokens,hle,-,-⟩ := h
  rcases c.next_cases hle o with ⟨hnil,hnext⟩ | ⟨bad,t,c',hnext,hc',hstop,hle',hcons,-⟩
  · have hn : c.source.standardTokens.length ≤ n := by
      rw [htokens] at hnil
      exact List.drop_eq_nil_iff.1 hnil
    rw [decide_eq_false (Nat.not_lt.2 hn)]
    exact ⟨c.finished,_,hnext,reached_finished rfl hv hn⟩
  · rw [htokens] at hcons
    have hn : n < c.source.standardTokens.length := by
      apply Nat.lt_of_not_le
      intro hn
      rw [List.drop_eq_nil_of_le hn] at hcons
      cases hcons
    rw [decide_eq_true hn]
    refine ⟨c',bad,hnext,?_⟩
    constructor
    · rw [hc']
    · rw [hc']
      exact hv
    · rw [← List.drop_drop,hcons]
      rfl
    · exact hle'
    · intro h0
      omega
    · intro k hk
      obtain rfl : n = k := by omega
      rw [Source.nth_of_drop hcons]
      exact ⟨by rw [hc'],hstop⟩

theorem remaining_eq (ho : o.problems = []) : c.remaining o =
    (.ok (Piece.tokens c.position c.pieces),c.finished,
      (o.warnIllegal c.source (Piece.illegals c.position c.pieces)).flush) := by
  have hqueue : (o.warnIllegal c.source (Piece.illegals c.position c.pieces)).problems = [] := ho
  have hreport := Console.report_of_problems hqueue .scanner
  rw [pieces] at hreport
  rw [Cursor.remaining,hreport]
  rfl

theorem Reached.remaining (h : c.Reached s n) (ho : o.problems = []) :
    ∃ c' o', c.Scans o (s.standardTokens.drop n) c' o' ∧
      c.remaining o = (.ok (s.standardTokens.drop n),c',o'.flush) ∧ c'.token = some s.eof ∧
      c'.Reached s (n+(s.standardTokens.length-n+1)) := by
  obtain ⟨rfl,hv,htokens,hle,-,-⟩ := h
  have hscans := c.scans hle o
  rw [htokens] at hscans
  refine ⟨c.finished,_,hscans,?_,rfl,?_⟩
  · rw [remaining_eq ho,htokens]
  · rw [← Nat.add_assoc]
    exact reached_finished rfl hv (by omega)

/-- A cursor that has not moved yet has no token to show, and is none the worse for being asked. -/
theorem current_of_none (ht : c.token = none) (ho : o.problems = []) :
    c.current o = (.error (.stopped .parser
      [c.offence ⟨c.position,c.position⟩ (.ofKind .any) (.ofKind .empty)]),o.flush) := by
  have hfail : o.fail c.source ⟨c.position,c.position⟩
      (.unexpected c.position [.ofKind .any] (.ofKind .empty)) = _ := Console.fail_eq ho rfl
  rw [current,ht,hfail]
  rfl

theorem current_of_some {t : Token} (ht : c.token = some t) : c.current o = (.ok t,o) := by
  rw [current,ht]

theorem expect_of_none (ht : c.token = none) (ho : o.problems = []) (w : Token) :
    c.expect w o = (.error (.stopped .parser
      [c.offence ⟨c.position,c.position⟩ (.ofKind .any) (.ofKind .empty)]),c,o.flush) := by
  rw [expect,current_of_none ht ho]

theorem expect_of_ne {t w : Token} (ht : c.token = some t) (hw : w.kind ≠ t.kind)
    (ho : o.problems = []) :
    c.expect w o = (.error (.stopped .parser [c.offence t.span w t]),c,o.flush) := by
  have hfail : o.fail c.source t.span (.unexpected c.position [w] t) = _ := Console.fail_eq ho rfl
  rw [expect,current_of_some ht]
  simp only [if_neg hw,hfail]
  rfl

theorem expect_of_eq {t w : Token} (ht : c.token = some t) (hw : w.kind = t.kind) :
    c.expect w o = (.ok t,(c.next o).2) := by
  rw [expect,current_of_some ht]
  simp only [if_pos hw]

theorem Reached.token (h : c.Reached s (n+1)) : c.token = some (s.nth n) := (h.last n rfl).1

/-- Whatever a cursor is asked for, it stays where it is, goes on to the next token, or reads all
that is to come. -/
theorem perform_cases (ho : o.problems = []) (a : Action) :
    (∃ o', c.perform o a = ([],c,o') ∧ (o' = o ∨ o' = o.flush)) ∨
      c.perform o a = ((c.next o).2.1.token.toList,(c.next o).2) ∨
      ∃ ts c' o', c.remaining o = (.ok ts,c',o') ∧
        c.perform o a = (ts ++ c'.token.toList,c',o') := by
  cases a with
  | next => exact .inr (.inl rfl)
  | current =>
    cases ht : c.token with
    | none => exact .inl ⟨o.flush,by rw [Cursor.perform,current_of_none ht ho],.inr rfl⟩
    | some t => exact .inl ⟨o,by rw [Cursor.perform,current_of_some ht],.inl rfl⟩
  | expect w =>
    cases ht : c.token with
    | none => exact .inl ⟨o.flush,by rw [Cursor.perform,expect_of_none ht ho w],.inr rfl⟩
    | some t =>
      by_cases hw : w.kind = t.kind
      · exact .inr (.inl (by rw [Cursor.perform,expect_of_eq ht hw]))
      · exact .inl ⟨o.flush,by rw [Cursor.perform,expect_of_ne ht hw ho],.inr rfl⟩
  | position => exact .inl ⟨o,rfl,.inl rfl⟩
  | done => exact .inl ⟨o,rfl,.inl rfl⟩
  | remaining =>
    have hremaining : c.remaining o = _ := remaining_eq ho
    exact .inr (.inr ⟨_,_,_,hremaining,by rw [Cursor.perform,hremaining]⟩)

/-- Whatever a cursor is asked for, what becomes current are the next tokens. -/
theorem Reached.perform (h : c.Reached s n) (ho : o.problems = []) (a : Action) :
    ∃ k c' o', c.perform o a = (s.stretch n k,c',o') ∧ c'.Reached s (n+k) ∧ o'.problems = [] := by
  rcases c.perform_cases ho a with ⟨o',hstay,ho'⟩ | hnext | ⟨ts,c',o',hremaining,hall⟩
  · refine ⟨0,c,o',hstay,h,?_⟩
    rcases ho' with rfl | rfl
    · exact ho
    · rfl
  · obtain ⟨c',bad,hc',hreached⟩ := h.next o
    refine ⟨1,c',o.warnIllegal s bad,?_,hreached,ho⟩
    rw [hnext,hc']
    simp only [hreached.token]
    rfl
  · obtain ⟨c₁,o₁,-,hsame,htoken,hreached⟩ := h.remaining ho
    rw [hsame] at hremaining
    obtain ⟨hts,hrest⟩ := Prod.mk.inj hremaining
    obtain ⟨rfl,rfl⟩ := Prod.mk.inj hrest
    obtain rfl := Except.ok.inj hts
    refine ⟨_,c₁,o₁.flush,?_,hreached,rfl⟩
    rw [hall,htoken]
    simp only [Option.toList,Source.drop_append_eof]

theorem Reached.performAll (h : c.Reached s n) (ho : o.problems = []) (as : List Action) :
    ∃ k c' o', c.performAll o as = (s.stretch n k,c',o') ∧ c'.Reached s (n+k) ∧
      o'.problems = [] := by
  induction as generalizing n c o with
  | nil => exact ⟨0,c,o,rfl,h,ho⟩
  | cons a as ih =>
    obtain ⟨k,c₁,o₁,ha,hreached,ho₁⟩ := h.perform ho a
    obtain ⟨l,c₂,o₂,has,hreached₂,ho₂⟩ := ih hreached ho₁
    refine ⟨k+l,c₂,o₂,?_,by rwa [← Nat.add_assoc],ho₂⟩
    simp only [Cursor.performAll,ha,has,Source.stretch_append]

theorem Reached.token_eq_getLast? (h : c.Reached s n) : c.token = (s.stretch 0 n).getLast? := by
  cases n with
  | zero => exact (h.first rfl).2
  | succ n =>
    rw [h.token,← Source.stretch_append,Nat.zero_add,List.getLast?_append]
    rfl

theorem Reached.position_eq_zero (h : c.Reached s n) (ht : c.token = none) : c.position = 0 := by
  cases n with
  | zero => exact (h.first rfl).1
  | succ n =>
    rw [h.token] at ht
    cases ht

theorem Reached.stop_eq (h : c.Reached s n) {t : Token} (ht : c.token = some t) :
    t.span.stop = c.position := by
  cases n with
  | zero =>
    rw [(h.first rfl).2] at ht
    cases ht
  | succ n =>
    obtain ⟨hlast,hstop⟩ := h.last n rfl
    obtain rfl := Option.some.inj (hlast.symm.trans ht)
    exact hstop

theorem Reached.done_iff (h : c.Reached s n) : c.done ↔ c.position = s.text.length := by
  have hle := h.position_le
  rw [done,decide_eq_true_iff,h.source]
  omega

end

/-- How a cursor goes on in a program with the tokens `ts` when `n` tokens, the end among them, have
become current. -/
structure Continues (s : Source) (ts : List Token) (n : Nat) (c : Cursor) (o : Console) : Prop where
  next : ∃ t c' o', t = ts.getD n s.eof ∧ c.next o = (decide (t.kind ≠ .eof),c',o') ∧
    c'.token = some t
  remaining : ∃ c' o', c.Scans o (ts.drop n) c' o' ∧
    c.remaining o = (.ok (ts.drop n),c',o'.flush) ∧ c'.token = some s.eof
  first : c.token = none → (∃ ps o', c.current o = (.error (.stopped .parser ps),o')) ∧
    ∀ w, ∃ ps o', c.expect w o = (.error (.stopped .parser ps),c,o')
  current : ∀ t, c.token = some t → c.current o = (.ok t,o)
  expected : ∀ t w, c.token = some t → w.kind = t.kind → c.expect w o = (.ok t,(c.next o).2)
  unexpected : ∀ t w, c.token = some t → w.kind ≠ t.kind →
    ∃ ps o', c.expect w o = (.error (.stopped .parser ps),c,o')

theorem Reached.continues {s : Source} {n : Nat} {c : Cursor} {o : Console} (h : c.Reached s n)
    (ho : o.problems = []) : c.Continues s s.standardTokens n o where
  next := by
    obtain ⟨c',bad,hnext,hreached⟩ := h.next o
    have hmore : decide ((s.nth n).kind ≠ .eof) = decide (n < s.standardTokens.length) :=
      decide_eq_decide.2 Source.kind_nth_ne_eof
    exact ⟨s.nth n,c',_,rfl,by rw [hnext,hmore],hreached.token⟩
  remaining := by
    obtain ⟨c',o',hscans,hremaining,htoken,-⟩ := h.remaining ho
    exact ⟨c',o',hscans,hremaining,htoken⟩
  first := by
    intro ht
    exact ⟨⟨_,_,current_of_none ht ho⟩,fun w => ⟨_,_,expect_of_none ht ho w⟩⟩
  current := fun t ht => current_of_some ht
  expected := fun t w ht hw => expect_of_eq ht hw
  unexpected := by
    intro t w ht hw
    exact ⟨_,_,expect_of_ne ht hw ho⟩

/-- However a cursor is used, and whatever fails on the way, the tokens of the whole program become
current one after the other, and then its end, again and again. The cursor stands behind the token
that became current last. -/
theorem one_stream_however_used (s : Source) (o : Console) (ho : o.problems = [])
    (as : List Action) : ∃ ts log c o', (s.tokens .standard o).1 = .ok ts ∧
      (start s).performAll o as = (log,c,o') ∧ o'.problems = [] ∧
      log = (List.range log.length).map (ts.getD · s.eof) ∧ c.token = log.getLast? ∧
      (c.token = none → c.position = 0) ∧ (∀ t, c.token = some t → t.span.stop = c.position) ∧
      c.position ≤ s.text.length ∧ (c.done ↔ c.position = s.text.length) ∧
      c.Continues s ts log.length o' := by
  obtain ⟨n,c,o',hrun,hreached,ho'⟩ := (reached_start s).performAll ho as
  rw [Nat.zero_add] at hreached
  refine ⟨_,_,c,o',Source.tokens_of_problems ho,hrun,ho',?_,hreached.token_eq_getLast?,
    hreached.position_eq_zero,fun t => hreached.stop_eq,hreached.position_le,hreached.done_iff,?_⟩
  · rw [Source.length_stretch,List.range_eq_range']
    rfl
  · rw [Source.length_stretch]
    exact hreached.continues ho'

/-- After two failing questions and an expectation that is not met, what is still to come is just
what was not read, and then the end comes twice. -/
theorem one_stream_however_used_failures :
    Console.problems {} = [] ∧ ∃ s as ts c o', s = ⟨"a = $1;".toList,0⟩ ∧
      as = [.current,.expect (.ofKind .name),.next,.expect (.ofKind .number),
        .expect (.ofKind .name),.position,.remaining,.next] ∧
      (s.tokens .standard {}).1 = .ok ts ∧
      (start s).performAll {} as = (ts ++ [s.eof,s.eof],c,o') ∧ c.position = 7 ∧
      c.Continues s ts 6 o' := by
  let s : Source := ⟨"a = $1;".toList,0⟩
  let as : List Action := [.current,.expect (.ofKind .name),.next,.expect (.ofKind .number),
    .expect (.ofKind .name),.position,.remaining,.next]
  obtain ⟨ts,log,c,o',hts,hrun,-,-,htoken,-,hstop,-,-,hcontinues⟩ :=
    one_stream_however_used s {} rfl as
  have hlog : ((start s).performAll {} as).1 = s.standardTokens ++ [s.eof,s.eof] := by
    decide +kernel
  have hlength : ((start s).performAll {} as).1.length = 6 := by decide +kernel
  obtain rfl : s.standardTokens = ts := by
    have hall := Source.tokens_of_problems (s := s) (c := {}) rfl
    exact Except.ok.inj (hall.symm.trans hts)
  rw [hrun] at hlog hlength
  obtain rfl : log = s.standardTokens ++ [s.eof,s.eof] := hlog
  have hposition : ((7 : Nat) : Int) = c.position := by
    apply hstop s.eof
    rw [htoken]
    simp
  rw [hlength] at hcontinues
  exact ⟨rfl,s,as,_,c,o',rfl,rfl,hts,hrun,(Int.ofNat.inj hposition).symm,hcontinues⟩

end Cursor
end AssignLang
