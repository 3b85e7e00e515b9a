import AssignLang.Proofs.Listing.Meaning
import AssignLang.Proofs.Session.Replay

namespace AssignLang

namespace Quantity

theorem isInteger_neg (q : Quantity) : q.neg.isInteger = q.isInteger := by cases q <;> rfl

theorem isInteger_of_combine? {k : Kind} {x y q : Quantity} (h : combine? k x y = some q) :
    q.isInteger = (x.isInteger && y.isInteger) := by
  cases x with
  | integer m =>
    cases y with
    | integer n =>
      obtain ⟨z,-,rfl⟩ := Option.map_eq_some_iff.1 h
      rfl
    | double y =>
      obtain ⟨f,-,rfl⟩ := Option.map_eq_some_iff.1 h
      rfl
  | double x =>
    obtain ⟨f,-,rfl⟩ := Option.map_eq_some_iff.1 h
    rfl

theorem toFloat_neg {q : Quantity} (h : q.isInteger = false) : q.neg.toFloat = -q.toFloat := by
  cases q with
  | integer n => cases h
  | double x => rfl

/-- With a double among the operands C does what the evaluation does. -/
theorem combine?_of_double {k : Kind} {x y : Quantity} (h : (x.isInteger && y.isInteger) = false) :
    combine? k x y = (arithmetic? k).map fun f => double (f x.toFloat y.toFloat) := by
  cases x with
  | integer m =>
    cases y with
    | integer n => cases h
    | double y => rfl
  | double x => rfl

theorem ofConstant?_of_point {t : Text} (h : '.' ∈ t) :
    ofConstant? t = (Numeral.ofText? t).map fun n => double n.toFloat := if_pos h

/-- A constant of digits alone is decimal unless a zero stands in front of further ones. -/
theorem ofConstant?_decimal {ds : Text} (hd : ∀ c ∈ ds, c.isDigit)
    (hz : ds = ['0'] ∨ ds.head? ≠ some '0') :
    ofConstant? ds = some (integer (Numeral.naturalOf ds)) := by
  have hp : '.' ∉ ds := fun hm => absurd (hd '.' hm) (by decide)
  unfold ofConstant?
  rw [if_neg hp]
  split
  · rcases hz with hz | hz
    · cases hz
    · exact absurd rfl hz
  · rfl

theorem isInteger_of_ofConstant? {t : Text} {q : Quantity} (h : ofConstant? t = some q) :
    q.isInteger = decide ('.' ∉ t) := by
  unfold ofConstant? at h
  split at h
  · rename_i hp
    obtain ⟨n,-,rfl⟩ := Option.map_eq_some_iff.1 h
    simp [isInteger,hp]
  · rename_i hp
    split at h
    · obtain ⟨n,-,rfl⟩ := Option.map_eq_some_iff.1 h
      simp only [isInteger,hp,not_false_eq_true,decide_true]
    · obtain rfl := Option.some.inj h
      simp only [isInteger,hp,not_false_eq_true,decide_true]

end Quantity

namespace Tree

theorem meaning?_bare : (t : Tree) → (s : Store) → t.bare.meaning? s = t.meaning? s
  | leaf _, _ => rfl
  | number _ _, _ => rfl
  | name _ _, _ => rfl
  | unary _ _ t, s => by simp only [bare,meaning?,Token.bare_kind,meaning?_bare t s]
  | binary _ l _ r, s => by
    simp only [bare,meaning?,Token.bare_kind,meaning?_bare l s,meaning?_bare r s]
  | group _ t, s => by simp only [bare,meaning?,meaning?_bare t s]
  | assign _ _ _, _ => rfl
  | block _ _, _ => rfl

theorem exec?_bare (t : Tree) (s : Store) : t.bare.exec? s = t.exec? s := by
  cases t with
  | assign _ x t => simp only [bare,exec?,meaning?_bare,Token.bare_text]
  | _ => rfl

/-- Which values are integers is seen without evaluation. -/
theorem isInteger_of_meaning? {q : Quantity} {s : Store} :
    (t : Tree) → t.meaning? s = some q → q.isInteger = t.isInteger
  | number _ a, h => Quantity.isInteger_of_ofConstant? h
  | name _ a, h => by
    obtain ⟨x,-,rfl⟩ := Option.map_eq_some_iff.1 h
    rfl
  | unary _ op t, h => by
    simp only [meaning?] at h
    split at h
    · obtain ⟨x,hx,rfl⟩ := Option.map_eq_some_iff.1 h
      rw [Quantity.isInteger_neg]
      exact isInteger_of_meaning? t hx
    · cases h
  | binary _ l op r, h => by
    obtain ⟨x,hx,h⟩ := Option.bind_eq_some_iff.1 h
    obtain ⟨y,hy,h⟩ := Option.bind_eq_some_iff.1 h
    rw [Quantity.isInteger_of_combine? h,isInteger_of_meaning? l hx,isInteger_of_meaning? r hy]
    rfl
  | group _ t, h => isInteger_of_meaning? t h

/-- Constants mean the same with any store. -/
theorem meaning?_of_isInteger (s s' : Store) :
    (t : Tree) → t.isInteger → t.meaning? s = t.meaning? s'
  | number _ a, _ => rfl
  | unary _ op t, h => by simp only [meaning?,meaning?_of_isInteger s s' t h]
  | binary _ l op r, h => by
    have hlr := Bool.and_eq_true_iff.1 h
    simp only [meaning?,meaning?_of_isInteger s s' l hlr.1,meaning?_of_isInteger s s' r hlr.2]
  | group _ t, h => meaning?_of_isInteger s s' t h

/-- Constants have one value with any store. -/
theorem Arithmetic.value_of_isInteger {t : Tree} (h : t.Arithmetic) (hi : t.isInteger) :
    ∃ x, ∀ s, t.value t.height s = (.ok x,s) := by
  induction h with
  | @number span a hk ha =>
    rw [Token.IsLexeme,hk] at ha
    obtain ⟨n,hn⟩ := Numeral.exists_ofText? ha
    exact ⟨n.toFloat,fun s => by simp only [height,value,hn]⟩
  | name => cases hi
  | unary hk hop h ih =>
    obtain ⟨x,hx⟩ := ih hi
    exact ⟨-x,fun s => by simp only [height,value,if_pos hk,hx]⟩
  | binary hl hop hr ihl ihr =>
    obtain ⟨hil,hir⟩ := Bool.and_eq_true_iff.1 hi
    obtain ⟨f,hf⟩ := exists_arithmetic? hop
    obtain ⟨x,hx⟩ := ihl hil
    obtain ⟨y,hy⟩ := ihr hir
    exact ⟨f x y,fun s => value_of_both (hx s) (hy s) hf⟩
  | group h ih => exact ih hi

theorem integers_of_isInteger {t : Tree} (h : t.isInteger) : t.integers = [t] := by
  cases t with
  | number | unary | binary | group => exact if_pos h
  | _ => cases h

/-- `t` means in C what it is evaluated to, or neither is defined. -/
def Agrees (t : Tree) (s : Store) : Prop :=
  (t.meaning? s).map Quantity.toFloat = (t.value t.height s).1.toOption

theorem Agrees.exists_meaning? {t : Tree} {s s' : Store} {x : Float} (h : t.Agrees s)
    (hv : t.value t.height s = (.ok x,s')) : ∃ q, t.meaning? s = some q ∧ q.toFloat = x := by
  rw [Agrees,hv] at h
  exact Option.map_eq_some_iff.1 h

theorem Agrees.meaning?_eq_none {t : Tree} {s s' : Store} {e : Obstacle} (h : t.Agrees s)
    (hv : t.value t.height s = (.error e,s')) : t.meaning? s = none := by
  rw [Agrees,hv] at h
  exact Option.map_eq_none_iff.1 h

theorem agrees_of_ok {t : Tree} {s s' : Store} {x : Float} {q : Quantity}
    (hm : t.meaning? s = some q) (hq : q.toFloat = x) (hv : t.value t.height s = (.ok x,s')) :
    t.Agrees s := by
  rw [Agrees,hm,hv,← hq]
  rfl

theorem agrees_of_error {t : Tree} {s s' : Store} {e : Obstacle} (hm : t.meaning? s = none)
    (hv : t.value t.height s = (.error e,s')) : t.Agrees s := by
  rw [Agrees,hm,hv]
  rfl

theorem Exact.agrees {t : Tree} (he : t.Exact) (h : t.Arithmetic) (hi : t.isInteger) (s : Store) :
    t.Agrees s := by
  obtain ⟨x,hx⟩ := h.value_of_isInteger hi
  rw [Exact,hx] at he
  rw [Agrees,meaning?_of_isInteger s {} t hi,he,hx]

/-- It takes more than one number for a constant that is not exact, or a zero in front. -/
theorem exact_number {span : Span} {a : Token} (hne : a.text ≠ []) (hd : ∀ c ∈ a.text, c.isDigit)
    (hz : a.text = ['0'] ∨ a.text.head? ≠ some '0') : (number span a).Exact := by
  have hv : (number span a).value 1 {} = (.ok (Float.ofInt (Numeral.naturalOf a.text)),{}) := by
    simp only [value,Numeral.ofText?_whole hne hd,Numeral.toFloat_whole]
  have hm : (number span a).meaning? {} = some (.integer (Numeral.naturalOf a.text)) :=
    Quantity.ofConstant?_decimal hd hz
  exact agrees_of_ok hm rfl hv

/-- A constant stays one that is exact with other places. -/
theorem Exact.of_bare {t u : Tree} (h : t.Exact) (hb : t.bare = u.bare) (hi : t.isInteger)
    {x : Float} {s : Store} (hv : t.value t.height {} = (.ok x,s)) : u.isInteger ∧ u.Exact := by
  have hag : t.Agrees {} := h
  obtain ⟨q,hq,hx⟩ := hag.exists_meaning? hv
  have hu : u.meaning? {} = some q := by rw [← meaning?_bare,← hb,meaning?_bare,hq]
  constructor
  · rw [← isInteger_of_meaning? u hu,isInteger_of_meaning? t hq,hi]
  · exact agrees_of_ok hu hx (value_of_bare hb hv)

theorem agrees_of_integers {t : Tree} {s : Store} (h : t.Arithmetic)
    (he : ∀ e ∈ t.integers, e.Exact)
    (hd : t.isInteger = false → t.Agrees s) : t.Agrees s := by
  cases hi : t.isInteger with
  | true =>
    rw [integers_of_isInteger hi] at he
    exact (he t (List.mem_singleton.2 rfl)).agrees h hi s
  | false => exact hd hi

section
variable {span : Span} {op : Token} {t l r : Tree} {s : Store}

theorem agrees_number {a : Token} (ha : a.text.IsNumeral) (hp : '.' ∈ a.text) :
    (number span a).Agrees s := by
  obtain ⟨n,hn⟩ := Numeral.exists_ofText? ha
  have hm : (number span a).meaning? s = some (.double n.toFloat) := by
    rw [meaning?,Quantity.ofConstant?_of_point hp,hn,Option.map_some]
  have hv : (number span a).value 1 s = (.ok n.toFloat,s) := by simp only [value,hn]
  exact agrees_of_ok hm rfl hv

theorem agrees_name (a : Token) : (name span a).Agrees s := by
  cases hg : s.get? a.text with
  | none =>
    have hm : (name span a).meaning? s = none := by simp [meaning?,hg]
    have hv : (name span a).value 1 s = (.error (.undefined span a.text),s) := by
      simp only [value,hg]
    exact agrees_of_error hm hv
  | some x =>
    have hm : (name span a).meaning? s = some (.double x) := by simp [meaning?,hg]
    have hv : (name span a).value 1 s = (.ok x,s) := by simp only [value,hg]
    exact agrees_of_ok hm rfl hv

theorem Agrees.unary (h : t.Agrees s) (ht : t.Arithmetic) (hk : op.kind = .minus)
    (hi : t.isInteger = false) : (unary span op t).Agrees s := by
  rcases ht.value_cases s with ⟨x,hx⟩ | ⟨sp,x,hx⟩
  · obtain ⟨q,hq,rfl⟩ := h.exists_meaning? hx
    have hd : q.isInteger = false := (isInteger_of_meaning? t hq).trans hi
    have hm : (Tree.unary span op t).meaning? s = some q.neg := by simp [meaning?,hk,hq]
    have hv : (Tree.unary span op t).value (t.height+1) s = (.ok (-q.toFloat),s) := by
      simp only [value,if_pos hk,hx]
    exact agrees_of_ok hm (Quantity.toFloat_neg hd) hv
  · have hm : (Tree.unary span op t).meaning? s = none := by
      simp [meaning?,h.meaning?_eq_none hx]
    have hv : (Tree.unary span op t).value (t.height+1) s = (.error (.undefined sp x),s) := by
      simp only [value,if_pos hk,hx]
    exact agrees_of_error hm hv

theorem Agrees.binary (hl : l.Agrees s) (hr : r.Agrees s) (hla : l.Arithmetic)
    (hra : r.Arithmetic) (hop : op.IsOperator) (hi : (l.isInteger && r.isInteger) = false) :
    (binary span l op r).Agrees s := by
  obtain ⟨f,hf⟩ := exists_arithmetic? hop
  rcases hla.value_cases s with ⟨x,hx⟩ | ⟨sp,x,hx⟩
  · obtain ⟨p,hp,rfl⟩ := hl.exists_meaning? hx
    rcases hra.value_cases s with ⟨y,hy⟩ | ⟨sp,y,hy⟩
    · obtain ⟨q,hq,rfl⟩ := hr.exists_meaning? hy
      have hd : (p.isInteger && q.isInteger) = false := by
        rw [isInteger_of_meaning? l hp,isInteger_of_meaning? r hq]
        exact hi
      have hm : (Tree.binary span l op r).meaning? s = some (.double (f p.toFloat q.toFloat)) := by
        simp [meaning?,hp,hq,Quantity.combine?_of_double hd,hf]
      exact agrees_of_ok hm rfl (value_of_both hx hy hf)
    · have hm : (Tree.binary span l op r).meaning? s = none := by
        simp [meaning?,hr.meaning?_eq_none hy]
      exact agrees_of_error hm (value_of_right hx hy)
  · have hm : (Tree.binary span l op r).meaning? s = none := by
      simp [meaning?,hl.meaning?_eq_none hx]
    exact agrees_of_error hm (value_of_left hx)

end

/-- Where all constants that C takes for integers are exact, expressions mean in C what they are
evaluated to. -/
theorem Arithmetic.agrees {t : Tree} (h : t.Arithmetic) (he : ∀ e ∈ t.integers, e.Exact)
    (s : Store) : t.Agrees s := by
  apply agrees_of_integers h he
  intro hi
  induction h with
  | @number span a hk ha =>
    have hp : '.' ∈ a.text := by simpa [isInteger] using hi
    rw [Token.IsLexeme,hk] at ha
    exact agrees_number ha hp
  | @name span a hk ha => exact agrees_name a
  | @unary span op t hk hop h ih =>
    have hn : ¬ (Tree.unary span op t).isInteger := by simp [hi]
    rw [integers,if_neg hn] at he
    exact (ih he hi).unary h hk hi
  | @binary span l r op hl hop hr ihl ihr =>
    have hn : ¬ (Tree.binary span l op r).isInteger := by simp [hi]
    rw [integers,if_neg hn] at he
    obtain ⟨hel,her⟩ := List.forall_mem_append.1 he
    have hal := agrees_of_integers hl hel (ihl hel)
    have har := agrees_of_integers hr her (ihr her)
    exact hal.binary har hl hr hop hi
  | @group span t h ih =>
    have hn : ¬ (Tree.group span t).isInteger := by simp [hi]
    rw [integers,if_neg hn] at he
    exact ih he hi

theorem mem_ite_integers {t e : Tree} {es : List Tree}
    (h : e ∈ if t.isInteger then [t] else es) : t.isInteger ∧ e = t ∨ e ∈ es := by
  split at h
  · exact .inl ⟨‹_›,List.mem_singleton.1 h⟩
  · exact .inr h

/-- What C takes for an integer is an expression of its own. -/
theorem Canonical.of_mem_integers {k : Rank} {t : Tree} (h : t.Canonical k) {e : Tree}
    (he : e ∈ t.integers) : e.isInteger ∧ e.Canonical .expression := by
  induction h with
  | number hk ha =>
    rcases mem_ite_integers he with ⟨hi,rfl⟩ | he
    · exact ⟨hi,.ofTerm (.ofFactor (.number hk ha))⟩
    · cases he
  | name => cases he
  | minus hk hop h ih =>
    rcases mem_ite_integers he with ⟨hi,rfl⟩ | he
    · exact ⟨hi,.ofTerm (.ofFactor (.minus hk hop h))⟩
    · exact ih he
  | group h ih =>
    rcases mem_ite_integers he with ⟨hi,rfl⟩ | he
    · exact ⟨hi,.ofTerm (.ofFactor (.group h))⟩
    · exact ih he
  | ofFactor h ih => exact ih he
  | product hl hk hop hr ihl ihr =>
    rcases mem_ite_integers he with ⟨hi,rfl⟩ | he
    · exact ⟨hi,.ofTerm (.product hl hk hop hr)⟩
    · exact (List.mem_append.1 he).elim ihl ihr
  | ofTerm h ih => exact ih he
  | sum hl hk hop hr ihl ihr =>
    rcases mem_ite_integers he with ⟨hi,rfl⟩ | he
    · exact ⟨hi,.sum hl hk hop hr⟩
    · exact (List.mem_append.1 he).elim ihl ihr
  | assign hk hx h ih => exact ih he
  | block => cases he

theorem Canonical.exec?_eq {t : Tree} (h : t.Canonical .statement)
    (he : ∀ e ∈ t.integers, e.Exact) {s s' : Store} {x : Float}
    (hv : t.value t.height s = (.ok x,s')) : t.exec? s = some s' := by
  cases h with
  | @assign span y e hk hy h =>
    have harith : e.Arithmetic := Canonical.arithmetic h
    rcases harith.value_cases s with ⟨z,hz⟩ | ⟨sp,z,hz⟩
    · obtain ⟨q,hq,rfl⟩ := (harith.agrees he s).exists_meaning? hz
      simp only [height,value,hz] at hv
      obtain ⟨-,rfl⟩ := Prod.mk.inj hv
      simp only [exec?,hq,Option.map_some]
    · simp only [height,value,hz] at hv
      cases hv

end Tree

namespace Listing

/-- A line of code is read in C as its statement. -/
theorem statement?_code {t : Tree} (h : t.Canonical .statement) :
    ∃ u, statement? t.code = some u ∧ u.bare = t.bare := by
  have hrank : t.Canonical (.ofReading false) := h
  obtain ⟨u,hu,hb⟩ := Source.reading_code hrank 0 (c := {}) ⟨rfl,rfl⟩
  have hread : (Source.statement .standard .unlimited ⟨t.code,0⟩ {}).1 = .ok u :=
    congrArg Prod.fst hu
  refine ⟨u,?_,hb⟩
  rw [statement?,if_pos h.isPlainC_code,hread]
  rfl

theorem runLines?_code {t : Tree} (h : t.Canonical .statement) (ls : List Text) (s : Store) :
    runLines? (t.code :: ls) s = (t.exec? s).bind fun s => runLines? ls s := by
  obtain ⟨u,hu,hb⟩ := statement?_code h
  rw [runLines?,hu,Option.bind_some,← Tree.exec?_bare u,hb,Tree.exec?_bare]

theorem runLines?_append (ls ms : List Text) (s : Store) :
    runLines? (ls ++ ms) s = (runLines? ls s).bind fun s => runLines? ms s := by
  induction ls generalizing s with
  | nil => rfl
  | cons l ls ih =>
    rw [List.cons_append,runLines?,runLines?]
    cases statement? l with
    | none => rfl
    | some t =>
      cases ht : t.exec? s with
      | none => simp [ht]
      | some s' => simp [ht,ih s']

/-- Statements with exact constants run in C as they are evaluated. -/
theorem runLines?_of_runs {ts : List Tree} {s s' : Store} (h : Tree.Runs ts s s')
    (hc : ∀ t ∈ ts, t.Canonical .statement) (he : ∀ t ∈ ts, ∀ e ∈ t.integers, e.Exact) :
    runLines? (ts.map Tree.code) s = some s' := by
  induction h with
  | nil => rfl
  | @cons t ts s s' s'' x hv hs ih =>
    obtain ⟨ht,hts⟩ := List.forall_mem_cons.1 hc
    obtain ⟨het,hets⟩ := List.forall_mem_cons.1 he
    rw [List.map_cons,runLines?_code ht,ht.exec?_eq het hv,Option.bind_some,ih hts hets]

end Listing
end AssignLang
