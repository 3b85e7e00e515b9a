import AssignLang.Proofs.Grammar.Statements
import AssignLang.Proofs.Tree.Places

namespace AssignLang.Grammar

/-- Where reading came to an end, and the kinds that were wanted there if it got stuck. Of reading
that ended for lack of room nothing is known. -/
abbrev Outcome := Option (Option (List Kind) × List Token)

def outcome {α : Type} : Except Stop (α × List Token) → Outcome
  | .ok (_,rest) => some (none,rest)
  | .error (.unexpected wanted rest _) => some (some wanted,rest)
  | .error (.tooDeep _) => none

/-- Reads on, unless reading got stuck before. -/
def andThen (first : Outcome) (next : List Token → Outcome) : Outcome :=
  match first with
  | some (none,rest) => next rest
  | stuck => stuck

/-- Reads up to `n` items, as long as a token comes first that an item may start with. -/
def many (starts : Kind → Bool) (item : List Token → Outcome) : Nat → List Token → Outcome
  | 0, ts => some (none,ts)
  | n+1, ts => if begins starts ts then andThen (item ts) (many starts item n) else some (none,ts)

theorem many_of_begins {p : Kind → Bool} {item : List Token → Outcome} {n : Nat} {ts : List Token}
    (h : begins p ts = false) : many p item n ts = some (none,ts) := by
  cases n with
  | zero => rfl
  | succ n => exact if_neg (by simp [h])

/-- How many items there may be does not matter, if each of them takes up a token. -/
theorem many_of_le {p : Kind → Bool} {item : List Token → Outcome}
    (hlt : ∀ us rest, begins p us → item us = some (none,rest) → rest.length < us.length)
    {m n : Nat} {ts : List Token} (hm : ts.length ≤ m) (hn : ts.length ≤ n) :
    many p item m ts = many p item n ts := by
  induction m generalizing n ts with
  | zero =>
    obtain rfl := List.length_eq_zero_iff.1 (Nat.le_zero.1 hm)
    rw [many_of_begins rfl,many_of_begins rfl]
  | succ m ih =>
    cases hb : begins p ts with
    | false => rw [many_of_begins hb,many_of_begins hb]
    | true =>
      cases n with
      | zero =>
        obtain rfl := List.length_eq_zero_iff.1 (Nat.le_zero.1 hn)
        simp at hb
      | succ n =>
        rw [many,many,if_pos hb,if_pos hb]
        cases hi : item ts with
        | none => rfl
        | some q =>
          obtain ⟨_ | wanted,rest⟩ := q
          · have hshort := hlt ts rest hb hi
            exact ih (by omega) (by omega)
          · rfl

theorem many_of_begins_items {p : Kind → Bool} {item : List Token → Outcome}
    (hlt : ∀ us rest, begins p us → item us = some (none,rest) → rest.length < us.length)
    {ts : List Token} (hb : begins p ts) : many p item ts.length ts =
      andThen (item ts) fun us => many p item us.length us := by
  have hne : ts.length ≠ 0 := by
    rintro h
    obtain rfl := List.length_eq_zero_iff.1 h
    simp at hb
  obtain ⟨n,hn⟩ := Nat.exists_eq_succ_of_ne_zero hne
  rw [hn,many,if_pos hb]
  cases hi : item ts with
  | none => rfl
  | some q =>
    obtain ⟨_ | wanted,rest⟩ := q
    · have hshort := hlt ts rest hb hi
      exact many_of_le hlt (by omega) (Nat.le_refl _)
    · rfl

theorem outcome_eq_done {α : Type} {r : Except Stop (α × List Token)} {rest : List Token}
    (h : outcome r = some (none,rest)) : ∃ a, r = .ok (a,rest) := by
  cases r with
  | error e => cases e <;> cases h
  | ok p =>
    obtain ⟨a,us⟩ := p
    cases h
    exact ⟨a,rfl⟩

section
variable {α β : Type}

/-- The trees read on the way do not matter for where reading comes to an end. -/
theorem outcome_bind (r : Except Stop (α × List Token))
    {f : α × List Token → Except Stop (β × List Token)} {next : List Token → Outcome}
    (h : ∀ a us, outcome (f (a,us)) = next us) :
    outcome (r >>= f) = andThen (outcome r) next := by
  cases r with
  | error e => cases e <;> rfl
  | ok p => exact h p.1 p.2

end

section
variable {room : Nat} {t : Token} {ts : List Token}

theorem outcome_chain (l : Level) (n : Nat) (left : Tree) (ts : List Token) :
    outcome (chain l.isOperator (l.operandAt room) n left ts) =
      many l.isOperator (fun us => outcome (l.operandAt room us.tail)) n ts := by
  induction n generalizing left ts with
  | zero => cases ts <;> rfl
  | succ n ih =>
    cases hb : begins l.isOperator ts with
    | false => rw [chain_of_begins hb,many_of_begins hb,outcome]
    | true =>
      cases ts with
      | nil => simp at hb
      | cons op ts =>
        have hop := hb
        rw [begins_cons] at hop
        rw [chain_of_operator hop,many,if_pos hb,List.tail_cons]
        cases l.operandAt room ts with
        | error e => cases e <;> rfl
        | ok p => exact ih _ p.2

theorem outcome_chainAt (l : Level) (room : Nat) (ts : List Token) :
    outcome (l.chainAt (room+1) ts) = andThen (outcome (l.operandAt room ts)) fun us =>
      many l.isOperator (fun vs => outcome (l.operandAt room vs.tail)) us.length us := by
  rw [l.chainAt_succ]
  cases l.operandAt room ts with
  | error e => cases e <;> rfl
  | ok p => exact outcome_chain l p.2.length p.1 p.2

theorem outcome_factor_of_minus (h : t.kind = .minus) :
    outcome (factor (room+1) (t :: ts)) = outcome (factor room ts) := by
  rw [factor_of_minus h]
  cases factor room ts with
  | error e => cases e <;> rfl
  | ok p => rfl

theorem outcome_factor_of_lparen (h : t.kind = .lparen) :
    outcome (factor (room+1) (t :: ts)) =
      andThen (outcome (expression room ts)) fun us => outcome (take room .rparen us) := by
  rw [factor_of_lparen h]
  cases expression room ts with
  | error e => cases e <;> rfl
  | ok p =>
    obtain ⟨inner,us⟩ := p
    cases ht : take room .rparen us with
    | error e => cases e <;> simp [outcome,andThen,ht]
    | ok q => simp [outcome,andThen,ht]

end

theorem outcome_statement (room : Nat) (ts : List Token) :
    outcome (statement room ts) = andThen (outcome (take room .name ts)) fun ts =>
      andThen (outcome (take room .equals ts)) fun ts =>
        andThen (outcome (expression room ts)) fun ts => outcome (take room .semicolon ts) := by
  apply outcome_bind
  intro target us
  apply outcome_bind
  intro equals vs
  apply outcome_bind
  intro value ws
  change outcome (take room .semicolon ws >>= _) = _
  cases take room .semicolon ws with
  | error e => cases e <;> rfl
  | ok p => rfl

theorem outcome_statements (room n : Nat) (ts : List Token) :
    outcome (statements room n ts) =
      many (fun k => k ≠ .eof) (fun us => outcome (statement room us)) n ts := by
  induction n generalizing ts with
  | zero => cases ts <;> rfl
  | succ n ih =>
    cases ts with
    | nil => rfl
    | cons t ts =>
      rw [statements,many,begins_cons]
      by_cases hk : t.kind = .eof
      · simp [hk,outcome]
      · rw [if_neg hk,if_pos (by simpa using hk)]
        apply outcome_bind
        intro s us
        rw [← ih us]
        change outcome (statements room n us >>= _) = _
        cases statements room n us with
        | error e => cases e <;> rfl
        | ok p => rfl

/-- Tokens of the same kinds. -/
def Alike (ts us : List Token) : Prop := ts.map Token.kind = us.map Token.kind

theorem alike_of_bare {ts us : List Token} (h : ts.map Token.bare = us.map Token.bare) :
    Alike ts us := by
  have hkinds := congrArg (List.map Token.kind) h
  rw [List.map_map,List.map_map] at hkinds
  exact hkinds

/-- Reading `ts` in this room depends on nothing but the kinds of the tokens up to the one it comes
to an end at. Nor does more room make a difference. -/
def Local (read : Nat → List Token → Outcome) (room : Nat) (ts : List Token) : Prop :=
  ∀ wanted rest, read room ts = some (wanted,rest) → ∃ before, ts = before ++ rest ∧
    ∀ more before' rest', room ≤ more → Alike before' before →
      Alike (rest'.take 1) (rest.take 1) → read more (before' ++ rest') = some (wanted,rest')

theorem alike_front {before before' rest rest' : List Token} (hb : Alike before' before)
    (hr : Alike (rest'.take 1) (rest.take 1)) :
    Alike ((before' ++ rest').take 1) ((before ++ rest).take 1) := by
  cases before with
  | nil =>
    obtain rfl := List.map_eq_nil_iff.1 hb
    exact hr
  | cons t before =>
    obtain ⟨u,us,rfl,hu,-⟩ := List.map_eq_cons_iff.1 hb
    simp [Alike,hu]

theorem begins_of_alike {ts us : List Token} (h : Alike (us.take 1) (ts.take 1)) (p : Kind → Bool) :
    begins p us = begins p ts := by
  cases ts with
  | nil =>
    cases us with
    | nil => rfl
    | cons u us => cases h
  | cons t ts =>
    cases us with
    | nil => cases h
    | cons u us =>
      have hk : u.kind = t.kind := (List.cons.inj h).1
      rw [begins_cons,begins_cons,hk]

namespace Local

variable {read next : Nat → List Token → Outcome} {room : Nat} {ts : List Token}

theorem ends (wanted : Option (List Kind)) (room : Nat) (ts : List Token) :
    Local (fun _ us => some (wanted,us)) room ts := by
  intro wanted' rest hread
  obtain ⟨rfl,rfl⟩ := Prod.mk.inj (Option.some.inj hread)
  refine ⟨[],rfl,?_⟩
  intro _ before' rest' _ hb _
  obtain rfl := List.map_eq_nil_iff.1 hb
  rfl

/-- The first token decides how to read. -/
theorem congr (h : Local next room ts) (hread : ∀ more us, room ≤ more →
    Alike (us.take 1) (ts.take 1) → read more us = next more us) : Local read room ts := by
  intro wanted rest hstuck
  rw [hread room ts (Nat.le_refl room) rfl] at hstuck
  obtain ⟨before,rfl,hlocal⟩ := h wanted rest hstuck
  refine ⟨before,rfl,?_⟩
  intro more before' rest' hmore hb hr
  rw [hread more _ hmore (alike_front hb hr)]
  exact hlocal more before' rest' hmore hb hr

/-- Reading begins with the first token, whatever comes behind it. -/
theorem cons {t : Token} (h : Local next room ts) (hread : ∀ more u us, room ≤ more →
    u.kind = t.kind → read more (u :: us) = next more us) : Local read room (t :: ts) := by
  intro wanted rest hstuck
  rw [hread room t ts (Nat.le_refl room) rfl] at hstuck
  obtain ⟨before,rfl,hlocal⟩ := h wanted rest hstuck
  refine ⟨t :: before,rfl,?_⟩
  intro more before' rest' hmore hb hr
  obtain ⟨u,us,rfl,hu,hus⟩ := List.map_eq_cons_iff.1 hb
  rw [List.cons_append,hread more u _ hmore hu]
  exact hlocal more us rest' hmore hus hr

theorem succ (h : Local (fun more => read (more+1)) room ts) : Local read (room+1) ts := by
  intro wanted rest hread
  obtain ⟨before,hts,hlocal⟩ := h wanted rest hread
  refine ⟨before,hts,?_⟩
  intro more before' rest' hmore hb hr
  obtain ⟨n,rfl⟩ : ∃ n, more = n+1 := ⟨more-1,by omega⟩
  exact hlocal n before' rest' (by omega) hb hr

/-- One reader after another. -/
theorem andThen (h : Local read room ts)
    (hnext : ∀ us, read room ts = some (none,us) → Local next room us) :
    Local (fun more us => Grammar.andThen (read more us) (next more)) room ts := by
  intro wanted rest hread
  replace hread : Grammar.andThen (read room ts) (next room) = some (wanted,rest) := hread
  cases hfirst : read room ts with
  | none =>
    rw [hfirst] at hread
    cases hread
  | some p =>
    obtain ⟨w,us⟩ := p
    obtain ⟨before,hts,hlocal⟩ := h w us hfirst
    rw [hfirst] at hread
    cases w with
    | some ks =>
      obtain ⟨rfl,rfl⟩ := Prod.mk.inj (Option.some.inj hread)
      refine ⟨before,hts,?_⟩
      intro more before' rest' hmore hb hr
      simp only [hlocal more before' rest' hmore hb hr,Grammar.andThen]
    | none =>
      obtain ⟨before₂,rfl,hlocal₂⟩ := hnext us hfirst wanted rest hread
      refine ⟨before ++ before₂,by rw [hts,List.append_assoc],?_⟩
      intro more both rest' hmore hb hr
      obtain ⟨before',before₂',rfl,hb,hb₂⟩ := List.map_eq_append_iff.1
        (hb.trans List.map_append)
      have hread₁ := hlocal more before' (before₂' ++ rest') hmore hb (alike_front hb₂ hr)
      simp only [List.append_assoc,hread₁,Grammar.andThen]
      exact hlocal₂ more before₂' rest' hmore hb₂ hr

theorem take (k : Kind) (room : Nat) (ts : List Token) :
    Local (fun more us => outcome (take more k us)) room ts := by
  cases ts with
  | nil =>
    apply (ends (some [k]) room []).congr
    intro _ us _ hus
    cases us with
    | nil => rfl
    | cons u us => cases hus
  | cons t ts =>
    by_cases hk : t.kind = k
    · apply (ends none room ts).cons
      intro _ u us _ hu
      rw [take_of_kind (hu.trans hk),outcome]
    · apply (ends (some [k]) room (t :: ts)).congr
      intro _ us _ hus
      cases us with
      | nil => cases hus
      | cons u us =>
        have hu : u.kind ≠ k := by rwa [(List.cons.inj hus).1]
        rw [Grammar.take,if_neg hu,outcome]

/-- Items that are read locally are so one after another. -/
theorem many (starts : Kind → Bool) (hitem : ∀ us, begins starts us → Local read room us)
    (hlt : ∀ more us rest, begins starts us → read more us = some (none,rest) →
      rest.length < us.length) (ts : List Token) :
    Local (fun more us => many starts (read more) us.length us) room ts := by
  induction hn : ts.length using Nat.strongRecOn generalizing ts with
  | ind n ih =>
    subst hn
    cases hb : begins starts ts with
    | false =>
      apply (ends none room ts).congr
      intro more us _ hus
      rw [many_of_begins (by rw [begins_of_alike hus,hb])]
    | true =>
      have hmore : Local _ room ts := (hitem ts hb).andThen
        fun us hus => ih us.length (hlt room ts us hb hus) us rfl
      apply hmore.congr
      intro more us _ hus
      exact many_of_begins_items (hlt more) (by rw [begins_of_alike hus,hb])

end Local

theorem outcome_factor_of_other {room : Nat} {ts : List Token}
    (h : begins (fun k => k ∈ factorStarts) ts = false) :
    outcome (factor (room+1) ts) = some (some factorStarts,ts) := by
  cases ts with
  | nil => rfl
  | cons t ts =>
    rw [factor_of_other (by simpa using h),outcome]

theorem local_factor {room : Nat}
    (he : ∀ us, Local (fun more vs => outcome (expression more vs)) room us)
    (hf : ∀ us, Local (fun more vs => outcome (factor more vs)) room us) (ts : List Token) :
    Local (fun more vs => outcome (factor more vs)) (room+1) ts := by
  apply Local.succ
  cases hb : begins (fun k => k ∈ factorStarts) ts with
  | false =>
    apply (Local.ends (some factorStarts) room ts).congr
    intro more us _ hus
    exact outcome_factor_of_other (by rw [begins_of_alike hus,hb])
  | true =>
    cases ts with
    | nil => simp at hb
    | cons t ts =>
      simp only [begins_cons,factorStarts,List.mem_cons,List.not_mem_nil,or_false,
        decide_eq_true_eq] at hb
      rcases hb with hk | hk | hk | hk
      · exact (hf ts).cons fun _ _ _ _ hu => outcome_factor_of_minus (hu.trans hk)
      · have hgroup : Local _ room ts := (he ts).andThen fun us _ => Local.take .rparen room us
        exact hgroup.cons fun _ _ _ _ hu => outcome_factor_of_lparen (hu.trans hk)
      · apply (Local.ends none room ts).cons
        intro _ u us _ hu
        rw [factor_of_number (hu.trans hk),outcome]
      · apply (Local.ends none room ts).cons
        intro _ u us _ hu
        rw [factor_of_name (hu.trans hk),outcome]

theorem local_links {l : Level} {room : Nat}
    (ho : ∀ us, Local (fun more vs => outcome (l.operandAt more vs)) room us) (ts : List Token) :
    Local (fun more us => many l.isOperator (fun vs => outcome (l.operandAt more vs.tail))
      us.length us) room ts := by
  apply Local.many l.isOperator
  · intro us hb
    cases us with
    | nil => simp at hb
    | cons u us => exact (ho us).cons fun _ _ _ _ _ => rfl
  · intro more us rest hb h
    cases us with
    | nil => simp at hb
    | cons u us =>
      obtain ⟨t,ht⟩ := outcome_eq_done h
      have hlt := length_rest_lt ht
      rw [List.tail_cons] at hlt
      rw [List.length_cons]
      omega

/-- Chains and operands are read locally. -/
theorem local_reading (room : Nat) :
    (∀ (l : Level) (ts : List Token), Local (fun more us => outcome (l.chainAt more us)) room ts) ∧
      ∀ (l : Level) (ts : List Token),
        Local (fun more us => outcome (l.operandAt more us)) room ts := by
  induction room with
  | zero =>
    constructor <;> intro l ts wanted rest h <;> cases l <;> cases h
  | succ room ih =>
    have hchain (l : Level) (ts : List Token) :
        Local (fun more us => outcome (l.chainAt more us)) (room+1) ts := by
      apply Local.succ
      have hwhole : Local _ room ts := (ih.2 l ts).andThen fun us _ => local_links (ih.2 l) us
      exact hwhole.congr fun _ _ _ _ => outcome_chainAt l _ _
    refine ⟨hchain,?_⟩
    intro l ts
    cases l with
    | sum => exact hchain .product ts
    | product => exact local_factor (ih.1 .sum) (ih.2 .product) ts

theorem local_statement (room : Nat) (ts : List Token) :
    Local (fun more us => outcome (statement more us)) room ts := by
  have hvalue (us : List Token) : Local _ room us := ((local_reading room).1 .sum us).andThen
    fun vs _ => Local.take .semicolon room vs
  have hequals (us : List Token) : Local _ room us := (Local.take .equals room us).andThen
    fun vs _ => hvalue vs
  have hname : Local _ room ts := (Local.take .name room ts).andThen fun us _ => hequals us
  exact hname.congr fun _ _ _ _ => outcome_statement _ _

theorem local_statements (room : Nat) (ts : List Token) :
    Local (fun more us => outcome (statements more us.length us)) room ts := by
  have hitems : Local _ room ts := Local.many (fun k => k ≠ .eof)
    (fun us _ => local_statement room us)
    (fun more us rest _ h => length_rest_lt_of_statement (outcome_eq_done h).choose_spec) ts
  exact hitems.congr fun _ us _ _ => outcome_statements _ us.length us

end AssignLang.Grammar
