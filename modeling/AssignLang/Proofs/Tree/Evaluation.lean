import AssignLang.Proofs.Numeral.Literal
import AssignLang.Proofs.Tree.Canonical
import AssignLang.Tree.Value

namespace AssignLang

/-- An obstacle without its place. -/
def Obstacle.bare : Obstacle → Obstacle
  | undefined _ x => undefined .unknown x
  | unevaluable _ node => unevaluable .unknown node
  | notANumber text => notANumber text
  | tooDeep => tooDeep

/-- Evaluation was kept from a value by what a program may bring with it. -/
def Obstacle.IsDue : Obstacle → Prop
  | undefined _ _ => True
  | unevaluable _ _ => False
  | notANumber _ => False
  | tooDeep => True

theorem divide_of_quotient? {x y z : Float} (h : quotient? x y = some z) : divide x y = z := by
  by_cases hy : y == 0.0
  · simp [quotient?,hy] at h
  · have hdivide := divide?_eq x y
    rw [divide?,if_neg hy,h] at hdivide
    exact (Option.some.inj hdivide).symm

namespace Tree

theorem value_zero (t : Tree) (s : Store) : t.value 0 s = (.error .tooDeep,s) := by
  cases t <;> rfl

mutual

/-- More room than a tree is high makes no difference. -/
theorem value_congr_room : (t : Tree) → {m n : Nat} → t.height ≤ m → t.height ≤ n → (s : Store) →
    t.value m s = t.value n s
  | leaf _, m+1, n+1, _, _, _ => rfl
  | number _ _, m+1, n+1, _, _, _ => rfl
  | name _ _, m+1, n+1, _, _, _ => rfl
  | unary _ _ t, m+1, n+1, hm, hn, s => by
    rw [height] at hm hn
    rw [value,value,value_congr_room t (Nat.le_of_succ_le_succ hm) (Nat.le_of_succ_le_succ hn) s]
  | binary _ l _ r, m+1, n+1, hm, hn, s => by
    rw [height] at hm hn
    have hl := value_congr_room l (m := m) (n := n) (by omega) (by omega)
    have hr := value_congr_room r (m := m) (n := n) (by omega) (by omega)
    simp only [value,hl,hr]
  | group _ t, m+1, n+1, hm, hn, s => by
    rw [height] at hm hn
    rw [value,value,value_congr_room t (Nat.le_of_succ_le_succ hm) (Nat.le_of_succ_le_succ hn) s]
  | assign _ _ t, m+1, n+1, hm, hn, s => by
    rw [height] at hm hn
    rw [value,value,value_congr_room t (Nat.le_of_succ_le_succ hm) (Nat.le_of_succ_le_succ hn) s]
  | block _ ts, m+1, n+1, hm, hn, s => by
    rw [height] at hm hn
    exact valueAll_congr_room ts (Nat.le_of_succ_le_succ hm) (Nat.le_of_succ_le_succ hn) s 0.0

theorem valueAll_congr_room : (ts : List Tree) → {m n : Nat} → heightAll ts ≤ m →
    heightAll ts ≤ n → (s : Store) → (last : Float) → valueAll ts m s last = valueAll ts n s last
  | [], _, _, _, _, _, _ => rfl
  | t :: ts, m, n, hm, hn, s, _ => by
    rw [heightAll] at hm hn
    have ht := value_congr_room t (m := m) (n := n) (by omega) (by omega)
    have hts := valueAll_congr_room ts (m := m) (n := n) (by omega) (by omega)
    simp only [valueAll,ht,hts]

end

/-- What evaluation comes to, without the places. -/
def bareResult (r : Except Obstacle Float × Store) : Except Obstacle Float × Store :=
  (r.1.mapError Obstacle.bare,r.2)

@[simp] theorem bareResult_ok (x : Float) (s : Store) : bareResult (.ok x,s) = (.ok x,s) := rfl

@[simp] theorem bareResult_error (e : Obstacle) (s : Store) :
    bareResult (.error e,s) = (.error e.bare,s) := rfl

theorem bareResult_eq_ok {r : Except Obstacle Float × Store} {x : Float} {s : Store}
    (h : bareResult r = (.ok x,s)) : r = (.ok x,s) := by
  obtain ⟨e | y,s'⟩ := r
  · simp at h
  · simpa using h

mutual

/-- The places of a tree show in obstacles alone. -/
theorem value_bare : (t : Tree) → (room : Nat) → (s : Store) →
    t.bare.value room s = bareResult (t.value room s)
  | t, 0, s => by
    rw [value_zero,value_zero]
    rfl
  | leaf _, _+1, _ => rfl
  | number _ a, _+1, s => by
    simp only [bare,value,Token.bare_text]
    cases Numeral.ofText? a.text <;> simp [Obstacle.bare]
  | name _ a, _+1, s => by
    simp only [bare,value,Token.bare_text]
    cases s.get? a.text <;> simp [Obstacle.bare]
  | unary _ op t, room+1, s => by
    simp only [bare,value,Token.bare_kind,value_bare t room s]
    split
    · obtain ⟨e | x,s'⟩ := t.value room s <;> simp
    · rfl
  | binary _ l op r, room+1, s => by
    simp only [bare,value,Token.bare_kind,value_bare l room s]
    obtain ⟨e | x,s'⟩ := l.value room s
    · simp
    · simp only [bareResult_ok,value_bare r room s']
      obtain ⟨e | y,s''⟩ := r.value room s'
      · simp
      · cases arithmetic? op.kind with
        | none => rfl
        | some f => simp
  | group _ t, room+1, s => by
    simp only [bare,value,value_bare t room s]
  | assign _ x t, room+1, s => by
    simp only [bare,value,value_bare t room s,Token.bare_text]
    obtain ⟨e | y,s'⟩ := t.value room s <;> simp
  | block _ ts, room+1, s => by
    simp only [bare,value,valueAll_bareAll ts room s]

theorem valueAll_bareAll : (ts : List Tree) → (room : Nat) → (s : Store) → (last : Float) →
    valueAll (bareAll ts) room s last = bareResult (valueAll ts room s last)
  | [], _, _, _ => rfl
  | t :: ts, room, s, _ => by
    simp only [bareAll,valueAll,value_bare t room s]
    obtain ⟨e | x,s'⟩ := t.value room s
    · simp
    · exact valueAll_bareAll ts room s' x

end

mutual

/-- Nor do they make a difference to where evaluation ends. -/
theorem roomLeft_bare : (t : Tree) → (room : Nat) → (s : Store) →
    t.bare.roomLeft room s = t.roomLeft room s
  | t, 0, _ => by cases t <;> rfl
  | leaf _, _+1, _ => rfl
  | number _ _, _+1, _ => rfl
  | name _ _, _+1, _ => rfl
  | unary _ _ t, room+1, s => by
    simp only [bare,roomLeft,Token.bare_kind,roomLeft_bare t room s]
  | binary _ l _ r, room+1, s => by
    simp only [bare,roomLeft,value_bare l room s,roomLeft_bare l room s]
    obtain ⟨e | x,s'⟩ := l.value room s
    · rfl
    · simp only [bareResult_ok,value_bare r room s',roomLeft_bare r room s']
      obtain ⟨e | y,s''⟩ := r.value room s' <;> rfl
  | group _ t, room+1, s => roomLeft_bare t room s
  | assign _ _ t, room+1, s => roomLeft_bare t room s
  | block _ ts, room+1, s => roomLeftAll_bareAll ts room s

theorem roomLeftAll_bareAll : (ts : List Tree) → (room : Nat) → (s : Store) →
    roomLeftAll (bareAll ts) room s = roomLeftAll ts room s
  | [], _, _ => rfl
  | t :: ts, room, s => by
    simp only [bareAll,roomLeftAll,value_bare t room s,roomLeft_bare t room s]
    obtain ⟨e | x,s'⟩ := t.value room s
    · rfl
    · exact roomLeftAll_bareAll ts room s'

end

mutual

theorem height_bare : (t : Tree) → t.bare.height = t.height
  | leaf _ => rfl
  | number _ _ => rfl
  | name _ _ => rfl
  | unary _ _ t => by simp [bare,height,height_bare t]
  | binary _ l _ r => by simp [bare,height,height_bare l,height_bare r]
  | group _ t => by simp [bare,height,height_bare t]
  | assign _ _ t => by simp [bare,height,height_bare t]
  | block _ ts => by simp [bare,height,heightAll_bareAll ts]

theorem heightAll_bareAll : (ts : List Tree) → heightAll (bareAll ts) = heightAll ts
  | [] => rfl
  | t :: ts => by simp [bareAll,heightAll,height_bare t,heightAll_bareAll ts]

end

theorem height_of_bare {t u : Tree} (h : t.bare = u.bare) : t.height = u.height := by
  rw [← height_bare t,h,height_bare]

theorem height_le_heightAll {t : Tree} {ts : List Tree} (h : t ∈ ts) : t.height ≤ heightAll ts := by
  induction ts with
  | nil => cases h
  | cons u us ih =>
    rw [heightAll]
    rcases List.mem_cons.1 h with rfl | h
    · omega
    · have hle := ih h
      omega

theorem height_le_of_mem_statements {t u : Tree} (h : u ∈ t.statements) : u.height ≤ t.height := by
  cases t with
  | block span body =>
    have hle : u.height ≤ heightAll body := height_le_heightAll h
    rw [height]
    omega
  | leaf | number | name | unary | binary | group | assign =>
    obtain rfl := List.mem_singleton.1 h
    exact Nat.le_refl _

/-- Trees that differ in places only have the same values. -/
theorem value_of_bare {t u : Tree} (h : t.bare = u.bare) {s s' : Store} {x : Float}
    (hv : t.value t.height s = (.ok x,s')) : u.value u.height s = (.ok x,s') := by
  have ht := value_bare t t.height s
  rw [h,value_bare,hv] at ht
  rw [← height_of_bare h]
  exact bareResult_eq_ok ht

theorem exists_arithmetic? {op : Token} (h : op.IsOperator) :
    ∃ f, arithmetic? op.kind = some f := by
  have hk := h.1
  simp only [List.mem_cons,List.not_mem_nil,or_false] at hk
  rcases hk with hk | hk | hk | hk <;> rw [hk] <;> exact ⟨_,rfl⟩

section
variable {span : Span} {l r : Tree} {op : Token} {s s' s'' : Store} {x y : Float} {e : Obstacle}

theorem value_of_left (hl : l.value l.height s = (.error e,s')) :
    (binary span l op r).value (binary span l op r).height s = (.error e,s') := by
  rw [← value_congr_room l (m := max l.height r.height) (by omega) (by omega)] at hl
  simp only [height,value,hl]

theorem value_of_right (hl : l.value l.height s = (.ok x,s'))
    (hr : r.value r.height s' = (.error e,s'')) :
    (binary span l op r).value (binary span l op r).height s = (.error e,s'') := by
  rw [← value_congr_room l (m := max l.height r.height) (by omega) (by omega)] at hl
  rw [← value_congr_room r (m := max l.height r.height) (by omega) (by omega)] at hr
  simp only [height,value,hl,hr]

theorem value_of_both {f : Float → Float → Float} (hl : l.value l.height s = (.ok x,s'))
    (hr : r.value r.height s' = (.ok y,s'')) (hf : arithmetic? op.kind = some f) :
    (binary span l op r).value (binary span l op r).height s = (.ok (f x y),s'') := by
  rw [← value_congr_room l (m := max l.height r.height) (by omega) (by omega)] at hl
  rw [← value_congr_room r (m := max l.height r.height) (by omega) (by omega)] at hr
  simp only [height,value,hl,hr,hf]

end

mutual

/-- The variables a tree reads, from left to right, and where it does. -/
def reads : Tree → List (Span × Text)
  | leaf _ | number .. => []
  | name span a => [(span,a.text)]
  | unary _ _ t => t.reads
  | binary _ l _ r => l.reads ++ r.reads
  | group _ t => t.reads
  | assign _ _ t => t.reads
  | block _ ts => readsAll ts

def readsAll : List Tree → List (Span × Text)
  | [] => []
  | t :: ts => t.reads ++ readsAll ts

end

/-- The first variable read that is not in the store. -/
def missing? (s : Store) (t : Tree) : Option (Span × Text) :=
  t.reads.find? fun r => !s.contains r.2

theorem missing?_eq_none {s : Store} {t : Tree} :
    t.missing? s = none ↔ ∀ r ∈ t.reads, s.contains r.2 := by
  simp [missing?,List.find?_eq_none]

theorem missing?_binary (s : Store) (span : Span) (l r : Tree) (op : Token) :
    (binary span l op r).missing? s = (l.missing? s).or (r.missing? s) := by
  rw [missing?,reads,List.find?_append]
  rfl

/-- An expression has a value if it misses no variable. Otherwise the first one it misses is the
obstacle. -/
theorem Arithmetic.value_of_missing? {t : Tree} (h : t.Arithmetic) (s : Store) :
    (t.missing? s = none ∧ ∃ x, t.value t.height s = (.ok x,s)) ∨
      ∃ span x, t.missing? s = some (span,x) ∧
        t.value t.height s = (.error (.undefined span x),s) := by
  induction h with
  | @number span a hk ha =>
    rw [Token.IsLexeme,hk] at ha
    obtain ⟨n,hn⟩ := Numeral.exists_ofText? ha
    exact .inl ⟨rfl,n.toFloat,by simp only [height,value,hn]⟩
  | @name span a hk ha =>
    cases hg : s.get? a.text with
    | none =>
      exact .inr ⟨span,a.text,by simp [missing?,reads,Store.contains,hg],
        by simp only [height,value,hg]⟩
    | some x =>
      exact .inl ⟨by simp [missing?,reads,Store.contains,hg],x,by simp only [height,value,hg]⟩
  | @unary span op t hk hop h ih =>
    rcases ih with ⟨hm,x,hx⟩ | ⟨sp,x,hm,hx⟩
    · exact .inl ⟨hm,-x,by simp only [height,value,if_pos hk,hx]⟩
    · exact .inr ⟨sp,x,hm,by simp only [height,value,if_pos hk,hx]⟩
  | @binary span l r op hl hop hr ihl ihr =>
    obtain ⟨f,hf⟩ := exists_arithmetic? hop
    rcases ihl with ⟨hml,x,hx⟩ | ⟨sp,x,hml,hx⟩
    · rcases ihr with ⟨hmr,y,hy⟩ | ⟨sp,y,hmr,hy⟩
      · exact .inl ⟨by rw [missing?_binary,hml,hmr]; rfl,f x y,value_of_both hx hy hf⟩
      · exact .inr ⟨sp,y,by rw [missing?_binary,hml,hmr]; rfl,value_of_right hx hy⟩
    · exact .inr ⟨sp,x,by rw [missing?_binary,hml]; rfl,value_of_left hx⟩
  | group h ih => exact ih

/-- In any case it leaves the store as it is. -/
theorem Arithmetic.value_cases {t : Tree} (h : t.Arithmetic) (s : Store) :
    (∃ x, t.value t.height s = (.ok x,s)) ∨
      ∃ span x, t.value t.height s = (.error (.undefined span x),s) := by
  rcases h.value_of_missing? s with ⟨-,hvalue⟩ | ⟨span,x,-,hvalue⟩
  · exact .inl hvalue
  · exact .inr ⟨span,x,hvalue⟩

/-- What is higher than the room has no value. -/
theorem Arithmetic.value_of_lt {t : Tree} (h : t.Arithmetic) {room : Nat} (hroom : room < t.height)
    (s : Store) : ∃ e, t.value room s = (.error e,s) ∧ e.IsDue := by
  induction h generalizing room with
  | number | name =>
    obtain rfl : room = 0 := by simpa [height] using hroom
    exact ⟨.tooDeep,value_zero _ s,trivial⟩
  | @unary span op t hk hop h ih =>
    cases room with
    | zero => exact ⟨.tooDeep,value_zero _ s,trivial⟩
    | succ room =>
      rw [height] at hroom
      obtain ⟨e,he,hd⟩ := ih (Nat.lt_of_succ_lt_succ hroom)
      exact ⟨e,by simp only [value,if_pos hk,he],hd⟩
  | @binary span l r op hl hop hr ihl ihr =>
    cases room with
    | zero => exact ⟨.tooDeep,value_zero _ s,trivial⟩
    | succ room =>
      rw [height] at hroom
      by_cases hlr : room < l.height
      · obtain ⟨e,he,hd⟩ := ihl hlr
        exact ⟨e,by simp only [value,he],hd⟩
      · have hr : room < r.height := by omega
        obtain ⟨e,he,hd⟩ := ihr hr
        have hlv := value_congr_room l (Nat.not_lt.1 hlr) (Nat.le_refl _) s
        rcases hl.value_cases s with ⟨x,hx⟩ | ⟨sp,x,hx⟩
        · exact ⟨e,by simp only [value,hlv,hx,he],hd⟩
        · exact ⟨.undefined sp x,by simp only [value,hlv,hx],trivial⟩
  | @group span t h ih =>
    cases room with
    | zero => exact ⟨.tooDeep,value_zero _ s,trivial⟩
    | succ room =>
      rw [height] at hroom
      exact ih (Nat.lt_of_succ_lt_succ hroom)

/-- A statement assigns the value of its expression if there is room for it. Otherwise, or if a
variable is not defined, it leaves the store as it is. -/
theorem Canonical.value_cases {t : Tree} (h : t.Canonical .statement) (room : Nat) (s : Store) :
    (∃ x s', t.height ≤ room ∧ t.value room s = (.ok x,s')) ∨
      ∃ e, t.value room s = (.error e,s) ∧ e.IsDue := by
  cases h with
  | @assign span x e hk hx h =>
    have harith : e.Arithmetic := Canonical.arithmetic h
    cases room with
    | zero => exact .inr ⟨.tooDeep,value_zero _ s,trivial⟩
    | succ room =>
      rw [height]
      by_cases hroom : room < e.height
      · obtain ⟨o,ho,hd⟩ := harith.value_of_lt hroom s
        exact .inr ⟨o,by simp only [value,ho],hd⟩
      · have hle := Nat.not_lt.1 hroom
        have hv := value_congr_room e hle (Nat.le_refl _) s
        rcases harith.value_cases s with ⟨y,hy⟩ | ⟨sp,y,hy⟩
        · exact .inl ⟨y,s.put x.text y,Nat.succ_le_succ hle,by simp only [value,hv,hy]⟩
        · exact .inr ⟨.undefined sp y,by simp only [value,hv,hy],trivial⟩

end Tree
end AssignLang
