import AssignLang.Proofs.Tree.Definedness

namespace AssignLang

namespace Store

/-- The variables with a certain property have the same values, or none. -/
def AgreesOn (p : Text → Prop) (s s' : Store) : Prop := ∀ x, p x → s'.get? x = s.get? x

theorem AgreesOn.put {p : Text → Prop} {s s' : Store} (h : s.AgreesOn p s') (x : Text) (v : Float) :
    (s.put x v).AgreesOn p (s'.put x v) := by
  intro y hy
  have hold := h y hy
  simp only [get?_put,hold]

/-- Assigning the outcome of an evaluation, if it is a value. -/
def putOk (s : Store) (x : Text) (r : Except Obstacle Float) : Store :=
  match r with
  | .ok v => s.put x v
  | .error _ => s

section
variable (s : Store) {x y : Text} (r r' : Except Obstacle Float)

/-- No other variable changes. -/
theorem agreesOn_putOk (x : Text) : s.AgreesOn (· ≠ x) (s.putOk x r) := by
  intro y hy
  cases r with
  | ok v => simp [putOk,hy]
  | error e => rfl

theorem get?_putOk_comm (h : x ≠ y) (z : Text) :
    ((s.putOk x r).putOk y r').get? z = ((s.putOk y r').putOk x r).get? z := by
  by_cases hz : z = y
  · have hx : z ≠ x := by
      rw [hz]
      exact h.symm
    have hlast := agreesOn_putOk (s.putOk y r') r x z hx
    rw [hlast]
    cases r' with
    | ok w => simp [putOk,hz]
    | error e => exact agreesOn_putOk s r x z hx
  · have hlast := agreesOn_putOk (s.putOk x r) r' y z hz
    rw [hlast]
    cases r with
    | ok v =>
      by_cases hx : z = x
      · simp [putOk,hx]
      · simp only [putOk,get?_put,if_neg hx]
        exact (agreesOn_putOk s r' y z hz).symm
    | error e => exact (agreesOn_putOk s r' y z hz).symm

theorem names_putOk_comm (h : x ≠ y) :
    ((s.putOk x r).putOk y r').names.Perm ((s.putOk y r').putOk x r).names := by
  cases r with
  | error e => rfl
  | ok v =>
    cases r' with
    | error e => rfl
    | ok w =>
      simp only [putOk,names_put]
      by_cases hx : x ∈ s.names
      · by_cases hy : y ∈ s.names <;> simp [hx,hy]
      · by_cases hy : y ∈ s.names
        · simp [hx,hy]
        · have hswap : [x,y].Perm [y,x] := List.Perm.swap y x []
          simpa [hx,hy,h,h.symm] using hswap.append_left s.names

theorem putEntry_putEntry (x : Text) (v : Float) (es : List (Text × Float)) :
    putEntry x v (putEntry x v es) = putEntry x v es := by
  induction es with
  | nil => simp [putEntry]
  | cons e es ih =>
    by_cases h : x = e.1
    · simp [putEntry,h]
    · simp [putEntry,h,ih]

theorem putOk_putOk (x : Text) : (s.putOk x r).putOk x r = s.putOk x r := by
  cases r with
  | error e => rfl
  | ok v => exact congrArg Store.mk (putEntry_putEntry x v s.entries)

end

end Store

namespace Tree

mutual

/-- Evaluation goes by the variables that are read alone. Stores that agree on these, and on more,
still do so afterwards. -/
theorem value_agrees {p : Text → Prop} : (t : Tree) → (room : Nat) → {s s' : Store} →
    (∀ r ∈ t.reads, p r.2) → s.AgreesOn p s' →
    ∃ r u u', t.value room s = (r,u) ∧ t.value room s' = (r,u') ∧ u.AgreesOn p u'
  | t, 0, s, s', _, h => ⟨_,s,s',t.value_zero s,t.value_zero s',h⟩
  | leaf _, _+1, s, s', _, h => ⟨_,s,s',rfl,rfl,h⟩
  | number _ a, _+1, s, s', _, h => by
    simp only [value]
    cases Numeral.ofText? a.text with
    | none => exact ⟨_,s,s',rfl,rfl,h⟩
    | some n => exact ⟨_,s,s',rfl,rfl,h⟩
  | name span a, _+1, s, s', hreads, h => by
    have ha := h a.text (hreads (span,a.text) (by simp [reads]))
    simp only [value,ha]
    cases s.get? a.text with
    | none => exact ⟨_,s,s',rfl,rfl,h⟩
    | some x => exact ⟨_,s,s',rfl,rfl,h⟩
  | unary _ op t, room+1, s, s', hreads, h => by
    by_cases hop : op.kind = .minus
    · obtain ⟨r,u,u',hu,hu',hagree⟩ := value_agrees t room hreads h
      simp only [value,if_pos hop,hu,hu']
      cases r with
      | ok x => exact ⟨_,u,u',rfl,rfl,hagree⟩
      | error e => exact ⟨_,u,u',rfl,rfl,hagree⟩
    · simp only [value,if_neg hop]
      exact ⟨_,s,s',rfl,rfl,h⟩
  | binary _ l op r, room+1, s, s', hreads, h => by
    have hall := List.forall_mem_append.1 hreads
    obtain ⟨a,u,u',hu,hu',hleft⟩ := value_agrees l room hall.1 h
    simp only [value,hu,hu']
    cases a with
    | error e => exact ⟨_,u,u',rfl,rfl,hleft⟩
    | ok x =>
      obtain ⟨b,v,v',hv,hv',hright⟩ := value_agrees r room hall.2 hleft
      simp only [hv,hv']
      cases b with
      | error e => exact ⟨_,v,v',rfl,rfl,hright⟩
      | ok y =>
        cases arithmetic? op.kind with
        | none => exact ⟨_,v,v',rfl,rfl,hright⟩
        | some f => exact ⟨_,v,v',rfl,rfl,hright⟩
  | group _ t, room+1, s, s', hreads, h => value_agrees t room hreads h
  | assign _ x t, room+1, s, s', hreads, h => by
    obtain ⟨r,u,u',hu,hu',hagree⟩ := value_agrees t room hreads h
    simp only [value,hu,hu']
    cases r with
    | ok v => exact ⟨_,_,_,rfl,rfl,hagree.put x.text v⟩
    | error e => exact ⟨_,u,u',rfl,rfl,hagree⟩
  | block _ ts, room+1, s, s', hreads, h => valueAll_agrees ts room 0.0 hreads h

theorem valueAll_agrees {p : Text → Prop} : (ts : List Tree) → (room : Nat) → {s s' : Store} →
    (last : Float) → (∀ r ∈ readsAll ts, p r.2) → s.AgreesOn p s' →
    ∃ r u u', valueAll ts room s last = (r,u) ∧ valueAll ts room s' last = (r,u') ∧
      u.AgreesOn p u'
  | [], _, s, s', _, _, h => ⟨_,s,s',rfl,rfl,h⟩
  | t :: ts, room, s, s', _, hreads, h => by
    have hall := List.forall_mem_append.1 hreads
    obtain ⟨r,u,u',hu,hu',hagree⟩ := value_agrees t room hall.1 h
    simp only [valueAll,hu,hu']
    cases r with
    | ok x => exact valueAll_agrees ts room x hall.2 hagree
    | error e => exact ⟨_,u,u',rfl,rfl,hagree⟩

end

/-- Assigning a variable that is not read makes no difference. -/
theorem value_fst_of_agreesOn {t : Tree} {x : Text} (hreads : ∀ r ∈ t.reads, r.2 ≠ x) (room : Nat)
    {s s' : Store} (h : s.AgreesOn (· ≠ x) s') : (t.value room s').1 = (t.value room s).1 := by
  obtain ⟨r,u,u',hu,hu',-⟩ := t.value_agrees room hreads h
  rw [hu,hu']

/-- A statement assigns its value, if it has one, and does nothing else to the store. -/
theorem Canonical.value_snd {t : Tree} (h : t.Canonical .statement) {x : Text}
    (hx : t.target? = some x) (s : Store) :
    (t.value t.height s).2 = s.putOk x (t.value t.height s).1 := by
  cases h.value_of_missing? s with
  | inl hvalue =>
    obtain ⟨-,v,y,hy,hv⟩ := hvalue
    have hxy : x = y := Option.some.inj (hx.symm.trans hy)
    rw [hv,hxy]
    rfl
  | inr herror =>
    obtain ⟨span,y,-,hv⟩ := herror
    rw [hv]
    rfl

end Tree
end AssignLang
