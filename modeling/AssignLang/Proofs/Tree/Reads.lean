import AssignLang.Proofs.RoundTrip
import AssignLang.Proofs.Tree.Definedness

namespace AssignLang

open Grammar

namespace Tree

mutual

/-- A variable that is found undefined was read there. -/
theorem mem_reads_of_value {span : Span} {x : Text} : (t : Tree) → (room : Nat) →
    (s : Store) → {s' : Store} → t.value room s = (.error (.undefined span x),s') →
    (span,x) ∈ t.reads
  | t, 0, s, s', h => by
    rw [value_zero] at h
    cases h
  | leaf _, _+1, _, _, h => by cases h
  | number _ a, room+1, s, s', h => by
    rw [value] at h
    split at h <;> cases h
  | name sp a, room+1, s, s', h => by
    rw [value] at h
    split at h
    · cases h
    · cases h
      exact List.mem_singleton_self _
  | unary _ op t, room+1, s, s', h => by
    rw [value] at h
    split at h
    · split at h
      · cases h
      · rename_i ht
        cases h
        exact t.mem_reads_of_value room s ht
    · cases h
  | binary _ l op r, room+1, s, s', h => by
    rw [value] at h
    rw [reads,List.mem_append]
    split at h
    · rename_i hl
      cases h
      exact .inl (l.mem_reads_of_value room s hl)
    · split at h
      · rename_i hr
        cases h
        exact .inr (r.mem_reads_of_value room _ hr)
      · split at h <;> cases h
  | group _ t, room+1, s, s', h => t.mem_reads_of_value room s h
  | assign _ y t, room+1, s, s', h => by
    rw [value] at h
    split at h
    · cases h
    · rename_i ht
      cases h
      exact t.mem_reads_of_value room s ht
  | block _ ts, room+1, s, s', h => mem_readsAll_of_valueAll ts room s 0.0 h

theorem mem_readsAll_of_valueAll {span : Span} {x : Text} : (ts : List Tree) → (room : Nat) →
    (s : Store) → (last : Float) → {s' : Store} →
    valueAll ts room s last = (.error (.undefined span x),s') → (span,x) ∈ readsAll ts
  | [], _, _, _, _, h => by cases h
  | t :: ts, room, s, _, s', h => by
    rw [valueAll] at h
    rw [readsAll,List.mem_append]
    split at h
    · exact .inr (mem_readsAll_of_valueAll ts room _ _ h)
    · rename_i ht
      cases h
      exact .inl (t.mem_reads_of_value room s ht)

end

theorem mem_readsAll {r : Span × Text} {ts : List Tree} :
    r ∈ readsAll ts ↔ ∃ t ∈ ts, r ∈ t.reads := by
  induction ts with
  | nil => simp [readsAll]
  | cons t ts ih => simp [readsAll,ih]

/-- What a tree reads is read by its statements. -/
theorem exists_of_mem_reads {r : Span × Text} {t : Tree} (h : r ∈ t.reads) :
    ∃ u ∈ t.statements, r ∈ u.reads := by
  cases t with
  | block span ts => exact mem_readsAll.1 h
  | _ => exact ⟨_,List.mem_singleton_self _,h⟩

theorem valueAll_isDue {ts : List Tree} (hts : ∀ t ∈ ts, t.Canonical .statement) {room : Nat}
    {s s' : Store} {last : Float} {e : Obstacle} (h : valueAll ts room s last = (.error e,s')) :
    e.IsDue := by
  induction ts generalizing s last with
  | nil => cases h
  | cons t ts ih =>
    obtain ⟨ht,hts⟩ := List.forall_mem_cons.1 hts
    rw [valueAll] at h
    rcases ht.value_cases room s with ⟨x,s₁,-,hx⟩ | ⟨o,ho,hdue⟩
    · rw [hx] at h
      exact ih hts h
    · rw [ho] at h
      cases h
      exact hdue

/-- A program is kept from a value by variables that are not defined and by nesting only. -/
theorem Canonical.isDue {full : Bool} {t : Tree} (ht : t.Canonical (.ofReading full)) {room : Nat}
    {s s' : Store} {e : Obstacle} (h : t.value room s = (.error e,s')) : e.IsDue := by
  cases full with
  | true =>
    cases ht with
    | block hts =>
      cases room with
      | zero =>
        rw [value_zero] at h
        cases h
        trivial
      | succ room => exact valueAll_isDue hts h
  | false =>
    rcases Canonical.value_cases ht room s with ⟨x,s₁,-,hx⟩ | ⟨o,ho,hdue⟩
    · rw [hx] at h
      cases h
    · rw [ho] at h
      cases h
      exact hdue

end Tree

namespace Source

variable {full : Bool} {nesting : Nesting} {s : Source} {c : Console} {t u : Tree}

/-- The statements of what was read are made of tokens of the program. -/
theorem exists_of_mem_statements (h : (s.reading full nesting c).1 = .ok t)
    (hu : u ∈ t.statements) :
    ∃ d : Statement, u = d.tree ∧ ∀ a ∈ d.tokens, a ∈ s.standardTokens := by
  cases full with
  | true =>
    obtain ⟨ds,hds,rfl⟩ := exists_of_block h
    obtain ⟨d,hd,rfl⟩ := List.mem_map.1 hu
    refine ⟨d,rfl,?_⟩
    intro a ha
    rw [← hds]
    exact List.mem_flatMap.2 ⟨d,hd,ha⟩
  | false =>
    obtain ⟨d,rest,hd,rfl⟩ := exists_of_statement h
    obtain rfl := List.mem_singleton.1 hu
    refine ⟨d,rfl,?_⟩
    intro a ha
    rw [← hd]
    exact List.mem_append_left rest ha

/-- Variables are read where their names stand. -/
theorem exists_token_of_mem_reads (h : (s.reading full nesting c).1 = .ok t)
    (hu : u = t ∨ u ∈ t.statements) {r : Span × Text} (hr : r ∈ u.reads) :
    ∃ a ∈ s.standardTokens, a.span = r.1 := by
  have hstatement : ∃ v ∈ t.statements, r ∈ v.reads := by
    rcases hu with rfl | hu
    · exact Tree.exists_of_mem_reads hr
    · exact ⟨u,hu,hr⟩
  obtain ⟨v,hv,hr⟩ := hstatement
  obtain ⟨d,rfl,hd⟩ := exists_of_mem_statements h hv
  rw [d.reads_tree] at hr
  obtain ⟨a,ha,rfl⟩ := List.mem_map.1 hr
  refine ⟨a,hd a ?_,rfl⟩
  rw [Statement.tokens]
  simp [(List.mem_filter.1 ha).1]

end Source
end AssignLang
