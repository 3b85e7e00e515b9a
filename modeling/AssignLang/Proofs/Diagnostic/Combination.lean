import AssignLang.Diagnostic.Console

namespace AssignLang

/-- The numbers from `i` up to `j` have a property, and those next to them do not. -/
structure IsRun (P : Nat → Prop) (i j : Nat) : Prop where
  lt : i < j
  inside : ∀ k, i ≤ k → k < j → P k
  before : ∀ k, k+1 = i → ¬ P k
  behind : ¬ P j

namespace IsRun

variable {P Q : Nat → Prop} {i j : Nat}

theorem congr (h : ∀ k, P k ↔ Q k) : IsRun P i j ↔ IsRun Q i j := by
  have heq : P = Q := funext fun k => propext (h k)
  rw [heq]

/-- A bound that no run goes across leaves out whole runs. -/
theorem below_iff {bound : Nat} (hcut : ∀ k, k+1 = bound → P k → ¬ P bound) :
    IsRun (fun k => P k ∧ k < bound) i j ↔ IsRun P i j ∧ i < bound := by
  constructor
  · intro h
    have hstart := (h.inside i (Nat.le_refl i) h.lt).2
    refine ⟨⟨h.lt,fun k hi hj => (h.inside k hi hj).1,?_,?_⟩,hstart⟩
    · intro k hk hP
      exact h.before k hk ⟨hP,by omega⟩
    · intro hP
      have hge : bound ≤ j := Nat.not_lt.1 fun hlt => h.behind ⟨hP,hlt⟩
      have hlt := h.lt
      obtain ⟨hlast,hbelow⟩ := h.inside (j-1) (by omega) (by omega)
      obtain rfl : j = bound := by omega
      exact hcut (j-1) (by omega) hlast hP
  · rintro ⟨h,hstart⟩
    have hend : j ≤ bound := by
      apply Nat.not_lt.1
      intro hlt
      exact hcut (bound-1) (by omega) (h.inside (bound-1) (by omega) (by omega))
        (h.inside bound (by omega) hlt)
    refine ⟨h.lt,fun k hi hj => ⟨h.inside k hi hj,by omega⟩,?_,?_⟩
    · intro k hk hP
      exact h.before k hk hP.1
    · intro hP
      exact h.behind hP.1

/-- Numbers up to `j` and others behind `j` have their runs apart. -/
theorem first_or_iff {a b : Nat} (hlt : i < j) (hQ : ∀ k, Q k → j < k) :
    IsRun (fun k => i ≤ k ∧ k < j ∨ Q k) a b ↔ a = i ∧ b = j ∨ IsRun Q a b := by
  constructor
  · intro h
    rcases h.inside a (Nat.le_refl a) h.lt with ha | ha
    · have hstart : a = i := by
        apply Nat.le_antisymm _ ha.1
        apply Nat.not_lt.1
        intro hia
        exact h.before (a-1) (by omega) (.inl (by omega))
      have hnot : ¬ b < j := fun hb => h.behind (.inl (by have := h.lt; omega))
      refine .inl ⟨hstart,Nat.le_antisymm ?_ (Nat.not_lt.1 hnot)⟩
      apply Nat.not_lt.1
      intro hjb
      rcases h.inside j (by omega) hjb with hj | hj
      · omega
      · exact Nat.lt_irrefl j (hQ j hj)
    · have hja := hQ a ha
      refine .inr ⟨h.lt,?_,fun k hk hQk => h.before k hk (.inr hQk),fun hQb => h.behind (.inr hQb)⟩
      intro k hak hkb
      exact (h.inside k hak hkb).resolve_left (by omega)
  · rintro (⟨rfl,rfl⟩ | h)
    · refine ⟨hlt,fun k hi hj => .inl ⟨hi,hj⟩,?_,?_⟩
      · rintro k hk (hin | hQk)
        · omega
        · have := hQ k hQk
          omega
      · rintro (hin | hQb)
        · omega
        · exact Nat.lt_irrefl b (hQ b hQb)
    · have hja := hQ a (h.inside a (Nat.le_refl a) h.lt)
      have hab := h.lt
      refine ⟨hab,fun k hak hkb => .inr (h.inside k hak hkb),?_,?_⟩
      · rintro k hk (hin | hQk)
        · omega
        · exact h.before k hk hQk
      · rintro (hin | hQb)
        · omega
        · exact h.behind hQb

end IsRun

/-- Joins the numbers from `i` up to `j` and those behind them as long as one follows the other. -/
def runsFrom (i j : Nat) : List Nat → List (Nat × Nat)
  | [] => [(i,j)]
  | k :: ks => if j = k then runsFrom i (k+1) ks else (i,j) :: runsFrom k (k+1) ks

def runs : List Nat → List (Nat × Nat)
  | [] => []
  | k :: ks => runsFrom k (k+1) ks

section
variable {i j : Nat} {ks : List Nat}

theorem mem_cons_iff_of_lt (hij : i ≤ j) (m : Nat) :
    i ≤ m ∧ m < j+1 ∨ m ∈ ks ↔ i ≤ m ∧ m < j ∨ m ∈ j :: ks := by
  rw [List.mem_cons,← or_assoc]
  apply or_congr_left
  omega

theorem isRun_cons (k a b : Nat) :
    IsRun (fun m => k ≤ m ∧ m < k+1 ∨ m ∈ ks) a b ↔ IsRun (· ∈ k :: ks) a b := by
  apply IsRun.congr
  intro m
  rw [mem_cons_iff_of_lt (Nat.le_refl k)]
  apply or_iff_right
  omega

theorem mem_runsFrom_iff (hij : i < j) (hks : ks.Pairwise (· < ·)) (hj : ∀ k ∈ ks, j ≤ k)
    (a b : Nat) : (a,b) ∈ runsFrom i j ks ↔ IsRun (fun k => i ≤ k ∧ k < j ∨ k ∈ ks) a b := by
  induction ks generalizing i j with
  | nil =>
    have hnone : ∀ k, k ∈ ([] : List Nat) → j < k := by simp
    have hempty : ¬ IsRun (· ∈ ([] : List Nat)) a b := by
      intro h
      cases h.inside a (Nat.le_refl a) h.lt
    rw [IsRun.first_or_iff hij hnone]
    simp [runsFrom,hempty]
  | cons k ks ih =>
    obtain ⟨hk,hsorted⟩ := List.pairwise_cons.1 hks
    obtain ⟨hjk,hj⟩ := List.forall_mem_cons.1 hj
    have hbehind : ∀ m ∈ ks, k+1 ≤ m := fun m hm => hk m hm
    rw [runsFrom]
    by_cases heq : j = k
    · subst heq
      rw [if_pos rfl,ih (by omega) hsorted hbehind]
      apply IsRun.congr
      exact mem_cons_iff_of_lt (Nat.le_of_lt hij)
    · have hlater : ∀ m, m ∈ k :: ks → j < m := by
        intro m hm
        rcases List.mem_cons.1 hm with rfl | hm
        · omega
        · have hkm := hk m hm
          omega
      rw [if_neg heq,IsRun.first_or_iff hij hlater,← isRun_cons,
        ← ih (Nat.lt_succ_self k) hsorted hbehind]
      simp

/-- Numbers in order are joined to just their runs. -/
theorem mem_runs_iff (hks : ks.Pairwise (· < ·)) (a b : Nat) :
    (a,b) ∈ runs ks ↔ IsRun (· ∈ ks) a b := by
  cases ks with
  | nil =>
    constructor
    · intro h
      cases h
    · intro h
      cases h.inside a (Nat.le_refl a) h.lt
  | cons k ks =>
    obtain ⟨hk,hsorted⟩ := List.pairwise_cons.1 hks
    rw [runs,mem_runsFrom_iff (Nat.lt_succ_self k) hsorted fun m hm => hk m hm]
    exact isRun_cons k a b

theorem le_of_mem_runsFrom (hij : i < j) (hks : ks.Pairwise (· < ·)) (hj : ∀ k ∈ ks, j ≤ k)
    {r : Nat × Nat} (hr : r ∈ runsFrom i j ks) : i ≤ r.1 := by
  have h := (mem_runsFrom_iff hij hks hj r.1 r.2).1 hr
  rcases h.inside r.1 (Nat.le_refl _) h.lt with hin | hmem
  · exact hin.1
  · have hle := hj r.1 hmem
    omega

theorem runsFrom_ordered (hij : i < j) (hks : ks.Pairwise (· < ·)) (hj : ∀ k ∈ ks, j ≤ k) :
    (runsFrom i j ks).Pairwise fun a b => a.2 < b.1 := by
  induction ks generalizing i j with
  | nil => simp [runsFrom]
  | cons k ks ih =>
    obtain ⟨hk,hsorted⟩ := List.pairwise_cons.1 hks
    obtain ⟨hjk,hj⟩ := List.forall_mem_cons.1 hj
    have hbehind : ∀ m ∈ ks, k+1 ≤ m := fun m hm => hk m hm
    rw [runsFrom]
    split
    · exact ih (by omega) hsorted hbehind
    · refine .cons ?_ (ih (Nat.lt_succ_self k) hsorted hbehind)
      intro r hr
      have hle := le_of_mem_runsFrom (Nat.lt_succ_self k) hsorted hbehind hr
      simp only
      omega

theorem runs_ordered (hks : ks.Pairwise (· < ·)) : (runs ks).Pairwise fun a b => a.2 < b.1 := by
  cases ks with
  | nil => exact .nil
  | cons k ks =>
    obtain ⟨hk,hsorted⟩ := List.pairwise_cons.1 hks
    exact runsFrom_ordered (Nat.lt_succ_self k) hsorted fun m hm => hk m hm

end

namespace Source

/-- The warning about the illegal characters from `r.1` up to `r.2`. -/
def warning (s : Source) (r : Nat × Nat) : Warning := ⟨s,⟨r.1,r.2⟩,true,none⟩

variable {s : Source} {i j : Nat}

theorem adjoins_warning (s : Source) (i j k l : Nat) :
    (s.warning (i,j)).adjoins (s.warning (k,l)) ↔ j = k := by
  simp only [Warning.adjoins,warning,Bool.true_and,decide_true,Bool.and_true]
  exact decide_eq_true_iff.trans Int.ofNat_inj

theorem widen_warning {k : Nat} (hij : i < j) (hjk : j < k) :
    (s.warning (i,j)).widen (s.warning (j,k)) = s.warning (i,k) := by
  have hi : ¬ ((i : Int) < 0) := by omega
  have hj : ¬ ((j : Int) < 0) := by omega
  have hmin : min (i : Int) j = i := by omega
  have hmax : max (j : Int) k = k := by omega
  simp only [Warning.widen,warning,Span.join,Span.isUnknown,hi,hj,decide_false,hmin,hmax]
  rfl

theorem combineFrom_warning (hij : i < j) (ks : List Nat) :
    Warning.combineFrom (s.warning (i,j)) (ks.map fun k => s.warning (k,k+1)) =
      (runsFrom i j ks).map s.warning := by
  induction ks generalizing i j with
  | nil => rfl
  | cons k ks ih =>
    rw [List.map_cons,Warning.combineFrom,runsFrom]
    by_cases hjk : j = k
    · subst hjk
      rw [if_pos ((adjoins_warning s i j j (j+1)).2 rfl),if_pos rfl,
        widen_warning hij (Nat.lt_succ_self j)]
      exact ih (by omega)
    · have hapart : ¬ (s.warning (i,j)).adjoins (s.warning (k,k+1)) :=
        fun h => hjk ((adjoins_warning s i j k (k+1)).1 h)
      rw [if_neg hapart,if_neg hjk,List.map_cons,ih (Nat.lt_succ_self k)]

/-- Warnings about single characters are combined to one for each run of them. -/
theorem combine_warning (s : Source) (ks : List Nat) :
    Warning.combine (ks.map fun k => s.warning (k,k+1)) = (runs ks).map s.warning := by
  cases ks with
  | nil => rfl
  | cons k ks => exact combineFrom_warning (Nat.lt_succ_self k) ks

end Source
end AssignLang
