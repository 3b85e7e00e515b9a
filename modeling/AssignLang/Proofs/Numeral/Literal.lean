import AssignLang.Numeral
import AssignLang.Proofs.Token.Lexeme

namespace AssignLang.Numeral

/-- The characters numerals are made of. -/
def IsPlain (c : Char) : Prop := c.isDigit ∨ c = '.'

theorem isPlain_of_isNumeral {t : Text} (h : t.IsNumeral) : ∀ c ∈ t, IsPlain c := by
  intro c hc
  cases h with
  | whole hne hd => exact .inl (hd c hc)
  | decimal hne hd hf =>
    rcases List.mem_append.1 hc with hc | hc
    · exact .inl (hd c hc)
    · rcases List.mem_cons.1 hc with hc | hc
      · exact .inr hc
      · exact .inl (hf c hc)

theorem toNat_of_isDigit {c : Char} (h : c.isDigit) : 48 ≤ c.toNat ∧ c.toNat ≤ 57 := by
  simpa [Char.isDigit,UInt32.le_iff_toNat_le] using h

theorem IsPlain.toNat {c : Char} (h : IsPlain c) : 46 ≤ c.toNat ∧ c.toNat ≤ 57 := by
  rcases h with h | rfl
  · have hd := toNat_of_isDigit h
    omega
  · decide

theorem IsPlain.plainChar {c : Char} (h : IsPlain c) : plainChar c = c := by
  have hn := h.toNat
  rw [Numeral.plainChar,if_pos (by omega)]

theorem IsPlain.isBlank {c : Char} (h : IsPlain c) : isBlank c = false := by
  have hn := h.toNat
  have hs : c ≠ ' ' := by
    rintro rfl
    exact absurd hn (by decide)
  have hr : ¬ c ≤ '\r' := by
    rw [Char.le_def,UInt32.le_iff_toNat_le]
    have h13 : ('\r' : Char).val.toNat = 13 := rfl
    have hv : c.toNat = c.val.toNat := rfl
    omega
  simp [Numeral.isBlank,hs,hr]

theorem IsPlain.ne {c d : Char} (h : IsPlain c) (hd : d.toNat < 46 ∨ 57 < d.toNat) : c ≠ d := by
  rintro rfl
  have hn := h.toNat
  omega

theorem map_plainChar {t : Text} (h : ∀ c ∈ t, IsPlain c) : t.map plainChar = t := by
  have hm : t.map plainChar = t.map id := List.map_congr_left fun c hc => (h c hc).plainChar
  rw [hm,List.map_id]

theorem dropWhile_isBlank {t : Text} (h : ∀ c ∈ t, IsPlain c) : t.dropWhile isBlank = t := by
  cases t with
  | nil => rfl
  | cons c r => rw [List.dropWhile_cons_of_neg (by rw [(h c List.mem_cons_self).isBlank]; simp)]

theorem trim_of_plain {t : Text} (h : ∀ c ∈ t, IsPlain c) : trim t = t := by
  rw [trim,dropWhile_isBlank h,dropWhile_isBlank (fun c hc => h c (List.mem_reverse.1 hc)),
    List.reverse_reverse]

theorem dropUnderscores?_of_plain {t : Text} (h : ∀ c ∈ t, IsPlain c) (last : Option Char) :
    dropUnderscores? last t = some t := by
  induction t generalizing last with
  | nil => rfl
  | cons c r ih =>
    have hc := (h c List.mem_cons_self).ne (d := '_') (.inr (by decide))
    have hr := ih (fun d hd => h d (List.mem_cons_of_mem c hd)) (some c)
    rw [dropUnderscores?,hr]
    · rfl
    · rintro d r' ⟨rfl⟩
      exact absurd rfl hc
    · rintro ⟨rfl⟩
      exact absurd rfl hc

theorem splitSign_of_plain {t : Text} (h : ∀ c ∈ t, IsPlain c) : splitSign t = (false,t) := by
  unfold splitSign
  split
  · exact absurd rfl ((h '-' List.mem_cons_self).ne (.inl (by decide)))
  · exact absurd rfl ((h '+' List.mem_cons_self).ne (.inl (by decide)))
  · rfl

theorem map_toLower_ne {c d : Char} {r w : Text} (hc : c.isDigit) (hd : 57 < d.toNat) :
    (c :: r).map Char.toLower ≠ d :: w := by
  intro he
  have hn := toNat_of_isDigit hc
  have hl : c.toLower = c := by
    apply dif_neg
    intro hu
    have hA : 65 ≤ c.toNat := UInt32.le_iff_toNat_le.1 hu.1
    omega
  rw [List.map_cons,hl] at he
  obtain ⟨rfl,-⟩ := List.cons.inj he
  omega

theorem ofText?_eq_decimal? {t : Text} (h : t.IsNumeral) : ofText? t = decimal? false t := by
  have hp := isPlain_of_isNumeral h
  obtain ⟨c,r,rfl,hc⟩ := h.exists_head
  have hi : (c :: r).map Char.toLower ≠ "inf".toList := map_toLower_ne hc (by decide)
  have hl : (c :: r).map Char.toLower ≠ "infinity".toList := map_toLower_ne hc (by decide)
  have hn : (c :: r).map Char.toLower ≠ "nan".toList := map_toLower_ne hc (by decide)
  simp only [ofText?,map_plainChar hp,trim_of_plain hp,dropUnderscores?_of_plain hp,bind,
    Option.bind,splitSign_of_plain hp,hi,hl,hn,or_self,if_false]

theorem takeWhile_isDigit {ds : Text} (hd : ∀ c ∈ ds, c.isDigit) :
    ds.takeWhile Char.isDigit = ds ∧ ds.dropWhile Char.isDigit = [] := by
  have ht : (ds ++ []).takeWhile Char.isDigit = ds ++ [] := List.takeWhile_append_of_pos hd
  have hw : (ds ++ []).dropWhile Char.isDigit = [] := List.dropWhile_append_of_pos hd
  rw [List.append_nil] at ht hw
  exact ⟨ht,hw⟩

/-- Digits alone are read as their number. -/
theorem ofText?_whole {ds : Text} (hne : ds ≠ []) (hd : ∀ c ∈ ds, c.isDigit) :
    ofText? ds = some (finite false (naturalOf ds) 0) := by
  obtain ⟨ht,hw⟩ := takeWhile_isDigit hd
  rw [ofText?_eq_decimal? (.whole hne hd)]
  simp [decimal?,ht,hw,hne,exponent?]

/-- Whole numbers are converted in one way only. -/
theorem toFloat_whole (n : Nat) : (finite false n 0).toFloat = .ofInt n := by
  rw [toFloat,signed,if_neg (by simp)]
  by_cases hn : n = 0
  · subst hn
    decide +kernel
  · rw [if_neg hn,if_neg (by omega),if_neg (by omega)]
    rfl

/-- The digits behind a point divide by their power of ten. -/
theorem ofText?_decimal {ds fs : Text} (hne : ds ≠ []) (hd : ∀ c ∈ ds, c.isDigit)
    (hf : ∀ c ∈ fs, c.isDigit) :
    ofText? (ds ++ '.' :: fs) =
      some (finite false (naturalOf (ds ++ fs)) (-(fs.length : Int))) := by
  have hp : Char.isDigit '.' = false := rfl
  have ht : (ds ++ '.' :: fs).takeWhile Char.isDigit = ds := by
    rw [List.takeWhile_append_of_pos hd,List.takeWhile_cons_of_neg (by simp [hp]),List.append_nil]
  have hw : (ds ++ '.' :: fs).dropWhile Char.isDigit = '.' :: fs := by
    rw [List.dropWhile_append_of_pos hd,List.dropWhile_cons_of_neg (by simp [hp])]
  obtain ⟨hft,hfw⟩ := takeWhile_isDigit hf
  rw [ofText?_eq_decimal? (.decimal hne hd hf)]
  simp [decimal?,ht,hw,hft,hfw,hne,exponent?]

/-- Every numeral has a value. -/
theorem exists_ofText? {t : Text} (h : t.IsNumeral) : ∃ n, ofText? t = some n := by
  cases h with
  | whole hne hd => exact ⟨_,ofText?_whole hne hd⟩
  | decimal hne hd hf => exact ⟨_,ofText?_decimal hne hd hf⟩

end AssignLang.Numeral
