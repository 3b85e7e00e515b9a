import AssignLang.Listing
import AssignLang.Proofs.Session.Replay
import AssignLang.Proofs.Tree.Definedness

namespace AssignLang

namespace Text

/-- Joining lines and ending the last one ends every line. -/
theorem join_feed {ls : List Text} (h : ls ≠ []) :
    join ['\n'] ls ++ ['\n'] = ls.flatMap (· ++ ['\n']) := by
  induction ls with
  | nil => exact absurd rfl h
  | cons l ls ih =>
    cases ls with
    | nil => simp [join]
    | cons m ls =>
      have htail := ih (List.cons_ne_nil m ls)
      rw [List.flatMap_cons,← htail,join,join,List.intercalate_cons_cons]
      simp only [List.append_assoc]

theorem IsUnbroken.join {separator : Text} (hs : separator.IsUnbroken) {ls : List Text}
    (h : ∀ l ∈ ls, l.IsUnbroken) : (Text.join separator ls).IsUnbroken := by
  induction ls with
  | nil => exact isUnbroken_nil
  | cons l ls ih =>
    obtain ⟨hl,hls⟩ := List.forall_mem_cons.1 h
    cases ls with
    | nil => simpa [Text.join] using hl
    | cons m ls =>
      rw [Text.join,List.intercalate_cons_cons]
      exact (hl.append hs).append (ih hls)

end Text

/-- The variables `xs` were assigned one after the other, and perhaps more than once. -/
structure Store.Assigned (s : Store) (xs : List Text) : Prop where
  names : s.names = xs.eraseDups
  nodup : s.names.Nodup

theorem Store.Assigned.put {s : Store} {xs : List Text} (h : s.Assigned xs) (x : Text)
    (v : Float) : (s.put x v).Assigned (xs ++ [x]) := by
  have hmem : x ∈ s.names ↔ x ∈ xs := by rw [h.names,List.mem_eraseDups]
  by_cases hx : x ∈ s.names
  · have hput : (s.put x v).names = s.names := by rw [names_put,if_pos hx]
    constructor
    · rw [hput,List.eraseDups_append,h.names]
      simp [List.removeAll,hmem.1 hx]
    · rw [hput]
      exact h.nodup
  · have hput : (s.put x v).names = s.names ++ [x] := by rw [names_put,if_neg hx]
    constructor
    · rw [hput,List.eraseDups_append,h.names]
      simp [List.removeAll,mt hmem.2 hx,List.eraseDups_cons]
    · rw [hput,List.nodup_append]
      refine ⟨h.nodup,by simp,?_⟩
      rintro y hy z hz rfl
      obtain rfl := List.mem_singleton.1 hz
      exact hx hy

namespace Tree

variable {ts : List Tree} {s s' : Store}

theorem Runs.assigned (h : Runs ts s s') (hts : ∀ t ∈ ts, t.Canonical .statement)
    {xs : List Text} (hs : s.Assigned xs) : s'.Assigned (xs ++ ts.filterMap target?) := by
  induction h generalizing xs with
  | nil => simpa using hs
  | @cons t ts s s₁ s₂ v hv hrest ih =>
    obtain ⟨ht,hts⟩ := List.forall_mem_cons.1 hts
    rcases ht.value_of_missing? s with ⟨-,w,y,hy,hw⟩ | ⟨sp,y,-,hw⟩
    · rw [hw] at hv
      obtain ⟨-,rfl⟩ := Prod.mk.inj hv
      have hfirst := ih hts (hs.put y w)
      rwa [List.append_assoc,List.singleton_append,← List.filterMap_cons_some hy] at hfirst
    · rw [hw] at hv
      cases hv

theorem Canonical.exists_target {t : Tree} (h : t.Canonical .statement) :
    ∃ x, t.target? = some x ∧ x.IsUnbroken := by
  cases h with
  | @assign span y e hk hy h => exact ⟨y.text,rfl,hy.isUnbroken⟩

theorem targets_isUnbroken (hts : ∀ t ∈ ts, t.Canonical .statement) :
    ∀ x ∈ (ts.filterMap target?).eraseDups, x.IsUnbroken := by
  intro x hx
  rw [List.mem_eraseDups,List.mem_filterMap] at hx
  obtain ⟨t,ht,hxt⟩ := hx
  obtain ⟨y,hy,hunbroken⟩ := (hts t ht).exists_target
  obtain rfl := Option.some.inj (hy.symm.trans hxt)
  exact hunbroken

theorem targets_eq_nil_iff (hts : ∀ t ∈ ts, t.Canonical .statement) :
    (ts.filterMap target?).eraseDups = [] ↔ ts = [] := by
  cases ts with
  | nil => simp
  | cons t ts =>
    obtain ⟨x,hx,-⟩ := (hts t List.mem_cons_self).exists_target
    rw [List.filterMap_cons_some hx,List.eraseDups_cons]
    simp

end Tree

namespace Listing

theorem isUnbroken_printing {x : Text} (h : x.IsUnbroken) : (printing x).IsUnbroken := by
  have hopen : Text.IsUnbroken "printf(\"".toList := by decide
  have hformat : Text.IsUnbroken " = %g\\n\", ".toList := by decide
  have hclose : Text.IsUnbroken ");".toList := by decide
  exact (((hopen.append h).append hformat).append h).append hclose

theorem isUnbroken_declaration {xs : List Text} (h : ∀ x ∈ xs, x.IsUnbroken) :
    Text.IsUnbroken ("double ".toList ++ Text.join [','] xs ++ [';']) := by
  have hopen : Text.IsUnbroken "double ".toList := by decide
  have hcomma : Text.IsUnbroken [','] := by decide
  have hclose : Text.IsUnbroken [';'] := by decide
  exact (hopen.append (hcomma.join h)).append hclose

variable {l : Listing}

theorem render_eq (l : Listing) : l.render = l.lines.flatMap (· ++ ['\n']) := by
  apply Text.join_feed
  simp [lines,header]

theorem lines_render (h : ∀ line ∈ l.lines, line.IsUnbroken) : l.render.lines = l.lines := by
  rw [render_eq]
  exact Text.lines_flatMap h

end Listing

namespace Session

theorem Adds.lines_listing {s : Session} {nesting : Nesting} {debug : Bool} {ts : List Tree}
    (h : (fresh nesting debug).Adds ts s) {xs : List Text}
    (hxs : xs = (ts.filterMap Tree.target?).eraseDups) (hnames : s.store.names = xs) :
    s.listing.lines = Listing.header ++
      (if ts.isEmpty then [] else ["double ".toList ++ Text.join [','] xs ++ [';']]) ++
      (ts.filter nesting.writes).map Tree.code ++ xs.map Listing.printing ++ Listing.footer := by
  have hcode : s.code.lines = (ts.filter nesting.writes).map Tree.code := by
    rw [h.code]
    exact lines_of_canonical fun t ht => h.canonical t (List.mem_filter.1 ht).1
  have hempty : s.store.entries.isEmpty = ts.isEmpty := by
    have hnil := Tree.targets_eq_nil_iff h.canonical
    rw [← hxs,← hnames,Store.names,List.map_eq_nil_iff] at hnil
    rw [Bool.eq_iff_iff,List.isEmpty_iff,List.isEmpty_iff,hnil]
  rw [Listing.lines,listing,Store.declarationLines,hempty,hnames,hcode]

theorem Adds.isUnbroken_listing {s : Session} {nesting : Nesting} {debug : Bool} {ts : List Tree}
    (h : (fresh nesting debug).Adds ts s) {xs : List Text}
    (hxs : xs = (ts.filterMap Tree.target?).eraseDups) (hnames : s.store.names = xs) :
    ∀ line ∈ s.listing.lines, line.IsUnbroken := by
  have hunbroken := Tree.targets_isUnbroken h.canonical
  rw [← hxs] at hunbroken
  have hheader : ∀ line ∈ Listing.header, line.IsUnbroken := by decide
  have hfooter : ∀ line ∈ Listing.footer, line.IsUnbroken := by decide
  rw [h.lines_listing hxs hnames]
  simp only [List.forall_mem_append,List.forall_mem_map]
  refine ⟨⟨⟨⟨hheader,?_⟩,?_⟩,?_⟩,hfooter⟩
  · split
    · simp
    · simpa using Listing.isUnbroken_declaration hunbroken
  · intro t ht
    exact (h.canonical t (List.mem_filter.1 ht).1).isUnbroken_code
  · intro x hx
    exact Listing.isUnbroken_printing (hunbroken x hx)

/-- The C program of a session declares just the variables it assigns, in the order of their first
assignments, and prints these. Whatever a statement reads was assigned by an earlier one. Between
the declaration and the printing stand the statements, but for those too deep to be written, of
which there are none without a limit. -/
theorem performAll_declares_all (nesting : Nesting) (debug : Bool) (rs : List Request) :
    ∃ (ts us : List Tree) (xs : List Text) (l : Listing),
      ts = (fresh nesting debug).history rs ∧ us = ts.filter nesting.writes ∧
      (nesting = .unlimited → us = ts) ∧ xs = (ts.filterMap Tree.target?).eraseDups ∧
      l = ((fresh nesting debug).performAll rs).listing ∧
      l.lines = Listing.header ++
        (if ts.isEmpty then [] else ["double ".toList ++ Text.join [','] xs ++ [';']]) ++
        us.map Tree.code ++
        xs.map (fun x => "printf(\"".toList ++ x ++ " = %g\\n\", ".toList ++ x ++ ");".toList) ++
        Listing.footer ∧
      l.render = l.lines.flatMap (· ++ ['\n']) ∧ l.render.lines = l.lines ∧
      l.store.names = xs ∧ xs.Nodup ∧
      (∀ t ∈ ts, (∃ x, t.target? = some x) ∧
        ∃ u, Source.reading false .unlimited {text := t.code} {} = (.ok u,{}) ∧ u.same t) ∧
      ∀ before t after, ts = before ++ t :: after →
        ∀ r ∈ t.reads, r.2 ∈ before.filterMap Tree.target? := by
  have hadds := adds_history nesting debug rs
  have hfresh : (fresh nesting debug).store.Assigned [] := ⟨rfl,List.nodup_nil⟩
  obtain ⟨hnames,hnodup⟩ := hadds.runs.assigned hadds.canonical hfresh
  rw [List.nil_append] at hnames
  rw [hnames] at hnodup
  refine ⟨_,_,_,_,rfl,rfl,?_,rfl,rfl,hadds.lines_listing rfl hnames,Listing.render_eq _,
    Listing.lines_render (hadds.isUnbroken_listing rfl hnames),hnames,hnodup,?_,?_⟩
  · rintro rfl
    exact Nesting.filter_writes_unlimited _
  · intro t ht
    have hcanonical := hadds.canonical t ht
    have hrank : t.Canonical (.ofReading false) := hcanonical
    obtain ⟨x,hx,-⟩ := hcanonical.exists_target
    obtain ⟨u,hu,hbare⟩ := Source.reading_code hrank 0 (c := {}) ⟨rfl,rfl⟩
    exact ⟨⟨x,hx⟩,u,hu,(Tree.same_iff u t).2 hbare⟩
  · intro before t after hsplit r hr
    rcases hadds.runs.allKnown hadds.canonical before t after hsplit r hr with hknown | htarget
    · cases hknown
    · exact htarget

end Session
end AssignLang
