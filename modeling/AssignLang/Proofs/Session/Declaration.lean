import AssignLang.Proofs.Listing.Declaration
import AssignLang.Proofs.Location
import AssignLang.Proofs.Session.Assembly
import AssignLang.Proofs.Session.Listing
import AssignLang.Proofs.Session.Outcome

namespace AssignLang

open Grammar

namespace Tree

theorem Canonical.isWord_of_target? {t : Tree} (h : t.Canonical .statement) {x : Text}
    (hx : t.target? = some x) : x.IsWord := by
  cases h with
  | @assign span y e hk hy he =>
    have hword : y.text.IsWord := by
      rw [Token.IsLexeme,hk] at hy
      exact hy
    obtain rfl := Option.some.inj hx
    exact hword

theorem target?_bare (t : Tree) : t.bare.target? = t.target? := by cases t <;> rfl

theorem target?_of_bare {t u : Tree} (h : t.bare = u.bare) : t.target? = u.target? := by
  rw [← target?_bare t,h,target?_bare]

end Tree

namespace Session

section
variable {nesting : Nesting} {debug : Bool} {s : Session} {ts : List Tree}

theorem Adds.isWord_of_mem_targets (h : (fresh nesting debug).Adds ts s) :
    ∀ x ∈ ts.filterMap Tree.target?, x.IsWord := by
  intro x hx
  obtain ⟨t,ht,htx⟩ := List.mem_filterMap.1 hx
  exact (h.canonical t ht).isWord_of_target? htx

/-- The declaration of a C program is read back as the variables its session assigned. -/
theorem Adds.declared_render (h : (fresh nesting debug).Adds ts s) :
    Listing.declared s.listing.render = (ts.filterMap Tree.target?).eraseDups := by
  have hfresh : (fresh nesting debug).store.Assigned [] := ⟨rfl,List.nodup_nil⟩
  have hnames : s.store.names = (ts.filterMap Tree.target?).eraseDups :=
    (h.runs.assigned h.canonical hfresh).names
  rw [Listing.declared,Listing.lines_render (h.isUnbroken_listing rfl hnames),
    h.lines_listing rfl hnames]
  cases ts with
  | nil =>
    rw [List.filter_nil]
    decide
  | cons t ts =>
    have hne : ((t :: ts).filterMap Tree.target?).eraseDups ≠ [] :=
      mt (Tree.targets_eq_nil_iff h.canonical).1 (List.cons_ne_nil t ts)
    have hwords : ∀ x ∈ ((t :: ts).filterMap Tree.target?).eraseDups, x.IsWord := by
      intro x hx
      exact h.isWord_of_mem_targets x (List.mem_eraseDups.1 hx)
    exact Listing.declarators_declaration hne hwords

theorem Adds.declarable_iff (h : (fresh nesting debug).Adds ts s) :
    Listing.Declarable (Listing.declared s.listing.render) ↔
      ∀ x ∈ ts.filterMap Tree.target?, x ∉ Listing.taken := by
  have hfresh : (fresh nesting debug).store.Assigned [] := ⟨rfl,List.nodup_nil⟩
  obtain ⟨hnames,hnodup⟩ := h.runs.assigned h.canonical hfresh
  rw [hnames] at hnodup
  have hwords : ∀ x ∈ (ts.filterMap Tree.target?).eraseDups, x.IsWord := by
    intro x hx
    exact h.isWord_of_mem_targets x (List.mem_eraseDups.1 hx)
  rw [h.declared_render,Listing.declarable_iff_of_isWord hwords hnodup]
  simp only [List.mem_eraseDups]

end

/-- A statement with a value in the store is translated if its program is within the limits. -/
theorem translate_of_statement {s : Session} (hp : s.console.problems = []) {source : Source}
    {d : Statement} (hlexemes : ∀ t ∈ d.tokens, t.IsLexeme)
    (htokens : source.standardTokens.map Piece.ofToken = d.tokens.map Piece.ofToken) {n : Nat}
    (hdepth : d.value.depth ≤ s.nesting.readingRoom n)
    (hheight : d.tree.height ≤ s.nesting.walkingRoom d.tree) (hwrites : s.nesting.writes d.tree)
    {v : Float} {store : Store}
    (hv : d.tree.value d.tree.height s.store = (.ok v,store)) :
    ∃ u s', s.translate false source = (.ok true,s') ∧ s.Adds [u] s' ∧ u.bare = d.tree.bare := by
  obtain ⟨u,hbare,hread⟩ := Source.reading_of_statement hlexemes htokens hdepth
  have hroom : u.height ≤ s.nesting.walkingRoom u := by
    rw [Nesting.walkingRoom_of_bare _ hbare,Tree.height_of_bare hbare]
    exact hheight
  have hfirst : (s.read false source).1 = .ok u :=
    read_fst_of_reading (hread s.console hp) fun _ => hroom
  have hvalue : u.value (s.nesting.walkingRoom u) s.store = (.ok v,store) := by
    rw [Tree.value_congr_room u hroom (Nat.le_refl _)]
    exact Tree.value_of_bare hbare.symm hv
  have hstatements : u.statements = [u] := (d.canonical hlexemes).statements_of_bare hbare
  have hwritten : s.nesting.writes u = true := by rwa [s.nesting.writes_of_bare hbare]
  have hexecuted : s.executed false source = [u] := by
    simp only [executed,hfirst,hstatements,Tree.evaluable,hvalue,hwritten,if_true]
  have hpasses : s.passes false source = true := by
    simp only [passes,hfirst,hexecuted,hstatements,List.length_singleton,List.forall_mem_singleton,
      hwritten,and_self,decide_true]
  obtain ⟨s',htranslate,hadds,-⟩ :=
    translate_passes false source (Console.worded_of_problems hp)
  rw [hpasses] at htranslate
  rw [hexecuted] at hadds
  exact ⟨u,s',htranslate,hadds,hbare⟩

/-- The assignment of one to a variable. -/
def assignOne (x : Text) : Statement :=
  {Chain.assigned (.ofFactor (.number ⟨['1'],.number,.unknown⟩ rfl)) with
    target := ⟨x,.name,.unknown⟩,isName := rfl}

theorem isLexeme_assignOne {x : Text} (hx : x.IsWord) : ∀ t ∈ (assignOne x).tokens, t.IsLexeme := by
  have hone : ∀ t ∈ [(⟨['1'],.number,.unknown⟩ : Token)], t.IsLexeme := by
    intro t ht
    obtain rfl := List.mem_singleton.1 ht
    exact .whole (by simp) (by simp)
  have hassigned := Chain.isLexeme_assigned (.ofFactor (.number ⟨['1'],.number,.unknown⟩ rfl)) hone
  intro t ht
  rcases List.mem_cons.1 ht with rfl | ht
  · exact hx
  · exact hassigned t (List.mem_cons_of_mem _ ht)

/-- Every word is taken for a variable, and declared. -/
theorem translate_assignOne {s : Session} (hp : s.console.problems = []) {x : Text} (hx : x.IsWord)
    (hreading : ∀ n, s.nesting.reading = some n → 3 ≤ n)
    (hwalking : ∀ n, s.nesting.walking = some n → 2 ≤ n)
    (hwriting : ∀ n, s.nesting.writing = some n → 2 ≤ n) :
    ∃ u s', s.translate false {text := x ++ " = 1;".toList} = (.ok true,s') ∧ s.Adds [u] s' ∧
      u.target? = some x := by
  have hlexemes := isLexeme_assignOne hx
  have hrank : (assignOne x).tree.Canonical (.ofReading false) := (assignOne x).canonical hlexemes
  have hcode : (assignOne x).tree.code = x ++ " = 1;".toList := by
    change x ++ " = ".toList ++ ['1'] ++ [';'] = _
    simp
  have hcontent := Tree.reads_of_rank hrank
  rw [hcode] at hcontent
  have htokens := (Source.map_standardTokens (s := {text := x ++ " = 1;".toList}) hcontent).trans
    ((assignOne x).tokens_tree hlexemes)
  have hdepth : (assignOne x).value.depth ≤ s.nesting.readingRoom 0 := by
    rw [Nesting.readingRoom]
    cases hlimit : s.nesting.reading with
    | none => exact Nat.le_refl 3
    | some n => exact hreading n hlimit
  have hheight : (assignOne x).tree.height ≤ s.nesting.walkingRoom (assignOne x).tree := by
    rw [Nesting.walkingRoom]
    cases hlimit : s.nesting.walking with
    | none => exact Nat.le_refl _
    | some n => exact hwalking n hlimit
  have hwrites : s.nesting.writes (assignOne x).tree = true := by
    apply decide_eq_true
    rw [Nesting.writingRoom]
    cases hlimit : s.nesting.writing with
    | none => exact Nat.le_refl _
    | some n => exact hwriting n hlimit
  have hinteger : (assignOne x).value.tree.isInteger := rfl
  obtain ⟨v,-,hv⟩ := value_assign_of_isInteger hrank hinteger
  obtain ⟨u,s',htranslate,hadds,hbare⟩ :=
    translate_of_statement hp hlexemes htokens hdepth hheight hwrites (hv s.store)
  exact ⟨u,s',htranslate,hadds,Tree.target?_of_bare hbare⟩

/-- A C program declares just what its session assigned. Among these are no keyword of C and no
`printf` unless such a word was assigned. Nothing keeps it from being assigned: if no problem waits,
any word is, by a program with nothing wrong in it. -/
theorem declares_taken_words (nesting : Nesting) (debug : Bool) (rs : List Request) :
    let s := (fresh nesting debug).performAll rs
    let targets := ((fresh nesting debug).history rs).filterMap Tree.target?
    Listing.declared s.listing.render = targets.eraseDups ∧
    (Listing.Declarable (Listing.declared s.listing.render) ↔
      ∀ x ∈ targets, x ∉ Listing.taken) ∧
    ((∀ n, nesting.reading = some n → 3 ≤ n) → (∀ n, nesting.walking = some n → 2 ≤ n) →
      (∀ n, nesting.writing = some n → 2 ≤ n) → s.console.problems = [] →
      ∀ x : Text, x.IsWord → ∃ s', s.translate false {text := x ++ " = 1;".toList} = (.ok true,s') ∧
          x ∈ Listing.declared s'.listing.render ∧
          (Listing.Declarable (Listing.declared s'.listing.render) ↔
            Listing.Declarable (Listing.declared s.listing.render) ∧ x ∉ Listing.taken)) := by
  intro s targets
  have hadds : (fresh nesting debug).Adds ((fresh nesting debug).history rs) s :=
    adds_history nesting debug rs
  refine ⟨hadds.declared_render,hadds.declarable_iff,?_⟩
  intro hreading hwalking hwriting hp x hx
  have hnesting : s.nesting = nesting := hadds.nesting
  rw [← hnesting] at hreading hwalking hwriting
  obtain ⟨u,s',htranslate,hlast,htarget⟩ :=
    translate_assignOne hp hx hreading hwalking hwriting
  have hboth := hadds.append hlast
  have htargets : ((fresh nesting debug).history rs ++ [u]).filterMap Tree.target? =
      targets ++ [x] := by
    rw [List.filterMap_append,List.filterMap_cons_some htarget,List.filterMap_nil]
  refine ⟨s',htranslate,?_,?_⟩
  · rw [hboth.declared_render,htargets,List.mem_eraseDups]
    exact List.mem_append_right targets (List.mem_singleton.2 rfl)
  · rw [hboth.declarable_iff,hadds.declarable_iff,htargets,List.forall_mem_append,
      List.forall_mem_singleton]

/-- No C compiler takes the declaration in this program. -/
theorem declares_taken_words_int :
    (∀ n, Nesting.standard.reading = some n → 3 ≤ n) ∧
    (∀ n, Nesting.standard.walking = some n → 2 ≤ n) ∧
    (∀ n, Nesting.standard.writing = some n → 2 ≤ n) ∧
    ((fresh .standard false).performAll []).console.problems = [] ∧ Text.IsWord "int".toList ∧
    ∃ s', (fresh .standard false).translate false {text := "int = 1;".toList} = (.ok true,s') ∧
      s'.listing.render = ("#include <stdio.h>\nint main() \x7b\ndouble int;\nint = 1;\n" ++
        "printf(\"int = %g\\n\", int);\nreturn 0;\n\x7d\n").toList ∧
      ¬ Listing.Declarable (Listing.declared s'.listing.render) := by
  have hlimit {k m : Nat} (h : k ≤ m) (n : Nat) (hn : some m = some n) : k ≤ n :=
    Option.some.inj hn ▸ h
  have hreading : ∀ n, Nesting.standard.reading = some n → 3 ≤ n := hlimit (by decide)
  have hwalking : ∀ n, Nesting.standard.walking = some n → 2 ≤ n := hlimit (by decide)
  have hwriting : ∀ n, Nesting.standard.writing = some n → 2 ≤ n := hlimit (by decide)
  have hword : Text.IsWord "int".toList := Listing.isWord_of_mem_taken _ (by decide)
  have hrender : ((fresh .standard false).translate false
      {text := "int = 1;".toList}).2.listing.render =
      ("#include <stdio.h>\nint main() \x7b\ndouble int;\nint = 1;\n" ++
        "printf(\"int = %g\\n\", int);\nreturn 0;\n\x7d\n").toList := by decide +kernel
  obtain ⟨s',htranslate,-,hdeclarable⟩ :=
    (declares_taken_words .standard false []).2.2 hreading hwalking hwriting rfl _ hword
  refine ⟨hreading,hwalking,hwriting,rfl,hword,s',htranslate,?_,?_⟩
  · rw [← hrender]
    exact congrArg (fun r => r.2.listing.render) htranslate.symm
  · intro h
    exact (hdeclarable.1 h).2 (by decide)

end Session
end AssignLang
