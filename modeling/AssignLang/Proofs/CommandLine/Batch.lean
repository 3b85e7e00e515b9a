import AssignLang.CommandLine.Run
import AssignLang.Proofs.Session.Likeness

namespace AssignLang

namespace Session

/-- Whether a request is there, and nothing is wrong with its programs. -/
def meets (s : Session) : Option Request → Bool
  | none => false
  | some (.translate full p) =>
    match (s.translate full {text := p}).1 with
    | .ok done => done
    | .error _ => false
  | some (.translateAll ps) =>
    match (s.translateAll ps).1 with
    | .ok n => n = 0
    | .error _ => false
  | some (.translateFile bytes) =>
    match (s.translateBytes bytes).1 with
    | .ok done => done
    | .error _ => false

/-- A request that is not there has no effect. -/
def handle (s : Session) : Option Request → Session
  | none => s
  | some r => s.perform r

/-- The number of requests that are not met, and where they lead to. -/
def feed : List (Option Request) → Session → Nat × Session
  | [], s => (0,s)
  | r :: rs, s =>
    let (n,s') := feed rs (s.handle r)
    (if s.meets r then n else n+1,s')

theorem feed_cons (r : Option Request) (rs : List (Option Request)) (s : Session) :
    s.feed (r :: rs) = (if s.meets r then ((s.handle r).feed rs).1 else ((s.handle r).feed rs).1+1,
      ((s.handle r).feed rs).2) := rfl

theorem feed_append (rs rs' : List (Option Request)) (s : Session) :
    s.feed (rs ++ rs') =
      ((s.feed rs).1+((s.feed rs).2.feed rs').1,((s.feed rs).2.feed rs').2) := by
  induction rs generalizing s with
  | nil => simp [feed]
  | cons r rs ih =>
    rw [List.cons_append,feed_cons,feed_cons,ih]
    cases s.meets r with
    | true => rfl
    | false => simp only [Bool.false_eq_true,if_false,Nat.add_right_comm]

/-- Nothing is counted just if every request is met where its turn comes. -/
theorem feed_eq_zero_iff (rs : List (Option Request)) (s : Session) :
    (s.feed rs).1 = 0 ↔
      ∀ before r after, rs = before ++ r :: after → (s.feed before).2.meets r := by
  induction rs generalizing s with
  | nil => simp [feed]
  | cons r rs ih =>
    have hrest := ih (s.handle r)
    have hzero : (s.feed (r :: rs)).1 = 0 ↔ s.meets r ∧ ((s.handle r).feed rs).1 = 0 := by
      rw [feed_cons]
      cases s.meets r <;> simp
    rw [hzero,hrest]
    constructor
    · rintro ⟨hr,hrs⟩ before r' after hsplit
      cases before with
      | nil =>
        obtain ⟨rfl,-⟩ := List.cons.inj hsplit
        exact hr
      | cons q before =>
        obtain ⟨rfl,hbehind⟩ := List.cons.inj hsplit
        exact hrs before r' after hbehind
    · intro h
      refine ⟨h [] r rs rfl,?_⟩
      intro before r' after hsplit
      exact h (r :: before) r' after (by rw [hsplit,List.cons_append])

section
variable {s r : Session}

/-- Such sessions do the same with a program, and can go on from there. -/
theorem Alike.exists_translate (h : s.Alike r) (hp : s.console.Worded) (full : Bool)
    (source : Source) : ∃ b s' r', s.translate full source = (.ok b,s') ∧
      r.translate full source = (.ok b,r') ∧ s'.Alike r' ∧ s'.console.Worded := by
  obtain ⟨b,s',hs,hadds⟩ := translate_adds full source hp
  obtain ⟨hresult,halike⟩ := h.translate full source
  rw [hs] at hresult halike
  exact ⟨b,s',(r.translate full source).2,hs,Prod.ext hresult rfl,halike,hadds.worded⟩

/-- Programs are translated just as they are one by one. -/
theorem Alike.translateAll (h : s.Alike r) (hp : s.console.Worded) (ps : List Text) :
    ∃ n s' r', s.translateAll ps = (.ok n,s') ∧
      r.feed (ps.map fun p => some (.translate false p)) = (n,r') ∧ s'.Alike r' ∧
      s'.console.Worded := by
  induction ps generalizing s r with
  | nil => exact ⟨0,s,r,rfl,rfl,h,hp⟩
  | cons p ps ih =>
    obtain ⟨b,s₁,r₁,hs,hr,halike,hp₁⟩ := h.exists_translate hp false {text := p}
    obtain ⟨n,s₂,r₂,hs₂,hr₂,halike₂,hp₂⟩ := ih halike hp₁
    refine ⟨if b then n else n+1,s₂,r₂,?_,?_,halike₂,hp₂⟩
    · rw [Session.translateAll,hs]
      simp only [hs₂]
      rfl
    · simp only [List.map_cons,feed_cons,handle,perform,meets,hr,hr₂]

end

end Session

namespace CommandLine

open Session

/-- What a session is asked for because of a file, if that can be read. -/
def request? (read : Text → Except Access (List UInt8)) (file : Option Text) : Option Request :=
  (file.bind fun path => (read path).toOption).map .translateFile

/-- Why a file ends the whole run: it has no path, or one that no file has, or is no text. -/
def fatal? (read : Text → Except Access (List UInt8)) : Option Text → Option Ending
  | none => some .pathless
  | some path =>
    if path.contains '\x00' then some .brokenPath
    else match read path with
    | .error _ => none
    | .ok bytes =>
      match Text.ofBytes bytes with
      | .error e => some (.failed (.undecodable e))
      | .ok _ => none

section
variable {read : Text → Except Access (List UInt8)} {s r : Session} {file : Option Text}
  {files : List (Option Text)}

/-- A file ends the run, or is one more thing that a session is asked for. -/
theorem translateFiles_cons (h : s.Alike r) (hp : s.console.Worded)
    (file : Option Text) (files : List (Option Text)) :
    (∃ e, fatal? read file = some e ∧
      translateFiles read (file :: files) s = (.error e,s)) ∨
    fatal? read file = none ∧ ∃ s', s'.Alike (r.handle (request? read file)) ∧
      s'.console.Worded ∧ translateFiles read (file :: files) s =
        ((translateFiles read files s').1.map
          fun n => if r.meets (request? read file) then n else n+1,
          (translateFiles read files s').2) := by
  cases file with
  | none => exact .inl ⟨_,rfl,rfl⟩
  | some path =>
    by_cases hpath : path.contains '\x00'
    · refine .inl ⟨.brokenPath,?_,?_⟩
      · rw [fatal?,if_pos hpath]
      · rw [translateFiles,if_pos hpath]
    · rw [fatal?,if_neg hpath,translateFiles,if_neg hpath,request?,Option.bind_some]
      cases hread : read path with
      | error a => exact .inr ⟨rfl,s.print (unreadable path a),h.console h.problems,hp,rfl⟩
      | ok bytes =>
        simp only [translateBytes]
        cases htext : Text.ofBytes bytes with
        | error e => exact .inl ⟨_,rfl,rfl⟩
        | ok text =>
          have hcopies : ({s with copies := s.copies+1} : Session).Alike
              {r with copies := r.copies+1} := by
            have hsettings : (r.nesting,r.debug,r.copies+1) = (s.nesting,s.debug,s.copies+1) := by
              rw [h.nesting,h.debug,h.copies]
            exact ⟨⟨hsettings,h.store,h.code⟩,h.problems⟩
          obtain ⟨b,s',r',hs,hr,halike,hp'⟩ :=
            hcopies.exists_translate hp true ⟨text,s.copies+1⟩
          rw [← h.copies] at hr
          refine .inr ⟨rfl,s',?_,hp',?_⟩
          · simp only [Except.toOption,Option.map_some,handle,Session.perform,translateBytes,htext,
              hr]
            exact halike
          · simp only [hs,Except.toOption,Option.map_some,meets,translateBytes,htext,hr]

/-- Files none of which ends the run are translated just as they are one by one. -/
theorem translateFiles_feed (h : s.Alike r) (hp : s.console.Worded)
    (hfiles : ∀ file ∈ files, fatal? read file = none) :
    ∃ n s' r', translateFiles read files s = (.ok n,s') ∧
      r.feed (files.map (request? read)) = (n,r') ∧ s'.Alike r' := by
  induction files generalizing s r with
  | nil => exact ⟨0,s,r,rfl,rfl,h⟩
  | cons file files ih =>
    obtain ⟨hfile,hfiles⟩ := List.forall_mem_cons.1 hfiles
    rcases translateFiles_cons h hp file files with ⟨e,he,-⟩ | ⟨-,s₁,halike,hp₁,hcons⟩
    · rw [he] at hfile
      cases hfile
    · obtain ⟨n,s',r',hs,hr,halike'⟩ := ih halike hp₁ hfiles
      refine ⟨if r.meets (request? read file) then n else n+1,s',r',?_,?_,halike'⟩
      · rw [hcons,hs]
        rfl
      · rw [List.map_cons,feed_cons,hr]

/-- The first file that ends the run ends it after everything in front of it. -/
theorem translateFiles_fatal {before : List (Option Text)} {e : Ending} (h : s.Alike r)
    (hp : s.console.Worded) (after : List (Option Text))
    (hbefore : ∀ g ∈ before, fatal? read g = none) (hfile : fatal? read file = some e) :
    ∃ s', translateFiles read (before ++ file :: after) s = (.error e,s') ∧
      s'.Alike (r.feed (before.map (request? read))).2 := by
  induction before generalizing s r with
  | nil =>
    rcases translateFiles_cons h hp file after with ⟨e',he,hcons⟩ | ⟨hnone,-⟩
    · obtain rfl := Option.some.inj (hfile.symm.trans he)
      exact ⟨s,hcons,h⟩
    · rw [hnone] at hfile
      cases hfile
  | cons g before ih =>
    obtain ⟨hg,hbefore⟩ := List.forall_mem_cons.1 hbefore
    rcases translateFiles_cons h hp g (before ++ file :: after) with
      ⟨e',he,-⟩ | ⟨-,s₁,halike,hp₁,hcons⟩
    · rw [he] at hg
      cases hg
    · obtain ⟨s',hs,halike'⟩ := ih halike hp₁ hbefore
      refine ⟨s',?_,halike'⟩
      rw [List.cons_append,hcons,hs]
      rfl

/-- Everything that a command line hands to a session, programs first. -/
def requests (read : Text → Except Access (List UInt8)) (a : Arguments) : List (Option Request) :=
  a.programs.map (fun p => some (.translate false p)) ++ a.files.map (request? read)

theorem translateEverything_feed {a : Arguments} (h : s.Alike r) (hp : s.console.Worded)
    (hfiles : ∀ file ∈ a.files, fatal? read file = none) :
    ∃ n s' r', translateEverything read a s = (.ok n,s') ∧ r.feed (requests read a) = (n,r') ∧
      s'.Alike r' := by
  obtain ⟨n,s₁,r₁,hs,hr,halike,hp₁⟩ := h.translateAll hp a.programs
  obtain ⟨m,s',r',hs',hr',halike'⟩ := translateFiles_feed halike hp₁ hfiles
  refine ⟨n+m,s',r',?_,?_,halike'⟩
  · rw [translateEverything,hs]
    simp only [hs']
    rfl
  · rw [requests,feed_append,hr]
    simp only [hr']

theorem translateEverything_fatal {a : Arguments} {before after : List (Option Text)} {e : Ending}
    (h : s.Alike r) (hp : s.console.Worded) (ha : a.files = before ++ file :: after)
    (hbefore : ∀ g ∈ before, fatal? read g = none) (hfile : fatal? read file = some e) :
    ∃ s', translateEverything read a s = (.error e,s') ∧
      s'.Alike (r.feed (requests read {a with files := before})).2 := by
  obtain ⟨n,s₁,r₁,hs,hr,halike,hp₁⟩ := h.translateAll hp a.programs
  obtain ⟨s',hs',halike'⟩ := translateFiles_fatal halike hp₁ after hbefore hfile
  refine ⟨s',?_,?_⟩
  · rw [translateEverything,hs]
    simp only [ha,hs']
    rfl
  · rw [requests,feed_append,hr]
    exact halike'

end

section
variable {around : Surroundings} {arguments : List Text} {a : Arguments} {c : Console}
  {s : Session}

theorem run_of_ok {n : Nat} (ha : Arguments.ofTexts arguments = .ok (some a))
    (htokens : a.tokens = false) (hdebug : a.debug = false)
    (h : translateEverything around.read a {console := c} = (.ok n,s)) :
    run around arguments c = finish around a n s := by
  rw [run,ha]
  simp only [perform,htokens,hdebug,Bool.false_eq_true,if_false,h]

theorem run_of_error {e : Ending} (ha : Arguments.ofTexts arguments = .ok (some a))
    (htokens : a.tokens = false) (hdebug : a.debug = false)
    (h : translateEverything around.read a {console := c} = (.error e,s)) :
    run around arguments c = {ending := e,session := s} := by
  rw [run,ha]
  simp only [perform,htokens,hdebug,Bool.false_eq_true,if_false,h]

end

/-- A command line of programs and files comes to its end, whatever is wrong with the programs and
whichever of the files cannot be read: its status is zero just if everything was translated, and it
prints what a session comes to that is asked for everything in turn. Only a file that has no path or
is no text is never passed over: the first one of these ends the run with what was wrong with it,
and nothing is printed. -/
theorem batch_ends_at_fatal_file (around : Surroundings) (arguments : List Text) (a : Arguments)
    (c : Console) (ha : Arguments.ofTexts arguments = .ok (some a)) (htokens : a.tokens = false)
    (hrun : a.run = false) (hdebug : a.debug = false) (houtput : a.output = none)
    (hc : c.problems = []) :
    ((∀ file ∈ a.files, fatal? around.read file = none) →
      ∃ n s st, Session.feed (requests around.read a) {} = (n,s) ∧
        (run around arguments c).ending = .exit st ∧
        (st = 0 ↔ ∀ before r after, requests around.read a = before ++ r :: after →
          (Session.feed before {}).2.meets r) ∧
        (run around arguments c).printed = s.listing.render ∧
        (run around arguments c).written = none) ∧
    ∀ before file after e, a.files = before ++ file :: after →
      (∀ g ∈ before, fatal? around.read g = none) → fatal? around.read file = some e →
      (run around arguments c).ending = e ∧ (run around arguments c).printed = [] ∧
      (run around arguments c).written = none ∧
      ∃ s, (Session.feed (requests around.read {a with files := before}) {}).2 = s ∧
        (run around arguments c).session.store = s.store ∧
        (run around arguments c).session.code = s.code := by
  have halike : ({console := c} : Session).Alike {} := ⟨⟨rfl,rfl,rfl⟩,hc.symm⟩
  have hworded := Console.worded_of_problems hc
  constructor
  · intro hfiles
    obtain ⟨n,s',r,hs,hr,hsame⟩ := translateEverything_feed halike hworded hfiles
    have hperform := run_of_ok ha htokens hdebug hs
    simp only [finish,houtput,hrun,Bool.false_eq_true,if_false] at hperform
    have hlisting : s'.listing = r.listing := by
      rw [Session.listing,Session.listing,hsame.code,hsame.store]
    refine ⟨n,r,status n,hr,by rw [hperform],?_,by rw [hperform,hlisting],by rw [hperform]⟩
    rw [← feed_eq_zero_iff,hr,status]
    simp
  · intro before file after e hsplit hbefore hfile
    obtain ⟨s',hs,hsame⟩ := translateEverything_fatal halike hworded hsplit hbefore hfile
    rw [run_of_error ha htokens hdebug hs]
    exact ⟨rfl,rfl,rfl,_,rfl,hsame.store.symm,hsame.code.symm⟩

/-- Surroundings with only one file. -/
def Surroundings.holding (path : Text) (bytes : List UInt8) : Surroundings :=
  ⟨fun p => if p = path then .ok bytes else .error .missing,fun _ => none,.missing⟩

/-- The first file is missing in any case, and the second one is a program, or no text. -/
theorem batch_ends_at_fatal_file_second :
    ∃ arguments a, arguments =
        ["x=1;".toList,"-f".toList,"a".toList,"-f".toList,"b".toList] ∧
      Arguments.ofTexts arguments = .ok (some a) ∧
      (a.tokens = false ∧ a.run = false ∧ a.debug = false ∧ a.output = none) ∧
      Console.problems {} = [] ∧
      (∃ around, around = Surroundings.holding ['b'] [121,61,120,59] ∧
        (∀ file ∈ a.files, fatal? around.read file = none) ∧
        (Session.feed (requests around.read a) {}).1 = 1 ∧
        (∃ st, (run around arguments {}).ending = .exit st ∧ st ≠ 0) ∧
        ∃ s, (Session.feed (requests around.read a) {}).2 = s ∧
          (run around arguments {}).printed = s.listing.render) ∧
      ∃ around cause, around = Surroundings.holding ['b'] [255] ∧
        fatal? around.read (some ['a']) = none ∧
        fatal? around.read (some ['b']) = some (.failed (.undecodable cause)) ∧
        (run around arguments {}).ending = .failed (.undecodable cause) ∧
        (run around arguments {}).printed = [] := by
  let arguments : List Text := ["x=1;".toList,"-f".toList,"a".toList,"-f".toList,"b".toList]
  let a : Arguments := {programs := ["x=1;".toList],files := [some ['a'],some ['b']]}
  have ha : Arguments.ofTexts arguments = .ok (some a) := rfl
  refine ⟨arguments,a,rfl,ha,⟨rfl,rfl,rfl,rfl⟩,rfl,⟨_,rfl,?_⟩,_,_,rfl,rfl,rfl,?_⟩
  · have hfiles : ∀ file ∈ a.files,
        fatal? (Surroundings.holding ['b'] [121,61,120,59]).read file = none := by
      simp only [a,List.forall_mem_cons,List.not_mem_nil,false_imp_iff,implies_true,and_true]
      exact ⟨rfl,rfl⟩
    obtain ⟨n,s,st,hfeed,hending,hst,hprinted,-⟩ :=
      (batch_ends_at_fatal_file (.holding ['b'] [121,61,120,59]) arguments a {} ha rfl rfl rfl rfl
        rfl).1 hfiles
    have hn : (Session.feed (requests (Surroundings.holding ['b'] [121,61,120,59]).read a) {}).1 =
        1 := by decide +kernel
    refine ⟨hfiles,hn,⟨st,hending,?_⟩,s,by rw [hfeed],hprinted⟩
    rw [Ne,hst,← feed_eq_zero_iff,hn]
    decide
  · obtain ⟨hending,hprinted,-⟩ :=
      (batch_ends_at_fatal_file (.holding ['b'] [255]) arguments a {} ha rfl rfl rfl rfl rfl).2
        [some ['a']] (some ['b']) [] _ rfl
        (fun g hg => by obtain rfl := List.mem_singleton.1 hg; rfl) rfl
    exact ⟨hending,hprinted⟩

end CommandLine
end AssignLang
