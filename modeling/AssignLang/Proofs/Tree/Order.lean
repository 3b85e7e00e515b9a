import AssignLang.Proofs.Grammar.Extent

namespace AssignLang

namespace Tree

mutual

/-- A tree and all below it. -/
def nodes : Tree → List Tree
  | t@(leaf _) => [t]
  | t@(number ..) => [t]
  | t@(name ..) => [t]
  | t@(unary _ _ u) => t :: u.nodes
  | t@(binary _ l _ r) => t :: (l.nodes ++ r.nodes)
  | t@(group _ u) => t :: u.nodes
  | t@(assign _ _ u) => t :: u.nodes
  | t@(block _ ts) => t :: nodesAll ts

def nodesAll : List Tree → List Tree
  | [] => []
  | t :: ts => t.nodes ++ nodesAll ts

end

theorem mem_nodesAll {n : Tree} {ts : List Tree} : n ∈ nodesAll ts ↔ ∃ t ∈ ts, n ∈ t.nodes := by
  induction ts with
  | nil => simp [nodesAll]
  | cons t ts ih => simp [nodesAll,ih]

/-- Where the tokens and the children of a node are, as they follow each other. -/
def parts : Tree → List Span
  | leaf _ => []
  | number _ a => [a.span]
  | name _ a => [a.span]
  | unary _ op t => [op.span,t.span]
  | binary _ l op r => [l.span,op.span,r.span]
  | group _ t => [t.span]
  | assign _ x t => [x.span,t.span]
  | block _ ts => ts.map span

/-- The parts lie inside of the node, one behind the other. -/
structure Orderly (n : Tree) : Prop where
  inside : ∀ p ∈ n.parts, n.span.start ≤ p.start ∧ p.start < p.stop ∧ p.stop ≤ n.span.stop
  ordered : n.parts.Pairwise fun a b => a.stop ≤ b.start

end Tree

/-- Tokens that stand one behind the other. -/
structure Token.InOrder (ts : List Token) : Prop where
  proper : ∀ t ∈ ts, 0 ≤ t.span.start ∧ t.span.start < t.span.stop
  ordered : ts.Pairwise fun t u => t.span.stop ≤ u.span.start

theorem Token.InOrder.sublist {ts us : List Token} (h : InOrder us) (hsub : ts.Sublist us) :
    InOrder ts :=
  ⟨fun t ht => h.proper t (hsub.subset ht),h.ordered.sublist hsub⟩

theorem Source.inOrder_standardTokens (s : Source) : Token.InOrder s.standardTokens := by
  refine ⟨?_,s.standardTokens_ordered⟩
  intro t ht
  obtain ⟨i,j,hspan,hij,-⟩ := exists_span_of_mem ht
  rw [hspan]
  simp only
  omega

/-- The place from the first through the last of some tokens. -/
def Span.Frames (s : Span) (ts : List Token) : Prop :=
  ∃ first last, ts.head? = some first ∧ ts.getLast? = some last ∧
    s = ⟨first.span.start,last.span.stop⟩

namespace Span

variable {a b : Span} {ts us mid : List Token}

theorem frames_token (t : Token) : t.span.Frames [t] := ⟨t,t,rfl,rfl,rfl⟩

/-- Whatever is framed contains each of the tokens. -/
theorem Frames.contains (h : a.Frames ts) (hts : Token.InOrder ts) {t : Token} (ht : t ∈ ts) :
    a.start ≤ t.span.start ∧ t.span.stop ≤ a.stop := by
  obtain ⟨first,last,hfirst,hlast,rfl⟩ := h
  have hproper := hts.proper t ht
  have hordered := hts.ordered
  constructor
  · obtain ⟨tail,rfl⟩ := List.head?_eq_some_iff.1 hfirst
    rcases List.mem_cons.1 ht with rfl | htail
    · exact Int.le_refl _
    · have hle := (List.pairwise_cons.1 hordered).1 t htail
      have hfront := hts.proper first List.mem_cons_self
      simp only
      omega
  · obtain ⟨front,rfl⟩ := List.getLast?_eq_some_iff.1 hlast
    rcases List.mem_append.1 ht with hfront | hend
    · have hle := (List.pairwise_append.1 hordered).2.2 t hfront last List.mem_cons_self
      have hback := hts.proper last (by simp)
      simp only
      omega
    · obtain rfl := List.mem_singleton.1 hend
      exact Int.le_refl _

theorem Frames.proper (h : a.Frames ts) (hts : Token.InOrder ts) :
    0 ≤ a.start ∧ a.start < a.stop := by
  obtain ⟨first,last,hfirst,hlast,ha⟩ := h
  have hmem : first ∈ ts := List.mem_of_mem_head? hfirst
  have hin := Frames.contains ⟨first,last,hfirst,hlast,ha⟩ hts hmem
  have hproper := hts.proper first hmem
  have hstart : a.start = first.span.start := by rw [ha]
  omega

theorem Frames.before (ha : a.Frames ts) (hb : b.Frames us) (h : Token.InOrder (ts ++ mid ++ us)) :
    a.stop ≤ b.start := by
  obtain ⟨-,last,-,hlast,rfl⟩ := ha
  obtain ⟨first,-,hfirst,-,rfl⟩ := hb
  have hts : last ∈ ts ++ mid := List.mem_append_left mid (List.mem_of_getLast? hlast)
  have hus : first ∈ us := List.mem_of_mem_head? hfirst
  exact (List.pairwise_append.1 h.ordered).2.2 last hts first hus

theorem Frames.join_eq (ha : a.Frames ts) (hb : b.Frames us) (h : Token.InOrder (ts ++ mid ++ us)) :
    a.join b = ⟨a.start,b.stop⟩ := by
  have hbefore := ha.before hb h
  have hts : Token.InOrder ts := by
    apply h.sublist
    simp
  have hus : Token.InOrder us := h.sublist (List.sublist_append_right _ us)
  have hproper := ha.proper hts
  have hproper' := hb.proper hus
  rw [join_of_known hproper.1 hproper'.1,Span.mk.injEq]
  omega

/-- The join frames all from the first of the tokens through the last one. -/
theorem Frames.join (ha : a.Frames ts) (hb : b.Frames us) (h : Token.InOrder (ts ++ mid ++ us)) :
    (a.join b).Frames (ts ++ mid ++ us) := by
  rw [ha.join_eq hb h]
  obtain ⟨first,_,hfirst,-,rfl⟩ := ha
  obtain ⟨_,last,-,hlast,rfl⟩ := hb
  refine ⟨first,last,?_,?_,rfl⟩
  · simp [List.head?_append,hfirst]
  · simp [List.getLast?_append,hlast]

theorem Frames.join_self (h : a.Frames ts) (hts : Token.InOrder ts) : a.join a = a := by
  have hproper := h.proper hts
  rw [join_of_known hproper.1 hproper.1,Int.min_self,Int.max_self]

/-- Spans that frame tokens in order are in order themselves. -/
theorem Frames.ordered {ps : List (Span × List Token)} (hps : ∀ p ∈ ps, p.1.Frames p.2)
    (h : Token.InOrder (ps.flatMap Prod.snd)) :
    (ps.map Prod.fst).Pairwise fun a b => a.stop ≤ b.start := by
  induction ps with
  | nil => exact .nil
  | cons p ps ih =>
    obtain ⟨hp,hps⟩ := List.forall_mem_cons.1 hps
    rw [List.flatMap_cons] at h
    have hrest : Token.InOrder (ps.flatMap Prod.snd) := h.sublist (List.sublist_append_right _ _)
    refine .cons ?_ (ih hps hrest)
    intro b hb
    obtain ⟨q,hq,rfl⟩ := List.mem_map.1 hb
    obtain ⟨front,back,hsplit⟩ := List.append_of_mem hq
    have hboth : Token.InOrder (p.2 ++ front.flatMap Prod.snd ++ q.2) := by
      apply h.sublist
      rw [hsplit,List.flatMap_append,List.flatMap_cons,List.append_assoc]
      apply List.Sublist.append_left
      apply List.Sublist.append_left
      exact List.sublist_append_left _ _
    exact hp.before (hps q hq) hboth

/-- The parts of a node are in order if they frame tokens of the node in order. -/
theorem Frames.orderly {n : Tree} {ps : List (Span × List Token)} (hn : n.span.Frames ts)
    (hts : Token.InOrder ts) (hparts : n.parts = ps.map Prod.fst)
    (hps : ∀ p ∈ ps, p.1.Frames p.2) (hsub : (ps.flatMap Prod.snd).Sublist ts) : n.Orderly := by
  constructor
  · intro a ha
    rw [hparts] at ha
    obtain ⟨p,hp,rfl⟩ := List.mem_map.1 ha
    have hmem : p.2.Sublist ts := by
      rw [List.flatMap_def] at hsub
      exact (List.sublist_flatten_of_mem (List.mem_map_of_mem hp)).trans hsub
    have hframes := hps p hp
    have hproper := hframes.proper (hts.sublist hmem)
    obtain ⟨first,last,hfirst,hlast,hspan⟩ := hframes
    have hstart := hn.contains hts (hmem.subset (List.mem_of_mem_head? hfirst))
    have hstop := hn.contains hts (hmem.subset (List.mem_of_getLast? hlast))
    rw [hspan] at hproper ⊢
    exact ⟨hstart.1,hproper.2,hstop.2⟩
  · rw [hparts]
    exact Frames.ordered hps (hts.sublist hsub)

end Span

end AssignLang
