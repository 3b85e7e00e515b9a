import AssignLang.Tree.Code
import AssignLang.Tree.Value

namespace AssignLang

namespace Token

/-- A token without its place. -/
def bare (t : Token) : Token := {t with span := .unknown}

@[simp] theorem bare_text (t : Token) : t.bare.text = t.text := rfl

@[simp] theorem bare_kind (t : Token) : t.bare.kind = t.kind := rfl

theorem same_iff (a b : Token) : a.same b ↔ a.bare = b.bare := by
  obtain ⟨text,kind,span⟩ := a
  obtain ⟨text',kind',span'⟩ := b
  simp [same,bare]

end Token

namespace Tree

mutual

/-- A tree without its places. -/
def bare : Tree → Tree
  | leaf _ => leaf .unknown
  | number _ a => number .unknown a.bare
  | name _ a => name .unknown a.bare
  | unary _ op t => unary .unknown op.bare t.bare
  | binary _ l op r => binary .unknown l.bare op.bare r.bare
  | group _ t => group .unknown t.bare
  | assign _ x t => assign .unknown x.bare t.bare
  | block _ ts => block .unknown (bareAll ts)

def bareAll : List Tree → List Tree
  | [] => []
  | t :: ts => t.bare :: bareAll ts

end

mutual

/-- Trees are the same if nothing but their places differs. -/
theorem same_iff : (t u : Tree) → (t.same u ↔ t.bare = u.bare)
  | leaf _, u => by cases u <;> simp [same,bare]
  | number _ a, u => by cases u <;> simp [same,bare,Token.same_iff]
  | name _ a, u => by cases u <;> simp [same,bare,Token.same_iff]
  | unary _ a t, u => by
    cases u with
    | unary _ b u => simp [same,bare,Token.same_iff,same_iff t u]
    | _ => simp [same,bare]
  | binary _ l a r, u => by
    cases u with
    | binary _ l' b r' =>
      simp [same,bare,Token.same_iff,same_iff l l',same_iff r r',and_assoc]
    | _ => simp [same,bare]
  | group _ t, u => by
    cases u with
    | group _ u => simp [same,bare,same_iff t u]
    | _ => simp [same,bare]
  | assign _ a t, u => by
    cases u with
    | assign _ b u => simp [same,bare,Token.same_iff,same_iff t u]
    | _ => simp [same,bare]
  | block _ ts, u => by
    cases u with
    | block _ us => simp [same,bare,sameAll_iff ts us]
    | _ => simp [same,bare]

theorem sameAll_iff : (ts us : List Tree) → (sameAll ts us ↔ bareAll ts = bareAll us)
  | [], us => by cases us <;> simp [sameAll,bareAll]
  | t :: ts, us => by
    cases us with
    | nil => simp [sameAll,bareAll]
    | cons u us => simp [sameAll,bareAll,same_iff t u,sameAll_iff ts us]

end

mutual

/-- The code of a tree does not show its places. -/
theorem code_bare : (t : Tree) → t.bare.code = t.code
  | leaf _ => rfl
  | number _ a => rfl
  | name _ a => rfl
  | unary _ op t => by simp [bare,code,code_bare t]
  | binary _ l op r => by simp [bare,code,code_bare l,code_bare r]
  | group _ t => by simp [bare,code,code_bare t]
  | assign _ x t => by simp [bare,code,code_bare t]
  | block _ ts => by simp [bare,code,codeAll_bareAll ts]

theorem codeAll_bareAll : (ts : List Tree) → codeAll (bareAll ts) = codeAll ts
  | [] => rfl
  | t :: ts => by simp [bareAll,codeAll,code_bare t,codeAll_bareAll ts]

end

theorem code_eq_of_bare {t u : Tree} (h : t.bare = u.bare) : t.code = u.code := by
  rw [← code_bare t,h,code_bare]

end Tree
end AssignLang
