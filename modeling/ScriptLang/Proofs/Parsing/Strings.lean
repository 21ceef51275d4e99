import ScriptLang.Proofs.Parsing.Phrase

/-!
# The strings in a tree

* `Expr.strings`, `Stmt.strings`, `FunctionDecl.strings` — the string literals in a tree;
* `Phrase.Reads.strings` — each of them is the string of a token that the tree was read from.
-/

namespace ScriptLang

/-- The string of a literal, if it is one. -/
def Literal.strings : Literal → List String
  | .string raw => [raw]
  | _ => []

mutual

/-- The string literals in an expression. -/
def Expr.strings : Expr → List String
  | .literal l => l.strings
  | .group e => e.strings
  | .unary _ r => r.strings
  | .binary l _ r => l.strings ++ r.strings
  | .logical l _ r => l.strings ++ r.strings
  | .variable _ _ => []
  | .assign _ _ v => v.strings
  | .call f _ args => f.strings ++ Expr.stringsAll args
  | .get o _ => o.strings
  | .set o _ v => o.strings ++ v.strings
  | .this _ _ => []
  | .super _ _ _ => []

/-- The string literals in expressions. -/
def Expr.stringsAll : List Expr → List String
  | [] => []
  | e :: es => e.strings ++ Expr.stringsAll es

end

/-- The string literals in an expression that may be absent. -/
def Expr.stringsIn (e : Option Expr) : List String := e.elim [] Expr.strings

mutual

/-- The string literals in a statement. -/
def Stmt.strings : Stmt → List String
  | .expr e => e.strings
  | .print _ e => e.strings
  | .varDecl _ e => Expr.stringsIn e
  | .block b => Stmt.stringsAll b
  | .ifThen c t => c.strings ++ t.strings
  | .ifElse c t e => c.strings ++ (t.strings ++ e.strings)
  | .loop c b i => c.strings ++ (b.strings ++ Expr.stringsIn i)
  | .funDecl d => d.strings
  | .returnFrom _ e => Expr.stringsIn e
  | .classDecl _ s ms => Expr.stringsIn s ++ FunctionDecl.stringsAll ms
  | .breakLoop _ => []
  | .continueLoop _ => []

/-- The string literals in statements. -/
def Stmt.stringsAll : List Stmt → List String
  | [] => []
  | s :: rest => s.strings ++ Stmt.stringsAll rest

/-- The string literals in a body. -/
def FunctionDecl.strings : FunctionDecl → List String
  | .mk _ _ b => Stmt.stringsAll b

/-- The string literals in bodies. -/
def FunctionDecl.stringsAll : List FunctionDecl → List String
  | [] => []
  | d :: ds => d.strings ++ FunctionDecl.stringsAll ds

end

theorem FunctionDecl.strings_subset {d : FunctionDecl} {ds : List FunctionDecl} (h : d ∈ ds) :
    d.strings ⊆ stringsAll ds := by
  induction ds with
  | nil => cases h
  | cons d' ds ih =>
    rcases List.mem_cons.1 h with rfl | h
    · exact List.subset_append_left _ _
    · exact fun raw hraw => List.mem_append_right _ (ih h hraw)

/-! ## what is read -/

/-- The string literals in the tree of a phrase. -/
def Phrase.strings : Phrase → List String
  | .expression x => x.strings
  | .binary _ x => x.strings
  | .operand _ x => x.strings
  | .binaryRest _ _ x => x.strings
  | .unary x => x.strings
  | .call x => x.strings
  | .callRest _ x => x.strings
  | .arguments xs => Expr.stringsAll xs
  | .argumentList _ xs => Expr.stringsAll xs
  | .primary x => x.strings
  | .varDeclaration s => s.strings
  | .expressionStatement s => s.strings
  | .forInitializer s => s.elim [] Stmt.strings
  | .forCondition x => x.strings
  | .forIncrement x => Expr.stringsIn x
  | .statement _ s => s.strings
  | .declaration s => s.strings
  | .declarations body => Stmt.stringsAll body
  | .parameters _ => []
  | .parameterNames _ _ => []
  | .function d => d.strings
  | .superclass x => Expr.stringsIn x
  | .methods ds => FunctionDecl.stringsAll ds

/-- Those of the tree that the phrase goes on with. -/
def Phrase.stringsBefore : Phrase → List String
  | .binaryRest _ left _ => left.strings
  | .callRest f _ => f.strings
  | _ => []

/-- The string of a token, if it is a literal. -/
def Token.strings (t : Token) : List String := ((constant? t.kind).map Literal.strings).getD []

/-- The string literals among tokens. -/
def stringsOf (ts : List Token) : List String := ts.flatMap Token.strings

@[simp] theorem stringsOf_nil : stringsOf [] = [] := rfl

@[simp] theorem stringsOf_cons (t : Token) (ts : List Token) : stringsOf (t :: ts) = t.strings ++ stringsOf ts :=
  List.flatMap_cons

@[simp] theorem stringsOf_append (ts us : List Token) : stringsOf (ts ++ us) = stringsOf ts ++ stringsOf us :=
  List.flatMap_append

theorem Token.kind_of_mem_strings {raw : String} {t : Token} (h : raw ∈ t.strings) : t.kind = .string raw := by
  unfold Token.strings constant? at h
  split at h <;> simp [Literal.strings] at h
  next s hk => rw [hk, h]

section

variable {target v x : Expr} {l l' : Label} {op : Token}

theorem Expr.strings_assigned (h : target.assigned? l v = some (x, l')) : x.strings ⊆ target.strings ++ v.strings := by
  unfold Expr.assigned? at h
  split at h <;> cases h
  · exact List.subset_append_right _ _
  · exact List.Subset.refl _

theorem Expr.strings_updated (h : target.updated? l op v = some (x, l')) : x.strings ⊆ target.strings ++ v.strings := by
  unfold Expr.updated? at h
  split at h <;> cases h
  · exact List.subset_append_right _ _
  · simp [Expr.strings]

/-- What is written out for a target and a value has the string literals of both, those of the target perhaps twice. -/
theorem Expr.strings_subset {us vs : List String} (hx : x.strings ⊆ target.strings ++ v.strings)
    (ht : target.strings ⊆ us) (hv : v.strings ⊆ vs) : x.strings ⊆ us ++ vs :=
  List.Subset.trans hx (List.append_subset.2
    ⟨List.Subset.trans ht (List.subset_append_left _ _), List.Subset.trans hv (List.subset_append_right _ _)⟩)

theorem Level.strings_node (level : Level) (left : Expr) (t : Token) (right : Expr) :
    (level.node left t right).strings = left.strings ++ right.strings := by
  cases level <;> rfl

end

/-- A loop has the string literals of its clauses. -/
theorem Stmt.strings_forLoop (first : Option Stmt) (c : Expr) (body : Stmt) (i : Option Expr) :
    (Stmt.forLoop first c body i).strings =
      first.elim [] Stmt.strings ++ (c.strings ++ (body.strings ++ Expr.stringsIn i)) := by
  cases first with
  | none => rfl
  | some s =>
    show s.strings ++ (_ ++ []) = _
    rw [List.append_nil]
    rfl

/-- The string literals in what is read are those of tokens. -/
theorem Phrase.Reads.strings {p : Phrase} {lo hi : Label} {ts : List Token} (h : p.Reads lo ts hi) :
    p.strings ⊆ p.stringsBefore ++ stringsOf ts := by
  induction h with
  | @assign _ _ _ _ ts _ t us _ _ _ _ _ hx iht ihv =>
    show _ ⊆ stringsOf (ts ++ t :: us)
    rw [stringsOf_append, stringsOf_cons]
    exact Expr.strings_subset (Expr.strings_assigned hx) iht (List.Subset.trans ihv (List.subset_append_right _ _))
  | @update _ _ _ _ _ ts _ t us _ _ _ _ _ hx iht ihv =>
    show _ ⊆ stringsOf (ts ++ t :: us)
    rw [stringsOf_append, stringsOf_cons]
    exact Expr.strings_subset (Expr.strings_updated hx) iht (List.Subset.trans ihv (List.subset_append_right _ _))
  | @stepBefore _ _ _ _ t ts _ _ _ _ hx ih =>
    have hsub := Expr.strings_subset (Expr.strings_updated hx) ih (List.nil_subset [])
    rw [List.append_nil] at hsub
    exact List.Subset.trans hsub (List.subset_append_right _ _)
  | @stepBehind _ _ _ _ ts t _ _ _ _ hx ih =>
    show _ ⊆ stringsOf (ts ++ [t])
    rw [stringsOf_append]
    exact Expr.strings_subset (Expr.strings_updated hx) ih (List.nil_subset _)
  | constant hv =>
    show _ ⊆ Token.strings _ ++ []
    rw [List.append_nil, Token.strings, hv]
    exact List.Subset.refl _
  | noCondition => exact List.nil_subset _
  | forLoop _ _ _ _ _ _ _ _ ihf ihc ihi ihb =>
    simp only [Phrase.strings, Phrase.stringsBefore, List.nil_append, List.cons_append, stringsOf_cons, stringsOf_append,
      Stmt.strings_forLoop] at *
    grind
  | binaryMore _ _ _ ihr ih =>
    simp only [Phrase.strings, Phrase.stringsBefore, List.nil_append, List.cons_append, stringsOf_cons, stringsOf_append,
      Level.strings_node] at *
    grind
  | _ =>
    -- the parts have their strings in the tree as in the tokens
    simp_all [Phrase.strings, Phrase.stringsBefore, Expr.strings, Expr.stringsAll, Expr.stringsIn, Stmt.strings,
      Stmt.stringsAll, FunctionDecl.strings, FunctionDecl.stringsAll] <;> grind

end ScriptLang
