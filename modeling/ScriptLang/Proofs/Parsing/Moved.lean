import ScriptLang.Proofs.Parsing.Completeness

/-!
# Programs that stand elsewhere

A program has the same tree wherever its source stands: only the lines of its tokens and the numbers of its labels
depend on what stands before it.

* `Stmt.moved ℓ k` — the statement with each line `n` turned into `ℓ n`, and all labels raised by `k`;
* `Phrase.Reads.moved` — tokens on other lines are read as the tree on other lines, with labels from another one on.
-/

namespace ScriptLang

/-- The token on another line. -/
def Token.moved (ℓ : Nat → Nat) (t : Token) : Token := { t with line := ℓ t.line }

@[simp] theorem Token.lexeme_moved (ℓ : Nat → Nat) (t : Token) : (t.moved ℓ).lexeme = t.lexeme := rfl

@[simp] theorem Token.moved_id (t : Token) : t.moved id = t := rfl

/-- What a token is apart from its line. -/
def Token.face (t : Token) : Kind × String := (t.kind, t.lexeme)

mutual

/-- The expression on other lines, with labels raised. -/
def Expr.moved (ℓ : Nat → Nat) (k : Nat) : Expr → Expr
  | .literal v => .literal v
  | .group x => .group (x.moved ℓ k)
  | .unary op x => .unary (op.moved ℓ) (x.moved ℓ k)
  | .binary x op y => .binary (x.moved ℓ k) (op.moved ℓ) (y.moved ℓ k)
  | .logical x op y => .logical (x.moved ℓ k) (op.moved ℓ) (y.moved ℓ k)
  | .variable l name => .variable (l + k) (name.moved ℓ)
  | .assign l name x => .assign (l + k) (name.moved ℓ) (x.moved ℓ k)
  | .call f paren xs => .call (f.moved ℓ k) (paren.moved ℓ) (Expr.movedAll ℓ k xs)
  | .get x name => .get (x.moved ℓ k) (name.moved ℓ)
  | .set x name y => .set (x.moved ℓ k) (name.moved ℓ) (y.moved ℓ k)
  | .this l keyword => .this (l + k) (keyword.moved ℓ)
  | .super l keyword name => .super (l + k) (keyword.moved ℓ) (name.moved ℓ)

/-- Expressions on other lines. -/
def Expr.movedAll (ℓ : Nat → Nat) (k : Nat) : List Expr → List Expr
  | [] => []
  | x :: xs => x.moved ℓ k :: Expr.movedAll ℓ k xs

end

mutual

/-- The statement on other lines, with labels raised. -/
def Stmt.moved (ℓ : Nat → Nat) (k : Nat) : Stmt → Stmt
  | .expr x => .expr (x.moved ℓ k)
  | .print keyword x => .print (keyword.moved ℓ) (x.moved ℓ k)
  | .varDecl name x => .varDecl (name.moved ℓ) (x.map (Expr.moved ℓ k))
  | .block body => .block (Stmt.movedAll ℓ k body)
  | .ifThen c t => .ifThen (c.moved ℓ k) (t.moved ℓ k)
  | .ifElse c t e => .ifElse (c.moved ℓ k) (t.moved ℓ k) (e.moved ℓ k)
  | .loop c b i => .loop (c.moved ℓ k) (b.moved ℓ k) (i.map (Expr.moved ℓ k))
  | .funDecl d => .funDecl (d.moved ℓ k)
  | .returnFrom keyword x => .returnFrom (keyword.moved ℓ) (x.map (Expr.moved ℓ k))
  | .classDecl name s ms => .classDecl (name.moved ℓ) (s.map (Expr.moved ℓ k)) (FunctionDecl.movedAll ℓ k ms)
  | .breakLoop keyword => .breakLoop (keyword.moved ℓ)
  | .continueLoop keyword => .continueLoop (keyword.moved ℓ)

/-- Statements on other lines. -/
def Stmt.movedAll (ℓ : Nat → Nat) (k : Nat) : List Stmt → List Stmt
  | [] => []
  | s :: rest => s.moved ℓ k :: Stmt.movedAll ℓ k rest

/-- The function on other lines. -/
def FunctionDecl.moved (ℓ : Nat → Nat) (k : Nat) : FunctionDecl → FunctionDecl
  | .mk name params body => .mk (name.moved ℓ) (params.map (Token.moved ℓ)) (Stmt.movedAll ℓ k body)

/-- Functions on other lines. -/
def FunctionDecl.movedAll (ℓ : Nat → Nat) (k : Nat) : List FunctionDecl → List FunctionDecl
  | [] => []
  | d :: ds => d.moved ℓ k :: FunctionDecl.movedAll ℓ k ds

end

/-! ## staying where it is -/

mutual

theorem Expr.moved_id (x : Expr) : x.moved id 0 = x := by
  cases x with
  | literal v => rfl
  | group x => rw [Expr.moved, Expr.moved_id x]
  | unary op x => rw [Expr.moved, Expr.moved_id x, Token.moved_id]
  | binary x op y => rw [Expr.moved, Expr.moved_id x, Expr.moved_id y, Token.moved_id]
  | logical x op y => rw [Expr.moved, Expr.moved_id x, Expr.moved_id y, Token.moved_id]
  | «variable» l name => rfl
  | assign l name x => rw [Expr.moved, Expr.moved_id x, Token.moved_id, Nat.add_zero]
  | call f paren xs => rw [Expr.moved, Expr.moved_id f, Expr.movedAll_id xs, Token.moved_id]
  | get x name => rw [Expr.moved, Expr.moved_id x, Token.moved_id]
  | set x name y => rw [Expr.moved, Expr.moved_id x, Expr.moved_id y, Token.moved_id]
  | this l keyword => rfl
  | super l keyword name => rfl

theorem Expr.movedAll_id (xs : List Expr) : Expr.movedAll id 0 xs = xs := by
  cases xs with
  | nil => rfl
  | cons x xs => rw [Expr.movedAll, Expr.moved_id x, Expr.movedAll_id xs]

end

theorem Expr.map_moved_id (x : Option Expr) : x.map (Expr.moved id 0) = x := by
  cases x with
  | none => rfl
  | some x => rw [Option.map_some, Expr.moved_id]

theorem Token.map_moved_id (ts : List Token) : ts.map (Token.moved id) = ts := by
  induction ts with
  | nil => rfl
  | cons t ts ih => rw [List.map_cons, ih, Token.moved_id]

mutual

theorem Stmt.moved_id (s : Stmt) : s.moved id 0 = s := by
  cases s with
  | expr x => rw [Stmt.moved, Expr.moved_id]
  | print keyword x => rw [Stmt.moved, Expr.moved_id, Token.moved_id]
  | varDecl name x => rw [Stmt.moved, Expr.map_moved_id, Token.moved_id]
  | block body => rw [Stmt.moved, Stmt.movedAll_id body]
  | ifThen c t => rw [Stmt.moved, Expr.moved_id, Stmt.moved_id t]
  | ifElse c t e => rw [Stmt.moved, Expr.moved_id, Stmt.moved_id t, Stmt.moved_id e]
  | loop c b i => rw [Stmt.moved, Expr.moved_id, Stmt.moved_id b, Expr.map_moved_id]
  | funDecl d => rw [Stmt.moved, FunctionDecl.moved_id d]
  | returnFrom keyword x => rw [Stmt.moved, Expr.map_moved_id, Token.moved_id]
  | classDecl name s ms => rw [Stmt.moved, Expr.map_moved_id, FunctionDecl.movedAll_id ms, Token.moved_id]
  | breakLoop keyword => rfl
  | continueLoop keyword => rfl

theorem Stmt.movedAll_id (body : List Stmt) : Stmt.movedAll id 0 body = body := by
  cases body with
  | nil => rfl
  | cons s rest => rw [Stmt.movedAll, Stmt.moved_id s, Stmt.movedAll_id rest]

theorem FunctionDecl.moved_id (d : FunctionDecl) : d.moved id 0 = d := by
  cases d with
  | mk name params body => rw [FunctionDecl.moved, Token.moved_id, Token.map_moved_id, Stmt.movedAll_id body]

theorem FunctionDecl.movedAll_id (ds : List FunctionDecl) : FunctionDecl.movedAll id 0 ds = ds := by
  cases ds with
  | nil => rfl
  | cons d ds => rw [FunctionDecl.movedAll, FunctionDecl.moved_id d, FunctionDecl.movedAll_id ds]

end

/-! ## reading -/

/-- The phrase on other lines, with labels raised. -/
def Phrase.moved (ℓ : Nat → Nat) (k : Nat) : Phrase → Phrase
  | .expression x => .expression (x.moved ℓ k)
  | .binary l x => .binary l (x.moved ℓ k)
  | .operand l x => .operand l (x.moved ℓ k)
  | .binaryRest l left x => .binaryRest l (left.moved ℓ k) (x.moved ℓ k)
  | .unary x => .unary (x.moved ℓ k)
  | .call x => .call (x.moved ℓ k)
  | .callRest f x => .callRest (f.moved ℓ k) (x.moved ℓ k)
  | .arguments xs => .arguments (Expr.movedAll ℓ k xs)
  | .argumentList count xs => .argumentList count (Expr.movedAll ℓ k xs)
  | .primary x => .primary (x.moved ℓ k)
  | .varDeclaration s => .varDeclaration (s.moved ℓ k)
  | .expressionStatement s => .expressionStatement (s.moved ℓ k)
  | .forInitializer s => .forInitializer (s.map (Stmt.moved ℓ k))
  | .forCondition x => .forCondition (x.moved ℓ k)
  | .forIncrement x => .forIncrement (x.map (Expr.moved ℓ k))
  | .statement o s => .statement o (s.moved ℓ k)
  | .declaration s => .declaration (s.moved ℓ k)
  | .declarations body => .declarations (Stmt.movedAll ℓ k body)
  | .parameters names => .parameters (names.map (Token.moved ℓ))
  | .parameterNames count names => .parameterNames count (names.map (Token.moved ℓ))
  | .function d => .function (d.moved ℓ k)
  | .superclass x => .superclass (x.map (Expr.moved ℓ k))
  | .methods ds => .methods (FunctionDecl.movedAll ℓ k ds)

section

variable {ℓ : Nat → Nat} {k : Nat} {target v x : Expr} {lo hi : Label}

theorem Expr.assigned?_moved (h : target.assigned? lo v = some (x, hi)) :
    (target.moved ℓ k).assigned? (lo + k) (v.moved ℓ k) = some (x.moved ℓ k, hi + k) := by
  cases target with
  | «variable» l name =>
    cases h
    simp [Expr.moved, Expr.assigned?, Nat.add_right_comm]
  | get o name =>
    cases h
    rfl
  | _ => cases h

theorem Expr.updated?_moved {op : Mark} {line : Nat} (h : target.updated? lo (Token.ofMark op line) v = some (x, hi)) :
    (target.moved ℓ k).updated? (lo + k) (Token.ofMark op (ℓ line)) (v.moved ℓ k) = some (x.moved ℓ k, hi + k) := by
  cases target with
  | «variable» l name =>
    cases h
    simp [Expr.moved, Expr.updated?, Nat.add_right_comm, Token.moved, Token.ofMark]
  | get o name =>
    cases h
    rfl
  | _ => cases h

theorem Level.moved_node (l : Level) (left right : Expr) (op : Token) :
    (l.node left op right).moved ℓ k = l.node (left.moved ℓ k) (op.moved ℓ) (right.moved ℓ k) := by
  cases l <;> rfl

theorem Stmt.moved_forLoop (first : Option Stmt) (c : Expr) (body : Stmt) (i : Option Expr) :
    (Stmt.forLoop first c body i).moved ℓ k =
      Stmt.forLoop (first.map (Stmt.moved ℓ k)) (c.moved ℓ k) (body.moved ℓ k) (i.map (Expr.moved ℓ k)) := by
  cases first <;> rfl

end

/-- Tokens on other lines are read as the phrase on other lines. -/
theorem Phrase.Reads.moved {ℓ : Nat → Nat} {k : Nat} {p : Phrase} {lo hi : Label} {ts : List Token}
    (h : p.Reads lo ts hi) : (p.moved ℓ k).Reads (lo + k) (ts.map (Token.moved ℓ)) (hi + k) := by
  induction h with
  | operators _ ih => exact .operators ih
  | assign _ ht _ hx iht ihv =>
    rw [List.map_append, List.map_cons]
    exact .assign iht ht ihv (Expr.assigned?_moved hx)
  | update _ ht _ hx iht ihv =>
    rw [List.map_append, List.map_cons]
    exact .update iht ht ihv (Expr.updated?_moved hx)
  | binary _ _ ihl ihr =>
    rw [List.map_append]
    exact .binary ihl ihr
  | tighter hl _ ih => exact .tighter hl ih
  | tightest hl _ ih => exact .tightest hl ih
  | binaryEnd => exact .binaryEnd
  | binaryMore ht _ _ ihr ih =>
    rw [List.map_append, List.map_cons]
    refine .binaryMore ht ihr ?_
    rw [← Level.moved_node]
    exact ih
  | sign ht _ ih => exact .sign ht ih
  | stepBefore ht _ hx ih => exact .stepBefore ht ih (Expr.updated?_moved hx)
  | stepBehind _ ht hx ih =>
    rw [List.map_append]
    exact .stepBehind ih ht (Expr.updated?_moved hx)
  | noStep _ ih => exact .noStep ih
  | call _ _ ihf ihr =>
    rw [List.map_append]
    exact .call ihf ihr
  | callEnd => exact .callEnd
  | callArguments ht _ hp _ iha ih =>
    simp only [List.map_append, List.map_cons]
    exact .callArguments ht iha hp ih
  | callProperty ht hn _ ih => exact .callProperty ht hn ih
  | noArguments => exact .noArguments
  | someArguments _ ih => exact .someArguments ih
  | lastArgument hc _ ih => exact .lastArgument hc ih
  | moreArguments hc _ ht _ ihx ihxs =>
    rw [List.map_append, List.map_cons]
    exact .moreArguments hc ihx ht ihxs
  | constant ht => exact .constant ht
  | identifier ht =>
    rw [Nat.add_right_comm]
    exact .identifier ht
  | this ht =>
    rw [Nat.add_right_comm]
    exact .this ht
  | super ht hd hn =>
    rw [Nat.add_right_comm]
    exact .super ht hd hn
  | group ht _ hc ih =>
    simp only [List.map_append, List.map_cons]
    exact .group ht ih hc
  | varPlain hn hs => exact .varPlain hn hs
  | varValue hn ht _ hs ih =>
    simp only [List.map_append, List.map_cons]
    exact .varValue hn ht ih hs
  | expressionStatement _ hs ih =>
    rw [List.map_append]
    exact .expressionStatement ih hs
  | noInitializer hs => exact .noInitializer hs
  | varInitializer ht _ ih => exact .varInitializer ht ih
  | expressionInitializer _ ih => exact .expressionInitializer ih
  | noCondition => exact .noCondition
  | someCondition _ ih => exact .someCondition ih
  | noIncrement => exact .noIncrement
  | someIncrement _ ih => exact .someIncrement ih
  | forLoop hk h₁ _ _ h₂ _ h₃ _ ihf ihc ihi ihb =>
    simp only [Phrase.moved, Stmt.moved_forLoop, List.map_append, List.map_cons]
    exact .forLoop hk h₁ ihf ihc h₂ ihi h₃ ihb
  | ifThen hk h₁ _ h₂ _ ihc ihs =>
    simp only [List.map_append, List.map_cons]
    exact .ifThen hk h₁ ihc h₂ ihs
  | ifElse hk h₁ _ h₂ _ h₃ _ ihc iht ihe =>
    simp only [List.map_append, List.map_cons]
    exact .ifElse hk h₁ ihc h₂ iht h₃ ihe
  | whileLoop hk h₁ _ h₂ _ ihc ihs =>
    simp only [List.map_append, List.map_cons]
    exact .whileLoop hk h₁ ihc h₂ ihs
  | returnNothing hk hs => exact .returnNothing hk hs
  | returnValue hk _ hs ih =>
    simp only [List.map_append, List.map_cons]
    exact .returnValue hk ih hs
  | breakLoop hk hs => exact .breakLoop hk hs
  | continueLoop hk hs => exact .continueLoop hk hs
  | block ht _ hc ih =>
    simp only [List.map_append, List.map_cons]
    exact .block ht ih hc
  | print hk _ hs ih =>
    simp only [List.map_append, List.map_cons]
    exact .print hk ih hs
  | expressionOnly _ ih => exact .expressionOnly ih
  | classDecl hk hn _ h₁ _ h₂ ihs ihm =>
    simp only [List.map_append, List.map_cons]
    exact .classDecl hk hn ihs h₁ ihm h₂
  | funDecl hk _ ih => exact .funDecl hk ih
  | varDecl hk _ ih => exact .varDecl hk ih
  | noDeclaration _ ih => exact .noDeclaration ih
  | declarationsEnd => exact .declarationsEnd
  | declarationsMore _ _ ihs ihb =>
    rw [List.map_append]
    exact .declarationsMore ihs ihb
  | noParameters => exact .noParameters
  | someParameters _ ih => exact .someParameters ih
  | lastParameter hc hn => exact .lastParameter hc hn
  | moreParameters hc hn ht _ ih => exact .moreParameters hc hn ht ih
  | function hn h₁ _ h₂ h₃ _ h₄ ihp ihb =>
    simp only [List.map_append, List.map_cons]
    exact .function hn h₁ ihp h₂ h₃ ihb h₄
  | noSuperclass => exact .noSuperclass
  | someSuperclass ht hn =>
    rw [Nat.add_right_comm]
    exact .someSuperclass ht hn
  | methodsEnd => exact .methodsEnd
  | methodsMore _ _ ihd ihds =>
    rw [List.map_append]
    exact .methodsMore ihd ihds

end ScriptLang
