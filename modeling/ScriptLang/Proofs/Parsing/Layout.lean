import ScriptLang.Proofs.Parsing.Moved

/-!
# Rules on tokens on other lines

Reading does not look at lines.  If the tokens of a list stand on other lines, each rule goes through them as before;
its answer, its reports and the token at which it stops are those from before, on the other lines.

* `Rule.Tracks ℓ φ r r'` — the rule `r'` answers on other lines as `r` does, and `φ` takes one value to the other;
* `Rule.expressions_track`, `Rule.statements_track` — the rules of the grammar track themselves;
* `parse_moved` — so does the reading of a whole source, whether it succeeds or not.

Behind the last token every rule sees the end of the source on line 1, so that line has to stay where it is.
-/

namespace ScriptLang

/-- The cursor with its tokens on other lines. -/
def Cursor.moved (ℓ : Nat → Nat) (c : Cursor) : Cursor := { c with rest := c.rest.map (Token.moved ℓ) }

/-- The report at a token on another line. -/
def Report.moved {κ : Type} (ℓ : Nat → Nat) (r : Report κ) : Report κ := ⟨r.anchor.moved ℓ, r.cause⟩

/-- The answer on other lines. -/
def Reply.moved {α β : Type} (ℓ : Nat → Nat) (φ : α → β) : Reply α → Reply β
  | .ok a c reports => .ok (φ a) (c.moved ℓ) (reports.map (Report.moved ℓ))
  | .refused cause c reports => .refused (cause.moved ℓ) (c.moved ℓ) (reports.map (Report.moved ℓ))
  | .outOfFuel => .outOfFuel

theorem Reply.moved_after {α β : Type} {ℓ : Nat → Nat} {φ : α → β} (r : Reply α) (earlier : List (Report SyntaxFault)) :
    (r.after earlier).moved ℓ φ = (r.moved ℓ φ).after (earlier.map (Report.moved ℓ)) := by
  cases r <;> simp [Reply.after, Reply.moved]

section

variable {ℓ : Nat → Nat}

theorem Cursor.peek_moved (h₁ : ℓ 1 = 1) (c : Cursor) : (c.moved ℓ).peek = c.peek.moved ℓ := by
  obtain ⟨ts, fresh⟩ := c
  cases ts with
  | nil =>
    show Token.endOfFile 1 = Token.endOfFile (ℓ 1)
    rw [h₁]
  | cons t ts => rfl

theorem Cursor.skip_moved (c : Cursor) : (c.moved ℓ).skip = c.skip.moved ℓ := by
  unfold Cursor.skip Cursor.moved
  rw [List.map_tail]

end

namespace Rule

variable {α β γ δ : Type} {ℓ : Nat → Nat} {φ : α → β} {ψ : γ → δ}

/-- A rule answers on tokens on other lines as another one does. -/
def Tracks (ℓ : Nat → Nat) (φ : α → β) (r : Rule α) (r' : Rule β) : Prop := ∀ c, r' (c.moved ℓ) = (r c).moved ℓ φ

theorem Tracks.bind {r : Rule α} {r' : Rule β} {f : α → Rule γ} {f' : β → Rule δ} (hr : Tracks ℓ φ r r')
    (hf : ∀ a, Tracks ℓ ψ (f a) (f' (φ a))) : Tracks ℓ ψ (r >>= f) (r' >>= f') := by
  intro c
  show andThen r' f' (c.moved ℓ) = (andThen r f c).moved ℓ ψ
  unfold andThen
  rw [hr c]
  cases r c with
  | ok a next reports =>
    rw [Reply.moved_after, ← hf a next]
    rfl
  | refused cause next reports => rfl
  | outOfFuel => rfl

/-! ## the ways to build a rule -/

theorem outOfFuel_tracks : Tracks ℓ φ outOfFuel outOfFuel := fun _ => rfl

theorem pure_tracks {a : α} {b : β} (h : b = φ a) : Tracks ℓ φ (pure a) (pure b) := by
  intro c
  rw [h]
  rfl

theorem label_tracks : Tracks ℓ id label label := fun _ => rfl

theorem report_tracks (anchor : Token) (cause : SyntaxFault) :
    Tracks ℓ id (report anchor cause) (report (anchor.moved ℓ) cause) := fun _ => rfl

section Primitives

variable (h₁ : ℓ 1 = 1)

include h₁

theorem peek_tracks : Tracks ℓ (Token.moved ℓ) peek peek := by
  intro c
  unfold peek
  rw [c.peek_moved h₁]
  rfl

theorem refuse_tracks (cause : SyntaxFault) : Tracks ℓ φ (refuse cause) (refuse cause) := by
  intro c
  unfold refuse
  rw [c.peek_moved h₁]
  rfl

theorem nextIs_tracks (k : Kind) : Tracks ℓ id (nextIs k) (nextIs k) := by
  intro c
  unfold nextIs
  rw [c.peek_moved h₁]
  rfl

theorem advance_tracks : Tracks ℓ (Token.moved ℓ) advance advance := by
  intro c
  unfold advance
  rw [c.peek_moved h₁, c.skip_moved]
  rfl

theorem acceptBy_tracks (meaning : Kind → Option β) :
    Tracks ℓ (Option.map fun p : Token × β => (p.1.moved ℓ, p.2)) (acceptBy meaning) (acceptBy meaning) := by
  intro c
  unfold acceptBy
  have hkind : (c.peek.moved ℓ).kind = c.peek.kind := rfl
  rw [c.peek_moved h₁, c.skip_moved, hkind]
  cases meaning c.peek.kind <;> rfl

theorem accept_tracks (k : Kind) : Tracks ℓ id (accept k) (accept k) := by
  intro c
  unfold accept
  rw [c.peek_moved h₁, c.skip_moved]
  show (if c.peek.kind = k then _ else _) = _
  split <;> rfl

theorem expect_tracks (k : Kind) (what : Expected) : Tracks ℓ (Token.moved ℓ) (expect k what) (expect k what) := by
  intro c
  unfold expect
  rw [c.peek_moved h₁, c.skip_moved]
  show (if c.peek.kind = k then _ else _) = _
  split <;> rfl

theorem checkCount_tracks (count : Nat) (cause : SyntaxFault) :
    Tracks ℓ id (checkCount count cause) (checkCount count cause) := by
  unfold checkCount
  split
  · exact (peek_tracks h₁).bind fun t => report_tracks t cause
  · exact pure_tracks rfl

end Primitives

theorem boundary_moved (behindSemicolon : Bool) (ts : List Token) :
    boundary behindSemicolon (ts.map (Token.moved ℓ)) = (boundary behindSemicolon ts).map (Token.moved ℓ) := by
  induction ts generalizing behindSemicolon with
  | nil => rfl
  | cons t ts ih =>
    have hkind : (t.moved ℓ).kind = t.kind := rfl
    simp only [List.map_cons, boundary, hkind]
    split
    · rfl
    · split
      · rfl
      · split
        · rfl
        · exact ih false
      · exact ih true
      · exact ih false

theorem synchronize_moved (ts : List Token) :
    synchronize (ts.map (Token.moved ℓ)) = (synchronize ts).map (Token.moved ℓ) := by
  cases ts with
  | nil => rfl
  | cons t ts =>
    have hkind : (t.moved ℓ).kind = t.kind := rfl
    simp only [List.map_cons, synchronize, hkind]
    split
    · rfl
    · exact boundary_moved true ts
    · exact boundary_moved false ts

theorem recover_tracks {r : Rule α} {r' : Rule β} (h : Tracks ℓ φ r r') :
    Tracks ℓ (Option.map φ) (recover r) (recover r') := by
  intro c
  unfold recover
  rw [h c]
  cases r c with
  | ok a next reports => rfl
  | refused cause next reports =>
    simp only [Reply.moved, Cursor.moved, synchronize_moved, List.map_append, List.map_cons, List.map_nil,
      Option.map_none]
  | outOfFuel => rfl

/-! ## expressions -/

theorem assignTo_tracks (equals : Token) (target v : Expr) :
    Tracks ℓ (Expr.moved ℓ 0) (assignTo equals target v)
      (assignTo (equals.moved ℓ) (target.moved ℓ 0) (v.moved ℓ 0)) := by
  cases target with
  | «variable» l name => exact label_tracks.bind fun l => pure_tracks rfl
  | get o name => exact pure_tracks rfl
  | _ => exact (report_tracks _ _).bind fun _ => pure_tracks rfl

theorem update_tracks (invalid : SyntaxFault) (anchor : Token) (op : Mark) (target v : Expr) :
    Tracks ℓ (Expr.moved ℓ 0) (update invalid anchor op target v)
      (update invalid (anchor.moved ℓ) op (target.moved ℓ 0) (v.moved ℓ 0)) := by
  cases target with
  | «variable» l name => exact label_tracks.bind fun outer => label_tracks.bind fun inner => pure_tracks rfl
  | get o name => exact pure_tracks rfl
  | _ => exact (report_tracks _ _).bind fun _ => pure_tracks rfl

/-- The rules for expressions with so much fuel track themselves. -/
structure ExpressionsTrack (ℓ : Nat → Nat) (n : Nat) : Prop where
  expression : Tracks ℓ (Expr.moved ℓ 0) (expression n) (expression n)
  binary : ∀ l, Tracks ℓ (Expr.moved ℓ 0) (binary n l) (binary n l)
  operand : ∀ l, Tracks ℓ (Expr.moved ℓ 0) (operand n l) (operand n l)
  binaryRest : ∀ l left, Tracks ℓ (Expr.moved ℓ 0) (binaryRest n l left) (binaryRest n l (left.moved ℓ 0))
  unary : Tracks ℓ (Expr.moved ℓ 0) (unary n) (unary n)
  call : Tracks ℓ (Expr.moved ℓ 0) (call n) (call n)
  callRest : ∀ f, Tracks ℓ (Expr.moved ℓ 0) (callRest n f) (callRest n (f.moved ℓ 0))
  arguments : Tracks ℓ (Expr.movedAll ℓ 0) (arguments n) (arguments n)
  argumentList : ∀ count, Tracks ℓ (Expr.movedAll ℓ 0) (argumentList n count) (argumentList n count)
  primary : Tracks ℓ (Expr.moved ℓ 0) (primary n) (primary n)

section Expressions

variable {n : Nat} (ih : ExpressionsTrack ℓ n)

include ih

theorem binary_tracks (l : Level) : Tracks ℓ (Expr.moved ℓ 0) (binary (n + 1) l) (binary (n + 1) l) := by
  simp only [binary]
  exact (ih.operand l).bind fun left => ih.binaryRest l left

theorem operand_tracks (l : Level) : Tracks ℓ (Expr.moved ℓ 0) (operand (n + 1) l) (operand (n + 1) l) := by
  simp only [operand]
  cases l.tighter? with
  | some inner => exact ih.binary inner
  | none => exact ih.unary

theorem call_tracks : Tracks ℓ (Expr.moved ℓ 0) (call (n + 1)) (call (n + 1)) := by
  simp only [call]
  exact ih.primary.bind fun f => ih.callRest f

variable (h₁ : ℓ 1 = 1)

include h₁

theorem expression_tracks : Tracks ℓ (Expr.moved ℓ 0) (expression (n + 1)) (expression (n + 1)) := by
  simp only [expression]
  refine (ih.binary .disjunction).bind fun target => (peek_tracks h₁).bind fun t => ?_
  refine (accept_tracks h₁ _).bind fun b => ?_
  cases b with
  | true => exact ih.expression.bind fun v => assignTo_tracks t target v
  | false =>
    refine (acceptBy_tracks h₁ _).bind fun found => ?_
    cases found with
    | some p => exact ih.expression.bind fun v => update_tracks _ p.1 p.2 target v
    | none => exact pure_tracks rfl

theorem binaryRest_tracks (l : Level) (left : Expr) :
    Tracks ℓ (Expr.moved ℓ 0) (binaryRest (n + 1) l left) (binaryRest (n + 1) l (left.moved ℓ 0)) := by
  simp only [binaryRest]
  refine (acceptBy_tracks h₁ _).bind fun found => ?_
  cases found with
  | none => exact pure_tracks rfl
  | some p =>
    refine (ih.operand l).bind fun right => ?_
    have hrest := ih.binaryRest l (l.node left p.1 right)
    rwa [Level.moved_node] at hrest

theorem unary_tracks : Tracks ℓ (Expr.moved ℓ 0) (unary (n + 1)) (unary (n + 1)) := by
  simp only [unary]
  refine (acceptBy_tracks h₁ _).bind fun found => ?_
  cases found with
  | some p => exact ih.unary.bind fun right => pure_tracks rfl
  | none =>
    refine (acceptBy_tracks h₁ _).bind fun found => ?_
    cases found with
    | some p => exact ih.unary.bind fun target => update_tracks _ p.1 p.2 target one
    | none =>
      refine ih.call.bind fun e => (acceptBy_tracks h₁ _).bind fun found => ?_
      cases found with
      | some p => exact update_tracks _ p.1 p.2 e one
      | none => exact pure_tracks rfl

theorem callRest_tracks (f : Expr) :
    Tracks ℓ (Expr.moved ℓ 0) (callRest (n + 1) f) (callRest (n + 1) (f.moved ℓ 0)) := by
  simp only [callRest]
  refine (accept_tracks h₁ _).bind fun b => ?_
  cases b with
  | true => exact ih.arguments.bind fun xs => (expect_tracks h₁ _ _).bind fun paren => ih.callRest (.call f paren xs)
  | false =>
    refine (accept_tracks h₁ _).bind fun b => ?_
    cases b with
    | true => exact (expect_tracks h₁ _ _).bind fun name => ih.callRest (.get f name)
    | false => exact pure_tracks rfl

theorem arguments_tracks : Tracks ℓ (Expr.movedAll ℓ 0) (arguments (n + 1)) (arguments (n + 1)) := by
  simp only [arguments]
  refine (nextIs_tracks h₁ _).bind fun b => ?_
  cases b with
  | true => exact pure_tracks rfl
  | false => exact ih.argumentList 0

theorem argumentList_tracks (count : Nat) :
    Tracks ℓ (Expr.movedAll ℓ 0) (argumentList (n + 1) count) (argumentList (n + 1) count) := by
  simp only [argumentList]
  refine (checkCount_tracks h₁ _ _).bind fun _ => ih.expression.bind fun x => (accept_tracks h₁ _).bind fun b => ?_
  cases b with
  | true => exact (ih.argumentList (count + 1)).bind fun xs => pure_tracks rfl
  | false => exact pure_tracks rfl

theorem primary_tracks : Tracks ℓ (Expr.moved ℓ 0) (primary (n + 1)) (primary (n + 1)) := by
  simp only [primary]
  refine (peek_tracks h₁).bind fun t => ?_
  have hkind : (t.moved ℓ).kind = t.kind := rfl
  simp only [hkind]
  split
  · exact (advance_tracks h₁).bind fun _ => pure_tracks rfl
  · exact (advance_tracks h₁).bind fun _ => pure_tracks rfl
  · exact (advance_tracks h₁).bind fun _ => pure_tracks rfl
  · exact (advance_tracks h₁).bind fun _ => pure_tracks rfl
  · exact (advance_tracks h₁).bind fun _ => pure_tracks rfl
  · exact (advance_tracks h₁).bind fun _ => label_tracks.bind fun l => pure_tracks rfl
  · exact (advance_tracks h₁).bind fun _ => label_tracks.bind fun l => pure_tracks rfl
  · refine (advance_tracks h₁).bind fun _ => (expect_tracks h₁ _ _).bind fun _ => ?_
    exact (expect_tracks h₁ _ _).bind fun method => label_tracks.bind fun l => pure_tracks rfl
  · refine (advance_tracks h₁).bind fun _ => ih.expression.bind fun x => ?_
    exact (expect_tracks h₁ _ _).bind fun _ => pure_tracks rfl
  · exact refuse_tracks h₁ _

end Expressions

theorem expressions_track (h₁ : ℓ 1 = 1) (n : Nat) : ExpressionsTrack ℓ n := by
  induction n with
  | zero => constructor <;> intros <;> exact outOfFuel_tracks
  | succ n ih =>
    exact ⟨expression_tracks ih h₁, binary_tracks ih, operand_tracks ih, binaryRest_tracks ih h₁,
      unary_tracks ih h₁, call_tracks ih, callRest_tracks ih h₁, arguments_tracks ih h₁, argumentList_tracks ih h₁,
      primary_tracks ih h₁⟩

/-! ## statements in terms of their parts -/

section Parts

variable {re : Rule Expr} {rs : Rule Stmt} (h₁ : ℓ 1 = 1)

include h₁

theorem parameterNames_tracks (n count : Nat) :
    Tracks ℓ (List.map (Token.moved ℓ)) (parameterNames n count) (parameterNames n count) := by
  induction n generalizing count with
  | zero => exact outOfFuel_tracks
  | succ n ih =>
    simp only [parameterNames]
    refine (checkCount_tracks h₁ _ _).bind fun _ => (expect_tracks h₁ _ _).bind fun name => ?_
    refine (accept_tracks h₁ _).bind fun b => ?_
    cases b with
    | true => exact (ih (count + 1)).bind fun names => pure_tracks rfl
    | false => exact pure_tracks rfl

theorem superclass_tracks : Tracks ℓ (Option.map (Expr.moved ℓ 0)) superclass superclass := by
  refine (accept_tracks h₁ _).bind fun b => ?_
  cases b with
  | true => exact (expect_tracks h₁ _ _).bind fun name => label_tracks.bind fun l => pure_tracks rfl
  | false => exact pure_tracks rfl

theorem classDeclaration_tracks {rm : Rule (List FunctionDecl)} (hm : Tracks ℓ (FunctionDecl.movedAll ℓ 0) rm rm) :
    Tracks ℓ (Stmt.moved ℓ 0) (classDeclaration rm) (classDeclaration rm) := by
  refine (expect_tracks h₁ _ _).bind fun name => (superclass_tracks h₁).bind fun s => ?_
  refine (expect_tracks h₁ _ _).bind fun _ => hm.bind fun ms => ?_
  exact (expect_tracks h₁ _ _).bind fun _ => pure_tracks rfl

variable (he : Tracks ℓ (Expr.moved ℓ 0) re re)

include he

theorem varDeclaration_tracks : Tracks ℓ (Stmt.moved ℓ 0) (varDeclaration re) (varDeclaration re) := by
  refine (expect_tracks h₁ _ _).bind fun name => (accept_tracks h₁ _).bind fun b => ?_
  cases b with
  | true => exact he.bind fun x => (expect_tracks h₁ _ _).bind fun _ => pure_tracks rfl
  | false => exact (expect_tracks h₁ _ _).bind fun _ => pure_tracks rfl

theorem expressionStatement_tracks :
    Tracks ℓ (Stmt.moved ℓ 0) (expressionStatement re) (expressionStatement re) :=
  he.bind fun _ => (expect_tracks h₁ _ _).bind fun _ => pure_tracks rfl

theorem printStatement_tracks (keyword : Token) :
    Tracks ℓ (Stmt.moved ℓ 0) (printStatement keyword re) (printStatement (keyword.moved ℓ) re) :=
  he.bind fun _ => (expect_tracks h₁ _ _).bind fun _ => pure_tracks rfl

theorem returnStatement_tracks (keyword : Token) :
    Tracks ℓ (Stmt.moved ℓ 0) (returnStatement keyword re) (returnStatement (keyword.moved ℓ) re) := by
  refine (nextIs_tracks h₁ _).bind fun b => ?_
  cases b with
  | true => exact (expect_tracks h₁ _ _).bind fun _ => pure_tracks rfl
  | false => exact he.bind fun x => (expect_tracks h₁ _ _).bind fun _ => pure_tracks rfl

theorem forInitializer_tracks :
    Tracks ℓ (Option.map (Stmt.moved ℓ 0)) (forInitializer re) (forInitializer re) := by
  refine (accept_tracks h₁ _).bind fun b => ?_
  cases b with
  | true => exact pure_tracks rfl
  | false =>
    refine (accept_tracks h₁ _).bind fun b => ?_
    cases b with
    | true => exact (varDeclaration_tracks h₁ he).bind fun s => pure_tracks rfl
    | false => exact (expressionStatement_tracks h₁ he).bind fun s => pure_tracks rfl

theorem forCondition_tracks : Tracks ℓ (Expr.moved ℓ 0) (forCondition re) (forCondition re) := by
  refine (nextIs_tracks h₁ _).bind fun b => ?_
  cases b with
  | true => exact pure_tracks rfl
  | false => exact he

theorem forIncrement_tracks : Tracks ℓ (Option.map (Expr.moved ℓ 0)) (forIncrement re) (forIncrement re) := by
  refine (nextIs_tracks h₁ _).bind fun b => ?_
  cases b with
  | true => exact pure_tracks rfl
  | false => exact he.bind fun x => pure_tracks rfl

variable (hs : Tracks ℓ (Stmt.moved ℓ 0) rs rs)

include hs

theorem ifStatement_tracks : Tracks ℓ (Stmt.moved ℓ 0) (ifStatement re rs) (ifStatement re rs) := by
  refine (expect_tracks h₁ _ _).bind fun _ => he.bind fun c => (expect_tracks h₁ _ _).bind fun _ => ?_
  refine hs.bind fun t => (accept_tracks h₁ _).bind fun b => ?_
  cases b with
  | true => exact hs.bind fun e => pure_tracks rfl
  | false => exact pure_tracks rfl

theorem whileStatement_tracks : Tracks ℓ (Stmt.moved ℓ 0) (whileStatement re rs) (whileStatement re rs) := by
  refine (expect_tracks h₁ _ _).bind fun _ => he.bind fun c => (expect_tracks h₁ _ _).bind fun _ => ?_
  exact hs.bind fun body => pure_tracks rfl

theorem forStatement_tracks : Tracks ℓ (Stmt.moved ℓ 0) (forStatement re rs) (forStatement re rs) := by
  refine (expect_tracks h₁ _ _).bind fun _ => (forInitializer_tracks h₁ he).bind fun first => ?_
  refine (forCondition_tracks h₁ he).bind fun c => (expect_tracks h₁ _ _).bind fun _ => ?_
  refine (forIncrement_tracks h₁ he).bind fun i => (expect_tracks h₁ _ _).bind fun _ => hs.bind fun body => ?_
  cases first with
  | none => exact pure_tracks rfl
  | some s => exact pure_tracks rfl

end Parts

/-! ## statements -/

/-- The rules for statements with so much fuel track themselves. -/
structure StatementsTrack (ℓ : Nat → Nat) (n : Nat) : Prop where
  statement : Tracks ℓ (Stmt.moved ℓ 0) (statement n) (statement n)
  declaration : Tracks ℓ (Option.map (Stmt.moved ℓ 0)) (declaration n) (declaration n)
  declarations : ∀ inBraces, Tracks ℓ (Stmt.movedAll ℓ 0) (declarations n inBraces) (declarations n inBraces)
  function : ∀ kind, Tracks ℓ (FunctionDecl.moved ℓ 0) (function n kind) (function n kind)
  methods : Tracks ℓ (FunctionDecl.movedAll ℓ 0) (methods n) (methods n)

section Statements

variable {n : Nat} (h₁ : ℓ 1 = 1) (ih : StatementsTrack ℓ n)

include h₁ ih

theorem statement_tracks : Tracks ℓ (Stmt.moved ℓ 0) (statement (n + 1)) (statement (n + 1)) := by
  have hexpr : Tracks ℓ (Expr.moved ℓ 0) (expression n) (expression n) := (expressions_track h₁ n).expression
  simp only [statement]
  refine (peek_tracks h₁).bind fun t => ?_
  have hkind : (t.moved ℓ).kind = t.kind := rfl
  simp only [hkind]
  split
  · exact (advance_tracks h₁).bind fun _ => forStatement_tracks h₁ hexpr ih.statement
  · exact (advance_tracks h₁).bind fun _ => ifStatement_tracks h₁ hexpr ih.statement
  · exact (advance_tracks h₁).bind fun _ => whileStatement_tracks h₁ hexpr ih.statement
  · exact (advance_tracks h₁).bind fun _ => returnStatement_tracks h₁ hexpr t
  · exact (advance_tracks h₁).bind fun _ => (expect_tracks h₁ _ _).bind fun _ => pure_tracks rfl
  · exact (advance_tracks h₁).bind fun _ => (expect_tracks h₁ _ _).bind fun _ => pure_tracks rfl
  · refine (advance_tracks h₁).bind fun _ => (ih.declarations true).bind fun body => ?_
    exact (expect_tracks h₁ _ _).bind fun _ => pure_tracks rfl
  · exact (advance_tracks h₁).bind fun _ => printStatement_tracks h₁ hexpr t
  · exact expressionStatement_tracks h₁ hexpr

theorem declaration_tracks :
    Tracks ℓ (Option.map (Stmt.moved ℓ 0)) (declaration (n + 1)) (declaration (n + 1)) := by
  simp only [declaration]
  refine recover_tracks ((peek_tracks h₁).bind fun t => ?_)
  have hkind : (t.moved ℓ).kind = t.kind := rfl
  simp only [hkind]
  split
  · exact (advance_tracks h₁).bind fun _ => classDeclaration_tracks h₁ ih.methods
  · exact (advance_tracks h₁).bind fun _ => (ih.function .function).bind fun d => pure_tracks rfl
  · exact (advance_tracks h₁).bind fun _ => varDeclaration_tracks h₁ (expressions_track h₁ n).expression
  · exact ih.statement

theorem declarations_tracks (inBraces : Bool) :
    Tracks ℓ (Stmt.movedAll ℓ 0) (declarations (n + 1) inBraces) (declarations (n + 1) inBraces) := by
  simp only [declarations]
  refine (peek_tracks h₁).bind fun t => ?_
  have hkind : (t.moved ℓ).kind = t.kind := rfl
  simp only [hkind]
  split
  · exact pure_tracks rfl
  · refine ih.declaration.bind fun s => (ih.declarations inBraces).bind fun body => pure_tracks ?_
    cases s <;> rfl

theorem function_tracks (kind : Body) :
    Tracks ℓ (FunctionDecl.moved ℓ 0) (function (n + 1) kind) (function (n + 1) kind) := by
  have hparams : Tracks ℓ (List.map (Token.moved ℓ))
      (do if ← nextIs (.mark .rightParen) then pure [] else parameterNames n 0 : Rule (List Token))
      (do if ← nextIs (.mark .rightParen) then pure [] else parameterNames n 0 : Rule (List Token)) := by
    refine (nextIs_tracks h₁ _).bind fun b => ?_
    cases b with
    | true => exact pure_tracks rfl
    | false => exact parameterNames_tracks h₁ n 0
  simp only [function]
  refine (expect_tracks h₁ _ _).bind fun name => (expect_tracks h₁ _ _).bind fun _ => hparams.bind fun params => ?_
  refine (expect_tracks h₁ _ _).bind fun _ => (expect_tracks h₁ _ _).bind fun _ => ?_
  refine (ih.declarations true).bind fun body => ?_
  exact (expect_tracks h₁ _ _).bind fun _ => pure_tracks rfl

theorem methods_tracks : Tracks ℓ (FunctionDecl.movedAll ℓ 0) (methods (n + 1)) (methods (n + 1)) := by
  simp only [methods]
  refine (peek_tracks h₁).bind fun t => ?_
  have hkind : (t.moved ℓ).kind = t.kind := rfl
  simp only [hkind]
  split
  · exact pure_tracks rfl
  · exact (ih.function .method).bind fun d => ih.methods.bind fun ds => pure_tracks rfl

end Statements

theorem statements_track (h₁ : ℓ 1 = 1) (n : Nat) : StatementsTrack ℓ n := by
  induction n with
  | zero => constructor <;> intros <;> exact outOfFuel_tracks
  | succ n ih =>
    exact ⟨statement_tracks h₁ ih, declaration_tracks h₁ ih, declarations_tracks h₁ ih, function_tracks h₁ ih,
      methods_tracks h₁ ih⟩

end Rule

/-! ## whole sources -/

/-- What parsing gives, on other lines. -/
def Parse.moved (ℓ : Nat → Nat) (p : Parse) : Parse where
  result := match p.result with
    | .ok program => .ok (Stmt.movedAll ℓ 0 program)
    | .error reports => .error (reports.map (Report.moved ℓ))
  fresh := p.fresh

/-- Tokens on other lines are parsed as before: into the tree on other lines, or with the reports on other lines. -/
theorem parse_moved {ℓ : Nat → Nat} (h₁ : ℓ 1 = 1) (fresh : Label) (ts : List Token) :
    parse fresh (ts.map (Token.moved ℓ)) = (parse fresh ts).moved ℓ := by
  have hfuel : Rule.fuelFor (ts.map (Token.moved ℓ)) = Rule.fuelFor ts := by simp [Rule.fuelFor]
  have hrun := (Rule.statements_track h₁ (Rule.fuelFor ts)).declarations false ⟨ts, fresh⟩
  unfold parse
  rw [hfuel, show Cursor.mk (ts.map (Token.moved ℓ)) fresh = Cursor.moved ℓ ⟨ts, fresh⟩ from rfl, hrun]
  cases Rule.declarations (Rule.fuelFor ts) false ⟨ts, fresh⟩ with
  | ok program next reports =>
    cases reports with
    | nil => rfl
    | cons r rs => rfl
  | refused cause next reports =>
    simp only [Reply.moved, Parse.moved, List.map_append, List.map_cons, List.map_nil]
    rfl
  | outOfFuel => rfl

end ScriptLang
