import ScriptLang.Tree.Parser

/-!
# How the rules are built

* `r.Built known least` — the rule `r` is put together from steps that stay where they are or read a token that does not
  end the source, and it reads at least `least` tokens when it succeeds;
* `Rule.statements_built`, `Rule.expressions_built` — so are all rules of the grammar, whatever fuel they have.

The predicate follows the text of a rule and not its runs: it has no cursor, and running out of fuel is one more way to
stop.  What every rule does at every cursor is proved by induction on it.
-/

namespace ScriptLang

namespace Rule

/-- How a rule is built.  It may rely on a `known` token at its cursor. -/
inductive Built : {α : Type} → Rule α → Option Token → Nat → Prop
  | succeed {α : Type} (a : α) : Built (pure a : Rule α) none 0
  | outOfFuel {α : Type} {least : Nat} : Built (outOfFuel : Rule α) none least
  | refuse {α : Type} {least : Nat} (cause : SyntaxFault) : Built (refuse cause : Rule α) none least
  | report (anchor : Token) (cause : SyntaxFault) : Built (report anchor cause) none 0
  | nextIs (k : Kind) : Built (nextIs k) none 0
  | label : Built label none 0
  /-- A token is read if it is known not to end the source, -/
  | advance {t : Token} (h : t.kind ≠ .eof) : Built advance (some t) 1
  /-- or if it is of a kind that does not. -/
  | expect {k : Kind} (h : k ≠ .eof) (what : Expected) : Built (expect k what) none 1
  | accept {β : Type} {least : Nat} {k : Kind} {f : Bool → Rule β} (h : k ≠ .eof)
      (hyes : Built (f true) none (least - 1)) (hno : Built (f false) none least) : Built (accept k >>= f) none least
  | acceptBy {β γ : Type} {least : Nat} {meaning : Kind → Option γ} {f : Option (Token × γ) → Rule β}
      (h : meaning .eof = none) (hsome : ∀ x, Built (f (some x)) none (least - 1)) (hnone : Built (f none) none least) :
      Built (acceptBy meaning >>= f) none least
  /-- What stands at the cursor is known behind `peek`. -/
  | look {β : Type} {least : Nat} {f : Token → Rule β} (hf : ∀ t, Built (f t) (some t) least) :
      Built (peek >>= f) none least
  /-- What the first rule reads need not be read by the second one. -/
  | bind {α β : Type} {known : Option Token} {k l : Nat} {r : Rule α} {f : α → Rule β} (hr : Built r known k)
      (hf : ∀ a, Built (f a) none (l - k)) : Built (r >>= f) known l
  /-- Recovery goes forward if the end of the source is not reached. -/
  | recover {α : Type} {t : Token} {r : Rule α} (h : t.kind ≠ .eof) (hr : Built r none 1) :
      Built (recover r) (some t) 1
  | forget {α : Type} {known : Option Token} {least : Nat} {r : Rule α} (hr : Built r none least) : Built r known least
  | fewer {α : Type} {known : Option Token} {l k : Nat} {r : Rule α} (hr : Built r known l) (hk : k ≤ l) :
      Built r known k

theorem Built.any {α : Type} {known : Option Token} {l : Nat} {r : Rule α} (h : r.Built known l) : r.Built known 0 :=
  h.fewer (Nat.zero_le l)

/-! ## parts that several rules share -/

theorem built_checkCount (count : Nat) (cause : SyntaxFault) : (checkCount count cause).Built none 0 := by
  unfold checkCount
  split
  · exact .look fun t => .forget (.report t cause)
  · exact .succeed ()

theorem built_assignTo (equals : Token) (target value : Expr) : (assignTo equals target value).Built none 0 := by
  unfold assignTo
  split
  · exact .bind .label fun l => .succeed _
  · exact .succeed _
  · exact .bind (.report _ _) fun _ => .succeed _

theorem built_update (invalid : SyntaxFault) (anchor : Token) (operator : Mark) (target value : Expr) :
    (update invalid anchor operator target value).Built none 0 := by
  unfold update
  split
  · exact .bind .label fun outer => .bind .label fun inner => .succeed _
  · exact .succeed _
  · exact .bind (.report _ _) fun _ => .succeed _

/-- A rule that begins with a token known not to end the source. -/
theorem built_advance {β : Type} {t : Token} {k : Kind} {f : Token → Rule β} (ht : t.kind = k) (hk : k ≠ .eof)
    (hf : ∀ u, (f u).Built none 0) : (advance >>= f).Built (some t) 1 :=
  .bind (.advance fun h => hk (ht.symm.trans h)) hf

/-- Only a token of a kind stands between a rule and its result. -/
theorem built_close {β : Type} {k : Kind} (hk : k ≠ .eof) (what : Expected) (b : β) :
    (do let _ ← expect k what; pure b : Rule β).Built none 0 :=
  .any (.bind (l := 1) (.expect hk what) fun _ => .succeed b)

/-! ## expressions -/

/-- The rules that read expressions are built. -/
structure ExpressionsBuilt (n : Nat) : Prop where
  expression : (expression n).Built none 1
  binary : ∀ l, (binary n l).Built none 1
  operand : ∀ l, (operand n l).Built none 1
  binaryRest : ∀ l left, (binaryRest n l left).Built none 0
  unary : (unary n).Built none 1
  call : (call n).Built none 1
  callRest : ∀ f, (callRest n f).Built none 0
  arguments : (arguments n).Built none 0
  argumentList : ∀ count, (argumentList n count).Built none 1
  primary : (primary n).Built none 1

variable {n : Nat}

theorem expression_built (ih : ExpressionsBuilt n) : (expression (n + 1)).Built none 1 := by
  simp only [expression]
  refine .bind (ih.binary .disjunction) fun target => .look fun t => .forget ?_
  refine .accept (by simp) (.bind ih.expression.any fun v => built_assignTo _ _ _) ?_
  refine .acceptBy rfl (fun x => ?_) (.succeed _)
  exact .bind ih.expression.any fun v => built_update _ _ _ _ _

theorem binary_built (ih : ExpressionsBuilt n) (l : Level) : (binary (n + 1) l).Built none 1 := by
  simp only [binary]
  exact .bind (ih.operand l) fun left => ih.binaryRest l left

theorem operand_built (ih : ExpressionsBuilt n) (l : Level) : (operand (n + 1) l).Built none 1 := by
  simp only [operand]
  split
  · exact ih.binary _
  · exact ih.unary

theorem binaryRest_built (ih : ExpressionsBuilt n) (l : Level) (left : Expr) :
    (binaryRest (n + 1) l left).Built none 0 := by
  simp only [binaryRest]
  refine .acceptBy (by cases l <;> rfl) (fun x => ?_) (.succeed _)
  exact .bind (ih.operand l).any fun right => ih.binaryRest l _

theorem unary_built (ih : ExpressionsBuilt n) : (unary (n + 1)).Built none 1 := by
  simp only [unary]
  refine .acceptBy rfl (fun x => .bind ih.unary.any fun right => .succeed _) ?_
  refine .acceptBy rfl (fun x => .bind ih.unary.any fun target => built_update _ _ _ _ _) ?_
  exact .bind ih.call fun e => .acceptBy rfl (fun x => built_update _ _ _ _ _) (.succeed _)

theorem call_built (ih : ExpressionsBuilt n) : (call (n + 1)).Built none 1 := by
  simp only [call]
  exact .bind ih.primary fun f => ih.callRest f

theorem callRest_built (ih : ExpressionsBuilt n) (f : Expr) : (callRest (n + 1) f).Built none 0 := by
  simp only [callRest]
  refine .accept (by simp) ?_ (.accept (by simp) ?_ (.succeed _))
  · refine .bind ih.arguments fun args => ?_
    exact .any (.bind (l := 1) (.expect (by simp) _) fun paren => ih.callRest _)
  · exact .any (.bind (l := 1) (.expect (by simp) _) fun name => ih.callRest _)

theorem arguments_built (ih : ExpressionsBuilt n) : (arguments (n + 1)).Built none 0 := by
  simp only [arguments]
  refine .bind (.nextIs _) fun b => ?_
  split
  · exact .succeed _
  · exact (ih.argumentList 0).any

theorem argumentList_built (ih : ExpressionsBuilt n) (count : Nat) : (argumentList (n + 1) count).Built none 1 := by
  simp only [argumentList]
  refine .bind (built_checkCount _ _) fun _ => .bind ih.expression fun e => ?_
  refine .accept (by simp) (.bind (ih.argumentList (count + 1)).any fun es => .succeed _) (.succeed _)

theorem primary_built (ih : ExpressionsBuilt n) : (primary (n + 1)).Built none 1 := by
  simp only [primary]
  refine .look fun t => ?_
  split
  · next hk => exact built_advance hk (by simp) fun _ => .succeed _
  · next hk => exact built_advance hk (by simp) fun _ => .succeed _
  · next hk => exact built_advance hk (by simp) fun _ => .succeed _
  · next hk => exact built_advance hk (by simp) fun _ => .succeed _
  · next hk => exact built_advance hk (by simp) fun _ => .succeed _
  · next hk => exact built_advance hk (by simp) fun _ => .bind .label fun l => .succeed _
  · next hk => exact built_advance hk (by simp) fun _ => .bind .label fun l => .succeed _
  · next hk =>
    refine built_advance hk (by simp) fun _ => .any (l := 2) ?_
    exact .bind (.expect (by simp) _) fun _ => .bind (.expect (by simp) _) fun _ => .bind .label fun l => .succeed _
  · next hk =>
    refine built_advance hk (by simp) fun _ => ?_
    exact .bind ih.expression.any fun e => built_close (by simp) _ _
  · exact .forget (.refuse _)

/-- Every rule that reads expressions is built. -/
theorem expressions_built (n : Nat) : ExpressionsBuilt n := by
  induction n with
  | zero =>
    exact ⟨.outOfFuel, fun _ => .outOfFuel, fun _ => .outOfFuel, fun _ _ => .outOfFuel, .outOfFuel, .outOfFuel,
      fun _ => .outOfFuel, .outOfFuel, fun _ => .outOfFuel, .outOfFuel⟩
  | succ n ih =>
    exact ⟨expression_built ih, binary_built ih, operand_built ih, binaryRest_built ih, unary_built ih, call_built ih,
      callRest_built ih, arguments_built ih, argumentList_built ih, primary_built ih⟩

/-! ## statements in terms of their parts -/

section Parts

variable {expression : Rule Expr} {statement : Rule Stmt} (he : expression.Built none 1) (hs : statement.Built none 1)

include he

theorem varDeclaration_built : (varDeclaration expression).Built none 1 := by
  unfold varDeclaration
  refine .bind (.expect (by simp) _) fun name => .accept (by simp) ?_ (built_close (by simp) _ _)
  exact .bind he.any fun e => built_close (by simp) _ _

theorem expressionStatement_built : (expressionStatement expression).Built none 1 := by
  unfold expressionStatement
  exact .bind he fun e => built_close (by simp) _ _

theorem printStatement_built (k : Token) : (printStatement k expression).Built none 1 := by
  unfold printStatement
  exact .bind he fun e => built_close (by simp) _ _

theorem returnStatement_built (k : Token) : (returnStatement k expression).Built none 1 := by
  unfold returnStatement
  refine .bind (.nextIs _) fun b => ?_
  split
  · exact .bind (.expect (by simp) _) fun _ => .succeed _
  · exact .bind he fun e => built_close (by simp) _ _

theorem forInitializer_built : (forInitializer expression).Built none 1 := by
  unfold forInitializer
  refine .accept (by simp) (.succeed _) (.accept (by simp) ?_ ?_)
  · exact .bind (varDeclaration_built he).any fun s => .succeed _
  · exact .bind (expressionStatement_built he) fun s => .succeed _

theorem forCondition_built : (forCondition expression).Built none 0 := by
  unfold forCondition
  refine .bind (.nextIs _) fun b => ?_
  split
  · exact .succeed _
  · exact he.any

theorem forIncrement_built : (forIncrement expression).Built none 0 := by
  unfold forIncrement
  refine .bind (.nextIs _) fun b => ?_
  split
  · exact .succeed _
  · exact .bind he.any fun e => .succeed _

include hs

theorem ifStatement_built : (ifStatement expression statement).Built none 1 := by
  unfold ifStatement
  refine .bind (.expect (by simp) _) fun _ => .bind he.any fun c => ?_
  refine .any (.bind (l := 1) (.expect (by simp) _) fun _ => ?_)
  refine .bind hs.any fun t => .accept (by simp) ?_ (.succeed _)
  exact .bind hs.any fun e => .succeed _

theorem whileStatement_built : (whileStatement expression statement).Built none 1 := by
  unfold whileStatement
  refine .bind (.expect (by simp) _) fun _ => .bind he.any fun c => ?_
  refine .any (.bind (l := 1) (.expect (by simp) _) fun _ => ?_)
  exact .bind hs.any fun body => .succeed _

theorem forStatement_built : (forStatement expression statement).Built none 1 := by
  unfold forStatement
  refine .bind (.expect (by simp) _) fun _ => .bind (forInitializer_built he).any fun first => ?_
  refine .bind (forCondition_built he) fun condition => ?_
  refine .any (.bind (l := 1) (.expect (by simp) _) fun _ => ?_)
  refine .bind (forIncrement_built he) fun increment => ?_
  refine .any (.bind (l := 1) (.expect (by simp) _) fun _ => ?_)
  refine .bind hs.any fun body => ?_
  split
  · exact .succeed _
  · exact .succeed _

end Parts

theorem superclass_built : superclass.Built none 0 := by
  unfold superclass
  refine .accept (by simp) ?_ (.succeed _)
  exact .any (.bind (l := 1) (.expect (by simp) _) fun name => .bind .label fun l => .succeed _)

theorem classDeclaration_built {methods : Rule (List FunctionDecl)} (hm : methods.Built none 0) :
    (classDeclaration methods).Built none 1 := by
  unfold classDeclaration
  refine .bind (.expect (by simp) _) fun name => .bind superclass_built fun s => ?_
  refine .any (.bind (l := 1) (.expect (by simp) _) fun _ => ?_)
  exact .bind hm fun ms => built_close (by simp) _ _

theorem parameterNames_built (n count : Nat) : (parameterNames n count).Built none 1 := by
  induction n generalizing count with
  | zero => exact .outOfFuel
  | succ n ih =>
    simp only [parameterNames]
    refine .bind (built_checkCount _ _) fun _ => .bind (.expect (by simp) _) fun name => ?_
    refine .accept (by simp) ?_ (.succeed _)
    exact .bind (ih (count + 1)).any fun names => .succeed _

/-! ## statements and declarations -/

/-- The rules that read statements and declarations are built; a declaration goes forward if it does not begin at the
end of the source. -/
structure StatementsBuilt (n : Nat) : Prop where
  statement : (statement n).Built none 1
  declaration : ∀ t : Token, t.kind ≠ .eof → (declaration n).Built (some t) 1
  declarations : ∀ inBraces, (declarations n inBraces).Built none 0
  function : ∀ kind, (function n kind).Built none 1
  methods : (methods n).Built none 0

theorem statement_built (ih : StatementsBuilt n) : (statement (n + 1)).Built none 1 := by
  have he := (expressions_built n).expression
  simp only [statement]
  refine .look fun t => ?_
  split
  · next hk => exact built_advance hk (by simp) fun _ => (forStatement_built he ih.statement).any
  · next hk => exact built_advance hk (by simp) fun _ => (ifStatement_built he ih.statement).any
  · next hk => exact built_advance hk (by simp) fun _ => (whileStatement_built he ih.statement).any
  · next hk => exact built_advance hk (by simp) fun _ => (returnStatement_built he t).any
  · next hk => exact built_advance hk (by simp) fun _ => built_close (by simp) _ _
  · next hk => exact built_advance hk (by simp) fun _ => built_close (by simp) _ _
  · next hk =>
    exact built_advance hk (by simp) fun _ => .bind (ih.declarations true) fun body => built_close (by simp) _ _
  · next hk => exact built_advance hk (by simp) fun _ => (printStatement_built he t).any
  · exact .forget (expressionStatement_built he)

theorem declaration_built (ih : StatementsBuilt n) (t : Token) (ht : t.kind ≠ .eof) :
    (declaration (n + 1)).Built (some t) 1 := by
  simp only [declaration]
  refine .recover ht (.look fun u => ?_)
  split
  · next hk => exact built_advance hk (by simp) fun _ => (classDeclaration_built ih.methods).any
  · next hk =>
    exact built_advance hk (by simp) fun _ => .bind (ih.function _).any fun d => .succeed _
  · next hk =>
    exact built_advance hk (by simp) fun _ =>
      (varDeclaration_built (expressions_built n).expression).any
  · exact .forget ih.statement

theorem declarations_built (ih : StatementsBuilt n) (inBraces : Bool) : (declarations (n + 1) inBraces).Built none 0 := by
  simp only [declarations]
  refine .look fun t => ?_
  split
  · exact .forget (.succeed _)
  · next hend =>
    have ht : t.kind ≠ .eof := fun he => hend (by simp [he])
    refine .bind (ih.declaration t ht).any fun s => ?_
    exact .bind (ih.declarations inBraces) fun rest => .succeed _

theorem function_built (ih : StatementsBuilt n) (kind : Body) : (function (n + 1) kind).Built none 1 := by
  have hp : (do if ← nextIs (.mark .rightParen) then pure [] else parameterNames n 0 : Rule (List Token)).Built none 0 := by
    refine .bind (.nextIs _) fun b => ?_
    split
    · exact .succeed _
    · exact (parameterNames_built n 0).any
  simp only [function]
  refine .fewer (l := 2) ?_ (Nat.le_succ 1)
  refine .bind (.expect (by simp) _) fun name => .bind (.expect (by simp) _) fun _ => .bind hp fun params => ?_
  refine .any (l := 2) ?_
  refine .bind (.expect (by simp) _) fun _ => .bind (.expect (by simp) _) fun _ => ?_
  exact .bind (ih.declarations true) fun body => built_close (by simp) _ _

theorem methods_built (ih : StatementsBuilt n) : (methods (n + 1)).Built none 0 := by
  simp only [methods]
  refine .look fun t => .forget ?_
  split
  · exact .succeed _
  · exact .bind (ih.function _).any fun d => .bind ih.methods fun ds => .succeed _

/-- Every rule that reads statements and declarations is built. -/
theorem statements_built (n : Nat) : StatementsBuilt n := by
  induction n with
  | zero => exact ⟨.outOfFuel, fun _ _ => .forget .outOfFuel, fun _ => .outOfFuel, fun _ => .outOfFuel, .outOfFuel⟩
  | succ n ih =>
    exact ⟨statement_built ih, declaration_built ih, declarations_built ih, function_built ih, methods_built ih⟩

end Rule

end ScriptLang
