import ScriptLang.Proofs.Parsing.Accepting

/-!
# Expressions with lists of any length

`Taken s ts rs` — the rules of the part `s` read the tokens `ts` and report `rs`, and the first token is one with which
the part may begin.  The rules of the grammar keep it for expressions, also with lists of any length.

A call goes on for as long as it can, so what it is taken as says what happens with anything behind it.  In the same way
a statement that ends with open conditionals takes as many `else` branches as there are behind it (`Elses`).
-/

namespace ScriptLang

open Ebnf Rule

/-- The first token is of a kind with the property. -/
def StartsAs (p : Kind → Bool) (ts : List Token) : Prop := ∃ t us, ts = t :: us ∧ p t.kind = true

theorem startsAs_cons {p : Kind → Bool} {t : Token} {us : List Token} (h : p t.kind = true) : StartsAs p (t :: us) :=
  ⟨t, us, rfl, h⟩

theorem StartsAs.append {p : Kind → Bool} {ts : List Token} (h : StartsAs p ts) (us : List Token) :
    StartsAs p (ts ++ us) := by
  obtain ⟨t, ts, rfl, ht⟩ := h
  exact ⟨t, ts ++ us, rfl, ht⟩

theorem StartsAs.mono {p q : Kind → Bool} {ts : List Token} (h : StartsAs p ts) (hpq : ∀ k, p k = true → q k = true) :
    StartsAs q ts := by
  obtain ⟨t, us, rfl, ht⟩ := h
  exact ⟨t, us, rfl, hpq _ ht⟩

theorem opensExpression_of_primary {k : Kind} (h : k.opensPrimary = true) : k.opensExpression = true := by
  simp [Kind.opensExpression, h]

theorem opensStatement_of_expression {k : Kind} (h : k.opensExpression = true) : k.opensStatement = true := by
  simp [Kind.opensStatement, h]

theorem opensDeclaration_of_statement {k : Kind} (h : k.opensStatement = true) : k.opensDeclaration = true := by
  simp [Kind.opensDeclaration, h]

/-- With any fuel the rule reads the tokens before what stops it. -/
def Takes {α : Type} (r : Nat → Rule α) (stop : List Token → Prop) (ts : List Token)
    (rs : List (Report SyntaxFault)) : Prop :=
  ∀ n rest, stop rest → (r n).Passes (ts ++ rest) rest rs

/-- With any fuel a call goes on behind the tokens, whatever it was called on. -/
def TakesCall (ts : List Token) (rs : List (Report SyntaxFault)) : Prop :=
  ∀ {P : Expr → Prop} {rest rest' ss}, (∀ n f, (callRest n f).Accepts P rest rest' ss) →
    ∀ n, (call n).Accepts P (ts ++ rest) rest' (rs ++ ss)

/-- The `else` branches that so many open conditionals take: each takes one, if there is one. -/
inductive Elses : Nat → List Token → List Token → List (Report SyntaxFault) → Prop
  | done {rest} : Elses 0 rest rest []
  | skip {d rest rest' ss} : headKind rest ≠ .keyword .kwElse → Elses d rest rest' ss → Elses (d + 1) rest rest' ss
  | take {d t us mid rest' rs ss} : t.kind = .keyword .kwElse → (∀ n, (statement n).Passes us mid rs) →
      Elses d mid rest' ss → Elses (d + 1) (t :: us) rest' (rs ++ ss)

/-- With any fuel a statement with open conditionals goes on through the `else` branches behind it. -/
def TakesStatement (ts : List Token) (rs : List (Report SyntaxFault)) : Prop :=
  ∃ d, ∀ {rest rest' ss}, Elses d rest rest' ss → ∀ n, (statement n).Passes (ts ++ rest) rest' (rs ++ ss)

/-- What the rules of a part of the grammar make of tokens. -/
def Taken : Symbol → List Token → List (Report SyntaxFault) → Prop
  | .program, ts, rs => ∀ inBraces, Takes (declarations · inBraces) (AtEnd inBraces) ts rs
  | .declaration, ts, rs | .classDecl, ts, rs | .funDecl, ts, rs =>
    StartsAs Kind.opensDeclaration ts ∧ Takes declaration (headKind · ≠ .keyword .kwElse) ts rs
  | .function, ts, rs =>
    StartsAs (· = .identifier) ts ∧ ∀ kind, Takes (function · kind) (fun _ => True) ts rs
  | .parameters, ts, rs =>
    StartsAs (· = .identifier) ts ∧ Takes (parameterNames · 0) (headKind · = .mark .rightParen) ts rs
  | .varDecl, ts, rs => ∃ k us, ts = k :: us ∧ k.kind = .keyword .kwVar ∧
    Takes (fun n => varDeclaration (expression n)) (fun _ => True) us rs
  | .statement, ts, rs | .forStmt, ts, rs | .ifStmt, ts, rs | .printStmt, ts, rs | .returnStmt, ts, rs
  | .whileStmt, ts, rs | .breakStmt, ts, rs | .continueStmt, ts, rs =>
    StartsAs Kind.opensStatement ts ∧ TakesStatement ts rs
  | .exprStmt, ts, rs =>
    StartsAs Kind.opensExpression ts ∧ Takes (fun n => expressionStatement (expression n)) (fun _ => True) ts rs
  | .block, ts, rs => ∃ t us close, ts = t :: us ++ [close] ∧ t.kind = .mark .leftBrace ∧
    close.kind = .mark .rightBrace ∧ Takes (declarations · true) (AtEnd true) us rs
  | .expression, ts, rs | .assignment, ts, rs =>
    StartsAs Kind.opensExpression ts ∧ Takes expression (Stops 1) ts rs
  | .logicOr, ts, rs => StartsAs Kind.opensExpression ts ∧ Takes (binary · .disjunction) (Stops 2) ts rs
  | .logicAnd, ts, rs => StartsAs Kind.opensExpression ts ∧ Takes (binary · .conjunction) (Stops 3) ts rs
  | .equality, ts, rs => StartsAs Kind.opensExpression ts ∧ Takes (binary · .equality) (Stops 4) ts rs
  | .comparison, ts, rs => StartsAs Kind.opensExpression ts ∧ Takes (binary · .comparison) (Stops 5) ts rs
  | .term, ts, rs => StartsAs Kind.opensExpression ts ∧ Takes (binary · .sum) (Stops 6) ts rs
  | .factor, ts, rs => StartsAs Kind.opensExpression ts ∧ Takes (binary · .product) (Stops 7) ts rs
  | .unary, ts, rs | .stepped, ts, rs => StartsAs Kind.opensExpression ts ∧ Takes unary (Stops 8) ts rs
  | .call, ts, rs => StartsAs Kind.opensPrimary ts ∧ TakesCall ts rs
  | .arguments, ts, rs =>
    StartsAs Kind.opensExpression ts ∧ Takes (argumentList · 0) (headKind · = .mark .rightParen) ts rs
  | .primary, ts, rs => StartsAs Kind.opensPrimary ts ∧ Takes primary (fun _ => True) ts rs

variable {P : Expr → Prop} {ts us rest rest' : List Token} {rs ss : List (Report SyntaxFault)} {t : Token}

/-! ## weaker operators -/

theorem accepts_unary (ho : StartsAs Kind.opensPrimary ts) (hrest : Stops 8 rest)
    (h : ∀ n, (call n).Accepts P ts rest rs) (n : Nat) : (unary n).Accepts P ts rest rs := by
  cases n with
  | zero => exact accepts_outOfFuel
  | succ n =>
    obtain ⟨u, us, rfl, hu⟩ := ho
    obtain ⟨hu₁, hu₂⟩ := Phrase.no_operator_of_opensPrimary hu
    simp only [Rule.unary]
    refine accepts_acceptBy_other hu₁ (accepts_acceptBy_other hu₂ ?_)
    exact (h n).last fun a ha => accepts_acceptBy_other hrest.step? (accepts_pure ha)

theorem accepts_binary_of_operand {l : Level} (hrest : Stops l.strength rest)
    (h : ∀ n, (operand n l).Accepts P ts rest rs) (n : Nat) : (binary n l).Accepts P ts rest rs := by
  cases n with
  | zero => exact accepts_outOfFuel
  | succ n =>
    simp only [Rule.binary]
    refine (h n).last fun a ha => ?_
    cases n with
    | zero => exact accepts_outOfFuel
    | succ n =>
      simp only [Rule.binaryRest]
      exact accepts_acceptBy_other hrest.operator? (accepts_pure ha)

theorem accepts_operand_of_tightest {l : Level} (hl : l.tighter? = none) (h : ∀ n, (unary n).Accepts P ts rest rs)
    (n : Nat) : (operand n l).Accepts P ts rest rs := by
  cases n with
  | zero => exact accepts_outOfFuel
  | succ n =>
    simp only [Rule.operand, hl]
    exact h n

theorem accepts_operand_of_tighter {l inner : Level} (hl : l.tighter? = some inner)
    (h : ∀ n, (binary n inner).Accepts P ts rest rs) (n : Nat) : (operand n l).Accepts P ts rest rs := by
  cases n with
  | zero => exact accepts_outOfFuel
  | succ n =>
    simp only [Rule.operand, hl]
    exact h n

/-- A unary expression stands where an operator of any level is read. -/
theorem accepts_binary (hrest : Stops 2 rest) (h : ∀ n, (unary n).Accepts P ts rest rs) (n : Nat) :
    (binary n .disjunction).Accepts P ts rest rs := by
  have hproduct := accepts_binary_of_operand (hrest.mono (by decide)) (accepts_operand_of_tightest (l := .product) rfl h)
  have hsum := accepts_binary_of_operand (hrest.mono (by decide))
    (accepts_operand_of_tighter (l := .sum) rfl hproduct)
  have hcomparison := accepts_binary_of_operand (hrest.mono (by decide))
    (accepts_operand_of_tighter (l := .comparison) rfl hsum)
  have hequality := accepts_binary_of_operand (hrest.mono (by decide))
    (accepts_operand_of_tighter (l := .equality) rfl hcomparison)
  have hconjunction := accepts_binary_of_operand (hrest.mono (by decide))
    (accepts_operand_of_tighter (l := .conjunction) rfl hequality)
  exact accepts_binary_of_operand (l := .disjunction) hrest (accepts_operand_of_tighter rfl hconjunction) n

theorem taken_operand {l : Level} (h : Taken l.operandSymbol ts rs) :
    StartsAs Kind.opensExpression ts ∧ Takes (operand · l) (Stops (l.strength + 1)) ts rs := by
  cases l with
  | product => exact ⟨h.1, fun n rest hrest => accepts_operand_of_tightest rfl (fun n => h.2 n rest hrest) n⟩
  | _ => exact ⟨h.1, fun n rest hrest => accepts_operand_of_tighter rfl (fun n => h.2 n rest hrest) n⟩

theorem mem_operators_of_says {S : Symbol → List Token → List (Report SyntaxFault) → Prop} {l : Level}
    (h : l.operatorForm.Says S ts rs) : (∃ t, ts = [t] ∧ t.kind ∈ l.operators) ∧ rs = [] := by
  cases l <;> simp only [Level.operatorForm, says_or, says_mark, says_word, ← or_and_right] at h <;>
    simp only [Level.operators, List.mem_cons, List.not_mem_nil, or_false] <;> refine ⟨?_, h.2⟩
  case disjunction | conjunction => exact h.1
  case comparison =>
    rcases h.1 with ((⟨t, rfl, ht⟩ | ⟨t, rfl, ht⟩) | ⟨t, rfl, ht⟩) | ⟨t, rfl, ht⟩ <;> exact ⟨t, rfl, by simp [ht]⟩
  all_goals
    rcases h.1 with ⟨t, rfl, ht⟩ | ⟨t, rfl, ht⟩ <;> exact ⟨t, rfl, by simp [ht]⟩

/-- An operand ends before the operators of its level. -/
theorem stops_row {l : Level} (h : Row ((l.operatorForm ++ symbol l.operandSymbol).Says Taken) ts rs)
    (hrest : Stops l.strength rest) : Stops (l.strength + 1) (ts ++ rest) := by
  cases h with
  | nil => exact hrest.mono (Nat.le_succ _)
  | cons hpart _ =>
    obtain ⟨_, _, _, _, rfl, rfl, hop, -⟩ := says_append.1 hpart
    obtain ⟨⟨t, rfl, ht⟩, -⟩ := mem_operators_of_says hop
    exact stops_cons (Nat.lt_succ_of_le (Nat.le_of_eq (Level.strength_of_mem ht)))

/-- Operators and operands, as many as there are. -/
theorem takes_binaryRest {l : Level} (h : Row ((l.operatorForm ++ symbol l.operandSymbol).Says Taken) ts rs)
    (left : Expr) : Takes (binaryRest · l left) (Stops l.strength) ts rs := by
  induction h generalizing left with
  | nil =>
    intro n rest hrest
    cases n with
    | zero => exact accepts_outOfFuel
    | succ n =>
      simp only [Rule.binaryRest]
      exact accepts_acceptBy_other hrest.operator? passes_pure
  | cons hpart hparts ih =>
    obtain ⟨_, vs, _, ps, rfl, rfl, hop, hv⟩ := says_append.1 hpart
    obtain ⟨⟨t, rfl, ht⟩, rfl⟩ := mem_operators_of_says hop
    intro n rest hrest
    cases n with
    | zero => exact accepts_outOfFuel
    | succ n =>
      simp only [Rule.binaryRest, List.append_assoc, List.cons_append, List.nil_append]
      refine accepts_acceptBy (g := ()) (operator?_eq_some.2 ht) ?_
      exact ((taken_operand hv).2 n _ (stops_row hparts hrest)).bind fun right _ => ih _ n rest hrest

theorem taken_binary {l : Level} (h : l.symbol.rule.Says Taken ts rs) :
    StartsAs Kind.opensExpression ts ∧ Takes (binary · l) (Stops l.strength) ts rs := by
  rw [Level.rule_symbol] at h
  obtain ⟨us, vs, ps, qs, rfl, rfl, hu, hparts⟩ := says_append.1 h
  obtain ⟨ho, hoperand⟩ := taken_operand hu
  refine ⟨ho.append vs, fun n rest hrest => ?_⟩
  cases n with
  | zero => exact accepts_outOfFuel
  | succ n =>
    simp only [Rule.binary, List.append_assoc]
    exact (hoperand n _ (stops_row hparts hrest)).bind fun left _ => takes_binaryRest hparts left n rest hrest

/-! ## calls -/

theorem accepts_callRest_end (hrest : Stops 9 rest) {f : Expr} (hf : P f) (n : Nat) :
    (callRest n f).Accepts P rest rest [] := by
  cases n with
  | zero => exact accepts_outOfFuel
  | succ n =>
    simp only [Rule.callRest]
    refine accepts_accept_other (hrest.ne (by decide)) ?_
    exact accepts_accept_other (hrest.ne (by decide)) (accepts_pure hf)

theorem accepts_callRest_property {dot name : Token} (hd : dot.kind = .mark .dot) (hn : name.kind = .identifier)
    {f : Expr} (h : ∀ n, (callRest n (.get f name)).Accepts P rest rest' ss) (n : Nat) :
    (callRest n f).Accepts P (dot :: name :: rest) rest' ss := by
  cases n with
  | zero => exact accepts_outOfFuel
  | succ n =>
    have hne : dot.kind ≠ .mark .leftParen := by
      rw [hd]
      simp
    simp only [Rule.callRest]
    exact accepts_accept_other hne (accepts_accept hd (accepts_expect hn (h n)))

theorem takes_arguments (h : (opt (symbol .arguments)).Says Taken ts rs) :
    Takes arguments (headKind · = .mark .rightParen) ts rs := by
  intro n rest hrest
  cases n with
  | zero => exact accepts_outOfFuel
  | succ n =>
    simp only [Rule.arguments]
    rcases h with ⟨rfl, rfl⟩ | ⟨⟨t, us, rfl, ht⟩, h⟩
    · exact accepts_nextIs hrest passes_pure
    · exact accepts_nextIs_other (Phrase.opensExpression_ne ht rfl) (h n rest hrest)

theorem accepts_callRest (h : Row (callSuffix.Says Taken) ts rs)
    (hrest : ∀ n f, (callRest n f).Accepts P rest rest' ss) (n : Nat) (f : Expr) :
    (callRest n f).Accepts P (ts ++ rest) rest' (rs ++ ss) := by
  induction h generalizing n f with
  | nil => exact hrest n f
  | @cons _ parts _ _ hpart _ ih =>
    simp only [List.append_assoc]
    rcases says_or.1 hpart with h | h
    · obtain ⟨_, paren, rfl, h, hp⟩ := says_append_mark h
      obtain ⟨t, us, rfl, ht, hargs⟩ := says_mark_append h
      cases n with
      | zero => exact accepts_outOfFuel
      | succ n =>
        simp only [Rule.callRest, List.append_assoc, List.cons_append, List.nil_append]
        refine accepts_accept ht ((takes_arguments hargs n (paren :: (parts ++ rest)) hp).bind fun args _ => ?_)
        exact accepts_expect hp (ih n _)
    · obtain ⟨dot, _, rfl, hd, hident⟩ := says_mark_append h
      obtain ⟨⟨name, rfl, hn⟩, rfl⟩ := says_ident.1 hident
      exact accepts_callRest_property hd hn (fun n => ih n _) n

theorem taken_call (h : Symbol.call.rule.Says Taken ts rs) : Taken .call ts rs := by
  obtain ⟨us, vs, ps, qs, rfl, rfl, ⟨ho, hprimary⟩, hparts⟩ := says_append.1 h
  refine ⟨ho.append vs, fun {P rest rest' ss} hrest n => ?_⟩
  cases n with
  | zero => exact accepts_outOfFuel
  | succ n =>
    simp only [Rule.call, List.append_assoc]
    exact (hprimary n _ trivial).bind fun f _ => accepts_callRest hparts hrest n f

/-- A call is a unary expression. -/
theorem taken_unary_of_call (h : Taken .call ts rs) : Taken .unary ts rs := by
  refine ⟨h.1.mono fun _ => opensExpression_of_primary, fun n rest hrest => ?_⟩
  have hcall : ∀ n, (call n).Passes (ts ++ rest) rest rs := by
    intro n
    have hc := h.2 (P := fun _ => True) (fun n f => accepts_callRest_end (hrest.mono (by decide)) trivial n) n
    rwa [List.append_nil] at hc
  exact accepts_unary (h.1.append rest) hrest hcall n

/-- A target is read as something that can be assigned to. -/
theorem accepts_target (h : target.Says Taken ts rs) : StartsAs Kind.opensPrimary ts ∧
    ∀ {rest}, Stops 9 rest → ∀ n, (call n).Accepts (·.isTarget = true) (ts ++ rest) rest rs := by
  obtain ⟨_, name, rfl, h, hn⟩ := says_append_ident h
  rcases h with ⟨rfl, rfl⟩ | h
  · refine ⟨startsAs_cons (by rw [hn]; rfl), fun {rest} hrest n => ?_⟩
    have hvariable : ∀ n, (primary n).Accepts (·.isTarget = true) (name :: rest) rest [] := by
      intro n
      cases n with
      | zero => exact accepts_outOfFuel
      | succ n =>
        simp only [Rule.primary]
        refine accepts_peek ?_
        rw [List.headD_cons, hn]
        exact accepts_advance (accepts_label fun l => accepts_pure rfl)
    cases n with
    | zero => exact accepts_outOfFuel
    | succ n =>
      simp only [Rule.call]
      exact (hvariable n).bind fun f hf => accepts_callRest_end hrest hf n
  · obtain ⟨us, dot, rfl, ⟨ho, hcall⟩, hd⟩ := says_append_mark h
    refine ⟨(ho.append _).append _, fun {rest} hrest n => ?_⟩
    simp only [List.append_assoc, List.cons_append, List.nil_append]
    have hproperty : ∀ n f, (callRest n f).Accepts (·.isTarget = true) (dot :: name :: rest) rest [] :=
      fun n f => accepts_callRest_property hd hn (accepts_callRest_end (P := (·.isTarget = true)) hrest rfl) n
    have hc := hcall hproperty n
    rwa [List.append_nil] at hc

/-! ## expressions -/

theorem says_step {S : Symbol → List Token → List (Report SyntaxFault) → Prop} (h : step.Says S ts rs) :
    (∃ t op, ts = [t] ∧ step? t.kind = some op) ∧ rs = [] := by
  rcases says_or.1 h with h | h
  · obtain ⟨⟨t, rfl, ht⟩, rfl⟩ := says_mark.1 h
    exact ⟨⟨t, .plus, rfl, by rw [ht]; rfl⟩, rfl⟩
  · obtain ⟨⟨t, rfl, ht⟩, rfl⟩ := says_mark.1 h
    exact ⟨⟨t, .minus, rfl, by rw [ht]; rfl⟩, rfl⟩

theorem says_assignment_operator {S : Symbol → List Token → List (Report SyntaxFault) → Prop}
    (h : (mark .equal ||| mark .plusEqual ||| mark .minusEqual ||| mark .starEqual ||| mark .slashEqual).Says S ts rs) :
    (∃ t, ts = [t] ∧ (t.kind = .mark .equal ∨ ∃ op, compound? t.kind = some op)) ∧ rs = [] := by
  simp only [says_or, says_mark, ← or_and_right] at h
  refine ⟨?_, h.2⟩
  rcases h.1 with (((⟨t, rfl, ht⟩ | ⟨t, rfl, ht⟩) | ⟨t, rfl, ht⟩) | ⟨t, rfl, ht⟩) | ⟨t, rfl, ht⟩
  · exact ⟨t, rfl, .inl ht⟩
  · exact ⟨t, rfl, .inr ⟨.plus, by rw [ht]; rfl⟩⟩
  · exact ⟨t, rfl, .inr ⟨.minus, by rw [ht]; rfl⟩⟩
  · exact ⟨t, rfl, .inr ⟨.star, by rw [ht]; rfl⟩⟩
  · exact ⟨t, rfl, .inr ⟨.slash, by rw [ht]; rfl⟩⟩

/-- An operator that assigns is weaker than all others. -/
theorem strength_of_assignment_operator (ht : t.kind = .mark .equal ∨ ∃ op, compound? t.kind = some op) :
    t.kind.strength = 1 := by
  rcases ht with ht | ⟨op, ht⟩
  · rw [ht]
    rfl
  · exact strength_of_compound? ht

theorem taken_assignment (h : Symbol.assignment.rule.Says Taken ts rs) : Taken .assignment ts rs := by
  rcases says_or.1 h with h | h
  · obtain ⟨_, us, _, qs, rfl, rfl, h, ⟨-, hvalue⟩⟩ := says_append.1 h
    obtain ⟨ts, _, ps, _, rfl, rfl, htarget, hop⟩ := says_append.1 h
    obtain ⟨⟨t, rfl, ht⟩, rfl⟩ := says_assignment_operator hop
    obtain ⟨ho, htarget⟩ := accepts_target htarget
    refine ⟨((ho.mono fun _ => opensExpression_of_primary).append _).append us, fun n rest hrest => ?_⟩
    simp only [List.append_assoc, List.cons_append, List.nil_append]
    have hs := strength_of_assignment_operator ht
    have hunary : ∀ n, (unary n).Accepts (·.isTarget = true) (ts ++ t :: (us ++ rest)) (t :: (us ++ rest)) ps :=
      accepts_unary (ho.append _) (stops_cons (by omega)) (htarget (stops_cons (by omega)))
    cases n with
    | zero => exact accepts_outOfFuel
    | succ n =>
      simp only [Rule.expression]
      refine (accepts_binary (stops_cons (by omega)) hunary n).bind fun x hx => accepts_peek ?_
      by_cases hequal : t.kind = .mark .equal
      · exact accepts_accept hequal ((hvalue n rest hrest).last fun v _ => accepts_assignTo hx)
      · obtain ⟨op, ht⟩ := ht.resolve_left hequal
        refine accepts_accept_other hequal (accepts_acceptBy ht ?_)
        exact (hvalue n rest hrest).last fun v _ => accepts_update hx
  · refine ⟨h.1, fun n rest hrest => ?_⟩
    cases n with
    | zero => exact accepts_outOfFuel
    | succ n =>
      simp only [Rule.expression]
      refine (h.2 n rest (hrest.mono (by decide))).last fun x _ => accepts_peek ?_
      exact accepts_accept_other (hrest.ne (by decide)) (accepts_acceptBy_other hrest.compound? passes_pure)

theorem taken_unary (h : Symbol.unary.rule.Says Taken ts rs) : Taken .unary ts rs := by
  rcases says_or.1 h with h | h
  · rcases says_or.1 h with h | h
    · obtain ⟨signs, us, _, ps, rfl, rfl, hk, ⟨-, hx⟩⟩ := says_append.1 h
      simp only [says_or, says_mark, ← or_and_right] at hk
      obtain ⟨hk, rfl⟩ := hk
      have hsign : ∃ t : Token, signs = [t] ∧ sign? t.kind = some () := by
        rcases hk with ⟨t, rfl, ht⟩ | ⟨t, rfl, ht⟩
        · exact ⟨t, rfl, by rw [ht]; rfl⟩
        · exact ⟨t, rfl, by rw [ht]; rfl⟩
      obtain ⟨t, rfl, ht⟩ := hsign
      refine ⟨startsAs_cons (by simp [Kind.opensExpression, ht]), fun n rest hrest => ?_⟩
      cases n with
      | zero => exact accepts_outOfFuel
      | succ n =>
        simp only [Rule.unary, List.cons_append, List.nil_append]
        exact accepts_acceptBy ht ((hx n rest hrest).last fun _ _ => passes_pure)
    · obtain ⟨_, us, _, ps, rfl, rfl, hk, -, htarget⟩ := says_append.1 h
      obtain ⟨⟨t, op, rfl, ht⟩, rfl⟩ := says_step hk
      obtain ⟨ho, htarget⟩ := accepts_target htarget
      refine ⟨startsAs_cons (by simp [Kind.opensExpression, ht]), fun n rest hrest => ?_⟩
      cases n with
      | zero => exact accepts_outOfFuel
      | succ n =>
        simp only [Rule.unary, List.cons_append, List.nil_append]
        refine accepts_acceptBy_other (Phrase.sign?_of_step? ht) (accepts_acceptBy ht ?_)
        have hx := accepts_unary (ho.append rest) hrest (htarget (hrest.mono (by decide))) n
        exact hx.last fun x hx => accepts_update hx
  · exact h

theorem taken_stepped (h : Symbol.stepped.rule.Says Taken ts rs) : Taken .stepped ts rs := by
  rcases says_or.1 h with h | h
  · exact taken_unary_of_call h
  · obtain ⟨us, _, ps, _, rfl, rfl, ⟨-, htarget⟩, hk⟩ := says_append.1 h
    obtain ⟨⟨t, op, rfl, ht⟩, rfl⟩ := says_step hk
    obtain ⟨ho, htarget⟩ := accepts_target htarget
    refine ⟨(ho.mono fun _ => opensExpression_of_primary).append _, fun n rest _ => ?_⟩
    have hstop : Stops 9 (t :: rest) := stops_cons (by rw [strength_of_step? ht]; decide)
    obtain ⟨u, us, rfl, hu⟩ := ho
    obtain ⟨hu₁, hu₂⟩ := Phrase.no_operator_of_opensPrimary hu
    cases n with
    | zero => exact accepts_outOfFuel
    | succ n =>
      simp only [Rule.unary, List.append_assoc, List.cons_append, List.nil_append, List.append_nil]
      refine accepts_acceptBy_other hu₁ (accepts_acceptBy_other hu₂ ?_)
      exact (htarget hstop n).last fun x hx => accepts_acceptBy ht (accepts_update hx)

theorem taken_arguments (h : Symbol.arguments.rule.Says Taken ts rs) : Taken .arguments ts rs := by
  obtain ⟨us, vs, ps, qs, rfl, rfl, hx, hentries⟩ := says_append.1 h
  refine ⟨hx.1.append vs, fun n rest hrest => ?_⟩
  obtain ⟨t, us, rfl, -⟩ := hx.1
  have hentry : ∀ {ts rs}, Taken .expression ts rs → (∃ t us, ts = t :: us) ∧ ∀ n rest,
      headKind rest = .mark .comma ∨ headKind rest = .mark .rightParen → (expression n).Passes (ts ++ rest) rest rs := by
    rintro ts rs ⟨⟨t, us, rfl, -⟩, h⟩
    refine ⟨⟨t, us, rfl⟩, fun n rest hrest => h n rest ?_⟩
    rcases hrest with hrest | hrest
    · exact stops_of_kind hrest rfl (by decide)
    · exact stops_of_kind hrest rfl (by decide)
  have hlist : (argumentList n 0).Passes (t :: us ++ (vs ++ rest)) rest (ps ++ qs) :=
    accepts_list (B := Taken .expression) isList_argumentList says_mark_append hentry hentries rfl hx hrest
  rw [List.append_assoc]
  exact hlist

/-- A keyword or literal that is an expression of its own. -/
theorem taken_constant {v : Literal} (hk : constant? t.kind = some v) : Taken .primary [t] [] := by
  refine ⟨startsAs_cons (Phrase.opensPrimary_of_constant? hk), fun n rest _ => ?_⟩
  cases n with
  | zero => exact accepts_outOfFuel
  | succ n =>
    simp only [Rule.primary, List.cons_append, List.nil_append]
    refine accepts_peek ?_
    rw [List.headD_cons]
    unfold constant? at hk
    split at hk
    case h_6 => cases hk
    all_goals
      next ht =>
      rw [ht]
      exact accepts_advance passes_pure

theorem taken_primary (h : Symbol.primary.rule.Says Taken ts rs) : Taken .primary ts rs := by
  simp only [Symbol.rule, says_or] at h
  rcases h with (((((((h | h) | h) | h) | h) | h) | h) | h) | h
  · obtain ⟨⟨t, rfl, ht⟩, rfl⟩ := h
    cases hk : t.kind <;> rw [hk] at ht <;> cases ht
    exact taken_constant (v := .number _) (by rw [hk]; rfl)
  · obtain ⟨⟨t, rfl, ht⟩, rfl⟩ := h
    cases hk : t.kind <;> rw [hk] at ht <;> cases ht
    exact taken_constant (v := .string _) (by rw [hk]; rfl)
  · obtain ⟨⟨t, rfl, ht⟩, rfl⟩ := says_word.1 h
    exact taken_constant (v := .bool true) (by rw [ht]; rfl)
  · obtain ⟨⟨t, rfl, ht⟩, rfl⟩ := says_word.1 h
    exact taken_constant (v := .bool false) (by rw [ht]; rfl)
  · obtain ⟨⟨t, rfl, ht⟩, rfl⟩ := says_word.1 h
    exact taken_constant (v := .nil) (by rw [ht]; rfl)
  · obtain ⟨⟨t, rfl, ht⟩, rfl⟩ := says_word.1 h
    refine ⟨startsAs_cons (by rw [ht]; rfl), fun n rest _ => ?_⟩
    cases n with
    | zero => exact accepts_outOfFuel
    | succ n =>
      simp only [Rule.primary, List.cons_append, List.nil_append]
      refine accepts_peek ?_
      rw [List.headD_cons, ht]
      exact accepts_advance (accepts_label fun _ => passes_pure)
  · obtain ⟨⟨t, rfl, ht⟩, rfl⟩ := says_ident.1 h
    refine ⟨startsAs_cons (by rw [ht]; rfl), fun n rest _ => ?_⟩
    cases n with
    | zero => exact accepts_outOfFuel
    | succ n =>
      simp only [Rule.primary, List.cons_append, List.nil_append]
      refine accepts_peek ?_
      rw [List.headD_cons, ht]
      exact accepts_advance (accepts_label fun _ => passes_pure)
  · obtain ⟨_, close, rfl, h, hc⟩ := says_append_mark h
    obtain ⟨t, us, rfl, ht, ⟨-, hx⟩⟩ := says_mark_append h
    refine ⟨startsAs_cons (by rw [ht]; rfl), fun n rest _ => ?_⟩
    cases n with
    | zero => exact accepts_outOfFuel
    | succ n =>
      simp only [Rule.primary, List.append_assoc, List.cons_append, List.nil_append]
      refine accepts_peek ?_
      rw [List.headD_cons, ht]
      have hstop : Stops 1 (close :: rest) := stops_cons_of_kind hc rfl (by decide)
      exact accepts_advance ((hx n _ hstop).last fun _ _ => accepts_expect hc passes_pure)
  · obtain ⟨_, name, rfl, h, hn⟩ := says_append_ident h
    obtain ⟨_, dot, rfl, h, hd⟩ := says_append_mark h
    obtain ⟨⟨t, rfl, ht⟩, rfl⟩ := says_word.1 h
    refine ⟨startsAs_cons (by rw [ht]; rfl), fun n rest _ => ?_⟩
    cases n with
    | zero => exact accepts_outOfFuel
    | succ n =>
      simp only [Rule.primary, List.cons_append, List.nil_append]
      refine accepts_peek ?_
      rw [List.headD_cons, ht]
      exact accepts_advance (accepts_expect hd (accepts_expect hn (accepts_label fun _ => passes_pure)))

end ScriptLang
