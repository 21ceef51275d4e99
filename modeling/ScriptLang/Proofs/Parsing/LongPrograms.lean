import ScriptLang.Proofs.Parsing.LongLists
import ScriptLang.Proofs.Parsing.Sugar

/-!
# Programs with lists of any length

The rules of the grammar keep what is `Taken` (`taken_of_rule`).  So parsing a program that is valid but for the length
of its lists reports the entries for which there is no room, every one of them, and nothing else
(`parse_reports_excess`).
-/

namespace ScriptLang

open Ebnf Rule

variable {ts us rest rest' : List Token} {rs ss : List (Report SyntaxFault)}

/-! ## simple statements -/

theorem taken_varDecl (h : Symbol.varDecl.rule.Says Taken ts rs) : Taken .varDecl ts rs := by
  obtain ⟨_, semi, rfl, h, hs⟩ := says_append_mark h
  obtain ⟨_, vs, _, ps, rfl, rfl, h, he⟩ := says_append.1 h
  obtain ⟨_, name, rfl, h, hn⟩ := says_append_ident h
  obtain ⟨⟨k, rfl, hk⟩, rfl⟩ := says_word.1 h
  refine ⟨k, name :: vs ++ [semi], by simp, hk, fun n rest _ => ?_⟩
  simp only [Rule.varDeclaration, List.append_assoc, List.cons_append, List.nil_append]
  rcases he with ⟨rfl, rfl⟩ | he
  · refine accepts_expect hn (accepts_accept_other (by rw [List.nil_append, headKind_cons, hs]; simp) ?_)
    exact accepts_expect hs passes_pure
  · obtain ⟨t, us, rfl, ht, ⟨-, hx⟩⟩ := says_mark_append he
    refine accepts_expect hn (accepts_accept ht ?_)
    exact (hx n _ (stops_cons_of_kind hs rfl (by decide))).last fun _ _ => accepts_expect hs passes_pure

theorem taken_exprStmt (h : Symbol.exprStmt.rule.Says Taken ts rs) : Taken .exprStmt ts rs := by
  obtain ⟨us, semi, rfl, ⟨ho, hx⟩, hs⟩ := says_append_mark h
  refine ⟨ho.append _, fun n rest _ => ?_⟩
  simp only [Rule.expressionStatement, List.append_assoc, List.cons_append, List.nil_append]
  exact (hx n _ (stops_cons_of_kind hs rfl (by decide))).last fun _ _ => accepts_expect hs passes_pure

/-- A statement without an open conditional. -/
theorem takesStatement_of_takes (h : Takes statement (fun _ => True) ts rs) : TakesStatement ts rs := by
  refine ⟨0, fun {rest rest' ss} hrest n => ?_⟩
  cases hrest
  rw [List.append_nil]
  exact h n rest trivial

theorem taken_printStmt (h : Symbol.printStmt.rule.Says Taken ts rs) : Taken .printStmt ts rs := by
  obtain ⟨_, semi, rfl, h, hs⟩ := says_append_mark h
  obtain ⟨k, us, rfl, hk, ⟨-, hx⟩⟩ := says_word_append h
  refine ⟨startsAs_cons (by rw [hk]; rfl), takesStatement_of_takes fun n rest _ => ?_⟩
  cases n with
  | zero => exact accepts_outOfFuel
  | succ n =>
    simp only [Rule.statement, List.append_assoc, List.cons_append, List.nil_append]
    refine accepts_peek ?_
    rw [List.headD_cons, hk]
    refine accepts_advance ?_
    unfold Rule.printStatement
    exact (hx n _ (stops_cons_of_kind hs rfl (by decide))).last fun _ _ => accepts_expect hs passes_pure

theorem taken_returnStmt (h : Symbol.returnStmt.rule.Says Taken ts rs) : Taken .returnStmt ts rs := by
  obtain ⟨_, semi, rfl, h, hs⟩ := says_append_mark h
  obtain ⟨k, us, rfl, hk, hx⟩ := says_word_append h
  refine ⟨startsAs_cons (by rw [hk]; rfl), takesStatement_of_takes fun n rest _ => ?_⟩
  cases n with
  | zero => exact accepts_outOfFuel
  | succ n =>
    simp only [Rule.statement, List.append_assoc, List.cons_append, List.nil_append]
    refine accepts_peek ?_
    rw [List.headD_cons, hk]
    refine accepts_advance ?_
    unfold Rule.returnStatement
    rcases hx with ⟨rfl, rfl⟩ | ⟨⟨u, us, rfl, hu⟩, hx⟩
    · exact accepts_nextIs hs (accepts_expect hs passes_pure)
    · refine accepts_nextIs_other (Phrase.opensExpression_ne hu rfl) ?_
      exact (hx n _ (stops_cons_of_kind hs rfl (by decide))).last fun _ _ => accepts_expect hs passes_pure

/-- A loop is left or gone on with by a keyword and a semicolon. -/
theorem taken_jump {kw : Keyword} (hkw : kw = .kwBreak ∨ kw = .kwContinue)
    (h : (word kw ++ mark .semicolon).Says Taken ts rs) : Taken .breakStmt ts rs := by
  obtain ⟨k, _, rfl, hk, h⟩ := says_word_append h
  obtain ⟨⟨semi, rfl, hs⟩, rfl⟩ := says_mark.1 h
  refine ⟨startsAs_cons ?_, takesStatement_of_takes fun n rest _ => ?_⟩
  · rcases hkw with rfl | rfl <;> rw [hk] <;> rfl
  · cases n with
    | zero => exact accepts_outOfFuel
    | succ n =>
      simp only [Rule.statement, List.cons_append, List.nil_append]
      refine accepts_peek ?_
      rw [List.headD_cons, hk]
      rcases hkw with rfl | rfl
      · exact accepts_advance (accepts_expect hs passes_pure)
      · exact accepts_advance (accepts_expect hs passes_pure)

/-! ## conditionals and loops -/

/-- What does not begin with an `else` is left to others. -/
theorem elses_of_ne (h : headKind rest ≠ .keyword .kwElse) (d : Nat) : Elses d rest rest [] := by
  induction d with
  | zero => exact .done
  | succ d ih => exact .skip h ih

/-- Some open conditionals take their branches before the others. -/
theorem Elses.split {d e : Nat} (h : Elses (d + e) rest rest' rs) :
    ∃ mid ps qs, Elses d rest mid ps ∧ Elses e mid rest' qs ∧ rs = ps ++ qs := by
  induction d generalizing rest rs with
  | zero =>
    rw [Nat.zero_add] at h
    exact ⟨rest, [], rs, .done, h, rfl⟩
  | succ d ih =>
    rw [Nat.succ_add] at h
    cases h with
    | skip hne h =>
      obtain ⟨mid, ps, qs, h₁, h₂, rfl⟩ := ih h
      exact ⟨mid, ps, qs, .skip hne h₁, h₂, rfl⟩
    | take ht hs h =>
      obtain ⟨mid, ps, qs, h₁, h₂, rfl⟩ := ih h
      exact ⟨mid, _ ++ ps, qs, .take ht hs h₁, h₂, (List.append_assoc _ _ _).symm⟩

/-- A condition in parentheses and a statement behind a keyword. -/
theorem says_condition {kw : Keyword}
    (h : (word kw ++ mark .leftParen ++ symbol .expression ++ mark .rightParen ++ symbol .statement).Says Taken ts rs) :
    ∃ k t₁ us t₂ vs ps qs, ts = k :: t₁ :: us ++ t₂ :: vs ∧ rs = ps ++ qs ∧ k.kind = .keyword kw ∧
      t₁.kind = .mark .leftParen ∧ Takes expression (Stops 1) us ps ∧ t₂.kind = .mark .rightParen ∧
      TakesStatement vs qs := by
  obtain ⟨_, vs, ps, qs, rfl, rfl, h, ⟨-, hs⟩⟩ := says_append.1 h
  obtain ⟨_, t₂, rfl, h, h₂⟩ := says_append_mark h
  obtain ⟨_, us, _, ps, rfl, rfl, h, ⟨-, hc⟩⟩ := says_append.1 h
  obtain ⟨_, t₁, rfl, h, h₁⟩ := says_append_mark h
  obtain ⟨⟨k, rfl, hk⟩, rfl⟩ := says_word.1 h
  exact ⟨k, t₁, us, t₂, vs, ps, qs, by simp, rfl, hk, h₁, hc, h₂, hs⟩

theorem taken_whileStmt (h : Symbol.whileStmt.rule.Says Taken ts rs) : Taken .whileStmt ts rs := by
  obtain ⟨k, t₁, us, t₂, vs, ps, qs, rfl, rfl, hk, h₁, hc, h₂, d, hs⟩ := says_condition h
  refine ⟨startsAs_cons (by rw [hk]; rfl), d, fun {rest rest' ss} hrest n => ?_⟩
  cases n with
  | zero => exact accepts_outOfFuel
  | succ n =>
    simp only [Rule.statement, List.append_assoc, List.cons_append]
    refine accepts_peek ?_
    rw [List.headD_cons, hk]
    refine accepts_advance ?_
    unfold Rule.whileStatement
    refine accepts_expect h₁ ((hc n _ (stops_cons_of_kind h₂ rfl (by decide))).bind fun _ _ => accepts_expect h₂ ?_)
    exact (hs hrest n).last fun _ _ => passes_pure

section Branches

variable {k t₁ t₂ : Token} {vs : List Token} {ps qs : List (Report SyntaxFault)} {d : Nat}

/-- A conditional is one more that is open behind those of its branch. -/
theorem passes_ifStatement (hk : k.kind = .keyword .kwIf) (h₁ : t₁.kind = .mark .leftParen)
    (hc : Takes expression (Stops 1) us ps) (h₂ : t₂.kind = .mark .rightParen)
    (hs : ∀ {rest rest' ss}, Elses d rest rest' ss → ∀ n, (statement n).Passes (vs ++ rest) rest' (qs ++ ss))
    (hrest : Elses (d + 1) rest rest' ss) (n : Nat) :
    (statement n).Passes (k :: t₁ :: us ++ t₂ :: (vs ++ rest)) rest' (ps ++ (qs ++ ss)) := by
  obtain ⟨mid, rs, ss, hinner, hlast, rfl⟩ := hrest.split
  cases n with
  | zero => exact accepts_outOfFuel
  | succ n =>
    simp only [Rule.statement, List.cons_append]
    refine accepts_peek ?_
    rw [List.headD_cons, hk]
    refine accepts_advance ?_
    unfold Rule.ifStatement
    refine accepts_expect h₁ ((hc n _ (stops_cons_of_kind h₂ rfl (by decide))).bind fun _ _ => accepts_expect h₂ ?_)
    rw [← List.append_assoc]
    refine (hs hinner n).bind fun _ _ => ?_
    cases hlast with
    | skip hne hlast =>
      cases hlast
      exact accepts_accept_other hne passes_pure
    | take ht hbranch hlast =>
      cases hlast
      rw [List.append_nil]
      exact accepts_accept ht ((hbranch n).last fun _ _ => passes_pure)

theorem taken_ifStmt (h : Symbol.ifStmt.rule.Says Taken ts rs) : Taken .ifStmt ts rs := by
  obtain ⟨_, ws, _, es, rfl, rfl, h, he⟩ := says_append.1 h
  obtain ⟨k, t₁, us, t₂, vs, ps, qs, rfl, rfl, hk, h₁, hc, h₂, d, hs⟩ := says_condition h
  refine ⟨startsAs_cons (by rw [hk]; rfl), ?_⟩
  rcases he with ⟨rfl, rfl⟩ | he
  · refine ⟨d + 1, fun {rest rest' ss} hrest n => ?_⟩
    have hif := passes_ifStatement hk h₁ hc h₂ hs hrest n
    simpa only [List.append_assoc, List.cons_append, List.append_nil] using hif
  · obtain ⟨t₃, ws, rfl, h₃, ⟨-, e, he⟩⟩ := says_word_append he
    -- the innermost of the open conditionals takes the branch, and those in it stay open before the others
    refine ⟨e + d, fun {rest rest' ss} hrest n => ?_⟩
    obtain ⟨mid, rs, ss, hbranch, houter, rfl⟩ := hrest.split
    have helse : Elses (d + 1) (t₃ :: (ws ++ rest)) rest' (es ++ rs ++ ss) := .take h₃ (he hbranch) houter
    have hif := passes_ifStatement hk h₁ hc h₂ hs helse n
    simpa only [List.append_assoc, List.cons_append] using hif

end Branches

theorem takes_forInitializer (h : (symbol .varDecl ||| symbol .exprStmt ||| mark .semicolon).Says Taken ts rs) :
    Takes (fun n => forInitializer (expression n)) (fun _ => True) ts rs := by
  intro n rest _
  simp only [Rule.forInitializer]
  rcases says_or.1 h with h | h
  · rcases says_or.1 h with ⟨k, us, rfl, hk, hv⟩ | ⟨⟨t, us, rfl, ht⟩, hx⟩
    · refine accepts_accept_other (by rw [List.cons_append, headKind_cons, hk]; simp) ?_
      exact accepts_accept hk ((hv n rest trivial).last fun _ _ => passes_pure)
    · refine accepts_accept_other (Phrase.opensExpression_ne ht rfl) ?_
      refine accepts_accept_other (Phrase.opensExpression_ne ht rfl) ?_
      exact (hx n rest trivial).last fun _ _ => passes_pure
  · obtain ⟨⟨semi, rfl, hs⟩, rfl⟩ := says_mark.1 h
    exact accepts_accept hs passes_pure

theorem takes_forCondition (h : (opt (symbol .expression)).Says Taken ts rs) :
    Takes (fun n => forCondition (expression n)) (headKind · = .mark .semicolon) ts rs := by
  intro n rest hrest
  simp only [Rule.forCondition]
  rcases h with ⟨rfl, rfl⟩ | ⟨⟨t, us, rfl, ht⟩, hx⟩
  · exact accepts_nextIs hrest passes_pure
  · refine accepts_nextIs_other (Phrase.opensExpression_ne ht rfl) ?_
    exact hx n rest (stops_of_kind hrest rfl (by decide))

theorem takes_forIncrement (h : (opt (symbol .expression)).Says Taken ts rs) :
    Takes (fun n => forIncrement (expression n)) (headKind · = .mark .rightParen) ts rs := by
  intro n rest hrest
  simp only [Rule.forIncrement]
  rcases h with ⟨rfl, rfl⟩ | ⟨⟨t, us, rfl, ht⟩, hx⟩
  · exact accepts_nextIs hrest passes_pure
  · refine accepts_nextIs_other (Phrase.opensExpression_ne ht rfl) ?_
    exact (hx n rest (stops_of_kind hrest rfl (by decide))).last fun _ _ => passes_pure

theorem taken_forStmt (h : Symbol.forStmt.rule.Says Taken ts rs) : Taken .forStmt ts rs := by
  obtain ⟨_, ts₄, _, ps₄, rfl, rfl, h, ⟨-, d, hs⟩⟩ := says_append.1 h
  obtain ⟨_, t₃, rfl, h, h₃⟩ := says_append_mark h
  obtain ⟨_, ts₃, _, ps₃, rfl, rfl, h, hi⟩ := says_append.1 h
  obtain ⟨_, t₂, rfl, h, h₂⟩ := says_append_mark h
  obtain ⟨_, ts₂, _, ps₂, rfl, rfl, h, hc⟩ := says_append.1 h
  obtain ⟨_, ts₁, _, ps₁, rfl, rfl, h, hf⟩ := says_append.1 h
  obtain ⟨_, t₁, rfl, h, h₁⟩ := says_append_mark h
  obtain ⟨⟨k, rfl, hk⟩, rfl⟩ := says_word.1 h
  refine ⟨startsAs_cons (by rw [hk]; rfl), d, fun {rest rest' ss} hrest n => ?_⟩
  cases n with
  | zero => exact accepts_outOfFuel
  | succ n =>
    simp only [Rule.statement, List.append_assoc, List.cons_append, List.nil_append]
    refine accepts_peek ?_
    rw [List.headD_cons, hk]
    refine accepts_advance ?_
    unfold Rule.forStatement
    refine accepts_expect h₁ ((takes_forInitializer hf n _ trivial).bind fun first _ => ?_)
    have hsemicolon : headKind (t₂ :: (ts₃ ++ t₃ :: (ts₄ ++ rest))) = .mark .semicolon := h₂
    refine (takes_forCondition hc n _ hsemicolon).bind fun _ _ => accepts_expect h₂ ?_
    have hparen : headKind (t₃ :: (ts₄ ++ rest)) = .mark .rightParen := h₃
    refine (takes_forIncrement hi n _ hparen).bind fun _ _ => accepts_expect h₃ ?_
    refine (hs hrest n).last fun _ _ => ?_
    cases first with
    | some s => exact passes_pure
    | none => exact passes_pure

/-! ## declarations -/

/-- What stands behind a declaration is no `else`. -/
theorem row_ne_else {inBraces : Bool} (h : Row ((symbol .declaration).Says Taken) ts rs) (hrest : AtEnd inBraces rest) :
    headKind (ts ++ rest) ≠ .keyword .kwElse := by
  cases h with
  | nil =>
    rcases hrest with hrest | ⟨-, hrest⟩
    · rw [List.nil_append, hrest]
      simp
    · rw [List.nil_append, hrest]
      simp
  | cons h _ =>
    obtain ⟨⟨t, us, rfl, ht⟩, -⟩ := h
    intro hk
    rw [List.cons_append, List.cons_append, headKind_cons] at hk
    rw [hk] at ht
    cases ht

theorem takes_declarations (h : Row ((symbol .declaration).Says Taken) ts rs) (inBraces : Bool) :
    Takes (declarations · inBraces) (AtEnd inBraces) ts rs := by
  induction h with
  | nil =>
    intro n rest hrest
    cases n with
    | zero => exact accepts_outOfFuel
    | succ n =>
      simp only [Rule.declarations]
      refine accepts_peek ?_
      rw [if_pos ?_]
      · exact passes_pure
      · show (headKind rest = .eof || (inBraces && headKind rest = .mark .rightBrace)) = true
        rcases hrest with hrest | ⟨rfl, hrest⟩ <;> simp [hrest]
  | cons hs hbody ih =>
    intro n rest hrest
    cases n with
    | zero => exact accepts_outOfFuel
    | succ n =>
      obtain ⟨⟨t, us, rfl, ht⟩, hs⟩ := hs
      simp only [Rule.declarations, List.append_assoc]
      refine accepts_peek ?_
      rw [if_neg ?_]
      · refine (hs n _ (row_ne_else hbody hrest)).bind fun _ _ => ?_
        exact (ih n rest hrest).last fun _ _ => passes_pure
      · rw [List.cons_append, List.headD_cons]
        intro hk
        simp only [Bool.or_eq_true, Bool.and_eq_true, decide_eq_true_eq] at hk
        rcases hk with hk | ⟨-, hk⟩ <;> rw [hk] at ht <;> cases ht

theorem taken_block (h : Symbol.block.rule.Says Taken ts rs) : Taken .block ts rs := by
  obtain ⟨_, close, rfl, h, hc⟩ := says_append_mark h
  obtain ⟨t, us, rfl, ht, hbody⟩ := says_mark_append h
  exact ⟨t, us, close, rfl, ht, hc, takes_declarations hbody true⟩

theorem taken_statement_of_block (h : Taken .block ts rs) : Taken .statement ts rs := by
  obtain ⟨t, us, close, rfl, ht, hc, hbody⟩ := h
  refine ⟨startsAs_cons (by rw [ht]; rfl), takesStatement_of_takes fun n rest _ => ?_⟩
  cases n with
  | zero => exact accepts_outOfFuel
  | succ n =>
    simp only [Rule.statement, List.append_assoc, List.cons_append, List.nil_append]
    refine accepts_peek ?_
    rw [List.headD_cons, ht]
    have hclose : AtEnd true (close :: rest) := .inr ⟨rfl, hc⟩
    exact accepts_advance ((hbody n _ hclose).last fun _ _ => accepts_expect hc passes_pure)

theorem taken_statement_of_exprStmt (h : Taken .exprStmt ts rs) : Taken .statement ts rs := by
  obtain ⟨⟨t, us, rfl, ht⟩, hx⟩ := h
  refine ⟨startsAs_cons (opensStatement_of_expression ht), takesStatement_of_takes fun n rest _ => ?_⟩
  cases n with
  | zero => exact accepts_outOfFuel
  | succ n =>
    simp only [Rule.statement, List.cons_append]
    refine accepts_peek ?_
    rw [List.headD_cons]
    split
    case h_9 => exact hx n rest trivial
    all_goals
      next hk =>
      rw [hk] at ht
      cases ht

theorem taken_statement (h : Symbol.statement.rule.Says Taken ts rs) : Taken .statement ts rs := by
  simp only [Symbol.rule, says_or] at h
  rcases h with (((((((h | h) | h) | h) | h) | h) | h) | h) | h
  · exact taken_statement_of_exprStmt h
  · exact h
  · exact h
  · exact h
  · exact h
  · exact h
  · exact h
  · exact h
  · exact taken_statement_of_block h

theorem taken_parameters (h : Symbol.parameters.rule.Says Taken ts rs) : Taken .parameters ts rs := by
  obtain ⟨us, vs, ps, qs, rfl, rfl, hname, hentries⟩ := says_append.1 h
  obtain ⟨⟨name, rfl, hn⟩, -⟩ := says_ident.1 hname
  refine ⟨startsAs_cons (by simp [hn]), fun n rest hrest => ?_⟩
  have hentry : ∀ {ts rs}, ident.Says Taken ts rs → (∃ t us, ts = t :: us) ∧ ∀ (_ : Nat) rest,
      headKind rest = .mark .comma ∨ headKind rest = .mark .rightParen →
        (expect .identifier .parameterName).Passes (ts ++ rest) rest rs := by
    intro ts rs h
    obtain ⟨⟨t, rfl, ht⟩, rfl⟩ := says_ident.1 h
    refine ⟨⟨t, [], rfl⟩, fun _ rest _ => ?_⟩
    have hpure : (pure t : Rule Token).Passes rest rest [] := passes_pure
    rw [← bind_pure (expect _ _)]
    exact accepts_expect ht hpure
  have hlist : (parameterNames n 0).Passes (name :: [] ++ (vs ++ rest)) rest (ps ++ qs) :=
    accepts_list (B := ident.Says Taken) isList_parameterNames says_mark_append hentry hentries rfl hname hrest
  exact hlist

theorem taken_function (h : Symbol.function.rule.Says Taken ts rs) : Taken .function ts rs := by
  obtain ⟨_, vs, _, qs, rfl, rfl, h, hblock⟩ := says_append.1 h
  obtain ⟨_, t₂, rfl, h, h₂⟩ := says_append_mark h
  obtain ⟨_, ts, _, ps, rfl, rfl, h, hp⟩ := says_append.1 h
  obtain ⟨_, t₁, rfl, h, h₁⟩ := says_append_mark h
  obtain ⟨⟨name, rfl, hn⟩, rfl⟩ := says_ident.1 h
  obtain ⟨t₃, us, t₄, rfl, h₃, h₄, hbody⟩ := hblock
  refine ⟨startsAs_cons (by simp [hn]), fun kind n rest _ => ?_⟩
  cases n with
  | zero => exact accepts_outOfFuel
  | succ n =>
    have hparams : ∀ rest, headKind rest = .mark .rightParen →
        (do if ← nextIs (.mark .rightParen) then pure [] else Rule.parameterNames n 0 : Rule (List Token)).Passes
          (ts ++ rest) rest ps := by
      intro rest hrest
      rcases hp with ⟨rfl, rfl⟩ | ⟨⟨u, us, rfl, hu⟩, hp⟩
      · exact accepts_nextIs hrest passes_pure
      · refine accepts_nextIs_other ?_ (hp n rest hrest)
        rw [List.cons_append, headKind_cons, of_decide_eq_true hu]
        simp
    simp only [Rule.function, List.append_assoc, List.cons_append, List.nil_append]
    refine accepts_expect hn (accepts_expect h₁ ?_)
    refine (hparams (t₂ :: t₃ :: (us ++ t₄ :: rest)) h₂).bind fun _ _ => accepts_expect h₂ (accepts_expect h₃ ?_)
    have hclose : AtEnd true (t₄ :: rest) := .inr ⟨rfl, h₄⟩
    exact (hbody n _ hclose).last fun _ _ => accepts_expect h₄ passes_pure

theorem takes_methods (h : Row ((symbol .function).Says Taken) ts rs) :
    Takes methods (headKind · = .mark .rightBrace) ts rs := by
  induction h with
  | nil =>
    intro n rest hrest
    cases n with
    | zero => exact accepts_outOfFuel
    | succ n =>
      simp only [Rule.methods]
      refine accepts_peek ?_
      rw [if_pos ?_]
      · exact passes_pure
      · show (headKind rest = .eof || headKind rest = .mark .rightBrace) = true
        simp [hrest]
  | cons hd _ ih =>
    intro n rest hrest
    cases n with
    | zero => exact accepts_outOfFuel
    | succ n =>
      obtain ⟨⟨t, us, rfl, ht⟩, hd⟩ := hd
      simp only [Rule.methods, List.append_assoc]
      refine accepts_peek ?_
      rw [if_neg ?_]
      · exact (hd _ n _ trivial).bind fun _ _ => (ih n rest hrest).last fun _ _ => passes_pure
      · rw [List.cons_append, List.headD_cons, of_decide_eq_true ht]
        simp

theorem passes_superclass (h : (opt (mark .less ++ ident)).Says Taken ts rs) (hrest : headKind rest = .mark .leftBrace) :
    superclass.Passes (ts ++ rest) rest rs := by
  unfold Rule.superclass
  rcases h with ⟨rfl, rfl⟩ | h
  · exact accepts_accept_other (by rw [List.nil_append, hrest]; simp) passes_pure
  · obtain ⟨t, _, rfl, ht, hident⟩ := says_mark_append h
    obtain ⟨⟨name, rfl, hn⟩, rfl⟩ := says_ident.1 hident
    exact accepts_accept ht (accepts_expect hn (accepts_label fun _ => passes_pure))

theorem taken_classDecl (h : Symbol.classDecl.rule.Says Taken ts rs) : Taken .classDecl ts rs := by
  obtain ⟨_, t₂, rfl, h, h₂⟩ := says_append_mark h
  obtain ⟨_, ts₂, _, qs, rfl, rfl, h, hms⟩ := says_append.1 h
  obtain ⟨_, t₁, rfl, h, h₁⟩ := says_append_mark h
  obtain ⟨_, ts₁, _, ps, rfl, rfl, h, hs⟩ := says_append.1 h
  obtain ⟨_, name, rfl, h, hn⟩ := says_append_ident h
  obtain ⟨⟨k, rfl, hk⟩, rfl⟩ := says_word.1 h
  refine ⟨startsAs_cons (by rw [hk]; rfl), fun n rest _ => ?_⟩
  cases n with
  | zero => exact accepts_outOfFuel
  | succ n =>
    simp only [Rule.declaration, List.append_assoc, List.cons_append, List.nil_append]
    refine Accepts.recover (P := fun _ => True) (accepts_peek ?_)
    rw [List.headD_cons, hk]
    refine accepts_advance ?_
    unfold Rule.classDeclaration
    have hbrace : headKind (t₁ :: (ts₂ ++ t₂ :: rest)) = .mark .leftBrace := h₁
    refine accepts_expect hn ((passes_superclass hs hbrace).bind fun _ _ => accepts_expect h₁ ?_)
    have hclose : headKind (t₂ :: rest) = .mark .rightBrace := h₂
    exact (takes_methods hms n _ hclose).last fun _ _ => accepts_expect h₂ passes_pure

theorem taken_funDecl (h : Symbol.funDecl.rule.Says Taken ts rs) : Taken .funDecl ts rs := by
  obtain ⟨k, us, rfl, hk, ⟨-, hd⟩⟩ := says_word_append h
  refine ⟨startsAs_cons (by rw [hk]; rfl), fun n rest _ => ?_⟩
  cases n with
  | zero => exact accepts_outOfFuel
  | succ n =>
    simp only [Rule.declaration, List.cons_append]
    refine Accepts.recover (P := fun _ => True) (accepts_peek ?_)
    rw [List.headD_cons, hk]
    exact accepts_advance ((hd _ n rest trivial).last fun _ _ => passes_pure)

theorem taken_declaration_of_varDecl (h : Taken .varDecl ts rs) : Taken .declaration ts rs := by
  obtain ⟨k, us, rfl, hk, hv⟩ := h
  refine ⟨startsAs_cons (by rw [hk]; rfl), fun n rest _ => ?_⟩
  cases n with
  | zero => exact accepts_outOfFuel
  | succ n =>
    simp only [Rule.declaration, List.cons_append]
    refine Accepts.recover (P := fun _ => True) (accepts_peek ?_)
    rw [List.headD_cons, hk]
    exact accepts_advance (hv n rest trivial)

theorem taken_declaration_of_statement (h : Taken .statement ts rs) : Taken .declaration ts rs := by
  obtain ⟨⟨t, us, rfl, ht⟩, d, hs⟩ := h
  refine ⟨startsAs_cons (opensDeclaration_of_statement ht), fun n rest hrest => ?_⟩
  cases n with
  | zero => exact accepts_outOfFuel
  | succ n =>
    have hs' := hs (elses_of_ne hrest d) n
    rw [List.append_nil] at hs'
    simp only [Rule.declaration]
    refine Accepts.recover (P := fun _ => True) (accepts_peek ?_)
    rw [List.cons_append, List.headD_cons]
    split
    case h_4 => exact hs'
    all_goals
      next hk =>
      rw [hk] at ht
      cases ht

theorem taken_declaration (h : Symbol.declaration.rule.Says Taken ts rs) : Taken .declaration ts rs := by
  simp only [Symbol.rule, says_or] at h
  rcases h with ((h | h) | h) | h
  · exact h
  · exact h
  · exact taken_declaration_of_varDecl h
  · exact taken_declaration_of_statement h

/-- The rules of the grammar keep what is taken. -/
theorem taken_of_rule (s : Symbol) (ts : List Token) (rs : List (Report SyntaxFault)) (h : s.rule.Says Taken ts rs) :
    Taken s ts rs := by
  cases s with
  | program => exact takes_declarations h
  | declaration => exact taken_declaration h
  | classDecl => exact taken_classDecl h
  | funDecl => exact taken_funDecl h
  | function => exact taken_function h
  | parameters => exact taken_parameters h
  | varDecl => exact taken_varDecl h
  | statement => exact taken_statement h
  | exprStmt => exact taken_exprStmt h
  | forStmt => exact taken_forStmt h
  | ifStmt => exact taken_ifStmt h
  | printStmt => exact taken_printStmt h
  | returnStmt => exact taken_returnStmt h
  | whileStmt => exact taken_whileStmt h
  | breakStmt => exact taken_jump (.inl rfl) h
  | continueStmt => exact taken_jump (.inr rfl) h
  | block => exact taken_block h
  | expression => exact h
  | assignment => exact taken_assignment h
  | logicOr => exact taken_binary (l := .disjunction) h
  | logicAnd => exact taken_binary (l := .conjunction) h
  | equality => exact taken_binary (l := .equality) h
  | comparison => exact taken_binary (l := .comparison) h
  | term => exact taken_binary (l := .sum) h
  | factor => exact taken_binary (l := .product) h
  | unary => exact taken_unary h
  | stepped => exact taken_stepped h
  | call => exact taken_call h
  | arguments => exact taken_arguments h
  | primary => exact taken_primary h

/-! ## whole sources -/

/-- The statement `f(1, …, 1);` with 257 arguments and the end of the source. -/
def longerCall : List Token := callTokens 256 ++ [Token.ofMark .semicolon 1] ++ [Token.endOfFile 1]

theorem beforeEnd_longerCall : beforeEnd longerCall = callTokens 256 ++ [Token.ofMark .semicolon 1] := by
  refine beforeEnd_append ?_ rfl
  intro t ht
  simp only [callTokens, List.mem_append, List.mem_singleton] at ht
  rcases ht with (rfl | (rfl | rfl | ht) | rfl) | rfl
  case inl.inr.inl.inr.inr => exact ne_eof_of_mem_entries ht
  all_goals simp [nameToken, oneToken, Token.ofMark]

theorem derivesLong_longerCall : (symbol .program).DerivesLong (beforeEnd longerCall)
    (List.replicate 2 ⟨oneToken, .tooManyArguments⟩) := by
  have hsemicolon : (mark .semicolon).DerivesLong [Token.ofMark .semicolon 1] [] := (derives_mark rfl).long
  have hsimple : (symbol .exprStmt).DerivesLong _ _ := .symbol (.seq (derivesLong_callTokens 2) hsemicolon)
  have hstatement : (symbol .statement).DerivesLong _ _ :=
    .symbol (.first (.first (.first (.first (.first (.first (.first (.first hsimple))))))))
  have hprogram : (symbol .program).DerivesLong _ _ := .symbol (.starMore (.symbol (.second hstatement)) .starEnd)
  rw [beforeEnd_longerCall]
  simpa only [List.append_nil] using hprogram

/-- Parsing reports every entry for which its list has no room, and nothing else about a program that is valid otherwise. -/
theorem parse_reports_excess (fresh : Label) {tokens : List Token}
    (h : (symbol .program).DerivesLong (beforeEnd tokens) rs) :
    ∃ program, (parse fresh tokens).result = if rs = [] then .ok program else .error rs := by
  obtain ⟨rest, htokens, hrest⟩ := exists_eq_beforeEnd_append tokens
  have htaken : Taken .program (beforeEnd tokens) rs := h.says taken_of_rule
  have hpasses : (declarations (fuelFor tokens) false).Passes (beforeEnd tokens ++ rest) rest rs :=
    htaken false (fuelFor tokens) rest (.inl hrest)
  have hruns := declarations_runs_fuelFor tokens fresh
  rw [← htokens] at hpasses
  rcases hpasses fresh with hfuel | ⟨program, hi, hok, -⟩
  · unfold Rule.Runs at hruns
    rw [hfuel] at hruns
    exact hruns.elim
  · refine ⟨program, ?_⟩
    unfold parse
    rw [hok]
    cases rs with
    | nil => rfl
    | cons r rs => rfl

/-- A call with 257 arguments is reported twice. -/
theorem parse_reports_excess_call :
    (symbol .program).DerivesLong (beforeEnd longerCall) (List.replicate 2 ⟨oneToken, .tooManyArguments⟩) ∧
    (parse 0 longerCall).result = .error (List.replicate 2 ⟨oneToken, .tooManyArguments⟩) := by
  refine ⟨derivesLong_longerCall, ?_⟩
  obtain ⟨program, hparse⟩ := parse_reports_excess 0 derivesLong_longerCall
  rwa [if_neg (by simp)] at hparse

end ScriptLang
