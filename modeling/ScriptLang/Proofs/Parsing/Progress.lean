import ScriptLang.Proofs.Parsing.CleanRun

/-!
# Rules go forward and end

* `c.Passes c'` — the cursor `c'` stands behind tokens of `c` of which none ends the source, and its labels are not
  below those of `c`;
* `r.Runs least c` — the rule `r` does not run out of fuel at `c`, ends at a cursor that `c` passes to, and reads at
  least so many tokens when it succeeds.

Rules that call each other without reading have ranks, a caller a larger one than what it calls; fuel of twenty for
every token left and the rank of the rule is enough for it.
-/

namespace ScriptLang

/-- One cursor stands behind another, with no end of the source between them. -/
def Cursor.Passes (c c' : Cursor) : Prop :=
  ∃ read, c.rest = read ++ c'.rest ∧ (∀ t ∈ read, t.kind ≠ .eof) ∧ c.fresh ≤ c'.fresh

namespace Cursor.Passes

theorem refl (c : Cursor) : c.Passes c := ⟨[], rfl, by simp, Nat.le_refl _⟩

theorem trans {a b c : Cursor} (h₁ : a.Passes b) (h₂ : b.Passes c) : a.Passes c := by
  obtain ⟨read₁, e₁, hr₁, hf₁⟩ := h₁
  obtain ⟨read₂, e₂, hr₂, hf₂⟩ := h₂
  refine ⟨read₁ ++ read₂, by rw [e₁, e₂, List.append_assoc], ?_, Nat.le_trans hf₁ hf₂⟩
  intro t ht
  rcases List.mem_append.1 ht with ht | ht
  · exact hr₁ t ht
  · exact hr₂ t ht

/-- Past a token that does not end the source. -/
theorem skip {c : Cursor} (h : c.peek.kind ≠ .eof) : c.Passes c.skip := by
  obtain ⟨ts, lo⟩ := c
  obtain ⟨t, us, rfl, ht⟩ := eq_cons_of_headKind rfl h
  refine ⟨[t], rfl, ?_, Nat.le_refl _⟩
  intro t' ht'
  rw [List.mem_singleton] at ht'
  subst ht'
  exact h

theorem length_le {a b : Cursor} (h : a.Passes b) : b.rest.length ≤ a.rest.length := by
  obtain ⟨read, e, -, -⟩ := h
  rw [e, List.length_append]
  omega

end Cursor.Passes

theorem Cursor.length_skip {c : Cursor} (h : c.peek.kind ≠ .eof) : c.skip.rest.length + 1 = c.rest.length := by
  obtain ⟨ts, lo⟩ := c
  obtain ⟨t, us, rfl, ht⟩ := eq_cons_of_headKind rfl h
  rfl

namespace Level

/-- The rank of the operands of a level; the rank of the level itself is one more. -/
def rank : Level → Nat
  | product => 4
  | sum => 6
  | comparison => 8
  | equality => 10
  | conjunction => 12
  | disjunction => 14

theorem rank_tighter {l inner : Level} (h : l.tighter? = some inner) : inner.rank + 2 = l.rank := by
  cases l <;> cases h <;> rfl

theorem rank_bounds (l : Level) : 4 ≤ l.rank ∧ l.rank ≤ 14 := by
  cases l <;> decide

end Level

namespace Rule

variable {α β : Type} {n : Nat}

/-- The rule ends with an answer, behind where it started, and reads at least so many tokens if it succeeds. -/
def Runs (least : Nat) (r : Rule α) (c : Cursor) : Prop :=
  match r c with
  | .ok _ c' _ => c.Passes c' ∧ c'.rest.length + least ≤ c.rest.length
  | .refused _ c' _ => c.Passes c'
  | .outOfFuel => False

/-! ## the ways to build a rule -/

theorem Runs.mono {least least' : Nat} {r : Rule α} {c : Cursor} (h : r.Runs least c) (hl : least' ≤ least) :
    r.Runs least' c := by
  unfold Runs at *
  split at h
  · exact ⟨h.1, by omega⟩
  · exact h
  · exact h.elim

theorem runs_pure (a : α) (c : Cursor) : (pure a : Rule α).Runs 0 c :=
  ⟨Cursor.Passes.refl c, Nat.le_refl _⟩

/-- What the first rule read need not be read by the second one. -/
theorem Runs.bind {k least : Nat} {r : Rule α} {f : α → Rule β} {c : Cursor} (hr : r.Runs k c)
    (hf : ∀ a c', c.Passes c' → c'.rest.length + k ≤ c.rest.length → (f a).Runs (least - k) c') :
    (r >>= f).Runs least c := by
  show (andThen r f).Runs _ c
  unfold Runs andThen
  unfold Runs at hr
  cases e : r c with
  | ok a m reports =>
    rw [e] at hr
    obtain ⟨hp, hl⟩ := hr
    have h := hf a m hp hl
    unfold Runs at h
    dsimp only
    cases e' : f a m with
    | ok b c' more =>
      rw [e'] at h
      exact ⟨hp.trans h.1, by have := h.2; show c'.rest.length + _ ≤ _; omega⟩
    | refused cause c' more =>
      rw [e'] at h
      exact hp.trans h
    | outOfFuel =>
      rw [e'] at h
      exact h.elim
  | refused cause m reports =>
    rw [e] at hr
    exact hr
  | outOfFuel =>
    rw [e] at hr
    exact hr.elim

theorem runs_refuse (least : Nat) (cause : SyntaxFault) (c : Cursor) : (refuse cause : Rule α).Runs least c :=
  Cursor.Passes.refl c

theorem runs_report (anchor : Token) (cause : SyntaxFault) (c : Cursor) : (report anchor cause).Runs 0 c :=
  ⟨Cursor.Passes.refl c, Nat.le_refl _⟩

theorem runs_label (c : Cursor) : label.Runs 0 c :=
  ⟨⟨[], rfl, by simp, Nat.le_succ _⟩, Nat.le_refl _⟩

/-- What stands at the cursor is known behind `peek`. -/
theorem runs_peek {least : Nat} {f : Token → Rule β} {c : Cursor} (hf : (f c.peek).Runs least c) :
    (peek >>= f).Runs least c := by
  have h : (peek >>= f) c = f c.peek c := by
    show (f c.peek c).after [] = _
    rw [Reply.after_nil]
  unfold Runs
  rw [h]
  exact hf

theorem runs_nextIs (k : Kind) (c : Cursor) : (nextIs k).Runs 0 c :=
  ⟨Cursor.Passes.refl c, Nat.le_refl _⟩

theorem runs_advance {c : Cursor} (h : c.peek.kind ≠ .eof) : advance.Runs 1 c :=
  ⟨Cursor.Passes.skip h, by have := Cursor.length_skip h; omega⟩

theorem runs_expect {k : Kind} (what : Expected) (c : Cursor) (hk : k ≠ .eof) : (expect k what).Runs 1 c := by
  unfold Runs expect
  by_cases h : c.peek.kind = k
  · have hne : c.peek.kind ≠ .eof := by rw [h]; exact hk
    simp only [h, if_true]
    exact ⟨Cursor.Passes.skip hne, by have := Cursor.length_skip hne; omega⟩
  · simp only [h, if_false]
    exact Cursor.Passes.refl c

/-- A rule that is started behind one more token. -/
theorem Runs.behind {least : Nat} {r : Rule α} {c : Cursor} (h : c.peek.kind ≠ .eof)
    (hr : r.Runs (least - 1) c.skip) :
    match r c.skip with
    | .ok _ c' _ => c.Passes c' ∧ c'.rest.length + least ≤ c.rest.length
    | .refused _ c' _ => c.Passes c'
    | .outOfFuel => False := by
  have hp := Cursor.Passes.skip h
  have hl := Cursor.length_skip h
  unfold Runs at hr
  split at hr
  · exact ⟨hp.trans hr.1, by omega⟩
  · exact hp.trans hr
  · exact hr

/-- An accepted token is a token less. -/
theorem runs_accept {least : Nat} {k : Kind} {f : Bool → Rule β} {c : Cursor} (hk : k ≠ .eof)
    (ht : ∀ c', c'.rest.length + 1 = c.rest.length → (f true).Runs (least - 1) c')
    (hf : (f false).Runs least c) : (accept k >>= f).Runs least c := by
  show (andThen (accept k) f).Runs least c
  unfold Runs andThen accept
  by_cases h : c.peek.kind = k
  · have hne : c.peek.kind ≠ .eof := by rw [h]; exact hk
    simp only [h, if_true, Reply.after_nil]
    exact (ht c.skip (Cursor.length_skip hne)).behind hne
  · simp only [h, if_false, Reply.after_nil]
    exact hf

theorem runs_acceptBy {γ : Type} {least : Nat} {f : Option (Token × γ) → Rule β} {c : Cursor}
    (meaning : Kind → Option γ) (hm : meaning .eof = none)
    (ht : ∀ x c', c'.rest.length + 1 = c.rest.length → (f (some x)).Runs (least - 1) c')
    (hf : (f none).Runs least c) : (acceptBy meaning >>= f).Runs least c := by
  show (andThen (acceptBy meaning) f).Runs least c
  unfold Runs andThen acceptBy
  cases h : meaning c.peek.kind with
  | some g =>
    have hne : c.peek.kind ≠ .eof := by
      intro he
      rw [he, hm] at h
      cases h
    simp only [Reply.after_nil]
    exact (ht _ c.skip (Cursor.length_skip hne)).behind hne
  | none =>
    simp only [Reply.after_nil]
    exact hf

theorem runs_checkCount (count : Nat) (cause : SyntaxFault) (c : Cursor) : (checkCount count cause).Runs 0 c := by
  unfold checkCount
  split
  · exact runs_peek (runs_report _ _ c)
  · exact runs_pure () c

theorem runs_assignTo (equals : Token) (target value : Expr) (c : Cursor) :
    (assignTo equals target value).Runs 0 c := by
  unfold assignTo
  split
  · exact (runs_label c).bind fun _ c' _ _ => runs_pure _ c'
  · exact runs_pure _ c
  · exact (runs_report _ _ c).bind fun _ c' _ _ => runs_pure _ c'

theorem runs_update (invalid : SyntaxFault) (anchor : Token) (operator : Mark) (target value : Expr) (c : Cursor) :
    (update invalid anchor operator target value).Runs 0 c := by
  unfold update
  split
  · exact (runs_label c).bind fun _ c' _ _ => (runs_label c').bind fun _ c'' _ _ => runs_pure _ c''
  · exact runs_pure _ c
  · exact (runs_report _ _ c).bind fun _ c' _ _ => runs_pure _ c'

/-! ## expressions -/

/-- The rules that read expressions end, with enough of some fuel. -/
structure ExpressionsRun (n : Nat) : Prop where
  expression : ∀ c, 20 * c.rest.length + 16 ≤ n → (expression n).Runs 1 c
  binary : ∀ l c, 20 * c.rest.length + l.rank + 1 ≤ n → (binary n l).Runs 1 c
  operand : ∀ l c, 20 * c.rest.length + l.rank ≤ n → (operand n l).Runs 1 c
  binaryRest : ∀ l left c, 20 * c.rest.length + 1 ≤ n → (binaryRest n l left).Runs 0 c
  unary : ∀ c, 20 * c.rest.length + 3 ≤ n → (unary n).Runs 1 c
  call : ∀ c, 20 * c.rest.length + 2 ≤ n → (call n).Runs 1 c
  callRest : ∀ f c, 20 * c.rest.length + 1 ≤ n → (callRest n f).Runs 0 c
  arguments : ∀ c, 20 * c.rest.length + 18 ≤ n → (arguments n).Runs 0 c
  argumentList : ∀ count c, 20 * c.rest.length + 17 ≤ n → (argumentList n count).Runs 1 c
  primary : ∀ c, 20 * c.rest.length + 1 ≤ n → (primary n).Runs 1 c

theorem expression_runs (ih : ExpressionsRun n) (c : Cursor) (hn : 20 * c.rest.length + 16 ≤ n + 1) :
    (expression (n + 1)).Runs 1 c := by
  simp only [expression]
  refine (ih.binary .disjunction c (by show _ + 14 + 1 ≤ n; omega)).bind fun target c₁ _ h₁ => ?_
  refine runs_peek (runs_accept (by simp) (fun c₂ h₂ => ?_) ?_)
  · exact (ih.expression c₂ (by omega)).mono (Nat.zero_le _) |>.bind fun v c₃ _ _ => runs_assignTo _ _ _ c₃
  · refine runs_acceptBy compound? rfl (fun x c₂ h₂ => ?_) (runs_pure _ c₁)
    exact (ih.expression c₂ (by omega)).mono (Nat.zero_le _) |>.bind fun v c₃ _ _ => runs_update _ _ _ _ _ c₃

theorem binary_runs (ih : ExpressionsRun n) (l : Level) (c : Cursor) (hn : 20 * c.rest.length + l.rank + 1 ≤ n + 1) :
    (binary (n + 1) l).Runs 1 c := by
  have hl := l.rank_bounds
  simp only [binary]
  exact (ih.operand l c (by omega)).bind fun left c₁ _ h₁ => ih.binaryRest l left c₁ (by omega)

theorem operand_runs (ih : ExpressionsRun n) (l : Level) (c : Cursor) (hn : 20 * c.rest.length + l.rank ≤ n + 1) :
    (operand (n + 1) l).Runs 1 c := by
  have hl := l.rank_bounds
  simp only [operand]
  split
  · next inner h => exact ih.binary inner c (by have := Level.rank_tighter h; omega)
  · exact ih.unary c (by omega)

theorem binaryRest_runs (ih : ExpressionsRun n) (l : Level) (left : Expr) (c : Cursor)
    (hn : 20 * c.rest.length + 1 ≤ n + 1) : (binaryRest (n + 1) l left).Runs 0 c := by
  have hl := l.rank_bounds
  simp only [binaryRest]
  refine runs_acceptBy l.operator? (by cases l <;> rfl) (fun x c₁ h₁ => ?_) (runs_pure _ c)
  refine (ih.operand l c₁ (by omega)).bind fun right c₂ _ h₂ => ?_
  exact ih.binaryRest l _ c₂ (by omega)

theorem unary_runs (ih : ExpressionsRun n) (c : Cursor) (hn : 20 * c.rest.length + 3 ≤ n + 1) :
    (unary (n + 1)).Runs 1 c := by
  simp only [unary]
  refine runs_acceptBy sign? rfl (fun x c₁ h₁ => ?_) ?_
  · exact (ih.unary c₁ (by omega)).bind fun right c₂ _ _ => runs_pure _ c₂
  refine runs_acceptBy step? rfl (fun x c₁ h₁ => ?_) ?_
  · exact (ih.unary c₁ (by omega)).bind fun target c₂ _ _ => runs_update _ _ _ _ _ c₂
  refine (ih.call c (by omega)).bind fun e c₁ _ _ => ?_
  exact runs_acceptBy step? rfl (fun x c₂ _ => runs_update _ _ _ _ _ c₂) (runs_pure _ c₁)

theorem call_runs (ih : ExpressionsRun n) (c : Cursor) (hn : 20 * c.rest.length + 2 ≤ n + 1) :
    (call (n + 1)).Runs 1 c := by
  simp only [call]
  exact (ih.primary c (by omega)).bind fun f c₁ _ h₁ => ih.callRest f c₁ (by omega)

theorem callRest_runs (ih : ExpressionsRun n) (f : Expr) (c : Cursor) (hn : 20 * c.rest.length + 1 ≤ n + 1) :
    (callRest (n + 1) f).Runs 0 c := by
  simp only [callRest]
  refine runs_accept (by simp) (fun c₁ h₁ => ?_) ?_
  · refine (ih.arguments c₁ (by omega)).bind fun args c₂ _ h₂ => ?_
    refine (runs_expect _ c₂ (by simp)).bind fun paren c₃ _ h₃ => ?_
    exact ih.callRest _ c₃ (by omega)
  refine runs_accept (by simp) (fun c₁ h₁ => ?_) (runs_pure _ c)
  refine (runs_expect _ c₁ (by simp)).bind fun name c₂ _ h₂ => ?_
  exact ih.callRest _ c₂ (by omega)

theorem arguments_runs (ih : ExpressionsRun n) (c : Cursor) (hn : 20 * c.rest.length + 18 ≤ n + 1) :
    (arguments (n + 1)).Runs 0 c := by
  simp only [arguments]
  refine (runs_nextIs _ c).bind fun b c₁ _ h₁ => ?_
  split
  · exact runs_pure _ c₁
  · exact (ih.argumentList 0 c₁ (by omega)).mono (Nat.zero_le _)

theorem argumentList_runs (ih : ExpressionsRun n) (count : Nat) (c : Cursor) (hn : 20 * c.rest.length + 17 ≤ n + 1) :
    (argumentList (n + 1) count).Runs 1 c := by
  simp only [argumentList]
  refine (runs_checkCount _ _ c).bind fun _ c₁ _ h₁ => ?_
  refine (ih.expression c₁ (by omega)).bind fun e c₂ _ h₂ => ?_
  refine runs_accept (by simp) (fun c₃ h₃ => ?_) (runs_pure _ c₂)
  exact ((ih.argumentList (count + 1) c₃ (by omega)).mono (Nat.zero_le _)).bind fun es c₄ _ _ => runs_pure _ c₄

/-- A token that is read, and a rule that reads nothing more. -/
theorem runs_advance_bind {f : Token → Rule β} {k : Kind} {c : Cursor} (hk : c.peek.kind = k) (hne : k ≠ .eof)
    (hf : ∀ t c', c'.rest.length + 1 ≤ c.rest.length → (f t).Runs 0 c') : (advance >>= f).Runs 1 c :=
  (runs_advance (by rw [hk]; exact hne)).bind fun t c' _ h => hf t c' h

theorem primary_runs (ih : ExpressionsRun n) (c : Cursor) (hn : 20 * c.rest.length + 1 ≤ n + 1) :
    (primary (n + 1)).Runs 1 c := by
  simp only [primary]
  refine runs_peek ?_
  split
  · next hk => exact runs_advance_bind hk (by simp) fun _ c' _ => runs_pure _ c'
  · next hk => exact runs_advance_bind hk (by simp) fun _ c' _ => runs_pure _ c'
  · next hk => exact runs_advance_bind hk (by simp) fun _ c' _ => runs_pure _ c'
  · next hk => exact runs_advance_bind hk (by simp) fun _ c' _ => runs_pure _ c'
  · next hk => exact runs_advance_bind hk (by simp) fun _ c' _ => runs_pure _ c'
  · next hk =>
    exact runs_advance_bind hk (by simp) fun _ c' _ => (runs_label c').bind fun _ c'' _ _ => runs_pure _ c''
  · next hk =>
    exact runs_advance_bind hk (by simp) fun _ c' _ => (runs_label c').bind fun _ c'' _ _ => runs_pure _ c''
  · next hk =>
    refine runs_advance_bind hk (by simp) fun _ c₁ _ => ?_
    refine (runs_expect _ c₁ (by simp)).bind fun _ c₂ _ _ => ?_
    refine (runs_expect _ c₂ (by simp)).bind fun _ c₃ _ _ => ?_
    exact (runs_label c₃).bind fun _ c₄ _ _ => runs_pure _ c₄
  · next hk =>
    refine runs_advance_bind hk (by simp) fun _ c₁ h₁ => ?_
    refine (ih.expression c₁ (by omega)).bind fun e c₂ _ _ => ?_
    exact (runs_expect _ c₂ (by simp)).bind fun _ c₃ _ _ => runs_pure _ c₃
  · exact runs_refuse _ _ c

/-- Every rule that reads expressions ends. -/
theorem expressions_run (n : Nat) : ExpressionsRun n := by
  induction n with
  | zero =>
    refine ⟨?_, ?_, fun l c h => ?_, ?_, ?_, ?_, ?_, ?_, ?_, ?_⟩
    case refine_3 =>
      have := l.rank_bounds
      omega
    all_goals
      intros
      omega
  | succ n ih =>
    exact ⟨expression_runs ih, binary_runs ih, operand_runs ih, binaryRest_runs ih, unary_runs ih, call_runs ih,
      callRest_runs ih, arguments_runs ih, argumentList_runs ih, primary_runs ih⟩

/-! ## statements in terms of their parts -/

section Parts

variable {expression : Rule Expr} {statement : Rule Stmt} {c : Cursor}
  (he : ∀ c', c'.rest.length ≤ c.rest.length → expression.Runs 1 c')
  (hs : ∀ c', c'.rest.length ≤ c.rest.length → statement.Runs 1 c')

theorem runs_semicolon {what : Expected} {s : Stmt} {k : Kind} (hk : k ≠ .eof) (c : Cursor) :
    (do let _ ← expect k what; pure s : Rule Stmt).Runs 1 c :=
  (runs_expect _ c hk).bind fun _ c' _ _ => runs_pure _ c'

include he

theorem varDeclaration_runs : (varDeclaration expression).Runs 1 c := by
  unfold varDeclaration
  refine (runs_expect _ c (by simp)).bind fun name c₁ _ h₁ => ?_
  refine runs_accept (by simp) (fun c₂ h₂ => ?_) ((runs_semicolon (by simp) c₁).mono (Nat.zero_le _))
  refine (he c₂ (by omega)).bind fun e c₃ _ _ => ?_
  exact (runs_semicolon (by simp) c₃).mono (Nat.zero_le _)

theorem expressionStatement_runs : (expressionStatement expression).Runs 1 c := by
  unfold expressionStatement
  refine (he c (Nat.le_refl _)).bind fun e c₁ _ _ => ?_
  exact (runs_semicolon (by simp) c₁).mono (Nat.zero_le _)

theorem printStatement_runs (k : Token) : (printStatement k expression).Runs 1 c := by
  unfold printStatement
  refine (he c (Nat.le_refl _)).bind fun e c₁ _ _ => ?_
  exact (runs_semicolon (by simp) c₁).mono (Nat.zero_le _)

theorem returnStatement_runs (k : Token) : (returnStatement k expression).Runs 1 c := by
  unfold returnStatement
  refine (runs_nextIs _ c).bind fun b c₁ _ h₁ => ?_
  split
  · exact runs_semicolon (by simp) c₁
  · refine (he c₁ (by omega)).bind fun e c₂ _ _ => ?_
    exact (runs_semicolon (by simp) c₂).mono (Nat.zero_le _)

theorem forInitializer_runs : (forInitializer expression).Runs 1 c := by
  unfold forInitializer
  refine runs_accept (by simp) (fun c₁ _ => runs_pure _ c₁) ?_
  refine runs_accept (by simp) (fun c₁ h₁ => ?_) ?_
  · have h : (varDeclaration expression).Runs 1 c₁ := varDeclaration_runs fun c' h' => he c' (by omega)
    exact h.bind fun s c₂ _ _ => runs_pure _ c₂
  · exact (expressionStatement_runs he).bind fun s c₁ _ _ => runs_pure _ c₁

theorem forCondition_runs : (forCondition expression).Runs 0 c := by
  unfold forCondition
  refine (runs_nextIs _ c).bind fun b c₁ _ h₁ => ?_
  split
  · exact runs_pure _ c₁
  · exact (he c₁ (by omega)).mono (Nat.zero_le _)

theorem forIncrement_runs : (forIncrement expression).Runs 0 c := by
  unfold forIncrement
  refine (runs_nextIs _ c).bind fun b c₁ _ h₁ => ?_
  split
  · exact runs_pure _ c₁
  · exact (he c₁ (by omega)).bind fun e c₂ _ _ => runs_pure _ c₂

include hs

theorem ifStatement_runs : (ifStatement expression statement).Runs 1 c := by
  unfold ifStatement
  refine (runs_expect _ c (by simp)).bind fun _ c₁ _ h₁ => ?_
  refine (he c₁ (by omega)).bind fun e c₂ _ h₂ => ?_
  refine (runs_expect _ c₂ (by simp)).bind fun _ c₃ _ h₃ => ?_
  refine (hs c₃ (by omega)).bind fun t c₄ _ h₄ => ?_
  refine runs_accept (by simp) (fun c₅ h₅ => ?_) (runs_pure _ c₄)
  exact (hs c₅ (by omega)).bind fun e c₆ _ _ => runs_pure _ c₆

theorem whileStatement_runs : (whileStatement expression statement).Runs 1 c := by
  unfold whileStatement
  refine (runs_expect _ c (by simp)).bind fun _ c₁ _ h₁ => ?_
  refine (he c₁ (by omega)).bind fun e c₂ _ h₂ => ?_
  refine (runs_expect _ c₂ (by simp)).bind fun _ c₃ _ h₃ => ?_
  exact (hs c₃ (by omega)).bind fun t c₄ _ _ => runs_pure _ c₄

theorem forStatement_runs : (forStatement expression statement).Runs 1 c := by
  unfold forStatement
  refine (runs_expect _ c (by simp)).bind fun _ c₁ _ h₁ => ?_
  have hi : (forInitializer expression).Runs 1 c₁ := forInitializer_runs fun c' h' => he c' (by omega)
  refine hi.bind fun first c₂ _ h₂ => ?_
  have hc : (forCondition expression).Runs 0 c₂ := forCondition_runs fun c' h' => he c' (by omega)
  refine hc.bind fun condition c₃ _ h₃ => ?_
  refine (runs_expect _ c₃ (by simp)).bind fun _ c₄ _ h₄ => ?_
  have hn : (forIncrement expression).Runs 0 c₄ := forIncrement_runs fun c' h' => he c' (by omega)
  refine hn.bind fun increment c₅ _ h₅ => ?_
  refine (runs_expect _ c₅ (by simp)).bind fun _ c₆ _ h₆ => ?_
  refine (hs c₆ (by omega)).bind fun body c₇ _ _ => ?_
  split
  · exact runs_pure _ c₇
  · exact runs_pure _ c₇

end Parts

theorem superclass_runs (c : Cursor) : superclass.Runs 0 c := by
  unfold superclass
  refine runs_accept (by simp) (fun c₁ _ => ?_) (runs_pure _ c)
  refine (runs_expect _ c₁ (by simp)).bind fun name c₂ _ _ => ?_
  exact (runs_label c₂).bind fun l c₃ _ _ => runs_pure _ c₃

theorem classDeclaration_runs {methods : Rule (List FunctionDecl)} {c : Cursor}
    (hm : ∀ c', c'.rest.length ≤ c.rest.length → methods.Runs 0 c') : (classDeclaration methods).Runs 1 c := by
  unfold classDeclaration
  refine (runs_expect _ c (by simp)).bind fun name c₁ _ h₁ => ?_
  refine (superclass_runs c₁).bind fun s c₂ _ h₂ => ?_
  refine (runs_expect _ c₂ (by simp)).bind fun _ c₃ _ h₃ => ?_
  refine (hm c₃ (by omega)).bind fun ms c₄ _ h₄ => ?_
  exact (runs_expect _ c₄ (by simp)).bind fun _ c₅ _ _ => runs_pure _ c₅

theorem parameterNames_runs (n count : Nat) (c : Cursor) (hn : 20 * c.rest.length + 1 ≤ n) :
    (parameterNames n count).Runs 1 c := by
  induction n generalizing count c with
  | zero => omega
  | succ n ih =>
    simp only [parameterNames]
    refine (runs_checkCount _ _ c).bind fun _ c₁ _ h₁ => ?_
    refine (runs_expect _ c₁ (by simp)).bind fun name c₂ _ h₂ => ?_
    refine runs_accept (by simp) (fun c₃ h₃ => ?_) (runs_pure _ c₂)
    exact (ih (count + 1) c₃ (by omega)).mono (Nat.zero_le _) |>.bind fun names c₄ _ _ => runs_pure _ c₄

/-! ## recovery -/

/-- Recovery does not go past the end of the source. -/
theorem boundary_passes (behindSemicolon : Bool) (ts : List Token) (fresh : Label) :
    (Cursor.mk ts fresh).Passes ⟨boundary behindSemicolon ts, fresh⟩ := by
  induction ts generalizing behindSemicolon with
  | nil => exact Cursor.Passes.refl _
  | cons t ts ih =>
    have hskip : t.kind ≠ .eof → (Cursor.mk (t :: ts) fresh).Passes ⟨ts, fresh⟩ :=
      fun h => Cursor.Passes.skip (c := ⟨t :: ts, fresh⟩) h
    unfold boundary
    split
    · exact Cursor.Passes.refl _
    · split
      · exact Cursor.Passes.refl _
      · next hk =>
        split
        · exact Cursor.Passes.refl _
        · exact (hskip (by rw [hk]; simp)).trans (ih false)
      · next hk => exact (hskip (by rw [hk]; simp)).trans (ih true)
      · next hk _ _ => exact (hskip hk).trans (ih false)

/-- Recovery skips the token that was refused. -/
theorem synchronize_passes (ts : List Token) (fresh : Label) :
    (Cursor.mk ts fresh).Passes ⟨synchronize ts, fresh⟩ ∧
      (headKind ts ≠ .eof → (synchronize ts).length + 1 ≤ ts.length) := by
  cases ts with
  | nil => exact ⟨Cursor.Passes.refl _, fun h => absurd rfl h⟩
  | cons t ts =>
    have hskip : t.kind ≠ .eof → (Cursor.mk (t :: ts) fresh).Passes ⟨ts, fresh⟩ :=
      fun h => Cursor.Passes.skip (c := ⟨t :: ts, fresh⟩) h
    have hlen : ∀ b, (boundary b ts).length + 1 ≤ (t :: ts).length :=
      fun b => Nat.succ_le_succ (boundary_suffix b ts).length_le
    simp only [synchronize]
    split
    · next hk => exact ⟨Cursor.Passes.refl _, fun h => absurd hk h⟩
    · next hk => exact ⟨(hskip (by rw [hk]; simp)).trans (boundary_passes true ts fresh), fun _ => hlen true⟩
    · next hk _ => exact ⟨(hskip hk).trans (boundary_passes false ts fresh), fun _ => hlen false⟩

/-- Recovery goes forward from what was refused, if that was not the end where the rule started. -/
theorem length_synchronize {c next : Cursor} (hne : c.peek.kind ≠ .eof) (hp : c.Passes next) :
    (synchronize next.rest).length + 1 ≤ c.rest.length := by
  obtain ⟨hsync, hlength⟩ := synchronize_passes next.rest next.fresh
  have hle : (synchronize next.rest).length ≤ next.rest.length := hsync.length_le
  obtain ⟨read, hread, -, -⟩ := hp
  cases read with
  | nil =>
    have hrest : next.rest = c.rest := hread.symm
    rw [hrest] at hlength ⊢
    exact hlength hne
  | cons t read =>
    rw [hread, List.length_append, List.length_cons]
    omega

/-- A rule that recovers always succeeds, and goes forward from every token but the end of the source. -/
theorem runs_recover {r : Rule α} {c : Cursor} (hne : c.peek.kind ≠ .eof) (hr : r.Runs 1 c) : (recover r).Runs 1 c := by
  unfold Runs recover
  unfold Runs at hr
  cases e : r c with
  | ok a c' reports =>
    rw [e] at hr
    exact hr
  | refused cause c' reports =>
    rw [e] at hr
    exact ⟨hr.trans (synchronize_passes c'.rest c'.fresh).1, length_synchronize hne hr⟩
  | outOfFuel =>
    rw [e] at hr
    exact hr.elim

/-! ## statements and declarations -/

/-- The rules that read statements and declarations end, with enough of some fuel. -/
structure StatementsRun (n : Nat) : Prop where
  statement : ∀ c, 20 * c.rest.length + 17 ≤ n → (statement n).Runs 1 c
  declaration : ∀ c, c.peek.kind ≠ .eof → 20 * c.rest.length + 18 ≤ n → (declaration n).Runs 1 c
  declarations : ∀ inBraces c, 20 * c.rest.length + 19 ≤ n → (declarations n inBraces).Runs 0 c
  function : ∀ kind c, 20 * c.rest.length + 1 ≤ n → (function n kind).Runs 1 c
  methods : ∀ c, 20 * c.rest.length + 2 ≤ n → (methods n).Runs 0 c

theorem statement_runs (ih : StatementsRun n) (c : Cursor) (hn : 20 * c.rest.length + 17 ≤ n + 1) :
    (statement (n + 1)).Runs 1 c := by
  have he : ∀ c', c'.rest.length ≤ c.rest.length → (expression n).Runs 1 c' :=
    fun c' _ => (expressions_run n).expression c' (by omega)
  have hs : ∀ c', c'.rest.length + 1 ≤ c.rest.length → (statement n).Runs 1 c' :=
    fun c' _ => ih.statement c' (by omega)
  simp only [statement]
  refine runs_peek ?_
  split
  · next hk =>
    refine runs_advance_bind hk (by simp) fun _ c₁ h₁ => Runs.mono ?_ (Nat.zero_le 1)
    exact forStatement_runs (fun c' h' => he c' (by omega)) (fun c' h' => hs c' (by omega))
  · next hk =>
    refine runs_advance_bind hk (by simp) fun _ c₁ h₁ => Runs.mono ?_ (Nat.zero_le 1)
    exact ifStatement_runs (fun c' h' => he c' (by omega)) (fun c' h' => hs c' (by omega))
  · next hk =>
    refine runs_advance_bind hk (by simp) fun _ c₁ h₁ => Runs.mono ?_ (Nat.zero_le 1)
    exact whileStatement_runs (fun c' h' => he c' (by omega)) (fun c' h' => hs c' (by omega))
  · next hk =>
    refine runs_advance_bind hk (by simp) fun _ c₁ h₁ => Runs.mono ?_ (Nat.zero_le 1)
    exact returnStatement_runs (fun c' h' => he c' (by omega)) _
  · next hk =>
    exact runs_advance_bind hk (by simp) fun _ c₁ _ => (runs_semicolon (by simp) c₁).mono (Nat.zero_le 1)
  · next hk =>
    exact runs_advance_bind hk (by simp) fun _ c₁ _ => (runs_semicolon (by simp) c₁).mono (Nat.zero_le 1)
  · next hk =>
    refine runs_advance_bind hk (by simp) fun _ c₁ h₁ => ?_
    refine (ih.declarations true c₁ (by omega)).bind fun body c₂ _ _ => ?_
    exact (runs_semicolon (by simp) c₂).mono (Nat.zero_le 1)
  · next hk =>
    refine runs_advance_bind hk (by simp) fun _ c₁ h₁ => Runs.mono ?_ (Nat.zero_le 1)
    exact printStatement_runs (fun c' h' => he c' (by omega)) _
  · exact expressionStatement_runs he

theorem declaration_runs (ih : StatementsRun n) (c : Cursor) (hne : c.peek.kind ≠ .eof)
    (hn : 20 * c.rest.length + 18 ≤ n + 1) : (declaration (n + 1)).Runs 1 c := by
  simp only [declaration]
  refine runs_recover hne (runs_peek ?_)
  split
  · next hk =>
    refine runs_advance_bind hk (by simp) fun _ c₁ h₁ => Runs.mono ?_ (Nat.zero_le 1)
    exact classDeclaration_runs fun c' h' => ih.methods c' (by omega)
  · next hk =>
    refine runs_advance_bind hk (by simp) fun _ c₁ h₁ => ?_
    exact (ih.function _ c₁ (by omega)).bind fun d c₂ _ _ => runs_pure _ c₂
  · next hk =>
    refine runs_advance_bind hk (by simp) fun _ c₁ h₁ => Runs.mono ?_ (Nat.zero_le 1)
    exact varDeclaration_runs fun c' h' => (expressions_run n).expression c' (by omega)
  · exact ih.statement c (by omega)

theorem declarations_runs (ih : StatementsRun n) (inBraces : Bool) (c : Cursor)
    (hn : 20 * c.rest.length + 19 ≤ n + 1) : (declarations (n + 1) inBraces).Runs 0 c := by
  simp only [declarations]
  refine runs_peek ?_
  split
  · exact runs_pure _ c
  · next hend =>
    have hne : c.peek.kind ≠ .eof := fun he => hend (by simp [he])
    refine (ih.declaration c hne (by omega)).bind fun s c₁ _ h₁ => ?_
    exact (ih.declarations inBraces c₁ (by omega)).bind fun rest c₂ _ _ => runs_pure _ c₂

theorem function_runs (ih : StatementsRun n) (kind : Body) (c : Cursor) (hn : 20 * c.rest.length + 1 ≤ n + 1) :
    (function (n + 1) kind).Runs 1 c := by
  simp only [function]
  refine (runs_expect _ c (by simp)).bind fun name c₁ _ h₁ => ?_
  refine (runs_expect _ c₁ (by simp)).bind fun _ c₂ _ h₂ => ?_
  have hp : (do if ← nextIs (.mark .rightParen) then pure [] else parameterNames n 0 : Rule (List Token)).Runs 0 c₂ := by
    refine (runs_nextIs _ c₂).bind fun b c₃ _ h₃ => ?_
    split
    · exact runs_pure _ c₃
    · exact (parameterNames_runs n 0 c₃ (by omega)).mono (Nat.zero_le 1)
  refine hp.bind fun params c₃ _ h₃ => ?_
  refine (runs_expect _ c₃ (by simp)).bind fun _ c₄ _ h₄ => ?_
  refine (runs_expect _ c₄ (by simp)).bind fun _ c₅ _ h₅ => ?_
  refine (ih.declarations true c₅ (by omega)).bind fun body c₆ _ _ => ?_
  exact (runs_expect _ c₆ (by simp)).bind fun _ c₇ _ _ => runs_pure _ c₇

theorem methods_runs (ih : StatementsRun n) (c : Cursor) (hn : 20 * c.rest.length + 2 ≤ n + 1) :
    (methods (n + 1)).Runs 0 c := by
  simp only [methods]
  refine runs_peek ?_
  split
  · exact runs_pure _ c
  · refine (ih.function _ c (by omega)).bind fun d c₁ _ h₁ => ?_
    exact (ih.methods c₁ (by omega)).bind fun ds c₂ _ _ => runs_pure _ c₂

/-- Every rule that reads statements and declarations ends. -/
theorem statements_run (n : Nat) : StatementsRun n := by
  induction n with
  | zero =>
    constructor <;> intros <;> omega
  | succ n ih =>
    exact ⟨statement_runs ih, declaration_runs ih, declarations_runs ih, function_runs ih, methods_runs ih⟩

end Rule

/-! ## whole sources -/

/-- The fuel of `parse` is enough. -/
theorem declarations_runs_fuelFor (tokens : List Token) (fresh : Label) :
    (Rule.declarations (Rule.fuelFor tokens) false).Runs 0 ⟨tokens, fresh⟩ :=
  (Rule.statements_run _).declarations false _ (by show 20 * tokens.length + 19 ≤ 20 * (tokens.length + 1); omega)

/-- Labels once given out are not given out again, also when parsing fails. -/
theorem fresh_le_parse (fresh : Label) (tokens : List Token) : fresh ≤ (parse fresh tokens).fresh := by
  have h := declarations_runs_fuelFor tokens fresh
  unfold Rule.Runs at h
  unfold parse
  cases e : Rule.declarations (Rule.fuelFor tokens) false ⟨tokens, fresh⟩ with
  | ok program c' reports =>
    rw [e] at h
    obtain ⟨⟨_, _, _, hf⟩, _⟩ := h
    cases reports with
    | nil => exact hf
    | cons r rs => exact hf
  | refused cause c' reports =>
    rw [e] at h
    obtain ⟨_, _, _, hf⟩ := h
    exact hf
  | outOfFuel => exact Nat.le_refl _

end ScriptLang
