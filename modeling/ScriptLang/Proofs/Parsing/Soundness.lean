import ScriptLang.Proofs.Parsing.Phrase

/-!
# Rules read phrases

`r.Sound p` — whenever the rule `r` succeeds without a report, what it has read is the phrase that `p` makes of its
result.  All rules of the grammar are sound, by induction on their fuel: `expressions_sound` for those that read
expressions, `statements_sound` for the others.
-/

namespace ScriptLang

namespace Rule

variable {α : Type} {n : Nat}

/-- Without a report, the rule reads a phrase. -/
def Sound (r : Rule α) (p : α → Phrase) : Prop :=
  ∀ {ts lo a us hi}, r.Yields ⟨ts, lo⟩ a ⟨us, hi⟩ → ∃ read, ts = read ++ us ∧ (p a).Reads lo read hi

theorem sound_outOfFuel (p : α → Phrase) : (outOfFuel : Rule α).Sound p := by
  intro ts lo a us hi h
  exact absurd h not_yields_outOfFuel

/-! ## expressions -/

/-- The rules that read expressions are sound with some fuel. -/
structure ExpressionsSound (n : Nat) : Prop where
  expression : (expression n).Sound .expression
  binary : ∀ l, (binary n l).Sound (.binary l)
  operand : ∀ l, (operand n l).Sound (.operand l)
  binaryRest : ∀ l left, (binaryRest n l left).Sound (.binaryRest l left)
  unary : (unary n).Sound .unary
  call : (call n).Sound .call
  callRest : ∀ f, (callRest n f).Sound (.callRest f)
  arguments : (arguments n).Sound .arguments
  argumentList : ∀ count, (argumentList n count).Sound (.argumentList count)
  primary : (primary n).Sound .primary

theorem expression_sound (ih : ExpressionsSound n) : (expression (n + 1)).Sound .expression := by
  intro ts lo x us hi h
  simp only [expression, yields_bind (r := binary _ _)] at h
  obtain ⟨target, vs, mid, ht, h⟩ := h
  obtain ⟨read, rfl, hr⟩ := ih.binary _ ht
  rw [yields_peek, yields_accept (by simp)] at h
  obtain ⟨t, ws, rfl, hk, h⟩ | ⟨-, h⟩ := h
  · simp only [if_true, yields_bind, yields_assignTo] at h
    obtain ⟨v, ws', hi', hv, hx, rfl⟩ := h
    obtain ⟨read', rfl, hr'⟩ := ih.expression hv
    exact ⟨read ++ t :: read', by simp, .assign hr hk hr' hx⟩
  · simp only [Bool.false_eq_true, if_false, yields_acceptBy compound? rfl] at h
    obtain ⟨t, ws, op, rfl, hk, h⟩ | ⟨-, h⟩ := h
    · simp only [yields_bind, yields_update] at h
      obtain ⟨v, ws', hi', hv, hx, rfl⟩ := h
      obtain ⟨read', rfl, hr'⟩ := ih.expression hv
      exact ⟨read ++ t :: read', by simp, .update hr hk hr' hx⟩
    · obtain ⟨rfl, hc⟩ := yields_pure.1 h
      cases hc
      exact ⟨read, rfl, .operators hr⟩

theorem binary_sound (ih : ExpressionsSound n) (l : Level) : (binary (n + 1) l).Sound (.binary l) := by
  intro ts lo x us hi h
  simp only [binary, yields_bind] at h
  obtain ⟨left, vs, mid, hl, h⟩ := h
  obtain ⟨read, rfl, hr⟩ := ih.operand l hl
  obtain ⟨read', rfl, hr'⟩ := ih.binaryRest l left h
  exact ⟨read ++ read', by simp, .binary hr hr'⟩

theorem operand_sound (ih : ExpressionsSound n) (l : Level) : (operand (n + 1) l).Sound (.operand l) := by
  intro ts lo x us hi h
  simp only [operand] at h
  split at h
  · next inner hl =>
    obtain ⟨read, rfl, hr⟩ := ih.binary inner h
    exact ⟨read, rfl, .tighter hl hr⟩
  · next hl =>
    obtain ⟨read, rfl, hr⟩ := ih.unary h
    exact ⟨read, rfl, .tightest hl hr⟩

theorem operator?_eq_some {l : Level} {k : Kind} {u : Unit} : l.operator? k = some u ↔ k ∈ l.operators := by
  unfold Level.operator?
  split <;> simp_all

theorem binaryRest_sound (ih : ExpressionsSound n) (l : Level) (left : Expr) :
    (binaryRest (n + 1) l left).Sound (.binaryRest l left) := by
  intro ts lo x us hi h
  simp only [binaryRest, yields_acceptBy l.operator? (by cases l <;> rfl)] at h
  obtain ⟨t, vs, u, rfl, hk, h⟩ | ⟨-, h⟩ := h
  · simp only [yields_bind] at h
    obtain ⟨right, ws, mid, hright, h⟩ := h
    obtain ⟨read, rfl, hr⟩ := ih.operand l hright
    obtain ⟨read', rfl, hr'⟩ := ih.binaryRest l _ h
    exact ⟨t :: read ++ read', by simp, .binaryMore (operator?_eq_some.1 hk) hr hr'⟩
  · obtain ⟨rfl, hc⟩ := yields_pure.1 h
    cases hc
    exact ⟨[], rfl, .binaryEnd⟩

theorem unary_sound (ih : ExpressionsSound n) : (unary (n + 1)).Sound .unary := by
  intro ts lo x us hi h
  simp only [unary, yields_acceptBy sign? rfl] at h
  obtain ⟨t, vs, u, rfl, hk, h⟩ | ⟨-, h⟩ := h
  · simp only [yields_bind, yields_pure] at h
    obtain ⟨y, ws, mid, hy, rfl, hc⟩ := h
    cases hc
    obtain ⟨read, rfl, hr⟩ := ih.unary hy
    exact ⟨t :: read, rfl, .sign hk hr⟩
  simp only [yields_acceptBy step? rfl] at h
  obtain ⟨t, vs, op, rfl, hk, h⟩ | ⟨-, h⟩ := h
  · simp only [yields_bind, yields_update] at h
    obtain ⟨target, ws, mid, ht, hx, rfl⟩ := h
    obtain ⟨read, rfl, hr⟩ := ih.unary ht
    exact ⟨t :: read, rfl, .stepBefore hk hr hx⟩
  rw [yields_bind] at h
  obtain ⟨y, ws, mid, hy, h⟩ := h
  obtain ⟨read, rfl, hr⟩ := ih.call hy
  simp only [yields_acceptBy step? rfl] at h
  obtain ⟨t, vs, op, rfl, hk, h⟩ | ⟨-, h⟩ := h
  · obtain ⟨hx, rfl⟩ := yields_update.1 h
    exact ⟨read ++ [t], by simp, .stepBehind hr hk hx⟩
  · obtain ⟨rfl, hc⟩ := yields_pure.1 h
    cases hc
    exact ⟨read, rfl, .noStep hr⟩

theorem call_sound (ih : ExpressionsSound n) : (call (n + 1)).Sound .call := by
  intro ts lo x us hi h
  simp only [call, yields_bind] at h
  obtain ⟨f, vs, mid, hf, h⟩ := h
  obtain ⟨read, rfl, hr⟩ := ih.primary hf
  obtain ⟨read', rfl, hr'⟩ := ih.callRest f h
  exact ⟨read ++ read', by simp, .call hr hr'⟩

theorem callRest_sound (ih : ExpressionsSound n) (f : Expr) : (callRest (n + 1) f).Sound (.callRest f) := by
  intro ts lo x us hi h
  simp only [callRest] at h
  rw [yields_accept (by simp)] at h
  obtain ⟨t, vs, rfl, hk, h⟩ | ⟨-, h⟩ := h
  · simp only [if_true] at h
    rw [yields_bind] at h
    obtain ⟨args, ws, mid, ha, h⟩ := h
    obtain ⟨read, rfl, hr⟩ := ih.arguments ha
    rw [yields_expect (by simp)] at h
    obtain ⟨paren, vs', rfl, hp, h⟩ := h
    obtain ⟨read', rfl, hr'⟩ := ih.callRest _ h
    exact ⟨t :: read ++ paren :: read', by simp, .callArguments hk hr hp hr'⟩
  simp only [Bool.false_eq_true, if_false] at h
  rw [yields_accept (by simp)] at h
  obtain ⟨t, vs, rfl, hk, h⟩ | ⟨-, h⟩ := h
  · simp only [if_true] at h
    rw [yields_expect (by simp)] at h
    obtain ⟨name, vs', rfl, hn, h⟩ := h
    obtain ⟨read, rfl, hr⟩ := ih.callRest _ h
    exact ⟨t :: name :: read, rfl, .callProperty hk hn hr⟩
  · simp only [Bool.false_eq_true, if_false] at h
    obtain ⟨rfl, hc⟩ := yields_pure.1 h
    cases hc
    exact ⟨[], rfl, .callEnd⟩

theorem arguments_sound (ih : ExpressionsSound n) : (arguments (n + 1)).Sound .arguments := by
  intro ts lo xs us hi h
  simp only [arguments, yields_nextIs] at h
  split at h
  · obtain ⟨rfl, hc⟩ := yields_pure.1 h
    cases hc
    exact ⟨[], rfl, .noArguments⟩
  · obtain ⟨read, rfl, hr⟩ := ih.argumentList 0 h
    exact ⟨read, rfl, .someArguments hr⟩

theorem argumentList_sound (ih : ExpressionsSound n) (count : Nat) :
    (argumentList (n + 1) count).Sound (.argumentList count) := by
  intro ts lo xs us hi h
  simp only [argumentList, yields_checkCount] at h
  obtain ⟨hn, h⟩ := h
  rw [yields_bind] at h
  obtain ⟨x, vs, mid, hx, h⟩ := h
  obtain ⟨read, rfl, hr⟩ := ih.expression hx
  rw [yields_accept (by simp)] at h
  obtain ⟨t, ws, rfl, hk, h⟩ | ⟨-, h⟩ := h
  · simp only [if_true, yields_bind, yields_pure] at h
    obtain ⟨rest, vs', mid', hrest, rfl, hc⟩ := h
    cases hc
    obtain ⟨read', rfl, hr'⟩ := ih.argumentList (count + 1) hrest
    exact ⟨read ++ t :: read', by simp, .moreArguments hn hr hk hr'⟩
  · simp only [Bool.false_eq_true, if_false, yields_pure] at h
    obtain ⟨rfl, hc⟩ := h
    cases hc
    exact ⟨read, rfl, .lastArgument hn hr⟩

/-- A constant is one token. -/
theorem constant_sound {ts us : List Token} {lo hi : Label} {k : Kind} {v : Literal} {x : Expr}
    (hk : headKind ts = k) (hv : constant? k = some v)
    (h : (do let _ ← advance; pure (.literal v) : Rule Expr).Yields ⟨ts, lo⟩ x ⟨us, hi⟩) :
    ∃ read, ts = read ++ us ∧ (Phrase.primary x).Reads lo read hi := by
  have hne : k ≠ .eof := by
    rintro rfl
    cases hv
  obtain ⟨t, vs, rfl, rfl⟩ := eq_cons_of_headKind hk hne
  simp only [yields_advance, List.tail_cons, yields_pure] at h
  obtain ⟨rfl, hc⟩ := h
  cases hc
  exact ⟨[t], rfl, .constant hv⟩

theorem primary_sound (ih : ExpressionsSound n) : (primary (n + 1)).Sound .primary := by
  intro ts lo x us hi h
  simp only [primary, yields_peek, kind_peek] at h
  split at h
  · next hk => exact constant_sound hk rfl h
  · next hk => exact constant_sound hk rfl h
  · next hk => exact constant_sound hk rfl h
  · next hk => exact constant_sound hk rfl h
  · next hk => exact constant_sound hk rfl h
  · next hk =>
    obtain ⟨t, vs, rfl, ht⟩ := eq_cons_of_headKind hk (by simp)
    simp only [yields_advance, yields_label, List.tail_cons, yields_pure] at h
    obtain ⟨rfl, hc⟩ := h
    cases hc
    exact ⟨[t], rfl, .identifier ht⟩
  · next hk =>
    obtain ⟨t, vs, rfl, ht⟩ := eq_cons_of_headKind hk (by simp)
    simp only [yields_advance, yields_label, List.tail_cons, yields_pure] at h
    obtain ⟨rfl, hc⟩ := h
    cases hc
    exact ⟨[t], rfl, .this ht⟩
  · next hk =>
    obtain ⟨t, vs, rfl, ht⟩ := eq_cons_of_headKind hk (by simp)
    rw [yields_advance, yields_expect (by simp)] at h
    obtain ⟨dot, ws, hws, hd, h⟩ := h
    rw [yields_expect (by simp)] at h
    obtain ⟨name, ws, rfl, hn, h⟩ := h
    simp only [yields_label, yields_pure] at h
    obtain ⟨rfl, hc⟩ := h
    cases hc
    cases hws
    exact ⟨[t, dot, name], rfl, .super ht hd hn⟩
  · next hk =>
    obtain ⟨t, vs, rfl, ht⟩ := eq_cons_of_headKind hk (by simp)
    rw [yields_advance, List.tail_cons, yields_bind] at h
    obtain ⟨y, ws, mid, hy, h⟩ := h
    obtain ⟨read, rfl, hr⟩ := ih.expression hy
    rw [yields_expect (by simp)] at h
    obtain ⟨close, ws, rfl, hc, h⟩ := h
    obtain ⟨rfl, he⟩ := yields_pure.1 h
    cases he
    exact ⟨t :: read ++ [close], by simp, .group ht hr hc⟩
  · exact absurd h not_yields_refuse

/-- Every rule that reads expressions is sound. -/
theorem expressions_sound (n : Nat) : ExpressionsSound n := by
  induction n with
  | zero =>
    exact ⟨sound_outOfFuel _, fun _ => sound_outOfFuel _, fun _ => sound_outOfFuel _, fun _ _ => sound_outOfFuel _,
      sound_outOfFuel _, sound_outOfFuel _, fun _ => sound_outOfFuel _, sound_outOfFuel _, fun _ => sound_outOfFuel _,
      sound_outOfFuel _⟩
  | succ n ih =>
    exact ⟨expression_sound ih, binary_sound ih, operand_sound ih, binaryRest_sound ih, unary_sound ih, call_sound ih,
      callRest_sound ih, arguments_sound ih, argumentList_sound ih, primary_sound ih⟩

/-! ## statements in terms of their parts -/

section Parts

variable {expression : Rule Expr} (he : expression.Sound .expression)

include he

theorem varDeclaration_sound : (varDeclaration expression).Sound .varDeclaration := by
  intro ts lo s us hi h
  unfold varDeclaration at h
  rw [yields_expect (by simp)] at h
  obtain ⟨name, vs, rfl, hn, h⟩ := h
  rw [yields_accept (by simp)] at h
  obtain ⟨t, ws, rfl, hk, h⟩ | ⟨-, h⟩ := h
  · rw [if_pos rfl, yields_bind] at h
    obtain ⟨x, vs', mid, hx, h⟩ := h
    obtain ⟨read, rfl, hr⟩ := he hx
    rw [yields_expect (by simp)] at h
    obtain ⟨semi, ws', rfl, hs, h⟩ := h
    obtain ⟨rfl, hc⟩ := yields_pure.1 h
    cases hc
    exact ⟨name :: t :: read ++ [semi], by simp, .varValue hn hk hr hs⟩
  · rw [if_neg (by simp), yields_expect (by simp)] at h
    obtain ⟨semi, ws, rfl, hs, h⟩ := h
    obtain ⟨rfl, hc⟩ := yields_pure.1 h
    cases hc
    exact ⟨[name, semi], rfl, .varPlain hn hs⟩

theorem expressionStatement_sound : (expressionStatement expression).Sound .expressionStatement := by
  intro ts lo s us hi h
  unfold expressionStatement at h
  rw [yields_bind] at h
  obtain ⟨x, vs, mid, hx, h⟩ := h
  obtain ⟨read, rfl, hr⟩ := he hx
  rw [yields_expect (by simp)] at h
  obtain ⟨semi, ws, rfl, hs, h⟩ := h
  obtain ⟨rfl, hc⟩ := yields_pure.1 h
  cases hc
  exact ⟨read ++ [semi], by simp, .expressionStatement hr hs⟩

theorem forInitializer_sound : (forInitializer expression).Sound .forInitializer := by
  intro ts lo s us hi h
  unfold forInitializer at h
  rw [yields_accept (by simp)] at h
  obtain ⟨t, ws, rfl, hk, h⟩ | ⟨-, h⟩ := h
  · rw [if_pos rfl] at h
    obtain ⟨rfl, hc⟩ := yields_pure.1 h
    cases hc
    exact ⟨[t], rfl, .noInitializer hk⟩
  rw [if_neg (by simp), yields_accept (by simp)] at h
  obtain ⟨t, ws, rfl, hk, h⟩ | ⟨-, h⟩ := h
  · simp only [if_true, yields_bind, yields_pure] at h
    obtain ⟨s, vs, mid, hs, rfl, hc⟩ := h
    cases hc
    obtain ⟨read, rfl, hr⟩ := varDeclaration_sound he hs
    exact ⟨t :: read, rfl, .varInitializer hk hr⟩
  · simp only [Bool.false_eq_true, if_false, yields_bind, yields_pure] at h
    obtain ⟨s, vs, mid, hs, rfl, hc⟩ := h
    cases hc
    obtain ⟨read, rfl, hr⟩ := expressionStatement_sound he hs
    exact ⟨read, rfl, .expressionInitializer hr⟩

theorem forCondition_sound : (forCondition expression).Sound .forCondition := by
  intro ts lo x us hi h
  unfold forCondition at h
  rw [yields_nextIs] at h
  split at h
  · obtain ⟨rfl, hc⟩ := yields_pure.1 h
    cases hc
    exact ⟨[], rfl, .noCondition⟩
  · obtain ⟨read, rfl, hr⟩ := he h
    exact ⟨read, rfl, .someCondition hr⟩

theorem forIncrement_sound : (forIncrement expression).Sound .forIncrement := by
  intro ts lo x us hi h
  unfold forIncrement at h
  rw [yields_nextIs] at h
  split at h
  · obtain ⟨rfl, hc⟩ := yields_pure.1 h
    cases hc
    exact ⟨[], rfl, .noIncrement⟩
  · simp only [yields_bind, yields_pure] at h
    obtain ⟨y, vs, mid, hy, rfl, hc⟩ := h
    cases hc
    obtain ⟨read, rfl, hr⟩ := he hy
    exact ⟨read, rfl, .someIncrement hr⟩

end Parts

/-! ## statements -/

/-- Without a report, the rule reads a statement, and no `else` that could belong to it is left behind it. -/
def SoundStatement (r : Rule Stmt) : Prop :=
  ∀ {ts lo s us hi}, r.Yields ⟨ts, lo⟩ s ⟨us, hi⟩ →
    ∃ read o, ts = read ++ us ∧ (Phrase.statement o s).Reads lo read hi ∧ (o = true → headKind us ≠ .keyword .kwElse)

section Compound

variable {expression : Rule Expr} (he : expression.Sound .expression)
variable {statement : Rule Stmt} (hs : statement.SoundStatement)

include he

theorem printStatement_sound {k : Token} (hk : k.kind = .keyword .kwPrint) {ts us : List Token} {lo hi : Label}
    {s : Stmt} (h : (printStatement k expression).Yields ⟨ts, lo⟩ s ⟨us, hi⟩) :
    ∃ read, ts = read ++ us ∧ (Phrase.statement false s).Reads lo (k :: read) hi := by
  unfold printStatement at h
  rw [yields_bind] at h
  obtain ⟨x, vs, mid, hx, h⟩ := h
  obtain ⟨read, rfl, hr⟩ := he hx
  rw [yields_expect (by simp)] at h
  obtain ⟨semi, ws, rfl, hs, h⟩ := h
  obtain ⟨rfl, hc⟩ := yields_pure.1 h
  cases hc
  exact ⟨read ++ [semi], by simp, .print hk hr hs⟩

theorem returnStatement_sound {k : Token} (hk : k.kind = .keyword .kwReturn) {ts us : List Token} {lo hi : Label}
    {s : Stmt} (h : (returnStatement k expression).Yields ⟨ts, lo⟩ s ⟨us, hi⟩) :
    ∃ read, ts = read ++ us ∧ (Phrase.statement false s).Reads lo (k :: read) hi := by
  unfold returnStatement at h
  rw [yields_nextIs] at h
  split at h
  · rw [yields_expect (by simp)] at h
    obtain ⟨semi, ws, rfl, hs, h⟩ := h
    obtain ⟨rfl, hc⟩ := yields_pure.1 h
    cases hc
    exact ⟨[semi], rfl, .returnNothing hk hs⟩
  · rw [yields_bind] at h
    obtain ⟨x, vs, mid, hx, h⟩ := h
    obtain ⟨read, rfl, hr⟩ := he hx
    rw [yields_expect (by simp)] at h
    obtain ⟨semi, ws, rfl, hs, h⟩ := h
    obtain ⟨rfl, hc⟩ := yields_pure.1 h
    cases hc
    exact ⟨read ++ [semi], by simp, .returnValue hk hr hs⟩

include hs

theorem ifStatement_sound {k : Token} (hk : k.kind = .keyword .kwIf) {ts us : List Token} {lo hi : Label} {s : Stmt}
    (h : (ifStatement expression statement).Yields ⟨ts, lo⟩ s ⟨us, hi⟩) :
    ∃ read o, ts = read ++ us ∧ (Phrase.statement o s).Reads lo (k :: read) hi ∧
      (o = true → headKind us ≠ .keyword .kwElse) := by
  unfold ifStatement at h
  rw [yields_expect (by simp)] at h
  obtain ⟨t₁, vs, rfl, h₁, h⟩ := h
  rw [yields_bind] at h
  obtain ⟨c, vs, mid, hc, h⟩ := h
  obtain ⟨read, rfl, hr⟩ := he hc
  rw [yields_expect (by simp)] at h
  obtain ⟨t₂, vs, rfl, h₂, h⟩ := h
  rw [yields_bind] at h
  obtain ⟨t, ws, mid', ht, h⟩ := h
  obtain ⟨read', o, rfl, hr', ho⟩ := hs ht
  rw [yields_accept (by simp)] at h
  obtain ⟨t₃, ws, rfl, h₃, h⟩ | ⟨hn, h⟩ := h
  · -- the `else` was left over, so the branch does not claim it
    have hof : o = false := by
      cases o with
      | false => rfl
      | true => exact absurd h₃ (ho rfl)
    subst hof
    simp only [if_true, yields_bind, yields_pure] at h
    obtain ⟨e, vs, mid'', hb, rfl, hc⟩ := h
    cases hc
    obtain ⟨read'', o, rfl, hr'', ho⟩ := hs hb
    exact ⟨t₁ :: read ++ t₂ :: (read' ++ t₃ :: read''), o, by simp, .ifElse hk h₁ hr h₂ hr' h₃ hr'', ho⟩
  · simp only [Bool.false_eq_true, if_false, yields_pure] at h
    obtain ⟨rfl, hc⟩ := h
    cases hc
    exact ⟨t₁ :: read ++ t₂ :: read', true, by simp, .ifThen hk h₁ hr h₂ hr', fun _ => hn⟩

theorem whileStatement_sound {k : Token} (hk : k.kind = .keyword .kwWhile) {ts us : List Token} {lo hi : Label}
    {s : Stmt} (h : (whileStatement expression statement).Yields ⟨ts, lo⟩ s ⟨us, hi⟩) :
    ∃ read o, ts = read ++ us ∧ (Phrase.statement o s).Reads lo (k :: read) hi ∧
      (o = true → headKind us ≠ .keyword .kwElse) := by
  unfold whileStatement at h
  rw [yields_expect (by simp)] at h
  obtain ⟨t₁, vs, rfl, h₁, h⟩ := h
  rw [yields_bind] at h
  obtain ⟨c, vs, mid, hc, h⟩ := h
  obtain ⟨read, rfl, hr⟩ := he hc
  rw [yields_expect (by simp)] at h
  obtain ⟨t₂, vs, rfl, h₂, h⟩ := h
  simp only [yields_bind, yields_pure] at h
  obtain ⟨b, ws, mid', hb, rfl, hc⟩ := h
  cases hc
  obtain ⟨read', o, rfl, hr', ho⟩ := hs hb
  exact ⟨t₁ :: read ++ t₂ :: read', o, by simp, .whileLoop hk h₁ hr h₂ hr', ho⟩

theorem forStatement_sound {k : Token} (hk : k.kind = .keyword .kwFor) {ts us : List Token} {lo hi : Label} {s : Stmt}
    (h : (forStatement expression statement).Yields ⟨ts, lo⟩ s ⟨us, hi⟩) :
    ∃ read o, ts = read ++ us ∧ (Phrase.statement o s).Reads lo (k :: read) hi ∧
      (o = true → headKind us ≠ .keyword .kwElse) := by
  unfold forStatement at h
  rw [yields_expect (by simp)] at h
  obtain ⟨t₁, vs, rfl, h₁, h⟩ := h
  rw [yields_bind] at h
  obtain ⟨first, vs, l₁, hf, h⟩ := h
  obtain ⟨read₁, rfl, hr₁⟩ := forInitializer_sound he hf
  rw [yields_bind] at h
  obtain ⟨c, vs, l₂, hc, h⟩ := h
  obtain ⟨read₂, rfl, hr₂⟩ := forCondition_sound he hc
  rw [yields_expect (by simp)] at h
  obtain ⟨t₂, vs, rfl, h₂, h⟩ := h
  rw [yields_bind] at h
  obtain ⟨i, vs, l₃, hinc, h⟩ := h
  obtain ⟨read₃, rfl, hr₃⟩ := forIncrement_sound he hinc
  rw [yields_expect (by simp)] at h
  obtain ⟨t₃, vs, rfl, h₃, h⟩ := h
  rw [yields_bind] at h
  obtain ⟨b, ws, l₄, hb, h⟩ := h
  obtain ⟨read₄, o, rfl, hr₄, ho⟩ := hs hb
  have hs' : s = .forLoop first c b i ∧ (⟨us, hi⟩ : Cursor) = ⟨ws, l₄⟩ := by
    unfold Stmt.forLoop
    split at h <;> exact yields_pure.1 h
  obtain ⟨rfl, hcur⟩ := hs'
  cases hcur
  exact ⟨t₁ :: read₁ ++ (read₂ ++ t₂ :: (read₃ ++ t₃ :: read₄)), o, by simp,
    .forLoop hk h₁ hr₁ hr₂ h₂ hr₃ h₃ hr₄, ho⟩

end Compound

/-! ## declarations -/

/-- The declarations go up to the end of the source, or also up to a closing brace. -/
def AtEnd (inBraces : Bool) (ts : List Token) : Prop :=
  headKind ts = .eof ∨ (inBraces = true ∧ headKind ts = .mark .rightBrace)

/-- The rules that read statements and declarations are sound with some fuel. -/
structure StatementsSound (n : Nat) : Prop where
  statement : (statement n).SoundStatement
  declaration : ∀ {ts lo o us hi}, (declaration n).Yields ⟨ts, lo⟩ o ⟨us, hi⟩ →
    ∃ s read, o = some s ∧ ts = read ++ us ∧ (Phrase.declaration s).Reads lo read hi
  declarations : ∀ {inBraces ts lo body us hi}, (declarations n inBraces).Yields ⟨ts, lo⟩ body ⟨us, hi⟩ →
    AtEnd inBraces us ∧ ∃ read, ts = read ++ us ∧ (Phrase.declarations body).Reads lo read hi
  function : ∀ kind, (function n kind).Sound .function
  methods : (methods n).Sound .methods

/-- The semicolon that ends a statement. -/
theorem semicolon_sound {what : Expected} {ts us : List Token} {lo hi : Label} {s s' : Stmt}
    (h : (do let _ ← expect (.mark .semicolon) what; pure s' : Rule Stmt).Yields ⟨ts, lo⟩ s ⟨us, hi⟩) :
    s = s' ∧ lo = hi ∧ ∃ semi, ts = semi :: us ∧ semi.kind = .mark .semicolon := by
  rw [yields_expect (by simp)] at h
  obtain ⟨semi, ws, rfl, hs, h⟩ := h
  obtain ⟨rfl, hc⟩ := yields_pure.1 h
  cases hc
  exact ⟨rfl, rfl, semi, rfl, hs⟩

theorem statement_sound (ih : StatementsSound n) : (statement (n + 1)).SoundStatement := by
  have he : (expression n).Sound .expression := (expressions_sound n).expression
  intro ts lo s us hi h
  simp only [statement, yields_peek, kind_peek] at h
  split at h
  · next hk =>
    obtain ⟨t, vs, rfl, ht⟩ := eq_cons_of_headKind hk (by simp)
    obtain ⟨read, o, rfl, hr, ho⟩ := forStatement_sound he ih.statement ht (yields_advance.1 h)
    exact ⟨t :: read, o, rfl, hr, ho⟩
  · next hk =>
    obtain ⟨t, vs, rfl, ht⟩ := eq_cons_of_headKind hk (by simp)
    obtain ⟨read, o, rfl, hr, ho⟩ := ifStatement_sound he ih.statement ht (yields_advance.1 h)
    exact ⟨t :: read, o, rfl, hr, ho⟩
  · next hk =>
    obtain ⟨t, vs, rfl, ht⟩ := eq_cons_of_headKind hk (by simp)
    obtain ⟨read, o, rfl, hr, ho⟩ := whileStatement_sound he ih.statement ht (yields_advance.1 h)
    exact ⟨t :: read, o, rfl, hr, ho⟩
  · next hk =>
    obtain ⟨t, vs, rfl, ht⟩ := eq_cons_of_headKind hk (by simp)
    obtain ⟨read, rfl, hr⟩ := returnStatement_sound he ht (yields_advance.1 h)
    exact ⟨t :: read, false, rfl, hr, by simp⟩
  · next hk =>
    obtain ⟨t, vs, rfl, ht⟩ := eq_cons_of_headKind hk (by simp)
    obtain ⟨rfl, rfl, semi, hsemi, hs⟩ := semicolon_sound (yields_advance.1 h)
    rw [List.tail_cons] at hsemi
    subst hsemi
    exact ⟨[t, semi], false, rfl, .breakLoop ht hs, by simp⟩
  · next hk =>
    obtain ⟨t, vs, rfl, ht⟩ := eq_cons_of_headKind hk (by simp)
    obtain ⟨rfl, rfl, semi, hsemi, hs⟩ := semicolon_sound (yields_advance.1 h)
    rw [List.tail_cons] at hsemi
    subst hsemi
    exact ⟨[t, semi], false, rfl, .continueLoop ht hs, by simp⟩
  · next hk =>
    obtain ⟨t, vs, rfl, ht⟩ := eq_cons_of_headKind hk (by simp)
    rw [yields_advance, List.tail_cons, yields_bind] at h
    obtain ⟨body, ws, mid, hb, h⟩ := h
    obtain ⟨-, read, rfl, hr⟩ := ih.declarations hb
    rw [yields_expect (by simp)] at h
    obtain ⟨close, ws, rfl, hclose, h⟩ := h
    obtain ⟨rfl, hc⟩ := yields_pure.1 h
    cases hc
    exact ⟨t :: read ++ [close], false, by simp, .block ht hr hclose, by simp⟩
  · next hk =>
    obtain ⟨t, vs, rfl, ht⟩ := eq_cons_of_headKind hk (by simp)
    obtain ⟨read, rfl, hr⟩ := printStatement_sound he ht (yields_advance.1 h)
    exact ⟨t :: read, false, rfl, hr, by simp⟩
  · obtain ⟨read, rfl, hr⟩ := expressionStatement_sound he h
    exact ⟨read, false, rfl, .expressionOnly hr, by simp⟩

theorem superclass_sound : superclass.Sound .superclass := by
  intro ts lo s us hi h
  unfold superclass at h
  rw [yields_accept (by simp)] at h
  obtain ⟨t, ws, rfl, hk, h⟩ | ⟨-, h⟩ := h
  · rw [if_pos rfl, yields_expect (by simp)] at h
    obtain ⟨name, ws, rfl, hn, h⟩ := h
    simp only [yields_label, yields_pure] at h
    obtain ⟨rfl, hc⟩ := h
    cases hc
    exact ⟨[t, name], rfl, .someSuperclass hk hn⟩
  · rw [if_neg (by simp)] at h
    obtain ⟨rfl, hc⟩ := yields_pure.1 h
    cases hc
    exact ⟨[], rfl, .noSuperclass⟩

theorem classDeclaration_sound {methods : Rule (List FunctionDecl)} (hm : methods.Sound .methods) {k : Token}
    (hk : k.kind = .keyword .kwClass) {ts us : List Token} {lo hi : Label} {s : Stmt}
    (h : (classDeclaration methods).Yields ⟨ts, lo⟩ s ⟨us, hi⟩) :
    ∃ read, ts = read ++ us ∧ (Phrase.declaration s).Reads lo (k :: read) hi := by
  unfold classDeclaration at h
  rw [yields_expect (by simp)] at h
  obtain ⟨name, vs, rfl, hn, h⟩ := h
  rw [yields_bind] at h
  obtain ⟨o, vs, mid, ho, h⟩ := h
  obtain ⟨read, rfl, hr⟩ := superclass_sound ho
  rw [yields_expect (by simp)] at h
  obtain ⟨t₁, vs, rfl, h₁, h⟩ := h
  rw [yields_bind] at h
  obtain ⟨ms, vs, mid', hms, h⟩ := h
  obtain ⟨read', rfl, hr'⟩ := hm hms
  rw [yields_expect (by simp)] at h
  obtain ⟨t₂, vs, rfl, h₂, h⟩ := h
  obtain ⟨rfl, hc⟩ := yields_pure.1 h
  cases hc
  exact ⟨name :: read ++ t₁ :: (read' ++ [t₂]), by simp, .classDecl hk hn hr h₁ hr' h₂⟩

theorem declaration_sound (ih : StatementsSound n) {ts us : List Token} {lo hi : Label} {o : Option Stmt}
    (h : (declaration (n + 1)).Yields ⟨ts, lo⟩ o ⟨us, hi⟩) :
    ∃ s read, o = some s ∧ ts = read ++ us ∧ (Phrase.declaration s).Reads lo read hi := by
  simp only [declaration, yields_recover, yields_peek, kind_peek] at h
  obtain ⟨s, rfl, h⟩ := h
  split at h
  · next hk =>
    obtain ⟨t, vs, rfl, ht⟩ := eq_cons_of_headKind hk (by simp)
    obtain ⟨read, rfl, hr⟩ := classDeclaration_sound ih.methods ht (yields_advance.1 h)
    exact ⟨s, t :: read, rfl, rfl, hr⟩
  · next hk =>
    obtain ⟨t, vs, rfl, ht⟩ := eq_cons_of_headKind hk (by simp)
    rw [yields_advance, List.tail_cons] at h
    simp only [yields_bind, yields_pure] at h
    obtain ⟨d, ws, mid, hd, rfl, hc⟩ := h
    cases hc
    obtain ⟨read, rfl, hr⟩ := ih.function _ hd
    exact ⟨_, t :: read, rfl, rfl, .funDecl ht hr⟩
  · next hk =>
    obtain ⟨t, vs, rfl, ht⟩ := eq_cons_of_headKind hk (by simp)
    obtain ⟨read, rfl, hr⟩ := varDeclaration_sound (expressions_sound n).expression (yields_advance.1 h)
    exact ⟨s, t :: read, rfl, rfl, .varDecl ht hr⟩
  · obtain ⟨read, o, rfl, hr, -⟩ := ih.statement h
    exact ⟨s, read, rfl, rfl, .noDeclaration hr⟩

theorem declarations_sound (ih : StatementsSound n) {inBraces : Bool} {ts us : List Token} {lo hi : Label}
    {body : List Stmt} (h : (declarations (n + 1) inBraces).Yields ⟨ts, lo⟩ body ⟨us, hi⟩) :
    AtEnd inBraces us ∧ ∃ read, ts = read ++ us ∧ (Phrase.declarations body).Reads lo read hi := by
  simp only [declarations, yields_peek, yields_ite] at h
  obtain ⟨hend, h⟩ | ⟨-, h⟩ := h
  · obtain ⟨rfl, hc⟩ := yields_pure.1 h
    cases hc
    simp only [Bool.or_eq_true, Bool.and_eq_true, decide_eq_true_eq] at hend
    exact ⟨hend, [], rfl, .declarationsEnd⟩
  · simp only [yields_bind, yields_pure] at h
    obtain ⟨o, vs, mid, ho, rest, ws, mid', hrest, rfl, hc⟩ := h
    cases hc
    obtain ⟨s, read, rfl, rfl, hr⟩ := ih.declaration ho
    obtain ⟨hend, read', rfl, hr'⟩ := ih.declarations hrest
    exact ⟨hend, read ++ read', by simp, .declarationsMore hr hr'⟩

theorem parameterNames_sound (n count : Nat) : (parameterNames n count).Sound (.parameterNames count) := by
  induction n generalizing count with
  | zero => exact sound_outOfFuel _
  | succ n ih =>
    intro ts lo names us hi h
    simp only [parameterNames, yields_checkCount] at h
    obtain ⟨hcount, h⟩ := h
    rw [yields_expect (by simp)] at h
    obtain ⟨name, vs, rfl, hn, h⟩ := h
    rw [yields_accept (by simp)] at h
    obtain ⟨t, ws, rfl, hk, h⟩ | ⟨-, h⟩ := h
    · simp only [if_true, yields_bind, yields_pure] at h
      obtain ⟨rest, ws, mid, hrest, rfl, hc⟩ := h
      cases hc
      obtain ⟨read, rfl, hr⟩ := ih (count + 1) hrest
      exact ⟨name :: t :: read, rfl, .moreParameters hcount hn hk hr⟩
    · simp only [Bool.false_eq_true, if_false, yields_pure] at h
      obtain ⟨rfl, hc⟩ := h
      cases hc
      exact ⟨[name], rfl, .lastParameter hcount hn⟩

theorem parameters_sound (n : Nat) :
    (do if ← nextIs (.mark .rightParen) then pure [] else parameterNames n 0 : Rule (List Token)).Sound
      .parameters := by
  intro ts lo names us hi h
  rw [yields_nextIs] at h
  split at h
  · obtain ⟨rfl, hc⟩ := yields_pure.1 h
    cases hc
    exact ⟨[], rfl, .noParameters⟩
  · obtain ⟨read, rfl, hr⟩ := parameterNames_sound n 0 h
    exact ⟨read, rfl, .someParameters hr⟩

theorem function_sound (ih : StatementsSound n) (kind : Body) : (function (n + 1) kind).Sound .function := by
  intro ts lo d us hi h
  simp only [function] at h
  rw [yields_expect (by simp)] at h
  obtain ⟨name, vs, rfl, hn, h⟩ := h
  rw [yields_expect (by simp)] at h
  obtain ⟨t₁, vs, rfl, h₁, h⟩ := h
  rw [yields_bind] at h
  obtain ⟨params, vs, mid, hp, h⟩ := h
  obtain ⟨read, rfl, hr⟩ := parameters_sound n hp
  rw [yields_expect (by simp)] at h
  obtain ⟨t₂, vs, rfl, h₂, h⟩ := h
  rw [yields_expect (by simp)] at h
  obtain ⟨t₃, vs, rfl, h₃, h⟩ := h
  rw [yields_bind] at h
  obtain ⟨body, vs, mid', hb, h⟩ := h
  obtain ⟨-, read', rfl, hr'⟩ := ih.declarations hb
  rw [yields_expect (by simp)] at h
  obtain ⟨t₄, vs, rfl, h₄, h⟩ := h
  obtain ⟨rfl, hc⟩ := yields_pure.1 h
  cases hc
  exact ⟨name :: t₁ :: read ++ t₂ :: t₃ :: (read' ++ [t₄]), by simp, .function hn h₁ hr h₂ h₃ hr' h₄⟩

theorem methods_sound (ih : StatementsSound n) : (methods (n + 1)).Sound .methods := by
  intro ts lo ds us hi h
  simp only [methods, yields_peek, yields_ite] at h
  obtain ⟨-, h⟩ | ⟨-, h⟩ := h
  · obtain ⟨rfl, hc⟩ := yields_pure.1 h
    cases hc
    exact ⟨[], rfl, .methodsEnd⟩
  · simp only [yields_bind, yields_pure] at h
    obtain ⟨d, vs, mid, hd, rest, ws, mid', hrest, rfl, hc⟩ := h
    cases hc
    obtain ⟨read, rfl, hr⟩ := ih.function _ hd
    obtain ⟨read', rfl, hr'⟩ := ih.methods hrest
    exact ⟨read ++ read', by simp, .methodsMore hr hr'⟩

/-- Every rule that reads statements and declarations is sound. -/
theorem statements_sound (n : Nat) : StatementsSound n := by
  induction n with
  | zero =>
    exact ⟨fun h => absurd h not_yields_outOfFuel, fun h => absurd h not_yields_outOfFuel,
      fun h => absurd h not_yields_outOfFuel, fun _ => sound_outOfFuel _, sound_outOfFuel _⟩
  | succ n ih =>
    exact ⟨statement_sound ih, declaration_sound ih, declarations_sound ih, function_sound ih, methods_sound ih⟩

end Rule

end ScriptLang
