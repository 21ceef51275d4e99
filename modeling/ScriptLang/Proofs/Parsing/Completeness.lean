import ScriptLang.Proofs.Parsing.Opening
import ScriptLang.Proofs.Parsing.Progress
import ScriptLang.Proofs.Parsing.Soundness

/-!
# Rules read every phrase

`r.Reaches c a c'` — the rule `r` succeeds with `a` at `c'` and reports nothing, unless it runs out of fuel.  A rule
reaches every phrase of its part of the grammar, whatever follows it, as long as that does not continue the phrase:
`Complete` says for each phrase what may follow.  With the fuel that `parse` supplies this gives `parse_of_reads`, and
with soundness `parse_eq_ok_iff`.
-/

namespace ScriptLang

namespace Rule

variable {α β : Type}

/-- The rule succeeds without a report, or runs out of fuel. -/
def Reaches (r : Rule α) (c : Cursor) (a : α) (c' : Cursor) : Prop := r c = .outOfFuel ∨ r.Yields c a c'

theorem Reaches.of_yields {r : Rule α} {c c' : Cursor} {a : α} (h : r.Yields c a c') : r.Reaches c a c' := .inr h

theorem reaches_outOfFuel {c c' : Cursor} {a : α} : (outOfFuel : Rule α).Reaches c a c' := .inl rfl

theorem reaches_pure {a : α} {c : Cursor} : (pure a : Rule α).Reaches c a c := .inr rfl

theorem Reaches.bind {r : Rule α} {f : α → Rule β} {c mid c' : Cursor} {a : α} {b : β} (hr : r.Reaches c a mid)
    (hf : (f a).Reaches mid b c') : (r >>= f).Reaches c b c' := by
  have hstep : r.Yields c a mid → (r >>= f) c = f a mid := by
    intro h
    show andThen r f c = _
    unfold andThen
    rw [h]
    exact Reply.after_nil _
  rcases hr with hr | hr
  · left
    show andThen r f c = _
    unfold andThen
    rw [hr]
  · unfold Reaches Yields
    rw [hstep hr]
    exact hf

theorem Reaches.recover {r : Rule α} {c c' : Cursor} {a : α} (h : r.Reaches c a c') :
    (Rule.recover r).Reaches c (some a) c' := by
  rcases h with h | h
  · left
    unfold Rule.recover
    rw [h]
  · exact .inr (yields_recover.2 ⟨a, rfl, h⟩)

section Primitive

variable {ts us : List Token} {t : Token} {k : Kind} {lo : Label} {b : β} {c' : Cursor}

theorem reaches_peek {f : Token → Rule β} (h : (f (Cursor.mk ts lo).peek).Reaches ⟨ts, lo⟩ b c') :
    (peek >>= f).Reaches ⟨ts, lo⟩ b c' :=
  Reaches.bind (.of_yields rfl) h

theorem reaches_advance {f : Token → Rule β} (h : (f t).Reaches ⟨us, lo⟩ b c') :
    (advance >>= f).Reaches ⟨t :: us, lo⟩ b c' :=
  Reaches.bind (.of_yields rfl) h

theorem reaches_label {f : Label → Rule β} (h : (f lo).Reaches ⟨ts, lo + 1⟩ b c') :
    (label >>= f).Reaches ⟨ts, lo⟩ b c' :=
  Reaches.bind (.of_yields rfl) h

theorem reaches_nextIs {f : Bool → Rule β} (hk : headKind ts = k) (h : (f true).Reaches ⟨ts, lo⟩ b c') :
    (nextIs k >>= f).Reaches ⟨ts, lo⟩ b c' :=
  Reaches.bind (.of_yields (nextIs_yields hk)) h

theorem reaches_nextIs_other {f : Bool → Rule β} (hk : headKind ts ≠ k) (h : (f false).Reaches ⟨ts, lo⟩ b c') :
    (nextIs k >>= f).Reaches ⟨ts, lo⟩ b c' :=
  Reaches.bind (.of_yields (nextIs_yields_other hk)) h

theorem reaches_expect {what : Expected} {f : Token → Rule β} (hk : t.kind = k) (h : (f t).Reaches ⟨us, lo⟩ b c') :
    (expect k what >>= f).Reaches ⟨t :: us, lo⟩ b c' :=
  Reaches.bind (.of_yields (expect_yields hk)) h

theorem reaches_accept {f : Bool → Rule β} (hk : t.kind = k) (h : (f true).Reaches ⟨us, lo⟩ b c') :
    (accept k >>= f).Reaches ⟨t :: us, lo⟩ b c' :=
  Reaches.bind (.of_yields (accept_yields hk)) h

theorem reaches_accept_other {f : Bool → Rule β} (hk : headKind ts ≠ k) (h : (f false).Reaches ⟨ts, lo⟩ b c') :
    (accept k >>= f).Reaches ⟨ts, lo⟩ b c' :=
  Reaches.bind (.of_yields (accept_yields_other hk)) h

theorem reaches_acceptBy {γ : Type} {meaning : Kind → Option γ} {g : γ} {f : Option (Token × γ) → Rule β}
    (hk : meaning t.kind = some g) (h : (f (some (t, g))).Reaches ⟨us, lo⟩ b c') :
    (acceptBy meaning >>= f).Reaches ⟨t :: us, lo⟩ b c' :=
  Reaches.bind (.of_yields (acceptBy_yields hk)) h

theorem reaches_acceptBy_other {γ : Type} {meaning : Kind → Option γ} {f : Option (Token × γ) → Rule β}
    (hk : meaning (headKind ts) = none) (h : (f none).Reaches ⟨ts, lo⟩ b c') :
    (acceptBy meaning >>= f).Reaches ⟨ts, lo⟩ b c' :=
  Reaches.bind (.of_yields (acceptBy_yields_other hk)) h

theorem reaches_checkCount {count : Nat} {cause : SyntaxFault} {f : Unit → Rule β} (hc : count < maxArity)
    (h : (f ()).Reaches ⟨ts, lo⟩ b c') : (checkCount count cause >>= f).Reaches ⟨ts, lo⟩ b c' := by
  refine Reaches.bind (a := ()) (.of_yields ?_) h
  unfold checkCount
  rw [if_neg (Nat.not_le.2 hc)]
  exact yields_pure.2 ⟨rfl, rfl⟩

end Primitive

end Rule

namespace Phrase

open Rule

/-- The rule of the phrase reaches it, before anything that does not continue it. -/
def Complete : Phrase → Label → List Token → Label → Prop
  | expression x, lo, ts, hi =>
    ∀ n rest, Stops 1 rest → (Rule.expression n).Reaches ⟨ts ++ rest, lo⟩ x ⟨rest, hi⟩
  | binary l x, lo, ts, hi =>
    ∀ n rest, Stops l.strength rest → (Rule.binary n l).Reaches ⟨ts ++ rest, lo⟩ x ⟨rest, hi⟩
  | operand l x, lo, ts, hi =>
    ∀ n rest, Stops (l.strength + 1) rest → (Rule.operand n l).Reaches ⟨ts ++ rest, lo⟩ x ⟨rest, hi⟩
  | binaryRest l left x, lo, ts, hi =>
    ∀ n rest, Stops l.strength rest → (Rule.binaryRest n l left).Reaches ⟨ts ++ rest, lo⟩ x ⟨rest, hi⟩
  | unary x, lo, ts, hi => ∀ n rest, Stops 8 rest → (Rule.unary n).Reaches ⟨ts ++ rest, lo⟩ x ⟨rest, hi⟩
  | call x, lo, ts, hi => ∀ n rest, Stops 9 rest → (Rule.call n).Reaches ⟨ts ++ rest, lo⟩ x ⟨rest, hi⟩
  | callRest f x, lo, ts, hi => ∀ n rest, Stops 9 rest → (Rule.callRest n f).Reaches ⟨ts ++ rest, lo⟩ x ⟨rest, hi⟩
  | arguments xs, lo, ts, hi => ∀ n rest, headKind rest = .mark .rightParen →
    (Rule.arguments n).Reaches ⟨ts ++ rest, lo⟩ xs ⟨rest, hi⟩
  | argumentList count xs, lo, ts, hi => ∀ n rest, headKind rest = .mark .rightParen →
    (Rule.argumentList n count).Reaches ⟨ts ++ rest, lo⟩ xs ⟨rest, hi⟩
  | primary x, lo, ts, hi => ∀ n rest, (Rule.primary n).Reaches ⟨ts ++ rest, lo⟩ x ⟨rest, hi⟩
  | varDeclaration s, lo, ts, hi =>
    ∀ n rest, (Rule.varDeclaration (Rule.expression n)).Reaches ⟨ts ++ rest, lo⟩ s ⟨rest, hi⟩
  | expressionStatement s, lo, ts, hi =>
    ∀ n rest, (Rule.expressionStatement (Rule.expression n)).Reaches ⟨ts ++ rest, lo⟩ s ⟨rest, hi⟩
  | forInitializer s, lo, ts, hi =>
    ∀ n rest, (Rule.forInitializer (Rule.expression n)).Reaches ⟨ts ++ rest, lo⟩ s ⟨rest, hi⟩
  | forCondition x, lo, ts, hi => ∀ n rest, headKind rest = .mark .semicolon →
    (Rule.forCondition (Rule.expression n)).Reaches ⟨ts ++ rest, lo⟩ x ⟨rest, hi⟩
  | forIncrement x, lo, ts, hi => ∀ n rest, headKind rest = .mark .rightParen →
    (Rule.forIncrement (Rule.expression n)).Reaches ⟨ts ++ rest, lo⟩ x ⟨rest, hi⟩
  | statement isOpen s, lo, ts, hi => ∀ n rest, (isOpen = true → headKind rest ≠ .keyword .kwElse) →
    (Rule.statement n).Reaches ⟨ts ++ rest, lo⟩ s ⟨rest, hi⟩
  | declaration s, lo, ts, hi => ∀ n rest, headKind rest ≠ .keyword .kwElse →
    (Rule.declaration n).Reaches ⟨ts ++ rest, lo⟩ (some s) ⟨rest, hi⟩
  | declarations body, lo, ts, hi => ∀ n inBraces rest, AtEnd inBraces rest →
    (Rule.declarations n inBraces).Reaches ⟨ts ++ rest, lo⟩ body ⟨rest, hi⟩
  | parameters names, lo, ts, hi => ∀ n rest, headKind rest = .mark .rightParen →
    (do if ← nextIs (.mark .rightParen) then pure [] else Rule.parameterNames n 0 : Rule (List Token)).Reaches
      ⟨ts ++ rest, lo⟩ names ⟨rest, hi⟩
  | parameterNames count names, lo, ts, hi => ∀ n rest, headKind rest = .mark .rightParen →
    (Rule.parameterNames n count).Reaches ⟨ts ++ rest, lo⟩ names ⟨rest, hi⟩
  | function d, lo, ts, hi => ∀ n kind rest, (Rule.function n kind).Reaches ⟨ts ++ rest, lo⟩ d ⟨rest, hi⟩
  | superclass s, lo, ts, hi => ∀ rest, headKind rest = .mark .leftBrace →
    Rule.superclass.Reaches ⟨ts ++ rest, lo⟩ s ⟨rest, hi⟩
  | methods ds, lo, ts, hi => ∀ n rest, headKind rest = .mark .rightBrace →
    (Rule.methods n).Reaches ⟨ts ++ rest, lo⟩ ds ⟨rest, hi⟩

variable {lo mid hi hi' : Label} {ts us : List Token} {t : Token} {x : Expr}

/-! ## expressions -/

theorem complete_operators (h : Complete (.binary .disjunction x) lo ts hi) : Complete (.expression x) lo ts hi := by
  intro n rest hrest
  cases n with
  | zero => exact reaches_outOfFuel
  | succ n =>
    simp only [Rule.expression]
    refine (h n rest (hrest.mono (by decide))).bind ?_
    refine reaches_peek (reaches_accept_other (hrest.ne (by decide)) ?_)
    exact reaches_acceptBy_other hrest.compound? reaches_pure

theorem complete_assign {target v : Expr} (h : Complete (.binary .disjunction target) lo ts mid)
    (hk : t.kind = .mark .equal) (hv : Complete (.expression v) mid us hi)
    (hx : target.assigned? hi v = some (x, hi')) : Complete (.expression x) lo (ts ++ t :: us) hi' := by
  intro n rest hrest
  cases n with
  | zero => exact reaches_outOfFuel
  | succ n =>
    simp only [Rule.expression, List.append_assoc, List.cons_append]
    refine (h n _ ?_).bind (reaches_peek (reaches_accept hk ?_))
    · refine stops_cons ?_
      rw [hk]
      decide
    · exact (hv n rest hrest).bind (.of_yields (yields_assignTo.2 ⟨hx, rfl⟩))

theorem complete_update {target v : Expr} {op : Mark} (h : Complete (.binary .disjunction target) lo ts mid)
    (hk : compound? t.kind = some op) (hv : Complete (.expression v) mid us hi)
    (hx : target.updated? hi (Token.ofMark op t.line) v = some (x, hi')) :
    Complete (.expression x) lo (ts ++ t :: us) hi' := by
  intro n rest hrest
  cases n with
  | zero => exact reaches_outOfFuel
  | succ n =>
    have hs : Kind.strength t.kind < 2 := by
      rw [strength_of_compound? hk]
      decide
    have hne : t.kind ≠ .mark .equal := by
      intro he
      rw [he] at hk
      cases hk
    simp only [Rule.expression, List.append_assoc, List.cons_append]
    refine (h n _ (stops_cons hs)).bind (reaches_peek (reaches_accept_other hne ?_))
    refine reaches_acceptBy hk ?_
    exact (hv n rest hrest).bind (.of_yields (yields_update.2 ⟨hx, rfl⟩))

theorem complete_binary {l : Level} {left : Expr} (h : Complete (.operand l left) lo ts mid)
    (hr : Complete (.binaryRest l left x) mid us hi) (ho : Opens (.binaryRest l left x) us) :
    Complete (.binary l x) lo (ts ++ us) hi := by
  intro n rest hrest
  cases n with
  | zero => exact reaches_outOfFuel
  | succ n =>
    simp only [Rule.binary, List.append_assoc]
    exact (h n _ (ho hrest)).bind (hr n rest hrest)

theorem complete_tighter {l inner : Level} (hl : l.tighter? = some inner) (h : Complete (.binary inner x) lo ts hi) :
    Complete (.operand l x) lo ts hi := by
  intro n rest hrest
  cases n with
  | zero => exact reaches_outOfFuel
  | succ n =>
    simp only [Rule.operand, hl]
    exact h n rest (by rw [Level.strength_tighter hl]; exact hrest)

theorem complete_tightest {l : Level} (hl : l.tighter? = none) (h : Complete (.unary x) lo ts hi) :
    Complete (.operand l x) lo ts hi := by
  intro n rest hrest
  cases n with
  | zero => exact reaches_outOfFuel
  | succ n =>
    rw [Level.strength_tightest hl] at hrest
    simp only [Rule.operand, hl]
    exact h n rest hrest

theorem complete_binaryEnd {l : Level} : Complete (.binaryRest l x x) lo [] lo := by
  intro n rest hrest
  cases n with
  | zero => exact reaches_outOfFuel
  | succ n =>
    simp only [Rule.binaryRest]
    exact reaches_acceptBy_other hrest.operator? reaches_pure

theorem complete_binaryMore {l : Level} {left right : Expr} (hk : t.kind ∈ l.operators)
    (h : Complete (.operand l right) lo ts mid) (hr : Complete (.binaryRest l (l.node left t right) x) mid us hi)
    (ho : Opens (.binaryRest l (l.node left t right) x) us) : Complete (.binaryRest l left x) lo (t :: ts ++ us) hi := by
  intro n rest hrest
  cases n with
  | zero => exact reaches_outOfFuel
  | succ n =>
    simp only [Rule.binaryRest, List.append_assoc, List.cons_append]
    refine reaches_acceptBy (g := ()) (operator?_eq_some.2 hk) ?_
    exact (h n _ (ho hrest)).bind (hr n rest hrest)

theorem complete_sign (hk : sign? t.kind = some ()) (h : Complete (.unary x) lo ts hi) :
    Complete (.unary (.unary t x)) lo (t :: ts) hi := by
  intro n rest hrest
  cases n with
  | zero => exact reaches_outOfFuel
  | succ n =>
    simp only [Rule.unary, List.cons_append]
    exact reaches_acceptBy hk ((h n rest hrest).bind reaches_pure)

theorem sign?_of_step? {k : Kind} {op : Mark} (h : step? k = some op) : sign? k = none := by
  unfold step? at h
  split at h <;> first | rfl | cases h

theorem complete_stepBefore {target : Expr} {op : Mark} (hk : step? t.kind = some op)
    (h : Complete (.unary target) lo ts hi) (hx : target.updated? hi (Token.ofMark op t.line) one = some (x, hi')) :
    Complete (.unary x) lo (t :: ts) hi' := by
  intro n rest hrest
  cases n with
  | zero => exact reaches_outOfFuel
  | succ n =>
    simp only [Rule.unary, List.cons_append]
    refine reaches_acceptBy_other (sign?_of_step? hk) (reaches_acceptBy hk ?_)
    exact (h n rest hrest).bind (.of_yields (yields_update.2 ⟨hx, rfl⟩))

/-- A primary expression does not begin with an operator. -/
theorem no_operator_of_opensPrimary {k : Kind} (h : k.opensPrimary = true) : sign? k = none ∧ step? k = none := by
  unfold Kind.opensPrimary at h
  split at h <;> first | exact ⟨rfl, rfl⟩ | cases h

theorem complete_stepBehind {target : Expr} {op : Mark} (h : Complete (.call target) lo ts hi)
    (ho : Opens (.call target) ts) (hk : step? t.kind = some op)
    (hx : target.updated? hi (Token.ofMark op t.line) one = some (x, hi')) :
    Complete (.unary x) lo (ts ++ [t]) hi' := by
  intro n rest hrest
  cases n with
  | zero => exact reaches_outOfFuel
  | succ n =>
    have hs : Kind.strength t.kind < 9 := by
      rw [strength_of_step? hk]
      decide
    obtain ⟨u, us, rfl, hu⟩ := ho
    obtain ⟨hu₁, hu₂⟩ := no_operator_of_opensPrimary hu
    simp only [Rule.unary, List.append_assoc, List.cons_append, List.nil_append]
    refine reaches_acceptBy_other hu₁ (reaches_acceptBy_other hu₂ ?_)
    refine (h n _ (stops_cons hs)).bind (reaches_acceptBy hk ?_)
    exact .of_yields (yields_update.2 ⟨hx, rfl⟩)

theorem complete_noStep (h : Complete (.call x) lo ts hi) (ho : Opens (.call x) ts) : Complete (.unary x) lo ts hi := by
  intro n rest hrest
  cases n with
  | zero => exact reaches_outOfFuel
  | succ n =>
    obtain ⟨u, us, rfl, hu⟩ := ho
    obtain ⟨hu₁, hu₂⟩ := no_operator_of_opensPrimary hu
    simp only [Rule.unary]
    refine reaches_acceptBy_other hu₁ (reaches_acceptBy_other hu₂ ?_)
    exact (h n rest (hrest.mono (by decide))).bind (reaches_acceptBy_other hrest.step? reaches_pure)

theorem complete_call {f : Expr} (h : Complete (.primary f) lo ts mid) (hr : Complete (.callRest f x) mid us hi) :
    Complete (.call x) lo (ts ++ us) hi := by
  intro n rest hrest
  cases n with
  | zero => exact reaches_outOfFuel
  | succ n =>
    simp only [Rule.call, List.append_assoc]
    exact (h n _).bind (hr n rest hrest)

theorem complete_callEnd : Complete (.callRest x x) lo [] lo := by
  intro n rest hrest
  cases n with
  | zero => exact reaches_outOfFuel
  | succ n =>
    simp only [Rule.callRest]
    refine reaches_accept_other (hrest.ne (by decide)) ?_
    exact reaches_accept_other (hrest.ne (by decide)) reaches_pure

theorem complete_callArguments {f : Expr} {args : List Expr} {paren : Token} (hk : t.kind = .mark .leftParen)
    (h : Complete (.arguments args) lo ts mid) (hp : paren.kind = .mark .rightParen)
    (hr : Complete (.callRest (.call f paren args) x) mid us hi) :
    Complete (.callRest f x) lo (t :: ts ++ paren :: us) hi := by
  intro n rest hrest
  cases n with
  | zero => exact reaches_outOfFuel
  | succ n =>
    simp only [Rule.callRest, List.append_assoc, List.cons_append]
    refine reaches_accept hk ((h n (paren :: (us ++ rest)) hp).bind ?_)
    exact reaches_expect hp (hr n rest hrest)

theorem complete_callProperty {f : Expr} {name : Token} (hk : t.kind = .mark .dot) (hn : name.kind = .identifier)
    (hr : Complete (.callRest (.get f name) x) lo us hi) : Complete (.callRest f x) lo (t :: name :: us) hi := by
  intro n rest hrest
  cases n with
  | zero => exact reaches_outOfFuel
  | succ n =>
    have hne : t.kind ≠ .mark .leftParen := by
      rw [hk]
      simp
    simp only [Rule.callRest, List.cons_append]
    refine reaches_accept_other hne (reaches_accept hk ?_)
    exact reaches_expect hn (hr n rest hrest)

theorem complete_noArguments : Complete (.arguments []) lo [] lo := by
  intro n rest hrest
  cases n with
  | zero => exact reaches_outOfFuel
  | succ n =>
    simp only [Rule.arguments]
    exact reaches_nextIs hrest reaches_pure

theorem opensExpression_ne {k k' : Kind} (h : k.opensExpression = true) (hk : k'.opensExpression = false) : k ≠ k' := by
  rintro rfl
  rw [h] at hk
  cases hk

theorem complete_someArguments {xs : List Expr} (h : Complete (.argumentList 0 xs) lo ts hi)
    (ho : Opens (.argumentList 0 xs) ts) : Complete (.arguments xs) lo ts hi := by
  intro n rest hrest
  cases n with
  | zero => exact reaches_outOfFuel
  | succ n =>
    obtain ⟨u, us, rfl, hu⟩ := ho
    simp only [Rule.arguments]
    exact reaches_nextIs_other (opensExpression_ne hu rfl) (h n rest hrest)

theorem complete_lastArgument {count : Nat} (hc : count < maxArity) (h : Complete (.expression x) lo ts hi) :
    Complete (.argumentList count [x]) lo ts hi := by
  intro n rest hrest
  cases n with
  | zero => exact reaches_outOfFuel
  | succ n =>
    simp only [Rule.argumentList]
    refine reaches_checkCount hc ((h n rest (stops_of_kind hrest rfl (by decide))).bind ?_)
    exact reaches_accept_other (by rw [hrest]; simp) reaches_pure

theorem complete_moreArguments {count : Nat} {xs : List Expr} (hc : count < maxArity)
    (h : Complete (.expression x) lo ts mid) (hk : t.kind = .mark .comma)
    (hr : Complete (.argumentList (count + 1) xs) mid us hi) :
    Complete (.argumentList count (x :: xs)) lo (ts ++ t :: us) hi := by
  intro n rest hrest
  cases n with
  | zero => exact reaches_outOfFuel
  | succ n =>
    simp only [Rule.argumentList, List.append_assoc, List.cons_append]
    refine reaches_checkCount hc ((h n _ (stops_cons_of_kind hk rfl (by decide))).bind ?_)
    exact reaches_accept hk ((hr n rest hrest).bind reaches_pure)

theorem complete_constant {v : Literal} (hk : constant? t.kind = some v) :
    Complete (.primary (.literal v)) lo [t] lo := by
  intro n rest
  cases n with
  | zero => exact reaches_outOfFuel
  | succ n =>
    simp only [Rule.primary, List.cons_append, List.nil_append]
    refine reaches_peek ?_
    rw [kind_peek, headKind_cons]
    unfold constant? at hk
    split at hk
    case h_6 => cases hk
    all_goals
      next ht =>
      rw [ht]
      cases hk
      exact reaches_advance reaches_pure

theorem complete_identifier (hk : t.kind = .identifier) : Complete (.primary (.variable lo t)) lo [t] (lo + 1) := by
  intro n rest
  cases n with
  | zero => exact reaches_outOfFuel
  | succ n =>
    simp only [Rule.primary, List.cons_append, List.nil_append]
    refine reaches_peek ?_
    rw [kind_peek, headKind_cons, hk]
    exact reaches_advance (reaches_label reaches_pure)

theorem complete_this (hk : t.kind = .keyword .kwThis) : Complete (.primary (.this lo t)) lo [t] (lo + 1) := by
  intro n rest
  cases n with
  | zero => exact reaches_outOfFuel
  | succ n =>
    simp only [Rule.primary, List.cons_append, List.nil_append]
    refine reaches_peek ?_
    rw [kind_peek, headKind_cons, hk]
    exact reaches_advance (reaches_label reaches_pure)

theorem complete_super {dot name : Token} (hk : t.kind = .keyword .kwSuper) (hd : dot.kind = .mark .dot)
    (hn : name.kind = .identifier) : Complete (.primary (.super lo t name)) lo [t, dot, name] (lo + 1) := by
  intro n rest
  cases n with
  | zero => exact reaches_outOfFuel
  | succ n =>
    simp only [Rule.primary, List.cons_append, List.nil_append]
    refine reaches_peek ?_
    rw [kind_peek, headKind_cons, hk]
    refine reaches_advance (reaches_expect hd (reaches_expect hn ?_))
    exact reaches_label reaches_pure

theorem complete_group {close : Token} (hk : t.kind = .mark .leftParen) (h : Complete (.expression x) lo ts hi)
    (hc : close.kind = .mark .rightParen) : Complete (.primary (.group x)) lo (t :: ts ++ [close]) hi := by
  intro n rest
  cases n with
  | zero => exact reaches_outOfFuel
  | succ n =>
    simp only [Rule.primary, List.append_assoc, List.cons_append, List.nil_append]
    refine reaches_peek ?_
    rw [kind_peek, headKind_cons, hk]
    refine reaches_advance ((h n _ (stops_cons_of_kind hc rfl (by decide))).bind ?_)
    exact reaches_expect hc reaches_pure

/-! ## simple statements -/

theorem complete_varPlain {name semi : Token} (hn : name.kind = .identifier) (hs : semi.kind = .mark .semicolon) :
    Complete (.varDeclaration (.varDecl name none)) lo [name, semi] lo := by
  intro n rest
  simp only [Rule.varDeclaration, List.cons_append, List.nil_append]
  refine reaches_expect hn (reaches_accept_other (by rw [headKind_cons, hs]; simp) ?_)
  exact reaches_expect hs reaches_pure

theorem complete_varValue {name semi : Token} (hn : name.kind = .identifier) (hk : t.kind = .mark .equal)
    (h : Complete (.expression x) lo ts hi) (hs : semi.kind = .mark .semicolon) :
    Complete (.varDeclaration (.varDecl name (some x))) lo (name :: t :: ts ++ [semi]) hi := by
  intro n rest
  simp only [Rule.varDeclaration, List.append_assoc, List.cons_append, List.nil_append]
  refine reaches_expect hn (reaches_accept hk ?_)
  refine (h n _ (stops_cons_of_kind hs rfl (by decide))).bind ?_
  exact reaches_expect hs reaches_pure

theorem complete_expressionStatement {semi : Token} (h : Complete (.expression x) lo ts hi)
    (hs : semi.kind = .mark .semicolon) : Complete (.expressionStatement (.expr x)) lo (ts ++ [semi]) hi := by
  intro n rest
  simp only [Rule.expressionStatement, List.append_assoc, List.cons_append, List.nil_append]
  refine (h n _ (stops_cons_of_kind hs rfl (by decide))).bind ?_
  exact reaches_expect hs reaches_pure

/-! ## the clauses of a for loop -/

theorem complete_noInitializer {semi : Token} (hs : semi.kind = .mark .semicolon) :
    Complete (.forInitializer none) lo [semi] lo := by
  intro n rest
  simp only [Rule.forInitializer, List.cons_append, List.nil_append]
  exact reaches_accept hs reaches_pure

theorem complete_varInitializer {s : Stmt} (hk : t.kind = .keyword .kwVar) (h : Complete (.varDeclaration s) lo ts hi) :
    Complete (.forInitializer (some s)) lo (t :: ts) hi := by
  intro n rest
  simp only [Rule.forInitializer, List.cons_append]
  refine reaches_accept_other (by rw [headKind_cons, hk]; simp) (reaches_accept hk ?_)
  exact (h n rest).bind reaches_pure

theorem complete_expressionInitializer {s : Stmt} (h : Complete (.expressionStatement s) lo ts hi)
    (ho : Opens (.expressionStatement s) ts) : Complete (.forInitializer (some s)) lo ts hi := by
  intro n rest
  obtain ⟨u, us, rfl, hu⟩ := ho
  simp only [Rule.forInitializer]
  refine reaches_accept_other (opensExpression_ne hu rfl) (reaches_accept_other (opensExpression_ne hu rfl) ?_)
  exact (h n rest).bind reaches_pure

theorem complete_noCondition : Complete (.forCondition (.literal (.bool true))) lo [] lo := by
  intro n rest hrest
  unfold Rule.forCondition
  exact reaches_nextIs hrest reaches_pure

theorem complete_someCondition (h : Complete (.expression x) lo ts hi) (ho : Opens (.expression x) ts) :
    Complete (.forCondition x) lo ts hi := by
  intro n rest hrest
  obtain ⟨u, us, rfl, hu⟩ := ho
  unfold Rule.forCondition
  refine reaches_nextIs_other (opensExpression_ne hu rfl) ?_
  exact h n rest (stops_of_kind hrest rfl (by decide))

theorem complete_noIncrement : Complete (.forIncrement none) lo [] lo := by
  intro n rest hrest
  unfold Rule.forIncrement
  exact reaches_nextIs hrest reaches_pure

theorem complete_someIncrement (h : Complete (.expression x) lo ts hi) (ho : Opens (.expression x) ts) :
    Complete (.forIncrement (some x)) lo ts hi := by
  intro n rest hrest
  obtain ⟨u, us, rfl, hu⟩ := ho
  unfold Rule.forIncrement
  refine reaches_nextIs_other (opensExpression_ne hu rfl) ?_
  exact (h n rest (stops_of_kind hrest rfl (by decide))).bind reaches_pure

/-! ## statements -/

theorem complete_forLoop {o : Bool} {first : Option Stmt} {c : Expr} {i : Option Expr} {body : Stmt} {l₁ l₂ l₃ : Label}
    {k t₁ t₂ t₃ : Token} {ts₁ ts₂ ts₃ ts₄ : List Token} (hk : k.kind = .keyword .kwFor)
    (h₁ : t₁.kind = .mark .leftParen) (hf : Complete (.forInitializer first) lo ts₁ l₁)
    (hc : Complete (.forCondition c) l₁ ts₂ l₂) (h₂ : t₂.kind = .mark .semicolon)
    (hi₃ : Complete (.forIncrement i) l₂ ts₃ l₃) (h₃ : t₃.kind = .mark .rightParen)
    (hb : Complete (.statement o body) l₃ ts₄ hi) :
    Complete (.statement o (.forLoop first c body i)) lo (k :: t₁ :: ts₁ ++ (ts₂ ++ t₂ :: (ts₃ ++ t₃ :: ts₄))) hi := by
  intro n rest hrest
  cases n with
  | zero => exact reaches_outOfFuel
  | succ n =>
    simp only [Rule.statement, List.append_assoc, List.cons_append]
    refine reaches_peek ?_
    rw [kind_peek, headKind_cons, hk]
    refine reaches_advance ?_
    unfold Rule.forStatement
    refine reaches_expect h₁ ((hf n _).bind ?_)
    refine (hc n (t₂ :: (ts₃ ++ t₃ :: (ts₄ ++ rest))) h₂).bind (reaches_expect h₂ ?_)
    refine (hi₃ n (t₃ :: (ts₄ ++ rest)) h₃).bind (reaches_expect h₃ ((hb n rest hrest).bind ?_))
    unfold Stmt.forLoop
    cases first with
    | some s => exact reaches_pure
    | none => exact reaches_pure

section Branches

variable {o : Bool} {c : Expr} {s e : Stmt} {l₁ l₂ : Label} {k t₁ t₂ t₃ : Token} {vs : List Token}

theorem complete_ifThen (hk : k.kind = .keyword .kwIf) (h₁ : t₁.kind = .mark .leftParen)
    (hc : Complete (.expression c) lo ts mid) (h₂ : t₂.kind = .mark .rightParen)
    (hs : Complete (.statement o s) mid us hi) :
    Complete (.statement true (.ifThen c s)) lo (k :: t₁ :: ts ++ t₂ :: us) hi := by
  intro n rest hrest
  cases n with
  | zero => exact reaches_outOfFuel
  | succ n =>
    simp only [Rule.statement, List.append_assoc, List.cons_append]
    refine reaches_peek ?_
    rw [kind_peek, headKind_cons, hk]
    refine reaches_advance ?_
    unfold Rule.ifStatement
    refine reaches_expect h₁ ((hc n _ (stops_cons_of_kind h₂ rfl (by decide))).bind (reaches_expect h₂ ?_))
    exact (hs n rest fun _ => hrest rfl).bind (reaches_accept_other (hrest rfl) reaches_pure)

theorem complete_ifElse (hk : k.kind = .keyword .kwIf) (h₁ : t₁.kind = .mark .leftParen)
    (hc : Complete (.expression c) lo ts l₁) (h₂ : t₂.kind = .mark .rightParen)
    (hs : Complete (.statement false s) l₁ us l₂) (h₃ : t₃.kind = .keyword .kwElse)
    (he : Complete (.statement o e) l₂ vs hi) :
    Complete (.statement o (.ifElse c s e)) lo (k :: t₁ :: ts ++ t₂ :: (us ++ t₃ :: vs)) hi := by
  intro n rest hrest
  cases n with
  | zero => exact reaches_outOfFuel
  | succ n =>
    simp only [Rule.statement, List.append_assoc, List.cons_append]
    refine reaches_peek ?_
    rw [kind_peek, headKind_cons, hk]
    refine reaches_advance ?_
    unfold Rule.ifStatement
    refine reaches_expect h₁ ((hc n _ (stops_cons_of_kind h₂ rfl (by decide))).bind (reaches_expect h₂ ?_))
    refine (hs n _ (by simp)).bind (reaches_accept h₃ ?_)
    exact (he n rest hrest).bind reaches_pure

theorem complete_whileLoop (hk : k.kind = .keyword .kwWhile) (h₁ : t₁.kind = .mark .leftParen)
    (hc : Complete (.expression c) lo ts mid) (h₂ : t₂.kind = .mark .rightParen)
    (hs : Complete (.statement o s) mid us hi) :
    Complete (.statement o (.loop c s none)) lo (k :: t₁ :: ts ++ t₂ :: us) hi := by
  intro n rest hrest
  cases n with
  | zero => exact reaches_outOfFuel
  | succ n =>
    simp only [Rule.statement, List.append_assoc, List.cons_append]
    refine reaches_peek ?_
    rw [kind_peek, headKind_cons, hk]
    refine reaches_advance ?_
    unfold Rule.whileStatement
    refine reaches_expect h₁ ((hc n _ (stops_cons_of_kind h₂ rfl (by decide))).bind (reaches_expect h₂ ?_))
    exact (hs n rest hrest).bind reaches_pure

end Branches

section Jumps

variable {k semi : Token}

theorem complete_returnNothing (hk : k.kind = .keyword .kwReturn) (hs : semi.kind = .mark .semicolon) :
    Complete (.statement false (.returnFrom k none)) lo [k, semi] lo := by
  intro n rest _
  cases n with
  | zero => exact reaches_outOfFuel
  | succ n =>
    simp only [Rule.statement, List.cons_append, List.nil_append]
    refine reaches_peek ?_
    rw [kind_peek, headKind_cons, hk]
    refine reaches_advance ?_
    unfold Rule.returnStatement
    exact reaches_nextIs hs (reaches_expect hs reaches_pure)

theorem complete_returnValue (hk : k.kind = .keyword .kwReturn) (h : Complete (.expression x) lo ts hi)
    (ho : Opens (.expression x) ts) (hs : semi.kind = .mark .semicolon) :
    Complete (.statement false (.returnFrom k (some x))) lo (k :: ts ++ [semi]) hi := by
  intro n rest _
  cases n with
  | zero => exact reaches_outOfFuel
  | succ n =>
    simp only [Rule.statement, List.append_assoc, List.cons_append, List.nil_append]
    refine reaches_peek ?_
    rw [kind_peek, headKind_cons, hk]
    refine reaches_advance ?_
    unfold Rule.returnStatement
    obtain ⟨u, us, rfl, hu⟩ := ho
    refine reaches_nextIs_other (opensExpression_ne hu rfl) ?_
    refine (h n _ (stops_cons_of_kind hs rfl (by decide))).bind ?_
    exact reaches_expect hs reaches_pure

theorem complete_breakLoop (hk : k.kind = .keyword .kwBreak) (hs : semi.kind = .mark .semicolon) :
    Complete (.statement false (.breakLoop k)) lo [k, semi] lo := by
  intro n rest _
  cases n with
  | zero => exact reaches_outOfFuel
  | succ n =>
    simp only [Rule.statement, List.cons_append, List.nil_append]
    refine reaches_peek ?_
    rw [kind_peek, headKind_cons, hk]
    exact reaches_advance (reaches_expect hs reaches_pure)

theorem complete_continueLoop (hk : k.kind = .keyword .kwContinue) (hs : semi.kind = .mark .semicolon) :
    Complete (.statement false (.continueLoop k)) lo [k, semi] lo := by
  intro n rest _
  cases n with
  | zero => exact reaches_outOfFuel
  | succ n =>
    simp only [Rule.statement, List.cons_append, List.nil_append]
    refine reaches_peek ?_
    rw [kind_peek, headKind_cons, hk]
    exact reaches_advance (reaches_expect hs reaches_pure)

theorem complete_print (hk : k.kind = .keyword .kwPrint) (h : Complete (.expression x) lo ts hi)
    (hs : semi.kind = .mark .semicolon) : Complete (.statement false (.print k x)) lo (k :: ts ++ [semi]) hi := by
  intro n rest _
  cases n with
  | zero => exact reaches_outOfFuel
  | succ n =>
    simp only [Rule.statement, List.append_assoc, List.cons_append, List.nil_append]
    refine reaches_peek ?_
    rw [kind_peek, headKind_cons, hk]
    refine reaches_advance ?_
    unfold Rule.printStatement
    refine (h n _ (stops_cons_of_kind hs rfl (by decide))).bind ?_
    exact reaches_expect hs reaches_pure

end Jumps

theorem complete_block {body : List Stmt} {close : Token} (hk : t.kind = .mark .leftBrace)
    (h : Complete (.declarations body) lo ts hi) (hc : close.kind = .mark .rightBrace) :
    Complete (.statement false (.block body)) lo (t :: ts ++ [close]) hi := by
  intro n rest _
  cases n with
  | zero => exact reaches_outOfFuel
  | succ n =>
    simp only [Rule.statement, List.append_assoc, List.cons_append, List.nil_append]
    refine reaches_peek ?_
    rw [kind_peek, headKind_cons, hk]
    refine reaches_advance ((h n true (close :: rest) (.inr ⟨rfl, hc⟩)).bind ?_)
    exact reaches_expect hc reaches_pure

theorem complete_expressionOnly {s : Stmt} (h : Complete (.expressionStatement s) lo ts hi)
    (ho : Opens (.expressionStatement s) ts) : Complete (.statement false s) lo ts hi := by
  intro n rest _
  cases n with
  | zero => exact reaches_outOfFuel
  | succ n =>
    obtain ⟨u, us, rfl, hu⟩ := ho
    simp only [Rule.statement]
    refine reaches_peek ?_
    rw [kind_peek, List.cons_append, headKind_cons]
    -- every other branch is for a kind that opens no expression
    split
    case h_9 => exact h n rest
    all_goals
      next hk => exact absurd hk (opensExpression_ne hu rfl)

/-! ## declarations -/

theorem complete_classDecl {name k t₁ t₂ : Token} {s : Option Expr} {ms : List FunctionDecl} {ts₁ ts₂ : List Token}
    (hk : k.kind = .keyword .kwClass) (hn : name.kind = .identifier) (hs : Complete (.superclass s) lo ts₁ mid)
    (h₁ : t₁.kind = .mark .leftBrace) (hm : Complete (.methods ms) mid ts₂ hi) (h₂ : t₂.kind = .mark .rightBrace) :
    Complete (.declaration (.classDecl name s ms)) lo (k :: name :: ts₁ ++ t₁ :: (ts₂ ++ [t₂])) hi := by
  intro n rest _
  cases n with
  | zero => exact reaches_outOfFuel
  | succ n =>
    simp only [Rule.declaration, List.append_assoc, List.cons_append, List.nil_append]
    refine Reaches.recover (reaches_peek ?_)
    rw [kind_peek, headKind_cons, hk]
    refine reaches_advance ?_
    unfold Rule.classDeclaration
    refine reaches_expect hn ((hs (t₁ :: (ts₂ ++ t₂ :: rest)) h₁).bind (reaches_expect h₁ ?_))
    exact (hm n (t₂ :: rest) h₂).bind (reaches_expect h₂ reaches_pure)

theorem complete_funDecl {d : FunctionDecl} (hk : t.kind = .keyword .kwFun) (h : Complete (.function d) lo ts hi) :
    Complete (.declaration (.funDecl d)) lo (t :: ts) hi := by
  intro n rest _
  cases n with
  | zero => exact reaches_outOfFuel
  | succ n =>
    simp only [Rule.declaration, List.cons_append]
    refine Reaches.recover (reaches_peek ?_)
    rw [kind_peek, headKind_cons, hk]
    exact reaches_advance ((h n _ rest).bind reaches_pure)

theorem complete_varDecl {s : Stmt} (hk : t.kind = .keyword .kwVar) (h : Complete (.varDeclaration s) lo ts hi) :
    Complete (.declaration s) lo (t :: ts) hi := by
  intro n rest _
  cases n with
  | zero => exact reaches_outOfFuel
  | succ n =>
    simp only [Rule.declaration, List.cons_append]
    refine Reaches.recover (reaches_peek ?_)
    rw [kind_peek, headKind_cons, hk]
    exact reaches_advance (h n rest)

theorem complete_noDeclaration {o : Bool} {s : Stmt} (h : Complete (.statement o s) lo ts hi)
    (ho : Opens (.statement o s) ts) : Complete (.declaration s) lo ts hi := by
  intro n rest hrest
  cases n with
  | zero => exact reaches_outOfFuel
  | succ n =>
    obtain ⟨u, us, rfl, hu⟩ := ho
    simp only [Rule.declaration]
    refine Reaches.recover (reaches_peek ?_)
    rw [kind_peek, List.cons_append, headKind_cons]
    split
    case h_4 => exact h n rest fun _ => hrest
    all_goals
      next hk =>
      rw [hk] at hu
      cases hu

theorem complete_declarationsEnd : Complete (.declarations []) lo [] lo := by
  intro n inBraces rest hrest
  cases n with
  | zero => exact reaches_outOfFuel
  | succ n =>
    simp only [Rule.declarations]
    refine reaches_peek ?_
    rw [if_pos ?_]
    · exact reaches_pure
    · rw [List.nil_append, kind_peek]
      rcases hrest with hrest | ⟨rfl, hrest⟩ <;> simp [hrest]

/-- What stands behind a declaration is no `else`. -/
theorem opens_ne_else {inBraces : Bool} {body : List Stmt} {rest : List Token} (ho : Opens (.declarations body) us)
    (hrest : AtEnd inBraces rest) : headKind (us ++ rest) ≠ .keyword .kwElse := by
  rcases ho with rfl | ⟨u, us, rfl, hu⟩
  · rcases hrest with hrest | ⟨-, hrest⟩ <;> rw [List.nil_append, hrest] <;> simp
  · rw [List.cons_append, headKind_cons]
    intro hk
    rw [hk] at hu
    cases hu

theorem complete_declarationsMore {s : Stmt} {body : List Stmt} (h : Complete (.declaration s) lo ts mid)
    (ho : Opens (.declaration s) ts) (hb : Complete (.declarations body) mid us hi)
    (hob : Opens (.declarations body) us) : Complete (.declarations (s :: body)) lo (ts ++ us) hi := by
  intro n inBraces rest hrest
  cases n with
  | zero => exact reaches_outOfFuel
  | succ n =>
    simp only [Rule.declarations, List.append_assoc]
    refine reaches_peek ?_
    rw [if_neg ?_]
    · refine (h n _ (opens_ne_else hob hrest)).bind ?_
      exact (hb n inBraces rest hrest).bind reaches_pure
    · obtain ⟨u, vs, rfl, hu⟩ := ho
      rw [List.cons_append, kind_peek, headKind_cons]
      intro hk
      simp only [Bool.or_eq_true, Bool.and_eq_true, decide_eq_true_eq] at hk
      rcases hk with hk | ⟨-, hk⟩ <;> rw [hk] at hu <;> cases hu

/-! ## functions and classes -/

theorem complete_noParameters : Complete (.parameters []) lo [] lo := by
  intro n rest hrest
  exact reaches_nextIs hrest reaches_pure

theorem complete_someParameters {names : List Token} (h : Complete (.parameterNames 0 names) lo ts hi)
    (ho : Opens (.parameterNames 0 names) ts) : Complete (.parameters names) lo ts hi := by
  intro n rest hrest
  obtain ⟨u, us, rfl, hu⟩ := ho
  refine reaches_nextIs_other ?_ (h n rest hrest)
  rw [List.cons_append, headKind_cons, hu]
  simp

theorem complete_lastParameter {count : Nat} {name : Token} (hc : count < maxArity) (hn : name.kind = .identifier) :
    Complete (.parameterNames count [name]) lo [name] lo := by
  intro n rest hrest
  cases n with
  | zero => exact reaches_outOfFuel
  | succ n =>
    simp only [Rule.parameterNames, List.cons_append, List.nil_append]
    refine reaches_checkCount hc (reaches_expect hn ?_)
    exact reaches_accept_other (by rw [hrest]; simp) reaches_pure

theorem complete_moreParameters {count : Nat} {names : List Token} {name : Token} (hc : count < maxArity)
    (hn : name.kind = .identifier) (hk : t.kind = .mark .comma)
    (h : Complete (.parameterNames (count + 1) names) lo us hi) :
    Complete (.parameterNames count (name :: names)) lo (name :: t :: us) hi := by
  intro n rest hrest
  cases n with
  | zero => exact reaches_outOfFuel
  | succ n =>
    simp only [Rule.parameterNames, List.cons_append]
    refine reaches_checkCount hc (reaches_expect hn (reaches_accept hk ?_))
    exact (h n rest hrest).bind reaches_pure

theorem complete_function {params : List Token} {body : List Stmt} {name t₁ t₂ t₃ t₄ : Token}
    (hn : name.kind = .identifier) (h₁ : t₁.kind = .mark .leftParen) (hp : Complete (.parameters params) lo ts mid)
    (h₂ : t₂.kind = .mark .rightParen) (h₃ : t₃.kind = .mark .leftBrace)
    (hb : Complete (.declarations body) mid us hi) (h₄ : t₄.kind = .mark .rightBrace) :
    Complete (.function (.mk name params body)) lo (name :: t₁ :: ts ++ t₂ :: t₃ :: (us ++ [t₄])) hi := by
  intro n kind rest
  cases n with
  | zero => exact reaches_outOfFuel
  | succ n =>
    simp only [Rule.function, List.append_assoc, List.cons_append, List.nil_append]
    refine reaches_expect hn (reaches_expect h₁ ?_)
    refine (hp n (t₂ :: t₃ :: (us ++ t₄ :: rest)) h₂).bind (reaches_expect h₂ (reaches_expect h₃ ?_))
    exact (hb n true (t₄ :: rest) (.inr ⟨rfl, h₄⟩)).bind (reaches_expect h₄ reaches_pure)

theorem complete_noSuperclass : Complete (.superclass none) lo [] lo := by
  intro rest hrest
  unfold Rule.superclass
  exact reaches_accept_other (by rw [List.nil_append, hrest]; simp) reaches_pure

theorem complete_someSuperclass {name : Token} (hk : t.kind = .mark .less) (hn : name.kind = .identifier) :
    Complete (.superclass (some (.variable lo name))) lo [t, name] (lo + 1) := by
  intro rest _
  unfold Rule.superclass
  exact reaches_accept hk (reaches_expect hn (reaches_label reaches_pure))

theorem complete_methodsEnd : Complete (.methods []) lo [] lo := by
  intro n rest hrest
  cases n with
  | zero => exact reaches_outOfFuel
  | succ n =>
    simp only [Rule.methods]
    refine reaches_peek ?_
    rw [if_pos ?_]
    · exact reaches_pure
    · rw [List.nil_append, kind_peek]
      simp [hrest]

theorem complete_methodsMore {d : FunctionDecl} {ds : List FunctionDecl} (h : Complete (.function d) lo ts mid)
    (ho : Opens (.function d) ts) (hr : Complete (.methods ds) mid us hi) :
    Complete (.methods (d :: ds)) lo (ts ++ us) hi := by
  intro n rest hrest
  cases n with
  | zero => exact reaches_outOfFuel
  | succ n =>
    simp only [Rule.methods, List.append_assoc]
    refine reaches_peek ?_
    rw [if_neg ?_]
    · exact (h n _ _).bind ((hr n rest hrest).bind reaches_pure)
    · obtain ⟨u, vs, rfl, hu⟩ := ho
      rw [List.cons_append, kind_peek, headKind_cons, hu]
      simp

/-! ## all phrases -/

/-- Every phrase is reached by its rule. -/
theorem Reads.complete {p : Phrase} (h : p.Reads lo ts hi) : p.Complete lo ts hi := by
  induction h with
  | operators _ ih => exact complete_operators ih
  | assign _ hk _ hx ih₁ ih₂ => exact complete_assign ih₁ hk ih₂ hx
  | update _ hk _ hx ih₁ ih₂ => exact complete_update ih₁ hk ih₂ hx
  | binary _ h₂ ih₁ ih₂ => exact complete_binary ih₁ ih₂ h₂.opens
  | tighter hl _ ih => exact complete_tighter hl ih
  | tightest hl _ ih => exact complete_tightest hl ih
  | binaryEnd => exact complete_binaryEnd
  | binaryMore hk _ h₂ ih₁ ih₂ => exact complete_binaryMore hk ih₁ ih₂ h₂.opens
  | sign hk _ ih => exact complete_sign hk ih
  | stepBefore hk _ hx ih => exact complete_stepBefore hk ih hx
  | stepBehind h hk hx ih => exact complete_stepBehind ih h.opens hk hx
  | noStep h ih => exact complete_noStep ih h.opens
  | call _ _ ih₁ ih₂ => exact complete_call ih₁ ih₂
  | callEnd => exact complete_callEnd
  | callArguments hk _ hp _ ih₁ ih₂ => exact complete_callArguments hk ih₁ hp ih₂
  | callProperty hk hn _ ih => exact complete_callProperty hk hn ih
  | noArguments => exact complete_noArguments
  | someArguments h ih => exact complete_someArguments ih h.opens
  | lastArgument hc _ ih => exact complete_lastArgument hc ih
  | moreArguments hc _ hk _ ih₁ ih₂ => exact complete_moreArguments hc ih₁ hk ih₂
  | constant hk => exact complete_constant hk
  | identifier hk => exact complete_identifier hk
  | this hk => exact complete_this hk
  | super hk hd hn => exact complete_super hk hd hn
  | group hk _ hc ih => exact complete_group hk ih hc
  | varPlain hn hs => exact complete_varPlain hn hs
  | varValue hn hk _ hs ih => exact complete_varValue hn hk ih hs
  | expressionStatement _ hs ih => exact complete_expressionStatement ih hs
  | noInitializer hs => exact complete_noInitializer hs
  | varInitializer hk _ ih => exact complete_varInitializer hk ih
  | expressionInitializer h ih => exact complete_expressionInitializer ih h.opens
  | noCondition => exact complete_noCondition
  | someCondition h ih => exact complete_someCondition ih h.opens
  | noIncrement => exact complete_noIncrement
  | someIncrement h ih => exact complete_someIncrement ih h.opens
  | forLoop hk h₁ _ _ h₂ _ h₃ _ ih₁ ih₂ ih₃ ih₄ => exact complete_forLoop hk h₁ ih₁ ih₂ h₂ ih₃ h₃ ih₄
  | ifThen hk h₁ _ h₂ _ ih₁ ih₂ => exact complete_ifThen hk h₁ ih₁ h₂ ih₂
  | ifElse hk h₁ _ h₂ _ h₃ _ ih₁ ih₂ ih₃ => exact complete_ifElse hk h₁ ih₁ h₂ ih₂ h₃ ih₃
  | whileLoop hk h₁ _ h₂ _ ih₁ ih₂ => exact complete_whileLoop hk h₁ ih₁ h₂ ih₂
  | returnNothing hk hs => exact complete_returnNothing hk hs
  | returnValue hk h hs ih => exact complete_returnValue hk ih h.opens hs
  | breakLoop hk hs => exact complete_breakLoop hk hs
  | continueLoop hk hs => exact complete_continueLoop hk hs
  | block hk _ hc ih => exact complete_block hk ih hc
  | print hk _ hs ih => exact complete_print hk ih hs
  | expressionOnly h ih => exact complete_expressionOnly ih h.opens
  | classDecl hk hn _ h₁ _ h₂ ih₁ ih₂ => exact complete_classDecl hk hn ih₁ h₁ ih₂ h₂
  | funDecl hk _ ih => exact complete_funDecl hk ih
  | varDecl hk _ ih => exact complete_varDecl hk ih
  | noDeclaration h ih => exact complete_noDeclaration ih h.opens
  | declarationsEnd => exact complete_declarationsEnd
  | declarationsMore h₁ h₂ ih₁ ih₂ => exact complete_declarationsMore ih₁ h₁.opens ih₂ h₂.opens
  | noParameters => exact complete_noParameters
  | someParameters h ih => exact complete_someParameters ih h.opens
  | lastParameter hc hn => exact complete_lastParameter hc hn
  | moreParameters hc hn hk _ ih => exact complete_moreParameters hc hn hk ih
  | function hn h₁ _ h₂ h₃ _ h₄ ih₁ ih₂ => exact complete_function hn h₁ ih₁ h₂ h₃ ih₂ h₄
  | noSuperclass => exact complete_noSuperclass
  | someSuperclass hk hn => exact complete_someSuperclass hk hn
  | methodsEnd => exact complete_methodsEnd
  | methodsMore h₁ _ ih₁ ih₂ => exact complete_methodsMore ih₁ h₁.opens ih₂

end Phrase

/-! ## whole sources -/

/-- The tokens before the end of the source. -/
def beforeEnd (tokens : List Token) : List Token := tokens.takeWhile (·.kind ≠ .eof)

/-- What remains of a source behind its tokens begins with its end. -/
theorem exists_eq_beforeEnd_append (tokens : List Token) :
    ∃ rest, tokens = beforeEnd tokens ++ rest ∧ headKind rest = .eof := by
  refine ⟨tokens.dropWhile (·.kind ≠ .eof), (List.takeWhile_append_dropWhile).symm, ?_⟩
  induction tokens with
  | nil => rfl
  | cons t ts ih =>
    by_cases h : t.kind = .eof
    · rw [List.dropWhile_cons_of_neg (by simp [h])]
      exact h
    · rw [List.dropWhile_cons_of_pos (by simp [h])]
      exact ih

theorem beforeEnd_append {ts rest : List Token} (h : ∀ t ∈ ts, t.kind ≠ .eof) (hrest : headKind rest = .eof) :
    beforeEnd (ts ++ rest) = ts := by
  unfold beforeEnd
  rw [List.takeWhile_append_of_pos (by simpa using h)]
  cases rest with
  | nil => simp
  | cons t rest => rw [List.takeWhile_cons_of_neg (by simpa using hrest), List.append_nil]

/-- Parsing gives the program that the tokens before an end of the source are written as. -/
theorem parse_append_of_reads {fresh hi : Label} {ts rest : List Token} {program : List Stmt}
    (h : (Phrase.declarations program).Reads fresh ts hi) (hrest : headKind rest = .eof) :
    parse fresh (ts ++ rest) = ⟨.ok program, hi⟩ := by
  have hreach := h.complete (Rule.fuelFor (ts ++ rest)) false rest (.inl hrest)
  have hruns := declarations_runs_fuelFor (ts ++ rest) fresh
  rcases hreach with he | hy
  · unfold Rule.Runs at hruns
    rw [he] at hruns
    exact hruns.elim
  · unfold parse
    rw [hy]

theorem parse_of_reads {fresh hi : Label} {tokens : List Token} {program : List Stmt}
    (h : (Phrase.declarations program).Reads fresh (beforeEnd tokens) hi) :
    parse fresh tokens = ⟨.ok program, hi⟩ := by
  obtain ⟨rest, htokens, hrest⟩ := exists_eq_beforeEnd_append tokens
  rw [htokens]
  exact parse_append_of_reads h hrest

/-- A program that parsing gives is what the tokens before the end of the source are written as. -/
theorem reads_of_parse {fresh : Label} {tokens : List Token} {program : List Stmt}
    (h : (parse fresh tokens).result = .ok program) :
    (Phrase.declarations program).Reads fresh (beforeEnd tokens) (parse fresh tokens).fresh := by
  have hruns := declarations_runs_fuelFor tokens fresh
  unfold parse at h ⊢
  split at h
  · next program' next hy =>
    cases h
    have hy' : (Rule.declarations (Rule.fuelFor tokens) false).Yields ⟨tokens, fresh⟩ program
      ⟨next.rest, next.fresh⟩ := hy
    obtain ⟨hend, ts, hts, hr⟩ := (Rule.statements_sound _).declarations hy'
    have hrest : headKind next.rest = .eof := by
      rcases hend with hend | ⟨hb, -⟩
      · exact hend
      · cases hb
    unfold Rule.Runs at hruns
    rw [hy] at hruns
    obtain ⟨⟨read, hread, hne, -⟩, -⟩ := hruns
    have heq : read = ts := by
      have := hread.symm.trans hts
      exact List.append_cancel_right this
    subst heq
    rw [hts, beforeEnd_append hne hrest]
    exact hr
  · cases h
  · cases h
  · cases h

/-- Parsing reads phrases and nothing else. -/
theorem parse_eq_ok_iff {fresh hi : Label} {tokens : List Token} {program : List Stmt} :
    parse fresh tokens = ⟨.ok program, hi⟩ ↔ (Phrase.declarations program).Reads fresh (beforeEnd tokens) hi := by
  constructor
  · intro h
    have hok : (parse fresh tokens).result = .ok program := by rw [h]
    have hr := reads_of_parse hok
    rw [h] at hr
    exact hr
  · exact parse_of_reads

end ScriptLang
