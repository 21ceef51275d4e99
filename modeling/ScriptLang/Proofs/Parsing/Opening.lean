import ScriptLang.Proofs.Parsing.Phrase

/-!
# First tokens of phrases, and tokens that phrases leave alone

One token of look-ahead decides every rule.  It is enough for two reasons:

* a phrase that is not empty begins with a token of a kind that tells it from its alternatives (`Reads.opens`);
* operators have strengths, and a phrase goes on at a token only if that token is strong enough (`Stops`).
-/

namespace ScriptLang

namespace Kind

/-- Whether a primary expression may begin with the kind. -/
def opensPrimary : Kind → Bool
  | .keyword .kwFalse | .keyword .kwTrue | .keyword .kwNil | .keyword .kwThis | .keyword .kwSuper => true
  | .number _ | .string _ | .identifier | .mark .leftParen => true
  | _ => false

/-- Whether an expression may begin with the kind. -/
def opensExpression (k : Kind) : Bool := k.opensPrimary || (sign? k).isSome || (step? k).isSome

/-- Whether a statement may begin with the kind. -/
def opensStatement (k : Kind) : Bool :=
  k.opensExpression || k ∈ [Kind.keyword .kwFor, .keyword .kwIf, .keyword .kwWhile, .keyword .kwReturn,
    .keyword .kwBreak, .keyword .kwContinue, .mark .leftBrace, .keyword .kwPrint]

/-- Whether a declaration or statement may begin with the kind. -/
def opensDeclaration (k : Kind) : Bool :=
  k.opensStatement || k ∈ [Kind.keyword .kwClass, .keyword .kwFun, .keyword .kwVar]

/-- How strongly a token binds to the expression before it; those that cannot continue an expression do not. -/
def strength : Kind → Nat
  | .mark .equal | .mark .plusEqual | .mark .minusEqual | .mark .starEqual | .mark .slashEqual => 1
  | .keyword .kwOr => 2
  | .keyword .kwAnd => 3
  | .mark .bangEqual | .mark .equalEqual => 4
  | .mark .greater | .mark .greaterEqual | .mark .less | .mark .lessEqual => 5
  | .mark .minus | .mark .plus => 6
  | .mark .star | .mark .slash => 7
  | .mark .plusPlus | .mark .minusMinus => 8
  | .mark .leftParen | .mark .dot => 9
  | _ => 0

end Kind

/-- The strength of the operators of a level. -/
def Level.strength : Level → Nat
  | disjunction => 2
  | conjunction => 3
  | equality => 4
  | comparison => 5
  | sum => 6
  | product => 7

namespace Level

theorem strength_of_mem {l : Level} {k : Kind} (h : k ∈ l.operators) : k.strength = l.strength := by
  cases l <;> simp only [operators, List.mem_cons, List.not_mem_nil, or_false] at h <;> grind [Kind.strength, strength]

theorem strength_tighter {l inner : Level} (h : l.tighter? = some inner) : inner.strength = l.strength + 1 := by
  cases l <;> cases h <;> rfl

theorem strength_tightest {l : Level} (h : l.tighter? = none) : l.strength = 7 := by
  cases l <;> first | rfl | cases h

theorem strength_bounds (l : Level) : 2 ≤ l.strength ∧ l.strength ≤ 7 := by
  cases l <;> decide

end Level

/-! ## where phrases stop -/

/-- The next token binds less strongly. -/
def Stops (s : Nat) (rest : List Token) : Prop := (headKind rest).strength < s

theorem Stops.mono {s s' : Nat} {rest : List Token} (h : Stops s rest) (hs : s ≤ s') : Stops s' rest :=
  Nat.lt_of_lt_of_le h hs

theorem stops_cons {s : Nat} {t : Token} {ts : List Token} (h : t.kind.strength < s) : Stops s (t :: ts) := h

/-- A token that does not continue an expression stops all of them. -/
theorem stops_of_kind {s : Nat} {rest : List Token} {k : Kind} (h : headKind rest = k) (hk : k.strength = 0)
    (hs : 0 < s) : Stops s rest := by
  unfold Stops
  rw [h, hk]
  exact hs

theorem stops_cons_of_kind {s : Nat} {t : Token} {ts : List Token} {k : Kind} (h : t.kind = k) (hk : k.strength = 0)
    (hs : 0 < s) : Stops s (t :: ts) := by
  refine stops_cons ?_
  rw [h, hk]
  exact hs

theorem Stops.ne {s : Nat} {rest : List Token} {k : Kind} (h : Stops s rest) (hk : s ≤ k.strength) :
    headKind rest ≠ k := by
  rintro rfl
  exact absurd h (Nat.not_lt.2 hk)

theorem Stops.compound? {rest : List Token} (h : Stops 1 rest) : compound? (headKind rest) = none := by
  unfold Stops at h
  generalize headKind rest = k at h
  unfold ScriptLang.compound?
  split <;> first | rfl | simp [Kind.strength] at h

theorem Stops.operator? {l : Level} {rest : List Token} (h : Stops l.strength rest) :
    l.operator? (headKind rest) = none := by
  unfold Level.operator?
  rw [if_neg]
  intro hk
  exact absurd (Level.strength_of_mem hk) (Nat.ne_of_lt h)

theorem Stops.step? {rest : List Token} (h : Stops 8 rest) : step? (headKind rest) = none := by
  unfold Stops at h
  generalize headKind rest = k at h
  unfold ScriptLang.step?
  split <;> first | rfl | simp [Kind.strength] at h

theorem strength_of_compound? {k : Kind} {op : Mark} (h : compound? k = some op) : k.strength = 1 := by
  unfold compound? at h
  split at h <;> first | rfl | cases h

theorem strength_of_step? {k : Kind} {op : Mark} (h : step? k = some op) : k.strength = 8 := by
  unfold step? at h
  split at h <;> first | rfl | cases h

/-! ## how phrases begin -/

namespace Phrase

/-- What is known of the first token of a phrase. -/
def Opens : Phrase → List Token → Prop
  | expression _, ts | binary _ _, ts | operand _ _, ts | unary _, ts | argumentList _ _, ts
  | expressionStatement _, ts => ∃ t us, ts = t :: us ∧ t.kind.opensExpression
  | call _, ts | primary _, ts => ∃ t us, ts = t :: us ∧ t.kind.opensPrimary
  | binaryRest l _ _, ts => ∀ {rest}, Stops l.strength rest → Stops (l.strength + 1) (ts ++ rest)
  | statement _ _, ts => ∃ t us, ts = t :: us ∧ t.kind.opensStatement
  | declaration _, ts => ∃ t us, ts = t :: us ∧ t.kind.opensDeclaration
  | declarations _, ts => ts = [] ∨ ∃ t us, ts = t :: us ∧ t.kind.opensDeclaration
  | function _, ts | parameterNames _ _, ts => ∃ t us, ts = t :: us ∧ t.kind = .identifier
  | methods _, ts => ts = [] ∨ ∃ t us, ts = t :: us ∧ t.kind = .identifier
  | _, _ => True

theorem opensPrimary_of_constant? {k : Kind} {v : Literal} (h : constant? k = some v) : k.opensPrimary = true := by
  unfold constant? at h
  split at h <;> first | rfl | cases h

/-- A phrase is known by its first token. -/
theorem Reads.opens {p : Phrase} {lo hi : Label} {ts : List Token} (h : p.Reads lo ts hi) : p.Opens ts := by
  induction h with
  | operators _ ih => exact ih
  | assign _ _ _ _ ih _ | update _ _ _ _ ih _ =>
    obtain ⟨t, us, rfl, ht⟩ := ih
    exact ⟨t, _, rfl, ht⟩
  | binary _ _ ih _ =>
    obtain ⟨t, us, rfl, ht⟩ := ih
    exact ⟨t, _, rfl, ht⟩
  | tighter _ _ ih => exact ih
  | tightest _ _ ih => exact ih
  | binaryEnd =>
    intro rest h
    exact h.mono (Nat.le_succ _)
  | binaryMore hk _ _ _ _ =>
    intro rest _
    exact Nat.lt_succ_of_le (Nat.le_of_eq (Level.strength_of_mem hk))
  | sign hk _ _ => exact ⟨_, _, rfl, by simp [Kind.opensExpression, hk]⟩
  | stepBefore hk _ _ _ => exact ⟨_, _, rfl, by simp [Kind.opensExpression, hk]⟩
  | stepBehind _ _ _ ih =>
    obtain ⟨t, us, rfl, ht⟩ := ih
    exact ⟨t, _, rfl, by simp [Kind.opensExpression, ht]⟩
  | noStep _ ih =>
    obtain ⟨t, us, rfl, ht⟩ := ih
    exact ⟨t, us, rfl, by simp [Kind.opensExpression, ht]⟩
  | call _ _ ih _ =>
    obtain ⟨t, us, rfl, ht⟩ := ih
    exact ⟨t, _, rfl, ht⟩
  | lastArgument _ _ ih => exact ih
  | moreArguments _ _ _ _ ih _ =>
    obtain ⟨t, us, rfl, ht⟩ := ih
    exact ⟨t, _, rfl, ht⟩
  | constant hk => exact ⟨_, _, rfl, opensPrimary_of_constant? hk⟩
  | identifier hk | this hk | super hk _ _ | group hk _ _ _ => exact ⟨_, _, rfl, by rw [hk]; rfl⟩
  | expressionStatement _ _ ih =>
    obtain ⟨t, us, rfl, ht⟩ := ih
    exact ⟨t, _, rfl, ht⟩
  | forLoop hk _ _ _ _ _ _ _ _ _ _ _ => exact ⟨_, _, rfl, by rw [hk]; rfl⟩
  | ifThen hk _ _ _ _ _ _ => exact ⟨_, _, rfl, by rw [hk]; rfl⟩
  | ifElse hk _ _ _ _ _ _ _ _ _ => exact ⟨_, _, rfl, by rw [hk]; rfl⟩
  | whileLoop hk _ _ _ _ _ _ => exact ⟨_, _, rfl, by rw [hk]; rfl⟩
  | returnNothing hk _ | breakLoop hk _ | continueLoop hk _ => exact ⟨_, _, rfl, by rw [hk]; rfl⟩
  | returnValue hk _ _ _ | block hk _ _ _ | print hk _ _ _ => exact ⟨_, _, rfl, by rw [hk]; rfl⟩
  | expressionOnly _ ih =>
    obtain ⟨t, us, rfl, ht⟩ := ih
    exact ⟨t, us, rfl, by simp [Kind.opensStatement, ht]⟩
  | classDecl hk _ _ _ _ _ _ _ => exact ⟨_, _, rfl, by rw [hk]; rfl⟩
  | funDecl hk _ _ | varDecl hk _ _ => exact ⟨_, _, rfl, by rw [hk]; rfl⟩
  | noDeclaration _ ih =>
    obtain ⟨t, us, rfl, ht⟩ := ih
    exact ⟨t, us, rfl, by simp [Kind.opensDeclaration, ht]⟩
  | declarationsEnd => exact .inl rfl
  | declarationsMore _ _ ih _ =>
    obtain ⟨t, us, rfl, ht⟩ := ih
    exact .inr ⟨t, _, rfl, ht⟩
  | lastParameter _ hk | moreParameters _ hk _ _ _ => exact ⟨_, _, rfl, hk⟩
  | function hk _ _ _ _ _ _ _ _ => exact ⟨_, _, rfl, hk⟩
  | methodsEnd => exact .inl rfl
  | methodsMore _ _ ih _ =>
    obtain ⟨t, us, rfl, ht⟩ := ih
    exact .inr ⟨t, _, rfl, ht⟩
  | _ => trivial

end Phrase

end ScriptLang
