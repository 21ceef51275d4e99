import ScriptLang.Proofs.Parsing.Completeness
import ScriptLang.Proofs.Parsing.Derivation

/-!
# Parsing accepts what the grammar derives

* `e.Means S ts` — what a right side says of tokens when its symbols say `S`; tokens that can be derived have every
  meaning that the rules keep (`Derives.means`);
* `Written s ts` — the tokens are written as some phrase of the part `s`; the rules keep it (`written_of_rule`).

Together with `Reads.derivable` and `parse_eq_ok_iff` this settles which token lists `parse` accepts.
-/

namespace ScriptLang

open Ebnf

namespace Ebnf

variable {S : Symbol → List Token → Prop} {a b : Ebnf} {ts : List Token}

/-- What a right side says of tokens when symbols have a meaning. -/
def Means (S : Symbol → List Token → Prop) : Ebnf → List Token → Prop
  | token test, ts => ∃ t, ts = [t] ∧ test t.kind
  | symbol s, ts => S s ts
  | seq a b, ts => ∃ us vs, ts = us ++ vs ∧ a.Means S us ∧ b.Means S vs
  | alt a b, ts => a.Means S ts ∨ b.Means S ts
  | opt a, ts => ts = [] ∨ a.Means S ts
  | star a, ts => ∃ parts : List (List Token), ts = parts.flatten ∧ ∀ part ∈ parts, a.Means S part
  | upTo n a, ts => ∃ parts : List (List Token), ts = parts.flatten ∧ parts.length ≤ n ∧ ∀ part ∈ parts, a.Means S part
  | both a b, ts => a.Means S ts ∧ b.Means S ts

/-- What can be derived has every meaning that the rules keep. -/
theorem Derives.means {e : Ebnf} (hS : ∀ s ts, s.rule.Means S ts → S s ts) (h : e.Derives ts) : e.Means S ts := by
  induction h with
  | token h => exact ⟨_, rfl, h⟩
  | symbol _ ih => exact hS _ _ ih
  | seq _ _ ih₁ ih₂ => exact ⟨_, _, rfl, ih₁, ih₂⟩
  | first _ ih => exact .inl ih
  | second _ ih => exact .inr ih
  | absent => exact .inl rfl
  | present _ ih => exact .inr ih
  | starEnd => exact ⟨[], rfl, by simp⟩
  | starMore _ _ ih₁ ih₂ =>
    obtain ⟨parts, rfl, hparts⟩ := ih₂
    exact ⟨_ :: parts, rfl, by simpa using ⟨ih₁, hparts⟩⟩
  | upToEnd => exact ⟨[], rfl, Nat.zero_le _, by simp⟩
  | upToMore _ _ ih₁ ih₂ =>
    obtain ⟨parts, rfl, hn, hparts⟩ := ih₂
    exact ⟨_ :: parts, rfl, Nat.succ_le_succ hn, by simpa using ⟨ih₁, hparts⟩⟩
  | both _ _ ih₁ ih₂ => exact ⟨ih₁, ih₂⟩

theorem means_mark {m : Mark} : (mark m).Means S ts ↔ ∃ t, ts = [t] ∧ t.kind = .mark m := by
  simp [mark, Means]

theorem means_word {k : Keyword} : (word k).Means S ts ↔ ∃ t, ts = [t] ∧ t.kind = .keyword k := by
  simp [word, Means]

theorem means_ident : ident.Means S ts ↔ ∃ t, ts = [t] ∧ t.kind = .identifier := by
  simp [ident, Means]

theorem means_append : (a ++ b).Means S ts ↔ ∃ us vs, ts = us ++ vs ∧ a.Means S us ∧ b.Means S vs := Iff.rfl

theorem means_or : (a ||| b).Means S ts ↔ a.Means S ts ∨ b.Means S ts := Iff.rfl

/-- What is between a mark and the end. -/
theorem means_mark_append {m : Mark} :
    (mark m ++ b).Means S ts ↔ ∃ t us, ts = t :: us ∧ t.kind = .mark m ∧ b.Means S us := by
  rw [means_append]
  constructor
  · rintro ⟨_, us, rfl, ha, hb⟩
    obtain ⟨t, rfl, ht⟩ := means_mark.1 ha
    exact ⟨t, us, rfl, ht, hb⟩
  · rintro ⟨t, us, rfl, ht, hb⟩
    exact ⟨[t], us, rfl, means_mark.2 ⟨t, rfl, ht⟩, hb⟩

theorem means_word_append {k : Keyword} :
    (word k ++ b).Means S ts ↔ ∃ t us, ts = t :: us ∧ t.kind = .keyword k ∧ b.Means S us := by
  rw [means_append]
  constructor
  · rintro ⟨_, us, rfl, ha, hb⟩
    obtain ⟨t, rfl, ht⟩ := means_word.1 ha
    exact ⟨t, us, rfl, ht, hb⟩
  · rintro ⟨t, us, rfl, ht, hb⟩
    exact ⟨[t], us, rfl, means_word.2 ⟨t, rfl, ht⟩, hb⟩

theorem means_append_mark {m : Mark} :
    (a ++ mark m).Means S ts ↔ ∃ us t, ts = us ++ [t] ∧ a.Means S us ∧ t.kind = .mark m := by
  rw [means_append]
  constructor
  · rintro ⟨us, _, rfl, ha, hb⟩
    obtain ⟨t, rfl, ht⟩ := means_mark.1 hb
    exact ⟨us, t, rfl, ha, ht⟩
  · rintro ⟨us, t, rfl, ha, ht⟩
    exact ⟨us, [t], rfl, ha, means_mark.2 ⟨t, rfl, ht⟩⟩

theorem means_append_ident :
    (a ++ ident).Means S ts ↔ ∃ us t, ts = us ++ [t] ∧ a.Means S us ∧ t.kind = .identifier := by
  rw [means_append]
  constructor
  · rintro ⟨us, _, rfl, ha, hb⟩
    obtain ⟨t, rfl, ht⟩ := means_ident.1 hb
    exact ⟨us, t, rfl, ha, ht⟩
  · rintro ⟨us, t, rfl, ha, ht⟩
    exact ⟨us, [t], rfl, ha, means_ident.2 ⟨t, rfl, ht⟩⟩

end Ebnf

/-! ## phrases from any label on -/

open Phrase (Reads)
open Rule (maxArity)

/-- The tokens are written as an expression that some part of the grammar makes of it. -/
def WrittenAs {α : Type} (p : α → Phrase) (ts : List Token) : Prop := ∀ lo, ∃ a hi, (p a).Reads lo ts hi

/-- The tokens are written as some phrase of a part of the grammar. -/
def Written : Symbol → List Token → Prop
  | .program, ts => WrittenAs .declarations ts
  | .declaration, ts | .classDecl, ts | .funDecl, ts => WrittenAs .declaration ts
  | .function, ts => WrittenAs .function ts
  | .parameters, ts => WrittenAs (.parameterNames 0) ts
  | .varDecl, ts => ∃ k us, ts = k :: us ∧ k.kind = .keyword .kwVar ∧ WrittenAs .varDeclaration us
  | .statement, ts | .forStmt, ts | .ifStmt, ts | .printStmt, ts | .returnStmt, ts | .whileStmt, ts
  | .breakStmt, ts | .continueStmt, ts => WrittenAs (fun s : Bool × Stmt => .statement s.1 s.2) ts
  | .exprStmt, ts => WrittenAs .expressionStatement ts
  | .block, ts => ∃ t us close, ts = t :: us ++ [close] ∧ t.kind = .mark .leftBrace ∧
    close.kind = .mark .rightBrace ∧ WrittenAs .declarations us
  | .expression, ts | .assignment, ts => WrittenAs .expression ts
  | .logicOr, ts => WrittenAs (.binary .disjunction) ts
  | .logicAnd, ts => WrittenAs (.binary .conjunction) ts
  | .equality, ts => WrittenAs (.binary .equality) ts
  | .comparison, ts => WrittenAs (.binary .comparison) ts
  | .term, ts => WrittenAs (.binary .sum) ts
  | .factor, ts => WrittenAs (.binary .product) ts
  | .unary, ts | .stepped, ts => WrittenAs .unary ts
  | .call, ts => WrittenAs .call ts
  | .arguments, ts => WrittenAs (.argumentList 0) ts
  | .primary, ts => WrittenAs .primary ts

variable {ts us : List Token}

theorem written_operand {l : Level} (h : Written l.operandSymbol ts) : WrittenAs (.operand l) ts := by
  intro lo
  cases l with
  | product =>
    obtain ⟨x, hi, hx⟩ := h lo
    exact ⟨x, hi, .tightest rfl hx⟩
  | _ =>
    obtain ⟨x, hi, hx⟩ := h lo
    exact ⟨x, hi, .tighter rfl hx⟩

theorem mem_operators_of_means {S : Symbol → List Token → Prop} {l : Level} (h : l.operatorForm.Means S ts) :
    ∃ t, ts = [t] ∧ t.kind ∈ l.operators := by
  cases l <;> simp only [Level.operatorForm, means_or, means_mark, means_word] at h <;>
    simp only [Level.operators, List.mem_cons, List.not_mem_nil, or_false]
  case disjunction | conjunction => exact h
  case comparison =>
    rcases h with ((⟨t, rfl, ht⟩ | ⟨t, rfl, ht⟩) | ⟨t, rfl, ht⟩) | ⟨t, rfl, ht⟩ <;> exact ⟨t, rfl, by simp [ht]⟩
  all_goals
    rcases h with ⟨t, rfl, ht⟩ | ⟨t, rfl, ht⟩ <;> exact ⟨t, rfl, by simp [ht]⟩

/-- Operators and operands, as many as there are. -/
theorem written_binaryRest {l : Level} {parts : List (List Token)} (left : Expr)
    (h : ∀ part ∈ parts, (l.operatorForm ++ symbol l.operandSymbol).Means Written part) :
    WrittenAs (.binaryRest l left) parts.flatten := by
  intro lo
  induction parts generalizing left lo with
  | nil => exact ⟨left, lo, .binaryEnd⟩
  | cons part parts ih =>
    rw [List.forall_mem_cons] at h
    obtain ⟨us, vs, rfl, hop, hv⟩ := means_append.1 h.1
    obtain ⟨t, rfl, ht⟩ := mem_operators_of_means hop
    obtain ⟨right, mid, hr⟩ := written_operand hv lo
    obtain ⟨x, hi, hx⟩ := ih (l.node left t right) h.2 mid
    exact ⟨x, hi, .binaryMore ht hr hx⟩

theorem written_binary {l : Level} (h : l.symbol.rule.Means Written ts) : WrittenAs (.binary l) ts := by
  intro lo
  rw [Level.rule_symbol] at h
  obtain ⟨us, vs, rfl, hu, parts, rfl, hparts⟩ := means_append.1 h
  obtain ⟨left, mid, hl⟩ := written_operand hu lo
  obtain ⟨x, hi, hx⟩ := written_binaryRest left hparts mid
  exact ⟨x, hi, .binary hl hx⟩

/-- A target is written as a call that can be assigned to. -/
theorem written_target (h : target.Means Written ts) (lo : Label) :
    ∃ x hi, Reads (.call x) lo ts hi ∧ x.isTarget = true := by
  obtain ⟨_, name, rfl, h, hn⟩ := means_append_ident.1 h
  rcases h with rfl | h
  · have hr : Reads (.call (.variable lo name)) lo ([name] ++ []) (lo + 1) := .call (.identifier hn) .callEnd
    exact ⟨_, _, hr, rfl⟩
  · obtain ⟨us, dot, rfl, hc, hd⟩ := means_append_mark.1 h
    obtain ⟨x, hi, hx⟩ := hc lo
    refine ⟨.get x name, hi, ?_, rfl⟩
    rw [List.append_assoc]
    exact hx.call_property hd hn

theorem means_step {S : Symbol → List Token → Prop} (h : step.Means S ts) :
    ∃ t op, ts = [t] ∧ step? t.kind = some op := by
  rcases means_or.1 h with h | h
  · obtain ⟨t, rfl, ht⟩ := means_mark.1 h
    exact ⟨t, .plus, rfl, by rw [ht]; rfl⟩
  · obtain ⟨t, rfl, ht⟩ := means_mark.1 h
    exact ⟨t, .minus, rfl, by rw [ht]; rfl⟩

theorem means_assignment_operator {S : Symbol → List Token → Prop}
    (h : (mark .equal ||| mark .plusEqual ||| mark .minusEqual ||| mark .starEqual ||| mark .slashEqual).Means S ts) :
    ∃ t, ts = [t] ∧ (t.kind = .mark .equal ∨ ∃ op, compound? t.kind = some op) := by
  simp only [means_or, means_mark] at h
  rcases h with (((⟨t, rfl, ht⟩ | ⟨t, rfl, ht⟩) | ⟨t, rfl, ht⟩) | ⟨t, rfl, ht⟩) | ⟨t, rfl, ht⟩
  · exact ⟨t, rfl, .inl ht⟩
  · exact ⟨t, rfl, .inr ⟨.plus, by rw [ht]; rfl⟩⟩
  · exact ⟨t, rfl, .inr ⟨.minus, by rw [ht]; rfl⟩⟩
  · exact ⟨t, rfl, .inr ⟨.star, by rw [ht]; rfl⟩⟩
  · exact ⟨t, rfl, .inr ⟨.slash, by rw [ht]; rfl⟩⟩

theorem written_assignment (h : Symbol.assignment.rule.Means Written ts) : WrittenAs .expression ts := by
  intro lo
  rcases means_or.1 h with h | h
  · obtain ⟨_, us, rfl, h, hv⟩ := means_append.1 h
    obtain ⟨ts, _, rfl, htarget, hop⟩ := means_append.1 h
    obtain ⟨t, rfl, ht⟩ := means_assignment_operator hop
    obtain ⟨target, mid, hr, hx⟩ := written_target htarget lo
    obtain ⟨v, hi, hv⟩ := hv mid
    have hb := (Reads.noStep hr).binary_of_unary .disjunction
    rw [List.append_assoc, List.singleton_append]
    rcases ht with ht | ⟨op, ht⟩
    · obtain ⟨x, hi', hx⟩ := Expr.exists_assigned? hx hi v
      exact ⟨x, hi', .assign hb ht hv hx⟩
    · obtain ⟨x, hi', hx⟩ := Expr.exists_updated? hx hi (Token.ofMark op t.line) v
      exact ⟨x, hi', .update hb ht hv hx⟩
  · obtain ⟨x, hi, hx⟩ := h lo
    exact ⟨x, hi, .operators hx⟩

theorem written_unary (h : Symbol.unary.rule.Means Written ts) : WrittenAs .unary ts := by
  intro lo
  rcases means_or.1 h with h | h
  · rcases means_or.1 h with h | h
    · obtain ⟨_, us, rfl, hk, hx⟩ := means_append.1 h
      obtain ⟨x, hi, hx⟩ := hx lo
      simp only [means_or, means_mark] at hk
      rcases hk with ⟨t, rfl, ht⟩ | ⟨t, rfl, ht⟩
      · exact ⟨_, hi, .sign (t := t) (by rw [ht]; rfl) hx⟩
      · exact ⟨_, hi, .sign (t := t) (by rw [ht]; rfl) hx⟩
    · obtain ⟨_, us, rfl, hk, -, hx⟩ := means_append.1 h
      obtain ⟨t, op, rfl, ht⟩ := means_step hk
      obtain ⟨x, hi, hx, htarget⟩ := written_target hx lo
      obtain ⟨y, hi', hy⟩ := Expr.exists_updated? htarget hi (Token.ofMark op t.line) Rule.one
      exact ⟨y, hi', .stepBefore ht (.noStep hx) hy⟩
  · exact h lo

theorem written_stepped (h : Symbol.stepped.rule.Means Written ts) : WrittenAs .unary ts := by
  intro lo
  rcases means_or.1 h with h | h
  · obtain ⟨x, hi, hx⟩ := h lo
    exact ⟨x, hi, .noStep hx⟩
  · obtain ⟨us, _, rfl, ⟨-, hx⟩, hk⟩ := means_append.1 h
    obtain ⟨t, op, rfl, ht⟩ := means_step hk
    obtain ⟨x, hi, hx, htarget⟩ := written_target hx lo
    obtain ⟨y, hi', hy⟩ := Expr.exists_updated? htarget hi (Token.ofMark op t.line) Rule.one
    exact ⟨y, hi', .stepBehind hx ht hy⟩

theorem written_arguments (h : (opt (symbol .arguments)).Means Written ts) : WrittenAs .arguments ts := by
  intro lo
  rcases h with rfl | h
  · exact ⟨[], lo, .noArguments⟩
  · obtain ⟨xs, hi, hx⟩ := h lo
    exact ⟨xs, hi, .someArguments hx⟩

theorem written_callRest {parts : List (List Token)} (f : Expr) (h : ∀ part ∈ parts, callSuffix.Means Written part) :
    WrittenAs (.callRest f) parts.flatten := by
  intro lo
  induction parts generalizing f lo with
  | nil => exact ⟨f, lo, .callEnd⟩
  | cons part parts ih =>
    rw [List.forall_mem_cons] at h
    obtain ⟨h, hparts⟩ := h
    rw [List.flatten_cons]
    rcases means_or.1 h with h | h
    · obtain ⟨_, paren, rfl, h, hp⟩ := means_append_mark.1 h
      obtain ⟨t, us, rfl, ht, ha⟩ := means_mark_append.1 h
      obtain ⟨args, mid, hargs⟩ := written_arguments ha lo
      obtain ⟨x, hi, hx⟩ := ih (.call f paren args) hparts mid
      refine ⟨x, hi, ?_⟩
      rw [List.append_assoc]
      exact .callArguments ht hargs hp hx
    · obtain ⟨t, _, rfl, ht, hident⟩ := means_mark_append.1 h
      obtain ⟨name, rfl, hn⟩ := means_ident.1 hident
      obtain ⟨x, hi, hx⟩ := ih (.get f name) hparts lo
      exact ⟨x, hi, .callProperty ht hn hx⟩

theorem written_call (h : Symbol.call.rule.Means Written ts) : WrittenAs .call ts := by
  intro lo
  obtain ⟨us, vs, rfl, hp, parts, rfl, hparts⟩ := means_append.1 h
  obtain ⟨f, mid, hf⟩ := hp lo
  obtain ⟨x, hi, hx⟩ := written_callRest f hparts mid
  exact ⟨x, hi, .call hf hx⟩

/-- Entries with commas before them, behind one entry and after `count` others. -/
theorem written_argumentList {parts : List (List Token)} {count : Nat} (hn : count + parts.length < maxArity)
    (h : ∀ part ∈ parts, (mark .comma ++ symbol .expression).Means Written part) (hx : WrittenAs .expression us) :
    WrittenAs (.argumentList count) (us ++ parts.flatten) := by
  intro lo
  induction parts generalizing count us lo with
  | nil =>
    obtain ⟨x, hi, hx⟩ := hx lo
    rw [List.flatten_nil, List.append_nil]
    exact ⟨[x], hi, .lastArgument (by simpa using hn) hx⟩
  | cons part parts ih =>
    rw [List.forall_mem_cons] at h
    rw [List.length_cons] at hn
    obtain ⟨t, vs, rfl, ht, hv⟩ := means_mark_append.1 h.1
    obtain ⟨x, mid, hx⟩ := hx lo
    have hlen : count + 1 + parts.length < maxArity := by omega
    obtain ⟨xs, hi, hxs⟩ := ih hlen h.2 hv mid
    exact ⟨x :: xs, hi, .moreArguments (by omega) hx ht hxs⟩

theorem written_parameterNames {parts : List (List Token)} {count : Nat} {name : Token}
    (hn : count + parts.length < maxArity) (h : ∀ part ∈ parts, (mark .comma ++ ident).Means Written part)
    (hname : name.kind = .identifier) : WrittenAs (.parameterNames count) (name :: parts.flatten) := by
  intro lo
  induction parts generalizing count name with
  | nil => exact ⟨[name], lo, .lastParameter (by simpa using hn) hname⟩
  | cons part parts ih =>
    rw [List.forall_mem_cons] at h
    rw [List.length_cons] at hn
    obtain ⟨t, _, rfl, ht, hv⟩ := means_mark_append.1 h.1
    obtain ⟨name', rfl, hname'⟩ := means_ident.1 hv
    have hlen : count + 1 + parts.length < maxArity := by omega
    obtain ⟨names, hi, hnames⟩ := ih hlen h.2 hname'
    exact ⟨name :: names, hi, .moreParameters (by omega) hname ht hnames⟩

theorem written_primary (h : Symbol.primary.rule.Means Written ts) : WrittenAs .primary ts := by
  intro lo
  simp only [Symbol.rule, means_or, means_word, means_ident] at h
  rcases h with (((((((h | h) | h) | h) | h) | h) | h) | h) | h
  · obtain ⟨t, rfl, ht⟩ := h
    cases hk : t.kind <;> rw [hk] at ht <;> cases ht
    exact ⟨_, lo, .constant (v := .number _) (by rw [hk]; rfl)⟩
  · obtain ⟨t, rfl, ht⟩ := h
    cases hk : t.kind <;> rw [hk] at ht <;> cases ht
    exact ⟨_, lo, .constant (v := .string _) (by rw [hk]; rfl)⟩
  · obtain ⟨t, rfl, ht⟩ := h
    exact ⟨_, lo, .constant (v := .bool true) (by rw [ht]; rfl)⟩
  · obtain ⟨t, rfl, ht⟩ := h
    exact ⟨_, lo, .constant (v := .bool false) (by rw [ht]; rfl)⟩
  · obtain ⟨t, rfl, ht⟩ := h
    exact ⟨_, lo, .constant (v := .nil) (by rw [ht]; rfl)⟩
  · obtain ⟨t, rfl, ht⟩ := h
    exact ⟨_, lo + 1, .this ht⟩
  · obtain ⟨t, rfl, ht⟩ := h
    exact ⟨_, lo + 1, .identifier ht⟩
  · obtain ⟨_, close, rfl, h, hc⟩ := means_append_mark.1 h
    obtain ⟨t, us, rfl, ht, hx⟩ := means_mark_append.1 h
    obtain ⟨x, hi, hx⟩ := hx lo
    exact ⟨_, hi, .group ht hx hc⟩
  · obtain ⟨_, name, rfl, h, hn⟩ := means_append_ident.1 h
    obtain ⟨_, dot, rfl, h, hd⟩ := means_append_mark.1 h
    obtain ⟨t, rfl, ht⟩ := means_word.1 h
    exact ⟨_, lo + 1, .super ht hd hn⟩

/-! ## statements -/

theorem written_declarations {parts : List (List Token)}
    (h : ∀ part ∈ parts, (symbol .declaration).Means Written part) : WrittenAs .declarations parts.flatten := by
  intro lo
  induction parts generalizing lo with
  | nil => exact ⟨[], lo, .declarationsEnd⟩
  | cons part parts ih =>
    rw [List.forall_mem_cons] at h
    obtain ⟨s, mid, hs⟩ := h.1 lo
    obtain ⟨body, hi, hb⟩ := ih h.2 mid
    exact ⟨s :: body, hi, .declarationsMore hs hb⟩

theorem written_methods {parts : List (List Token)} (h : ∀ part ∈ parts, (symbol .function).Means Written part) :
    WrittenAs .methods parts.flatten := by
  intro lo
  induction parts generalizing lo with
  | nil => exact ⟨[], lo, .methodsEnd⟩
  | cons part parts ih =>
    rw [List.forall_mem_cons] at h
    obtain ⟨d, mid, hd⟩ := h.1 lo
    obtain ⟨ds, hi, hds⟩ := ih h.2 mid
    exact ⟨d :: ds, hi, .methodsMore hd hds⟩

theorem written_superclass (h : (opt (mark .less ++ ident)).Means Written ts) : WrittenAs .superclass ts := by
  intro lo
  rcases h with rfl | h
  · exact ⟨none, lo, .noSuperclass⟩
  · obtain ⟨t, _, rfl, ht, hident⟩ := means_mark_append.1 h
    obtain ⟨name, rfl, hn⟩ := means_ident.1 hident
    exact ⟨_, lo + 1, .someSuperclass ht hn⟩

theorem written_classDecl (h : Symbol.classDecl.rule.Means Written ts) : WrittenAs .declaration ts := by
  intro lo
  obtain ⟨_, t₂, rfl, h, h₂⟩ := means_append_mark.1 h
  obtain ⟨_, ts₂, rfl, h, hms⟩ := means_append.1 h
  obtain ⟨_, t₁, rfl, h, h₁⟩ := means_append_mark.1 h
  obtain ⟨_, ts₁, rfl, h, hs⟩ := means_append.1 h
  obtain ⟨_, name, rfl, h, hn⟩ := means_append_ident.1 h
  obtain ⟨k, rfl, hk⟩ := means_word.1 h
  obtain ⟨s, mid, hs⟩ := written_superclass hs lo
  obtain ⟨parts, rfl, hparts⟩ := hms
  obtain ⟨ms, hi, hm⟩ := written_methods hparts mid
  refine ⟨.classDecl name s ms, hi, ?_⟩
  simp only [List.append_assoc, List.cons_append, List.nil_append]
  exact .classDecl hk hn hs h₁ hm h₂

theorem written_function (h : Symbol.function.rule.Means Written ts) : WrittenAs .function ts := by
  intro lo
  obtain ⟨_, vs, rfl, h, hblock⟩ := means_append.1 h
  obtain ⟨_, t₂, rfl, h, h₂⟩ := means_append_mark.1 h
  obtain ⟨_, ts, rfl, h, hp⟩ := means_append.1 h
  obtain ⟨_, t₁, rfl, h, h₁⟩ := means_append_mark.1 h
  obtain ⟨name, rfl, hn⟩ := means_ident.1 h
  have hp' : WrittenAs .parameters ts := by
    intro lo
    rcases hp with rfl | hp
    · exact ⟨[], lo, .noParameters⟩
    · obtain ⟨names, hi, hnames⟩ := hp lo
      exact ⟨names, hi, .someParameters hnames⟩
  obtain ⟨t₃, us, t₄, rfl, h₃, h₄, hb⟩ := hblock
  obtain ⟨params, mid, hp⟩ := hp' lo
  obtain ⟨body, hi, hb⟩ := hb mid
  refine ⟨.mk name params body, hi, ?_⟩
  simp only [List.append_assoc, List.cons_append, List.nil_append]
  exact .function hn h₁ hp h₂ h₃ hb h₄

theorem written_varDecl (h : Symbol.varDecl.rule.Means Written ts) : Written .varDecl ts := by
  obtain ⟨_, semi, rfl, h, hs⟩ := means_append_mark.1 h
  obtain ⟨_, vs, rfl, h, he⟩ := means_append.1 h
  obtain ⟨_, name, rfl, h, hn⟩ := means_append_ident.1 h
  obtain ⟨k, rfl, hk⟩ := means_word.1 h
  refine ⟨k, name :: vs ++ [semi], by simp, hk, fun lo => ?_⟩
  rcases he with rfl | he
  · exact ⟨_, lo, .varPlain hn hs⟩
  · obtain ⟨t, us, rfl, ht, hx⟩ := means_mark_append.1 he
    obtain ⟨x, hi, hx⟩ := hx lo
    exact ⟨_, hi, .varValue hn ht hx hs⟩

theorem written_forStmt (h : Symbol.forStmt.rule.Means Written ts) : Written .forStmt ts := by
  intro lo
  obtain ⟨_, ts₄, rfl, h, hb⟩ := means_append.1 h
  obtain ⟨_, t₃, rfl, h, h₃⟩ := means_append_mark.1 h
  obtain ⟨_, ts₃, rfl, h, hi⟩ := means_append.1 h
  obtain ⟨_, t₂, rfl, h, h₂⟩ := means_append_mark.1 h
  obtain ⟨_, ts₂, rfl, h, hc⟩ := means_append.1 h
  obtain ⟨_, ts₁, rfl, h, hf⟩ := means_append.1 h
  obtain ⟨_, t₁, rfl, h, h₁⟩ := means_append_mark.1 h
  obtain ⟨k, rfl, hk⟩ := means_word.1 h
  have hf' : WrittenAs .forInitializer ts₁ := by
    intro lo
    rcases means_or.1 hf with hf | hf
    · rcases means_or.1 hf with ⟨k, us, rfl, hk, hv⟩ | hf
      · obtain ⟨s, hi, hs⟩ := hv lo
        exact ⟨some s, hi, .varInitializer hk hs⟩
      · obtain ⟨s, hi, hs⟩ := hf lo
        exact ⟨some s, hi, .expressionInitializer hs⟩
    · obtain ⟨semi, rfl, hs⟩ := means_mark.1 hf
      exact ⟨none, lo, .noInitializer hs⟩
  have hc' : WrittenAs .forCondition ts₂ := by
    intro lo
    rcases hc with rfl | hc
    · exact ⟨_, lo, .noCondition⟩
    · obtain ⟨x, hi, hx⟩ := hc lo
      exact ⟨x, hi, .someCondition hx⟩
  have hi' : WrittenAs .forIncrement ts₃ := by
    intro lo
    rcases hi with rfl | hi
    · exact ⟨none, lo, .noIncrement⟩
    · obtain ⟨x, hi, hx⟩ := hi lo
      exact ⟨some x, hi, .someIncrement hx⟩
  obtain ⟨first, l₁, hfirst⟩ := hf' lo
  obtain ⟨c, l₂, hcond⟩ := hc' l₁
  obtain ⟨i, l₃, hincr⟩ := hi' l₂
  obtain ⟨⟨o, body⟩, hi, hbody⟩ := hb l₃
  refine ⟨(o, .forLoop first c body i), hi, ?_⟩
  simp only [List.append_assoc, List.cons_append, List.nil_append]
  exact .forLoop hk h₁ hfirst hcond h₂ hincr h₃ hbody

/-- A condition in parentheses and a statement behind a keyword. -/
theorem means_condition {kw : Keyword}
    (h : (word kw ++ mark .leftParen ++ symbol .expression ++ mark .rightParen ++ symbol .statement).Means Written ts) :
    ∃ k t₁ us t₂ vs, ts = k :: t₁ :: us ++ t₂ :: vs ∧ k.kind = .keyword kw ∧ t₁.kind = .mark .leftParen ∧
      WrittenAs .expression us ∧ t₂.kind = .mark .rightParen ∧ Written .statement vs := by
  obtain ⟨_, vs, rfl, h, hs⟩ := means_append.1 h
  obtain ⟨_, t₂, rfl, h, h₂⟩ := means_append_mark.1 h
  obtain ⟨_, us, rfl, h, hc⟩ := means_append.1 h
  obtain ⟨_, t₁, rfl, h, h₁⟩ := means_append_mark.1 h
  obtain ⟨k, rfl, hk⟩ := means_word.1 h
  exact ⟨k, t₁, us, t₂, vs, by simp, hk, h₁, hc, h₂, hs⟩

theorem written_ifStmt (h : Symbol.ifStmt.rule.Means Written ts) : Written .ifStmt ts := by
  intro lo
  obtain ⟨_, ws, rfl, h, he⟩ := means_append.1 h
  obtain ⟨k, t₁, us, t₂, vs, rfl, hk, h₁, hc, h₂, hs⟩ := means_condition h
  obtain ⟨c, l₁, hc⟩ := hc lo
  obtain ⟨⟨o, s⟩, l₂, hs⟩ := hs l₁
  rcases he with rfl | he
  · rw [List.append_nil]
    exact ⟨(true, _), l₂, .ifThen hk h₁ hc h₂ hs⟩
  · obtain ⟨t₃, ws, rfl, h₃, he⟩ := means_word_append.1 he
    obtain ⟨⟨o', e⟩, hi, he⟩ := he l₂
    simp only [List.append_assoc, List.cons_append]
    cases o with
    | false => exact ⟨(o', _), hi, .ifElse hk h₁ hc h₂ hs h₃ he⟩
    | true =>
      obtain ⟨o'', s', hs'⟩ := hs.attachElse rfl h₃ he
      exact ⟨(true, _), hi, .ifThen hk h₁ hc h₂ hs'⟩

theorem written_block (h : Symbol.block.rule.Means Written ts) : Written .block ts := by
  obtain ⟨_, close, rfl, h, hc⟩ := means_append_mark.1 h
  obtain ⟨t, _, rfl, ht, parts, rfl, hparts⟩ := means_mark_append.1 h
  exact ⟨t, _, close, rfl, ht, hc, written_declarations hparts⟩

theorem statement_of_block (h : Written .block ts) : Written .statement ts := by
  intro lo
  obtain ⟨t, us, close, rfl, ht, hc, hb⟩ := h
  obtain ⟨body, hi, hb⟩ := hb lo
  exact ⟨(false, _), hi, .block ht hb hc⟩

theorem written_statement (h : Symbol.statement.rule.Means Written ts) : Written .statement ts := by
  simp only [Symbol.rule, means_or] at h
  rcases h with (((((((h | h) | h) | h) | h) | h) | h) | h) | h
  · intro lo
    obtain ⟨s, hi, hs⟩ := h lo
    exact ⟨(false, s), hi, .expressionOnly hs⟩
  · exact h
  · exact h
  · exact h
  · exact h
  · exact h
  · exact h
  · exact h
  · exact statement_of_block h

/-- The rules of the grammar keep what is written as a phrase. -/
theorem written_of_rule (s : Symbol) (ts : List Token) (h : s.rule.Means Written ts) : Written s ts := by
  cases s with
  | program =>
    obtain ⟨parts, rfl, hparts⟩ := h
    exact written_declarations hparts
  | declaration =>
    intro lo
    simp only [Symbol.rule, means_or] at h
    rcases h with ((h | h) | ⟨k, us, rfl, hk, h⟩) | h
    · exact h lo
    · exact h lo
    · obtain ⟨s, hi, hs⟩ := h lo
      exact ⟨s, hi, .varDecl hk hs⟩
    · obtain ⟨⟨o, s⟩, hi, hs⟩ := h lo
      exact ⟨s, hi, .noDeclaration hs⟩
  | classDecl => exact written_classDecl h
  | funDecl =>
    intro lo
    obtain ⟨k, us, rfl, hk, hd⟩ := means_word_append.1 h
    obtain ⟨d, hi, hd⟩ := hd lo
    exact ⟨_, hi, .funDecl hk hd⟩
  | function => exact written_function h
  | parameters =>
    obtain ⟨_, _, rfl, hn, parts, rfl, hlen, hparts⟩ := means_append.1 h
    obtain ⟨name, rfl, hname⟩ := means_ident.1 hn
    exact written_parameterNames (by unfold maxArity at *; omega) hparts hname
  | varDecl => exact written_varDecl h
  | statement => exact written_statement h
  | exprStmt =>
    intro lo
    obtain ⟨us, semi, rfl, hx, hs⟩ := means_append_mark.1 h
    obtain ⟨x, hi, hx⟩ := hx lo
    exact ⟨_, hi, .expressionStatement hx hs⟩
  | forStmt => exact written_forStmt h
  | ifStmt => exact written_ifStmt h
  | printStmt =>
    intro lo
    obtain ⟨_, semi, rfl, h, hs⟩ := means_append_mark.1 h
    obtain ⟨k, us, rfl, hk, hx⟩ := means_word_append.1 h
    obtain ⟨x, hi, hx⟩ := hx lo
    exact ⟨(false, _), hi, .print hk hx hs⟩
  | returnStmt =>
    intro lo
    obtain ⟨_, semi, rfl, h, hs⟩ := means_append_mark.1 h
    obtain ⟨k, us, rfl, hk, rfl | hx⟩ := means_word_append.1 h
    · exact ⟨(false, _), lo, .returnNothing hk hs⟩
    · obtain ⟨x, hi, hx⟩ := hx lo
      exact ⟨(false, _), hi, .returnValue hk hx hs⟩
  | whileStmt =>
    intro lo
    obtain ⟨k, t₁, us, t₂, vs, rfl, hk, h₁, hc, h₂, hs⟩ := means_condition h
    obtain ⟨c, mid, hc⟩ := hc lo
    obtain ⟨⟨o, s⟩, hi, hs⟩ := hs mid
    exact ⟨(o, _), hi, .whileLoop hk h₁ hc h₂ hs⟩
  | breakStmt =>
    intro lo
    obtain ⟨k, _, rfl, hk, hsemi⟩ := means_word_append.1 h
    obtain ⟨semi, rfl, hs⟩ := means_mark.1 hsemi
    exact ⟨(false, _), lo, .breakLoop hk hs⟩
  | continueStmt =>
    intro lo
    obtain ⟨k, _, rfl, hk, hsemi⟩ := means_word_append.1 h
    obtain ⟨semi, rfl, hs⟩ := means_mark.1 hsemi
    exact ⟨(false, _), lo, .continueLoop hk hs⟩
  | block => exact written_block h
  | expression => exact h
  | assignment => exact written_assignment h
  | logicOr => exact written_binary (l := .disjunction) h
  | logicAnd => exact written_binary (l := .conjunction) h
  | equality => exact written_binary (l := .equality) h
  | comparison => exact written_binary (l := .comparison) h
  | term => exact written_binary (l := .sum) h
  | factor => exact written_binary (l := .product) h
  | unary => exact written_unary h
  | stepped => exact written_stepped h
  | call => exact written_call h
  | arguments =>
    obtain ⟨us, _, rfl, hx, parts, rfl, hlen, hparts⟩ := means_append.1 h
    exact written_argumentList (by unfold maxArity at *; omega) hparts hx
  | primary => exact written_primary h

/-! ## acceptance -/

/-- Parsing succeeds exactly on the token lists that are a program of the grammar up to the end of the source. -/
theorem parse_ok_iff_derives (fresh : Label) (tokens : List Token) :
    (∃ program, (parse fresh tokens).result = .ok program) ↔ (symbol .program).Derives (beforeEnd tokens) := by
  constructor
  · rintro ⟨program, h⟩
    exact .symbol (reads_of_parse h).derivable
  · intro h
    obtain ⟨program, hi, hr⟩ := h.means written_of_rule fresh
    exact ⟨program, by rw [parse_of_reads hr]⟩

end ScriptLang
