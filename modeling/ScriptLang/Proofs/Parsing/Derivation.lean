import ScriptLang.Proofs.Parsing.Grammar
import ScriptLang.Proofs.Parsing.Phrase

/-!
# Phrases can be derived

The tokens of a phrase can be derived from its part of the grammar (`Reads.derivable`).  For the side conditions of the
grammar the induction carries one more fact: the tokens of an expression that can be assigned to are a target.
-/

namespace ScriptLang

open Ebnf

/-! ## derivations -/

namespace Ebnf

variable {a b c e : Ebnf} {t : Token} {ts us vs : List Token}

theorem derives_mark {m : Mark} (h : t.kind = .mark m) : (mark m).Derives [t] := .token (by simpa using h)

theorem derives_word {k : Keyword} (h : t.kind = .keyword k) : (word k).Derives [t] := .token (by simpa using h)

theorem derives_ident (h : t.kind = .identifier) : ident.Derives [t] := .token (by simpa using h)

theorem Derives.append (h : a.Derives ts) (h' : b.Derives us) : (a ++ b).Derives (ts ++ us) := .seq h h'

/-- A token and what follows it. -/
theorem Derives.cons (h : a.Derives [t]) (h' : b.Derives us) : (a ++ b).Derives (t :: us) := .seq h h'

theorem Derives.append_empty (h : a.Derives ts) (h' : b.Derives []) : (a ++ b).Derives ts := by
  have hd := h.append h'
  rwa [List.append_nil] at hd

theorem Derives.or_left (h : a.Derives ts) : (a ||| b).Derives ts := .first h

theorem Derives.or_right (h : b.Derives ts) : (a ||| b).Derives ts := .second h

theorem exists_of_derives_append (h : (a ++ b).Derives ts) : ∃ us vs, ts = us ++ vs ∧ a.Derives us ∧ b.Derives vs := by
  cases h with
  | seq h₁ h₂ => exact ⟨_, _, rfl, h₁, h₂⟩

/-- Sequences may be grouped from the left or from the right. -/
theorem Derives.assoc (h : (a ++ (b ++ c)).Derives ts) : (a ++ b ++ c).Derives ts := by
  obtain ⟨us, vs, rfl, ha, h⟩ := exists_of_derives_append h
  obtain ⟨vs, ws, rfl, hb, hc⟩ := exists_of_derives_append h
  rw [← List.append_assoc]
  exact (ha.append hb).append hc

end Ebnf

namespace Level

/-- The part of the grammar that a level is. -/
def symbol : Level → Symbol
  | disjunction => .logicOr
  | conjunction => .logicAnd
  | equality => .equality
  | comparison => .comparison
  | sum => .term
  | product => .factor

/-- The part of the grammar that the operands of a level are. -/
def operandSymbol : Level → Symbol
  | disjunction => .logicAnd
  | conjunction => .equality
  | equality => .comparison
  | comparison => .term
  | sum => .factor
  | product => .unary

/-- The operators of a level in the grammar. -/
def operatorForm : Level → Ebnf
  | disjunction => word .kwOr
  | conjunction => word .kwAnd
  | equality => mark .bangEqual ||| mark .equalEqual
  | comparison => mark .greater ||| mark .greaterEqual ||| mark .less ||| mark .lessEqual
  | sum => mark .minus ||| mark .plus
  | product => mark .slash ||| mark .star

theorem rule_symbol (l : Level) : l.symbol.rule = chain (.symbol l.operandSymbol) l.operatorForm := by
  cases l <;> rfl

theorem operandSymbol_of_tighter {l inner : Level} (h : l.tighter? = some inner) : l.operandSymbol = inner.symbol := by
  cases l <;> cases h <;> rfl

theorem operandSymbol_of_tightest {l : Level} (h : l.tighter? = none) : l.operandSymbol = .unary := by
  cases l <;> first | rfl | cases h

theorem derives_operatorForm {l : Level} {t : Token} (h : t.kind ∈ l.operators) : l.operatorForm.Derives [t] := by
  cases l with
  | disjunction => exact derives_word (List.mem_singleton.1 h)
  | conjunction => exact derives_word (List.mem_singleton.1 h)
  | equality =>
    simp only [operators, List.mem_cons, List.not_mem_nil, or_false] at h
    rcases h with h | h
    · exact .or_left (derives_mark h)
    · exact .or_right (derives_mark h)
  | comparison =>
    simp only [operators, List.mem_cons, List.not_mem_nil, or_false] at h
    rcases h with h | h | h | h
    · exact .or_left (.or_left (.or_left (derives_mark h)))
    · exact .or_left (.or_left (.or_right (derives_mark h)))
    · exact .or_left (.or_right (derives_mark h))
    · exact .or_right (derives_mark h)
  | sum =>
    simp only [operators, List.mem_cons, List.not_mem_nil, or_false] at h
    rcases h with h | h
    · exact .or_left (derives_mark h)
    · exact .or_right (derives_mark h)
  | product =>
    simp only [operators, List.mem_cons, List.not_mem_nil, or_false] at h
    rcases h with h | h
    · exact .or_right (derives_mark h)
    · exact .or_left (derives_mark h)

end Level

/-! ## what can be assigned to -/

/-- Whether an expression can be assigned to. -/
def Expr.isTarget : Expr → Bool
  | .variable _ _ | .get _ _ => true
  | _ => false

namespace Expr

theorem isTarget_of_assigned? {e v : Expr} {l : Label} {r : Expr × Label} (h : e.assigned? l v = some r) :
    e.isTarget = true := by
  unfold assigned? at h
  split at h <;> first | rfl | cases h

theorem isTarget_of_updated? {e v : Expr} {l : Label} {op : Token} {r : Expr × Label}
    (h : e.updated? l op v = some r) : e.isTarget = true ∧ r.1.isTarget = false := by
  unfold updated? at h
  split at h <;> first | exact ⟨rfl, by cases h; rfl⟩ | cases h

theorem exists_assigned? {e : Expr} (h : e.isTarget = true) (l : Label) (v : Expr) :
    ∃ x hi, e.assigned? l v = some (x, hi) := by
  unfold isTarget at h
  split at h
  · exact ⟨_, _, rfl⟩
  · exact ⟨_, _, rfl⟩
  · cases h

theorem exists_updated? {e : Expr} (h : e.isTarget = true) (l : Label) (op : Token) (v : Expr) :
    ∃ x hi, e.updated? l op v = some (x, hi) := by
  unfold isTarget at h
  split at h
  · exact ⟨_, _, rfl⟩
  · exact ⟨_, _, rfl⟩
  · cases h

theorem isTarget_node (l : Level) (left right : Expr) (op : Token) : (l.node left op right).isTarget = false := by
  cases l <;> rfl

end Expr

/-! ## from phrases to derivations -/

namespace Phrase

open Rule (maxArity)

/-- What the tokens of a phrase can be derived from; those of an expression that can be assigned to are a target. -/
def Derivable : Phrase → List Token → Prop
  | expression _, ts => (symbol .expression).Derives ts
  | binary l x, ts => (symbol l.symbol).Derives ts ∧ (x.isTarget = true → target.Derives ts)
  | operand l x, ts => (symbol l.operandSymbol).Derives ts ∧ (x.isTarget = true → target.Derives ts)
  | binaryRest l left x, ts =>
    (star (l.operatorForm ++ symbol l.operandSymbol)).Derives ts ∧ (x.isTarget = true → x = left ∧ ts = [])
  | unary x, ts => (symbol .unary).Derives ts ∧ (x.isTarget = true → target.Derives ts)
  | call x, ts => (symbol .call).Derives ts ∧ (x.isTarget = true → target.Derives ts)
  | callRest f x, ts => (star callSuffix).Derives ts ∧
    (x.isTarget = true → x = f ∧ ts = [] ∨ (star callSuffix ++ (mark .dot ++ ident)).Derives ts)
  | arguments _, ts => (opt (symbol .arguments)).Derives ts
  | argumentList count _, ts =>
    (symbol .expression ++ upTo (maxArity - 1 - count) (mark .comma ++ symbol .expression)).Derives ts
  | primary x, ts => (symbol .primary).Derives ts ∧ (x.isTarget = true → ident.Derives ts)
  | varDeclaration _, ts => (ident ++ (opt (mark .equal ++ symbol .expression) ++ mark .semicolon)).Derives ts
  | expressionStatement _, ts => (symbol .exprStmt).Derives ts
  | forInitializer _, ts => (symbol .varDecl ||| symbol .exprStmt ||| mark .semicolon).Derives ts
  | forCondition _, ts | forIncrement _, ts => (opt (symbol .expression)).Derives ts
  | statement _ _, ts => (symbol .statement).Derives ts
  | declaration _, ts => (symbol .declaration).Derives ts
  | declarations _, ts => (star (symbol .declaration)).Derives ts
  | parameters _, ts => (opt (symbol .parameters)).Derives ts
  | parameterNames count _, ts => (ident ++ upTo (maxArity - 1 - count) (mark .comma ++ ident)).Derives ts
  | function _, ts => (symbol .function).Derives ts
  | superclass _, ts => (opt (mark .less ++ ident)).Derives ts
  | methods _, ts => (star (symbol .function)).Derives ts

variable {ts us vs : List Token} {t : Token} {x f : Expr}

theorem derivable_assignment {target' : Expr} (h : Derivable (.binary .disjunction target') ts)
    (ht : target'.isTarget = true)
    (hk : (mark .equal ||| mark .plusEqual ||| mark .minusEqual ||| mark .starEqual ||| mark .slashEqual).Derives [t])
    (hv : (symbol .expression).Derives us) : (symbol .expression).Derives (ts ++ t :: us) := by
  cases hv with
  | symbol hv =>
  have hd := ((h.2 ht).append hk).append hv
  rw [List.append_assoc, List.singleton_append] at hd
  exact .symbol (.symbol (.or_left hd))

theorem derives_compound {op : Mark} (hk : compound? t.kind = some op) :
    (mark .equal ||| mark .plusEqual ||| mark .minusEqual ||| mark .starEqual ||| mark .slashEqual).Derives [t] := by
  unfold compound? at hk
  split at hk
  · next h => exact .or_left (.or_left (.or_left (.or_right (derives_mark h))))
  · next h => exact .or_left (.or_left (.or_right (derives_mark h)))
  · next h => exact .or_left (.or_right (derives_mark h))
  · next h => exact .or_right (derives_mark h)
  · cases hk

theorem derives_step {op : Mark} (hk : step? t.kind = some op) : step.Derives [t] := by
  unfold step? at hk
  split at hk
  · next h => exact .or_left (derives_mark h)
  · next h => exact .or_right (derives_mark h)
  · cases hk

theorem derivable_binary {l : Level} {left : Expr} (h : Derivable (.operand l left) ts)
    (hr : Derivable (.binaryRest l left x) us) : Derivable (.binary l x) (ts ++ us) := by
  refine ⟨.symbol ?_, fun hx => ?_⟩
  · rw [Level.rule_symbol]
    exact h.1.append hr.1
  · obtain ⟨rfl, rfl⟩ := hr.2 hx
    rw [List.append_nil]
    exact h.2 hx

theorem derivable_binaryMore {l : Level} {left right : Expr} (hk : t.kind ∈ l.operators)
    (h : Derivable (.operand l right) ts) (hr : Derivable (.binaryRest l (l.node left t right) x) us) :
    Derivable (.binaryRest l left x) (t :: ts ++ us) := by
  refine ⟨.starMore ((Level.derives_operatorForm hk).cons h.1) hr.1, fun hx => ?_⟩
  obtain ⟨rfl, rfl⟩ := hr.2 hx
  rw [Expr.isTarget_node] at hx
  cases hx

theorem derivable_sign (hk : sign? t.kind = some ()) (h : Derivable (.unary x) ts) :
    Derivable (.unary (.unary t x)) (t :: ts) := by
  refine ⟨.symbol (.or_left (.or_left ?_)), by simp [Expr.isTarget]⟩
  unfold sign? at hk
  split at hk
  · next ht => exact Derives.cons (.or_left (derives_mark ht)) h.1
  · next ht => exact Derives.cons (.or_right (derives_mark ht)) h.1
  · cases hk

theorem derivable_stepBefore {target' v : Expr} {op op' : Mark} {l hi : Label} (hk : step? t.kind = some op)
    (h : Derivable (.unary target') ts) (hx : target'.updated? l (Token.ofMark op' t.line) v = some (x, hi)) :
    Derivable (.unary x) (t :: ts) := by
  obtain ⟨ht, hx⟩ := Expr.isTarget_of_updated? hx
  refine ⟨.symbol (.or_left (.or_right ?_)), fun hx' => ?_⟩
  · exact (derives_step hk).cons (.both h.1 (h.2 ht))
  · rw [hx] at hx'
    cases hx'

theorem derivable_stepBehind {target' v : Expr} {op op' : Mark} {l hi : Label} (h : Derivable (.call target') ts)
    (hk : step? t.kind = some op) (hx : target'.updated? l (Token.ofMark op' t.line) v = some (x, hi)) :
    Derivable (.unary x) (ts ++ [t]) := by
  obtain ⟨ht, hx⟩ := Expr.isTarget_of_updated? hx
  refine ⟨.symbol (.or_right (.symbol (.or_right ?_))), fun hx' => ?_⟩
  · exact Derives.append (.both h.1 (h.2 ht)) (derives_step hk)
  · rw [hx] at hx'
    cases hx'

theorem derivable_call (h : Derivable (.primary f) ts) (hr : Derivable (.callRest f x) us) :
    Derivable (.call x) (ts ++ us) := by
  refine ⟨.symbol (h.1.append hr.1), fun hx => ?_⟩
  rcases hr.2 hx with ⟨rfl, rfl⟩ | hr'
  · rw [List.append_nil]
    exact Derives.append .absent (h.2 hx)
  · obtain ⟨vs, ws, rfl, hv, hw⟩ := exists_of_derives_append hr'
    obtain ⟨ws, ws', rfl, hd, hn⟩ := exists_of_derives_append hw
    have hc : (symbol .call).Derives (ts ++ vs) := .symbol (h.1.append hv)
    have hd := Derives.append (.present (hc.append hd)) hn
    simp only [List.append_assoc] at hd
    exact hd

theorem derivable_callArguments {args : List Expr} {paren : Token} (hk : t.kind = .mark .leftParen)
    (h : Derivable (.arguments args) ts) (hp : paren.kind = .mark .rightParen)
    (hr : Derivable (.callRest (.call f paren args) x) us) : Derivable (.callRest f x) (t :: ts ++ paren :: us) := by
  have hs : callSuffix.Derives (t :: ts ++ [paren]) :=
    .or_left (((derives_mark hk).cons h).append (derives_mark hp))
  have he : t :: ts ++ paren :: us = (t :: ts ++ [paren]) ++ us := by simp
  rw [he]
  refine ⟨.starMore hs hr.1, fun hx => .inr ?_⟩
  rcases hr.2 hx with ⟨rfl, rfl⟩ | hr'
  · cases hx
  · obtain ⟨vs, ws, rfl, hv, hw⟩ := exists_of_derives_append hr'
    rw [← List.append_assoc]
    exact Derives.append (.starMore hs hv) hw

theorem derivable_callProperty {name : Token} (hk : t.kind = .mark .dot) (hn : name.kind = .identifier)
    (hr : Derivable (.callRest (.get f name) x) us) : Derivable (.callRest f x) (t :: name :: us) := by
  have hd : (mark .dot ++ ident).Derives [t, name] := (derives_mark hk).cons (derives_ident hn)
  have hs : callSuffix.Derives [t, name] := .or_right hd
  refine ⟨.starMore hs hr.1, fun hx => .inr ?_⟩
  rcases hr.2 hx with ⟨rfl, rfl⟩ | hr'
  · exact Derives.append .starEnd hd
  · obtain ⟨vs, ws, rfl, hv, hw⟩ := exists_of_derives_append hr'
    exact Derives.append (.starMore hs hv) hw

theorem derivable_constant {v : Literal} (hk : constant? t.kind = some v) : Derivable (.primary (.literal v)) [t] := by
  refine ⟨.symbol (.or_left (.or_left (.or_left (.or_left ?_)))), by simp [Expr.isTarget]⟩
  unfold constant? at hk
  split at hk
  · next h => exact .or_left (.or_right (derives_word h))
  · next h => exact .or_left (.or_left (.or_right (derives_word h)))
  · next h => exact .or_right (derives_word h)
  · next h => exact .or_left (.or_left (.or_left (.or_left (.token (by rw [h])))))
  · next h => exact .or_left (.or_left (.or_left (.or_right (.token (by rw [h])))))
  · cases hk

/-- The entries of a list that are still allowed behind another one. -/
theorem derives_upTo_pred {e : Ebnf} {count : Nat} (hc : count + 1 < maxArity) (hk : e.Derives ts)
    (hr : (upTo (maxArity - 1 - (count + 1)) e).Derives us) : (upTo (maxArity - 1 - count) e).Derives (ts ++ us) := by
  have hn : maxArity - 1 - count = maxArity - 1 - (count + 1) + 1 := by omega
  rw [hn]
  exact .upToMore hk hr

/-- More than one entry is read only while more are allowed. -/
theorem Reads.count_lt {p : Phrase} {lo hi : Label} (h : p.Reads lo ts hi) :
    (∀ count xs, p = .argumentList count xs → count < maxArity) ∧
      (∀ count names, p = .parameterNames count names → count < maxArity) := by
  cases h with
  | lastArgument hc _ | moreArguments hc _ _ _ =>
    refine ⟨?_, by simp⟩
    rintro _ _ ⟨⟩
    exact hc
  | lastParameter hc _ | moreParameters hc _ _ _ =>
    refine ⟨by simp, ?_⟩
    rintro _ _ ⟨⟩
    exact hc
  | _ => exact ⟨by simp, by simp⟩

theorem derivable_moreArguments {count : Nat} {xs : List Expr} (hc : count + 1 < maxArity) (h : (symbol .expression).Derives ts)
    (hk : t.kind = .mark .comma) (hr : Derivable (.argumentList (count + 1) xs) us) :
    Derivable (.argumentList count (x :: xs)) (ts ++ t :: us) := by
  obtain ⟨vs, ws, rfl, hv, hw⟩ := exists_of_derives_append hr
  exact h.append (derives_upTo_pred hc ((derives_mark hk).cons hv) hw)

theorem derivable_moreParameters {count : Nat} {name : Token} {names : List Token} (hc : count + 1 < maxArity)
    (hn : name.kind = .identifier) (hk : t.kind = .mark .comma) (hr : Derivable (.parameterNames (count + 1) names) us) :
    Derivable (.parameterNames count (name :: names)) (name :: t :: us) := by
  obtain ⟨vs, ws, rfl, hv, hw⟩ := exists_of_derives_append hr
  exact (derives_ident hn).cons (derives_upTo_pred hc ((derives_mark hk).cons hv) hw)

theorem derives_varDecl {s : Stmt} (hk : t.kind = .keyword .kwVar) (h : Derivable (.varDeclaration s) ts) :
    (symbol .varDecl).Derives (t :: ts) := .symbol ((derives_word hk).cons h).assoc.assoc

theorem derivable_varValue {name semi : Token} (hn : name.kind = .identifier) (hk : t.kind = .mark .equal)
    (h : (symbol .expression).Derives ts) (hs : semi.kind = .mark .semicolon) :
    Derivable (.varDeclaration (.varDecl name (some x))) (name :: t :: ts ++ [semi]) :=
  (derives_ident hn).cons (Derives.append (.present ((derives_mark hk).cons h)) (derives_mark hs))

theorem derives_forStmt {first : Option Stmt} {c : Expr} {i : Option Expr} {body : Stmt} {o : Bool}
    {k t₁ t₂ t₃ : Token} {ts₁ ts₂ ts₃ ts₄ : List Token} (hk : k.kind = .keyword .kwFor)
    (h₁ : t₁.kind = .mark .leftParen) (hf : Derivable (.forInitializer first) ts₁)
    (hc : Derivable (.forCondition c) ts₂) (h₂ : t₂.kind = .mark .semicolon) (hi : Derivable (.forIncrement i) ts₃)
    (h₃ : t₃.kind = .mark .rightParen) (hb : Derivable (.statement o body) ts₄) :
    (symbol .forStmt).Derives (k :: t₁ :: ts₁ ++ (ts₂ ++ t₂ :: (ts₃ ++ t₃ :: ts₄))) := by
  have h := (((((((derives_word hk).cons (derives_mark h₁)).append hf).append hc).append (derives_mark h₂)).append
    hi).append (derives_mark h₃)).append hb
  simp only [List.append_assoc, List.cons_append, List.nil_append] at h ⊢
  exact .symbol h

section Branches

variable {c : Expr} {s e : Stmt} {o o' : Bool} {k t₁ t₂ t₃ : Token}

/-- A condition in parentheses and a statement. -/
theorem derives_condition {kw : Keyword} (hk : k.kind = .keyword kw) (h₁ : t₁.kind = .mark .leftParen)
    (hc : Derivable (.expression c) ts) (h₂ : t₂.kind = .mark .rightParen) (hs : Derivable (.statement o s) us) :
    (word kw ++ mark .leftParen ++ symbol .expression ++ mark .rightParen ++ symbol .statement).Derives
      (k :: t₁ :: ts ++ t₂ :: us) := by
  have h := ((((derives_word hk).cons (derives_mark h₁)).append hc).append (derives_mark h₂)).append hs
  simp only [List.append_assoc, List.cons_append, List.nil_append] at h ⊢
  exact h

theorem derives_ifThen (hk : k.kind = .keyword .kwIf) (h₁ : t₁.kind = .mark .leftParen)
    (hc : Derivable (.expression c) ts) (h₂ : t₂.kind = .mark .rightParen) (hs : Derivable (.statement o s) us) :
    (symbol .ifStmt).Derives (k :: t₁ :: ts ++ t₂ :: us) := by
  exact .symbol ((derives_condition hk h₁ hc h₂ hs).append_empty .absent)

theorem derives_ifElse (hk : k.kind = .keyword .kwIf) (h₁ : t₁.kind = .mark .leftParen)
    (hc : Derivable (.expression c) ts) (h₂ : t₂.kind = .mark .rightParen) (hs : Derivable (.statement o s) us)
    (h₃ : t₃.kind = .keyword .kwElse) (he : Derivable (.statement o' e) vs) :
    (symbol .ifStmt).Derives (k :: t₁ :: ts ++ t₂ :: (us ++ t₃ :: vs)) := by
  have h := (derives_condition hk h₁ hc h₂ hs).append (.present ((derives_word h₃).cons he))
  simp only [List.append_assoc, List.cons_append] at h ⊢
  exact .symbol h

end Branches

theorem derives_block {body : List Stmt} {close : Token} (hk : t.kind = .mark .leftBrace)
    (h : Derivable (.declarations body) ts) (hc : close.kind = .mark .rightBrace) :
    (symbol .block).Derives (t :: ts ++ [close]) := .symbol (((derives_mark hk).cons h).append (derives_mark hc))

theorem derives_classDecl {name k t₁ t₂ : Token} {s : Option Expr} {ms : List FunctionDecl} {ts₁ ts₂ : List Token}
    (hk : k.kind = .keyword .kwClass) (hn : name.kind = .identifier) (hs : Derivable (.superclass s) ts₁)
    (h₁ : t₁.kind = .mark .leftBrace) (hm : Derivable (.methods ms) ts₂) (h₂ : t₂.kind = .mark .rightBrace) :
    (symbol .classDecl).Derives (k :: name :: ts₁ ++ t₁ :: (ts₂ ++ [t₂])) := by
  have h := (((((derives_word hk).cons (derives_ident hn)).append hs).append (derives_mark h₁)).append hm).append
    (derives_mark h₂)
  simp only [List.append_assoc, List.cons_append, List.nil_append] at h ⊢
  exact .symbol h

theorem derives_function {params : List Token} {body : List Stmt} {name t₁ t₂ t₃ t₄ : Token}
    (hn : name.kind = .identifier) (h₁ : t₁.kind = .mark .leftParen) (hp : Derivable (.parameters params) ts)
    (h₂ : t₂.kind = .mark .rightParen) (h₃ : t₃.kind = .mark .leftBrace) (hb : Derivable (.declarations body) us)
    (h₄ : t₄.kind = .mark .rightBrace) :
    (symbol .function).Derives (name :: t₁ :: ts ++ t₂ :: t₃ :: (us ++ [t₄])) := by
  have h := ((((derives_ident hn).cons (derives_mark h₁)).append hp).append (derives_mark h₂)).append
    (derives_block h₃ hb h₄)
  simp only [List.append_assoc, List.cons_append, List.nil_append] at h ⊢
  exact .symbol h

/-- The tokens of a phrase can be derived. -/
theorem Reads.derivable {p : Phrase} {lo hi : Label} (h : p.Reads lo ts hi) : p.Derivable ts := by
  induction h with
  | operators _ ih => exact .symbol (.symbol (.or_right ih.1))
  | assign _ hk _ hx ih₁ ih₂ =>
    refine derivable_assignment ih₁ (Expr.isTarget_of_assigned? hx) ?_ ih₂
    exact .or_left (.or_left (.or_left (.or_left (derives_mark hk))))
  | update _ hk _ hx ih₁ ih₂ =>
    exact derivable_assignment ih₁ (Expr.isTarget_of_updated? hx).1 (derives_compound hk) ih₂
  | binary _ _ ih₁ ih₂ => exact derivable_binary ih₁ ih₂
  | tighter hl _ ih =>
    simp only [Derivable, Level.operandSymbol_of_tighter hl]
    exact ih
  | tightest hl _ ih =>
    simp only [Derivable, Level.operandSymbol_of_tightest hl]
    exact ih
  | binaryEnd => exact ⟨.starEnd, fun _ => ⟨rfl, rfl⟩⟩
  | binaryMore hk _ _ ih₁ ih₂ => exact derivable_binaryMore hk ih₁ ih₂
  | sign hk _ ih => exact derivable_sign hk ih
  | stepBefore hk _ hx ih => exact derivable_stepBefore hk ih hx
  | stepBehind _ hk hx ih => exact derivable_stepBehind ih hk hx
  | noStep _ ih => exact ⟨.symbol (.or_right (.symbol (.or_left ih.1))), ih.2⟩
  | call _ _ ih₁ ih₂ => exact derivable_call ih₁ ih₂
  | callEnd => exact ⟨.starEnd, fun _ => .inl ⟨rfl, rfl⟩⟩
  | callArguments hk _ hp _ ih₁ ih₂ => exact derivable_callArguments hk ih₁ hp ih₂
  | callProperty hk hn _ ih => exact derivable_callProperty hk hn ih
  | noArguments => exact .absent
  | someArguments _ ih => exact .present (.symbol ih)
  | lastArgument _ _ ih =>
    exact ih.append_empty .upToEnd
  | moreArguments _ _ hk h ih₁ ih₂ => exact derivable_moreArguments (h.count_lt.1 _ _ rfl) ih₁ hk ih₂
  | constant hk => exact derivable_constant hk
  | identifier hk =>
    exact ⟨.symbol (.or_left (.or_left (.or_right (derives_ident hk)))), fun _ => derives_ident hk⟩
  | this hk =>
    exact ⟨.symbol (.or_left (.or_left (.or_left (.or_right (derives_word hk))))), by simp [Expr.isTarget]⟩
  | super hk hd hn =>
    exact ⟨.symbol (.or_right (((derives_word hk).cons (derives_mark hd)).append (derives_ident hn))),
      by simp [Expr.isTarget]⟩
  | group hk _ hc ih =>
    exact ⟨.symbol (.or_left (.or_right (((derives_mark hk).cons ih).append (derives_mark hc)))),
      by simp [Expr.isTarget]⟩
  | varPlain hn hs => exact (derives_ident hn).cons (Derives.append .absent (derives_mark hs))
  | varValue hn hk _ hs ih => exact derivable_varValue hn hk ih hs
  | expressionStatement _ hs ih => exact .symbol (ih.append (derives_mark hs))
  | noInitializer hs => exact .or_right (derives_mark hs)
  | varInitializer hk _ ih => exact .or_left (.or_left (derives_varDecl hk ih))
  | expressionInitializer _ ih => exact .or_left (.or_right ih)
  | noCondition | noIncrement => exact .absent
  | someCondition _ ih | someIncrement _ ih => exact .present ih
  | forLoop hk h₁ _ _ h₂ _ h₃ _ ih₁ ih₂ ih₃ ih₄ =>
    have hd := derives_forStmt hk h₁ ih₁ ih₂ h₂ ih₃ h₃ ih₄
    exact .symbol (.or_left (.or_left (.or_left (.or_left (.or_left (.or_left (.or_left (.or_right hd))))))))
  | ifThen hk h₁ _ h₂ _ ih₁ ih₂ =>
    have hd := derives_ifThen hk h₁ ih₁ h₂ ih₂
    exact .symbol (.or_left (.or_left (.or_left (.or_left (.or_left (.or_left (.or_right hd)))))))
  | ifElse hk h₁ _ h₂ _ h₃ _ ih₁ ih₂ ih₃ =>
    have hd := derives_ifElse hk h₁ ih₁ h₂ ih₂ h₃ ih₃
    exact .symbol (.or_left (.or_left (.or_left (.or_left (.or_left (.or_left (.or_right hd)))))))
  | print hk _ hs ih =>
    have hd : (symbol .printStmt).Derives _ := .symbol (((derives_word hk).cons ih).append (derives_mark hs))
    exact .symbol (.or_left (.or_left (.or_left (.or_left (.or_left (.or_right hd))))))
  | returnNothing hk hs =>
    have hd : (symbol .returnStmt).Derives _ := .symbol (((derives_word hk).cons .absent).append (derives_mark hs))
    exact .symbol (.or_left (.or_left (.or_left (.or_left (.or_right hd)))))
  | returnValue hk _ hs ih =>
    have hd : (symbol .returnStmt).Derives _ := .symbol (((derives_word hk).cons (.present ih)).append (derives_mark hs))
    exact .symbol (.or_left (.or_left (.or_left (.or_left (.or_right hd)))))
  | whileLoop hk h₁ _ h₂ _ ih₁ ih₂ =>
    have hd : (symbol .whileStmt).Derives _ := .symbol (derives_condition hk h₁ ih₁ h₂ ih₂)
    exact .symbol (.or_left (.or_left (.or_left (.or_right hd))))
  | breakLoop hk hs =>
    have hd : (symbol .breakStmt).Derives _ := .symbol ((derives_word hk).cons (derives_mark hs))
    exact .symbol (.or_left (.or_left (.or_right hd)))
  | continueLoop hk hs =>
    have hd : (symbol .continueStmt).Derives _ := .symbol ((derives_word hk).cons (derives_mark hs))
    exact .symbol (.or_left (.or_right hd))
  | block hk _ hc ih => exact .symbol (.or_right (derives_block hk ih hc))
  | expressionOnly _ ih =>
    exact .symbol (.or_left (.or_left (.or_left (.or_left (.or_left (.or_left (.or_left (.or_left ih))))))))
  | classDecl hk hn _ h₁ _ h₂ ih₁ ih₂ =>
    exact .symbol (.or_left (.or_left (.or_left (derives_classDecl hk hn ih₁ h₁ ih₂ h₂))))
  | funDecl hk _ ih => exact .symbol (.or_left (.or_left (.or_right (.symbol ((derives_word hk).cons ih)))))
  | varDecl hk _ ih => exact .symbol (.or_left (.or_right (derives_varDecl hk ih)))
  | noDeclaration _ ih => exact .symbol (.or_right ih)
  | declarationsEnd => exact .starEnd
  | declarationsMore _ _ ih₁ ih₂ => exact .starMore ih₁ ih₂
  | noParameters => exact .absent
  | someParameters _ ih => exact .present (.symbol ih)
  | lastParameter _ hn => exact (derives_ident hn).cons .upToEnd
  | moreParameters _ hn hk h ih => exact derivable_moreParameters (h.count_lt.2 _ _ rfl) hn hk ih
  | function hn h₁ _ h₂ h₃ _ h₄ ih₁ ih₂ => exact derives_function hn h₁ ih₁ h₂ h₃ ih₂ h₄
  | noSuperclass => exact .absent
  | someSuperclass hk hn => exact .present ((derives_mark hk).cons (derives_ident hn))
  | methodsEnd => exact .starEnd
  | methodsMore _ _ ih₁ ih₂ => exact .starMore ih₁ ih₂

end Phrase

end ScriptLang
