import ScriptLang.Proofs.Parsing.Acceptance
import ScriptLang.Proofs.Parsing.Arity
import ScriptLang.Proofs.Parsing.Moved
import ScriptLang.Proofs.Parsing.RoundTrip

/-!
# Compound assignments and steps are sugar

* `AlwaysReads p ts x` — the tokens are read as the same tree `x` from every label on, up to labels;
* `ParsesAs ts x` — as a statement of its own, the tokens are parsed as `x`, up to labels;
* `update_is_sugar` — a compound assignment is the assignment of the target combined with the group of the value,
  without the group, and a step is the compound assignment of one;
* `no_update_by_longCall` — this does not hold of all values that can be derived without the side conditions of the
  grammar.

A target and a value are read once, at label zero.  Wherever else they stand they are read as the same tree with other
labels (`Reads.moved`), so each form is put together from trees that are known before the form is.
-/

namespace ScriptLang

open Ebnf
open Phrase (Reads)
open Rule (maxArity one)

/-! ## trees up to labels -/

mutual

@[simp] theorem Expr.unlabelled_moved (k : Nat) (x : Expr) : (x.moved id k).unlabelled = x.unlabelled := by
  cases x with
  | literal v => rfl
  | group x => rw [Expr.moved, Expr.unlabelled, Expr.unlabelled_moved k x, Expr.unlabelled]
  | unary op x => rw [Expr.moved, Expr.unlabelled, Expr.unlabelled_moved k x, Expr.unlabelled, Token.moved_id]
  | binary x op y =>
    rw [Expr.moved, Expr.unlabelled, Expr.unlabelled_moved k x, Expr.unlabelled_moved k y, Expr.unlabelled,
      Token.moved_id]
  | logical x op y =>
    rw [Expr.moved, Expr.unlabelled, Expr.unlabelled_moved k x, Expr.unlabelled_moved k y, Expr.unlabelled,
      Token.moved_id]
  | «variable» l name => rfl
  | assign l name x => rw [Expr.moved, Expr.unlabelled, Expr.unlabelled_moved k x, Expr.unlabelled, Token.moved_id]
  | call f paren xs =>
    rw [Expr.moved, Expr.unlabelled, Expr.unlabelled_moved k f, Expr.unlabelledAll_moved k xs, Expr.unlabelled,
      Token.moved_id]
  | get x name => rw [Expr.moved, Expr.unlabelled, Expr.unlabelled_moved k x, Expr.unlabelled, Token.moved_id]
  | set x name y =>
    rw [Expr.moved, Expr.unlabelled, Expr.unlabelled_moved k x, Expr.unlabelled_moved k y, Expr.unlabelled,
      Token.moved_id]
  | this l keyword => rfl
  | super l keyword name => rfl

@[simp] theorem Expr.unlabelledAll_moved (k : Nat) (xs : List Expr) :
    Expr.unlabelledAll (Expr.movedAll id k xs) = Expr.unlabelledAll xs := by
  cases xs with
  | nil => rfl
  | cons x xs =>
    rw [Expr.movedAll, Expr.unlabelledAll, Expr.unlabelled_moved k x, Expr.unlabelledAll_moved k xs,
      Expr.unlabelledAll]

end

namespace Expr

/-- The assignment of a value to a target, without labels; what is no target is kept as it is. -/
def assignment (target value : Expr) : Expr :=
  match target with
  | .variable _ name => .assign 0 name value
  | .get object name => .set object name value
  | other => other

/-- The assignment to a target of its own value combined with another by an operator on a line. -/
def combined (target : Expr) (op : Mark) (line : Nat) (value : Expr) : Expr :=
  target.assignment (.binary target (Token.ofMark op line) value)

variable {x : Expr}

theorem isTarget_unlabelled (x : Expr) : x.unlabelled.isTarget = x.isTarget := by cases x <;> rfl

/-- What is written out for an assignment to a target. -/
theorem exists_assignment (h : x.unlabelled.isTarget = true) (l : Label) (v : Expr) :
    ∃ z l', x.assigned? l v = some (z, l') ∧ z.unlabelled = x.unlabelled.assignment v.unlabelled := by
  cases x with
  | «variable» _ _ | get _ _ => exact ⟨_, _, rfl, rfl⟩
  | _ => cases h

/-- What is written out for an update of a target. -/
theorem exists_combined (h : x.unlabelled.isTarget = true) (l : Label) (op : Mark) (line : Nat) (v : Expr) :
    ∃ z l', x.updated? l (Token.ofMark op line) v = some (z, l') ∧
      z.unlabelled = x.unlabelled.combined op line v.unlabelled := by
  cases x with
  | «variable» _ _ | get _ _ => exact ⟨_, _, rfl, rfl⟩
  | _ => cases h

end Expr

/-! ## the same tree from every label on -/

/-- The tokens are read as the tree, up to labels, from whichever label. -/
def AlwaysReads (p : Expr → Phrase) (ts : List Token) (x : Expr) : Prop :=
  ∀ lo, ∃ x' hi, (p x').Reads lo ts hi ∧ x'.unlabelled = x

/-- What is read once is read as the same tree from every label on. -/
theorem Phrase.Reads.always {p : Expr → Phrase} (hp : ∀ k x, (p x).moved id k = p (x.moved id k)) {x : Expr}
    {ts : List Token} {hi : Label} (h : (p x).Reads 0 ts hi) : AlwaysReads p ts x.unlabelled := by
  intro lo
  have hm := h.moved (ℓ := id) (k := lo)
  rw [hp, Token.map_moved_id, Nat.zero_add] at hm
  exact ⟨_, _, hm, Expr.unlabelled_moved lo x⟩

theorem alwaysReads_of_target {ts : List Token} (h : target.Derives ts) :
    ∃ x, x.isTarget = true ∧ AlwaysReads .call ts x := by
  obtain ⟨x, hi, hx, ht⟩ := written_target (h.means written_of_rule) 0
  exact ⟨x.unlabelled, by rw [Expr.isTarget_unlabelled, ht], hx.always fun _ _ => rfl⟩

theorem alwaysReads_of_expression {us : List Token} (h : (symbol .expression).Derives us) :
    ∃ y, AlwaysReads .expression us y := by
  obtain ⟨y, hi, hy⟩ := h.means written_of_rule 0
  exact ⟨y.unlabelled, hy.always fun _ _ => rfl⟩

namespace AlwaysReads

variable {ts us : List Token} {x y : Expr} {t : Token} {op : Mark}

/-- A target is an expression. -/
theorem expression_of_call (hx : AlwaysReads .call ts x) : AlwaysReads .expression ts x := by
  intro lo
  obtain ⟨x', hi, hr, rfl⟩ := hx lo
  have he : (Phrase.ofStrength 9 x').Reads lo ts hi := hr
  exact ⟨x', hi, he.weaken (s := 1) (by decide) (by decide) (by decide), rfl⟩

theorem assign (hx : AlwaysReads .call ts x) (htarget : x.isTarget = true) (ht : t.kind = .mark .equal)
    (hy : AlwaysReads .expression us y) : AlwaysReads .expression (ts ++ t :: us) (x.assignment y) := by
  intro lo
  obtain ⟨x', mid, hrx, rfl⟩ := hx lo
  obtain ⟨y', hi, hry, rfl⟩ := hy mid
  obtain ⟨z, hi', hz, hunlabelled⟩ := Expr.exists_assignment htarget hi y'
  exact ⟨z, hi', .assign (hrx.noStep.binary_of_unary .disjunction) ht hry hz, hunlabelled⟩

theorem update (hx : AlwaysReads .call ts x) (htarget : x.isTarget = true) (ht : compound? t.kind = some op)
    (hy : AlwaysReads .expression us y) : AlwaysReads .expression (ts ++ t :: us) (x.combined op t.line y) := by
  intro lo
  obtain ⟨x', mid, hrx, rfl⟩ := hx lo
  obtain ⟨y', hi, hry, rfl⟩ := hy mid
  obtain ⟨z, hi', hz, hunlabelled⟩ := Expr.exists_combined htarget hi op t.line y'
  exact ⟨z, hi', .update (hrx.noStep.binary_of_unary .disjunction) ht hry hz, hunlabelled⟩

/-- A unary expression is an expression. -/
theorem expression_of_unary (hx : AlwaysReads .unary ts x) : AlwaysReads .expression ts x := by
  intro lo
  obtain ⟨x', hi, hr, rfl⟩ := hx lo
  exact ⟨x', hi, .operators (hr.binary_of_unary .disjunction), rfl⟩

theorem stepBehind (hx : AlwaysReads .call ts x) (htarget : x.isTarget = true) (ht : step? t.kind = some op) :
    AlwaysReads .expression (ts ++ [t]) (x.combined op t.line one) := by
  refine expression_of_unary fun lo => ?_
  obtain ⟨x', hi, hr, rfl⟩ := hx lo
  obtain ⟨z, hi', hz, hunlabelled⟩ := Expr.exists_combined htarget hi op t.line one
  exact ⟨z, hi', .stepBehind hr ht hz, hunlabelled⟩

theorem stepBefore (hx : AlwaysReads .call ts x) (htarget : x.isTarget = true) (ht : step? t.kind = some op) :
    AlwaysReads .expression (t :: ts) (x.combined op t.line one) := by
  refine expression_of_unary fun lo => ?_
  obtain ⟨x', hi, hr, rfl⟩ := hx lo
  obtain ⟨z, hi', hz, hunlabelled⟩ := Expr.exists_combined htarget hi op t.line one
  exact ⟨z, hi', .stepBefore ht hr.noStep hz, hunlabelled⟩

theorem group {close : Token} (ht : t.kind = .mark .leftParen) (hy : AlwaysReads .expression us y)
    (hc : close.kind = .mark .rightParen) : AlwaysReads .primary (t :: us ++ [close]) (.group y) := by
  intro lo
  obtain ⟨y', hi, hr, rfl⟩ := hy lo
  exact ⟨.group y', hi, .group ht hr hc, rfl⟩

theorem one (ht : t.kind = .number 1) : AlwaysReads .expression [t] one := by
  intro lo
  have hr : (Phrase.ofStrength 10 Rule.one).Reads lo [t] lo := .constant (v := .number 1) (by rw [ht]; rfl)
  exact ⟨Rule.one, lo, hr.weaken (s := 1) (by decide) (by decide) (by decide), rfl⟩

/-- An operator of a sum or a product between two expressions that hold together more tightly than it does. -/
theorem operator (hx : AlwaysReads .call ts x) (hop : t.kind.combinesValues = true) (hy : AlwaysReads .primary us y) :
    AlwaysReads .expression (ts ++ t :: us) (.binary x t y) := by
  intro lo
  obtain ⟨x', mid, hrx, rfl⟩ := hx lo
  obtain ⟨y', hi, hry, rfl⟩ := hy mid
  obtain ⟨l, hmem, hnode⟩ := Expr.exists_level_of_combinesValues hop
  obtain ⟨hlow, hhigh⟩ := l.strength_bounds
  have hright : (Phrase.ofStrength 10 y').Reads mid us hi := hry
  have hoperand := Expr.reads_operand (hright.weaken (s := l.strength + 1) (by omega) (by omega) (by decide))
  have hbinary := (hrx.noStep.binary_of_unary l).binary_operator hmem hoperand
  rw [← Phrase.ofStrength_level, hnode] at hbinary
  exact ⟨_, hi, hbinary.weaken (s := 1) (by decide) (by omega) (by omega), rfl⟩

end AlwaysReads

/-! ## statements -/

/-- As a statement of its own, the tokens are parsed as the expression, up to labels. -/
def ParsesAs (ts : List Token) (x : Expr) : Prop :=
  ∀ (fresh : Label) (semi : Token) (rest : List Token), semi.kind = .mark .semicolon → headKind rest = .eof →
    ∃ x', (parse fresh (ts ++ semi :: rest)).result = .ok [.expr x'] ∧ x'.unlabelled = x

theorem AlwaysReads.parsesAs {ts : List Token} {x : Expr} (h : AlwaysReads .expression ts x) : ParsesAs ts x := by
  intro fresh semi rest hs hend
  obtain ⟨x', hi, hr, hx⟩ := h fresh
  have hstatement : Reads (.declaration (.expr x')) fresh (ts ++ [semi]) hi :=
    .noDeclaration (.expressionOnly (.expressionStatement hr hs))
  have hprogram : Reads (.declarations [.expr x']) fresh (ts ++ [semi] ++ []) hi :=
    .declarationsMore hstatement .declarationsEnd
  have hparse := parse_append_of_reads hprogram hend
  rw [List.append_nil, List.append_assoc, List.singleton_append] at hparse
  exact ⟨x', by rw [hparse], hx⟩

/-- The operators that are written before an equals sign. -/
def Mark.arithmetic : List Mark := [.plus, .minus, .star, .slash]

/-- The token is the operator with an equals sign behind it. -/
def Mark.WithEquals (op : Mark) (t : Token) : Prop := ∃ m, t.kind = .mark m ∧ m.text = op.text ++ "="

/-- The token is the operator twice. -/
def Mark.Twice (op : Mark) (t : Token) : Prop := ∃ m, t.kind = .mark m ∧ m.text = op.text ++ op.text

namespace Mark

variable {op : Mark} {t : Token}

theorem WithEquals.compound? (hop : op ∈ arithmetic) (h : op.WithEquals t) : compound? t.kind = some op := by
  obtain ⟨m, ht, hm⟩ := h
  rw [ht]
  simp only [arithmetic, List.mem_cons, List.not_mem_nil, or_false] at hop
  rcases hop with rfl | rfl | rfl | rfl <;> revert hm <;> cases m <;> decide

theorem Twice.step? (hop : op = .plus ∨ op = .minus) (h : op.Twice t) : step? t.kind = some op := by
  obtain ⟨m, ht, hm⟩ := h
  rw [ht]
  rcases hop with rfl | rfl <;> revert hm <;> cases m <;> decide

theorem combinesValues_of_mem (hop : op ∈ arithmetic) : (Kind.mark op).combinesValues = true := by
  simp only [arithmetic, List.mem_cons, List.not_mem_nil, or_false] at hop
  rcases hop with rfl | rfl | rfl | rfl <;> decide

end Mark

/-- A compound assignment `T op= E` is `T = T op (E)` without the group, and the steps `T op op` and `op op T` are
`T op= 1`.  The operator stands on the line of the token that it was part of. -/
theorem update_is_sugar {ts us : List Token} (hts : target.Derives ts) (hus : (symbol .expression).Derives us) :
    ∃ x y, x.isTarget = true ∧ ParsesAs ts x ∧ ParsesAs us y ∧
      (∀ op ∈ Mark.arithmetic, ∀ t equal opening close : Token, ∀ line : Nat, op.WithEquals t →
        equal.kind = .mark .equal → opening.kind = .mark .leftParen → close.kind = .mark .rightParen →
          ParsesAs (ts ++ t :: us) (x.combined op t.line y) ∧
          ParsesAs (ts ++ equal :: (ts ++ Token.ofMark op line :: (opening :: us ++ [close])))
            (x.combined op line (.group y))) ∧
      (∀ op, op = .plus ∨ op = .minus → ∀ step t number : Token, op.Twice step → op.WithEquals t →
        number.kind = .number 1 →
          ParsesAs (ts ++ [step]) (x.combined op step.line one) ∧
          ParsesAs (step :: ts) (x.combined op step.line one) ∧
          ParsesAs (ts ++ [t, number]) (x.combined op t.line one)) := by
  obtain ⟨x, htarget, hx⟩ := alwaysReads_of_target hts
  obtain ⟨y, hy⟩ := alwaysReads_of_expression hus
  refine ⟨x, y, htarget, hx.expression_of_call.parsesAs, hy.parsesAs, ?_, ?_⟩
  · intro op hop t equal opening close line ht hequal hopening hclose
    have hvalues : (Token.ofMark op line).kind.combinesValues = true := Mark.combinesValues_of_mem hop
    have hcombination := hx.operator hvalues (hy.group hopening hclose)
    exact ⟨(hx.update htarget (ht.compound? hop) hy).parsesAs, (hx.assign htarget hequal hcombination).parsesAs⟩
  · intro op hop step t number hstep ht hnumber
    have hmem : op ∈ Mark.arithmetic := by rcases hop with rfl | rfl <;> decide
    have hs := hstep.step? hop
    exact ⟨(hx.stepBehind htarget hs).parsesAs, (hx.stepBefore htarget hs).parsesAs,
      (hx.update htarget (ht.compound? hmem) (.one hnumber)).parsesAs⟩

/-- The name `f`. -/
def nameToken : Token := ⟨.identifier, "f", 1⟩

/-- The number `1`. -/
def oneToken : Token := ⟨.number 1, "1", 1⟩

/-- The property `f.f`. -/
def propertyTokens : List Token := [nameToken, Token.ofMark .dot 1, nameToken]

/-- The sum `1 + 1`. -/
def sumTokens : List Token := [oneToken, Token.ofMark .plus 1, oneToken]

theorem derives_propertyTokens : target.Derives propertyTokens := by
  have hname : Reads (.primary (.variable 0 nameToken)) 0 [nameToken] 1 := .identifier rfl
  have hproperty : Reads (.call (.get (.variable 0 nameToken) nameToken)) 0 propertyTokens 1 :=
    hname.call_of_primary.call_property rfl rfl
  exact hproperty.derivable.2 rfl

theorem derives_sumTokens : (symbol .expression).Derives sumTokens := by
  have hone : Reads (.primary one) 0 [oneToken] 0 := .constant rfl
  have hunary := hone.call_of_primary.noStep
  have hsum : (Phrase.ofStrength 6 (.binary one (Token.ofMark .plus 1) one)).Reads 0 sumTokens 0 :=
    (hunary.binary_of_unary .sum).binary_operator (by decide) (.tighter rfl (hunary.binary_of_unary .product))
  exact (hsum.weaken (s := 1) (by decide) (by decide) (by decide)).derivable

/-- A sum behind `*=` stays together, as it does in parentheses. -/
theorem update_is_sugar_sum : target.Derives propertyTokens ∧ (symbol .expression).Derives sumTokens ∧
    ∃ x y : Expr, ParsesAs (propertyTokens ++ Token.ofMark .starEqual 1 :: sumTokens) (x.combined .star 1 y) ∧
    ParsesAs (propertyTokens ++ Token.ofMark .equal 1 :: (propertyTokens ++ Token.ofMark .star 1 ::
      (Token.ofMark .leftParen 1 :: sumTokens ++ [Token.ofMark .rightParen 1]))) (x.combined .star 1 (.group y)) := by
  obtain ⟨x, y, -, -, -, hupdate, -⟩ := update_is_sugar derives_propertyTokens derives_sumTokens
  refine ⟨derives_propertyTokens, derives_sumTokens, x, y, ?_⟩
  exact hupdate .star (by decide) (Token.ofMark .starEqual 1) (Token.ofMark .equal 1) (Token.ofMark .leftParen 1)
    (Token.ofMark .rightParen 1) 1 ⟨.starEqual, rfl, by decide⟩ rfl rfl rfl

/-! ## values that are too long -/

/-- Tokens with too many commas for their parentheses are parsed as nothing. -/
theorem not_parsesAs_of_commas {ts : List Token} (hts : ∀ t ∈ ts, t.kind ≠ .eof)
    (hcommas : (maxArity - 1) * openings ts < commas ts) (x : Expr) : ¬ ParsesAs ts x := by
  intro h
  obtain ⟨x', hparse, -⟩ := h 0 (Token.ofMark .semicolon 1) [Token.endOfFile 1] rfl rfl
  have hle := Phrase.commas_le_of_parse hparse
  have hall : ∀ t ∈ ts ++ [Token.ofMark .semicolon 1], t.kind ≠ .eof := by
    intro t ht
    rcases List.mem_append.1 ht with ht | ht
    · exact hts t ht
    · rw [List.mem_singleton.1 ht]
      simp [Token.ofMark]
  have hend : headKind [Token.endOfFile 1] = .eof := rfl
  have hbefore := beforeEnd_append hall hend
  rw [List.append_assoc, List.singleton_append] at hbefore
  -- the semicolon is neither a comma nor a parenthesis
  have hc : commas (ts ++ [Token.ofMark .semicolon 1]) = commas ts := by simp [Token.ofMark]
  have ho : openings (ts ++ [Token.ofMark .semicolon 1]) = openings ts := by simp [Token.ofMark]
  rw [hbefore, hc, ho] at hle
  exact Nat.not_lt.2 hle hcommas

/-- A call `f(1, …, 1)` with one argument and so many more. -/
def callTokens (more : Nat) : List Token :=
  [nameToken] ++ ([Token.ofMark .leftParen 1] ++ ([oneToken] ++
    (List.replicate more [Token.ofMark .comma 1, oneToken]).flatten) ++ [Token.ofMark .rightParen 1])

theorem ne_eof_of_mem_entries {n : Nat} {t : Token}
    (h : t ∈ (List.replicate n [Token.ofMark .comma 1, oneToken]).flatten) : t.kind ≠ .eof := by
  obtain ⟨part, hpart, ht⟩ := List.mem_flatten.1 h
  rw [List.eq_of_mem_replicate hpart] at ht
  simp only [List.mem_cons, List.not_mem_nil, or_false] at ht
  rcases ht with rfl | rfl <;> simp [Token.ofMark, oneToken]

/-- Each argument behind the first 255 is a fault. -/
theorem derivesLong_callTokens (n : Nat) : (symbol .expression).DerivesLong (callTokens (254 + n))
    (List.replicate n ⟨oneToken, .tooManyArguments⟩) := by
  have hone : (symbol .expression).DerivesLong [oneToken] [] := by
    have hr : Reads (.primary one) 0 [oneToken] 0 := .constant rfl
    exact derivesLong_expression hr.call_of_primary.derivable.1.long
  have hname : (symbol .primary).DerivesLong [nameToken] [] := by
    have hr : Reads (.primary (.variable 0 nameToken)) 0 [nameToken] 1 := .identifier rfl
    exact hr.derivable.1.long
  have hmark : ∀ m, (mark m).DerivesLong [Token.ofMark m 1] [] := fun m => (derives_mark rfl).long
  have hentry : (mark .comma ++ symbol .expression).DerivesLong [Token.ofMark .comma 1, oneToken] [] :=
    .seq (hmark .comma) hone
  have hlist : (symbol .arguments).DerivesLong _ _ := .symbol (.seq hone (derivesLong_replicate hentry 254 n))
  have hsuffix : callSuffix.DerivesLong _ _ :=
    .first (.seq (.seq (hmark .leftParen) (.present hlist)) (hmark .rightParen))
  have hcall : (symbol .call).DerivesLong _ _ := .symbol (.seq hname (.starMore hsuffix .starEnd))
  simp only [List.append_nil, List.nil_append] at hcall
  exact derivesLong_expression hcall

/-- The tokens of 255 more arguments, each with a comma before it. -/
def moreArguments : List Token := (List.replicate 255 [Token.ofMark .comma 1, oneToken]).flatten

/-- A call with 256 arguments. -/
def longCall : List Token :=
  [nameToken] ++ ([Token.ofMark .leftParen 1] ++ ([oneToken] ++ moreArguments) ++ [Token.ofMark .rightParen 1])

theorem commas_moreArguments : commas moreArguments = 255 := by
  rw [moreArguments, commas_flatten_replicate]
  rfl

theorem openings_moreArguments : openings moreArguments = 0 := by
  rw [moreArguments, openings_flatten_replicate]
  rfl

theorem ne_eof_of_mem_moreArguments {t : Token} (h : t ∈ moreArguments) : t.kind ≠ .eof := ne_eof_of_mem_entries h

theorem derivesFreely_longCall : (symbol .expression).DerivesFreely longCall := (derivesLong_callTokens 1).freely

/-- Without the side conditions of the grammar a compound assignment of an expression need not be parsed. -/
theorem no_update_by_longCall : target.Derives [nameToken] ∧ (symbol .expression).DerivesFreely longCall ∧
    ¬ ∃ x, ParsesAs ([nameToken] ++ Token.ofMark .plusEqual 1 :: longCall) x := by
  refine ⟨.seq .absent (.token rfl), derivesFreely_longCall, ?_⟩
  rintro ⟨x, hx⟩
  refine not_parsesAs_of_commas ?_ ?_ x hx
  · intro t ht
    simp only [longCall, List.mem_append, List.mem_cons, List.not_mem_nil, or_false] at ht
    rcases ht with rfl | rfl | rfl | (rfl | rfl | ht) | rfl
    case inr.inr.inr.inl.inr.inr => exact ne_eof_of_mem_moreArguments ht
    all_goals simp [nameToken, oneToken, Token.ofMark]
  · simp [longCall, commas_moreArguments, openings_moreArguments, nameToken, oneToken, Token.ofMark, maxArity]

end ScriptLang
