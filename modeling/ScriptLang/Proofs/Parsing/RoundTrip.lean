import ScriptLang.Proofs.Parsing.Completeness
import ScriptLang.Proofs.Parsing.Rendering

/-!
# Parsing undoes rendering

A tree that can be written is what its tokens are read as, up to labels: `Stmt.Reappears` and its companions say so for
every part of a tree, and follow by induction on it.  An expression is read at the strength it has
(`Phrase.ofStrength`), and then at every smaller one (`Reads.weaken`).
-/

namespace ScriptLang

open Phrase (Reads)

/-! ## expressions and strengths -/

/-- The part of the grammar that reads expressions of a strength. -/
def Phrase.ofStrength : Nat → Expr → Phrase
  | 2 => .binary .disjunction
  | 3 => .binary .conjunction
  | 4 => .binary .equality
  | 5 => .binary .comparison
  | 6 => .binary .sum
  | 7 => .binary .product
  | 8 => .unary
  | 9 => .call
  | 10 => .primary
  | _ => .expression

theorem Phrase.ofStrength_level (l : Level) : Phrase.ofStrength l.strength = .binary l := by
  cases l <;> rfl

namespace Phrase

variable {ts us : List Token} {x : Expr} {lo mid hi : Label}

theorem Reads.call_of_primary (h : Reads (.primary x) lo ts hi) : Reads (.call x) lo ts hi := by
  have hc := Reads.call h .callEnd
  rwa [List.append_nil] at hc

theorem Reads.weaken_one {s : Nat} (h₁ : 1 ≤ s) (h₂ : s < 10) (h : (ofStrength (s + 1) x).Reads lo ts hi) :
    (ofStrength s x).Reads lo ts hi := by
  have hcases : s = 1 ∨ s = 2 ∨ s = 3 ∨ s = 4 ∨ s = 5 ∨ s = 6 ∨ s = 7 ∨ s = 8 ∨ s = 9 := by omega
  rcases hcases with rfl | rfl | rfl | rfl | rfl | rfl | rfl | rfl | rfl
  · exact .operators h
  · exact (Reads.tighter rfl h).binary_of_operand
  · exact (Reads.tighter rfl h).binary_of_operand
  · exact (Reads.tighter rfl h).binary_of_operand
  · exact (Reads.tighter rfl h).binary_of_operand
  · exact (Reads.tighter rfl h).binary_of_operand
  · exact (Reads.tightest rfl h).binary_of_operand
  · exact .noStep h
  · exact h.call_of_primary

/-- What holds together tightly stands wherever something weaker may stand. -/
theorem Reads.weaken {s s' : Nat} (h₁ : 1 ≤ s) (hs : s ≤ s') (h₂ : s' ≤ 10) (h : (ofStrength s' x).Reads lo ts hi) :
    (ofStrength s x).Reads lo ts hi := by
  induction s' with
  | zero => omega
  | succ n ih =>
    by_cases hn : s = n + 1
    · rw [hn]
      exact h
    · have hle : s ≤ n := by omega
      exact ih hle (by omega) (h.weaken_one (by omega) (by omega))

end Phrase

/-! ## expressions -/

theorem Kind.strength_le (k : Kind) : k.strength ≤ 9 := by
  unfold strength
  split <;> omega

namespace Expr

theorem strength_le (e : Expr) : e.strength ≤ 10 := by
  unfold strength
  split
  case h_3 op _ | h_4 op _ =>
    have := op.kind.strength_le
    omega
  all_goals omega

/-- Read at some strength, the tokens of the expression give it back, up to labels. -/
def ReappearsAt (s : Nat) (e : Expr) : Prop :=
  ∀ lo, ∃ x hi, x.unlabelled = e.unlabelled ∧ (Phrase.ofStrength s x).Reads lo e.render hi

theorem ReappearsAt.weaken {e : Expr} {s : Nat} (h : e.ReappearsAt e.strength) (h₁ : 1 ≤ s) (hs : s ≤ e.strength) :
    e.ReappearsAt s := by
  intro lo
  obtain ⟨x, hi, hx, hr⟩ := h lo
  exact ⟨x, hi, hx, hr.weaken h₁ hs e.strength_le⟩

theorem constant?_token (v : Literal) : constant? v.token.kind = some v := by
  cases v with
  | bool b => cases b <;> rfl
  | _ => rfl

theorem reappears_literal (v : Literal) : (Expr.literal v).ReappearsAt 10 := by
  intro lo
  exact ⟨.literal v, lo, rfl, .constant (constant?_token v)⟩

theorem reappears_group {e : Expr} (h : e.ReappearsAt 1) : (Expr.group e).ReappearsAt 10 := by
  intro lo
  obtain ⟨x, hi, hx, hr⟩ := h lo
  refine ⟨.group x, hi, by simp only [unlabelled, hx], ?_⟩
  rw [render]
  exact .group rfl hr rfl

theorem reappears_unary {op : Token} {e : Expr} (hop : sign? op.kind = some ()) (h : e.ReappearsAt 8) :
    (Expr.unary op e).ReappearsAt 8 := by
  intro lo
  obtain ⟨x, hi, hx, hr⟩ := h lo
  refine ⟨.unary op x, hi, by simp only [unlabelled, hx], ?_⟩
  rw [render]
  exact .sign hop hr

/-- The right operand of an operator is read as an operand of its level. -/
theorem reads_operand {l : Level} {x : Expr} {ts : List Token} {lo hi : Label}
    (h : (Phrase.ofStrength (l.strength + 1) x).Reads lo ts hi) : Reads (.operand l x) lo ts hi := by
  cases l with
  | product => exact .tightest rfl h
  | _ => exact .tighter rfl h

/-- Two operands with an operator between them. -/
theorem reappears_operator {l : Level} {op : Token} {left right : Expr} (hop : op.kind ∈ l.operators)
    (hl : left.ReappearsAt l.strength) (hr : right.ReappearsAt (l.strength + 1)) (lo : Label) :
    ∃ x y hi, x.unlabelled = left.unlabelled ∧ y.unlabelled = right.unlabelled ∧
      (Phrase.ofStrength op.kind.strength (l.node x op y)).Reads lo (left.render ++ op :: right.render) hi := by
  obtain ⟨x, mid, hx, hrx⟩ := hl lo
  obtain ⟨y, hi, hy, hry⟩ := hr mid
  refine ⟨x, y, hi, hx, hy, ?_⟩
  rw [Level.strength_of_mem hop, Phrase.ofStrength_level]
  rw [Phrase.ofStrength_level] at hrx
  exact hrx.binary_operator hop (reads_operand hry)

theorem exists_level_of_combinesValues {k : Kind} (h : k.combinesValues = true) :
    ∃ l : Level, k ∈ l.operators ∧ ∀ x op y, l.node x op y = .binary x op y := by
  unfold Kind.combinesValues at h
  simp only [List.mem_append, decide_eq_true_eq] at h
  rcases h with ((h | h) | h) | h
  · exact ⟨.equality, h, fun _ _ _ => rfl⟩
  · exact ⟨.comparison, h, fun _ _ _ => rfl⟩
  · exact ⟨.sum, h, fun _ _ _ => rfl⟩
  · exact ⟨.product, h, fun _ _ _ => rfl⟩

theorem exists_level_of_combinesConditions {k : Kind} (h : k.combinesConditions = true) :
    ∃ l : Level, k ∈ l.operators ∧ ∀ x op y, l.node x op y = .logical x op y := by
  unfold Kind.combinesConditions at h
  simp only [List.mem_append, decide_eq_true_eq] at h
  rcases h with h | h
  · exact ⟨.disjunction, h, fun _ _ _ => rfl⟩
  · exact ⟨.conjunction, h, fun _ _ _ => rfl⟩

theorem reappears_binary {op : Token} {left right : Expr} (hop : op.kind.combinesValues = true)
    (hl : left.ReappearsAt op.kind.strength) (hr : right.ReappearsAt (op.kind.strength + 1)) :
    (Expr.binary left op right).ReappearsAt op.kind.strength := by
  intro lo
  obtain ⟨l, hmem, hnode⟩ := exists_level_of_combinesValues hop
  rw [Level.strength_of_mem hmem] at hl hr
  obtain ⟨x, y, hi, hx, hy, hread⟩ := reappears_operator hmem hl hr lo
  rw [hnode] at hread
  refine ⟨.binary x op y, hi, by simp only [unlabelled, hx, hy], ?_⟩
  rw [render]
  exact hread

theorem reappears_logical {op : Token} {left right : Expr} (hop : op.kind.combinesConditions = true)
    (hl : left.ReappearsAt op.kind.strength) (hr : right.ReappearsAt (op.kind.strength + 1)) :
    (Expr.logical left op right).ReappearsAt op.kind.strength := by
  intro lo
  obtain ⟨l, hmem, hnode⟩ := exists_level_of_combinesConditions hop
  rw [Level.strength_of_mem hmem] at hl hr
  obtain ⟨x, y, hi, hx, hy, hread⟩ := reappears_operator hmem hl hr lo
  rw [hnode] at hread
  refine ⟨.logical x op y, hi, by simp only [unlabelled, hx, hy], ?_⟩
  rw [render]
  exact hread

theorem reappears_variable {name : Token} (hn : name.kind = .identifier) (l : Label) :
    (Expr.variable l name).ReappearsAt 10 := by
  intro lo
  exact ⟨.variable lo name, lo + 1, rfl, .identifier hn⟩

theorem reappears_this {k : Token} (hk : k.kind = .keyword .kwThis) (l : Label) : (Expr.this l k).ReappearsAt 10 := by
  intro lo
  exact ⟨.this lo k, lo + 1, rfl, .this hk⟩

theorem reappears_super {k method : Token} (hk : k.kind = .keyword .kwSuper) (hm : method.kind = .identifier)
    (l : Label) : (Expr.super l k method).ReappearsAt 10 := by
  intro lo
  exact ⟨.super lo k method, lo + 1, rfl, .super hk rfl hm⟩

theorem reappears_assign {name : Token} {v : Expr} (hn : name.kind = .identifier) (h : v.ReappearsAt 1) (l : Label) :
    (Expr.assign l name v).ReappearsAt 1 := by
  intro lo
  obtain ⟨y, hi, hy, hr⟩ := h (lo + 1)
  have htarget : (Phrase.ofStrength 10 (.variable lo name)).Reads lo [name] (lo + 1) := .identifier hn
  refine ⟨.assign hi name y, hi + 1, by simp only [unlabelled, hy], ?_⟩
  rw [render]
  have hb : Reads (.binary .disjunction (.variable lo name)) lo [name] (lo + 1) :=
    htarget.weaken (s := 2) (by decide) (by decide) (by decide)
  exact .assign hb rfl hr rfl

theorem reappears_get {name : Token} {o : Expr} (hn : name.kind = .identifier) (h : o.ReappearsAt 9) :
    (Expr.get o name).ReappearsAt 9 := by
  intro lo
  obtain ⟨x, hi, hx, hr⟩ := h lo
  refine ⟨.get x name, hi, by simp only [unlabelled, hx], ?_⟩
  rw [render]
  exact Reads.call_property hr rfl hn

theorem reappears_set {name : Token} {o v : Expr} (hn : name.kind = .identifier) (ho : o.ReappearsAt 9)
    (hv : v.ReappearsAt 1) : (Expr.set o name v).ReappearsAt 1 := by
  intro lo
  obtain ⟨x, mid, hx, hrx⟩ := ho lo
  obtain ⟨y, hi, hy, hry⟩ := hv mid
  refine ⟨.set x name y, hi, by simp only [unlabelled, hx, hy], ?_⟩
  have htarget : (Phrase.ofStrength 9 (.get x name)).Reads lo (o.render ++ [Mark.token .dot, name]) mid :=
    Reads.call_property hrx rfl hn
  have hb : Reads (.binary .disjunction (.get x name)) lo (o.render ++ [Mark.token .dot, name]) mid :=
    htarget.weaken (s := 2) (by decide) (by decide) (by decide)
  have hread : Reads (.expression (.set x name y)) lo _ hi := .assign (t := Mark.token .equal) hb rfl hry rfl
  rw [render]
  show Reads (.expression (.set x name y)) lo _ hi
  simpa only [List.append_assoc, List.cons_append, List.nil_append] using hread

/-- Entries of a list of arguments, each with a comma before it, behind one that was read already. -/
def ListReappears (es : List Expr) : Prop :=
  ∀ (e : Expr) (count lo), e.ReappearsAt 1 → count + es.length < Rule.maxArity →
    ∃ xs hi, Expr.unlabelledAll xs = Expr.unlabelledAll (e :: es) ∧
      Reads (.argumentList count xs) lo (e.render ++ Expr.renderMore es) hi

theorem listReappears_nil : ListReappears [] := by
  intro e count lo he hc
  obtain ⟨x, hi, hx, hr⟩ := he lo
  refine ⟨[x], hi, by simp only [unlabelledAll, hx], ?_⟩
  rw [renderMore, List.append_nil]
  exact .lastArgument hc hr

theorem listReappears_cons {d : Expr} {ds : List Expr} (hd : d.ReappearsAt 1) (hds : ListReappears ds) :
    ListReappears (d :: ds) := by
  intro e count lo he hc
  rw [List.length_cons] at hc
  obtain ⟨x, mid, hx, hr⟩ := he lo
  have hlen : count + 1 + ds.length < Rule.maxArity := by omega
  obtain ⟨xs, hi, hxs, hrs⟩ := hds d (count + 1) mid hd hlen
  refine ⟨x :: xs, hi, ?_, ?_⟩
  · rw [unlabelledAll, hx, hxs]
    rfl
  · rw [renderMore]
    exact .moreArguments (by omega) hr rfl hrs

theorem arguments_reappear {args : List Expr} (h : ∀ e es, args = e :: es → e.ReappearsAt 1 ∧ ListReappears es)
    (hlen : args.length ≤ Rule.maxArity) (lo : Label) :
    ∃ xs hi, Expr.unlabelledAll xs = Expr.unlabelledAll args ∧ Reads (.arguments xs) lo (Expr.renderList args) hi := by
  cases args with
  | nil => exact ⟨[], lo, rfl, .noArguments⟩
  | cons e es =>
    obtain ⟨he, hes⟩ := h e es rfl
    rw [List.length_cons] at hlen
    have hlen' : 0 + es.length < Rule.maxArity := by omega
    obtain ⟨xs, hi, hxs, hrs⟩ := hes e 0 lo he hlen'
    refine ⟨xs, hi, hxs, ?_⟩
    rw [renderList]
    exact .someArguments hrs

theorem reappears_call {f : Expr} {paren : Token} {args : List Expr} (hp : paren.kind = .mark .rightParen)
    (hlen : args.length ≤ Rule.maxArity) (hf : f.ReappearsAt 9)
    (ha : ∀ e es, args = e :: es → e.ReappearsAt 1 ∧ ListReappears es) : (Expr.call f paren args).ReappearsAt 9 := by
  intro lo
  obtain ⟨x, mid, hx, hrx⟩ := hf lo
  obtain ⟨xs, hi, hxs, hrs⟩ := arguments_reappear ha hlen mid
  refine ⟨.call x paren xs, hi, by simp only [unlabelled, hx, hxs], ?_⟩
  rw [render]
  exact Reads.call_append hrx (.callArguments rfl hrs hp .callEnd)

theorem one_le_strength {e : Expr} (h : e.wellFormed = true) : 1 ≤ e.strength := by
  cases e with
  | binary l op r =>
    simp only [wellFormed, Bool.and_eq_true] at h
    obtain ⟨level, hmem, -⟩ := exists_level_of_combinesValues h.1.1.1.1
    have hs := level.strength_bounds
    show 1 ≤ op.kind.strength
    rw [Level.strength_of_mem hmem]
    omega
  | logical l op r =>
    simp only [wellFormed, Bool.and_eq_true] at h
    obtain ⟨level, hmem, -⟩ := exists_level_of_combinesConditions h.1.1.1.1
    have hs := level.strength_bounds
    show 1 ≤ op.kind.strength
    rw [Level.strength_of_mem hmem]
    omega
  | _ => simp only [strength]; omega

mutual

/-- An expression that can be written is what its tokens are read as. -/
theorem reappears : ∀ (e : Expr), e.wellFormed = true → e.ReappearsAt e.strength
  | .literal v, _ => reappears_literal v
  | .group e, h => reappears_group ((reappears e h).weaken (Nat.le_refl 1) (one_le_strength h))
  | .unary op r, h => by
    simp only [wellFormed, Bool.and_eq_true, decide_eq_true_eq] at h
    obtain ⟨⟨hop, hs⟩, hr⟩ := h
    exact reappears_unary hop ((reappears r hr).weaken (by decide) hs)
  | .binary l op r, h => by
    have h₁ := one_le_strength h
    simp only [wellFormed, Bool.and_eq_true, decide_eq_true_eq] at h
    obtain ⟨⟨⟨⟨hop, hsl⟩, hsr⟩, hl⟩, hr⟩ := h
    exact reappears_binary hop ((reappears l hl).weaken h₁ hsl) ((reappears r hr).weaken (by omega) hsr)
  | .logical l op r, h => by
    have h₁ := one_le_strength h
    simp only [wellFormed, Bool.and_eq_true, decide_eq_true_eq] at h
    obtain ⟨⟨⟨⟨hop, hsl⟩, hsr⟩, hl⟩, hr⟩ := h
    exact reappears_logical hop ((reappears l hl).weaken h₁ hsl) ((reappears r hr).weaken (by omega) hsr)
  | .variable l name, h => reappears_variable (by simpa [wellFormed] using h) l
  | .assign l name v, h => by
    simp only [wellFormed, Bool.and_eq_true, decide_eq_true_eq] at h
    exact reappears_assign h.1 ((reappears v h.2).weaken (Nat.le_refl 1) (one_le_strength h.2)) l
  | .call f paren args, h => by
    simp only [wellFormed, Bool.and_eq_true, decide_eq_true_eq] at h
    obtain ⟨⟨⟨⟨hs, hp⟩, hlen⟩, hf⟩, ha⟩ := h
    exact reappears_call hp hlen ((reappears f hf).weaken (by decide) hs) (listReappears args ha).2
  | .get o name, h => by
    simp only [wellFormed, Bool.and_eq_true, decide_eq_true_eq] at h
    obtain ⟨⟨hs, hn⟩, ho⟩ := h
    exact reappears_get hn ((reappears o ho).weaken (by decide) hs)
  | .set o name v, h => by
    simp only [wellFormed, Bool.and_eq_true, decide_eq_true_eq] at h
    obtain ⟨⟨⟨hs, hn⟩, ho⟩, hv⟩ := h
    exact reappears_set hn ((reappears o ho).weaken (by decide) hs)
      ((reappears v hv).weaken (Nat.le_refl 1) (one_le_strength hv))
  | .this l k, h => reappears_this (by simpa [wellFormed] using h) l
  | .super l k m, h => by
    simp only [wellFormed, Bool.and_eq_true, decide_eq_true_eq] at h
    exact reappears_super h.1 h.2 l

theorem listReappears : ∀ (es : List Expr), Expr.allWellFormed es = true →
    ListReappears es ∧ ∀ d ds, es = d :: ds → d.ReappearsAt 1 ∧ ListReappears ds
  | [], _ => ⟨listReappears_nil, by simp⟩
  | e :: es, h => by
    simp only [allWellFormed, Bool.and_eq_true] at h
    have he := (reappears e h.1).weaken (Nat.le_refl 1) (one_le_strength h.1)
    have hes := (listReappears es h.2).1
    refine ⟨listReappears_cons he hes, ?_⟩
    rintro d ds ⟨⟩
    exact ⟨he, hes⟩

end

/-- An expression that can be written stands wherever any expression may stand. -/
theorem reappears_expression {e : Expr} (h : e.wellFormed = true) (lo : Label) :
    ∃ x hi, x.unlabelled = e.unlabelled ∧ Reads (.expression x) lo e.render hi :=
  (reappears e h).weaken (Nat.le_refl 1) (one_le_strength h) lo

end Expr

/-! ## statements -/

namespace Stmt

/-- The tokens of the statement give it back, up to labels. -/
def Reappears (s : Stmt) : Prop :=
  ∀ lo, ∃ s' hi, s'.unlabelled = s.unlabelled ∧ Reads (.statement s.isOpen s') lo s.render hi

/-- The tokens of the declaration give it back, up to labels. -/
def ReappearsAsDeclaration (s : Stmt) : Prop :=
  ∀ lo, ∃ s' hi, s'.unlabelled = s.unlabelled ∧ Reads (.declaration s') lo s.render hi

/-- The tokens of the statements give them back, up to labels. -/
def AllReappear (body : List Stmt) : Prop :=
  ∀ lo, ∃ body' hi, Stmt.unlabelledAll body' = Stmt.unlabelledAll body ∧
    Reads (.declarations body') lo (Stmt.renderAll body) hi

theorem Reappears.declaration {s : Stmt} (h : s.Reappears) : s.ReappearsAsDeclaration := by
  intro lo
  obtain ⟨s', hi, hs, hr⟩ := h lo
  exact ⟨s', hi, hs, .noDeclaration hr⟩

theorem reappears_expr {e : Expr} (h : e.wellFormed = true) : (Stmt.expr e).Reappears := by
  intro lo
  obtain ⟨x, hi, hx, hr⟩ := Expr.reappears_expression h lo
  refine ⟨.expr x, hi, by simp only [unlabelled, hx], ?_⟩
  rw [render]
  exact .expressionOnly (.expressionStatement hr rfl)

theorem reappears_print {k : Token} {e : Expr} (hk : k.kind = .keyword .kwPrint) (h : e.wellFormed = true) :
    (Stmt.print k e).Reappears := by
  intro lo
  obtain ⟨x, hi, hx, hr⟩ := Expr.reappears_expression h lo
  refine ⟨.print k x, hi, by simp only [unlabelled, hx], ?_⟩
  rw [render]
  exact .print hk hr rfl

theorem reappears_varDecl {name : Token} {e : Option Expr} (hn : name.kind = .identifier)
    (h : e.elim true Expr.wellFormed = true) : (Stmt.varDecl name e).ReappearsAsDeclaration := by
  intro lo
  cases e with
  | none =>
    refine ⟨.varDecl name none, lo, rfl, ?_⟩
    rw [render]
    exact .varDecl rfl (.varPlain hn rfl)
  | some e =>
    obtain ⟨x, hi, hx, hr⟩ := Expr.reappears_expression h lo
    refine ⟨.varDecl name (some x), hi, by simp only [unlabelled, Option.map_some, hx], ?_⟩
    rw [render]
    exact .varDecl rfl (.varValue hn rfl hr rfl)

theorem reappears_block {body : List Stmt} (h : AllReappear body) : (Stmt.block body).Reappears := by
  intro lo
  obtain ⟨body', hi, hbody, hr⟩ := h lo
  refine ⟨.block body', hi, by simp only [unlabelled, hbody], ?_⟩
  rw [render]
  exact .block rfl hr rfl

theorem reappears_ifThen {c : Expr} {t : Stmt} (hc : c.wellFormed = true) (ht : t.Reappears) :
    (Stmt.ifThen c t).Reappears := by
  intro lo
  obtain ⟨x, mid, hx, hrx⟩ := Expr.reappears_expression hc lo
  obtain ⟨t', hi, ht', hrt⟩ := ht mid
  refine ⟨.ifThen x t', hi, by simp only [unlabelled, hx, ht'], ?_⟩
  rw [render, Keyword.renderCondition, List.append_assoc, List.singleton_append]
  exact .ifThen rfl rfl hrx rfl hrt

/-- The first branch must not claim the `else`. -/
theorem reappears_ifElse {c : Expr} {t e : Stmt} (hc : c.wellFormed = true) (hopen : t.isOpen = false)
    (ht : t.Reappears) (he : e.Reappears) : (Stmt.ifElse c t e).Reappears := by
  intro lo
  obtain ⟨x, l₁, hx, hrx⟩ := Expr.reappears_expression hc lo
  obtain ⟨t', l₂, ht', hrt⟩ := ht l₁
  obtain ⟨e', hi, he', hre⟩ := he l₂
  rw [hopen] at hrt
  refine ⟨.ifElse x t' e', hi, by simp only [unlabelled, hx, ht', he'], ?_⟩
  rw [render, Keyword.renderCondition, List.append_assoc, List.singleton_append]
  exact .ifElse rfl rfl hrx rfl hrt rfl hre

theorem reappears_loop {c : Expr} {b : Stmt} {i : Option Expr} (hc : c.wellFormed = true) (hb : b.Reappears)
    (hi : i.elim true Expr.wellFormed = true) : (Stmt.loop c b i).Reappears := by
  intro lo
  obtain ⟨x, l₁, hx, hrx⟩ := Expr.reappears_expression hc lo
  cases i with
  | none =>
    obtain ⟨b', hi, hb', hrb⟩ := hb l₁
    refine ⟨.loop x b' none, hi, by simp only [unlabelled, hx, hb', Option.map_none], ?_⟩
    rw [render, Keyword.renderCondition, List.append_assoc, List.singleton_append]
    exact .whileLoop rfl rfl hrx rfl hrb
  | some i =>
    obtain ⟨y, l₂, hy, hry⟩ := Expr.reappears_expression hi l₁
    obtain ⟨b', hi, hb', hrb⟩ := hb l₂
    refine ⟨.loop x b' (some y), hi, by simp only [unlabelled, hx, hb', hy, Option.map_some], ?_⟩
    rw [render]
    have hfirst : Reads (.forInitializer none) lo [Mark.token .semicolon] lo := .noInitializer rfl
    exact .forLoop rfl rfl hfirst (.someCondition hrx) rfl (.someIncrement hry) rfl hrb

theorem reappears_returnFrom {k : Token} {e : Option Expr} (hk : k.kind = .keyword .kwReturn)
    (h : e.elim true Expr.wellFormed = true) : (Stmt.returnFrom k e).Reappears := by
  intro lo
  cases e with
  | none =>
    refine ⟨.returnFrom k none, lo, rfl, ?_⟩
    rw [render]
    exact .returnNothing hk rfl
  | some e =>
    obtain ⟨x, hi, hx, hr⟩ := Expr.reappears_expression h lo
    refine ⟨.returnFrom k (some x), hi, by simp only [unlabelled, Option.map_some, hx], ?_⟩
    rw [render]
    exact .returnValue hk hr rfl

theorem reappears_breakLoop {k : Token} (hk : k.kind = .keyword .kwBreak) : (Stmt.breakLoop k).Reappears := by
  intro lo
  refine ⟨.breakLoop k, lo, rfl, ?_⟩
  rw [render]
  exact .breakLoop hk rfl

theorem reappears_continueLoop {k : Token} (hk : k.kind = .keyword .kwContinue) : (Stmt.continueLoop k).Reappears := by
  intro lo
  refine ⟨.continueLoop k, lo, rfl, ?_⟩
  rw [render]
  exact .continueLoop hk rfl

theorem allReappear_nil : AllReappear [] := fun lo => ⟨[], lo, rfl, .declarationsEnd⟩

theorem allReappear_cons {s : Stmt} {rest : List Stmt} (hs : s.ReappearsAsDeclaration) (hrest : AllReappear rest) :
    AllReappear (s :: rest) := by
  intro lo
  obtain ⟨s', mid, hs', hrs⟩ := hs lo
  obtain ⟨rest', hi, hrest', hrr⟩ := hrest mid
  refine ⟨s' :: rest', hi, by simp only [unlabelledAll, hs', hrest'], ?_⟩
  rw [renderAll]
  exact .declarationsMore hrs hrr

end Stmt

/-! ## functions and classes -/

namespace FunctionDecl

/-- The tokens of the function give it back, up to labels. -/
def Reappears (d : FunctionDecl) : Prop :=
  ∀ lo, ∃ d' hi, d'.unlabelled = d.unlabelled ∧ Reads (.function d') lo d.render hi

/-- The tokens of the functions give them back, up to labels. -/
def AllReappear (ds : List FunctionDecl) : Prop :=
  ∀ lo, ∃ ds' hi, FunctionDecl.unlabelledAll ds' = FunctionDecl.unlabelledAll ds ∧
    Reads (.methods ds') lo (FunctionDecl.renderAll ds) hi

theorem reads_parameterNames {name : Token} {names : List Token} {count : Nat}
    (hk : ∀ p ∈ name :: names, p.kind = .identifier) (hlen : count + names.length < Rule.maxArity) (lo : Label) :
    Reads (.parameterNames count (name :: names)) lo ((name :: names).intersperse (Mark.token .comma)) lo := by
  induction names generalizing name count with
  | nil => exact .lastParameter hlen (hk name (by simp))
  | cons p ps ih =>
    rw [List.length_cons] at hlen
    rw [List.forall_mem_cons] at hk
    have hlen' : count + 1 + ps.length < Rule.maxArity := by omega
    exact .moreParameters (by omega) hk.1 rfl (ih hk.2 hlen')

theorem reads_parameters {params : List Token} (hk : ∀ p ∈ params, p.kind = .identifier)
    (hlen : params.length ≤ Rule.maxArity) (lo : Label) :
    Reads (.parameters params) lo (params.intersperse (Mark.token .comma)) lo := by
  cases params with
  | nil => exact .noParameters
  | cons p ps =>
    rw [List.length_cons] at hlen
    have hlen' : 0 + ps.length < Rule.maxArity := by omega
    exact .someParameters (reads_parameterNames hk hlen' lo)

theorem reappears_mk {name : Token} {params : List Token} {body : List Stmt} (hn : name.kind = .identifier)
    (hk : ∀ p ∈ params, p.kind = .identifier) (hlen : params.length ≤ Rule.maxArity) (hb : Stmt.AllReappear body) :
    (FunctionDecl.mk name params body).Reappears := by
  intro lo
  obtain ⟨body', hi, hbody, hr⟩ := hb lo
  refine ⟨.mk name params body', hi, by simp only [unlabelled, hbody], ?_⟩
  rw [render]
  exact .function hn rfl (reads_parameters hk hlen lo) rfl rfl hr rfl

theorem allReappear_nil : AllReappear [] := fun lo => ⟨[], lo, rfl, .methodsEnd⟩

theorem allReappear_cons {d : FunctionDecl} {ds : List FunctionDecl} (hd : d.Reappears) (hds : AllReappear ds) :
    AllReappear (d :: ds) := by
  intro lo
  obtain ⟨d', mid, hd', hrd⟩ := hd lo
  obtain ⟨ds', hi, hds', hrs⟩ := hds mid
  refine ⟨d' :: ds', hi, by simp only [unlabelledAll, hd', hds'], ?_⟩
  rw [renderAll]
  exact .methodsMore hrd hrs

end FunctionDecl

namespace Stmt

theorem reappears_funDecl {d : FunctionDecl} (h : d.Reappears) : (Stmt.funDecl d).ReappearsAsDeclaration := by
  intro lo
  obtain ⟨d', hi, hd, hr⟩ := h lo
  refine ⟨.funDecl d', hi, by simp only [unlabelled, hd], ?_⟩
  rw [render]
  exact .funDecl rfl hr

theorem superclass_reappears {s : Option Expr} (h : s.elim true Expr.isSuperclass = true) (lo : Label) :
    ∃ s' hi, s'.map Expr.unlabelled = s.map Expr.unlabelled ∧
      Reads (.superclass s') lo (s.elim [] fun e => Mark.token .less :: e.render) hi := by
  cases s with
  | none => exact ⟨none, lo, rfl, .noSuperclass⟩
  | some e =>
    cases e with
    | «variable» l name =>
      have hn : name.kind = .identifier := by simpa [Expr.isSuperclass] using h
      exact ⟨some (.variable lo name), lo + 1, rfl, .someSuperclass rfl hn⟩
    | _ => cases h

theorem reappears_classDecl {name : Token} {s : Option Expr} {ms : List FunctionDecl} (hn : name.kind = .identifier)
    (hs : s.elim true Expr.isSuperclass = true) (hm : FunctionDecl.AllReappear ms) :
    (Stmt.classDecl name s ms).ReappearsAsDeclaration := by
  intro lo
  obtain ⟨s', mid, hs', hrs⟩ := superclass_reappears hs lo
  obtain ⟨ms', hi, hms, hrm⟩ := hm mid
  refine ⟨.classDecl name s' ms', hi, by simp only [unlabelled, hs', hms], ?_⟩
  rw [render]
  exact .classDecl rfl hn hrs rfl hrm rfl

end Stmt

/-! ## whole trees -/

/-- A statement gives itself back as a declaration, and also where no declaration may stand unless it is one. -/
def Stmt.ReappearsEverywhere (s : Stmt) : Prop :=
  s.ReappearsAsDeclaration ∧ (s.isDeclaration = false → s.Reappears)

theorem Stmt.Reappears.everywhere {s : Stmt} (h : s.Reappears) : s.ReappearsEverywhere := ⟨h.declaration, fun _ => h⟩

theorem Stmt.ReappearsAsDeclaration.everywhere {s : Stmt} (h : s.ReappearsAsDeclaration) (hd : s.isDeclaration = true) :
    s.ReappearsEverywhere := ⟨h, fun hn => by rw [hd] at hn; cases hn⟩

mutual

/-- Statements and functions that can be written are what their tokens are read as. -/
theorem Stmt.reappears : ∀ (s : Stmt), s.wellFormed = true → s.ReappearsEverywhere
  | .expr e, h => (Stmt.reappears_expr h).everywhere
  | .print k e, h => by
    simp only [Stmt.wellFormed, Bool.and_eq_true, decide_eq_true_eq] at h
    exact (Stmt.reappears_print h.1 h.2).everywhere
  | .varDecl name e, h => by
    simp only [Stmt.wellFormed, Bool.and_eq_true, decide_eq_true_eq] at h
    exact (Stmt.reappears_varDecl h.1 h.2).everywhere rfl
  | .block body, h => (Stmt.reappears_block (Stmt.allReappear body h)).everywhere
  | .ifThen c t, h => by
    simp only [Stmt.wellFormed, Bool.and_eq_true, Bool.not_eq_true'] at h
    obtain ⟨⟨hc, hd⟩, ht⟩ := h
    exact (Stmt.reappears_ifThen hc ((Stmt.reappears t ht).2 hd)).everywhere
  | .ifElse c t e, h => by
    simp only [Stmt.wellFormed, Bool.and_eq_true, Bool.not_eq_true'] at h
    obtain ⟨⟨⟨⟨⟨hc, hdt⟩, hopen⟩, ht⟩, hde⟩, he⟩ := h
    exact (Stmt.reappears_ifElse hc hopen ((Stmt.reappears t ht).2 hdt) ((Stmt.reappears e he).2 hde)).everywhere
  | .loop c b i, h => by
    simp only [Stmt.wellFormed, Bool.and_eq_true, Bool.not_eq_true'] at h
    obtain ⟨⟨⟨hc, hd⟩, hb⟩, hi⟩ := h
    exact (Stmt.reappears_loop hc ((Stmt.reappears b hb).2 hd) hi).everywhere
  | .funDecl d, h => (Stmt.reappears_funDecl (FunctionDecl.reappears d h)).everywhere rfl
  | .returnFrom k e, h => by
    simp only [Stmt.wellFormed, Bool.and_eq_true, decide_eq_true_eq] at h
    exact (Stmt.reappears_returnFrom h.1 h.2).everywhere
  | .classDecl name s ms, h => by
    simp only [Stmt.wellFormed, Bool.and_eq_true, decide_eq_true_eq] at h
    obtain ⟨⟨hn, hs⟩, hm⟩ := h
    exact (Stmt.reappears_classDecl hn hs (FunctionDecl.allReappear ms hm)).everywhere rfl
  | .breakLoop k, h => (Stmt.reappears_breakLoop (by simpa [Stmt.wellFormed] using h)).everywhere
  | .continueLoop k, h => (Stmt.reappears_continueLoop (by simpa [Stmt.wellFormed] using h)).everywhere

theorem Stmt.allReappear : ∀ (body : List Stmt), Stmt.allWellFormed body = true → Stmt.AllReappear body
  | [], _ => Stmt.allReappear_nil
  | s :: rest, h => by
    simp only [Stmt.allWellFormed, Bool.and_eq_true] at h
    exact Stmt.allReappear_cons (Stmt.reappears s h.1).1 (Stmt.allReappear rest h.2)

theorem FunctionDecl.reappears : ∀ (d : FunctionDecl), d.wellFormed = true → d.Reappears
  | .mk name params body, h => by
    simp only [FunctionDecl.wellFormed, Bool.and_eq_true, decide_eq_true_eq, List.all_eq_true] at h
    obtain ⟨⟨⟨hn, hk⟩, hlen⟩, hb⟩ := h
    exact FunctionDecl.reappears_mk hn hk hlen (Stmt.allReappear body hb)

theorem FunctionDecl.allReappear : ∀ (ds : List FunctionDecl), FunctionDecl.allWellFormed ds = true →
    FunctionDecl.AllReappear ds
  | [], _ => FunctionDecl.allReappear_nil
  | d :: ds, h => by
    simp only [FunctionDecl.allWellFormed, Bool.and_eq_true] at h
    exact FunctionDecl.allReappear_cons (FunctionDecl.reappears d h.1) (FunctionDecl.allReappear ds h.2)

end

/-- Parsing the tokens of statements that can be written gives the same statements, up to labels. -/
theorem parse_render (fresh : Label) (line : Nat) (program : List Stmt) (h : Stmt.allWellFormed program = true) :
    ∃ parsed, (parse fresh (Stmt.renderAll program ++ [Token.endOfFile line])).result = .ok parsed ∧
      Stmt.unlabelledAll parsed = Stmt.unlabelledAll program := by
  obtain ⟨parsed, hi, hparsed, hr⟩ := Stmt.allReappear program h fresh
  have hend : headKind [Token.endOfFile line] = .eof := rfl
  exact ⟨parsed, by rw [parse_append_of_reads hr hend], hparsed⟩

/-- A subtraction that leans to the left, a class with a superclass, and an `else` behind a branch that ends in a
loop. -/
def branchesAndLoops : List Stmt :=
  let a : Token := ⟨.identifier, "a", 1⟩
  let b : Token := ⟨.identifier, "b", 1⟩
  let difference : Expr := .binary (.binary (.variable 7 a) (Mark.token .minus) (.variable 7 b)) (Mark.token .minus)
    (.unary (Mark.token .minus) (.get (.this 3 (Keyword.token .kwThis)) b))
  let step : Expr := .assign 0 a (.group (.assign 1 b (.logical (.variable 5 a) (Keyword.token .kwOr) (.literal .nil))))
  [.classDecl a (some (.variable 9 b)) [.mk b [a, b] [.returnFrom (Keyword.token .kwReturn) (some difference)]],
    .ifElse (.call (.get (.variable 2 a) b) (Mark.token .rightParen) [.literal (.bool true), .literal .nil])
      (.loop (.literal (.bool false)) (.block [.varDecl a none]) (some step))
      (.ifThen (.variable 4 b) (.loop (.variable 4 a) (.breakLoop (Keyword.token .kwBreak)) none))]

theorem parse_render_branchesAndLoops : Stmt.allWellFormed branchesAndLoops = true ∧
    ∃ parsed, (parse 0 (Stmt.renderAll branchesAndLoops ++ [Token.endOfFile 1])).result = .ok parsed ∧
      Stmt.unlabelledAll parsed = Stmt.unlabelledAll branchesAndLoops :=
  ⟨by decide, parse_render 0 1 branchesAndLoops (by decide)⟩

end ScriptLang
