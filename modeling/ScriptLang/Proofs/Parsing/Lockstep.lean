import ScriptLang.Proofs.Parsing.CleanRun
import ScriptLang.Proofs.Parsing.Rendering

/-!
# The rules in lockstep

Two runs of a rule, on token lists that differ only behind some place, give the same answer up to labels, with the same
reports, or one of them runs out of fuel.

* `Frontier` — which pairs of token lists may stand before two cursors;
* `Rule.Lockstep F P P' Q r r'` — from lists related by `P`, the rules go on to lists related by `P'`, with values
  related by `Q`;
* `Rule.expressions_lockstep`, `Rule.statements_lockstep` — the rules of the grammar.

Lists that are near each other begin with the same token, and stay near until a semicolon is read; then they may have
met the place where they differ.  No rule for expressions reads a semicolon, and behind the one that ends a statement
only an `else` is looked for.
-/

namespace ScriptLang

/-- How the token lists before two cursors may differ. -/
structure Frontier where
  near : List Token → List Token → Prop
  /-- The lists may differ from their first token on. -/
  met : List Token → List Token → Prop
  near_met {ts ts' : List Token} : near ts ts' → met ts ts'
  head {ts ts' : List Token} : near ts ts' → ts.headD (Token.endOfFile 1) = ts'.headD (Token.endOfFile 1)
  tail {ts ts' : List Token} : near ts ts' → headKind ts ≠ .mark .semicolon → near ts.tail ts'.tail
  tail_semicolon {ts ts' : List Token} : near ts ts' → headKind ts = .mark .semicolon → met ts.tail ts'.tail
  /-- Where a block or a for loop begins, nothing differs. -/
  nested {ts ts' : List Token} : near ts ts' → headKind ts = .mark .leftBrace ∨ headKind ts = .keyword .kwFor →
    ts = ts' ∧ ∀ us, near us us
  met_else {ts ts' : List Token} : met ts ts' →
    near ts ts' ∨ headKind ts ≠ .keyword .kwElse ∧ headKind ts' ≠ .keyword .kwElse
  synchronize {ts ts' : List Token} : near ts ts' → met (Rule.synchronize ts) (Rule.synchronize ts')

namespace Frontier

/-- Lists that do not differ. -/
def equal : Frontier where
  near ts ts' := ts = ts'
  met ts ts' := ts = ts'
  near_met h := h
  head h := by rw [h]
  tail h _ := by rw [h]
  tail_semicolon h _ := by rw [h]
  nested h _ := ⟨h, fun _ => rfl⟩
  met_else h := .inl h
  synchronize h := by rw [h]

/-- Near lists that begin with a known token. -/
def nearAt (F : Frontier) (t : Token) (ts ts' : List Token) : Prop := F.near ts ts' ∧ ts.headD (Token.endOfFile 1) = t

end Frontier

/-- The answers of two runs that go on to related places. -/
inductive Reply.Lockstep {α : Type} (F : Frontier) (P : List Token → List Token → Prop) (Q : α → α → Prop) :
    Reply α → Reply α → Prop
  | ok {a a' : α} {c c' : Cursor} (reports : List (Report SyntaxFault)) : Q a a' → P c.rest c'.rest →
      Lockstep F P Q (.ok a c reports) (.ok a' c' reports)
  | refused {c c' : Cursor} (cause : Report SyntaxFault) (reports : List (Report SyntaxFault)) :
      F.near c.rest c'.rest → Lockstep F P Q (.refused cause c reports) (.refused cause c' reports)
  | left (r : Reply α) : Lockstep F P Q .outOfFuel r
  | right (r : Reply α) : Lockstep F P Q r .outOfFuel

namespace Reply.Lockstep

variable {α : Type} {F : Frontier} {P P' : List Token → List Token → Prop} {Q : α → α → Prop} {r r' : Reply α}

theorem after (h : r.Lockstep F P Q r') (earlier : List (Report SyntaxFault)) :
    (r.after earlier).Lockstep F P Q (r'.after earlier) := by
  cases h with
  | ok reports ha hc => exact .ok _ ha hc
  | refused cause reports hc => exact .refused cause _ hc
  | left r => exact .left _
  | right r => exact .right _

theorem mono (h : r.Lockstep F P Q r') (hp : ∀ {ts ts'}, P ts ts' → P' ts ts') : r.Lockstep F P' Q r' := by
  cases h with
  | ok reports ha hc => exact .ok reports ha (hp hc)
  | refused cause reports hc => exact .refused cause reports hc
  | left r => exact .left _
  | right r => exact .right _

/-- Where nothing differs, the answers are in lockstep on any frontier that holds of equal lists. -/
theorem of_equal (h : r.Lockstep .equal Eq Q r') (hnear : ∀ us, F.near us us) : r.Lockstep F F.met Q r' := by
  cases h with
  | ok reports ha hc => exact .ok reports ha (F.near_met (hc ▸ hnear _))
  | refused cause reports hc =>
    have hc : _ = _ := hc
    exact .refused cause reports (hc ▸ hnear _)
  | left r => exact .left _
  | right r => exact .right _

end Reply.Lockstep

namespace Rule

variable {α β : Type} {F : Frontier} {P P' P'' : List Token → List Token → Prop} {Q : α → α → Prop}
  {R : β → β → Prop}

/-- Two rules that, from related lists on, go on to related lists. -/
def Lockstep (F : Frontier) (P P' : List Token → List Token → Prop) (Q : α → α → Prop) (r r' : Rule α) : Prop :=
  ∀ c c' : Cursor, P c.rest c'.rest → (r c).Lockstep F P' Q (r' c')

theorem Lockstep.bind {r r' : Rule α} {f f' : α → Rule β} (hr : Lockstep F P P' Q r r')
    (hf : ∀ a a', Q a a' → Lockstep F P' P'' R (f a) (f' a')) : Lockstep F P P'' R (r >>= f) (r' >>= f') := by
  intro c c' hc
  show (andThen r f c).Lockstep F P'' R (andThen r' f' c')
  unfold andThen
  have h := hr c c' hc
  revert h
  generalize r c = x
  generalize r' c' = x'
  intro h
  cases h with
  | ok reports ha hnext => exact (hf _ _ ha _ _ hnext).after reports
  | refused cause reports hnext => exact .refused cause reports hnext
  | left x => exact .left _
  | right x => exact .right _

theorem Lockstep.mono {r r' : Rule α} (h : Lockstep F P P' Q r r') (hp : ∀ {ts ts'}, P' ts ts' → P'' ts ts') :
    Lockstep F P P'' Q r r' :=
  fun c c' hc => (h c c' hc).mono hp

theorem Lockstep.of_imp {r r' : Rule α} (h : Lockstep F P P' Q r r') (hp : ∀ {ts ts'}, P'' ts ts' → P ts ts') :
    Lockstep F P'' P' Q r r' :=
  fun c c' hc => h c c' (hp hc)

/-- Where a block or a for loop begins, it is enough to be in lockstep when nothing differs. -/
theorem Lockstep.nested {t : Token} {r r' : Rule α} (ht : t.kind = .mark .leftBrace ∨ t.kind = .keyword .kwFor)
    (h : Lockstep .equal (Frontier.equal.nearAt t) Eq Q r r') : Lockstep F (F.nearAt t) F.met Q r r' := by
  rintro c c' ⟨hc, hhead⟩
  have hkind : headKind c.rest = t.kind := by rw [← hhead]; rfl
  obtain ⟨hrest, hnear⟩ := F.nested hc (hkind ▸ ht)
  exact (h c c' ⟨hrest, hhead⟩).of_equal hnear

/-! ## the ways to build a rule -/

theorem lockstep_outOfFuel_left (r : Rule α) : Lockstep F P P' Q outOfFuel r := fun _ _ _ => .left _

theorem lockstep_outOfFuel_right (r : Rule α) : Lockstep F P P' Q r outOfFuel := fun _ _ _ => .right _

theorem lockstep_pure {a a' : α} (h : Q a a') : Lockstep F P P Q (pure a) (pure a') := fun _ _ hc => .ok [] h hc

theorem lockstep_label : Lockstep F P P (fun _ _ => True) label label := fun _ _ hc => .ok [] trivial hc

theorem lockstep_report (anchor : Token) (cause : SyntaxFault) :
    Lockstep F P P (fun _ _ => True) (report anchor cause) (report anchor cause) := fun _ _ hc => .ok _ trivial hc

/-- What stands at the cursor is known behind `peek`. -/
theorem lockstep_peek {f f' : Token → Rule β} (hf : ∀ t, Lockstep F (F.nearAt t) P' R (f t) (f' t)) :
    Lockstep F F.near P' R (peek >>= f) (peek >>= f') := by
  intro c c' hc
  have hpeek : c'.peek = c.peek := (F.head hc).symm
  have h := hf c.peek c c' ⟨hc, rfl⟩
  show ((f c.peek c).after []).Lockstep F P' R ((f' c'.peek c').after [])
  rw [Reply.after_nil, Reply.after_nil, hpeek]
  exact h

theorem lockstep_refuse (cause : SyntaxFault) : Lockstep F F.near P' Q (refuse cause) (refuse cause) := by
  intro c c' hc
  have hpeek : c'.peek = c.peek := (F.head hc).symm
  unfold refuse
  rw [hpeek]
  exact .refused _ [] hc

theorem lockstep_nextIs (k : Kind) : Lockstep F F.near F.near Eq (nextIs k) (nextIs k) := by
  intro c c' hc
  have hpeek : c'.peek = c.peek := (F.head hc).symm
  unfold nextIs
  rw [hpeek]
  exact .ok [] rfl hc

theorem lockstep_advance {t : Token} {k : Kind} (hk : t.kind = k) (hne : k ≠ .mark .semicolon) :
    Lockstep F (F.nearAt t) F.near Eq advance advance := by
  rintro c c' ⟨hc, ht⟩
  have hpeek : c'.peek = c.peek := (F.head hc).symm
  unfold advance
  rw [hpeek]
  refine .ok [] rfl (F.tail hc ?_)
  show (c.rest.headD _).kind ≠ _
  rw [ht, hk]
  exact hne

theorem lockstep_accept {k : Kind} (hk : k ≠ .mark .semicolon) :
    Lockstep F F.near F.near Eq (accept k) (accept k) := by
  intro c c' hc
  have hpeek : c'.peek = c.peek := (F.head hc).symm
  unfold accept
  rw [hpeek]
  split
  · next h =>
    refine .ok [] rfl (F.tail hc ?_)
    show c.peek.kind ≠ _
    rw [h]
    exact hk
  · exact .ok [] rfl hc

/-- The token that is read may be a semicolon. -/
theorem lockstep_acceptAny (k : Kind) : Lockstep F F.near F.met Eq (accept k) (accept k) := by
  by_cases hk : k = .mark .semicolon
  · intro c c' hc
    have hpeek : c'.peek = c.peek := (F.head hc).symm
    unfold accept
    rw [hpeek]
    split
    · next h => exact .ok [] rfl (F.tail_semicolon hc (hk ▸ h))
    · exact .ok [] rfl (F.near_met hc)
  · exact (lockstep_accept hk).mono F.near_met

theorem lockstep_acceptBy {meaning : Kind → Option α} (hm : meaning (.mark .semicolon) = none) :
    Lockstep F F.near F.near Eq (acceptBy meaning) (acceptBy meaning) := by
  intro c c' hc
  have hpeek : c'.peek = c.peek := (F.head hc).symm
  unfold acceptBy
  rw [hpeek]
  cases h : meaning c.peek.kind with
  | some a =>
    refine .ok [] rfl (F.tail hc fun hk => ?_)
    have hk : c.peek.kind = _ := hk
    rw [hk, hm] at h
    cases h
  | none => exact .ok [] rfl hc

theorem lockstep_expect {k : Kind} (hk : k ≠ .mark .semicolon) (what : Expected) :
    Lockstep F F.near F.near Eq (expect k what) (expect k what) := by
  intro c c' hc
  have hpeek : c'.peek = c.peek := (F.head hc).symm
  unfold expect
  rw [hpeek]
  split
  · next h =>
    refine .ok [] rfl (F.tail hc ?_)
    show c.peek.kind ≠ _
    rw [h]
    exact hk
  · exact .refused _ [] hc

/-- Behind a semicolon the lists may differ. -/
theorem lockstep_semicolon (what : Expected) :
    Lockstep F F.near F.met Eq (expect (.mark .semicolon) what) (expect (.mark .semicolon) what) := by
  intro c c' hc
  have hpeek : c'.peek = c.peek := (F.head hc).symm
  unfold expect
  rw [hpeek]
  split
  · next h => exact .ok [] rfl (F.tail_semicolon hc h)
  · exact .refused _ [] hc

/-- Behind an opening brace nothing differs. -/
theorem lockstep_leftBrace {f f' : Token → Rule β} (what : Expected)
    (hf : ∀ t, Lockstep .equal Eq Eq R (f t) (f' t)) :
    Lockstep F F.near F.met R (expect (.mark .leftBrace) what >>= f) (expect (.mark .leftBrace) what >>= f') := by
  intro c c' hc
  by_cases h : c.peek.kind = .mark .leftBrace
  · have hequal : Lockstep .equal Eq Eq R (expect (.mark .leftBrace) what >>= f)
        (expect (.mark .leftBrace) what >>= f') :=
      Lockstep.bind (lockstep_expect (F := .equal) (by simp) what) fun t t' ht => ht ▸ hf t
    exact Lockstep.nested (.inl h) (hequal.of_imp And.left) c c' ⟨hc, rfl⟩
  · have hpeek : c'.peek = c.peek := (F.head hc).symm
    show (andThen (expect _ what) f c).Lockstep F F.met R (andThen (expect _ what) f' c')
    unfold andThen expect
    rw [hpeek]
    simp only [h, if_false]
    exact .refused _ [] hc

/-- Only an `else` is read behind the end of a statement. -/
theorem lockstep_else {f f' : Bool → Rule β} (ht : Lockstep F F.near P' R (f true) (f' true))
    (hf : Lockstep F F.met P' R (f false) (f' false)) :
    Lockstep F F.met P' R (accept (.keyword .kwElse) >>= f) (accept (.keyword .kwElse) >>= f') := by
  intro c c' hc
  rcases F.met_else hc with hnear | ⟨hne, hne'⟩
  · have hbind : Lockstep F F.near P' R (accept (.keyword .kwElse) >>= f) (accept (.keyword .kwElse) >>= f') :=
      (lockstep_accept (by simp)).bind fun b b' hb => by
        subst hb
        cases b with
        | true => exact ht
        | false => exact hf.of_imp F.near_met
    exact hbind c c' hnear
  · have hno : c.peek.kind ≠ .keyword .kwElse := hne
    have hno' : c'.peek.kind ≠ .keyword .kwElse := hne'
    show (andThen (accept _) f c).Lockstep F P' R (andThen (accept _) f' c')
    unfold andThen accept
    simp only [hno, hno', if_false]
    exact (hf c c' hc).after []

theorem lockstep_checkCount (count : Nat) (cause : SyntaxFault) :
    Lockstep F F.near F.near (fun _ _ => True) (checkCount count cause) (checkCount count cause) := by
  unfold checkCount
  split
  · exact lockstep_peek fun t => (lockstep_report t cause).of_imp And.left
  · exact lockstep_pure trivial

theorem lockstep_recover {r r' : Rule α} (h : Lockstep F F.near F.met Q r r') :
    Lockstep F F.near F.met (Option.Rel Q) (recover r) (recover r') := by
  intro c c' hc
  have h := h c c' hc
  unfold recover
  revert h
  generalize r c = x
  generalize r' c' = x'
  intro h
  cases h with
  | ok reports ha hnext => exact .ok reports (.some ha) hnext
  | refused cause reports hnext => exact .ok _ .none (F.synchronize hnext)
  | left x => exact .left _
  | right x => exact .right _

/-! ## expressions -/

/-- Expressions that differ in their labels only. -/
abbrev SameExpr (x x' : Expr) : Prop := x.unlabelled = x'.unlabelled

/-- Lists of expressions that differ in their labels only. -/
abbrev SameExprs (xs xs' : List Expr) : Prop := Expr.unlabelledAll xs = Expr.unlabelledAll xs'

theorem exists_variable {x : Expr} {l : Label} {name : Token} (h : SameExpr (.variable l name) x) :
    ∃ l', x = .variable l' name := by
  unfold SameExpr at h
  cases x <;> simp at h
  exact ⟨_, by rw [h]⟩

theorem exists_get {x o : Expr} {name : Token} (h : SameExpr (.get o name) x) :
    ∃ o', x = .get o' name ∧ SameExpr o o' := by
  unfold SameExpr at h
  cases x <;> simp at h
  exact ⟨_, by rw [h.2], h.1⟩

theorem lockstep_assignTo (equals : Token) {target target' v v' : Expr} (ht : SameExpr target target')
    (hv : SameExpr v v') : Lockstep F P P SameExpr (assignTo equals target v) (assignTo equals target' v') := by
  unfold assignTo
  split
  · obtain ⟨l, rfl⟩ := exists_variable ht
    exact lockstep_label.bind fun _ _ _ => lockstep_pure (by simp [SameExpr, hv])
  · obtain ⟨o, rfl, ho⟩ := exists_get ht
    exact lockstep_pure (by simp [SameExpr, ho, hv])
  · next hvariable hget =>
    split
    · obtain ⟨l, rfl⟩ := exists_variable ht.symm
      exact (hvariable _ _ rfl).elim
    · obtain ⟨o, rfl, ho⟩ := exists_get ht.symm
      exact (hget _ _ rfl).elim
    · exact (lockstep_report _ _).bind fun _ _ _ => lockstep_pure ht

theorem lockstep_update (invalid : SyntaxFault) (anchor : Token) (operator : Mark) {target target' v v' : Expr}
    (ht : SameExpr target target') (hv : SameExpr v v') :
    Lockstep F P P SameExpr (update invalid anchor operator target v) (update invalid anchor operator target' v') := by
  unfold update
  split
  · obtain ⟨l, rfl⟩ := exists_variable ht
    refine lockstep_label.bind fun _ _ _ => lockstep_label.bind fun _ _ _ => lockstep_pure ?_
    simp [SameExpr, hv]
  · obtain ⟨o, rfl, ho⟩ := exists_get ht
    exact lockstep_pure (by simp [SameExpr, ho, hv])
  · next hvariable hget =>
    split
    · obtain ⟨l, rfl⟩ := exists_variable ht.symm
      exact (hvariable _ _ rfl).elim
    · obtain ⟨o, rfl, ho⟩ := exists_get ht.symm
      exact (hget _ _ rfl).elim
    · exact (lockstep_report _ _).bind fun _ _ _ => lockstep_pure ht

theorem sameExpr_node (l : Level) {left left' right right' : Expr} (operator : Token) (hl : SameExpr left left')
    (hr : SameExpr right right') : SameExpr (l.node left operator right) (l.node left' operator right') := by
  cases l <;> simp [SameExpr, Level.node, hl, hr]

/-- Two runs of the rules for expressions are in lockstep. -/
structure ExpressionsLockstep (F : Frontier) (n n' : Nat) : Prop where
  expression : Lockstep F F.near F.near SameExpr (expression n) (expression n')
  binary : ∀ l, Lockstep F F.near F.near SameExpr (binary n l) (binary n' l)
  operand : ∀ l, Lockstep F F.near F.near SameExpr (operand n l) (operand n' l)
  binaryRest : ∀ l left left', SameExpr left left' →
    Lockstep F F.near F.near SameExpr (binaryRest n l left) (binaryRest n' l left')
  unary : Lockstep F F.near F.near SameExpr (unary n) (unary n')
  call : Lockstep F F.near F.near SameExpr (call n) (call n')
  callRest : ∀ f f', SameExpr f f' → Lockstep F F.near F.near SameExpr (callRest n f) (callRest n' f')
  arguments : Lockstep F F.near F.near SameExprs (arguments n) (arguments n')
  argumentList : ∀ count, Lockstep F F.near F.near SameExprs (argumentList n count) (argumentList n' count)
  primary : Lockstep F F.near F.near SameExpr (primary n) (primary n')

section Expressions

variable {n n' : Nat} (ih : ExpressionsLockstep F n n')

include ih

theorem expression_lockstep : Lockstep F F.near F.near SameExpr (expression (n + 1)) (expression (n' + 1)) := by
  simp only [expression]
  refine (ih.binary .disjunction).bind fun target target' ht => lockstep_peek fun t => ?_
  refine Lockstep.of_imp (P := F.near) ?_ And.left
  refine (lockstep_accept (by simp)).bind fun b b' hb => ?_
  subst hb
  split
  · exact ih.expression.bind fun v v' hv => lockstep_assignTo t ht hv
  · refine (lockstep_acceptBy rfl).bind fun r r' hr => ?_
    subst hr
    split
    · exact ih.expression.bind fun v v' hv => lockstep_update _ _ _ ht hv
    · exact lockstep_pure ht

theorem binary_lockstep (l : Level) : Lockstep F F.near F.near SameExpr (binary (n + 1) l) (binary (n' + 1) l) := by
  simp only [binary]
  exact (ih.operand l).bind fun left left' hl => ih.binaryRest l left left' hl

theorem operand_lockstep (l : Level) : Lockstep F F.near F.near SameExpr (operand (n + 1) l) (operand (n' + 1) l) := by
  simp only [operand]
  split
  · exact ih.binary _
  · exact ih.unary

theorem binaryRest_lockstep (l : Level) {left left' : Expr} (hl : SameExpr left left') :
    Lockstep F F.near F.near SameExpr (binaryRest (n + 1) l left) (binaryRest (n' + 1) l left') := by
  simp only [binaryRest]
  refine (lockstep_acceptBy (by cases l <;> rfl)).bind fun r r' hr => ?_
  subst hr
  split
  · exact (ih.operand l).bind fun right right' hr => ih.binaryRest l _ _ (sameExpr_node l _ hl hr)
  · exact lockstep_pure hl

theorem unary_lockstep : Lockstep F F.near F.near SameExpr (unary (n + 1)) (unary (n' + 1)) := by
  simp only [unary]
  refine (lockstep_acceptBy rfl).bind fun r r' hr => ?_
  subst hr
  split
  · exact ih.unary.bind fun right right' hr => lockstep_pure (by simp [SameExpr, hr])
  refine (lockstep_acceptBy rfl).bind fun r r' hr => ?_
  subst hr
  split
  · exact ih.unary.bind fun target target' ht => lockstep_update _ _ _ ht rfl
  refine ih.call.bind fun e e' he => (lockstep_acceptBy rfl).bind fun r r' hr => ?_
  subst hr
  split
  · exact lockstep_update _ _ _ he rfl
  · exact lockstep_pure he

theorem call_lockstep : Lockstep F F.near F.near SameExpr (call (n + 1)) (call (n' + 1)) := by
  simp only [call]
  exact ih.primary.bind fun f f' hf => ih.callRest f f' hf

theorem callRest_lockstep {f f' : Expr} (hf : SameExpr f f') :
    Lockstep F F.near F.near SameExpr (callRest (n + 1) f) (callRest (n' + 1) f') := by
  simp only [callRest]
  refine (lockstep_accept (by simp)).bind fun b b' hb => ?_
  subst hb
  split
  · refine ih.arguments.bind fun args args' ha => (lockstep_expect (by simp) _).bind fun paren paren' hp => ?_
    subst hp
    exact ih.callRest _ _ (by simp [SameExpr, hf, ha])
  refine (lockstep_accept (by simp)).bind fun b b' hb => ?_
  subst hb
  split
  · refine (lockstep_expect (by simp) _).bind fun name name' hn => ?_
    subst hn
    exact ih.callRest _ _ (by simp [SameExpr, hf])
  · exact lockstep_pure hf

theorem arguments_lockstep : Lockstep F F.near F.near SameExprs (arguments (n + 1)) (arguments (n' + 1)) := by
  simp only [arguments]
  refine (lockstep_nextIs _).bind fun b b' hb => ?_
  subst hb
  split
  · exact lockstep_pure rfl
  · exact ih.argumentList 0

theorem argumentList_lockstep (count : Nat) :
    Lockstep F F.near F.near SameExprs (argumentList (n + 1) count) (argumentList (n' + 1) count) := by
  simp only [argumentList]
  refine (lockstep_checkCount _ _).bind fun _ _ _ => ih.expression.bind fun e e' he => ?_
  refine (lockstep_accept (by simp)).bind fun b b' hb => ?_
  subst hb
  split
  · exact (ih.argumentList (count + 1)).bind fun es es' hes => lockstep_pure (by simp [SameExprs, he, hes])
  · exact lockstep_pure (by simp [SameExprs, he])

theorem primary_lockstep : Lockstep F F.near F.near SameExpr (primary (n + 1)) (primary (n' + 1)) := by
  simp only [primary]
  refine lockstep_peek fun t => ?_
  split
  · next hk => exact (lockstep_advance hk (by simp)).bind fun _ _ _ => lockstep_pure rfl
  · next hk => exact (lockstep_advance hk (by simp)).bind fun _ _ _ => lockstep_pure rfl
  · next hk => exact (lockstep_advance hk (by simp)).bind fun _ _ _ => lockstep_pure rfl
  · next hk => exact (lockstep_advance hk (by simp)).bind fun _ _ _ => lockstep_pure rfl
  · next hk => exact (lockstep_advance hk (by simp)).bind fun _ _ _ => lockstep_pure rfl
  · next hk =>
    exact (lockstep_advance hk (by simp)).bind fun _ _ _ => lockstep_label.bind fun _ _ _ => lockstep_pure rfl
  · next hk =>
    exact (lockstep_advance hk (by simp)).bind fun _ _ _ => lockstep_label.bind fun _ _ _ => lockstep_pure rfl
  · next hk =>
    refine (lockstep_advance hk (by simp)).bind fun _ _ _ => (lockstep_expect (by simp) _).bind fun _ _ _ => ?_
    refine (lockstep_expect (by simp) _).bind fun method method' hm => lockstep_label.bind fun _ _ _ => ?_
    subst hm
    exact lockstep_pure rfl
  · next hk =>
    refine (lockstep_advance hk (by simp)).bind fun _ _ _ => ih.expression.bind fun e e' he => ?_
    exact (lockstep_expect (by simp) _).bind fun _ _ _ => lockstep_pure (by simp [SameExpr, he])
  · exact (lockstep_refuse _).of_imp And.left

end Expressions

theorem expressions_lockstep (F : Frontier) (n n' : Nat) : ExpressionsLockstep F n n' := by
  induction n generalizing n' with
  | zero => constructor <;> intros <;> exact lockstep_outOfFuel_left _
  | succ n ih =>
    cases n' with
    | zero => constructor <;> intros <;> exact lockstep_outOfFuel_right _
    | succ n' =>
      exact ⟨expression_lockstep (ih n'), binary_lockstep (ih n'), operand_lockstep (ih n'),
        fun l _ _ => binaryRest_lockstep (ih n') l, unary_lockstep (ih n'), call_lockstep (ih n'),
        fun _ _ => callRest_lockstep (ih n'), arguments_lockstep (ih n'), argumentList_lockstep (ih n'),
        primary_lockstep (ih n')⟩

/-! ## statements in terms of their parts -/

/-- Statements that differ in their labels only. -/
abbrev SameStmt (s s' : Stmt) : Prop := s.unlabelled = s'.unlabelled

/-- Lists of statements that differ in their labels only. -/
abbrev SameStmts (body body' : List Stmt) : Prop := Stmt.unlabelledAll body = Stmt.unlabelledAll body'

/-- Functions that differ in their labels only. -/
abbrev SameFunction (d d' : FunctionDecl) : Prop := d.unlabelled = d'.unlabelled

/-- Lists of functions that differ in their labels only. -/
abbrev SameFunctions (ds ds' : List FunctionDecl) : Prop :=
  FunctionDecl.unlabelledAll ds = FunctionDecl.unlabelledAll ds'

section Parts

variable {re re' : Rule Expr} {rs rs' : Rule Stmt}

theorem varDeclaration_lockstep (he : Lockstep F F.near F.near SameExpr re re') :
    Lockstep F F.near F.met SameStmt (varDeclaration re) (varDeclaration re') := by
  refine (lockstep_expect (by simp) _).bind fun name name' hn => (lockstep_accept (by simp)).bind fun b b' hb => ?_
  subst hn hb
  split
  · refine he.bind fun e e' he => (lockstep_semicolon _).bind fun _ _ _ => lockstep_pure ?_
    simp [SameStmt, he]
  · exact (lockstep_semicolon _).bind fun _ _ _ => lockstep_pure rfl

theorem expressionStatement_lockstep (he : Lockstep F F.near F.near SameExpr re re') :
    Lockstep F F.near F.met SameStmt (expressionStatement re) (expressionStatement re') := by
  refine he.bind fun e e' he => (lockstep_semicolon _).bind fun _ _ _ => lockstep_pure ?_
  simp [SameStmt, he]

theorem printStatement_lockstep (keyword : Token) (he : Lockstep F F.near F.near SameExpr re re') :
    Lockstep F F.near F.met SameStmt (printStatement keyword re) (printStatement keyword re') := by
  refine he.bind fun e e' he => (lockstep_semicolon _).bind fun _ _ _ => lockstep_pure ?_
  simp [SameStmt, he]

theorem returnStatement_lockstep (keyword : Token) (he : Lockstep F F.near F.near SameExpr re re') :
    Lockstep F F.near F.met SameStmt (returnStatement keyword re) (returnStatement keyword re') := by
  refine (lockstep_nextIs _).bind fun b b' hb => ?_
  subst hb
  split
  · exact (lockstep_semicolon _).bind fun _ _ _ => lockstep_pure rfl
  · refine he.bind fun e e' he => (lockstep_semicolon _).bind fun _ _ _ => lockstep_pure ?_
    simp [SameStmt, he]

theorem ifStatement_lockstep (he : Lockstep F F.near F.near SameExpr re re')
    (hs : Lockstep F F.near F.met SameStmt rs rs') :
    Lockstep F F.near F.met SameStmt (ifStatement re rs) (ifStatement re' rs') := by
  refine (lockstep_expect (by simp) _).bind fun _ _ _ => he.bind fun c c' hc => ?_
  refine (lockstep_expect (by simp) _).bind fun _ _ _ => hs.bind fun t t' ht => lockstep_else ?_ ?_
  · exact hs.bind fun e e' he => lockstep_pure (by simp [SameStmt, hc, ht, he])
  · exact lockstep_pure (by simp [SameStmt, hc, ht])

theorem whileStatement_lockstep (he : Lockstep F F.near F.near SameExpr re re')
    (hs : Lockstep F F.near F.met SameStmt rs rs') :
    Lockstep F F.near F.met SameStmt (whileStatement re rs) (whileStatement re' rs') := by
  refine (lockstep_expect (by simp) _).bind fun _ _ _ => he.bind fun c c' hc => ?_
  refine (lockstep_expect (by simp) _).bind fun _ _ _ => hs.bind fun body body' hb => lockstep_pure ?_
  simp [SameStmt, hc, hb]

theorem superclass_lockstep :
    Lockstep F F.near F.near (fun s s' => s.map Expr.unlabelled = s'.map Expr.unlabelled) superclass superclass := by
  refine (lockstep_accept (by simp)).bind fun b b' hb => ?_
  subst hb
  split
  · refine (lockstep_expect (by simp) _).bind fun name name' hn => lockstep_label.bind fun _ _ _ => ?_
    subst hn
    exact lockstep_pure rfl
  · exact lockstep_pure rfl

theorem classDeclaration_lockstep {rm rm' : Rule (List FunctionDecl)}
    (hm : Lockstep .equal Eq Eq SameFunctions rm rm') :
    Lockstep F F.near F.met SameStmt (classDeclaration rm) (classDeclaration rm') := by
  refine (lockstep_expect (by simp) _).bind fun name name' hn => superclass_lockstep.bind fun s s' hs => ?_
  subst hn
  refine lockstep_leftBrace _ fun _ => hm.bind fun ms ms' hms => ?_
  exact (lockstep_expect (F := .equal) (by simp) _).bind fun _ _ _ => lockstep_pure (by simp [SameStmt, hs, hms])

theorem parameterNames_lockstep (n n' count : Nat) :
    Lockstep F F.near F.near Eq (parameterNames n count) (parameterNames n' count) := by
  induction n generalizing n' count with
  | zero => exact lockstep_outOfFuel_left _
  | succ n ih =>
    cases n' with
    | zero => exact lockstep_outOfFuel_right _
    | succ n' =>
      simp only [parameterNames]
      refine (lockstep_checkCount _ _).bind fun _ _ _ => (lockstep_expect (by simp) _).bind fun name name' hn => ?_
      refine (lockstep_accept (by simp)).bind fun b b' hb => ?_
      subst hn hb
      split
      · exact (ih n' (count + 1)).bind fun names names' hns => lockstep_pure (by rw [hns])
      · exact lockstep_pure rfl

end Parts

/-! ## for loops -/

section Loops

variable {re re' : Rule Expr} {rs rs' : Rule Stmt} (he : Lockstep .equal Eq Eq SameExpr re re')

include he

theorem forInitializer_lockstep :
    Lockstep .equal Eq Eq (fun s s' => s.map Stmt.unlabelled = s'.map Stmt.unlabelled) (forInitializer re)
      (forInitializer re') := by
  refine (lockstep_acceptAny (F := .equal) _).bind fun b b' hb => ?_
  subst hb
  split
  · exact lockstep_pure rfl
  refine (lockstep_accept (F := .equal) (by simp)).bind fun b b' hb => ?_
  subst hb
  split
  · exact (varDeclaration_lockstep (F := .equal) he).bind fun s s' hs => lockstep_pure (by simp [hs])
  · exact (expressionStatement_lockstep (F := .equal) he).bind fun s s' hs => lockstep_pure (by simp [hs])

theorem forCondition_lockstep : Lockstep .equal Eq Eq SameExpr (forCondition re) (forCondition re') := by
  refine (lockstep_nextIs (F := .equal) _).bind fun b b' hb => ?_
  subst hb
  split
  · exact lockstep_pure rfl
  · exact he

theorem forIncrement_lockstep :
    Lockstep .equal Eq Eq (fun e e' => e.map Expr.unlabelled = e'.map Expr.unlabelled) (forIncrement re)
      (forIncrement re') := by
  refine (lockstep_nextIs (F := .equal) _).bind fun b b' hb => ?_
  subst hb
  split
  · exact lockstep_pure rfl
  · exact he.bind fun e e' he => lockstep_pure (by simp [he])

theorem forStatement_lockstep (hs : Lockstep .equal Eq Eq SameStmt rs rs') :
    Lockstep .equal Eq Eq SameStmt (forStatement re rs) (forStatement re' rs') := by
  refine (lockstep_expect (F := .equal) (by simp) _).bind fun _ _ _ => ?_
  refine (forInitializer_lockstep he).bind fun s s' hf => ?_
  refine (forCondition_lockstep he).bind fun c c' hc => (lockstep_semicolon (F := .equal) _).bind fun _ _ _ => ?_
  refine (forIncrement_lockstep he).bind fun i i' hi => ?_
  refine (lockstep_expect (F := .equal) (by simp) _).bind fun _ _ _ => hs.bind fun body body' hb => ?_
  cases s <;> cases s' <;> simp at hf
  · exact lockstep_pure (by simp [SameStmt, hc, hi, hb])
  · exact lockstep_pure (by simp [SameStmt, hf, hc, hi, hb])

end Loops

/-! ## statements -/

/-- Two runs of the rules for statements are in lockstep; those for lists of them only where nothing differs. -/
structure StatementsLockstep (n n' : Nat) : Prop where
  statement : ∀ F : Frontier, Lockstep F F.near F.met SameStmt (statement n) (statement n')
  declaration : ∀ F : Frontier, Lockstep F F.near F.met (Option.Rel SameStmt) (declaration n) (declaration n')
  declarations : ∀ inBraces, Lockstep .equal Eq Eq SameStmts (declarations n inBraces) (declarations n' inBraces)
  function : ∀ (F : Frontier) (kind : Body), Lockstep F F.near F.met SameFunction (function n kind) (function n' kind)
  methods : Lockstep .equal Eq Eq SameFunctions (methods n) (methods n')

section Statements

variable {n n' : Nat} (ih : StatementsLockstep n n')

include ih

theorem statement_lockstep (F : Frontier) :
    Lockstep F F.near F.met SameStmt (statement (n + 1)) (statement (n' + 1)) := by
  simp only [statement]
  refine lockstep_peek fun t => ?_
  have hexpr : ∀ F : Frontier, Lockstep F F.near F.near SameExpr (expression n) (expression n') :=
    fun F => (expressions_lockstep F n n').expression
  split
  · next hk =>
    refine Lockstep.nested (.inr hk) ((lockstep_advance hk (by simp)).bind fun _ _ _ => ?_)
    exact forStatement_lockstep (hexpr .equal) (ih.statement .equal)
  · next hk =>
    exact (lockstep_advance hk (by simp)).bind fun _ _ _ => ifStatement_lockstep (hexpr F) (ih.statement F)
  · next hk =>
    exact (lockstep_advance hk (by simp)).bind fun _ _ _ => whileStatement_lockstep (hexpr F) (ih.statement F)
  · next hk => exact (lockstep_advance hk (by simp)).bind fun _ _ _ => returnStatement_lockstep t (hexpr F)
  · next hk =>
    refine (lockstep_advance hk (by simp)).bind fun _ _ _ => (lockstep_semicolon _).bind fun _ _ _ => ?_
    exact lockstep_pure rfl
  · next hk =>
    refine (lockstep_advance hk (by simp)).bind fun _ _ _ => (lockstep_semicolon _).bind fun _ _ _ => ?_
    exact lockstep_pure rfl
  · next hk =>
    refine Lockstep.nested (.inl hk) ((lockstep_advance hk (by simp)).bind fun _ _ _ => ?_)
    refine (ih.declarations true).bind fun body body' hb => ?_
    refine (lockstep_expect (F := .equal) (by simp) _).bind fun _ _ _ => ?_
    exact lockstep_pure (by simp [SameStmt, hb])
  · next hk => exact (lockstep_advance hk (by simp)).bind fun _ _ _ => printStatement_lockstep t (hexpr F)
  · exact (expressionStatement_lockstep (hexpr F)).of_imp And.left

theorem declaration_lockstep (F : Frontier) :
    Lockstep F F.near F.met (Option.Rel SameStmt) (declaration (n + 1)) (declaration (n' + 1)) := by
  simp only [declaration]
  refine lockstep_recover (lockstep_peek fun t => ?_)
  split
  · next hk => exact (lockstep_advance hk (by simp)).bind fun _ _ _ => classDeclaration_lockstep ih.methods
  · next hk =>
    refine (lockstep_advance hk (by simp)).bind fun _ _ _ => (ih.function F .function).bind fun d d' hd => ?_
    exact lockstep_pure (by simp [SameStmt, hd])
  · next hk =>
    exact (lockstep_advance hk (by simp)).bind fun _ _ _ =>
      varDeclaration_lockstep (expressions_lockstep F n n').expression
  · exact (ih.statement F).of_imp And.left

theorem declarations_lockstep (inBraces : Bool) :
    Lockstep .equal Eq Eq SameStmts (declarations (n + 1) inBraces) (declarations (n' + 1) inBraces) := by
  simp only [declarations]
  refine lockstep_peek (F := .equal) fun t => Lockstep.of_imp (P := Eq) ?_ And.left
  split
  · exact lockstep_pure rfl
  · refine (ih.declaration .equal).bind fun s s' hs => (ih.declarations inBraces).bind fun body body' hb => ?_
    refine lockstep_pure ?_
    cases hs with
    | none => exact hb
    | some hs => simp [SameStmts, hs, hb]

theorem function_lockstep (F : Frontier) (kind : Body) :
    Lockstep F F.near F.met SameFunction (function (n + 1) kind) (function (n' + 1) kind) := by
  simp only [function]
  refine (lockstep_expect (by simp) _).bind fun name name' hn => (lockstep_expect (by simp) _).bind fun _ _ _ => ?_
  subst hn
  have hparams : Lockstep F F.near F.near Eq
      (do if ← nextIs (.mark .rightParen) then pure [] else parameterNames n 0 : Rule (List Token))
      (do if ← nextIs (.mark .rightParen) then pure [] else parameterNames n' 0 : Rule (List Token)) := by
    refine (lockstep_nextIs _).bind fun b b' hb => ?_
    subst hb
    split
    · exact lockstep_pure rfl
    · exact parameterNames_lockstep n n' 0
  refine hparams.bind fun params params' hp => (lockstep_expect (by simp) _).bind fun _ _ _ => ?_
  subst hp
  refine lockstep_leftBrace _ fun _ => (ih.declarations true).bind fun body body' hb => ?_
  exact (lockstep_expect (F := .equal) (by simp) _).bind fun _ _ _ => lockstep_pure (by simp [SameFunction, hb])

theorem methods_lockstep : Lockstep .equal Eq Eq SameFunctions (methods (n + 1)) (methods (n' + 1)) := by
  simp only [methods]
  refine lockstep_peek (F := .equal) fun t => Lockstep.of_imp (P := Eq) ?_ And.left
  split
  · exact lockstep_pure rfl
  · refine (ih.function .equal .method).bind fun d d' hd => ih.methods.bind fun ds ds' hds => ?_
    exact lockstep_pure (by simp [SameFunctions, hd, hds])

end Statements

theorem statements_lockstep (n n' : Nat) : StatementsLockstep n n' := by
  induction n generalizing n' with
  | zero => constructor <;> intros <;> exact lockstep_outOfFuel_left _
  | succ n ih =>
    cases n' with
    | zero => constructor <;> intros <;> exact lockstep_outOfFuel_right _
    | succ n' =>
      exact ⟨statement_lockstep (ih n'), declaration_lockstep (ih n'), declarations_lockstep (ih n'),
        function_lockstep (ih n'), methods_lockstep (ih n')⟩

end Rule

end ScriptLang
