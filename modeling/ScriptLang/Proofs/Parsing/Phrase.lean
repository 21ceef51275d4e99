import ScriptLang.Proofs.Parsing.CleanRun

/-!
# Phrases: which tokens stand for which trees

* `Phrase` — a part of the grammar together with the tree it stands for;
* `p.Reads lo ts hi` — the tokens `ts` are written as the phrase `p`, and its nodes take the labels from `lo` on, of
  which `hi` is the first that is left.

The relation has no cursor, no fuel and no faults.  It is what the rules read when nothing is reported, and all that is
said about trees of parsed programs is proved by induction on it.  An `else` belongs to the innermost conditional
before it, also if it was meant for an outer one (`Reads.attachElse`).
-/

namespace ScriptLang

/-- The constant that a token of a kind stands for. -/
def constant? : Kind → Option Literal
  | .keyword .kwFalse => some (.bool false)
  | .keyword .kwTrue => some (.bool true)
  | .keyword .kwNil => some .nil
  | .number x => some (.number x)
  | .string raw => some (.string raw)
  | _ => none

/-- A for loop: a loop with an increment, in a block with its initializer if it has one. -/
def Stmt.forLoop (first : Option Stmt) (condition : Expr) (body : Stmt) (increment : Option Expr) : Stmt :=
  match first with
  | some s => .block [s, .loop condition body increment]
  | none => .loop condition body increment

/-- A part of the grammar with the tree it stands for. -/
inductive Phrase
  | expression (x : Expr)
  | binary (l : Level) (x : Expr)
  | operand (l : Level) (x : Expr)
  /-- The operators and operands that follow `left` and make it `x`. -/
  | binaryRest (l : Level) (left x : Expr)
  | unary (x : Expr)
  | call (x : Expr)
  /-- The calls and property reads that follow `f` and make it `x`. -/
  | callRest (f x : Expr)
  | arguments (xs : List Expr)
  /-- At least one argument, when `count` stand before it. -/
  | argumentList (count : Nat) (xs : List Expr)
  | primary (x : Expr)
  | varDeclaration (s : Stmt)
  | expressionStatement (s : Stmt)
  | forInitializer (s : Option Stmt)
  | forCondition (x : Expr)
  | forIncrement (x : Option Expr)
  /-- A statement; `isOpen` if an `else` behind it would become part of it. -/
  | statement (isOpen : Bool) (s : Stmt)
  | declaration (s : Stmt)
  | declarations (body : List Stmt)
  | parameters (names : List Token)
  /-- At least one parameter, when `count` stand before it. -/
  | parameterNames (count : Nat) (names : List Token)
  | function (d : FunctionDecl)
  | superclass (x : Option Expr)
  | methods (ds : List FunctionDecl)

namespace Phrase

open Rule (maxArity one)

/-- The tokens are written as the phrase. -/
inductive Reads : Phrase → Label → List Token → Label → Prop
  -- assignments
  | operators {x lo ts hi} : Reads (.binary .disjunction x) lo ts hi → Reads (.expression x) lo ts hi
  | assign {target v x lo ts mid t us hi hi'} : Reads (.binary .disjunction target) lo ts mid →
      t.kind = .mark .equal → Reads (.expression v) mid us hi → target.assigned? hi v = some (x, hi') →
      Reads (.expression x) lo (ts ++ t :: us) hi'
  | update {target v x op lo ts mid t us hi hi'} : Reads (.binary .disjunction target) lo ts mid →
      compound? t.kind = some op → Reads (.expression v) mid us hi →
      target.updated? hi (Token.ofMark op t.line) v = some (x, hi') →
      Reads (.expression x) lo (ts ++ t :: us) hi'
  -- operators between two operands
  | binary {l left x lo ts mid us hi} : Reads (.operand l left) lo ts mid → Reads (.binaryRest l left x) mid us hi →
      Reads (.binary l x) lo (ts ++ us) hi
  | tighter {l inner x lo ts hi} : l.tighter? = some inner → Reads (.binary inner x) lo ts hi →
      Reads (.operand l x) lo ts hi
  | tightest {l x lo ts hi} : l.tighter? = none → Reads (.unary x) lo ts hi → Reads (.operand l x) lo ts hi
  | binaryEnd {l left lo} : Reads (.binaryRest l left left) lo [] lo
  | binaryMore {l left right x lo t ts mid us hi} : t.kind ∈ l.operators → Reads (.operand l right) lo ts mid →
      Reads (.binaryRest l (l.node left t right) x) mid us hi → Reads (.binaryRest l left x) lo (t :: ts ++ us) hi
  -- operators before or behind one operand
  | sign {x lo t ts hi} : sign? t.kind = some () → Reads (.unary x) lo ts hi →
      Reads (.unary (.unary t x)) lo (t :: ts) hi
  | stepBefore {target x op lo t ts hi hi'} : step? t.kind = some op → Reads (.unary target) lo ts hi →
      target.updated? hi (Token.ofMark op t.line) one = some (x, hi') → Reads (.unary x) lo (t :: ts) hi'
  | stepBehind {target x op lo ts t hi hi'} : Reads (.call target) lo ts hi → step? t.kind = some op →
      target.updated? hi (Token.ofMark op t.line) one = some (x, hi') → Reads (.unary x) lo (ts ++ [t]) hi'
  | noStep {x lo ts hi} : Reads (.call x) lo ts hi → Reads (.unary x) lo ts hi
  -- calls
  | call {f x lo ts mid us hi} : Reads (.primary f) lo ts mid → Reads (.callRest f x) mid us hi →
      Reads (.call x) lo (ts ++ us) hi
  | callEnd {f lo} : Reads (.callRest f f) lo [] lo
  | callArguments {f args x lo t ts paren mid us hi} : t.kind = .mark .leftParen →
      Reads (.arguments args) lo ts mid → paren.kind = .mark .rightParen →
      Reads (.callRest (.call f paren args) x) mid us hi → Reads (.callRest f x) lo (t :: ts ++ paren :: us) hi
  | callProperty {f x lo t name us hi} : t.kind = .mark .dot → name.kind = .identifier →
      Reads (.callRest (.get f name) x) lo us hi → Reads (.callRest f x) lo (t :: name :: us) hi
  | noArguments {lo} : Reads (.arguments []) lo [] lo
  | someArguments {xs lo ts hi} : Reads (.argumentList 0 xs) lo ts hi → Reads (.arguments xs) lo ts hi
  | lastArgument {count x lo ts hi} : count < maxArity → Reads (.expression x) lo ts hi →
      Reads (.argumentList count [x]) lo ts hi
  | moreArguments {count x xs lo ts mid t us hi} : count < maxArity → Reads (.expression x) lo ts mid →
      t.kind = .mark .comma → Reads (.argumentList (count + 1) xs) mid us hi →
      Reads (.argumentList count (x :: xs)) lo (ts ++ t :: us) hi
  -- primary expressions
  | constant {v lo t} : constant? t.kind = some v → Reads (.primary (.literal v)) lo [t] lo
  | identifier {lo t} : t.kind = .identifier → Reads (.primary (.variable lo t)) lo [t] (lo + 1)
  | this {lo t} : t.kind = .keyword .kwThis → Reads (.primary (.this lo t)) lo [t] (lo + 1)
  | super {lo t dot name} : t.kind = .keyword .kwSuper → dot.kind = .mark .dot → name.kind = .identifier →
      Reads (.primary (.super lo t name)) lo [t, dot, name] (lo + 1)
  | group {x lo t ts close hi} : t.kind = .mark .leftParen → Reads (.expression x) lo ts hi →
      close.kind = .mark .rightParen → Reads (.primary (.group x)) lo (t :: ts ++ [close]) hi
  -- simple statements
  | varPlain {lo name semi} : name.kind = .identifier → semi.kind = .mark .semicolon →
      Reads (.varDeclaration (.varDecl name none)) lo [name, semi] lo
  | varValue {x lo name t ts semi hi} : name.kind = .identifier → t.kind = .mark .equal →
      Reads (.expression x) lo ts hi → semi.kind = .mark .semicolon →
      Reads (.varDeclaration (.varDecl name (some x))) lo (name :: t :: ts ++ [semi]) hi
  | expressionStatement {x lo ts semi hi} : Reads (.expression x) lo ts hi → semi.kind = .mark .semicolon →
      Reads (.expressionStatement (.expr x)) lo (ts ++ [semi]) hi
  -- the clauses of a for loop
  | noInitializer {lo semi} : semi.kind = .mark .semicolon → Reads (.forInitializer none) lo [semi] lo
  | varInitializer {s lo t ts hi} : t.kind = .keyword .kwVar → Reads (.varDeclaration s) lo ts hi →
      Reads (.forInitializer (some s)) lo (t :: ts) hi
  | expressionInitializer {s lo ts hi} : Reads (.expressionStatement s) lo ts hi →
      Reads (.forInitializer (some s)) lo ts hi
  | noCondition {lo} : Reads (.forCondition (.literal (.bool true))) lo [] lo
  | someCondition {x lo ts hi} : Reads (.expression x) lo ts hi → Reads (.forCondition x) lo ts hi
  | noIncrement {lo} : Reads (.forIncrement none) lo [] lo
  | someIncrement {x lo ts hi} : Reads (.expression x) lo ts hi → Reads (.forIncrement (some x)) lo ts hi
  -- statements
  | forLoop {o first c i body lo k t₁ ts₁ l₁ ts₂ l₂ t₂ ts₃ l₃ t₃ ts₄ hi} : k.kind = .keyword .kwFor →
      t₁.kind = .mark .leftParen → Reads (.forInitializer first) lo ts₁ l₁ → Reads (.forCondition c) l₁ ts₂ l₂ →
      t₂.kind = .mark .semicolon → Reads (.forIncrement i) l₂ ts₃ l₃ → t₃.kind = .mark .rightParen →
      Reads (.statement o body) l₃ ts₄ hi →
      Reads (.statement o (.forLoop first c body i)) lo
        (k :: t₁ :: ts₁ ++ (ts₂ ++ t₂ :: (ts₃ ++ t₃ :: ts₄))) hi
  | ifThen {o c s lo k t₁ ts mid t₂ us hi} : k.kind = .keyword .kwIf → t₁.kind = .mark .leftParen →
      Reads (.expression c) lo ts mid → t₂.kind = .mark .rightParen → Reads (.statement o s) mid us hi →
      Reads (.statement true (.ifThen c s)) lo (k :: t₁ :: ts ++ t₂ :: us) hi
  | ifElse {o c s e lo k t₁ ts l₁ t₂ us l₂ t₃ vs hi} : k.kind = .keyword .kwIf → t₁.kind = .mark .leftParen →
      Reads (.expression c) lo ts l₁ → t₂.kind = .mark .rightParen → Reads (.statement false s) l₁ us l₂ →
      t₃.kind = .keyword .kwElse → Reads (.statement o e) l₂ vs hi →
      Reads (.statement o (.ifElse c s e)) lo (k :: t₁ :: ts ++ t₂ :: (us ++ t₃ :: vs)) hi
  | whileLoop {o c s lo k t₁ ts mid t₂ us hi} : k.kind = .keyword .kwWhile → t₁.kind = .mark .leftParen →
      Reads (.expression c) lo ts mid → t₂.kind = .mark .rightParen → Reads (.statement o s) mid us hi →
      Reads (.statement o (.loop c s none)) lo (k :: t₁ :: ts ++ t₂ :: us) hi
  | returnNothing {lo k semi} : k.kind = .keyword .kwReturn → semi.kind = .mark .semicolon →
      Reads (.statement false (.returnFrom k none)) lo [k, semi] lo
  | returnValue {x lo k ts semi hi} : k.kind = .keyword .kwReturn → Reads (.expression x) lo ts hi →
      semi.kind = .mark .semicolon → Reads (.statement false (.returnFrom k (some x))) lo (k :: ts ++ [semi]) hi
  | breakLoop {lo k semi} : k.kind = .keyword .kwBreak → semi.kind = .mark .semicolon →
      Reads (.statement false (.breakLoop k)) lo [k, semi] lo
  | continueLoop {lo k semi} : k.kind = .keyword .kwContinue → semi.kind = .mark .semicolon →
      Reads (.statement false (.continueLoop k)) lo [k, semi] lo
  | block {body lo t ts close hi} : t.kind = .mark .leftBrace → Reads (.declarations body) lo ts hi →
      close.kind = .mark .rightBrace → Reads (.statement false (.block body)) lo (t :: ts ++ [close]) hi
  | print {x lo k ts semi hi} : k.kind = .keyword .kwPrint → Reads (.expression x) lo ts hi →
      semi.kind = .mark .semicolon → Reads (.statement false (.print k x)) lo (k :: ts ++ [semi]) hi
  | expressionOnly {s lo ts hi} : Reads (.expressionStatement s) lo ts hi → Reads (.statement false s) lo ts hi
  -- declarations
  | classDecl {name s ms lo k ts₁ mid t₁ ts₂ hi t₂} : k.kind = .keyword .kwClass → name.kind = .identifier →
      Reads (.superclass s) lo ts₁ mid → t₁.kind = .mark .leftBrace → Reads (.methods ms) mid ts₂ hi →
      t₂.kind = .mark .rightBrace →
      Reads (.declaration (.classDecl name s ms)) lo (k :: name :: ts₁ ++ t₁ :: (ts₂ ++ [t₂])) hi
  | funDecl {d lo k ts hi} : k.kind = .keyword .kwFun → Reads (.function d) lo ts hi →
      Reads (.declaration (.funDecl d)) lo (k :: ts) hi
  | varDecl {s lo k ts hi} : k.kind = .keyword .kwVar → Reads (.varDeclaration s) lo ts hi →
      Reads (.declaration s) lo (k :: ts) hi
  | noDeclaration {o s lo ts hi} : Reads (.statement o s) lo ts hi → Reads (.declaration s) lo ts hi
  | declarationsEnd {lo} : Reads (.declarations []) lo [] lo
  | declarationsMore {s body lo ts mid us hi} : Reads (.declaration s) lo ts mid →
      Reads (.declarations body) mid us hi → Reads (.declarations (s :: body)) lo (ts ++ us) hi
  -- functions and classes
  | noParameters {lo} : Reads (.parameters []) lo [] lo
  | someParameters {names lo ts hi} : Reads (.parameterNames 0 names) lo ts hi → Reads (.parameters names) lo ts hi
  | lastParameter {count lo name} : count < maxArity → name.kind = .identifier →
      Reads (.parameterNames count [name]) lo [name] lo
  | moreParameters {count names lo name t us hi} : count < maxArity → name.kind = .identifier →
      t.kind = .mark .comma → Reads (.parameterNames (count + 1) names) lo us hi →
      Reads (.parameterNames count (name :: names)) lo (name :: t :: us) hi
  | function {params body lo name t₁ ts mid t₂ t₃ us hi t₄} : name.kind = .identifier →
      t₁.kind = .mark .leftParen → Reads (.parameters params) lo ts mid → t₂.kind = .mark .rightParen →
      t₃.kind = .mark .leftBrace → Reads (.declarations body) mid us hi → t₄.kind = .mark .rightBrace →
      Reads (.function (.mk name params body)) lo (name :: t₁ :: ts ++ t₂ :: t₃ :: (us ++ [t₄])) hi
  | noSuperclass {lo} : Reads (.superclass none) lo [] lo
  | someSuperclass {lo t name} : t.kind = .mark .less → name.kind = .identifier →
      Reads (.superclass (some (.variable lo name))) lo [t, name] (lo + 1)
  | methodsEnd {lo} : Reads (.methods []) lo [] lo
  | methodsMore {d ds lo ts mid us hi} : Reads (.function d) lo ts mid → Reads (.methods ds) mid us hi →
      Reads (.methods (d :: ds)) lo (ts ++ us) hi

variable {ts us : List Token} {x f : Expr} {lo mid hi : Label}

/-! ## an `else` behind an open statement -/

/-- An `else` behind an open statement becomes part of it, whatever it was derived as. -/
theorem Reads.attachElse {p : Phrase} (h : p.Reads lo ts mid) {s e : Stmt} {o : Bool} {k : Token}
    (hp : p = .statement true s) (hk : k.kind = .keyword .kwElse) (he : Reads (.statement o e) mid us hi) :
    ∃ o' s', Reads (.statement o' s') lo (ts ++ k :: us) hi := by
  induction h generalizing s with
  | forLoop hf h₁ hfirst hc h₂ hi₃ h₃ _ _ _ _ ih =>
    cases hp
    obtain ⟨o', s', hs⟩ := ih rfl he
    have hr := Reads.forLoop hf h₁ hfirst hc h₂ hi₃ h₃ hs
    exact ⟨o', _, by simpa only [List.append_assoc, List.cons_append] using hr⟩
  | @ifThen o₁ _ _ _ _ _ _ _ _ _ _ hif h₁ hc h₂ hs _ ih =>
    -- a closed branch takes the `else`; an open one hands it on
    cases o₁ with
    | false =>
      have hr := Reads.ifElse hif h₁ hc h₂ hs hk he
      exact ⟨o, _, by simpa only [List.append_assoc, List.cons_append] using hr⟩
    | true =>
      obtain ⟨o', s', hs'⟩ := ih rfl he
      have hr := Reads.ifThen hif h₁ hc h₂ hs'
      exact ⟨true, _, by simpa only [List.append_assoc, List.cons_append] using hr⟩
  | ifElse hif h₁ hc h₂ hs h₃ _ _ _ ih =>
    cases hp
    obtain ⟨o', s', hs'⟩ := ih rfl he
    have hr := Reads.ifElse hif h₁ hc h₂ hs h₃ hs'
    exact ⟨o', _, by simpa only [List.append_assoc, List.cons_append] using hr⟩
  | whileLoop hw h₁ hc h₂ _ _ ih =>
    cases hp
    obtain ⟨o', s', hs'⟩ := ih rfl he
    have hr := Reads.whileLoop hw h₁ hc h₂ hs'
    exact ⟨o', _, by simpa only [List.append_assoc, List.cons_append] using hr⟩
  | _ => cases hp

/-! ## expressions at weaker levels -/

theorem Reads.binary_of_operand {l : Level} (h : Reads (.operand l x) lo ts hi) :
    Reads (.binary l x) lo ts hi := by
  have hb := Reads.binary h .binaryEnd
  rwa [List.append_nil] at hb

/-- A unary expression stands at every level. -/
theorem Reads.binary_of_unary (h : Reads (.unary x) lo ts hi) (l : Level) :
    Reads (.binary l x) lo ts hi := by
  have hproduct := (Reads.tightest (l := .product) rfl h).binary_of_operand
  have hsum := (Reads.tighter (l := .sum) rfl hproduct).binary_of_operand
  have hcomparison := (Reads.tighter (l := .comparison) rfl hsum).binary_of_operand
  have hequality := (Reads.tighter (l := .equality) rfl hcomparison).binary_of_operand
  have hconjunction := (Reads.tighter (l := .conjunction) rfl hequality).binary_of_operand
  cases l with
  | disjunction => exact (Reads.tighter (l := .disjunction) rfl hconjunction).binary_of_operand
  | conjunction => exact hconjunction
  | equality => exact hequality
  | comparison => exact hcomparison
  | sum => exact hsum
  | product => exact hproduct

/-! ## expressions that grow at their end -/

/-- What follows an expression may be followed by more. -/
theorem Reads.callRest_trans {p : Phrase} (h : p.Reads lo ts mid) {g : Expr} (hp : p = .callRest f g)
    (h' : Reads (.callRest g x) mid us hi) : Reads (.callRest f x) lo (ts ++ us) hi := by
  induction h generalizing f with
  | callEnd =>
    cases hp
    exact h'
  | callArguments hk ha hparen _ _ ih =>
    cases hp
    simpa only [List.append_assoc, List.cons_append] using Reads.callArguments hk ha hparen (ih rfl h')
  | callProperty hk hn _ ih =>
    cases hp
    exact .callProperty hk hn (ih rfl h')
  | _ => cases hp

theorem Reads.call_append (h : Reads (.call f) lo ts mid) (h' : Reads (.callRest f x) mid us hi) :
    Reads (.call x) lo (ts ++ us) hi := by
  cases h with
  | call hprimary hrest =>
    rw [List.append_assoc]
    exact .call hprimary (hrest.callRest_trans rfl h')

theorem Reads.call_property {dot name : Token} (h : Reads (.call x) lo ts hi) (hd : dot.kind = .mark .dot)
    (hn : name.kind = .identifier) : Reads (.call (.get x name)) lo (ts ++ [dot, name]) hi :=
  h.call_append (.callProperty hd hn .callEnd)

/-- The operators that follow an operand may be followed by more. -/
theorem Reads.binaryRest_trans {p : Phrase} (h : p.Reads lo ts mid) {l : Level} {left y : Expr}
    (hp : p = .binaryRest l left y) (h' : Reads (.binaryRest l y x) mid us hi) :
    Reads (.binaryRest l left x) lo (ts ++ us) hi := by
  induction h generalizing left with
  | binaryEnd =>
    cases hp
    exact h'
  | binaryMore hk hr _ _ ih =>
    cases hp
    simpa only [List.append_assoc, List.cons_append] using Reads.binaryMore hk hr (ih rfl h')
  | _ => cases hp

/-- An operator and an operand make an expression of a level a longer one, which leans to the left. -/
theorem Reads.binary_operator {l : Level} {left right : Expr} {t : Token} (h : Reads (.binary l left) lo ts mid)
    (hk : t.kind ∈ l.operators) (hr : Reads (.operand l right) mid us hi) :
    Reads (.binary l (l.node left t right)) lo (ts ++ t :: us) hi := by
  cases h with
  | binary hleft hrest =>
    have hmore : Reads (.binaryRest l left (l.node left t right)) mid (t :: us ++ []) hi := .binaryMore hk hr .binaryEnd
    rw [List.append_nil] at hmore
    rw [List.append_assoc]
    exact .binary hleft (hrest.binaryRest_trans rfl hmore)

end Phrase

end ScriptLang
