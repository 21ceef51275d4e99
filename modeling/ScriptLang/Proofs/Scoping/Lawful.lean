import ScriptLang.Operator
import ScriptLang.Proofs.Parsing.Rendering
import ScriptLang.Proofs.Scoping.Parsed

/-!
# Lawful code

* `Stmt.own` — the occurrences that stand in a statement itself, not in the methods of a class inside of it;
* `Stmt.Operates` — the operators in a tree are those that values have;
* `Stmt.Lawful T O place k` — what the grammar and the scope rules promise about code at a `place`: `break`, `continue`
  and `return` stand where they may, names are no keywords, and `this` is `k` scopes away, `super` one more.  `T` says
  which distances are recorded for labels, `O` which occurrences belong to the method around the code;
* `Stmt.lawful_of_resolve` — a tree that was read from tokens and in which the walk finds no fault is lawful.
-/

namespace ScriptLang

/-! ## occurrences outside of methods -/

mutual

/-- The occurrences in a statement, without those in the methods of classes in it. -/
def Stmt.own : Stmt → List Occurrence
  | .expr e => e.occurrences
  | .print _ e => e.occurrences
  | .varDecl _ e => Expr.occurrencesIn e
  | .block b => Stmt.ownAll b
  | .ifThen c t => c.occurrences ++ t.own
  | .ifElse c t e => c.occurrences ++ t.own ++ e.own
  | .loop c b i => c.occurrences ++ b.own ++ Expr.occurrencesIn i
  | .funDecl d => d.own
  | .returnFrom _ e => Expr.occurrencesIn e
  | .classDecl _ s _ => Expr.occurrencesIn s
  | .breakLoop _ => []
  | .continueLoop _ => []

/-- The occurrences in statements, without those in the methods of classes in them. -/
def Stmt.ownAll : List Stmt → List Occurrence
  | [] => []
  | s :: rest => s.own ++ Stmt.ownAll rest

/-- The occurrences for which a function or method is the innermost one that a class around them has, or would be. -/
def FunctionDecl.own : FunctionDecl → List Occurrence
  | .mk _ _ b => Stmt.ownAll b

end

/-! ## operators -/

mutual

/-- The operators in an expression are operators on values. -/
def Expr.Operates : Expr → Prop
  | .literal _ => True
  | .group e => e.Operates
  | .unary op r => sign? op.kind = some () ∧ r.Operates
  | .binary l op r => op.kind.combinesValues = true ∧ l.Operates ∧ r.Operates
  | .logical l _ r => l.Operates ∧ r.Operates
  | .variable _ _ => True
  | .assign _ _ v => v.Operates
  | .call f _ args => f.Operates ∧ Expr.OperatesAll args
  | .get o _ => o.Operates
  | .set o _ v => o.Operates ∧ v.Operates
  | .this _ _ => True
  | .super _ _ _ => True

/-- The operators in expressions are operators on values. -/
def Expr.OperatesAll : List Expr → Prop
  | [] => True
  | e :: es => e.Operates ∧ Expr.OperatesAll es

end

mutual

/-- The operators in a statement are operators on values. -/
def Stmt.Operates : Stmt → Prop
  | .expr e => e.Operates
  | .print _ e => e.Operates
  | .varDecl _ e => ∀ x ∈ e, Expr.Operates x
  | .block b => Stmt.OperatesAll b
  | .ifThen c t => c.Operates ∧ t.Operates
  | .ifElse c t e => c.Operates ∧ t.Operates ∧ e.Operates
  | .loop c b i => c.Operates ∧ b.Operates ∧ ∀ x ∈ i, Expr.Operates x
  | .funDecl d => d.Operates
  | .returnFrom _ e => ∀ x ∈ e, Expr.Operates x
  | .classDecl _ s ms => (∀ x ∈ s, Expr.Operates x) ∧ FunctionDecl.OperatesAll ms
  | .breakLoop _ => True
  | .continueLoop _ => True

/-- The operators in statements are operators on values. -/
def Stmt.OperatesAll : List Stmt → Prop
  | [] => True
  | s :: rest => s.Operates ∧ Stmt.OperatesAll rest

/-- The operators in a function are operators on values. -/
def FunctionDecl.Operates : FunctionDecl → Prop
  | .mk _ _ b => Stmt.OperatesAll b

/-- The operators in functions are operators on values. -/
def FunctionDecl.OperatesAll : List FunctionDecl → Prop
  | [] => True
  | d :: ds => d.Operates ∧ FunctionDecl.OperatesAll ds

end

/-- An operator before a value is one of the two that there are. -/
theorem applyUnary_ne_invalid {k : Kind} (h : sign? k = some ()) (v : Value) :
    applyUnary k v ≠ .error .invalidUnary := by
  unfold sign? at h
  split at h
  · simp [applyUnary]
  · simp only [applyUnary]
    split <;> simp
  · cases h

theorem applyArithmetic_ne_invalid {k : Kind} (h : k.combinesValues = true) (he : k ≠ .mark .equalEqual)
    (hb : k ≠ .mark .bangEqual) (hp : k ≠ .mark .plus) (x y : Float) :
    applyArithmetic k x y ≠ .error .invalidBinary := by
  simp only [Kind.combinesValues, Level.operators, List.cons_append, List.nil_append, List.mem_cons, List.not_mem_nil,
    or_false, decide_eq_true_eq, hb, he, hp, false_or] at h
  rcases h with rfl | rfl | rfl | rfl | rfl | rfl | rfl <;> simp [applyArithmetic]

/-- An operator between two values is one of those that there are. -/
theorem applyBinary_ne_invalid {k : Kind} (h : k.combinesValues = true) (v w : Value) :
    applyBinary k v w ≠ .error .invalidBinary := by
  unfold applyBinary
  split
  · simp
  · simp
  · unfold applyPlus
    split <;> simp
  · next he hb hp =>
    split
    · exact applyArithmetic_ne_invalid h he hb hp _ _
    · simp

/-! ## what is read from tokens operates -/

/-- The operators in the tree of a phrase are operators on values; of the operands and calls behind an expression, if
those before are. -/
def Phrase.Operates : Phrase → Prop
  | .expression x => x.Operates
  | .binary _ x => x.Operates
  | .operand _ x => x.Operates
  | .binaryRest _ left x => left.Operates → x.Operates
  | .unary x => x.Operates
  | .call x => x.Operates
  | .callRest f x => f.Operates → x.Operates
  | .arguments xs => Expr.OperatesAll xs
  | .argumentList _ xs => Expr.OperatesAll xs
  | .primary x => x.Operates
  | .varDeclaration s => s.Operates
  | .expressionStatement s => s.Operates
  | .forInitializer s => ∀ x ∈ s, Stmt.Operates x
  | .forCondition x => x.Operates
  | .forIncrement x => ∀ e ∈ x, Expr.Operates e
  | .statement _ s => s.Operates
  | .declaration s => s.Operates
  | .declarations body => Stmt.OperatesAll body
  | .parameters _ => True
  | .parameterNames _ _ => True
  | .function d => d.Operates
  | .superclass x => ∀ e ∈ x, Expr.Operates e
  | .methods ds => FunctionDecl.OperatesAll ds

section

variable {target v x : Expr} {l l' : Label}

theorem Expr.Operates.assigned (ht : target.Operates) (hv : v.Operates) (h : target.assigned? l v = some (x, l')) :
    x.Operates := by
  unfold Expr.assigned? at h
  split at h <;> cases h
  · exact hv
  · exact ⟨ht, hv⟩

theorem Expr.Operates.updated {op : Mark} {line : Nat} (hop : (Kind.mark op).combinesValues = true) (ht : target.Operates)
    (hv : v.Operates) (h : target.updated? l (Token.ofMark op line) v = some (x, l')) : x.Operates := by
  unfold Expr.updated? at h
  split at h <;> cases h
  · exact ⟨hop, trivial, hv⟩
  · exact ⟨ht, hop, ht, hv⟩

theorem Expr.operates_one : Rule.one.Operates := trivial

theorem combinesValues_of_compound {k : Kind} {op : Mark} (h : compound? k = some op) :
    (Kind.mark op).combinesValues = true := by
  unfold compound? at h
  split at h <;> cases h <;> rfl

theorem combinesValues_of_step {k : Kind} {op : Mark} (h : step? k = some op) :
    (Kind.mark op).combinesValues = true := by
  unfold step? at h
  split at h <;> cases h <;> rfl

theorem Level.operates_node {level : Level} {left right : Expr} {t : Token} (ht : t.kind ∈ level.operators)
    (hl : left.Operates) (hr : right.Operates) : (level.node left t right).Operates := by
  have hmem : ∀ {k : Kind}, k ∈ level.operators → level ≠ .disjunction → level ≠ .conjunction →
      k.combinesValues = true := by
    intro k hk hd hc
    cases level <;> simp_all [Kind.combinesValues]
  cases level with
  | disjunction => exact ⟨hl, hr⟩
  | conjunction => exact ⟨hl, hr⟩
  | equality => exact ⟨hmem ht (by simp) (by simp), hl, hr⟩
  | comparison => exact ⟨hmem ht (by simp) (by simp), hl, hr⟩
  | sum => exact ⟨hmem ht (by simp) (by simp), hl, hr⟩
  | product => exact ⟨hmem ht (by simp) (by simp), hl, hr⟩

theorem Stmt.Operates.forLoop {first : Option Stmt} {c : Expr} {body : Stmt} {i : Option Expr}
    (hf : ∀ s ∈ first, Stmt.Operates s) (hc : c.Operates) (hb : body.Operates) (hi : ∀ x ∈ i, Expr.Operates x) :
    (Stmt.forLoop first c body i).Operates := by
  cases first with
  | none => exact ⟨hc, hb, hi⟩
  | some s => exact ⟨hf s rfl, ⟨hc, hb, hi⟩, trivial⟩

end

/-- The operators in a tree that was read from tokens are operators on values. -/
theorem Phrase.Reads.operates {p : Phrase} {lo hi : Label} {ts : List Token} (h : p.Reads lo ts hi) : p.Operates := by
  induction h with
  | operators _ ih => exact ih
  | assign _ _ _ hx iht ihv => exact iht.assigned ihv hx
  | update _ hop _ hx iht ihv => exact iht.updated (combinesValues_of_compound hop) ihv hx
  | binary _ _ ihl ihr => exact ihr ihl
  | tighter _ _ ih => exact ih
  | tightest _ _ ih => exact ih
  | binaryEnd => exact id
  | binaryMore ht _ _ ihr ih => exact fun hl => ih (Level.operates_node ht hl ihr)
  | sign ht _ ih => exact ⟨ht, ih⟩
  | stepBefore hop _ hx ih => exact ih.updated (combinesValues_of_step hop) Expr.operates_one hx
  | stepBehind _ hop hx ih => exact ih.updated (combinesValues_of_step hop) Expr.operates_one hx
  | noStep _ ih => exact ih
  | call _ _ ihf ihr => exact ihr ihf
  | callEnd => exact id
  | callArguments _ _ _ _ iha ih => exact fun hf => ih ⟨hf, iha⟩
  | callProperty _ _ _ ih => exact ih
  | noArguments => trivial
  | someArguments _ ih => exact ih
  | lastArgument _ _ ih => exact ⟨ih, trivial⟩
  | moreArguments _ _ _ _ ihx ihxs => exact ⟨ihx, ihxs⟩
  | constant _ => trivial
  | identifier _ => trivial
  | this _ => trivial
  | super _ _ _ => trivial
  | group _ _ _ ih => exact ih
  | varPlain _ _ => exact fun x hx => by cases hx
  | varValue _ _ _ _ ih =>
    rintro x ⟨⟩
    exact ih
  | expressionStatement _ _ ih => exact ih
  | noInitializer _ => exact fun x hx => by cases hx
  | varInitializer _ _ ih =>
    rintro x ⟨⟩
    exact ih
  | expressionInitializer _ ih =>
    rintro x ⟨⟩
    exact ih
  | noCondition => trivial
  | someCondition _ ih => exact ih
  | noIncrement => exact fun x hx => by cases hx
  | someIncrement _ ih =>
    rintro x ⟨⟩
    exact ih
  | forLoop _ _ _ _ _ _ _ _ ihf ihc ihi ihb => exact .forLoop ihf ihc ihb ihi
  | ifThen _ _ _ _ _ ihc ihs => exact ⟨ihc, ihs⟩
  | ifElse _ _ _ _ _ _ _ ihc iht ihe => exact ⟨ihc, iht, ihe⟩
  | whileLoop _ _ _ _ _ ihc ihs => exact ⟨ihc, ihs, fun x hx => by cases hx⟩
  | returnNothing _ _ => exact fun x hx => by cases hx
  | returnValue _ _ _ ih =>
    rintro x ⟨⟩
    exact ih
  | breakLoop _ _ => trivial
  | continueLoop _ _ => trivial
  | block _ _ _ ih => exact ih
  | print _ _ _ ih => exact ih
  | expressionOnly _ ih => exact ih
  | classDecl _ _ _ _ _ _ ihs ihm => exact ⟨ihs, ihm⟩
  | funDecl _ _ ih => exact ih
  | varDecl _ _ ih => exact ih
  | noDeclaration _ ih => exact ih
  | declarationsEnd => trivial
  | declarationsMore _ _ ihs ihb => exact ⟨ihs, ihb⟩
  | noParameters => trivial
  | someParameters _ _ => trivial
  | lastParameter _ _ => trivial
  | moreParameters _ _ _ _ _ => trivial
  | function _ _ _ _ _ _ _ _ ihb => exact ihb
  | noSuperclass => exact fun x hx => by cases hx
  | someSuperclass _ _ =>
    rintro x ⟨⟩
    trivial
  | methodsEnd => trivial
  | methodsMore _ _ ihd ihds => exact ⟨ihd, ihds⟩

/-! ## lawful code -/

/-- An occurrence that may stand at a place, `k` scopes away from that of `this`. -/
def Occurrence.Lawful (T : Label → Option Nat → Prop) (O : Occurrence → Prop) (place : Place) (k : Nat)
    (o : Occurrence) : Prop :=
  match o.reference with
  | .variable => True
  | .assign => Ordinary o.name.lexeme
  | .this => place.klass ≠ .none ∧ o.name.lexeme = "this" ∧ O o ∧ T o.label (some k)
  | .super => place.klass = .derived ∧ o.name.lexeme = "super" ∧ O o ∧ T o.label (some (k + 1))

/-- What is promised about an expression. -/
def Expr.Lawful (T : Label → Option Nat → Prop) (O : Occurrence → Prop) (place : Place) (k : Nat) (x : Expr) : Prop :=
  x.Operates ∧ ∀ o ∈ x.occurrences, o.Lawful T O place k

/-- What is promised about an expression that may be absent. -/
def Expr.LawfulIn (T : Label → Option Nat → Prop) (O : Occurrence → Prop) (place : Place) (k : Nat)
    (x : Option Expr) : Prop :=
  ∀ e ∈ x, Expr.Lawful T O place k e

mutual

/-- What is promised about a statement. -/
def Stmt.Lawful (T : Label → Option Nat → Prop) (O : Occurrence → Prop) (place : Place) (k : Nat) : Stmt → Prop
  | .expr e => e.Lawful T O place k
  | .print _ e => e.Lawful T O place k
  | .varDecl name e => Ordinary name.lexeme ∧ Expr.LawfulIn T O place k e
  | .block body => Stmt.LawfulAll T O place (k + 1) body
  | .ifThen c t => c.Lawful T O place k ∧ t.Lawful T O place k
  | .ifElse c t e => c.Lawful T O place k ∧ t.Lawful T O place k ∧ e.Lawful T O place k
  | .loop c b i =>
    c.Lawful T O place k ∧ b.Lawful T O { place with inLoop := true } k ∧ Expr.LawfulIn T O place k i
  | .funDecl d => Ordinary d.name.lexeme ∧ d.Lawful T O ⟨.function, place.klass, false⟩ k
  | .returnFrom _ e =>
    place.function ≠ .none ∧ (place.function = .initializer → e = none) ∧ Expr.LawfulIn T O place k e
  | .classDecl name s ms =>
    Ordinary name.lexeme ∧ Expr.LawfulIn T O place k s ∧ FunctionDecl.LawfulMethods T (.of s) ms
  | .breakLoop _ => place.inLoop = true
  | .continueLoop _ => place.inLoop = true

/-- What is promised about statements. -/
def Stmt.LawfulAll (T : Label → Option Nat → Prop) (O : Occurrence → Prop) (place : Place) (k : Nat) :
    List Stmt → Prop
  | [] => True
  | s :: rest => s.Lawful T O place k ∧ Stmt.LawfulAll T O place k rest

/-- What is promised about a function. -/
def FunctionDecl.Lawful (T : Label → Option Nat → Prop) (O : Occurrence → Prop) (place : Place) (k : Nat) :
    FunctionDecl → Prop
  | .mk _ params body =>
    ((∀ p ∈ params, Ordinary p.lexeme) ∧ (params.map Token.lexeme).Nodup) ∧ Stmt.LawfulAll T O place (k + 1) body

/-- What is promised about methods: the scope around each is that of `this`. -/
def FunctionDecl.LawfulMethods (T : Label → Option Nat → Prop) (klass : ClassPlace) : List FunctionDecl → Prop
  | [] => True
  | d :: ds =>
    d.Lawful T (· ∈ d.own) ⟨.ofMethod d, klass, false⟩ 0 ∧ FunctionDecl.LawfulMethods T klass ds

end

/-! ## parts of lawful code -/

section

variable {T T' : Label → Option Nat → Prop} {O : Occurrence → Prop} {place : Place} {k : Nat}

theorem FunctionDecl.LawfulMethods.lawful {klass : ClassPlace} {ds : List FunctionDecl}
    (h : FunctionDecl.LawfulMethods T klass ds) {d : FunctionDecl} (hd : d ∈ ds) :
    d.Lawful T (· ∈ d.own) ⟨.ofMethod d, klass, false⟩ 0 := by
  induction ds with
  | nil => cases hd
  | cons d' ds ih =>
    rcases List.mem_cons.1 hd with rfl | hd
    · exact h.1
    · exact ih h.2 hd

/-- No two parameters have one name. -/
theorem FunctionDecl.Lawful.nodup {d : FunctionDecl} (h : d.Lawful T O place k) :
    (d.params.map Token.lexeme).Nodup := by
  cases d with
  | mk name params body => exact h.1.2

theorem FunctionDecl.Lawful.body {d : FunctionDecl} (h : d.Lawful T O place k) :
    Stmt.LawfulAll T O place (k + 1) d.body := by
  cases d with
  | mk name params body => exact h.2

theorem Expr.lawfulAll {xs : List Expr} (ho : Expr.OperatesAll xs)
    (h : ∀ o ∈ Expr.occurrencesAll xs, o.Lawful T O place k) : ∀ x ∈ xs, Expr.Lawful T O place k x := by
  induction xs with
  | nil => simp
  | cons x xs ih =>
    obtain ⟨hx, hxs⟩ := List.forall_mem_append.1 h
    exact List.forall_mem_cons.2 ⟨⟨ho.1, hx⟩, ih ho.2 hxs⟩

/-! ## more recorded distances -/

theorem Occurrence.Lawful.mono {o : Occurrence} (h : o.Lawful T O place k) (hT : ∀ l d, T l d → T' l d) :
    o.Lawful T' O place k := by
  unfold Occurrence.Lawful at h ⊢
  split at h
  · trivial
  · exact h
  · exact ⟨h.1, h.2.1, h.2.2.1, hT _ _ h.2.2.2⟩
  · exact ⟨h.1, h.2.1, h.2.2.1, hT _ _ h.2.2.2⟩

theorem Expr.Lawful.mono {x : Expr} (h : x.Lawful T O place k) (hT : ∀ l d, T l d → T' l d) :
    x.Lawful T' O place k :=
  ⟨h.1, fun o ho => (h.2 o ho).mono hT⟩

theorem Expr.LawfulIn.mono {x : Option Expr} (h : Expr.LawfulIn T O place k x) (hT : ∀ l d, T l d → T' l d) :
    Expr.LawfulIn T' O place k x :=
  fun e he => (h e he).mono hT

mutual

theorem Stmt.Lawful.mono {O : Occurrence → Prop} {place : Place} {k : Nat} {s : Stmt} (h : s.Lawful T O place k)
    (hT : ∀ l d, T l d → T' l d) : s.Lawful T' O place k := by
  cases s with
  | expr e => exact Expr.Lawful.mono h hT
  | print keyword e => exact Expr.Lawful.mono h hT
  | varDecl name e => exact ⟨h.1, h.2.mono hT⟩
  | block body => exact Stmt.LawfulAll.mono h hT
  | ifThen c t => exact ⟨h.1.mono hT, Stmt.Lawful.mono h.2 hT⟩
  | ifElse c t e => exact ⟨h.1.mono hT, Stmt.Lawful.mono h.2.1 hT, Stmt.Lawful.mono h.2.2 hT⟩
  | loop c b i => exact ⟨h.1.mono hT, Stmt.Lawful.mono h.2.1 hT, h.2.2.mono hT⟩
  | funDecl d => exact ⟨h.1, FunctionDecl.Lawful.mono h.2 hT⟩
  | returnFrom keyword e => exact ⟨h.1, h.2.1, h.2.2.mono hT⟩
  | classDecl name s ms => exact ⟨h.1, h.2.1.mono hT, FunctionDecl.LawfulMethods.mono h.2.2 hT⟩
  | breakLoop keyword => exact h
  | continueLoop keyword => exact h

theorem Stmt.LawfulAll.mono {O : Occurrence → Prop} {place : Place} {k : Nat} {body : List Stmt}
    (h : Stmt.LawfulAll T O place k body) (hT : ∀ l d, T l d → T' l d) : Stmt.LawfulAll T' O place k body := by
  cases body with
  | nil => trivial
  | cons s rest => exact ⟨Stmt.Lawful.mono h.1 hT, Stmt.LawfulAll.mono h.2 hT⟩

theorem FunctionDecl.Lawful.mono {O : Occurrence → Prop} {place : Place} {k : Nat} {d : FunctionDecl}
    (h : d.Lawful T O place k) (hT : ∀ l d, T l d → T' l d) : d.Lawful T' O place k := by
  cases d with
  | mk name params body => exact ⟨h.1, Stmt.LawfulAll.mono h.2 hT⟩

theorem FunctionDecl.LawfulMethods.mono {klass : ClassPlace} {ds : List FunctionDecl}
    (h : FunctionDecl.LawfulMethods T klass ds) (hT : ∀ l d, T l d → T' l d) :
    FunctionDecl.LawfulMethods T' klass ds := by
  cases ds with
  | nil => trivial
  | cons d ds => exact ⟨FunctionDecl.Lawful.mono h.1 hT, FunctionDecl.LawfulMethods.mono h.2 hT⟩

end

end

/-! ## accepted trees are lawful -/

/-- The scopes around a node have `this` so many scopes away if a class is around it, and `super` next to that if the
class has a superclass. -/
def ClassPlace.Seats (klass : ClassPlace) (scopes : Scopes) (k : Nat) : Prop :=
  (klass ≠ .none → scopes.distance? "this" = some k) ∧ (klass = .derived → scopes.distance? "super" = some (k + 1))

namespace ClassPlace

variable {klass : ClassPlace} {scopes : Scopes} {k : Nat}

theorem Seats.put (h : klass.Seats scopes k) {name : String} (hn : Ordinary name) {ready : Bool} :
    klass.Seats (scopes.put ready name) k := by
  refine ⟨fun hk => ?_, fun hk => ?_⟩
  · rw [Scopes.distance?_put_of_ne hn.1]
    exact h.1 hk
  · rw [Scopes.distance?_put_of_ne hn.2]
    exact h.2 hk

theorem Seats.declareAll (h : klass.Seats scopes k) {names : List Token} (hn : ∀ t ∈ names, Ordinary t.lexeme) :
    klass.Seats (scopes.declareAll names) k := by
  unfold Scopes.declareAll
  induction names generalizing scopes with
  | nil => exact h
  | cons name names ih =>
    rw [List.forall_mem_cons] at hn
    exact ih (h.put hn.1) hn.2

/-- One scope further in. -/
theorem Seats.cons (h : klass.Seats scopes k) : klass.Seats ([] :: scopes) (k + 1) := by
  refine ⟨fun hk => ?_, fun hk => ?_⟩
  · simp [Scopes.distance?, h.1 hk]
  · simp [Scopes.distance?, h.2 hk]

theorem seats_of (s : Option Expr) (scopes : Scopes) : (ClassPlace.of s).Seats (scopes.ofClass s) 0 := by
  cases s with
  | none => exact ⟨fun _ => rfl, fun h => by cases h⟩
  | some x => exact ⟨fun _ => rfl, fun _ => rfl⟩

end ClassPlace

section

open Findings

variable {T : Label → Option Nat → Prop} {O : Occurrence → Prop} {place : Place} {ctx : Context} {k : Nat}

/-- The distance that the walk finds for each of some sites is recorded. -/
def Site.Recorded (T : Label → Option Nat → Prop) (sites : List Site) : Prop := ∀ s ∈ sites, T s.label s.distance?

theorem Site.recorded_append {xs ys : List Site} :
    Site.Recorded T (xs ++ ys) ↔ Site.Recorded T xs ∧ Site.Recorded T ys :=
  List.forall_mem_append

/-- The labels of sites have the distances of the sites. -/
abbrev Site.Known (δ : Label → Option Nat) (sites : List Site) : Prop := Site.Recorded (fun l d => δ l = d) sites

theorem Occurrence.lawful_of_accepted {o : Occurrence} (ha : o.Accepted place.klass ctx.scopes) (hp : o.Proper)
    (hk : place.klass.Seats ctx.scopes k) (hT : T o.label (ctx.scopes.distance? o.name.lexeme)) (hO : O o) :
    o.Lawful T O place k := by
  obtain ⟨reference, label, name⟩ := o
  cases reference with
  | «variable» => trivial
  | assign => exact hp
  | this =>
    have hname : name.lexeme = "this" := hp
    refine ⟨ha, hname, hO, ?_⟩
    rw [← hk.1 ha, ← hname]
    exact hT
  | super =>
    have hname : name.lexeme = "super" := hp
    refine ⟨ha, hname, hO, ?_⟩
    rw [← hk.2 ha, ← hname]
    exact hT

theorem Expr.lawful_of_resolve {e : Expr} {heading : Option String} (hr : e.Regular) (ho : e.Operates)
    (hk : place.klass.Seats ctx.scopes k) (hf : (e.resolve place ctx.scopes).faults = [])
    (hs : Site.Recorded T (e.sites ctx heading)) (hO : ∀ o ∈ e.occurrences, O o) : e.Lawful T O place k := by
  refine ⟨ho, fun o hmem => ?_⟩
  have hT : T o.label (ctx.scopes.distance? o.name.lexeme) := hs _ (List.mem_map_of_mem hmem)
  exact Occurrence.lawful_of_accepted (Expr.accepted_of_resolve e hf o hmem) (hr o hmem) hk hT (hO o hmem)

theorem Expr.lawfulIn_of_resolve {e : Option Expr} {heading : Option String} (hr : ∀ x ∈ e, Expr.Regular x)
    (ho : ∀ x ∈ e, Expr.Operates x) (hk : place.klass.Seats ctx.scopes k)
    (hf : (Expr.resolveIn place ctx.scopes e).faults = []) (hs : Site.Recorded T (Expr.sitesIn ctx heading e))
    (hO : ∀ o ∈ Expr.occurrencesIn e, O o) : Expr.LawfulIn T O place k e := by
  rintro x ⟨⟩
  exact Expr.lawful_of_resolve (hr x rfl) (ho x rfl) hk hf hs hO

/-- A name refers neither to `this` nor to `super`. -/
theorem Expr.lawfulIn_of_isName {s : Option Expr} (h : ∀ x ∈ s, Expr.IsName x) : Expr.LawfulIn T O place k s := by
  intro x hx
  have hname := h x hx
  cases x with
  | «variable» label name => exact ⟨trivial, fun o ho => List.mem_singleton.1 ho ▸ trivial⟩
  | _ => exact hname.elim

/-- Parameters among which the walk finds no fault are new names. -/
theorem nodup_of_resolveParams {scope : Scope} {outer : Scopes} {params : List Token}
    (hf : (resolveParams (scope :: outer) params).faults = []) :
    (params.map Token.lexeme).Nodup ∧ ∀ p ∈ params, Assoc.get? scope p.lexeme = none := by
  induction params generalizing scope with
  | nil => simp
  | cons p ps ih =>
    simp only [resolveParams, redeclared, faults_append, List.append_eq_nil_iff, faults_faultIf, Scopes.declares,
      Option.isSome_eq_false_iff, Option.isNone_iff_eq_none] at hf
    obtain ⟨hnodup, hnew⟩ := ih hf.2
    -- what is new behind the first parameter has another name
    have hne : ∀ q ∈ ps, q.lexeme ≠ p.lexeme := fun q hq he => by
      have hget := hnew q hq
      rw [Assoc.get?_set, if_pos he.symm] at hget
      cases hget
    refine ⟨List.nodup_cons.2 ⟨fun hmem => ?_, hnodup⟩, fun q hq => ?_⟩
    · obtain ⟨q, hq, he⟩ := List.mem_map.1 hmem
      exact hne q hq he
    · rcases List.mem_cons.1 hq with rfl | hq
      · exact hf.1
      · rw [← hnew q hq, Assoc.get?_set, if_neg (hne q hq).symm]

mutual

/-- A regular statement in which the walk finds no fault is lawful. -/
theorem Stmt.lawful_of_resolve {O : Occurrence → Prop} {place : Place} {ctx : Context} {k : Nat} (s : Stmt) (hr : s.Regular)
    (ho : s.Operates) (hk : place.klass.Seats ctx.scopes k) (hf : (s.resolve place ctx.scopes).faults = [])
    (hs : Site.Recorded T (s.sites ctx)) (hO : ∀ o ∈ s.own, O o) : s.Lawful T O place k := by
  cases s with
  | expr e => exact Expr.lawful_of_resolve hr ho hk hf hs hO
  | print keyword e => exact Expr.lawful_of_resolve hr ho hk hf hs hO
  | varDecl name e =>
    simp only [Stmt.resolve, faults_append, List.append_eq_nil_iff, ← Context.scopes_put] at hf
    refine ⟨hr.1, Expr.lawfulIn_of_resolve hr.2 ho ?_ hf.2 hs hO⟩
    rw [Context.scopes_put]
    exact hk.put hr.1
  | block body =>
    simp only [Stmt.resolve, ← Context.scopes_ofBlock ctx body] at hf
    exact Stmt.lawfulAll_of_resolve body hr ho (by exact hk.cons) hf hs hO
  | ifThen c t =>
    simp only [Stmt.resolve, faults_append, List.append_eq_nil_iff] at hf
    simp only [Stmt.sites, Site.recorded_append] at hs
    simp only [Stmt.own, List.forall_mem_append] at hO
    exact ⟨Expr.lawful_of_resolve hr.1 ho.1 hk hf.1 hs.1 hO.1,
      Stmt.lawful_of_resolve t hr.2.2 ho.2 hk hf.2 hs.2 hO.2⟩
  | ifElse c t e =>
    obtain ⟨hrc, ⟨hd, hrt⟩, -, hre⟩ := hr
    simp only [Stmt.resolve, faults_append, List.append_eq_nil_iff, ← Context.scopes_after,
      Context.after_of_declared_eq_nil ctx hd] at hf
    simp only [Stmt.sites, Site.recorded_append, Context.after_of_declared_eq_nil ctx hd] at hs
    simp only [Stmt.own, List.forall_mem_append] at hO
    exact ⟨Expr.lawful_of_resolve hrc ho.1 hk hf.1.1 hs.1.1 hO.1.1,
      Stmt.lawful_of_resolve t hrt ho.2.1 hk hf.1.2 hs.1.2 hO.1.2,
      Stmt.lawful_of_resolve e hre ho.2.2 hk hf.2 hs.2 hO.2⟩
  | loop c b i =>
    obtain ⟨hrc, ⟨hd, hrb⟩, hri⟩ := hr
    simp only [Stmt.resolve, faults_append, List.append_eq_nil_iff, ← Context.scopes_after,
      Context.after_of_declared_eq_nil ctx hd] at hf
    simp only [Stmt.sites, Site.recorded_append, Context.after_of_declared_eq_nil ctx hd] at hs
    simp only [Stmt.own, List.forall_mem_append] at hO
    exact ⟨Expr.lawful_of_resolve hrc ho.1 hk hf.1.1 hs.1.1 hO.1.1,
      Stmt.lawful_of_resolve b hrb ho.2.1 (by exact hk) hf.1.2 hs.1.2 hO.1.2,
      Expr.lawfulIn_of_resolve hri ho.2.2 hk hf.2 hs.2 hO.2⟩
  | funDecl d =>
    simp only [Stmt.resolve, faults_append, List.append_eq_nil_iff, ← Context.scopes_put] at hf
    refine ⟨hr.1, FunctionDecl.lawful_of_resolve d hr.2 ho ?_ hf.2 hs hO⟩
    rw [Context.scopes_put]
    exact hk.put hr.1
  | returnFrom keyword e =>
    simp only [Stmt.resolve, faults_append, List.append_eq_nil_iff, faults_faultIf, Bool.and_eq_false_iff,
      decide_eq_false_iff_not, Option.isSome_eq_false_iff, Option.isNone_iff_eq_none] at hf
    obtain ⟨⟨hplace, hvalue⟩, he⟩ := hf
    exact ⟨hplace, fun hi => hvalue.resolve_right fun hn => hn hi, Expr.lawfulIn_of_resolve hr ho hk he hs hO⟩
  | classDecl name s ms =>
    simp only [Stmt.resolve, faults_append, List.append_eq_nil_iff, ← Context.scopes_put,
      ← Context.scopes_ofClass] at hf
    simp only [Stmt.sites, Site.recorded_append] at hs
    refine ⟨hr.1, Expr.lawfulIn_of_isName hr.2.1, ?_⟩
    refine FunctionDecl.lawfulMethods_of_resolve ms hr.2.2 ho.2 ?_ hf.2 hs.2
    rw [Context.scopes_ofClass]
    exact ClassPlace.seats_of s _
  | breakLoop keyword => simpa [Stmt.resolve, Stmt.Lawful] using hf
  | continueLoop keyword => simpa [Stmt.resolve, Stmt.Lawful] using hf

theorem Stmt.lawfulAll_of_resolve {O : Occurrence → Prop} {place : Place} {ctx : Context} {k : Nat} (body : List Stmt)
    (hr : Stmt.RegularAll body) (ho : Stmt.OperatesAll body) (hk : place.klass.Seats ctx.scopes k)
    (hf : (Stmt.resolveAll place ctx.scopes body).faults = []) (hs : Site.Recorded T (Stmt.sitesAll ctx body))
    (hO : ∀ o ∈ Stmt.ownAll body, O o) : Stmt.LawfulAll T O place k body := by
  cases body with
  | nil => trivial
  | cons s rest =>
    simp only [Stmt.resolveAll, faults_append, List.append_eq_nil_iff, ← Context.scopes_after] at hf
    simp only [Stmt.sitesAll, Site.recorded_append] at hs
    simp only [Stmt.ownAll, List.forall_mem_append] at hO
    refine ⟨Stmt.lawful_of_resolve s hr.1 ho.1 hk hf.1 hs.1 hO.1, ?_⟩
    refine Stmt.lawfulAll_of_resolve rest hr.2 ho.2 ?_ hf.2 hs.2 hO.2
    rw [Context.scopes_after]
    exact hk.declareAll (Stmt.ordinary_of_mem_declared hr.1)

theorem FunctionDecl.lawful_of_resolve {O : Occurrence → Prop} {place : Place} {ctx : Context} {k : Nat} (d : FunctionDecl)
    (hr : d.Regular) (ho : d.Operates) (hk : place.klass.Seats ctx.scopes k)
    (hf : (d.resolve place ctx.scopes).faults = []) (hs : Site.Recorded T (d.sites ctx)) (hO : ∀ o ∈ d.own, O o) :
    d.Lawful T O place k := by
  cases d with
  | mk name params body =>
    simp only [FunctionDecl.resolve, faults_append, List.append_eq_nil_iff,
      ← Context.scopes_ofFunction ctx params body] at hf
    refine ⟨⟨hr.1, (nodup_of_resolveParams hf.1).1⟩, Stmt.lawfulAll_of_resolve body hr.2 ho ?_ hf.2 hs hO⟩
    rw [Context.scopes_ofFunction]
    exact hk.cons.declareAll hr.1

theorem FunctionDecl.lawfulMethods_of_resolve {klass : ClassPlace} {ctx : Context} (ds : List FunctionDecl)
    (hr : FunctionDecl.RegularAll ds) (ho : FunctionDecl.OperatesAll ds) (hk : klass.Seats ctx.scopes 0)
    (hf : (FunctionDecl.resolveMethods klass ctx.scopes ds).faults = [])
    (hs : Site.Recorded T (FunctionDecl.sitesAll ctx ds)) : FunctionDecl.LawfulMethods T klass ds := by
  cases ds with
  | nil => trivial
  | cons d ds =>
    simp only [FunctionDecl.resolveMethods, faults_append, List.append_eq_nil_iff] at hf
    simp only [FunctionDecl.sitesAll, Site.recorded_append] at hs
    exact ⟨FunctionDecl.lawful_of_resolve d hr.1 ho.1 hk hf.1 hs.1 fun _ h => h,
      FunctionDecl.lawfulMethods_of_resolve ds hr.2 ho.2 hk hf.2 hs.2⟩

end

end

end ScriptLang
