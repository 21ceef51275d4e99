import ScriptLang.Proofs.Parsing.Completeness
import ScriptLang.Proofs.Parsing.Rendering
import ScriptLang.Token.Scan

/-!
# The shape of parsed trees

* `Stmt.Conforms names` — what resolving and running take for granted about a tree: operators are operators, lists are
  not too long, branches and loop bodies declare nothing, superclasses are variables, and names satisfy `names`;
* `Phrase.Reads.conforms` — what is read from tokens conforms, and its names are identifiers among the tokens;
* `conforms_of_parse` — so does every program that is parsed.

A production puts conforming parts together, and what is written out for compound assignments and steps is made of
parts that conform already.  Nothing is asked of the tokens, so the tree is right whatever was read before it.
-/

namespace ScriptLang

/-- The operators before one operand: `!` and `-`. -/
def Kind.unaryOperators : List Kind := [.mark .bang, .mark .minus]

/-- The operators between two values: `!=`, `==`, `>`, `>=`, `<`, `<=`, `-`, `+`, `*` and `/`. -/
def Kind.binaryOperators : List Kind :=
  [.mark .bangEqual, .mark .equalEqual, .mark .greater, .mark .greaterEqual, .mark .less, .mark .lessEqual,
    .mark .minus, .mark .plus, .mark .star, .mark .slash]

/-- The operators that may leave out their right operand: `and` and `or`. -/
def Kind.logicalOperators : List Kind := [.keyword .kwAnd, .keyword .kwOr]

/-! ## trees that conform -/

mutual

/-- An expression conforms: each operator is one of its node, no list of arguments has more than 255 entries, and the
names of variables, assignments and properties satisfy `names`. -/
def Expr.Conforms (names : Token → Prop) : Expr → Prop
  | .literal _ => True
  | .group e => e.Conforms names
  | .unary op r => op.kind ∈ Kind.unaryOperators ∧ r.Conforms names
  | .binary l op r => op.kind ∈ Kind.binaryOperators ∧ l.Conforms names ∧ r.Conforms names
  | .logical l op r => op.kind ∈ Kind.logicalOperators ∧ l.Conforms names ∧ r.Conforms names
  | .variable _ name => names name
  | .assign _ name v => names name ∧ v.Conforms names
  | .call f _ args => args.length ≤ 255 ∧ f.Conforms names ∧ Expr.ConformsAll names args
  | .get o name => names name ∧ o.Conforms names
  | .set o name v => names name ∧ o.Conforms names ∧ v.Conforms names
  | .this _ _ => True
  | .super _ _ method => names method

/-- Each expression conforms. -/
def Expr.ConformsAll (names : Token → Prop) : List Expr → Prop
  | [] => True
  | e :: es => e.Conforms names ∧ Expr.ConformsAll names es

end

mutual

/-- A statement conforms: the branches of conditionals and the bodies of loops are no declarations, superclasses are
variables, declared names satisfy `names`, and its parts conform. -/
def Stmt.Conforms (names : Token → Prop) : Stmt → Prop
  | .expr e => e.Conforms names
  | .print _ e => e.Conforms names
  | .varDecl name e => names name ∧ ∀ x ∈ e, Expr.Conforms names x
  | .block b => Stmt.ConformsAll names b
  | .ifThen c t => c.Conforms names ∧ t.isDeclaration = false ∧ t.Conforms names
  | .ifElse c t e =>
    c.Conforms names ∧ (t.isDeclaration = false ∧ t.Conforms names) ∧ e.isDeclaration = false ∧ e.Conforms names
  | .loop c b i => c.Conforms names ∧ (b.isDeclaration = false ∧ b.Conforms names) ∧ ∀ x ∈ i, Expr.Conforms names x
  | .funDecl d => d.Conforms names
  | .returnFrom _ e => ∀ x ∈ e, Expr.Conforms names x
  | .classDecl name s ms =>
    names name ∧ (∀ x ∈ s, ∃ label name, x = .variable label name ∧ names name) ∧ FunctionDecl.ConformsAll names ms
  | .breakLoop _ => True
  | .continueLoop _ => True

/-- Each statement conforms. -/
def Stmt.ConformsAll (names : Token → Prop) : List Stmt → Prop
  | [] => True
  | s :: rest => s.Conforms names ∧ Stmt.ConformsAll names rest

/-- A function or method conforms: its name and its parameters satisfy `names`, there are no more than 255 of them, and
its body conforms. -/
def FunctionDecl.Conforms (names : Token → Prop) : FunctionDecl → Prop
  | .mk name params body =>
    names name ∧ params.length ≤ 255 ∧ (∀ p ∈ params, names p) ∧ Stmt.ConformsAll names body

/-- Each function conforms. -/
def FunctionDecl.ConformsAll (names : Token → Prop) : List FunctionDecl → Prop
  | [] => True
  | d :: ds => d.Conforms names ∧ FunctionDecl.ConformsAll names ds

end

/-- The tree of a phrase conforms; of the operands and calls behind an expression, if those before do.  A list that
`count` entries stand before is short enough together with them. -/
def Phrase.Conforms (names : Token → Prop) : Phrase → Prop
  | .expression x => x.Conforms names
  | .binary _ x => x.Conforms names
  | .operand _ x => x.Conforms names
  | .binaryRest _ left x => left.Conforms names → x.Conforms names
  | .unary x => x.Conforms names
  | .call x => x.Conforms names
  | .callRest f x => f.Conforms names → x.Conforms names
  | .arguments xs => xs.length ≤ 255 ∧ Expr.ConformsAll names xs
  | .argumentList count xs => count + xs.length ≤ 255 ∧ Expr.ConformsAll names xs
  | .primary x => x.Conforms names
  | .varDeclaration s => s.Conforms names
  | .expressionStatement s => s.isDeclaration = false ∧ s.Conforms names
  | .forInitializer s => ∀ x ∈ s, Stmt.Conforms names x
  | .forCondition x => x.Conforms names
  | .forIncrement x => ∀ e ∈ x, Expr.Conforms names e
  | .statement _ s => s.isDeclaration = false ∧ s.Conforms names
  | .declaration s => s.Conforms names
  | .declarations body => Stmt.ConformsAll names body
  | .parameters params => params.length ≤ 255 ∧ ∀ p ∈ params, names p
  | .parameterNames count params => count + params.length ≤ 255 ∧ ∀ p ∈ params, names p
  | .function d => d.Conforms names
  | .superclass x => ∀ e ∈ x, ∃ label name, e = .variable label name ∧ names name
  | .methods ds => FunctionDecl.ConformsAll names ds

/-! ## operators -/

theorem mem_unaryOperators_of_sign {k : Kind} (h : sign? k = some ()) : k ∈ Kind.unaryOperators := by
  unfold sign? at h
  split at h
  · exact .head _
  · exact .tail _ (.head _)
  · cases h

theorem mem_binaryOperators_of_compound {k : Kind} {op : Mark} (h : compound? k = some op) :
    Kind.mark op ∈ Kind.binaryOperators := by
  unfold compound? at h
  split at h <;> cases h <;> decide

theorem mem_binaryOperators_of_step {k : Kind} {op : Mark} (h : step? k = some op) :
    Kind.mark op ∈ Kind.binaryOperators := by
  unfold step? at h
  split at h <;> cases h <;> decide

/-- The operators of the two weakest levels are logical, those of the others stand between values. -/
theorem Level.mem_operators (level : Level) : ∀ k ∈ level.operators,
    if level = .disjunction ∨ level = .conjunction then k ∈ Kind.logicalOperators else k ∈ Kind.binaryOperators := by
  cases level <;> decide

section

variable {names : Token → Prop} {target v x : Expr} {l l' : Label}

theorem Level.conforms_node {level : Level} {left right : Expr} {t : Token} (ht : t.kind ∈ level.operators)
    (hl : left.Conforms names) (hr : right.Conforms names) : (level.node left t right).Conforms names := by
  have hop := level.mem_operators _ ht
  cases level with
  | disjunction => exact ⟨hop, hl, hr⟩
  | conjunction => exact ⟨hop, hl, hr⟩
  | equality => exact ⟨hop, hl, hr⟩
  | comparison => exact ⟨hop, hl, hr⟩
  | sum => exact ⟨hop, hl, hr⟩
  | product => exact ⟨hop, hl, hr⟩

/-! ## what is written out -/

theorem Expr.Conforms.assigned (ht : target.Conforms names) (hv : v.Conforms names)
    (h : target.assigned? l v = some (x, l')) : x.Conforms names := by
  unfold Expr.assigned? at h
  split at h <;> cases h
  · exact ⟨ht, hv⟩
  · exact ⟨ht.1, ht.2, hv⟩

theorem Expr.Conforms.updated {op : Mark} {line : Nat} (hop : Kind.mark op ∈ Kind.binaryOperators)
    (ht : target.Conforms names) (hv : v.Conforms names)
    (h : target.updated? l (Token.ofMark op line) v = some (x, l')) : x.Conforms names := by
  unfold Expr.updated? at h
  split at h <;> cases h
  · exact ⟨ht, hop, ht, hv⟩
  · exact ⟨ht.1, ht.2, hop, ht, hv⟩

theorem Expr.conforms_one : Rule.one.Conforms names := trivial

theorem Stmt.Conforms.forLoop {first : Option Stmt} {c : Expr} {body : Stmt} {i : Option Expr}
    (hf : ∀ s ∈ first, Stmt.Conforms names s) (hc : c.Conforms names)
    (hb : body.isDeclaration = false ∧ body.Conforms names) (hi : ∀ e ∈ i, Expr.Conforms names e) :
    (Stmt.forLoop first c body i).isDeclaration = false ∧ (Stmt.forLoop first c body i).Conforms names := by
  cases first with
  | none => exact ⟨rfl, hc, hb, hi⟩
  | some s => exact ⟨rfl, hf s rfl, ⟨hc, hb, hi⟩, trivial⟩

end

/-! ## what is read from tokens -/

section

open Rule (maxArity)

variable {input : Token → Prop}

/-- A tree that is read from tokens of an input conforms, and its names are identifiers of the input. -/
theorem Phrase.Reads.conforms {p : Phrase} {lo hi : Label} {ts : List Token} (h : p.Reads lo ts hi)
    (hs : ∀ t ∈ ts, input t) : p.Conforms fun t => t.kind = .identifier ∧ input t := by
  induction h with
  | operators _ ih => exact ih hs
  | assign _ _ _ hx iht ihv =>
    simp only [List.forall_mem_append, List.forall_mem_cons] at hs
    exact (iht hs.1).assigned (ihv hs.2.2) hx
  | update _ hop _ hx iht ihv =>
    simp only [List.forall_mem_append, List.forall_mem_cons] at hs
    exact (iht hs.1).updated (mem_binaryOperators_of_compound hop) (ihv hs.2.2) hx
  | binary _ _ ihl ihr =>
    rw [List.forall_mem_append] at hs
    exact ihr hs.2 (ihl hs.1)
  | tighter _ _ ih => exact ih hs
  | tightest _ _ ih => exact ih hs
  | binaryEnd => exact id
  | binaryMore ht _ _ ihr ih =>
    simp only [List.cons_append, List.forall_mem_cons, List.forall_mem_append] at hs
    intro hl
    exact ih hs.2.2 (Level.conforms_node ht hl (ihr hs.2.1))
  | sign ht _ ih => exact ⟨mem_unaryOperators_of_sign ht, ih fun t ht => hs t (List.mem_cons_of_mem _ ht)⟩
  | stepBefore hop _ hx ih =>
    exact (ih fun t ht => hs t (List.mem_cons_of_mem _ ht)).updated (mem_binaryOperators_of_step hop)
      Expr.conforms_one hx
  | stepBehind _ hop hx ih =>
    exact (ih fun t ht => hs t (List.mem_append_left _ ht)).updated (mem_binaryOperators_of_step hop)
      Expr.conforms_one hx
  | noStep _ ih => exact ih hs
  | call _ _ ihf ihr =>
    rw [List.forall_mem_append] at hs
    exact ihr hs.2 (ihf hs.1)
  | callEnd => exact id
  | callArguments _ _ _ _ iha ih =>
    simp only [List.cons_append, List.forall_mem_cons, List.forall_mem_append] at hs
    obtain ⟨hlength, hargs⟩ := iha hs.2.1
    exact fun hf => ih hs.2.2.2 ⟨hlength, hf, hargs⟩
  | callProperty _ hn _ ih =>
    simp only [List.forall_mem_cons] at hs
    exact fun hf => ih hs.2.2 ⟨⟨hn, hs.2.1⟩, hf⟩
  | noArguments => exact ⟨Nat.zero_le _, trivial⟩
  | someArguments _ ih =>
    obtain ⟨hlength, hxs⟩ := ih hs
    exact ⟨by omega, hxs⟩
  | lastArgument hcount _ ih => exact ⟨hcount, ih hs, trivial⟩
  | moreArguments _ _ _ _ ihx ihxs =>
    simp only [List.forall_mem_append, List.forall_mem_cons] at hs
    obtain ⟨hlength, hxs⟩ := ihxs hs.2.2
    exact ⟨by rw [List.length_cons]; omega, ihx hs.1, hxs⟩
  | constant _ => trivial
  | identifier hk => exact ⟨hk, hs _ List.mem_cons_self⟩
  | this _ => trivial
  | super _ _ hn => exact ⟨hn, hs _ (by simp)⟩
  | group _ _ _ ih =>
    simp only [List.cons_append, List.forall_mem_cons, List.forall_mem_append] at hs
    exact ih hs.2.1
  | varPlain hn _ => exact ⟨⟨hn, hs _ List.mem_cons_self⟩, fun x hx => by cases hx⟩
  | varValue hn _ _ _ ih =>
    simp only [List.cons_append, List.forall_mem_cons, List.forall_mem_append] at hs
    refine ⟨⟨hn, hs.1⟩, ?_⟩
    rintro x ⟨⟩
    exact ih hs.2.2.1
  | expressionStatement _ _ ih => exact ⟨rfl, ih fun t ht => hs t (List.mem_append_left _ ht)⟩
  | noInitializer _ => exact fun x hx => by cases hx
  | varInitializer _ _ ih =>
    rintro x ⟨⟩
    exact ih fun t ht => hs t (List.mem_cons_of_mem _ ht)
  | expressionInitializer _ ih =>
    rintro x ⟨⟩
    exact (ih hs).2
  | noCondition => trivial
  | someCondition _ ih => exact ih hs
  | noIncrement => exact fun x hx => by cases hx
  | someIncrement _ ih =>
    rintro x ⟨⟩
    exact ih hs
  | forLoop _ _ _ _ _ _ _ _ ihf ihc ihi ihb =>
    simp only [List.cons_append, List.forall_mem_cons, List.forall_mem_append] at hs
    obtain ⟨-, -, hf, hc, -, hi, -, hb⟩ := hs
    exact Stmt.Conforms.forLoop (ihf hf) (ihc hc) (ihb hb) (ihi hi)
  | ifThen _ _ _ _ _ ihc ihs =>
    simp only [List.cons_append, List.forall_mem_cons, List.forall_mem_append] at hs
    obtain ⟨-, -, hc, -, ht⟩ := hs
    exact ⟨rfl, ihc hc, ihs ht⟩
  | ifElse _ _ _ _ _ _ _ ihc iht ihe =>
    simp only [List.cons_append, List.forall_mem_cons, List.forall_mem_append] at hs
    obtain ⟨-, -, hc, -, ht, -, he⟩ := hs
    exact ⟨rfl, ihc hc, iht ht, ihe he⟩
  | whileLoop _ _ _ _ _ ihc ihs =>
    simp only [List.cons_append, List.forall_mem_cons, List.forall_mem_append] at hs
    obtain ⟨-, -, hc, -, hb⟩ := hs
    exact ⟨rfl, ihc hc, ihs hb, fun x hx => by cases hx⟩
  | returnNothing _ _ => exact ⟨rfl, fun x hx => by cases hx⟩
  | returnValue _ _ _ ih =>
    simp only [List.cons_append, List.forall_mem_cons, List.forall_mem_append] at hs
    refine ⟨rfl, ?_⟩
    rintro x ⟨⟩
    exact ih hs.2.1
  | breakLoop _ _ => exact ⟨rfl, trivial⟩
  | continueLoop _ _ => exact ⟨rfl, trivial⟩
  | block _ _ _ ih =>
    simp only [List.cons_append, List.forall_mem_cons, List.forall_mem_append] at hs
    exact ⟨rfl, ih hs.2.1⟩
  | print _ _ _ ih =>
    simp only [List.cons_append, List.forall_mem_cons, List.forall_mem_append] at hs
    exact ⟨rfl, ih hs.2.1⟩
  | expressionOnly _ ih => exact ih hs
  | classDecl _ hn _ _ _ _ ihs ihm =>
    simp only [List.cons_append, List.forall_mem_cons, List.forall_mem_append] at hs
    obtain ⟨-, hname, hs₁, -, hs₂, -⟩ := hs
    exact ⟨⟨hn, hname⟩, ihs hs₁, ihm hs₂⟩
  | funDecl _ _ ih => exact ih fun t ht => hs t (List.mem_cons_of_mem _ ht)
  | varDecl _ _ ih => exact ih fun t ht => hs t (List.mem_cons_of_mem _ ht)
  | noDeclaration _ ih => exact (ih hs).2
  | declarationsEnd => trivial
  | declarationsMore _ _ ihs ihb =>
    rw [List.forall_mem_append] at hs
    exact ⟨ihs hs.1, ihb hs.2⟩
  | noParameters => exact ⟨Nat.zero_le _, fun p hp => by cases hp⟩
  | someParameters _ ih =>
    obtain ⟨hlength, hnames⟩ := ih hs
    exact ⟨by omega, hnames⟩
  | lastParameter hcount hn => exact ⟨hcount, List.forall_mem_singleton.2 ⟨hn, hs _ List.mem_cons_self⟩⟩
  | moreParameters _ hn _ _ ih =>
    simp only [List.forall_mem_cons] at hs
    obtain ⟨hlength, hnames⟩ := ih hs.2.2
    exact ⟨by rw [List.length_cons]; omega, List.forall_mem_cons.2 ⟨⟨hn, hs.1⟩, hnames⟩⟩
  | function hn _ _ _ _ _ _ ihp ihb =>
    simp only [List.cons_append, List.forall_mem_cons, List.forall_mem_append] at hs
    obtain ⟨hname, -, hp, -, -, hb, -⟩ := hs
    exact ⟨⟨hn, hname⟩, (ihp hp).1, (ihp hp).2, ihb hb⟩
  | noSuperclass => exact fun x hx => by cases hx
  | someSuperclass _ hn =>
    rintro x ⟨⟩
    exact ⟨_, _, rfl, hn, hs _ (by simp)⟩
  | methodsEnd => trivial
  | methodsMore _ _ ihd ihds =>
    rw [List.forall_mem_append] at hs
    exact ⟨ihd hs.1, ihds hs.2⟩

end

/-- A program that was parsed conforms, and its names are identifiers of the input. -/
theorem conforms_of_parse {fresh : Label} {tokens : List Token} {program : List Stmt}
    (h : (parse fresh tokens).result = .ok program) :
    Stmt.ConformsAll (fun t => t.kind = .identifier ∧ t ∈ tokens) program :=
  (reads_of_parse h).conforms fun _ ht => (List.takeWhile_sublist _).subset ht

theorem conforms_of_parse_class :
    let name (text : String) : Token := ⟨.identifier, text, 1⟩
    let x : Token := name "x"
    let sum : Expr := .binary (.get (.variable 1 x) (name "n")) (.ofMark .plus 1)
      (.unary (.ofMark .minus 1) (.variable 2 x))
    let body : Stmt := .loop (.literal (.bool true)) (.expr (.set (.variable 1 x) (name "n") sum)) none
    let program : List Stmt := [.classDecl (name "A") (some (.variable 0 (name "B"))) [.mk (name "f") [x] [body]]]
    let tokens := tokensOf "class A < B \x7b f(x) \x7b for (;;) x.n += -x; \x7d \x7d"
    (parse 0 tokens).result = .ok program ∧
      Stmt.ConformsAll (fun t => t.kind = .identifier ∧ t ∈ tokens) program := by
  intro name x sum body program tokens
  have hp : (parse 0 tokens).result = .ok program := by rfl
  exact ⟨hp, conforms_of_parse hp⟩

end ScriptLang
