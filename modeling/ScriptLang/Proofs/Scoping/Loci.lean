import ScriptLang.Proofs.Parsing.Phrase
import ScriptLang.Proofs.Scoping.Site

/-!
# The places that the scope rules speak about

* `Enclosure` — a construct around a place, with the part of its text that stands before the place;
* `Feature` — what the rules speak about: a declaration, a use of a name, a superclass, a jump;
* `Locus` — a feature with all constructs around it, and `Stmt.loci` — the loci of a statement in the order of the text;
* `Surroundings.scopes` — the scopes around a place, each with the names that are introduced before it;
* `Stmt.Shaped` — superclasses are names, and branches and loop bodies declare nothing.  What is read from tokens is so.

A locus knows its surroundings as they stand in the tree.  Nothing here keeps track of scopes, and nothing says which
rules are broken.
-/

namespace ScriptLang

/-! ## constructs around a place -/

/-- A construct around a place. -/
inductive Enclosure
  /-- A block with its statements up to the place, that with the place in it included. -/
  | block (reached : List Stmt)
  /-- A function or method with its parameters and the statements of its body up to the place. -/
  | function (kind : Body) (name : Token) (params : List Token) (reached : List Stmt)
  /-- A class, around its methods. -/
  | klass (superclass : Option Expr)
  /-- A loop, around its body. -/
  | loop
  /-- The declaration of a variable, around its initializer. -/
  | initializer (name : Token)

/-- The constructs around a place, innermost first. -/
abbrev Surroundings : Type := List Enclosure

/-- The name that a statement introduces where it stands. -/
def Stmt.introduces? : Stmt → Option Token
  | .varDecl name _ => some name
  | .funDecl d => some d.name
  | .classDecl name _ _ => some name
  | _ => none

/-- The names that statements introduce where they stand. -/
def Stmt.introduced (body : List Stmt) : List String := body.filterMap fun s => s.introduces?.map Token.lexeme

namespace Enclosure

/-- A function or method. -/
def isFunction : Enclosure → Bool
  | function _ _ _ _ => true
  | _ => false

/-- A method that constructs instances. -/
def isInitializer : Enclosure → Bool
  | function .method name _ _ => name.lexeme = FunctionDecl.initName
  | _ => false

/-- A loop. -/
def isLoop : Enclosure → Bool
  | loop => true
  | _ => false

/-- A class. -/
def isClass : Enclosure → Bool
  | klass _ => true
  | _ => false

/-- A class with a superclass. -/
def isSubclass : Enclosure → Bool
  | klass superclass => superclass.isSome
  | _ => false

/-- The scopes that a construct opens, innermost first: the names that each has at the place. -/
def scopes : Enclosure → List (List String)
  | block reached => [Stmt.introduced reached]
  | function _ _ params reached => [params.map Token.lexeme ++ Stmt.introduced reached]
  | klass superclass => ["this"] :: if superclass.isSome then [["super"]] else []
  | loop => []
  | initializer _ => []

end Enclosure

namespace Surroundings

/-- The scopes around a place, innermost first; the globals are not among them. -/
def scopes (around : Surroundings) : List (List String) := around.flatMap Enclosure.scopes

/-- The place is in the initializer of a variable with a name, and the variable is not a global. -/
def initializes (around : Surroundings) (name : String) : Bool :=
  match around with
  | .initializer v :: outer => v.lexeme = name && !(scopes outer).isEmpty
  | _ => false

/-- The surroundings inside or behind a statement. -/
def reach (around : Surroundings) (s : Stmt) : Surroundings :=
  match around with
  | .block reached :: outer => .block (reached ++ [s]) :: outer
  | .function kind name params reached :: outer => .function kind name params (reached ++ [s]) :: outer
  | around => around

/-- Declarations may stand here: in a block, in the body of a function or at the top level. -/
def Open : Surroundings → Prop
  | [] => True
  | .block _ :: _ => True
  | .function _ _ _ _ :: _ => True
  | _ => False

end Surroundings

/-! ## loci -/

/-- What the scope rules speak about. -/
inductive Feature
  /-- A variable, parameter, function or class. -/
  | declares (name : Token)
  | refers (occurrence : Occurrence)
  /-- A class and its superclass. -/
  | inherits (name superclass : Token)
  | returns (keyword : Token) (hasValue : Bool)
  | breaks (keyword : Token)
  | continues (keyword : Token)

/-- The token that stands for a feature in diagnostics. -/
def Feature.anchor : Feature → Token
  | declares name => name
  | refers o => o.name
  | inherits _ superclass => superclass
  | returns keyword _ => keyword
  | breaks keyword => keyword
  | continues keyword => keyword

/-- A feature with the constructs around it. -/
structure Locus where
  feature : Feature
  around : Surroundings

mutual

/-- The occurrences in an expression in the order of evaluation: an assignment comes after its value. -/
def Expr.references : Expr → List Occurrence
  | .literal _ => []
  | .group e => e.references
  | .unary _ r => r.references
  | .binary l _ r => l.references ++ r.references
  | .logical l _ r => l.references ++ r.references
  | .variable label name => [⟨.variable, label, name⟩]
  | .assign label name v => v.references ++ [⟨.assign, label, name⟩]
  | .call f _ args => f.references ++ Expr.referencesAll args
  | .get o _ => o.references
  | .set o _ v => o.references ++ v.references
  | .this label keyword => [⟨.this, label, keyword⟩]
  | .super label keyword _ => [⟨.super, label, keyword⟩]

/-- The occurrences in expressions, one expression after the other. -/
def Expr.referencesAll : List Expr → List Occurrence
  | [] => []
  | e :: es => e.references ++ Expr.referencesAll es

end

/-- The loci of an expression. -/
def Expr.loci (around : Surroundings) (e : Expr) : List Locus := e.references.map fun o => ⟨.refers o, around⟩

/-- The loci of an expression that may be absent. -/
def Expr.lociIn (around : Surroundings) (e : Option Expr) : List Locus := e.elim [] (Expr.loci around)

/-- The superclass of a class as a feature of the class. -/
def Feature.inheritance (name : Token) : Option Expr → List Feature
  | some (.variable _ superclass) => [inherits name superclass]
  | _ => []

/-- The parameters of a function, each with those before it in its scope. -/
def parameterLoci (kind : Body) (name : Token) (around : Surroundings) (before : List Token) : List Token → List Locus
  | [] => []
  | p :: ps =>
    ⟨.declares p, .function kind name before [] :: around⟩ :: parameterLoci kind name around (before ++ [p]) ps

mutual

/-- The loci of a statement, in the order of the text; the increment of a loop comes after its body. -/
def Stmt.loci (around : Surroundings) : Stmt → List Locus
  | .expr e => e.loci around
  | .print _ e => e.loci around
  | .varDecl name e =>
    ⟨.declares name, around⟩ :: Expr.lociIn (.initializer name :: around.reach (.varDecl name e)) e
  | .block body => Stmt.lociAll (.block [] :: around) body
  | .ifThen c t => c.loci around ++ t.loci around
  | .ifElse c t e => c.loci around ++ t.loci around ++ e.loci around
  | .loop c b i => c.loci around ++ b.loci (.loop :: around) ++ Expr.lociIn around i
  | .funDecl d => ⟨.declares d.name, around⟩ :: d.loci .function (around.reach (.funDecl d))
  | .returnFrom keyword e => ⟨.returns keyword e.isSome, around⟩ :: Expr.lociIn around e
  | .classDecl name s ms =>
    let inner := around.reach (.classDecl name s ms)
    ⟨.declares name, around⟩ :: ((Feature.inheritance name s).map (⟨·, around⟩) ++ Expr.lociIn inner s ++
      FunctionDecl.lociAll (.klass s :: inner) ms)
  | .breakLoop keyword => [⟨.breaks keyword, around⟩]
  | .continueLoop keyword => [⟨.continues keyword, around⟩]

/-- The loci of statements, each in the surroundings behind those before it. -/
def Stmt.lociAll (around : Surroundings) : List Stmt → List Locus
  | [] => []
  | s :: rest => s.loci around ++ Stmt.lociAll (around.reach s) rest

/-- The loci of a function: its parameters, then its body. -/
def FunctionDecl.loci (kind : Body) (around : Surroundings) : FunctionDecl → List Locus
  | .mk name params body =>
    parameterLoci kind name around [] params ++ Stmt.lociAll (.function kind name params [] :: around) body

/-- The loci of the methods of a class. -/
def FunctionDecl.lociAll (around : Surroundings) : List FunctionDecl → List Locus
  | [] => []
  | d :: ds => d.loci .method around ++ FunctionDecl.lociAll around ds

end

/-- The loci of a program. -/
def Stmt.programLoci (program : List Stmt) : List Locus := Stmt.lociAll [] program

namespace Locus

/-- The scopes around a locus, innermost first. -/
def scopes (p : Locus) : List (List String) := p.around.scopes

/-- The occurrence at a locus, if it is one of a name. -/
def occurrence? (p : Locus) : Option Occurrence :=
  match p.feature with
  | .refers o => some o
  | _ => none

theorem occurrence?_eq_some {p : Locus} {o : Occurrence} : p.occurrence? = some o ↔ p.feature = .refers o := by
  obtain ⟨feature, around⟩ := p
  cases feature <;> simp [occurrence?]

end Locus

/-! ## every occurrence has a locus -/

mutual

/-- The order of evaluation is an order of the occurrences in the tree. -/
theorem Expr.references_perm (e : Expr) : e.references.Perm e.occurrences := by
  cases e with
  | literal v => exact .nil
  | group inner => exact inner.references_perm
  | unary op r => exact r.references_perm
  | binary l op r => exact l.references_perm.append r.references_perm
  | logical l op r => exact l.references_perm.append r.references_perm
  | «variable» label name => exact .refl _
  | assign label name v => exact List.perm_append_comm.trans (v.references_perm.cons _)
  | call f paren args => exact f.references_perm.append (Expr.referencesAll_perm args)
  | get o name => exact o.references_perm
  | set o name v => exact o.references_perm.append v.references_perm
  | this label keyword => exact .refl _
  | super label keyword method => exact .refl _

theorem Expr.referencesAll_perm (es : List Expr) : (Expr.referencesAll es).Perm (Expr.occurrencesAll es) := by
  cases es with
  | nil => exact .nil
  | cons e es => exact e.references_perm.append (Expr.referencesAll_perm es)

end

section

variable {around : Surroundings}

@[simp] theorem Expr.occurrences_loci (e : Expr) : (e.loci around).filterMap Locus.occurrence? = e.references := by
  rw [Expr.loci, List.filterMap_map]
  exact List.filterMap_some

@[simp] theorem parameterLoci_occurrences (kind : Body) (name : Token) (before params : List Token) :
    (parameterLoci kind name around before params).filterMap Locus.occurrence? = [] := by
  induction params generalizing before with
  | nil => rfl
  | cons p ps ih => exact ih _

theorem Expr.lociIn_perm (e : Option Expr) :
    ((Expr.lociIn around e).filterMap Locus.occurrence?).Perm (Expr.occurrencesIn e) := by
  cases e with
  | none => exact .nil
  | some e =>
    show ((e.loci around).filterMap Locus.occurrence?).Perm e.occurrences
    rw [Expr.occurrences_loci]
    exact e.references_perm

theorem Expr.loci_perm (e : Expr) : ((e.loci around).filterMap Locus.occurrence?).Perm e.occurrences :=
  Expr.lociIn_perm (some e)

theorem Feature.inheritance_occurrences (name : Token) (s : Option Expr) :
    ((inheritance name s).map fun f => (⟨f, around⟩ : Locus)).filterMap Locus.occurrence? = [] := by
  unfold inheritance
  split <;> rfl

end

mutual

theorem Stmt.loci_perm {around : Surroundings} (s : Stmt) :
    ((s.loci around).filterMap Locus.occurrence?).Perm s.occurrences := by
  cases s with
  | expr e => exact e.loci_perm
  | print keyword e => exact e.loci_perm
  | varDecl name e => exact Expr.lociIn_perm e
  | block body => exact Stmt.lociAll_perm body
  | ifThen c t =>
    simp only [Stmt.loci, List.filterMap_append]
    exact c.loci_perm.append t.loci_perm
  | ifElse c t e =>
    simp only [Stmt.loci, List.filterMap_append]
    exact (c.loci_perm.append t.loci_perm).append e.loci_perm
  | loop c b i =>
    simp only [Stmt.loci, List.filterMap_append]
    exact (c.loci_perm.append b.loci_perm).append (Expr.lociIn_perm i)
  | funDecl d => exact d.loci_perm
  | returnFrom keyword e => exact Expr.lociIn_perm e
  | classDecl name s ms =>
    have hskip : ∀ (p : Locus) (ps : List Locus), p.occurrence? = none →
        (p :: ps).filterMap Locus.occurrence? = ps.filterMap Locus.occurrence? := by
      intro p ps hp
      rw [List.filterMap_cons, hp]
    simp only [Stmt.loci]
    rw [hskip _ _ rfl, List.filterMap_append, List.filterMap_append, Feature.inheritance_occurrences, List.nil_append]
    exact (Expr.lociIn_perm s).append (FunctionDecl.lociAll_perm ms)
  | breakLoop keyword => exact .nil
  | continueLoop keyword => exact .nil

/-- The loci of statements are at all their occurrences, at each once. -/
theorem Stmt.lociAll_perm {around : Surroundings} (body : List Stmt) :
    ((Stmt.lociAll around body).filterMap Locus.occurrence?).Perm (Stmt.occurrencesAll body) := by
  cases body with
  | nil => exact .nil
  | cons s rest =>
    simp only [Stmt.lociAll, List.filterMap_append]
    exact s.loci_perm.append (Stmt.lociAll_perm rest)

theorem FunctionDecl.loci_perm {kind : Body} {around : Surroundings} (d : FunctionDecl) :
    ((d.loci kind around).filterMap Locus.occurrence?).Perm d.occurrences := by
  cases d with
  | mk name params body =>
    simp only [FunctionDecl.loci, List.filterMap_append, parameterLoci_occurrences, List.nil_append]
    exact Stmt.lociAll_perm body

theorem FunctionDecl.lociAll_perm {around : Surroundings} (ds : List FunctionDecl) :
    ((FunctionDecl.lociAll around ds).filterMap Locus.occurrence?).Perm (FunctionDecl.occurrencesAll ds) := by
  cases ds with
  | nil => exact .nil
  | cons d ds =>
    simp only [FunctionDecl.lociAll, List.filterMap_append]
    exact d.loci_perm.append (FunctionDecl.lociAll_perm ds)

end

/-! ## the shape of trees that were read from tokens -/

/-- The expression is a name. -/
def Expr.IsVariable (e : Expr) : Prop := ∃ label name, e = .variable label name

mutual

/-- Superclasses are names, and branches and loop bodies declare nothing. -/
def Stmt.Shaped : Stmt → Prop
  | .block body => Stmt.ShapedAll body
  | .ifThen _ t => t.introduces? = none ∧ t.Shaped
  | .ifElse _ t e => (t.introduces? = none ∧ t.Shaped) ∧ e.introduces? = none ∧ e.Shaped
  | .loop _ b _ => b.introduces? = none ∧ b.Shaped
  | .funDecl d => d.Shaped
  | .classDecl _ s ms => (∀ x ∈ s, Expr.IsVariable x) ∧ FunctionDecl.ShapedAll ms
  | _ => True

/-- Each statement is shaped. -/
def Stmt.ShapedAll : List Stmt → Prop
  | [] => True
  | s :: rest => s.Shaped ∧ Stmt.ShapedAll rest

/-- The statements of a body are shaped. -/
def FunctionDecl.Shaped : FunctionDecl → Prop
  | .mk _ _ body => Stmt.ShapedAll body

/-- Each function is shaped. -/
def FunctionDecl.ShapedAll : List FunctionDecl → Prop
  | [] => True
  | d :: ds => d.Shaped ∧ FunctionDecl.ShapedAll ds

end

/-- A shaped statement declares what it introduces itself and nothing else. -/
theorem Stmt.declared_of_shaped (s : Stmt) (h : s.Shaped) : s.declared = s.introduces?.toList := by
  cases s with
  | ifThen c t =>
    simp only [Stmt.declared, Stmt.declared_of_shaped t h.2, h.1]
    rfl
  | ifElse c t e =>
    obtain ⟨⟨hit, ht⟩, hie, he⟩ := h
    simp only [Stmt.declared, Stmt.declared_of_shaped t ht, Stmt.declared_of_shaped e he, hit, hie]
    rfl
  | loop c b i =>
    simp only [Stmt.declared, Stmt.declared_of_shaped b h.2, h.1]
    rfl
  | _ => rfl

/-- The tree of a phrase is shaped; expressions have no shape to keep to. -/
def Phrase.Shaped : Phrase → Prop
  | .varDeclaration s => s.Shaped
  | .expressionStatement s => s.introduces? = none ∧ s.Shaped
  | .forInitializer s => ∀ x ∈ s, Stmt.Shaped x
  | .statement _ s => s.introduces? = none ∧ s.Shaped
  | .declaration s => s.Shaped
  | .declarations body => Stmt.ShapedAll body
  | .function d => d.Shaped
  | .superclass x => ∀ e ∈ x, Expr.IsVariable e
  | .methods ds => FunctionDecl.ShapedAll ds
  | _ => True

theorem Stmt.shaped_forLoop {first : Option Stmt} {c : Expr} {body : Stmt} {i : Option Expr}
    (hf : ∀ s ∈ first, Stmt.Shaped s) (hb : body.introduces? = none ∧ body.Shaped) :
    (Stmt.forLoop first c body i).introduces? = none ∧ (Stmt.forLoop first c body i).Shaped := by
  cases first with
  | none => exact ⟨rfl, hb⟩
  | some s => exact ⟨rfl, hf s rfl, hb, trivial⟩

/-- What is read from tokens is shaped, whatever the tokens are. -/
theorem Phrase.Reads.shaped {p : Phrase} {lo hi : Label} {ts : List Token} (h : p.Reads lo ts hi) : p.Shaped := by
  induction h with
  | expressionStatement _ _ _ => exact ⟨rfl, trivial⟩
  | noInitializer _ => exact fun s hs => by cases hs
  | varInitializer _ _ ih =>
    rintro s ⟨⟩
    exact ih
  | expressionInitializer _ ih =>
    rintro s ⟨⟩
    exact ih.2
  | forLoop _ _ _ _ _ _ _ _ ihf _ _ ihb => exact Stmt.shaped_forLoop ihf ihb
  | ifThen _ _ _ _ _ _ ih => exact ⟨rfl, ih⟩
  | ifElse _ _ _ _ _ _ _ _ iht ihe => exact ⟨rfl, iht, ihe⟩
  | whileLoop _ _ _ _ _ _ ih => exact ⟨rfl, ih⟩
  | returnNothing _ _ => exact ⟨rfl, trivial⟩
  | returnValue _ _ _ _ => exact ⟨rfl, trivial⟩
  | breakLoop _ _ => exact ⟨rfl, trivial⟩
  | continueLoop _ _ => exact ⟨rfl, trivial⟩
  | block _ _ _ ih => exact ⟨rfl, ih⟩
  | print _ _ _ _ => exact ⟨rfl, trivial⟩
  | expressionOnly _ ih => exact ih
  | classDecl _ _ _ _ _ _ ihs ihm => exact ⟨ihs, ihm⟩
  | funDecl _ _ ih => exact ih
  | varDecl _ _ ih => exact ih
  | noDeclaration _ ih => exact ih.2
  | declarationsMore _ _ ihs ihb => exact ⟨ihs, ihb⟩
  | function _ _ _ _ _ _ _ _ ihb => exact ihb
  | noSuperclass => exact fun x hx => by cases hx
  | someSuperclass _ _ =>
    rintro x ⟨⟩
    exact ⟨_, _, rfl⟩
  | methodsMore _ _ ihd ihds => exact ⟨ihd, ihds⟩
  | _ => trivial

end ScriptLang
