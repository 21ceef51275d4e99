import ScriptLang.Proofs.Scoping.Copies
import ScriptLang.Proofs.Scoping.Moved

/-!
# The walk with a state

* `Walk` — the scopes, the place and the findings as one state, which a walk changes and restores by hand;
* `Stmt.walk` — the walk over a statement: scopes are opened and closed, the innermost function, the innermost class and
  the depth of loops are saved, set and put back;
* `Stmt.walk_eq` — behind a statement the state is as before, with what the statement declares in the innermost scope
  and with the findings of `Stmt.resolve`;
* `walk_restores` — so the walk restores its context, and statements at the top level are checked independently.

One lemma per syntactic category says what its walk does to a state, whatever it reports.  A part of a statement is
walked in the state that its neighbours left, so the lemma about the part applies there as it stands.
-/

namespace ScriptLang

@[simp] theorem Scopes.put_put (r r' : Bool) (name : String) (scopes : Scopes) :
    (scopes.put r name).put r' name = scopes.put r' name := by
  cases scopes with
  | nil => rfl
  | cons scope outer => simp [put]

/-! ## the state -/

/-- What a walk carries along. -/
structure Walk where
  /-- The scopes around the node, innermost first. -/
  scopes : Scopes
  function : FunctionPlace
  klass : ClassPlace
  /-- The number of loops between the node and the innermost function. -/
  loops : Nat
  faults : List (Report ScopeFault)
  table : Distances

namespace Walk

/-- Before a program. -/
def start : Walk := ⟨[], .none, .none, 0, [], []⟩

/-- Records a violation at a token. -/
def error (anchor : Token) (cause : ScopeFault) (w : Walk) : Walk := { w with faults := w.faults ++ [⟨anchor, cause⟩] }

/-- Makes a kind of function the innermost one. -/
def setFunction (kind : FunctionPlace) (w : Walk) : Walk := { w with function := kind }

/-- Makes a kind of class the innermost one. -/
def setClass (kind : ClassPlace) (w : Walk) : Walk := { w with klass := kind }

/-- Sets the number of loops. -/
def setLoops (loops : Nat) (w : Walk) : Walk := { w with loops }

/-- Opens a scope. -/
def beginScope (w : Walk) : Walk := { w with scopes := [] :: w.scopes }

/-- Closes the innermost scope. -/
def endScope (w : Walk) : Walk := { w with scopes := w.scopes.tail }

/-- Adds a name that is not ready to the innermost scope, and reports it if the scope had it. -/
def declare (name : Token) (w : Walk) : Walk :=
  let w' := { w with scopes := w.scopes.put false name.lexeme }
  if w.scopes.declares name.lexeme then w'.error name .redeclaration else w'

/-- Adds a name that is ready to the innermost scope, or makes it ready. -/
def define (name : String) (w : Walk) : Walk := { w with scopes := w.scopes.put true name }

/-- Records the distance of an occurrence, if a scope has its name. -/
def record (label : Label) (name : Token) (w : Walk) : Walk :=
  match w.scopes.distance? name.lexeme with
  | some d => { w with table := Assoc.set w.table label d }
  | none => w

/-- The table of a walk that is over, or the violations it recorded. -/
def outcome (w : Walk) : Except (List (Report ScopeFault)) Distances :=
  if w.faults.isEmpty then .ok w.table else .error w.faults

end Walk

/-! ## the walk over a tree -/

open Walk

mutual

/-- The walk over an expression. -/
def Expr.walk : Expr → Walk → Walk
  | .literal _, w => w
  | .group e, w => e.walk w
  | .unary _ r, w => r.walk w
  | .binary l _ r, w => r.walk (l.walk w)
  | .logical l _ r, w => r.walk (l.walk w)
  | .variable label name, w =>
    let w := if w.scopes.isPending name.lexeme then w.error name .ownInitializer else w
    w.record label name
  | .assign label name v, w => (v.walk w).record label name
  | .call f _ args, w => Expr.walkAll args (f.walk w)
  | .get o _, w => o.walk w
  | .set o _ v, w => v.walk (o.walk w)
  | .this label keyword, w =>
    match w.klass with
    | .none => w.error keyword .thisOutsideClass
    | _ => w.record label keyword
  | .super label keyword _, w =>
    match w.klass with
    | .none => w.error keyword .superOutsideClass
    | .plain => w.error keyword .superWithoutSuperclass
    | .derived => w.record label keyword

/-- The walk over expressions, in order. -/
def Expr.walkAll : List Expr → Walk → Walk
  | [], w => w
  | e :: es, w => Expr.walkAll es (e.walk w)

end

/-- The walk over an expression that may be absent. -/
def Expr.walkIn : Option Expr → Walk → Walk
  | none, w => w
  | some e, w => e.walk w

/-- Parameters are declared and ready at once. -/
def walkParams : List Token → Walk → Walk
  | [], w => w
  | p :: ps, w => walkParams ps ((w.declare p).define p.lexeme)

/-- A superclass is walked as an expression in a derived class; behind it stands the scope of `super`. -/
def walkSuperclass (name : Token) : Option Expr → Walk → Walk
  | none, w => w
  | some e, w =>
    let w := match e with
      | .variable _ other => if other.lexeme = name.lexeme then w.error other .selfInheritance else w
      | _ => w
    ((e.walk (w.setClass .derived)).beginScope).define "super"

mutual

/-- The walk over a statement. -/
def Stmt.walk : Stmt → Walk → Walk
  | .expr e, w => e.walk w
  | .print _ e, w => e.walk w
  | .varDecl name e, w => (Expr.walkIn e (w.declare name)).define name.lexeme
  | .block body, w => (Stmt.walkAll body w.beginScope).endScope
  | .ifThen c t, w => t.walk (c.walk w)
  | .ifElse c t e, w => e.walk (t.walk (c.walk w))
  | .loop c b i, w =>
    let w := c.walk w
    let w := b.walk (w.setLoops (w.loops + 1))
    Expr.walkIn i (w.setLoops (w.loops - 1))
  | .funDecl d, w => d.walk .function ((w.declare d.name).define d.name.lexeme)
  | .returnFrom keyword e, w =>
    let w := if w.function = .none then w.error keyword .returnAtTopLevel else w
    let w := if e.isSome && w.function = .initializer then w.error keyword .valueFromInitializer else w
    Expr.walkIn e w
  | .classDecl name s ms, w =>
    let enclosing := w.klass
    let w := ((w.setClass .plain).declare name).define name.lexeme
    let w := ((walkSuperclass name s w).beginScope).define "this"
    let w := (FunctionDecl.walkMethods ms w).endScope
    let w := if s.isSome then w.endScope else w
    w.setClass enclosing
  | .breakLoop keyword, w => if w.loops = 0 then w.error keyword .breakOutsideLoop else w
  | .continueLoop keyword, w => if w.loops = 0 then w.error keyword .continueOutsideLoop else w

/-- The walk over statements, in order. -/
def Stmt.walkAll : List Stmt → Walk → Walk
  | [], w => w
  | s :: rest, w => Stmt.walkAll rest (s.walk w)

/-- The walk over a function: its parameters and its body share one scope, outside of all loops. -/
def FunctionDecl.walk (kind : FunctionPlace) : FunctionDecl → Walk → Walk
  | .mk _ params body, w =>
    let enclosing := w.function
    let loops := w.loops
    let w := ((w.setFunction kind).setLoops 0).beginScope
    let w := (Stmt.walkAll body (walkParams params w)).endScope
    (w.setFunction enclosing).setLoops loops

/-- The walk over the methods of a class, in order. -/
def FunctionDecl.walkMethods : List FunctionDecl → Walk → Walk
  | [], w => w
  | d :: ds, w => FunctionDecl.walkMethods ds (d.walk (FunctionPlace.ofMethod d) w)

end

/-! ## what a walk does to its state -/

namespace Walk

/-- The place of a node that is walked in a state. -/
def place (w : Walk) : Place := ⟨w.function, w.klass, 0 < w.loops⟩

/-- The state with more findings. -/
def found (w : Walk) (f : Findings) : Walk :=
  { w with faults := w.faults ++ f.faults, table := Assoc.setAll w.table f.distances }

/-- The state with other scopes. -/
def within (w : Walk) (scopes : Scopes) : Walk := { w with scopes }

variable (w : Walk) (f g : Findings) (scopes : Scopes)

theorem inLoop_place : (!w.place.inLoop) = decide (w.loops = 0) := by
  by_cases h : w.loops = 0 <;> simp [place, h, Nat.pos_iff_ne_zero]

@[simp] theorem scopes_found : (w.found f).scopes = w.scopes := rfl

@[simp] theorem function_found : (w.found f).function = w.function := rfl

@[simp] theorem place_found : (w.found f).place = w.place := rfl

@[simp] theorem scopes_within : (w.within scopes).scopes = scopes := rfl

@[simp] theorem place_within : (w.within scopes).place = w.place := rfl

@[simp] theorem within_scopes : w.within w.scopes = w := rfl

@[simp] theorem within_within (scopes' : Scopes) : (w.within scopes).within scopes' = w.within scopes' := rfl

@[simp] theorem within_found : (w.found f).within scopes = (w.within scopes).found f := rfl

@[simp] theorem found_nothing : w.found .nothing = w := by simp [found, Findings.nothing]

@[simp] theorem found_found : (w.found f).found g = w.found (f ++ g) := by
  simp [found, Assoc.setAll_append]

theorem error_eq (anchor : Token) (cause : ScopeFault) : w.error anchor cause = w.found (.fault anchor cause) := rfl

theorem errorIf_eq (test : Prop) [Decidable test] (anchor : Token) (cause : ScopeFault) :
    (if test then w.error anchor cause else w) = w.found (.faultIf test anchor cause) := by
  by_cases h : test
  · simp [Findings.faultIf, h, error_eq]
  · simp [Findings.faultIf, h]

theorem beginScope_eq : w.beginScope = w.within ([] :: w.scopes) := rfl

theorem endScope_eq : w.endScope = w.within w.scopes.tail := rfl

theorem declare_eq (name : Token) :
    w.declare name = (w.within (w.scopes.put false name.lexeme)).found (redeclared w.scopes name) := by
  have hif := (w.within (w.scopes.put false name.lexeme)).errorIf_eq (w.scopes.declares name.lexeme) name .redeclaration
  rwa [Bool.decide_eq_true] at hif

theorem define_eq (name : String) : w.define name = w.within (w.scopes.put true name) := rfl

theorem record_eq (label : Label) (name : Token) :
    w.record label name = w.found (.occurrence w.scopes label name) := by
  unfold record Findings.occurrence
  cases w.scopes.distance? name.lexeme with
  | none => exact (found_nothing w).symm
  | some d => simp [found, Assoc.setAll_cons]

end Walk

mutual

/-- The walk over an expression finds what there is to find and changes nothing else. -/
theorem Expr.walk_eq (e : Expr) (w : Walk) : e.walk w = w.found (e.resolve w.place w.scopes) := by
  cases e with
  | literal v => simp [Expr.walk, Expr.resolve]
  | group x => exact Expr.walk_eq x w
  | unary op x => exact Expr.walk_eq x w
  | binary x op y => simp [Expr.walk, Expr.resolve, Expr.walk_eq x, Expr.walk_eq y]
  | logical x op y => simp [Expr.walk, Expr.resolve, Expr.walk_eq x, Expr.walk_eq y]
  | «variable» label name => simp [Expr.walk, Expr.resolve, errorIf_eq, record_eq]
  | assign label name v => simp [Expr.walk, Expr.resolve, Expr.walk_eq v, record_eq]
  | call f paren args => simp [Expr.walk, Expr.resolve, Expr.walk_eq f, Expr.walkAll_eq args]
  | get x name => exact Expr.walk_eq x w
  | set x name v => simp [Expr.walk, Expr.resolve, Expr.walk_eq x, Expr.walk_eq v]
  | this label keyword =>
    simp only [Expr.walk, Expr.resolve, place]
    split <;> simp [error_eq, record_eq, *]
  | super label keyword method =>
    simp only [Expr.walk, Expr.resolve, place]
    split <;> simp [error_eq, record_eq, *]

theorem Expr.walkAll_eq (es : List Expr) (w : Walk) : Expr.walkAll es w = w.found (Expr.resolveAll w.place w.scopes es) := by
  cases es with
  | nil => simp [Expr.walkAll, Expr.resolveAll]
  | cons e es => simp [Expr.walkAll, Expr.resolveAll, Expr.walk_eq e, Expr.walkAll_eq es]

end

theorem Expr.walkIn_eq (e : Option Expr) (w : Walk) : Expr.walkIn e w = w.found (Expr.resolveIn w.place w.scopes e) := by
  cases e with
  | none => simp [Expr.walkIn, Expr.resolveIn]
  | some e => exact Expr.walk_eq e w

theorem walkParams_eq (params : List Token) (w : Walk) :
    walkParams params w = (w.within (w.scopes.declareAll params)).found (resolveParams w.scopes params) := by
  induction params generalizing w with
  | nil => simp [walkParams, resolveParams, Scopes.declareAll]
  | cons p ps ih => simp [walkParams, resolveParams, Scopes.declareAll, declare_eq, define_eq, ih]

theorem walkSuperclass_eq (name : Token) (e : Expr) (w : Walk) :
    walkSuperclass name (some e) w = ((w.setClass .derived).within (Scope.only "super" :: w.scopes)).found
      (selfInheritance name (some e) ++ e.resolve { w.place with klass := .derived } w.scopes) := by
  have hself : (match e with
      | .variable _ other => if other.lexeme = name.lexeme then w.error other .selfInheritance else w
      | _ => w) = w.found (selfInheritance name (some e)) := by
    cases e <;> simp [selfInheritance, errorIf_eq]
  simp only [walkSuperclass, hself, Expr.walk_eq]
  simp [setClass, found, within, place, beginScope, define, Scopes.put, Scope.only, Assoc.set]

namespace Scopes

/-- Statements declare their names in the innermost scope only. -/
theorem tail_foldl_after (body : List Stmt) (scopes : Scopes) : (body.foldl after scopes).tail = scopes.tail := by
  induction body generalizing scopes with
  | nil => rfl
  | cons s rest ih => rw [List.foldl_cons, ih, after, tail_declareAll]

theorem declareAll_append (scopes : Scopes) (names names' : List Token) :
    scopes.declareAll (names ++ names') = (scopes.declareAll names).declareAll names' := List.foldl_append

end Scopes

mutual

/-- Behind a statement the state is as before, but for the names it declares and for the findings. -/
theorem Stmt.walk_eq (s : Stmt) (w : Walk) :
    s.walk w = (w.within (w.scopes.after s)).found (s.resolve w.place w.scopes) := by
  cases s with
  | expr e => exact Expr.walk_eq e w
  | print keyword e => exact Expr.walk_eq e w
  | varDecl name e =>
    simp [Stmt.walk, Stmt.resolve, Expr.walkIn_eq, declare_eq, define_eq, Scopes.after, Stmt.declared,
      Scopes.declareAll]
  | block body =>
    simp only [Stmt.walk, beginScope_eq, Stmt.walkAll_eq body, endScope_eq]
    simp [Stmt.resolve, Scopes.tail_foldl_after, Scopes.after, Stmt.declared, Scopes.declareAll]
  | ifThen c t => simp [Stmt.walk, Stmt.resolve, Expr.walk_eq, Stmt.walk_eq t, Scopes.after, Stmt.declared]
  | ifElse c t e =>
    simp [Stmt.walk, Stmt.resolve, Expr.walk_eq, Stmt.walk_eq t, Stmt.walk_eq e, Scopes.after, Stmt.declared,
      Scopes.declareAll_append]
  | loop c b i =>
    have hloops : 0 < w.loops + 1 := Nat.succ_pos _
    simp only [Stmt.walk, Expr.walk_eq, Expr.walkIn_eq, Stmt.walk_eq b]
    simp [setLoops, found, within, place, Stmt.resolve, Scopes.after, Stmt.declared, Assoc.setAll_append]
  | funDecl d =>
    simp [Stmt.walk, Stmt.resolve, FunctionDecl.walk_eq .function d, declare_eq, define_eq, Scopes.after, Stmt.declared,
      Scopes.declareAll]
    simp [found, within, place]
  | returnFrom keyword e =>
    simp only [Stmt.walk, errorIf_eq, function_found, Expr.walkIn_eq, found_found, Bool.decide_eq_true]
    simp only [Stmt.resolve, Findings.append_assoc]
    rfl
  | classDecl name s ms =>
    cases s with
    | none =>
      simp only [Stmt.walk, walkSuperclass, declare_eq, define_eq, beginScope_eq, endScope_eq,
        FunctionDecl.walkMethods_eq ms]
      simp [Stmt.resolve, selfInheritance, Expr.resolveIn]
      rfl
    | some e =>
      simp only [Stmt.walk, walkSuperclass_eq, declare_eq, define_eq, beginScope_eq, endScope_eq,
        FunctionDecl.walkMethods_eq ms]
      simp [Stmt.resolve, Expr.resolveIn]
      simp [setClass, found, within, place, Scopes.after, Stmt.declared, Scopes.declareAll]
      exact ⟨rfl, rfl⟩
  | breakLoop keyword =>
    simp [Stmt.walk, Stmt.resolve, errorIf_eq, inLoop_place, Scopes.after, Stmt.declared, Scopes.declareAll]
  | continueLoop keyword =>
    simp [Stmt.walk, Stmt.resolve, errorIf_eq, inLoop_place, Scopes.after, Stmt.declared, Scopes.declareAll]

theorem Stmt.walkAll_eq (body : List Stmt) (w : Walk) :
    Stmt.walkAll body w = (w.within (body.foldl Scopes.after w.scopes)).found (Stmt.resolveAll w.place w.scopes body) := by
  cases body with
  | nil => simp [Stmt.walkAll, Stmt.resolveAll]
  | cons s rest => simp [Stmt.walkAll, Stmt.resolveAll, Stmt.walk_eq s, Stmt.walkAll_eq rest]

/-- Behind a function the state is as before, but for the findings. -/
theorem FunctionDecl.walk_eq (kind : FunctionPlace) (d : FunctionDecl) (w : Walk) :
    d.walk kind w = w.found (d.resolve ⟨kind, w.klass, false⟩ w.scopes) := by
  cases d with
  | mk name params body =>
    simp only [FunctionDecl.walk, beginScope_eq, walkParams_eq, Stmt.walkAll_eq body, endScope_eq]
    simp [setFunction, setLoops, found, within, place, FunctionDecl.resolve, Scopes.tail_foldl_after]

theorem FunctionDecl.walkMethods_eq (ds : List FunctionDecl) (w : Walk) :
    FunctionDecl.walkMethods ds w = w.found (FunctionDecl.resolveMethods w.klass w.scopes ds) := by
  cases ds with
  | nil => simp [FunctionDecl.walkMethods, FunctionDecl.resolveMethods]
  | cons d ds =>
    simp [FunctionDecl.walkMethods, FunctionDecl.resolveMethods, FunctionDecl.walk_eq _ d,
      FunctionDecl.walkMethods_eq ds]
    simp [found]

end

/-- The walk over a program ends with what the program resolves to. -/
theorem resolveProgram_eq_outcome (program : List Stmt) :
    resolveProgram program = (Stmt.walkAll program .start).outcome := by
  rw [Stmt.walkAll_eq]
  rfl

/-! ## what is restored -/

theorem Scopes.exists_declareAll_cons (names : List Token) (scope : Scope) (outer : Scopes) :
    ∃ scope', Scopes.declareAll (scope :: outer) names = scope' :: outer ∧
      ∀ x, Assoc.get? scope' x = if x ∈ names.map Token.lexeme then some true else Assoc.get? scope x := by
  induction names generalizing scope with
  | nil => exact ⟨scope, rfl, fun x => by simp⟩
  | cons name names ih =>
    obtain ⟨scope', hscopes, hget⟩ := ih (Assoc.set scope name.lexeme true)
    refine ⟨scope', hscopes, fun x => ?_⟩
    rw [hget, Assoc.get?_set]
    grind

/-- Behind a node that declares `names`, a walk has the context it had before: the same number of scopes, the same
scopes around the innermost one, the same function, class and depth of loops.  The innermost scope has those names
besides, and reports are only added. -/
structure Walk.Restored (names : List Token) (w w' : Walk) : Prop where
  count : w'.scopes.length = w.scopes.length
  outer : w'.scopes.tail = w.scopes.tail
  inner : ∀ scope ∈ w.scopes.head?, ∀ scope' ∈ w'.scopes.head?, ∀ x,
    Assoc.get? scope' x = if x ∈ names.map Token.lexeme then some true else Assoc.get? scope x
  function : w'.function = w.function
  klass : w'.klass = w.klass
  loops : w'.loops = w.loops
  faults : w.faults <+: w'.faults

/-- The walk over a statement restores its context. -/
theorem Stmt.restored_walk (s : Stmt) (w : Walk) : w.Restored s.declared (s.walk w) := by
  rw [s.walk_eq w]
  refine ⟨Scopes.length_declareAll .., Scopes.tail_declareAll .., ?_, rfl, rfl, rfl, List.prefix_append ..⟩
  intro scope hscope scope' hscope' x
  obtain ⟨outer, hscopes⟩ := List.head?_eq_some_iff.1 hscope
  obtain ⟨last, hlast, hget⟩ := Scopes.exists_declareAll_cons s.declared scope outer
  have hhead : (w.scopes.declareAll s.declared).head? = some scope' := hscope'
  rw [hscopes, hlast, List.head?_cons] at hhead
  rw [← Option.some.inj hhead, hget]

/-! ## programs one after the other -/

/-- The violations for which a program is refused. -/
def scopeFaults (program : List Stmt) : List (Report ScopeFault) :=
  match resolveProgram program with
  | .ok _ => []
  | .error faults => faults

theorem scopeFaults_eq (program : List Stmt) : scopeFaults program = (Stmt.resolveAll .top [] program).faults := by
  unfold scopeFaults resolveProgram
  by_cases h : (Stmt.resolveAll .top [] program).faults = [] <;> simp [h]

theorem resolveProgram_of_scopeFaults {program : List Stmt} (h : scopeFaults program = []) :
    resolveProgram program = .ok (Assoc.setAll [] (Stmt.resolveAll .top [] program).distances) := by
  rw [scopeFaults_eq] at h
  simp [resolveProgram, h]

/-- No node of one program has the label of a node of the other. -/
def LabelsApart (first second : List Stmt) : Prop :=
  ∀ o ∈ Stmt.occurrencesAll first, ∀ o' ∈ Stmt.occurrencesAll second, o.label ≠ o'.label

/-- A label with a distance is that of an occurrence. -/
theorem exists_occurrence_of_get? {place : Place} {program : List Stmt} {label : Label} {d : Nat}
    (h : Assoc.get? (Assoc.setAll [] (Stmt.resolveAll place [] program).distances) label = some d) :
    ∃ o ∈ Stmt.occurrencesAll program, o.label = label := by
  have hmem : (label, d) ∈ (Stmt.resolveAll place (Context.scopes []) program).distances :=
    (Assoc.mem_or_get?_of_get?_setAll h).resolve_right (by simp)
  obtain ⟨site, hsite, hlabel, -⟩ := Stmt.gives_of_memAll program hmem
  have hoccurs : site.occurrence ∈ (Stmt.sitesAll [] program).map Site.occurrence := List.mem_map_of_mem hsite
  rw [Stmt.occurrence_sitesAll] at hoccurs
  exact ⟨site.occurrence, hoccurs, hlabel⟩

theorem get?_resolveAll_append {first second : List Stmt} (hapart : LabelsApart first second) (label : Label) (d : Nat) :
    Assoc.get? (Assoc.setAll [] (Stmt.resolveAll .top [] (first ++ second)).distances) label = some d ↔
      Assoc.get? (Assoc.setAll [] (Stmt.resolveAll .top [] first).distances) label = some d ∨
      Assoc.get? (Assoc.setAll [] (Stmt.resolveAll .top [] second).distances) label = some d := by
  rw [Stmt.resolveAll_append, Findings.distances_append, Assoc.setAll_append, Assoc.get?_setAll, Option.or_eq_some_iff]
  constructor
  · rintro (h | ⟨-, h⟩)
    · exact .inr h
    · exact .inl h
  · rintro (h | h)
    · -- a label of the first program has no distance in the second
      obtain ⟨o, ho, hlabel⟩ := exists_occurrence_of_get? h
      refine .inr ⟨Option.eq_none_iff_forall_ne_some.2 fun d' h' => ?_, h⟩
      obtain ⟨o', ho', hlabel'⟩ := exists_occurrence_of_get? h'
      exact hapart o ho o' ho' (hlabel.trans hlabel'.symm)
    · exact .inl h

/-- The walk over a statement restores its context in every state, and adds to the innermost scope what the statement
declares.  So two programs that share no label are checked independently when they stand one behind the other: the
violations are those of the first and then those of the second, and without any the table is the union of theirs. -/
theorem walk_restores :
    (∀ (s : Stmt) (w : Walk), w.Restored s.declared (s.walk w)) ∧
    (∀ program : List Stmt, resolveProgram program = (Stmt.walkAll program .start).outcome) ∧
    ∀ first second : List Stmt, LabelsApart first second →
      scopeFaults (first ++ second) = scopeFaults first ++ scopeFaults second ∧
      (scopeFaults (first ++ second) = [] → ∃ table table₁ table₂ : Distances,
        resolveProgram (first ++ second) = .ok table ∧ resolveProgram first = .ok table₁ ∧
        resolveProgram second = .ok table₂ ∧
        ∀ label d, Assoc.get? table label = some d ↔
          Assoc.get? table₁ label = some d ∨ Assoc.get? table₂ label = some d) := by
  refine ⟨Stmt.restored_walk, resolveProgram_eq_outcome, fun first second hapart => ?_⟩
  have hfaults : scopeFaults (first ++ second) = scopeFaults first ++ scopeFaults second := by
    rw [scopeFaults_eq, scopeFaults_eq, scopeFaults_eq, Stmt.resolveAll_append, Findings.faults_append]
  refine ⟨hfaults, fun hnone => ?_⟩
  obtain ⟨hfirst, hsecond⟩ := List.append_eq_nil_iff.1 (hfaults.symm.trans hnone)
  exact ⟨_, _, _, resolveProgram_of_scopeFaults hnone, resolveProgram_of_scopeFaults hfirst,
    resolveProgram_of_scopeFaults hsecond, get?_resolveAll_append hapart⟩

theorem walk_restores_blocks :
    let x : Token := ⟨.identifier, "x", 1⟩
    let near : Stmt := .block [.varDecl x none, .expr (.variable 0 x)]
    let far : Stmt := .block [.varDecl x none, .block [.expr (.variable 1 x)]]
    let word : Token := ⟨.keyword .kwBreak, "break", 1⟩
    let stray : Stmt := .breakLoop word
    LabelsApart [near] [far] ∧ LabelsApart [stray, near] [far, stray] ∧
      scopeFaults [stray, near, far, stray] = List.replicate 2 ⟨word, .breakOutsideLoop⟩ ∧
      ∃ table : Distances, resolveProgram [near, far] = .ok table ∧ Assoc.get? table 0 = some 0 ∧
        Assoc.get? table 1 = some 1 := by
  intro x near far word stray
  have hapart : LabelsApart [near] [far] := by
    simp [LabelsApart, near, far, Stmt.occurrencesAll, Stmt.occurrences, Expr.occurrences, Expr.occurrencesIn]
  have hapart' : LabelsApart [stray, near] [far, stray] := by
    simp [LabelsApart, near, far, stray, Stmt.occurrencesAll, Stmt.occurrences, Expr.occurrences, Expr.occurrencesIn]
  have hstray := (walk_restores.2.2 _ _ hapart').1
  obtain ⟨table, table₁, table₂, htable, h₁, h₂, hunion⟩ := (walk_restores.2.2 _ _ hapart).2 (by rfl)
  cases h₁
  cases h₂
  exact ⟨hapart, hapart', hstray.trans (by rfl), table, htable, (hunion 0 0).2 (.inl (by rfl)),
    (hunion 1 1).2 (.inr (by rfl))⟩

end ScriptLang
