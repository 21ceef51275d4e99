import ScriptLang.Proofs.Scoping.Addresses
import ScriptLang.Proofs.Scoping.Lowering

/-!
# Violations of the scope rules

* `Feature.violates` — which rules a feature breaks in its surroundings;
* `Stmt.violations` — the violations in a program: its loci in order, each with the rules that are broken there;
* `Place.of` — what the walk knows about the surroundings of a place;
* `Stmt.faults_resolveAll` — the walk finds at each locus exactly the rules that are broken there;
* `reports_exactly` — a program is refused exactly if it has a violation, and then there is one diagnostic for each.
-/

namespace ScriptLang

/-! ## the rules -/

namespace Surroundings

/-- The innermost function around a place. -/
def function? (around : Surroundings) : Option Enclosure := around.find? Enclosure.isFunction

/-- The innermost class around a place. -/
def class? (around : Surroundings) : Option Enclosure := around.find? Enclosure.isClass

/-- A loop stands between a place and the innermost function, or the top level. -/
def inLoop (around : Surroundings) : Bool := (around.takeWhile (!·.isFunction)).any Enclosure.isLoop

/-- The innermost scope around a place introduces a name before it. -/
def introduces (around : Surroundings) (name : String) : Bool := around.scopes.head?.any (·.contains name)

end Surroundings

/-- All rules. -/
def ScopeFault.all : List ScopeFault :=
  [.returnAtTopLevel, .valueFromInitializer, .breakOutsideLoop, .continueOutsideLoop, .selfInheritance, .ownInitializer,
    .thisOutsideClass, .superOutsideClass, .superWithoutSuperclass, .redeclaration]

theorem ScopeFault.mem_all (rule : ScopeFault) : rule ∈ all := by cases rule <;> decide

/-- A feature breaks a rule in its surroundings. -/
def Feature.violates (around : Surroundings) : Feature → ScopeFault → Bool
  | returns _ _, .returnAtTopLevel => around.function?.isNone
  | returns _ hasValue, .valueFromInitializer => hasValue && around.function?.any Enclosure.isInitializer
  | breaks _, .breakOutsideLoop => !around.inLoop
  | continues _, .continueOutsideLoop => !around.inLoop
  | inherits name superclass, .selfInheritance => superclass.lexeme = name.lexeme
  | declares name, .redeclaration => around.introduces name.lexeme
  | refers ⟨.variable, _, name⟩, .ownInitializer => around.initializes name.lexeme
  | refers ⟨.this, _, _⟩, .thisOutsideClass => around.class?.isNone
  | refers ⟨.super, _, _⟩, .superOutsideClass => around.class?.isNone
  | refers ⟨.super, _, _⟩, .superWithoutSuperclass => around.class?.any (!·.isSubclass)
  | _, _ => false

/-- The rules that speak about a feature. -/
def Feature.rules : Feature → List ScopeFault
  | declares _ => [.redeclaration]
  | refers ⟨.variable, _, _⟩ => [.ownInitializer]
  | refers ⟨.assign, _, _⟩ => []
  | refers ⟨.this, _, _⟩ => [.thisOutsideClass]
  | refers ⟨.super, _, _⟩ => [.superOutsideClass, .superWithoutSuperclass]
  | inherits _ _ => [.selfInheritance]
  | returns _ _ => [.returnAtTopLevel, .valueFromInitializer]
  | breaks _ => [.breakOutsideLoop]
  | continues _ => [.continueOutsideLoop]

/-- No other rule is broken at a feature. -/
theorem Feature.filter_rules (around : Surroundings) (feature : Feature) :
    ScopeFault.all.filter (feature.violates around) = feature.rules.filter (feature.violates around) := by
  cases feature with
  | refers o =>
    obtain ⟨reference, label, name⟩ := o
    cases reference <;> rfl
  | _ => rfl

theorem Feature.mem_rules_of_violates {around : Surroundings} {feature : Feature} {rule : ScopeFault}
    (h : feature.violates around rule = true) : rule ∈ feature.rules := by
  have hmem : rule ∈ ScopeFault.all.filter (feature.violates around) :=
    List.mem_filter.2 ⟨ScopeFault.mem_all rule, h⟩
  rw [filter_rules] at hmem
  exact (List.mem_filter.1 hmem).1

/-- A locus with a rule. -/
structure Violation where
  locus : Locus
  rule : ScopeFault

namespace Violation

/-- The report of a violation. -/
def report (v : Violation) : Report ScopeFault := ⟨v.locus.feature.anchor, v.rule⟩

/-- The diagnostic of a violation. -/
def diagnostic (v : Violation) : Diagnostic := .ofScope v.report

end Violation

namespace Locus

/-- A rule is broken at a locus. -/
def Breaks (p : Locus) (rule : ScopeFault) : Prop := p.feature.violates p.around rule = true

/-- The violations at a locus, each rule once. -/
def violations (p : Locus) : List Violation := (ScopeFault.all.filter (p.feature.violates p.around)).map (⟨p, ·⟩)

/-- The reports of the violations at a locus. -/
def reports (p : Locus) : List (Report ScopeFault) := p.violations.map Violation.report

theorem mem_violations {p : Locus} {v : Violation} : v ∈ p.violations ↔ v.locus = p ∧ p.Breaks v.rule := by
  simp only [violations, List.mem_map, List.mem_filter, Breaks]
  constructor
  · rintro ⟨rule, ⟨-, h⟩, rfl⟩
    exact ⟨rfl, h⟩
  · rintro ⟨rfl, h⟩
    exact ⟨v.rule, ⟨ScopeFault.mem_all v.rule, h⟩, rfl⟩

end Locus

/-- The violations in a program, in the order of its loci. -/
def Stmt.violations (program : List Stmt) : List Violation := (Stmt.programLoci program).flatMap Locus.violations

theorem Stmt.mem_violations {program : List Stmt} {v : Violation} :
    v ∈ Stmt.violations program ↔ v.locus ∈ Stmt.programLoci program ∧ v.locus.Breaks v.rule := by
  simp only [violations, List.mem_flatMap, Locus.mem_violations]
  constructor
  · rintro ⟨p, hp, rfl, h⟩
    exact ⟨hp, h⟩
  · rintro ⟨hp, h⟩
    exact ⟨v.locus, hp, rfl, h⟩

/-! ## reports at a locus -/

section

variable {around : Surroundings}

theorem Findings.faults_faultIf_eq (test : Bool) (anchor : Token) (cause : ScopeFault) :
    (faultIf test anchor cause).faults = if test then [⟨anchor, cause⟩] else [] := by
  cases test <;> rfl

namespace Locus

theorem reports_eq (feature : Feature) :
    reports ⟨feature, around⟩ = (feature.rules.filter (feature.violates around)).map (⟨feature.anchor, ·⟩) := by
  rw [reports, violations, Feature.filter_rules, List.map_map]
  rfl

/-- The reports at a feature that one rule speaks about. -/
theorem reports_of_one (feature : Feature) {rule : ScopeFault} (h : feature.rules = [rule]) :
    reports ⟨feature, around⟩ = (Findings.faultIf (feature.violates around rule) feature.anchor rule).faults := by
  rw [reports_eq, h, Findings.faults_faultIf_eq]
  cases hv : feature.violates around rule <;> simp [hv]

/-- The reports at a feature that two rules speak about. -/
theorem reports_of_two (feature : Feature) {rule other : ScopeFault} (h : feature.rules = [rule, other]) :
    reports ⟨feature, around⟩ = (Findings.faultIf (feature.violates around rule) feature.anchor rule ++
      Findings.faultIf (feature.violates around other) feature.anchor other).faults := by
  rw [reports_eq, h, Findings.faults_append, Findings.faults_faultIf_eq, Findings.faults_faultIf_eq]
  cases hv : feature.violates around rule <;> cases ho : feature.violates around other <;> simp [hv, ho]

theorem reports_declares (name : Token) :
    reports ⟨.declares name, around⟩ =
      (Findings.faultIf (around.introduces name.lexeme) name .redeclaration).faults :=
  reports_of_one (.declares name) rfl

theorem reports_inherits (name superclass : Token) :
    reports ⟨.inherits name superclass, around⟩ =
      (Findings.faultIf (superclass.lexeme = name.lexeme) superclass .selfInheritance).faults :=
  reports_of_one (.inherits name superclass) rfl

theorem reports_breaks (keyword : Token) :
    reports ⟨.breaks keyword, around⟩ = (Findings.faultIf (!around.inLoop) keyword .breakOutsideLoop).faults :=
  reports_of_one (.breaks keyword) rfl

theorem reports_continues (keyword : Token) :
    reports ⟨.continues keyword, around⟩ = (Findings.faultIf (!around.inLoop) keyword .continueOutsideLoop).faults :=
  reports_of_one (.continues keyword) rfl

theorem reports_variable (label : Label) (name : Token) :
    reports ⟨.refers ⟨.variable, label, name⟩, around⟩ =
      (Findings.faultIf (around.initializes name.lexeme) name .ownInitializer).faults :=
  reports_of_one (.refers ⟨.variable, label, name⟩) rfl

theorem reports_assign (label : Label) (name : Token) : reports ⟨.refers ⟨.assign, label, name⟩, around⟩ = [] := rfl

theorem reports_this (label : Label) (keyword : Token) :
    reports ⟨.refers ⟨.this, label, keyword⟩, around⟩ =
      (Findings.faultIf around.class?.isNone keyword .thisOutsideClass).faults :=
  reports_of_one (.refers ⟨.this, label, keyword⟩) rfl

theorem reports_super (label : Label) (keyword : Token) :
    reports ⟨.refers ⟨.super, label, keyword⟩, around⟩ =
      (Findings.faultIf around.class?.isNone keyword .superOutsideClass ++
        Findings.faultIf (around.class?.any (!·.isSubclass)) keyword .superWithoutSuperclass).faults :=
  reports_of_two (.refers ⟨.super, label, keyword⟩) rfl

theorem reports_returns (keyword : Token) (hasValue : Bool) :
    reports ⟨.returns keyword hasValue, around⟩ =
      (Findings.faultIf around.function?.isNone keyword .returnAtTopLevel ++
        Findings.faultIf (hasValue && around.function?.any Enclosure.isInitializer) keyword
          .valueFromInitializer).faults :=
  reports_of_two (.returns keyword hasValue) rfl

end Locus

/-! ## what the walk knows about surroundings -/

/-- The kind of the innermost function. -/
def FunctionPlace.ofEnclosure : Option Enclosure → FunctionPlace
  | some (.function .function _ _ _) => .function
  | some (.function .method name _ _) => if name.lexeme = FunctionDecl.initName then .initializer else .method
  | _ => .none

/-- The kind of the innermost class. -/
def ClassPlace.ofEnclosure : Option Enclosure → ClassPlace
  | some (.klass superclass) => .of superclass
  | _ => .none

/-- What the walk knows about the surroundings of a place, apart from scopes. -/
def Place.of (around : Surroundings) : Place :=
  ⟨.ofEnclosure around.function?, .ofEnclosure around.class?, around.inLoop⟩

namespace Place

@[simp] theorem of_initializer (name : Token) : of (.initializer name :: around) = of around := rfl

@[simp] theorem of_loop : of (.loop :: around) = { of around with inLoop := true } := rfl

@[simp] theorem of_klass (s : Option Expr) : of (.klass s :: around) = { of around with klass := .of s } := rfl

theorem of_function (kind : Body) (name : Token) (params : List Token) (reached : List Stmt) :
    of (.function kind name params reached :: around) =
      ⟨.ofEnclosure (some (.function kind name params reached)), (of around).klass, false⟩ := rfl

/-- Of a function only its kind and its name make a difference inside of it. -/
theorem of_function_eq (kind : Body) (name : Token) (params : List Token) (reached : List Stmt) :
    of (.function kind name params reached :: around) = of (.function kind name [] [] :: around) := by
  cases kind <;> rfl

theorem ofMethod_eq (d : FunctionDecl) :
    FunctionPlace.ofMethod d = .ofEnclosure (some (.function .method d.name [] [])) := by
  simp only [FunctionPlace.ofMethod, FunctionDecl.isInit, decide_eq_true_eq]
  rfl

/-- The statements before a place make no difference. -/
@[simp] theorem of_reach (s : Stmt) : of (around.reach s) = of around := by
  unfold Surroundings.reach
  split
  · rfl
  · next kind _ _ _ _ => cases kind <;> rfl
  · rfl

/-- What the walk knows about functions says whether there is one and whether it constructs instances. -/
theorem function_of (around : Surroundings) : (decide ((of around).function = .none) = around.function?.isNone) ∧
    decide ((of around).function = .initializer) = around.function?.any Enclosure.isInitializer := by
  unfold of
  cases h : around.function? with
  | none => exact ⟨rfl, rfl⟩
  | some e =>
    have he : e.isFunction = true := List.find?_some h
    match e, he with
    | .function .function name params reached, _ => exact ⟨rfl, rfl⟩
    | .function .method name params reached, _ =>
      by_cases hn : name.lexeme = FunctionDecl.initName <;>
        simp [FunctionPlace.ofEnclosure, Enclosure.isInitializer, hn]

/-- What the walk knows about classes says whether there is one and whether it has a superclass. -/
theorem klass_of (around : Surroundings) : ((of around).klass = .none ∧ around.class? = none) ∨
    ((of around).klass = .plain ∧ around.class?.isNone = false ∧ around.class?.any (!·.isSubclass) = true) ∨
    (of around).klass = .derived ∧ around.class?.isNone = false ∧ around.class?.any (!·.isSubclass) = false := by
  unfold of
  cases h : around.class? with
  | none => exact .inl ⟨rfl, rfl⟩
  | some e =>
    have he : e.isClass = true := List.find?_some h
    match e, he with
    | .klass none, _ => exact .inr (.inl ⟨rfl, rfl, rfl⟩)
    | .klass (some x), _ => exact .inr (.inr ⟨rfl, rfl, rfl⟩)

end Place

/-! ## what the walk knows about scopes -/

/-- The scopes of the walk have the names around a statement, and no variable waits for its initializer there. -/
structure Scopes.Tracks (scopes : Scopes) (around : Surroundings) : Prop where
  names : scopes.Holds around.scopes
  pending : ∀ name, scopes.isPending name = false
  outside : ∀ name, around.initializes name = false

theorem Surroundings.initializes_reach {name : String} (h : around.initializes name = false) (s : Stmt) :
    (around.reach s).initializes name = false := by
  unfold Surroundings.reach
  split
  · rfl
  · rfl
  · exact h

theorem Scopes.isPending_put_true {scopes : Scopes} {n : String} (h : scopes.isPending n = false) (name : String) :
    (scopes.put true name).isPending n = false := by
  by_cases hn : name = n
  · cases scopes with
    | nil => rfl
    | cons scope outer => simp [put, isPending, hn]
  · rwa [isPending_put_of_ne hn]

theorem Scopes.isPending_declareAll {scopes : Scopes} {n : String} (h : scopes.isPending n = false)
    (names : List Token) : (scopes.declareAll names).isPending n = false := by
  unfold declareAll
  induction names generalizing scopes with
  | nil => exact h
  | cons name names ih => exact ih (isPending_put_true h name.lexeme)

namespace Scopes.Tracks

variable {scopes : Scopes} {s : Stmt} {name : Token}

theorem put (h : scopes.Tracks around) (hopen : around.Open) (hs : s.introduces? = some name) :
    (scopes.put true name.lexeme).Tracks (around.reach s) :=
  ⟨h.names.put_reach hopen hs true, fun n => isPending_put_true (h.pending n) name.lexeme,
    fun n => Surroundings.initializes_reach (h.outside n) s⟩

theorem after (h : scopes.Tracks around) (hopen : around.Open) (hs : s.Shaped) :
    (scopes.after s).Tracks (around.reach s) :=
  ⟨h.names.after hopen hs, fun n => isPending_declareAll (h.pending n) s.declared,
    fun n => Surroundings.initializes_reach (h.outside n) s⟩

theorem block (h : scopes.Tracks around) : Tracks ([] :: scopes) (.block [] :: around) :=
  ⟨h.names.cons, fun _ => rfl, fun _ => rfl⟩

theorem loop (h : scopes.Tracks around) : scopes.Tracks (.loop :: around) := ⟨h.names, h.pending, fun _ => rfl⟩

theorem function (h : scopes.Tracks around) (kind : Body) (f : Token) (params : List Token) :
    Tracks (Scopes.declareAll ([] :: scopes) params) (.function kind f params [] :: around) :=
  ⟨h.names.function kind f params, fun _ => isPending_declareAll rfl params, fun _ => rfl⟩

theorem ofClass (h : scopes.Tracks around) (superclass : Option Expr) :
    (scopes.ofClass superclass).Tracks (.klass superclass :: around) := by
  refine ⟨h.names.ofClass superclass, fun n => ?_, fun _ => rfl⟩
  have hthis : ∀ outer : Scopes, Scopes.isPending n (Scope.only "this" :: outer) = false := by
    intro outer
    simp [isPending, Scope.only, Assoc.get?]
  cases superclass with
  | none => exact hthis _
  | some x => exact hthis _

/-- In the initializer of a variable that variable alone waits, and only in a scope. -/
theorem initializer (h : scopes.Tracks around) (hopen : around.Open) (hs : s.introduces? = some name) (n : String) :
    (scopes.put false name.lexeme).isPending n =
      Surroundings.initializes (.initializer name :: around.reach s) n := by
  have hput := h.names.put_reach hopen hs false
  show _ = (decide (name.lexeme = n) && !(around.reach s).scopes.isEmpty)
  by_cases hn : name.lexeme = n
  · generalize (around.reach s).scopes = names at hput
    cases scopes with
    | nil => cases hput; simp [Scopes.put, isPending]
    | cons scope outer =>
      cases hput
      simp [Scopes.put, isPending, hn]
  · simp [isPending_put_of_ne hn, h.pending, hn]

end Scopes.Tracks

theorem Scopes.Holds.declares {scopes : Scopes} (h : scopes.Holds around.scopes) (n : String) :
    scopes.declares n = around.introduces n := by
  unfold Surroundings.introduces
  generalize around.scopes = names at h
  cases h with
  | nil => rfl
  | @cons scope ns _ _ hscope _ =>
    rw [Bool.eq_iff_iff]
    simpa [Scopes.declares] using hscope n

/-! ## the walk over expressions -/

/-- The reports at an occurrence. -/
def Occurrence.reports (around : Surroundings) (o : Occurrence) : List (Report ScopeFault) :=
  Locus.reports ⟨.refers o, around⟩

mutual

/-- The walk reports the violations at the occurrences of an expression. -/
theorem Expr.faults_resolve {around : Surroundings} {scopes : Scopes}
    (h : ∀ n, scopes.isPending n = around.initializes n) (e : Expr) :
    (e.resolve (.of around) scopes).faults = e.references.flatMap (Occurrence.reports around) := by
  cases e with
  | literal v => rfl
  | group inner => exact inner.faults_resolve h
  | unary op r => exact r.faults_resolve h
  | binary l op r =>
    simp only [Expr.resolve, Expr.references, Findings.faults_append, List.flatMap_append, l.faults_resolve h,
      r.faults_resolve h]
  | logical l op r =>
    simp only [Expr.resolve, Expr.references, Findings.faults_append, List.flatMap_append, l.faults_resolve h,
      r.faults_resolve h]
  | «variable» label name =>
    simp only [Expr.resolve, Expr.references, Findings.faults_append, Findings.faults_occurrence, List.append_nil,
      List.flatMap_singleton, Occurrence.reports, Locus.reports_variable, h]
  | assign label name v =>
    simp only [Expr.resolve, Expr.references, Findings.faults_append, Findings.faults_occurrence, List.append_nil,
      List.flatMap_append, List.flatMap_singleton, Occurrence.reports, Locus.reports_assign, v.faults_resolve h]
  | call f paren args =>
    simp only [Expr.resolve, Expr.references, Findings.faults_append, List.flatMap_append, f.faults_resolve h,
      Expr.faults_resolveAll h args]
  | get o name => exact o.faults_resolve h
  | set o name v =>
    simp only [Expr.resolve, Expr.references, Findings.faults_append, List.flatMap_append, o.faults_resolve h,
      v.faults_resolve h]
  | this label keyword =>
    simp only [Expr.resolve, Expr.references, List.flatMap_singleton, Occurrence.reports, Locus.reports_this]
    obtain ⟨hk, hc⟩ | ⟨hk, hc, -⟩ | ⟨hk, hc, -⟩ := Place.klass_of around <;> rw [hk, hc]
    · rfl
    · exact Findings.faults_occurrence ..
    · exact Findings.faults_occurrence ..
  | super label keyword method =>
    simp only [Expr.resolve, Expr.references, List.flatMap_singleton, Occurrence.reports, Locus.reports_super]
    obtain ⟨hk, hc⟩ | ⟨hk, hc, hs⟩ | ⟨hk, hc, hs⟩ := Place.klass_of around
    · rw [hk, hc]
      rfl
    · rw [hk, hc, hs]
      rfl
    · rw [hk, hc, hs]
      exact Findings.faults_occurrence ..

theorem Expr.faults_resolveAll {around : Surroundings} {scopes : Scopes}
    (h : ∀ n, scopes.isPending n = around.initializes n) (es : List Expr) :
    (Expr.resolveAll (.of around) scopes es).faults =
      (Expr.referencesAll es).flatMap (Occurrence.reports around) := by
  cases es with
  | nil => rfl
  | cons e es =>
    simp only [Expr.resolveAll, Expr.referencesAll, Findings.faults_append, List.flatMap_append, e.faults_resolve h,
      Expr.faults_resolveAll h es]

end

/-- The walk reports the violations at the loci of an expression that may be absent. -/
theorem Expr.faults_resolveIn {scopes : Scopes} (h : ∀ n, scopes.isPending n = around.initializes n)
    (e : Option Expr) :
    (Expr.resolveIn (.of around) scopes e).faults = (Expr.lociIn around e).flatMap Locus.reports := by
  cases e with
  | none => rfl
  | some e =>
    show _ = (e.loci around).flatMap Locus.reports
    rw [Expr.loci, List.flatMap_map]
    exact e.faults_resolve h

theorem Expr.faults_loci {scopes : Scopes} (h : scopes.Tracks around) (e : Expr) :
    (e.resolve (.of around) scopes).faults = (e.loci around).flatMap Locus.reports :=
  Expr.faults_resolveIn (fun n => (h.pending n).trans (h.outside n).symm) (some e)

theorem Expr.faults_lociIn {scopes : Scopes} (h : scopes.Tracks around) (e : Option Expr) :
    (Expr.resolveIn (.of around) scopes e).faults = (Expr.lociIn around e).flatMap Locus.reports :=
  Expr.faults_resolveIn (fun n => (h.pending n).trans (h.outside n).symm) e

/-! ## the walk over statements -/

theorem faults_redeclared {scopes : Scopes} (h : scopes.Holds around.scopes) (name : Token) :
    (redeclared scopes name).faults = Locus.reports ⟨.declares name, around⟩ := by
  rw [redeclared, h.declares, Locus.reports_declares]

/-- The walk reports the parameters whose names come before them. -/
theorem faults_resolveParams {scopes : Scopes} {before : List Token} (kind : Body) (f : Token) (params : List Token)
    (h : scopes.Holds (Surroundings.scopes (.function kind f before [] :: around))) :
    (resolveParams scopes params).faults = (parameterLoci kind f around before params).flatMap Locus.reports := by
  induction params generalizing scopes before with
  | nil => rfl
  | cons p ps ih =>
    have hbefore : scopes.Holds (before.map Token.lexeme :: Surroundings.scopes around) := by
      simpa [Enclosure.scopes, Stmt.introduced] using h
    have hput : (scopes.put true p.lexeme).Holds
        (Surroundings.scopes (.function kind f (before ++ [p]) [] :: around)) := by
      simpa [Enclosure.scopes, Stmt.introduced] using hbefore.put_cons true p.lexeme
    rw [resolveParams, parameterLoci, Findings.faults_append, List.flatMap_cons, faults_redeclared h, ih hput]

theorem faults_selfInheritance (name : Token) {s : Option Expr} (hs : ∀ x ∈ s, Expr.IsVariable x) :
    (selfInheritance name s).faults =
      ((Feature.inheritance name s).map fun f => (⟨f, around⟩ : Locus)).flatMap Locus.reports := by
  cases s with
  | none => rfl
  | some x =>
    obtain ⟨label, superclass, rfl⟩ := hs x rfl
    rw [selfInheritance, ← Locus.reports_inherits]
    exact (List.flatMap_singleton ..).symm

/-- A superclass is a name, so that the kind of class it makes is of no account in it. -/
theorem Expr.faults_superclass {scopes : Scopes} (h : scopes.Tracks around) {s : Option Expr}
    (hs : ∀ x ∈ s, Expr.IsVariable x) (place : Place) :
    (Expr.resolveIn place scopes s).faults = (Expr.lociIn around s).flatMap Locus.reports := by
  rw [← Expr.faults_lociIn h s]
  cases s with
  | none => rfl
  | some x =>
    obtain ⟨label, superclass, rfl⟩ := hs x rfl
    rfl

mutual

theorem Stmt.faults_resolve {around : Surroundings} {scopes : Scopes} (s : Stmt) (hs : s.Shaped)
    (hopen : s.introduces?.isSome → around.Open) (h : scopes.Tracks around) :
    (s.resolve (.of around) scopes).faults = (s.loci around).flatMap Locus.reports := by
  cases s with
  | expr e => exact e.faults_loci h
  | print keyword e => exact e.faults_loci h
  | varDecl name e =>
    have hvalue := Expr.faults_resolveIn (h.initializer (s := .varDecl name e) (hopen rfl) rfl) e
    rw [Place.of_initializer, Place.of_reach] at hvalue
    rw [Stmt.resolve, Stmt.loci, Findings.faults_append, List.flatMap_cons, faults_redeclared h.names, hvalue]
  | block body => exact Stmt.faults_resolveAll body hs (by trivial) h.block
  | ifThen c t =>
    rw [Stmt.resolve, Stmt.loci, Findings.faults_append, List.flatMap_append, c.faults_loci h,
      Stmt.faults_resolve t hs.2 (by simp [hs.1]) h]
  | ifElse c t e =>
    obtain ⟨⟨hit, ht⟩, hie, he⟩ := hs
    have hafter : scopes.after t = scopes := by rw [Scopes.after, t.declared_of_shaped ht, hit]; rfl
    simp only [Stmt.resolve, Stmt.loci, Findings.faults_append, List.flatMap_append, c.faults_loci h, hafter,
      Stmt.faults_resolve t ht (by simp [hit]) h, Stmt.faults_resolve e he (by simp [hie]) h]
  | loop c b i =>
    have hafter : scopes.after b = scopes := by rw [Scopes.after, b.declared_of_shaped hs.2, hs.1]; rfl
    have hbody := Stmt.faults_resolve b hs.2 (by simp [hs.1]) h.loop
    rw [Place.of_loop] at hbody
    simp only [Stmt.resolve, Stmt.loci, Findings.faults_append, List.flatMap_append, c.faults_loci h, hafter, hbody,
      Expr.faults_lociIn h i]
  | funDecl d =>
    have hbody := FunctionDecl.faults_resolve .function d hs (h.put (s := .funDecl d) (hopen rfl) rfl)
    rw [Place.of_function, Place.of_reach] at hbody
    rw [Stmt.resolve, Stmt.loci, Findings.faults_append, List.flatMap_cons, faults_redeclared h.names, ← hbody]
    rfl
  | returnFrom keyword e =>
    obtain ⟨htop, hinit⟩ := Place.function_of around
    rw [Stmt.resolve, Stmt.loci, Findings.faults_append, List.flatMap_cons, Expr.faults_lociIn h e,
      Locus.reports_returns, htop, hinit]
  | classDecl name s ms =>
    have hinner := h.put (s := .classDecl name s ms) (hopen rfl) rfl
    have hmethods := FunctionDecl.faults_resolveMethods ms hs.2 (hinner.ofClass s)
    rw [Place.of_klass] at hmethods
    have hself : (selfInheritance name s).faults =
        ((Feature.inheritance name s).map fun f => (⟨f, around⟩ : Locus)).flatMap Locus.reports :=
      faults_selfInheritance name hs.1
    simp only [Stmt.resolve, Stmt.loci, Findings.faults_append, List.flatMap_cons, List.flatMap_append,
      faults_redeclared h.names, hself, Expr.faults_superclass hinner hs.1, hmethods, List.append_assoc]
  | breakLoop keyword =>
    rw [Stmt.loci, List.flatMap_singleton, Locus.reports_breaks]
    rfl
  | continueLoop keyword =>
    rw [Stmt.loci, List.flatMap_singleton, Locus.reports_continues]
    rfl

/-- The walk reports the violations at the loci of statements, in the order of the loci. -/
theorem Stmt.faults_resolveAll {around : Surroundings} {scopes : Scopes} (body : List Stmt) (hs : Stmt.ShapedAll body)
    (hopen : around.Open) (h : scopes.Tracks around) :
    (Stmt.resolveAll (.of around) scopes body).faults = (Stmt.lociAll around body).flatMap Locus.reports := by
  cases body with
  | nil => rfl
  | cons s rest =>
    have hrest := Stmt.faults_resolveAll rest hs.2 (hopen.reach s) (h.after hopen hs.1)
    rw [Place.of_reach] at hrest
    rw [Stmt.resolveAll, Stmt.lociAll, Findings.faults_append, List.flatMap_append,
      Stmt.faults_resolve s hs.1 (fun _ => hopen) h, hrest]

theorem FunctionDecl.faults_resolve {around : Surroundings} {scopes : Scopes} (kind : Body) (d : FunctionDecl)
    (hs : d.Shaped) (h : scopes.Tracks around) :
    (d.resolve (.of (.function kind d.name [] [] :: around)) scopes).faults =
      (d.loci kind around).flatMap Locus.reports := by
  cases d with
  | mk name params body =>
    have hbody := Stmt.faults_resolveAll body hs (by trivial) (h.function kind name params)
    rw [Place.of_function_eq] at hbody
    have hempty : Scopes.Holds ([] :: scopes) (Surroundings.scopes (.function kind name [] [] :: around)) :=
      h.names.cons
    have hparams := faults_resolveParams kind name params hempty
    rw [FunctionDecl.resolve, FunctionDecl.loci, Findings.faults_append, List.flatMap_append, hparams, ← hbody]
    rfl

theorem FunctionDecl.faults_resolveMethods {around : Surroundings} {scopes : Scopes} (ds : List FunctionDecl)
    (hs : FunctionDecl.ShapedAll ds) (h : scopes.Tracks around) :
    (FunctionDecl.resolveMethods (Place.of around).klass scopes ds).faults =
      (FunctionDecl.lociAll around ds).flatMap Locus.reports := by
  cases ds with
  | nil => rfl
  | cons d ds =>
    have hbody := FunctionDecl.faults_resolve .method d hs.1 h
    rw [FunctionDecl.resolveMethods, FunctionDecl.lociAll, Findings.faults_append, List.flatMap_append, ← hbody,
      FunctionDecl.faults_resolveMethods ds hs.2 h, Place.ofMethod_eq, Place.of_function]

end

end

/-! ## reports of programs -/

section

variable {fresh : Label} {tokens : List Token} {program : List Stmt}

/-- The walk over a program reports its violations. -/
theorem Stmt.faults_program (hs : Stmt.ShapedAll program) :
    (Stmt.resolveAll .top [] program).faults = (Stmt.violations program).map Violation.report := by
  have htop : Scopes.Tracks [] [] := ⟨.nil, fun _ => rfl, fun _ => rfl⟩
  rw [Stmt.violations, List.map_flatMap]
  exact Stmt.faults_resolveAll program hs (by trivial) htop

/-- A program that is refused is so for its faults, of which there is one at least. -/
theorem resolveProgram_eq_error {faults : List (Report ScopeFault)} : resolveProgram program = .error faults ↔
    (Stmt.resolveAll .top [] program).faults = faults ∧ faults ≠ [] := by
  unfold resolveProgram
  dsimp only
  split
  · next hf => exact ⟨(nomatch ·), fun h => absurd (h.1.symm.trans (List.isEmpty_iff.1 hf)) h.2⟩
  · next hf =>
    constructor
    · intro h
      obtain rfl := Except.error.inj h
      exact ⟨rfl, fun hnil => hf (List.isEmpty_iff.2 hnil)⟩
    · rintro ⟨rfl, -⟩
      rfl

/-- What the check of a program reports. -/
structure ReportsExactly (program : List Stmt) : Prop where
  /-- The program is refused exactly if it breaks a rule somewhere. -/
  refused : (∃ faults, resolveProgram program = .error faults) ↔
    ∃ p ∈ Stmt.programLoci program, ∃ rule, p.Breaks rule
  /-- There is one diagnostic for each violation, in the order of the loci. -/
  reports : ∀ faults, resolveProgram program = .error faults →
    faults.map Diagnostic.ofScope = (Stmt.violations program).map Violation.diagnostic

/-- Of a program that is read from tokens the check reports the violations, each once, and nothing else. -/
theorem reports_exactly (hp : (parse fresh tokens).result = .ok program) : ReportsExactly program := by
  have hfaults := Stmt.faults_program (reads_of_parse hp).shaped
  constructor
  · constructor
    · rintro ⟨faults, hf⟩
      obtain ⟨heq, hne⟩ := resolveProgram_eq_error.1 hf
      obtain ⟨v, hv⟩ : ∃ v, v ∈ Stmt.violations program := by
        refine List.exists_mem_of_ne_nil _ fun hnil => hne ?_
        rw [← heq, hfaults, hnil]
        rfl
      exact ⟨v.locus, (Stmt.mem_violations.1 hv).1, v.rule, (Stmt.mem_violations.1 hv).2⟩
    · rintro ⟨p, hp, rule, hrule⟩
      have hv : (⟨p, rule⟩ : Violation) ∈ Stmt.violations program := Stmt.mem_violations.2 ⟨hp, hrule⟩
      refine ⟨_, resolveProgram_eq_error.2 ⟨rfl, ?_⟩⟩
      rw [hfaults]
      exact List.ne_nil_of_mem (List.mem_map_of_mem hv)
  · intro faults hf
    obtain ⟨rfl, -⟩ := resolveProgram_eq_error.1 hf
    rw [hfaults, List.map_map]
    rfl

/-- A variable in its own initializer, one more of that name, and a return with `this` at the top level. -/
theorem reports_exactly_four :
    ∃ program : List Stmt, (parse 0 (tokensOf "{ var a = a; var a; } return this;")).result = .ok program ∧
      ReportsExactly program ∧ (Stmt.violations program).map Violation.rule =
        [.ownInitializer, .redeclaration, .returnAtTopLevel, .thisOutsideClass] := by
  let a : Token := ⟨.identifier, "a", 1⟩
  let value : Expr := .this 1 ⟨.keyword .kwThis, "this", 1⟩
  let back : Stmt := .returnFrom ⟨.keyword .kwReturn, "return", 1⟩ (some value)
  let program : List Stmt := [.block [.varDecl a (some (.variable 0 a)), .varDecl a none], back]
  have hp : (parse 0 (tokensOf "{ var a = a; var a; } return this;")).result = .ok program := by rfl
  exact ⟨program, hp, reports_exactly hp, by decide⟩

end

end ScriptLang
