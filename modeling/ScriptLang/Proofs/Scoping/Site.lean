import ScriptLang.Scope

/-!
# Sites: occurrences with the scopes around them

* `Region` — a scope at some point of its text: the names known so far, and all names it declares anywhere;
* `Stmt.sites` — every occurrence in a statement with the regions around it, on the same walk as `Stmt.resolve`;
* `Stmt.mem_distances` — the distances that a clean walk finds are those of the sites.
-/

namespace ScriptLang

/-- A scope at some point of its text. -/
structure Region where
  /-- The names known at the point, as the walk over the text holds them. -/
  known : Scope
  /-- All names that the scope declares, also behind the point. -/
  names : List String

/-- The regions around a node, innermost first. -/
abbrev Context : Type := List Region

/-- The region of one name that is ready. -/
def Region.only (name : String) : Region := ⟨Scope.only name, [name]⟩

/-- The names that statements declare in the scope they stand in. -/
def Stmt.declaredAll (body : List Stmt) : List String := body.flatMap fun s => s.declared.map Token.lexeme

namespace Context

/-- What the walk holds at a node. -/
def scopes (ctx : Context) : Scopes := ctx.map Region.known

/-- The context with a name set in the innermost region. -/
def put (ready : Bool) (name : String) : Context → Context
  | [] => []
  | r :: outer => { r with known := Assoc.set r.known name ready } :: outer

/-- The context after declaring names. -/
def declareAll (ctx : Context) (names : List Token) : Context :=
  names.foldl (fun c name => put true name.lexeme c) ctx

/-- The context behind a statement. -/
def after (ctx : Context) (s : Stmt) : Context := ctx.declareAll s.declared

/-- The context of a block body before its first statement. -/
def ofBlock (ctx : Context) (body : List Stmt) : Context := ⟨[], Stmt.declaredAll body⟩ :: ctx

/-- The context of a function body before its first statement. -/
def ofFunction (ctx : Context) (params : List Token) (body : List Stmt) : Context :=
  declareAll (⟨[], params.map Token.lexeme ++ Stmt.declaredAll body⟩ :: ctx) params

/-- The context of the frame that methods are closed over: with a superclass it has a region for `super`. -/
def ofClass (ctx : Context) (superclass : Option Expr) : Context :=
  match superclass with
  | some _ => Region.only "super" :: ctx
  | none => ctx

@[simp] theorem scopes_cons (r : Region) (ctx : Context) : scopes (r :: ctx) = r.known :: scopes ctx := rfl

@[simp] theorem scopes_put (ready : Bool) (name : String) (ctx : Context) :
    (ctx.put ready name).scopes = ctx.scopes.put ready name := by
  cases ctx <;> rfl

@[simp] theorem scopes_declareAll (ctx : Context) (names : List Token) :
    (ctx.declareAll names).scopes = ctx.scopes.declareAll names := by
  unfold declareAll Scopes.declareAll
  induction names generalizing ctx with
  | nil => rfl
  | cons name names ih => rw [List.foldl_cons, List.foldl_cons, ih, scopes_put]

@[simp] theorem scopes_after (ctx : Context) (s : Stmt) : (ctx.after s).scopes = ctx.scopes.after s :=
  scopes_declareAll ctx s.declared

theorem scopes_ofBlock (ctx : Context) (body : List Stmt) : (ctx.ofBlock body).scopes = [] :: ctx.scopes := rfl

theorem scopes_ofFunction (ctx : Context) (params : List Token) (body : List Stmt) :
    (ctx.ofFunction params body).scopes = Scopes.declareAll ([] :: ctx.scopes) params :=
  scopes_declareAll _ params

theorem scopes_ofClass (ctx : Context) (superclass : Option Expr) :
    scopes (Region.only "this" :: ctx.ofClass superclass) = ctx.scopes.ofClass superclass := by
  cases superclass <;> rfl

theorem after_of_declared_eq_nil (ctx : Context) {s : Stmt} (h : s.declared = []) : ctx.after s = ctx := by
  unfold after
  rw [h]
  rfl

end Context

/-! ## sites -/

/-- An occurrence with what the walk over the text knows there. -/
structure Site where
  occurrence : Occurrence
  context : Context
  /-- The class whose superclass the occurrence is, if it is one. -/
  heading : Option String

namespace Site

/-- Identifies the node. -/
def label (s : Site) : Label := s.occurrence.label

/-- The name that is looked up. -/
def name (s : Site) : String := s.occurrence.name.lexeme

/-- The scopes between the node and the scope that binds its name; none for a global. -/
def distance? (s : Site) : Option Nat := s.context.scopes.distance? s.name

end Site

/-- The sites of an expression. -/
def Expr.sites (ctx : Context) (heading : Option String) (e : Expr) : List Site :=
  e.occurrences.map (⟨·, ctx, heading⟩)

/-- The sites of an expression that may be absent. -/
def Expr.sitesIn (ctx : Context) (heading : Option String) (e : Option Expr) : List Site :=
  e.elim [] (Expr.sites ctx heading)

mutual

/-- The sites of a statement. -/
def Stmt.sites (ctx : Context) : Stmt → List Site
  | .expr e => e.sites ctx none
  | .print _ e => e.sites ctx none
  | .varDecl name e => Expr.sitesIn (ctx.put false name.lexeme) none e
  | .block body => Stmt.sitesAll (ctx.ofBlock body) body
  | .ifThen c t => c.sites ctx none ++ t.sites ctx
  | .ifElse c t e => c.sites ctx none ++ t.sites ctx ++ e.sites (ctx.after t)
  | .loop c b i => c.sites ctx none ++ b.sites ctx ++ Expr.sitesIn (ctx.after b) none i
  | .funDecl d => d.sites (ctx.put true d.name.lexeme)
  | .returnFrom _ e => Expr.sitesIn ctx none e
  | .classDecl name s ms =>
    let inner := ctx.put true name.lexeme
    Expr.sitesIn inner (some name.lexeme) s ++ FunctionDecl.sitesAll (Region.only "this" :: inner.ofClass s) ms
  | .breakLoop _ => []
  | .continueLoop _ => []

/-- The sites of statements, each in the context behind those before it. -/
def Stmt.sitesAll (ctx : Context) : List Stmt → List Site
  | [] => []
  | s :: rest => s.sites ctx ++ Stmt.sitesAll (ctx.after s) rest

/-- The sites of a function body. -/
def FunctionDecl.sites (ctx : Context) : FunctionDecl → List Site
  | .mk _ params body => Stmt.sitesAll (ctx.ofFunction params body) body

/-- The sites of function bodies that stand side by side. -/
def FunctionDecl.sitesAll (ctx : Context) : List FunctionDecl → List Site
  | [] => []
  | d :: ds => d.sites ctx ++ FunctionDecl.sitesAll ctx ds

end

/-! ## sites and occurrences -/

section

variable {ctx : Context} {heading : Option String}

theorem Expr.occurrence_sites (x : Expr) : (x.sites ctx heading).map Site.occurrence = x.occurrences := by
  rw [Expr.sites, List.map_map]
  exact List.map_id _

theorem Expr.occurrence_sitesIn (x : Option Expr) :
    (Expr.sitesIn ctx heading x).map Site.occurrence = Expr.occurrencesIn x := by
  cases x with
  | none => rfl
  | some x => exact x.occurrence_sites

end

mutual

theorem Stmt.occurrence_sites {ctx : Context} (s : Stmt) : (s.sites ctx).map Site.occurrence = s.occurrences := by
  cases s with
  | expr x => exact x.occurrence_sites
  | print keyword x => exact x.occurrence_sites
  | varDecl name x => exact Expr.occurrence_sitesIn x
  | block body => exact Stmt.occurrence_sitesAll body
  | ifThen c t =>
    simp only [Stmt.sites, Stmt.occurrences, List.map_append]
    rw [Expr.occurrence_sites, Stmt.occurrence_sites t]
  | ifElse c t e =>
    simp only [Stmt.sites, Stmt.occurrences, List.map_append]
    rw [Expr.occurrence_sites, Stmt.occurrence_sites t, Stmt.occurrence_sites e]
  | loop c b i =>
    simp only [Stmt.sites, Stmt.occurrences, List.map_append]
    rw [Expr.occurrence_sites, Stmt.occurrence_sites b, Expr.occurrence_sitesIn]
  | funDecl d => exact FunctionDecl.occurrence_sites d
  | returnFrom keyword x => exact Expr.occurrence_sitesIn x
  | classDecl name x ms =>
    simp only [Stmt.sites, Stmt.occurrences, List.map_append]
    rw [Expr.occurrence_sitesIn, FunctionDecl.occurrence_sitesAll ms]
  | breakLoop keyword => rfl
  | continueLoop keyword => rfl

/-- The sites of statements are at their occurrences. -/
theorem Stmt.occurrence_sitesAll {ctx : Context} (body : List Stmt) :
    (Stmt.sitesAll ctx body).map Site.occurrence = Stmt.occurrencesAll body := by
  cases body with
  | nil => rfl
  | cons s rest =>
    simp only [Stmt.sitesAll, Stmt.occurrencesAll, List.map_append]
    rw [Stmt.occurrence_sites s, Stmt.occurrence_sitesAll rest]

theorem FunctionDecl.occurrence_sites {ctx : Context} (d : FunctionDecl) :
    (d.sites ctx).map Site.occurrence = d.occurrences := by
  cases d with
  | mk name params body => exact Stmt.occurrence_sitesAll body

theorem FunctionDecl.occurrence_sitesAll {ctx : Context} (ds : List FunctionDecl) :
    (FunctionDecl.sitesAll ctx ds).map Site.occurrence = FunctionDecl.occurrencesAll ds := by
  cases ds with
  | nil => rfl
  | cons d ds =>
    simp only [FunctionDecl.sitesAll, FunctionDecl.occurrencesAll, List.map_append]
    rw [FunctionDecl.occurrence_sites d, FunctionDecl.occurrence_sitesAll ds]

end

/-! ## distances -/

open Findings

@[simp] theorem Findings.distances_nothing : nothing.distances = [] := rfl

@[simp] theorem Findings.distances_faultIf (test : Bool) (anchor : Token) (cause : ScopeFault) :
    (faultIf test anchor cause).distances = [] := by
  unfold faultIf
  split <;> rfl

@[simp] theorem Findings.faults_faultIf (test : Bool) (anchor : Token) (cause : ScopeFault) :
    (faultIf test anchor cause).faults = [] ↔ test = false := by
  cases test <;> simp [faultIf, fault, nothing]

@[simp] theorem Findings.faults_fault (anchor : Token) (cause : ScopeFault) : (fault anchor cause).faults ≠ [] := by
  simp [fault]

theorem Findings.mem_distances_occurrence {scopes : Scopes} {label : Label} {name : Token} {p : Label × Nat} :
    p ∈ (occurrence scopes label name).distances ↔ label = p.1 ∧ scopes.distance? name.lexeme = some p.2 := by
  obtain ⟨l, d⟩ := p
  unfold occurrence
  cases scopes.distance? name.lexeme with
  | none => simp
  | some d' =>
    simp only [List.mem_singleton, Prod.mk.injEq, Option.some.injEq]
    exact ⟨fun h => ⟨h.1.symm, h.2.symm⟩, fun h => ⟨h.1.symm, h.2.symm⟩⟩

@[simp] theorem redeclared_distances (scopes : Scopes) (name : Token) : (redeclared scopes name).distances = [] := by
  simp [redeclared]

@[simp] theorem selfInheritance_distances (name : Token) (s : Option Expr) :
    (selfInheritance name s).distances = [] := by
  unfold selfInheritance
  split
  · simp
  · rfl

@[simp] theorem resolveParams_distances (scopes : Scopes) (params : List Token) :
    (resolveParams scopes params).distances = [] := by
  induction params generalizing scopes with
  | nil => rfl
  | cons p ps ih => simp [resolveParams, ih]

/-- A pair is the distance of an occurrence among some. -/
def Occurrence.Gives (scopes : Scopes) (os : List Occurrence) (p : Label × Nat) : Prop :=
  ∃ o ∈ os, o.label = p.1 ∧ scopes.distance? o.name.lexeme = some p.2

namespace Occurrence

variable {scopes : Scopes} {os us : List Occurrence} {p : Label × Nat}

@[simp] theorem gives_nil : ¬ Gives scopes [] p := by simp [Gives]

@[simp] theorem gives_cons {o : Occurrence} :
    Gives scopes (o :: os) p ↔ (o.label = p.1 ∧ scopes.distance? o.name.lexeme = some p.2) ∨ Gives scopes os p := by
  simp [Gives]

@[simp] theorem gives_append : Gives scopes (os ++ us) p ↔ Gives scopes os p ∨ Gives scopes us p := by
  simp [Gives, or_and_right, exists_or]

end Occurrence

section

variable {place : Place} {scopes : Scopes} {p : Label × Nat}

mutual

/-- The distances in an expression are those of its occurrences. -/
theorem Expr.mem_distances (e : Expr) (hf : (e.resolve place scopes).faults = []) :
    p ∈ (e.resolve place scopes).distances ↔ Occurrence.Gives scopes e.occurrences p := by
  cases e with
  | literal v => simp [Expr.resolve, Expr.occurrences]
  | group inner => exact Expr.mem_distances inner hf
  | unary op r => exact Expr.mem_distances r hf
  | binary l op r =>
    simp only [Expr.resolve, faults_append, List.append_eq_nil_iff] at hf
    simp [Expr.resolve, Expr.occurrences, Expr.mem_distances l hf.1, Expr.mem_distances r hf.2]
  | logical l op r =>
    simp only [Expr.resolve, faults_append, List.append_eq_nil_iff] at hf
    simp [Expr.resolve, Expr.occurrences, Expr.mem_distances l hf.1, Expr.mem_distances r hf.2]
  | «variable» label name => simp [Expr.resolve, Expr.occurrences, mem_distances_occurrence]
  | assign label name v =>
    simp only [Expr.resolve, faults_append, List.append_eq_nil_iff] at hf
    simp [Expr.resolve, Expr.occurrences, mem_distances_occurrence, Expr.mem_distances v hf.1, or_comm]
  | call f paren args =>
    simp only [Expr.resolve, faults_append, List.append_eq_nil_iff] at hf
    simp [Expr.resolve, Expr.occurrences, Expr.mem_distances f hf.1, Expr.mem_distancesAll args hf.2]
  | get o name => exact Expr.mem_distances o hf
  | set o name v =>
    simp only [Expr.resolve, faults_append, List.append_eq_nil_iff] at hf
    simp [Expr.resolve, Expr.occurrences, Expr.mem_distances o hf.1, Expr.mem_distances v hf.2]
  | this label keyword =>
    simp only [Expr.resolve] at hf ⊢
    split at hf
    · exact absurd hf (faults_fault _ _)
    · simp [Expr.occurrences, mem_distances_occurrence]
  | super label keyword method =>
    simp only [Expr.resolve] at hf ⊢
    split at hf
    · exact absurd hf (faults_fault _ _)
    · exact absurd hf (faults_fault _ _)
    · simp [Expr.occurrences, mem_distances_occurrence]

theorem Expr.mem_distancesAll (es : List Expr) (hf : (Expr.resolveAll place scopes es).faults = []) :
    p ∈ (Expr.resolveAll place scopes es).distances ↔ Occurrence.Gives scopes (Expr.occurrencesAll es) p := by
  cases es with
  | nil => simp [Expr.resolveAll, Expr.occurrencesAll]
  | cons e es =>
    simp only [Expr.resolveAll, faults_append, List.append_eq_nil_iff] at hf
    simp [Expr.resolveAll, Expr.occurrencesAll, Expr.mem_distances e hf.1, Expr.mem_distancesAll es hf.2]

end

end

/-- A pair is the distance of a site among some. -/
def Site.Gives (sites : List Site) (p : Label × Nat) : Prop :=
  ∃ s ∈ sites, s.label = p.1 ∧ s.distance? = some p.2

namespace Site

variable {xs ys : List Site} {p : Label × Nat} {ctx : Context} {heading : Option String} {place : Place}

@[simp] theorem gives_nil : ¬ Gives [] p := by simp [Gives]

@[simp] theorem gives_append : Gives (xs ++ ys) p ↔ Gives xs p ∨ Gives ys p := by
  simp [Gives, or_and_right, exists_or]

theorem gives_sites {e : Expr} : Gives (e.sites ctx heading) p ↔ Occurrence.Gives ctx.scopes e.occurrences p := by
  constructor
  · rintro ⟨s, hs, h⟩
    obtain ⟨o, ho, rfl⟩ := List.mem_map.1 hs
    exact ⟨o, ho, h⟩
  · rintro ⟨o, ho, h⟩
    exact ⟨_, List.mem_map_of_mem ho, h⟩

end Site

section

variable {place : Place} {ctx : Context} {heading : Option String} {p : Label × Nat}

theorem Expr.mem_distances_sites {e : Expr} (hf : (e.resolve place ctx.scopes).faults = []) :
    p ∈ (e.resolve place ctx.scopes).distances ↔ Site.Gives (e.sites ctx heading) p := by
  rw [Site.gives_sites, Expr.mem_distances e hf]

theorem Expr.mem_distancesIn {e : Option Expr} (hf : (Expr.resolveIn place ctx.scopes e).faults = []) :
    p ∈ (Expr.resolveIn place ctx.scopes e).distances ↔ Site.Gives (Expr.sitesIn ctx heading e) p := by
  cases e with
  | none => simp [Expr.resolveIn, Expr.sitesIn]
  | some e => exact Expr.mem_distances_sites hf

end

mutual

/-- The distances in a statement are those of its sites. -/
theorem Stmt.mem_distances {place : Place} {ctx : Context} {p : Label × Nat} (s : Stmt)
    (hf : (s.resolve place ctx.scopes).faults = []) :
    p ∈ (s.resolve place ctx.scopes).distances ↔ Site.Gives (s.sites ctx) p := by
  cases s with
  | expr e => exact Expr.mem_distances_sites hf
  | print keyword e => exact Expr.mem_distances_sites hf
  | varDecl name e =>
    simp only [Stmt.resolve, faults_append, List.append_eq_nil_iff, ← Context.scopes_put] at hf
    simp only [Stmt.resolve, Stmt.sites, distances_append, redeclared_distances, List.nil_append,
      ← Context.scopes_put]
    exact Expr.mem_distancesIn hf.2
  | block body =>
    simp only [Stmt.resolve, ← Context.scopes_ofBlock ctx body] at hf
    simp only [Stmt.resolve, Stmt.sites, ← Context.scopes_ofBlock ctx body]
    exact Stmt.mem_distancesAll body hf
  | ifThen c t =>
    simp only [Stmt.resolve, faults_append, List.append_eq_nil_iff] at hf
    simp only [Stmt.resolve, Stmt.sites, distances_append, List.mem_append, Site.gives_append]
    exact or_congr (Expr.mem_distances_sites hf.1) (Stmt.mem_distances t hf.2)
  | ifElse c t e =>
    simp only [Stmt.resolve, faults_append, List.append_eq_nil_iff, ← Context.scopes_after] at hf
    simp only [Stmt.resolve, Stmt.sites, distances_append, List.mem_append, Site.gives_append,
      ← Context.scopes_after]
    obtain ⟨⟨hc, ht⟩, he⟩ := hf
    exact or_congr (or_congr (Expr.mem_distances_sites hc) (Stmt.mem_distances t ht)) (Stmt.mem_distances e he)
  | loop c b i =>
    simp only [Stmt.resolve, faults_append, List.append_eq_nil_iff, ← Context.scopes_after] at hf
    simp only [Stmt.resolve, Stmt.sites, distances_append, List.mem_append, Site.gives_append,
      ← Context.scopes_after]
    obtain ⟨⟨hc, hb⟩, hi⟩ := hf
    exact or_congr (or_congr (Expr.mem_distances_sites hc) (Stmt.mem_distances b hb)) (Expr.mem_distancesIn hi)
  | funDecl d =>
    simp only [Stmt.resolve, faults_append, List.append_eq_nil_iff, ← Context.scopes_put] at hf
    simp only [Stmt.resolve, Stmt.sites, distances_append, redeclared_distances, List.nil_append,
      ← Context.scopes_put]
    exact FunctionDecl.mem_distances d hf.2
  | returnFrom keyword e =>
    simp only [Stmt.resolve, faults_append, List.append_eq_nil_iff] at hf
    simp only [Stmt.resolve, Stmt.sites, distances_append, distances_faultIf, List.nil_append]
    exact Expr.mem_distancesIn hf.2
  | classDecl name s ms =>
    simp only [Stmt.resolve, faults_append, List.append_eq_nil_iff, ← Context.scopes_put,
      ← Context.scopes_ofClass] at hf
    simp only [Stmt.resolve, Stmt.sites, distances_append, redeclared_distances, selfInheritance_distances,
      List.nil_append, List.mem_append, Site.gives_append, ← Context.scopes_put, ← Context.scopes_ofClass]
    obtain ⟨⟨-, hs⟩, hm⟩ := hf
    exact or_congr (Expr.mem_distancesIn hs) (FunctionDecl.mem_distancesAll ms hm)
  | breakLoop keyword => simp [Stmt.resolve, Stmt.sites]
  | continueLoop keyword => simp [Stmt.resolve, Stmt.sites]

theorem Stmt.mem_distancesAll {place : Place} {ctx : Context} {p : Label × Nat} (body : List Stmt)
    (hf : (Stmt.resolveAll place ctx.scopes body).faults = []) :
    p ∈ (Stmt.resolveAll place ctx.scopes body).distances ↔ Site.Gives (Stmt.sitesAll ctx body) p := by
  cases body with
  | nil => simp [Stmt.resolveAll, Stmt.sitesAll]
  | cons s rest =>
    simp only [Stmt.resolveAll, faults_append, List.append_eq_nil_iff, ← Context.scopes_after] at hf
    simp only [Stmt.resolveAll, Stmt.sitesAll, distances_append, List.mem_append, Site.gives_append,
      ← Context.scopes_after]
    exact or_congr (Stmt.mem_distances s hf.1) (Stmt.mem_distancesAll rest hf.2)

theorem FunctionDecl.mem_distances {place : Place} {ctx : Context} {p : Label × Nat} (d : FunctionDecl)
    (hf : (d.resolve place ctx.scopes).faults = []) :
    p ∈ (d.resolve place ctx.scopes).distances ↔ Site.Gives (d.sites ctx) p := by
  cases d with
  | mk name params body =>
    simp only [FunctionDecl.resolve, faults_append, List.append_eq_nil_iff,
      ← Context.scopes_ofFunction ctx params body] at hf
    simp only [FunctionDecl.resolve, FunctionDecl.sites, distances_append, resolveParams_distances, List.nil_append,
      ← Context.scopes_ofFunction ctx params body]
    exact Stmt.mem_distancesAll body hf.2

theorem FunctionDecl.mem_distancesAll {klass : ClassPlace} {ctx : Context} {p : Label × Nat} (ds : List FunctionDecl)
    (hf : (FunctionDecl.resolveMethods klass ctx.scopes ds).faults = []) :
    p ∈ (FunctionDecl.resolveMethods klass ctx.scopes ds).distances ↔ Site.Gives (FunctionDecl.sitesAll ctx ds) p := by
  cases ds with
  | nil => simp [FunctionDecl.resolveMethods, FunctionDecl.sitesAll]
  | cons d ds =>
    simp only [FunctionDecl.resolveMethods, faults_append, List.append_eq_nil_iff] at hf
    simp only [FunctionDecl.resolveMethods, FunctionDecl.sitesAll, distances_append, List.mem_append,
      Site.gives_append]
    exact or_congr (FunctionDecl.mem_distances d hf.1) (FunctionDecl.mem_distancesAll ds hf.2)

end

end ScriptLang
