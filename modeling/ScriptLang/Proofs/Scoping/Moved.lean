import ScriptLang.Proofs.Parsing.Moved
import ScriptLang.Proofs.Scoping.Site

/-!
# Scopes of programs that stand elsewhere

What the walk over a program finds does not depend on lines, and labels are only passed on (`Stmt.resolve_moved`).  The
top level has no scope, so nothing passes from one statement there to the next (`Stmt.resolveAll_append`).
-/

namespace ScriptLang

open Findings

/-- The findings for a program on other lines, with labels raised. -/
def Findings.moved (ℓ : Nat → Nat) (k : Nat) (f : Findings) : Findings where
  faults := f.faults.map fun r => ⟨r.anchor.moved ℓ, r.cause⟩
  distances := f.distances.map fun p => (p.1 + k, p.2)

section

variable {ℓ : Nat → Nat} {k : Nat} {place : Place} {scopes : Scopes}

@[simp] theorem Findings.moved_append (f g : Findings) : (f ++ g).moved ℓ k = f.moved ℓ k ++ g.moved ℓ k := by
  show Findings.mk _ _ = Findings.mk _ _
  simp [Findings.moved]

@[simp] theorem Findings.moved_fault (t : Token) (cause : ScopeFault) :
    (fault t cause).moved ℓ k = fault (t.moved ℓ) cause := rfl

@[simp] theorem Findings.moved_faultIf (test : Bool) (t : Token) (cause : ScopeFault) :
    (faultIf test t cause).moved ℓ k = faultIf test (t.moved ℓ) cause := by
  cases test <;> rfl

@[simp] theorem Findings.moved_occurrence (l : Label) (name : Token) :
    (occurrence scopes l name).moved ℓ k = occurrence scopes (l + k) (name.moved ℓ) := by
  unfold occurrence
  rw [Token.lexeme_moved]
  cases scopes.distance? name.lexeme <;> rfl

@[simp] theorem Findings.faults_moved {f : Findings} : (f.moved ℓ k).faults = [] ↔ f.faults = [] := by
  simp [Findings.moved]

mutual

theorem Expr.resolve_moved (x : Expr) : (x.moved ℓ k).resolve place scopes = (x.resolve place scopes).moved ℓ k := by
  cases x with
  | literal v => rfl
  | group x => exact Expr.resolve_moved x
  | unary op x => exact Expr.resolve_moved x
  | binary x op y =>
    simp only [Expr.moved, Expr.resolve, moved_append]
    rw [Expr.resolve_moved x, Expr.resolve_moved y]
  | logical x op y =>
    simp only [Expr.moved, Expr.resolve, moved_append]
    rw [Expr.resolve_moved x, Expr.resolve_moved y]
  | «variable» l name => simp [Expr.moved, Expr.resolve]
  | assign l name x =>
    simp only [Expr.moved, Expr.resolve, moved_append, moved_occurrence]
    rw [Expr.resolve_moved x]
  | call f paren xs =>
    simp only [Expr.moved, Expr.resolve, moved_append]
    rw [Expr.resolve_moved f, Expr.resolveAll_moved xs]
  | get x name => exact Expr.resolve_moved x
  | set x name y =>
    simp only [Expr.moved, Expr.resolve, moved_append]
    rw [Expr.resolve_moved x, Expr.resolve_moved y]
  | this l keyword =>
    simp only [Expr.moved, Expr.resolve]
    cases place.klass <;> simp
  | super l keyword name =>
    simp only [Expr.moved, Expr.resolve]
    cases place.klass <;> simp

theorem Expr.resolveAll_moved (xs : List Expr) :
    Expr.resolveAll place scopes (Expr.movedAll ℓ k xs) = (Expr.resolveAll place scopes xs).moved ℓ k := by
  cases xs with
  | nil => rfl
  | cons x xs =>
    simp only [Expr.movedAll, Expr.resolveAll, moved_append]
    rw [Expr.resolve_moved x, Expr.resolveAll_moved xs]

end

theorem Expr.resolveIn_moved (x : Option Expr) :
    Expr.resolveIn place scopes (x.map (Expr.moved ℓ k)) = (Expr.resolveIn place scopes x).moved ℓ k := by
  cases x with
  | none => rfl
  | some x => exact Expr.resolve_moved x

@[simp] theorem redeclared_moved (name : Token) :
    redeclared scopes (name.moved ℓ) = (redeclared scopes name).moved ℓ k := by
  simp [redeclared]

theorem resolveParams_moved (params : List Token) :
    resolveParams scopes (params.map (Token.moved ℓ)) = (resolveParams scopes params).moved ℓ k := by
  induction params generalizing scopes with
  | nil => rfl
  | cons p ps ih =>
    simp only [List.map_cons, resolveParams, moved_append, Token.lexeme_moved]
    rw [redeclared_moved, ih]

theorem selfInheritance_moved (name : Token) (s : Option Expr) :
    selfInheritance (name.moved ℓ) (s.map (Expr.moved ℓ k)) = (selfInheritance name s).moved ℓ k := by
  cases s with
  | none => rfl
  | some x =>
    cases x with
    | «variable» l other =>
      simp only [selfInheritance, moved_faultIf]
      rfl
    | _ => rfl

theorem Scopes.declareAll_moved (names : List Token) :
    scopes.declareAll (names.map (Token.moved ℓ)) = scopes.declareAll names := by
  unfold Scopes.declareAll
  rw [List.foldl_map]
  rfl

theorem Stmt.declared_moved (s : Stmt) : (s.moved ℓ k).declared = s.declared.map (Token.moved ℓ) := by
  cases s with
  | funDecl d =>
    cases d
    rfl
  | ifThen c t => exact Stmt.declared_moved t
  | ifElse c t e =>
    simp only [Stmt.moved, Stmt.declared, List.map_append]
    rw [Stmt.declared_moved t, Stmt.declared_moved e]
  | loop c b i => exact Stmt.declared_moved b
  | _ => rfl

@[simp] theorem Scopes.after_moved (s : Stmt) : scopes.after (s.moved ℓ k) = scopes.after s := by
  unfold Scopes.after
  rw [Stmt.declared_moved, Scopes.declareAll_moved]

@[simp] theorem Scopes.ofClass_moved (s : Option Expr) :
    scopes.ofClass (s.map (Expr.moved ℓ k)) = scopes.ofClass s := by
  cases s <;> rfl

@[simp] theorem ClassPlace.of_moved (s : Option Expr) : ClassPlace.of (s.map (Expr.moved ℓ k)) = ClassPlace.of s := by
  cases s <;> rfl

end

mutual

/-- What is found in a statement on other lines. -/
theorem Stmt.resolve_moved {ℓ : Nat → Nat} {k : Nat} {place : Place} {scopes : Scopes} (s : Stmt) :
    (s.moved ℓ k).resolve place scopes = (s.resolve place scopes).moved ℓ k := by
  cases s with
  | expr x => exact Expr.resolve_moved x
  | print keyword x => exact Expr.resolve_moved x
  | varDecl name x =>
    simp only [Stmt.moved, Stmt.resolve, moved_append, Token.lexeme_moved]
    rw [redeclared_moved, Expr.resolveIn_moved]
  | block body => exact Stmt.resolveAll_moved body
  | ifThen c t =>
    simp only [Stmt.moved, Stmt.resolve, moved_append]
    rw [Expr.resolve_moved, Stmt.resolve_moved t]
  | ifElse c t e =>
    simp only [Stmt.moved, Stmt.resolve, moved_append, Scopes.after_moved]
    rw [Expr.resolve_moved, Stmt.resolve_moved t, Stmt.resolve_moved e]
  | loop c b i =>
    simp only [Stmt.moved, Stmt.resolve, moved_append, Scopes.after_moved]
    rw [Expr.resolve_moved, Stmt.resolve_moved b, Expr.resolveIn_moved]
  | funDecl d =>
    have hname : (d.moved ℓ k).name = d.name.moved ℓ := by
      cases d
      rfl
    simp only [Stmt.moved, Stmt.resolve, moved_append, hname, Token.lexeme_moved]
    rw [redeclared_moved, FunctionDecl.resolve_moved d]
  | returnFrom keyword x =>
    simp only [Stmt.moved, Stmt.resolve, moved_append, moved_faultIf, Option.isSome_map]
    rw [Expr.resolveIn_moved]
  | classDecl name s ms =>
    simp only [Stmt.moved, Stmt.resolve, moved_append, Token.lexeme_moved, ClassPlace.of_moved, Scopes.ofClass_moved]
    rw [redeclared_moved, selfInheritance_moved, Expr.resolveIn_moved, FunctionDecl.resolveMethods_moved ms]
  | breakLoop keyword => simp [Stmt.moved, Stmt.resolve]
  | continueLoop keyword => simp [Stmt.moved, Stmt.resolve]

theorem Stmt.resolveAll_moved {ℓ : Nat → Nat} {k : Nat} {place : Place} {scopes : Scopes} (body : List Stmt) :
    Stmt.resolveAll place scopes (Stmt.movedAll ℓ k body) = (Stmt.resolveAll place scopes body).moved ℓ k := by
  cases body with
  | nil => rfl
  | cons s rest =>
    simp only [Stmt.movedAll, Stmt.resolveAll, moved_append, Scopes.after_moved]
    rw [Stmt.resolve_moved s, Stmt.resolveAll_moved rest]

theorem FunctionDecl.resolve_moved {ℓ : Nat → Nat} {k : Nat} {place : Place} {scopes : Scopes} (d : FunctionDecl) :
    (d.moved ℓ k).resolve place scopes = (d.resolve place scopes).moved ℓ k := by
  cases d with
  | mk name params body =>
    simp only [FunctionDecl.moved, FunctionDecl.resolve, moved_append, Scopes.declareAll_moved]
    rw [resolveParams_moved, Stmt.resolveAll_moved body]

theorem FunctionDecl.resolveMethods_moved {ℓ : Nat → Nat} {k : Nat} {klass : ClassPlace} {scopes : Scopes}
    (ds : List FunctionDecl) : FunctionDecl.resolveMethods klass scopes (FunctionDecl.movedAll ℓ k ds) =
      (FunctionDecl.resolveMethods klass scopes ds).moved ℓ k := by
  cases ds with
  | nil => rfl
  | cons d ds =>
    have hplace : FunctionPlace.ofMethod (d.moved ℓ k) = FunctionPlace.ofMethod d := by
      cases d
      rfl
    simp only [FunctionDecl.movedAll, FunctionDecl.resolveMethods, moved_append, hplace]
    rw [FunctionDecl.resolve_moved d, FunctionDecl.resolveMethods_moved ds]

end

/-- Labels that are not raised keep their distances. -/
theorem Findings.distances_moved_zero {ℓ : Nat → Nat} (f : Findings) : (f.moved ℓ 0).distances = f.distances := by
  simp [Findings.moved]

/-! ## the top level -/

theorem Scopes.declareAll_nil (names : List Token) : Scopes.declareAll [] names = [] := by
  induction names with
  | nil => rfl
  | cons name names ih => exact ih

/-- At the top level statements are walked independently of each other. -/
theorem Stmt.resolveAll_append (place : Place) (first second : List Stmt) :
    Stmt.resolveAll place [] (first ++ second) = Stmt.resolveAll place [] first ++ Stmt.resolveAll place [] second := by
  induction first with
  | nil => rfl
  | cons s rest ih =>
    have hafter : Scopes.after [] s = [] := Scopes.declareAll_nil s.declared
    rw [List.cons_append, Stmt.resolveAll, Stmt.resolveAll, hafter, ih, Findings.append_assoc]

end ScriptLang
