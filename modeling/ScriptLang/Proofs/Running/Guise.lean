import Mathlib.Data.List.Forall2
import ScriptLang.Proofs.Running.Keeps

/-!
# Programs in another guise

Two runs are alike if they differ in nothing but lines of tokens and names of local variables.

* `Guise` — what may differ: one renaming, a relation between lines, and the labels that both runs know;
* `Mask` — seen from a place in the code, which of the scopes around it have their names renamed;
* `Expr.Like`, `Stmt.Like`, `FunctionDecl.Like` — two trees are alike under a mask: occurrences have the same labels,
  and their names are renamed if the scope that their distance leads to is;
* `View` — for each frame the mask of the code that runs in it;
* `Value.Like`, `Heap.Like` — functions in values are alike under the masks of their frames, and frames bind the same
  names up to the renaming.

Positions and tags are the same on both sides, so equality of values and the texts of values are.
-/

namespace ScriptLang

/-! ## related maps -/

/-- The keys of the second map are those of the first, renamed, in the same order, and the values are related. -/
def Assoc.Related {α : Type} (rename : String → String) (R : α → α → Prop) (m m' : Assoc String α) : Prop :=
  List.Forall₂ (fun p p' => p'.1 = rename p.1 ∧ R p.2 p'.2) m m'

namespace Assoc.Related

variable {α : Type} {rename : String → String} {R S : α → α → Prop} {m m' : Assoc String α}

theorem mono (h : Related rename R m m') (hR : ∀ a a', R a a' → S a a') : Related rename S m m' :=
  List.Forall₂.imp (fun _ _ hp => ⟨hp.1, hR _ _ hp.2⟩) h

theorem get? (h : Related rename R m m') (hr : Function.Injective rename) (k : String) :
    Option.Rel R (Assoc.get? m k) (Assoc.get? m' (rename k)) := by
  induction h with
  | nil => exact .none
  | @cons p p' rest rest' hp _ ih =>
    obtain ⟨key, a⟩ := p
    obtain ⟨key', a'⟩ := p'
    obtain ⟨rfl, ha⟩ := hp
    by_cases hk : key = k
    · simpa [Assoc.get?, hk] using Option.Rel.some ha
    · have hk' : rename key ≠ rename k := fun h => hk (hr h)
      simpa [Assoc.get?, hk, hk'] using ih

theorem set (h : Related rename R m m') (hr : Function.Injective rename) (k : String) {a a' : α} (ha : R a a') :
    Related rename R (Assoc.set m k a) (Assoc.set m' (rename k) a') := by
  induction h with
  | nil => exact .cons ⟨rfl, ha⟩ .nil
  | @cons p p' rest rest' hp hrest ih =>
    obtain ⟨key, b⟩ := p
    obtain ⟨key', b'⟩ := p'
    obtain ⟨rfl, hb⟩ := hp
    by_cases hk : key = k
    · simp only [Assoc.set, hk, if_true]
      exact .cons ⟨rfl, ha⟩ hrest
    · have hk' : rename key ≠ rename k := fun h => hk (hr h)
      simp only [Assoc.set, hk, hk', if_false]
      exact .cons ⟨rfl, hb⟩ ih

theorem setAll (h : Related rename R m m') (hr : Function.Injective rename) {pairs pairs' : List (String × α)}
    (hp : List.Forall₂ (fun p p' => p'.1 = rename p.1 ∧ R p.2 p'.2) pairs pairs') :
    Related rename R (Assoc.setAll m pairs) (Assoc.setAll m' pairs') := by
  induction hp generalizing m m' with
  | nil => exact h
  | @cons p p' _ _ hp _ ih =>
    rw [Assoc.setAll_cons, Assoc.setAll_cons, hp.1]
    exact ih (h.set hr p.1 hp.2)

end Assoc.Related

/-! ## guises -/

/-- What two runs may differ in. -/
structure Guise where
  rename : String → String
  injective : Function.Injective rename
  this : rename "this" = "this"
  super : rename "super" = "super"
  /-- A line, and what it may be on the other side. -/
  lines : Nat → Nat → Prop
  /-- The distances of labels that both sides know. -/
  distance : Label → Option Nat
  admits : Label → Prop

/-- For each distance from a place in the code, whether the names of the scope there are renamed. -/
abbrev Mask : Type := Nat → Bool

/-- Nothing is renamed. -/
def Mask.clear : Mask := fun _ => false

/-- The mask inside of one more scope. -/
def Mask.cons (b : Bool) (Γ : Mask) : Mask
  | 0 => b
  | d + 1 => Γ d

/-- Whether a name with a distance is renamed; globals are not. -/
def Mask.at (Γ : Mask) : Option Nat → Bool
  | some d => Γ d
  | none => false

/-- A name in a scope, on the other side. -/
def Guise.name (g : Guise) (b : Bool) (s : String) : String := if b then g.rename s else s

namespace Guise

variable (g : Guise)

@[simp] theorem name_false (s : String) : g.name false s = s := rfl

theorem name_injective (b : Bool) : Function.Injective (g.name b) := by
  cases b with
  | true => exact g.injective
  | false => exact fun _ _ h => h

@[simp] theorem name_this (b : Bool) : g.name b "this" = "this" := by
  cases b with
  | true => exact g.this
  | false => rfl

@[simp] theorem name_super (b : Bool) : g.name b "super" = "super" := by
  cases b with
  | true => exact g.super
  | false => rfl

end Guise

/-! ## trees -/

/-- Two tokens are alike, the first in a scope of which the names may be renamed. -/
structure Token.Like (g : Guise) (b : Bool) (t t' : Token) : Prop where
  kind : t'.kind = t.kind
  lexeme : t'.lexeme = g.name b t.lexeme
  line : g.lines t.line t'.line

/-- Two expressions are alike. -/
inductive Expr.Like (g : Guise) (Γ : Mask) : Expr → Expr → Prop
  | literal {v} : Like g Γ (.literal v) (.literal v)
  | group {x x'} : Like g Γ x x' → Like g Γ (.group x) (.group x')
  | unary {op op' x x'} : op.Like g false op' → Like g Γ x x' → Like g Γ (.unary op x) (.unary op' x')
  | binary {x x' op op' y y'} : Like g Γ x x' → op.Like g false op' → Like g Γ y y' →
      Like g Γ (.binary x op y) (.binary x' op' y')
  | logical {x x' op op' y y'} : Like g Γ x x' → op.Like g false op' → Like g Γ y y' →
      Like g Γ (.logical x op y) (.logical x' op' y')
  | variable {l name name'} : g.admits l → name.Like g (Γ.at (g.distance l)) name' →
      Like g Γ (.variable l name) (.variable l name')
  | assign {l name name' x x'} : g.admits l → name.Like g (Γ.at (g.distance l)) name' → Like g Γ x x' →
      Like g Γ (.assign l name x) (.assign l name' x')
  | call {f f' paren paren' xs xs'} : Like g Γ f f' → paren.Like g false paren' → List.Forall₂ (Like g Γ) xs xs' →
      Like g Γ (.call f paren xs) (.call f' paren' xs')
  | get {x x' name name'} : Like g Γ x x' → name.Like g false name' → Like g Γ (.get x name) (.get x' name')
  | set {x x' name name' y y'} : Like g Γ x x' → name.Like g false name' → Like g Γ y y' →
      Like g Γ (.set x name y) (.set x' name' y')
  | this {l keyword keyword'} : g.admits l → keyword.Like g (Γ.at (g.distance l)) keyword' →
      Like g Γ (.this l keyword) (.this l keyword')
  | super {l keyword keyword' name name'} : g.admits l → keyword.Like g (Γ.at (g.distance l)) keyword' →
      name.Like g false name' → Like g Γ (.super l keyword name) (.super l keyword' name')

/-- The scopes of a method: that of `this`, and that of `super` if there is a superclass. -/
def Mask.ofClass (Γ : Mask) (superclass : Option Expr) : Mask :=
  .cons false (if superclass.isSome then .cons false Γ else Γ)

mutual

/-- Two statements are alike.  Functions and classes keep their names. -/
inductive Stmt.Like (g : Guise) : Mask → Stmt → Stmt → Prop
  | expr {Γ x x'} : x.Like g Γ x' → Stmt.Like g Γ (.expr x) (.expr x')
  | print {Γ keyword keyword' x x'} : keyword.Like g false keyword' → x.Like g Γ x' →
      Stmt.Like g Γ (.print keyword x) (.print keyword' x')
  | varDecl {Γ name name' x x'} : name.Like g (Γ 0) name' → Option.Rel (Expr.Like g Γ) x x' →
      Stmt.Like g Γ (.varDecl name x) (.varDecl name' x')
  | block {Γ body body'} (b : Bool) : Stmt.LikeAll g (Γ.cons b) body body' →
      Stmt.Like g Γ (.block body) (.block body')
  | ifThen {Γ c c' t t'} : c.Like g Γ c' → Stmt.Like g Γ t t' → Stmt.Like g Γ (.ifThen c t) (.ifThen c' t')
  | ifElse {Γ c c' t t' f f'} : c.Like g Γ c' → Stmt.Like g Γ t t' → Stmt.Like g Γ f f' →
      Stmt.Like g Γ (.ifElse c t f) (.ifElse c' t' f')
  | loop {Γ c c' b b' i i'} : c.Like g Γ c' → Stmt.Like g Γ b b' → Option.Rel (Expr.Like g Γ) i i' →
      Stmt.Like g Γ (.loop c b i) (.loop c' b' i')
  | funDecl {Γ d d'} : g.name (Γ 0) d.name.lexeme = d.name.lexeme → FunctionDecl.Like g Γ d d' →
      Stmt.Like g Γ (.funDecl d) (.funDecl d')
  | returnFrom {Γ keyword keyword' x x'} : keyword.Like g false keyword' → Option.Rel (Expr.Like g Γ) x x' →
      Stmt.Like g Γ (.returnFrom keyword x) (.returnFrom keyword' x')
  | classDecl {Γ name name' x x' ms ms'} : name.Like g false name' → g.name (Γ 0) name.lexeme = name.lexeme →
      Option.Rel (Expr.Like g Γ) x x' → FunctionDecl.LikeAll g (Γ.ofClass x) ms ms' →
      Stmt.Like g Γ (.classDecl name x ms) (.classDecl name' x' ms')
  | breakLoop {Γ keyword keyword'} : keyword.Like g false keyword' →
      Stmt.Like g Γ (.breakLoop keyword) (.breakLoop keyword')
  | continueLoop {Γ keyword keyword'} : keyword.Like g false keyword' →
      Stmt.Like g Γ (.continueLoop keyword) (.continueLoop keyword')

/-- Two lists of statements are alike. -/
inductive Stmt.LikeAll (g : Guise) : Mask → List Stmt → List Stmt → Prop
  | nil {Γ} : Stmt.LikeAll g Γ [] []
  | cons {Γ s s' rest rest'} : Stmt.Like g Γ s s' → Stmt.LikeAll g Γ rest rest' →
      Stmt.LikeAll g Γ (s :: rest) (s' :: rest')

/-- Two functions are alike. -/
inductive FunctionDecl.Like (g : Guise) : Mask → FunctionDecl → FunctionDecl → Prop
  | mk {Γ name name' params params' body body'} (b : Bool) : name.Like g false name' →
      List.Forall₂ (Token.Like g b) params params' → Stmt.LikeAll g (Γ.cons b) body body' →
      FunctionDecl.Like g Γ (.mk name params body) (.mk name' params' body')

/-- Two lists of functions are alike. -/
inductive FunctionDecl.LikeAll (g : Guise) : Mask → List FunctionDecl → List FunctionDecl → Prop
  | nil {Γ} : FunctionDecl.LikeAll g Γ [] []
  | cons {Γ d d' ds ds'} : FunctionDecl.Like g Γ d d' → FunctionDecl.LikeAll g Γ ds ds' →
      FunctionDecl.LikeAll g Γ (d :: ds) (d' :: ds')

end

theorem FunctionDecl.Like.name {g : Guise} {Γ : Mask} {d d' : FunctionDecl} (h : d.Like g Γ d') :
    d.name.Like g false d'.name := by
  cases h with
  | mk b hname _ _ => exact hname

/-! ## values -/

/-- Two classes are alike if their methods are related. -/
inductive Class.Alike (M : Closure → Closure → Prop) : Class → Class → Prop
  | base {t n ms ms'} : Assoc.Related id M ms ms' → Alike M (.mk t n none ms) (.mk t n none ms')
  | derived {t n p p' ms ms'} : Alike M p p' → Assoc.Related id M ms ms' →
      Alike M (.mk t n (some p) ms) (.mk t n (some p') ms')

/-- Two values are alike if the functions in them, and the methods, are related. -/
inductive Value.Alike (F M : Closure → Closure → Prop) : Value → Value → Prop
  | number {x} : Alike F M (.number x) (.number x)
  | string {s} : Alike F M (.string s) (.string s)
  | bool {b} : Alike F M (.bool b) (.bool b)
  | nil : Alike F M .nil .nil
  | function {t c c'} : F c c' → Alike F M (.function t c) (.function t c')
  | builtin {t b} : Alike F M (.builtin t b) (.builtin t b)
  | klass {c c'} : Class.Alike M c c' → Alike F M (.klass c) (.klass c')
  | object {o c c'} : Class.Alike M c c' → Alike F M (.object o c) (.object o c')

section

variable {F F' M M' : Closure → Closure → Prop} {c c' : Class} {v v' u u' : Value}

namespace Class.Alike

theorem mono (h : c.Alike M c') (hM : ∀ m m', M m m' → M' m m') : c.Alike M' c' := by
  induction h with
  | base hms => exact .base (hms.mono hM)
  | derived _ hms ih => exact .derived ih (hms.mono hM)

theorem tag (h : c.Alike M c') : c'.tag = c.tag := by cases h <;> rfl

theorem name (h : c.Alike M c') : c'.name = c.name := by cases h <;> rfl

theorem method? (h : c.Alike M c') (name : String) : Option.Rel M (c.method? name) (c'.method? name) := by
  induction h with
  | base hms => exact hms.get? Function.injective_id name
  | @derived t n p p' ms ms' _ hms ih =>
    have hget : Option.Rel M (Assoc.get? ms name) (Assoc.get? ms' name) := hms.get? Function.injective_id name
    unfold Class.method?
    revert hget
    cases Assoc.get? ms name <;> cases Assoc.get? ms' name <;> intro hget <;> cases hget
    · exact ih
    · exact .some ‹_›

end Class.Alike

namespace Value.Alike

theorem mono (h : v.Alike F M v') (hF : ∀ c c', F c c' → F' c c') (hM : ∀ m m', M m m' → M' m m') :
    v.Alike F' M' v' := by
  cases h with
  | number => exact .number
  | string => exact .string
  | bool => exact .bool
  | nil => exact .nil
  | function hc => exact .function (hF _ _ hc)
  | builtin => exact .builtin
  | klass hc => exact .klass (hc.mono hM)
  | object hc => exact .object (hc.mono hM)

theorem truthy (h : v.Alike F M v') : v'.truthy = v.truthy := by cases h <;> rfl

theorem typeName (h : v.Alike F M v') : v'.typeName = v.typeName := by cases h <;> rfl

theorem display (h : v.Alike F M v') (hF : ∀ c c', F c c' → c'.name = c.name) : v'.display = v.display := by
  cases h with
  | function hc => simp [Value.display, hF _ _ hc]
  | klass hc => exact hc.name
  | object hc => simp [Value.display, hc.name]
  | _ => rfl

theorem equals (h : v.Alike F M v') (hu : u.Alike F M u') : v'.equals u' = v.equals u := by
  cases h <;> cases hu <;> first | rfl | skip
  case klass.klass hc _ _ hd => simp only [Value.equals, hc.tag, hd.tag]

end Value.Alike

theorem Value.Plain.alike (h : v.Plain) : v.Alike F M v := by
  cases v with
  | number x => exact .number
  | string s => exact .string
  | bool b => exact .bool
  | nil => exact .nil
  | builtin t b => exact .builtin
  | function t c => exact h.elim
  | klass c => exact h.elim
  | object o c => exact h.elim

/-- Operators look at nothing in which alike values differ. -/
theorem Value.Alike.applyUnary (h : v.Alike F M v') (k : Kind) : applyUnary k v' = applyUnary k v := by
  unfold ScriptLang.applyUnary
  rw [h.truthy]
  cases h <;> rfl

theorem Value.Alike.applyBinary (h : v.Alike F M v') (hu : u.Alike F M u') (k : Kind) :
    applyBinary k v' u' = applyBinary k v u := by
  unfold ScriptLang.applyBinary
  rw [h.equals hu]
  cases h <;> cases hu <;> rfl

end

end ScriptLang
