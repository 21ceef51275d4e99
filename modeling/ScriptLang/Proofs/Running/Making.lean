import ScriptLang.Proofs.Running.Confined
import ScriptLang.Proofs.Running.Faults
import ScriptLang.Proofs.Running.Made

/-!
# Evaluation keeps what values are made of

The property of strings is one that literals of the program have and `+` keeps, and it is asked of the strings that
built-in functions give in this run.

* `Setting.Gives` — from a point on, a built-in function gives a string;
* `Making P σ n` — evaluation keeps the heap made of such strings, at depth `n`; `making` proves it by induction;
* `Visits.made` — so it is at every point of a run, and the task there is made of such strings as well.
-/

namespace ScriptLang

/-- From a point on, a built-in function is called and gives a string. -/
def Setting.Gives (σ : Setting) (p : Point) (raw : String) : Prop :=
  ∃ n tag b vs paren m m', Visits σ p ⟨n, .call (.builtin tag b) vs paren, m⟩ ∧
    Exec.call n σ (.builtin tag b) vs paren m = .done (.string raw) m'

/-- The strings that built-in functions give from a point on have a property. -/
def Setting.GivesOnly (σ : Setting) (P : String → Prop) (p : Point) : Prop := ∀ raw, σ.Gives p raw → P raw

theorem Setting.GivesOnly.visits {σ : Setting} {P : String → Prop} {p q : Point} (h : σ.GivesOnly P p)
    (hv : Visits σ p q) : σ.GivesOnly P q := by
  rintro raw ⟨n, tag, b, vs, paren, m, m', hq, hcall⟩
  exact h raw ⟨n, tag, b, vs, paren, m, m', hv.trans hq, hcall⟩

theorem Setting.GivesOnly.call {σ : Setting} {P : String → Prop} {p q : Point} (h : σ.GivesOnly P p)
    (hc : Calls σ p q) : σ.GivesOnly P q :=
  h.visits (.single hc)

/-- What a run takes for granted. -/
structure Setting.Joins (σ : Setting) (P : String → Prop) : Prop where
  hosts : ∀ f ∈ σ.hosts, Host.Tame f
  append : ∀ a b, P a → P b → P (a ++ b)

/-- What a task is made of. -/
def Task.Made (P : String → Prop) (count : Nat) : Task → Prop
  | .eval _ x => ∀ raw ∈ x.strings, P raw
  | .evalAll _ xs => ∀ raw ∈ Expr.stringsAll xs, P raw
  | .call callee arguments _ => callee.Made P count ∧ ∀ v ∈ arguments, v.Made P count
  | .invoke c arguments => c.Spells P ∧ ∀ v ∈ arguments, v.Made P count
  | .exec _ s => ∀ raw ∈ s.strings, P raw
  | .execAll _ body => ∀ raw ∈ Stmt.stringsAll body, P raw
  | .loop _ c b i => ∀ raw ∈ (Stmt.loop c b i).strings, P raw
  | .program body => ∀ raw ∈ Stmt.stringsAll body, P raw

/-- The heap and the task at a point are made of such strings and of objects that there are. -/
def Point.Made (P : String → Prop) (p : Point) : Prop :=
  p.machine.heap.MadeOf P ∧ p.task.Made P p.machine.heap.objects.size

/-- All functions of the recursion keep what values are made of, at one depth. -/
structure Making (P : String → Prop) (σ : Setting) (n : Nat) : Prop where
  eval : ∀ {m e x}, Point.Made P ⟨n, .eval e x, m⟩ → σ.GivesOnly P ⟨n, .eval e x, m⟩ →
    (Exec.eval n σ e x m).Makes P m.heap.objects.size fun k v => v.Made P k
  evalAll : ∀ {m e xs}, Point.Made P ⟨n, .evalAll e xs, m⟩ → σ.GivesOnly P ⟨n, .evalAll e xs, m⟩ →
    (Exec.evalAll n σ e xs m).Makes P m.heap.objects.size fun k vs => ∀ v ∈ vs, v.Made P k
  call : ∀ {m f vs paren}, Point.Made P ⟨n, .call f vs paren, m⟩ → σ.GivesOnly P ⟨n, .call f vs paren, m⟩ →
    (Exec.call n σ f vs paren m).Makes P m.heap.objects.size fun k v => v.Made P k
  invoke : ∀ {m c vs}, Point.Made P ⟨n, .invoke c vs, m⟩ → σ.GivesOnly P ⟨n, .invoke c vs, m⟩ →
    (Exec.invoke n σ c vs m).Makes P m.heap.objects.size fun k v => v.Made P k
  exec : ∀ {m e s}, Point.Made P ⟨n, .exec e s, m⟩ → σ.GivesOnly P ⟨n, .exec e s, m⟩ →
    (Exec.exec n σ e s m).Makes P m.heap.objects.size fun k flow => flow.result.Made P k
  execAll : ∀ {m e body}, Point.Made P ⟨n, .execAll e body, m⟩ → σ.GivesOnly P ⟨n, .execAll e body, m⟩ →
    (Exec.execAll n σ e body m).Makes P m.heap.objects.size fun k flow => flow.result.Made P k
  loop : ∀ {m e c b i}, Point.Made P ⟨n, .loop e c b i, m⟩ → σ.GivesOnly P ⟨n, .loop e c b i, m⟩ →
    (Exec.loop n σ e c b i m).Makes P m.heap.objects.size fun k flow => flow.result.Made P k

section

variable {P : String → Prop} {count : Nat}

/-! ## operators -/

theorem made_ofLiteral {l : Literal} (h : ∀ raw ∈ l.strings, P raw) : (Value.ofLiteral l).Made P count := by
  cases l with
  | string raw => exact h raw (List.mem_singleton.2 rfl)
  | _ => trivial

theorem made_applyUnary {k : Kind} {v u : Value} (h : applyUnary k v = .ok u) : u.Made P count := by
  refine (plain_applyUnary h).made ?_
  rintro raw rfl
  unfold applyUnary at h
  split at h
  · split at h <;> cases h
  · cases h
  · cases h

/-- A string that an operator gives is two strings put together. -/
theorem made_applyBinary (hP : ∀ a b, P a → P b → P (a ++ b)) {k : Kind} {v u x : Value} (hv : v.Made P count)
    (hu : u.Made P count) (h : applyBinary k v u = .ok x) : x.Made P count := by
  refine (plain_applyBinary h).made ?_
  rintro raw rfl
  unfold applyBinary at h
  split at h
  · cases h
  · cases h
  · unfold applyPlus at h
    split at h <;> cases h
    exact hP _ _ hv hu
  · split at h
    · unfold applyArithmetic at h
      split at h <;> cases h
    · cases h

end

namespace Making

open Exec

variable {P : String → Prop} {σ : Setting} {n : Nat} {m : Machine} {e : FrameRef}

theorem makes_eval (ih : Making P σ n) (hσ : σ.Joins P) {x : Expr} (hp : Point.Made P ⟨n + 1, .eval e x, m⟩)
    (hg : σ.GivesOnly P ⟨n + 1, .eval e x, m⟩) :
    (Exec.eval (n + 1) σ e x m).Makes P m.heap.objects.size fun k v => v.Made P k := by
  obtain ⟨hm, hx⟩ := hp
  cases x with
  | literal l =>
    simp only [Exec.eval]
    exact makes_pure hm (made_ofLiteral hx)
  | group inner =>
    simp only [Exec.eval]
    exact ih.eval ⟨hm, hx⟩ (hg.call .group)
  | unary op right =>
    simp only [Exec.eval]
    refine makes_bind (ih.eval ⟨hm, hx⟩ (hg.call .operand)) fun v m₁ _ _ hm₁ _ => ?_
    exact makes_ofResult hm₁ fun u hu => made_applyUnary hu
  | binary left op right =>
    obtain ⟨hl, hr⟩ := List.forall_mem_append.1 hx
    simp only [Exec.eval]
    refine makes_bind (ih.eval ⟨hm, hl⟩ (hg.call .binaryLeft)) fun v m₁ hv _ hm₁ hmade => ?_
    refine makes_bind (ih.eval ⟨hm₁, hr⟩ (hg.call (.binaryRight hv))) fun u m₂ _ hle₂ hm₂ hmade₂ => ?_
    exact makes_ofResult hm₂ fun y hy => made_applyBinary hσ.append (hmade.mono hle₂) hmade₂ hy
  | logical left op right =>
    obtain ⟨hl, hr⟩ := List.forall_mem_append.1 hx
    simp only [Exec.eval]
    refine makes_bind (ih.eval ⟨hm, hl⟩ (hg.call .logicalLeft)) fun v m₁ hv _ hm₁ hmade => ?_
    cases hd : decides op.kind v with
    | true =>
      simp only [if_true]
      exact makes_pure hm₁ hmade
    | false =>
      simp only [Bool.false_eq_true, if_false]
      exact ih.eval ⟨hm₁, hr⟩ (hg.call (.logicalRight hv hd))
  | «variable» label name =>
    simp only [Exec.eval]
    exact makes_readName hm
  | assign label name value =>
    simp only [Exec.eval]
    refine makes_bind (ih.eval ⟨hm, hx⟩ (hg.call .assigned)) fun v m₁ _ _ hm₁ hmade => ?_
    refine makes_bind (makes_writeName hm₁ hmade) fun _ m₂ _ _ hm₂ hmade₂ => ?_
    exact makes_pure hm₂ hmade₂
  | call callee paren arguments =>
    obtain ⟨hf, ha⟩ := List.forall_mem_append.1 hx
    simp only [Exec.eval]
    refine makes_bind (ih.eval ⟨hm, hf⟩ (hg.call .callee)) fun f m₁ hv _ hm₁ hf₁ => ?_
    refine makes_bind (ih.evalAll ⟨hm₁, ha⟩ (hg.call (.arguments hv))) fun vs m₂ hvs hle₂ hm₂ hmade => ?_
    exact ih.call ⟨hm₂, hf₁.mono hle₂, hmade⟩ (hg.call (.called hv hvs))
  | get object name =>
    simp only [Exec.eval]
    refine makes_bind (ih.eval ⟨hm, hx⟩ (hg.call .getObject)) fun v m₁ _ _ hm₁ hmade => ?_
    cases v with
    | object o c => exact makes_getProperty hm₁ hmade
    | _ => exact makes_fail hm₁
  | set object name value =>
    obtain ⟨ho, hv⟩ := List.forall_mem_append.1 hx
    simp only [Exec.eval]
    refine makes_bind (ih.eval ⟨hm, ho⟩ (hg.call .setObject)) fun v m₁ hobject _ hm₁ _ => ?_
    cases v with
    | object o c =>
      refine makes_bind (ih.eval ⟨hm₁, hv⟩ (hg.call (.setValue hobject))) fun u m₂ _ _ hm₂ hmade => ?_
      refine makes_bind (makes_setField hm₂ hmade) fun _ m₃ _ _ hm₃ hmade₃ => ?_
      exact makes_pure hm₃ hmade₃
    | _ => exact makes_fail hm₁
  | this label keyword =>
    simp only [Exec.eval]
    exact makes_readName hm
  | super label keyword name =>
    simp only [Exec.eval]
    exact makes_getSuper hm

theorem makes_evalAll (ih : Making P σ n) {xs : List Expr} (hp : Point.Made P ⟨n + 1, .evalAll e xs, m⟩)
    (hg : σ.GivesOnly P ⟨n + 1, .evalAll e xs, m⟩) :
    (Exec.evalAll (n + 1) σ e xs m).Makes P m.heap.objects.size fun k vs => ∀ v ∈ vs, v.Made P k := by
  obtain ⟨hm, hxs⟩ := hp
  cases xs with
  | nil =>
    simp only [Exec.evalAll]
    exact makes_pure hm (by simp)
  | cons x xs =>
    obtain ⟨hx, hxs⟩ := List.forall_mem_append.1 hxs
    simp only [Exec.evalAll]
    refine makes_bind (ih.eval ⟨hm, hx⟩ (hg.call .firstArgument)) fun v m₁ hv _ hm₁ hmade => ?_
    refine makes_bind (ih.evalAll ⟨hm₁, hxs⟩ (hg.call (.otherArguments hv))) fun vs m₂ _ hle₂ hm₂ hvs => ?_
    exact makes_pure hm₂ (List.forall_mem_cons.2 ⟨hmade.mono hle₂, hvs⟩)

theorem makes_call (ih : Making P σ n) (hσ : σ.Joins P) {f : Value} {vs : List Value} {paren : Token}
    (hp : Point.Made P ⟨n + 1, .call f vs paren, m⟩) (hg : σ.GivesOnly P ⟨n + 1, .call f vs paren, m⟩) :
    (Exec.call (n + 1) σ f vs paren m).Makes P m.heap.objects.size fun k v => v.Made P k := by
  obtain ⟨hm, hf, hvs⟩ := hp
  cases f with
  | function tag c =>
    simp only [Exec.call]
    refine makes_bind (makes_checkArity hm) fun _ m₁ hcheck _ _ _ => ?_
    obtain ⟨hl, rfl⟩ := length_of_checkArity hcheck
    exact ih.invoke ⟨hm, hf, hvs⟩ (hg.call (.function hl))
  | builtin tag b =>
    have hstring : ∀ raw m', Exec.call (n + 1) σ (.builtin tag b) vs paren m = .done (.string raw) m' → P raw :=
      fun raw m' h => hg raw ⟨_, _, _, _, _, _, m', .refl, h⟩
    simp only [Exec.call] at hstring ⊢
    refine makes_bind (makes_checkArity hm) fun _ m₁ hcheck _ _ _ => ?_
    obtain ⟨hl, rfl⟩ := length_of_checkArity hcheck
    refine makes_runBuiltin hm hσ.hosts hvs fun raw m' h => hstring raw m' ?_
    show andThen _ _ m₁ = _
    rw [andThen, hcheck]
    exact h
  | klass c =>
    simp only [Exec.call]
    refine makes_bind (makes_checkArity hm) fun _ m₁ hcheck _ _ _ => ?_
    obtain ⟨hl, rfl⟩ := length_of_checkArity hcheck
    refine makes_bind (makes_newObject hm hf) fun this m₂ hnew hle₂ hm₂ hthis => ?_
    obtain ⟨rfl, hmade⟩ := hthis
    cases hmethod : c.method? FunctionDecl.initName with
    | none => exact makes_pure hm₂ hmade
    | some initializer =>
      refine makes_bind (makes_bindThis hm₂ (Class.Every.method hmade.2.1 hmethod) hmade)
        fun bound m₃ hbind hle₃ hm₃ hbound => ?_
      have hvs₃ : ∀ v ∈ vs, v.Made P m₃.heap.objects.size := fun v hv => (hvs v hv).mono (Nat.le_trans hle₂ hle₃)
      refine makes_bind (ih.invoke ⟨hm₃, hbound.2, hvs₃⟩ (hg.call (.initializer hl hnew hmethod hbind)))
        fun _ m₄ _ hle₄ hm₄ _ => ?_
      exact makes_pure hm₄ (hmade.mono (Nat.le_trans hle₃ hle₄))
  | _ =>
    simp only [Exec.call]
    exact makes_fail hm

theorem makes_invoke (ih : Making P σ n) {c : Closure} {vs : List Value} (hp : Point.Made P ⟨n + 1, .invoke c vs, m⟩)
    (hg : σ.GivesOnly P ⟨n + 1, .invoke c vs, m⟩) :
    (Exec.invoke (n + 1) σ c vs m).Makes P m.heap.objects.size fun k v => v.Made P k := by
  obtain ⟨hm, hc, hvs⟩ := hp
  simp only [Exec.invoke]
  refine makes_bind (makes_callFrame hm hvs) fun e m₁ hframe _ hm₁ _ => ?_
  have hbody : ∀ raw ∈ Stmt.stringsAll c.declaration.body, P raw := by
    obtain ⟨⟨name, params, body⟩, frame, init⟩ := c
    exact hc
  refine makes_bind (ih.execAll ⟨hm₁, hbody⟩ (hg.call (.body hframe))) fun flow m₂ _ _ hm₂ hflow => ?_
  exact makes_callResult hm₂ hflow

theorem makes_exec (ih : Making P σ n) {s : Stmt} (hp : Point.Made P ⟨n + 1, .exec e s, m⟩)
    (hg : σ.GivesOnly P ⟨n + 1, .exec e s, m⟩) :
    (Exec.exec (n + 1) σ e s m).Makes P m.heap.objects.size fun k flow => flow.result.Made P k := by
  obtain ⟨hm, hs⟩ := hp
  cases s with
  | expr x =>
    simp only [Exec.exec]
    refine makes_bind (ih.eval ⟨hm, hs⟩ (hg.call .expression)) fun v m₁ _ _ hm₁ _ => ?_
    exact makes_pure hm₁ trivial
  | print keyword x =>
    simp only [Exec.exec]
    refine makes_bind (ih.eval ⟨hm, hs⟩ (hg.call .printed)) fun v m₁ _ _ hm₁ _ => ?_
    refine makes_bind (makes_print hm₁) fun _ m₂ _ _ hm₂ _ => ?_
    exact makes_pure hm₂ trivial
  | varDecl name x =>
    cases x with
    | none =>
      simp only [Exec.exec]
      refine makes_bind (makes_define hm (v := .nil) trivial) fun _ m₁ _ _ hm₁ _ => ?_
      exact makes_pure hm₁ trivial
    | some x =>
      simp only [Exec.exec]
      refine makes_bind (ih.eval ⟨hm, hs⟩ (hg.call .initialValue)) fun v m₁ _ _ hm₁ hv => ?_
      refine makes_bind (makes_define hm₁ hv) fun _ m₂ _ _ hm₂ _ => ?_
      exact makes_pure hm₂ trivial
  | block body =>
    simp only [Exec.exec]
    refine makes_bind (makes_newFrame hm (by simp)) fun inner m₁ hnew _ hm₁ _ => ?_
    exact ih.execAll ⟨hm₁, hs⟩ (hg.call (.block hnew))
  | ifThen c t =>
    obtain ⟨hc, ht⟩ := List.forall_mem_append.1 hs
    simp only [Exec.exec]
    refine makes_bind (ih.eval ⟨hm, hc⟩ (hg.call .ifTest)) fun v m₁ hv _ hm₁ _ => ?_
    cases htruthy : v.truthy with
    | true =>
      simp only [if_true]
      exact ih.exec ⟨hm₁, ht⟩ (hg.call (.ifBranch hv htruthy))
    | false => exact makes_pure hm₁ trivial
  | ifElse c t f =>
    obtain ⟨hc, hs⟩ := List.forall_mem_append.1 hs
    obtain ⟨ht, hf⟩ := List.forall_mem_append.1 hs
    simp only [Exec.exec]
    refine makes_bind (ih.eval ⟨hm, hc⟩ (hg.call .ifElseTest)) fun v m₁ hv _ hm₁ _ => ?_
    cases htruthy : v.truthy with
    | true =>
      simp only [if_true]
      exact ih.exec ⟨hm₁, ht⟩ (hg.call (.thenBranch hv htruthy))
    | false =>
      simp only [Bool.false_eq_true, if_false]
      exact ih.exec ⟨hm₁, hf⟩ (hg.call (.elseBranch hv htruthy))
  | loop c b i =>
    simp only [Exec.exec]
    exact ih.loop ⟨hm, hs⟩ (hg.call .loop)
  | funDecl d =>
    simp only [Exec.exec]
    refine makes_bind (makes_newTag hm) fun t m₁ _ _ hm₁ _ => ?_
    refine makes_bind (makes_define (v := .function t ⟨d, e, false⟩) hm₁ hs) fun _ m₂ _ _ hm₂ _ => ?_
    exact makes_pure hm₂ trivial
  | returnFrom keyword x =>
    cases x with
    | none =>
      simp only [Exec.exec]
      exact makes_pure hm trivial
    | some x =>
      simp only [Exec.exec]
      refine makes_bind (ih.eval ⟨hm, hs⟩ (hg.call .returned)) fun v m₁ _ _ hm₁ hv => ?_
      exact makes_pure hm₁ hv
  | classDecl name x ms =>
    obtain ⟨hx, hms⟩ := List.forall_mem_append.1 hs
    cases x with
    | none =>
      simp only [Exec.exec]
      refine makes_bind (makes_makeClass hm (by simp) hms) fun _ m₁ _ _ hm₁ _ => ?_
      exact makes_pure hm₁ trivial
    | some x =>
      simp only [Exec.exec]
      refine makes_bind (ih.eval ⟨hm, hx⟩ (hg.call .superclass)) fun v m₁ _ _ hm₁ hv => ?_
      refine makes_bind (makes_asSuperclass hm₁ hv) fun parent m₂ _ _ hm₂ hparent => ?_
      refine makes_bind (makes_makeClass hm₂ (fun c hc => Option.some.inj hc ▸ hparent) hms) fun _ m₃ _ _ hm₃ _ => ?_
      exact makes_pure hm₃ trivial
  | breakLoop keyword =>
    simp only [Exec.exec]
    exact makes_pure hm trivial
  | continueLoop keyword =>
    simp only [Exec.exec]
    exact makes_pure hm trivial

theorem makes_execAll (ih : Making P σ n) {body : List Stmt} (hp : Point.Made P ⟨n + 1, .execAll e body, m⟩)
    (hg : σ.GivesOnly P ⟨n + 1, .execAll e body, m⟩) :
    (Exec.execAll (n + 1) σ e body m).Makes P m.heap.objects.size fun k flow => flow.result.Made P k := by
  obtain ⟨hm, hb⟩ := hp
  cases body with
  | nil =>
    simp only [Exec.execAll]
    exact makes_pure hm trivial
  | cons s rest =>
    obtain ⟨hs, hrest⟩ := List.forall_mem_append.1 hb
    simp only [Exec.execAll]
    refine makes_bind (ih.exec ⟨hm, hs⟩ (hg.call .firstStatement)) fun flow m₁ hx _ hm₁ hflow => ?_
    cases flow with
    | normal => exact ih.execAll ⟨hm₁, hrest⟩ (hg.call (.otherStatements hx))
    | _ => exact makes_pure hm₁ hflow

theorem makes_loop (ih : Making P σ n) {c : Expr} {b : Stmt} {i : Option Expr}
    (hp : Point.Made P ⟨n + 1, .loop e c b i, m⟩) (hg : σ.GivesOnly P ⟨n + 1, .loop e c b i, m⟩) :
    (Exec.loop (n + 1) σ e c b i m).Makes P m.heap.objects.size fun k flow => flow.result.Made P k := by
  obtain ⟨hm, hs⟩ := hp
  obtain ⟨hc, hbi⟩ := List.forall_mem_append.1 hs
  obtain ⟨hb, hi⟩ := List.forall_mem_append.1 hbi
  rw [loop_succ]
  refine makes_bind (ih.eval ⟨hm, hc⟩ (hg.call .test)) fun v m₁ hv _ hm₁ _ => ?_
  cases ht : v.truthy with
  | false => exact makes_pure hm₁ trivial
  | true =>
    simp only [if_true]
    refine makes_bind (ih.exec ⟨hm₁, hb⟩ (hg.call (.round hv ht))) fun flow m₂ hround _ hm₂ hflow => ?_
    have hagain : flow.goesOn = true →
        (again n σ e c b i m₂).Makes P m₂.heap.objects.size fun k flow => flow.result.Made P k := by
      intro hgo
      cases i with
      | none => exact ih.loop ⟨hm₂, hs⟩ (hg.call (.again hv ht hround hgo))
      | some x =>
        refine makes_bind (ih.eval ⟨hm₂, hi⟩ (hg.call (.increment hv ht hround hgo))) fun u m₃ hu _ hm₃ _ => ?_
        exact ih.loop ⟨hm₃, hs⟩ (hg.call (.againBehindIncrement hv ht hround hgo hu))
    cases flow with
    | normal => exact hagain rfl
    | returned v => exact makes_pure hm₂ hflow
    | broken => exact makes_pure hm₂ trivial
    | continued => exact hagain rfl

end Making

section

variable {P : String → Prop} {σ : Setting}

/-- Evaluation keeps what values are made of, at every depth. -/
theorem making (hσ : σ.Joins P) (n : Nat) : Making P σ n := by
  induction n with
  | zero =>
    constructor <;> intros <;>
      simp only [Exec.eval, Exec.evalAll, Exec.call, Exec.invoke, Exec.exec, Exec.execAll, Exec.loop] <;> trivial
  | succ n ih =>
    exact ⟨ih.makes_eval hσ, ih.makes_evalAll, ih.makes_call hσ, ih.makes_invoke, ih.makes_exec, ih.makes_execAll,
      ih.makes_loop⟩

/-- A program keeps it. -/
theorem makes_program (hσ : σ.Joins P) {n : Nat} {body : List Stmt} {m : Machine}
    (hp : Point.Made P ⟨n, .program body, m⟩) (hg : σ.GivesOnly P ⟨n, .program body, m⟩) :
    (Exec.program n σ body m).Makes P m.heap.objects.size fun _ _ => True := by
  induction body generalizing m with
  | nil => exact Exec.makes_pure hp.1 trivial
  | cons s rest ih =>
    obtain ⟨hs, hrest⟩ := List.forall_mem_append.1 hp.2
    simp only [Exec.program]
    refine Exec.makes_bind ((making hσ n).exec ⟨hp.1, hs⟩ (hg.call .topStatement)) fun flow m₁ hx _ hm₁ _ => ?_
    exact ih ⟨hm₁, hrest⟩ (hg.call (.restOfProgram hx))

/-! ## every point of a run -/

open Exec

variable {p q : Point} {n : Nat} {m m₁ m₂ : Machine} {e : FrameRef} {x c : Expr} {b : Stmt} {i : Option Expr} {v : Value}

/-- Behind an expression. -/
theorem made_behind_eval (h : eval n σ e x m = .done v m₁) (hσ : σ.Joins P) (hp : Point.Made P ⟨n, .eval e x, m⟩)
    (hg : σ.GivesOnly P ⟨n, .eval e x, m⟩) :
    m.heap.objects.size ≤ m₁.heap.objects.size ∧ m₁.heap.MadeOf P ∧ v.Made P m₁.heap.objects.size := by
  have hmakes := (making hσ n).eval hp hg
  rwa [h] at hmakes

/-- Behind the body of a loop. -/
theorem made_behind_round {flow : Flow} (h : eval n σ e c m = .done v m₁) (ht : v.truthy = true)
    (hb : exec n σ e b m₁ = .done flow m₂) (hσ : σ.Joins P) (hp : Point.Made P ⟨n + 1, .loop e c b i, m⟩)
    (hg : σ.GivesOnly P ⟨n + 1, .loop e c b i, m⟩) : m₂.heap.MadeOf P := by
  obtain ⟨hc, hbi⟩ := List.forall_mem_append.1 hp.2
  obtain ⟨-, hm₁, -⟩ := made_behind_eval h hσ ⟨hp.1, hc⟩ (hg.call .test)
  have hmakes := (making hσ n).exec (m := m₁) ⟨hm₁, (List.forall_mem_append.1 hbi).1⟩ (hg.call (.round h ht))
  rw [hb] at hmakes
  exact hmakes.2.1

/-- What a task calls is made as the task is. -/
theorem Calls.made (hσ : σ.Joins P) (h : Calls σ p q) (hg : σ.GivesOnly P p) (hp : p.Made P) : q.Made P := by
  obtain ⟨hm, hr⟩ := hp
  cases h with
  | group => exact ⟨hm, hr⟩
  | operand => exact ⟨hm, hr⟩
  | binaryLeft => exact ⟨hm, (List.forall_mem_append.1 hr).1⟩
  | binaryRight hl =>
    obtain ⟨hxl, hxr⟩ := List.forall_mem_append.1 hr
    exact ⟨(made_behind_eval hl hσ ⟨hm, hxl⟩ (hg.call .binaryLeft)).2.1, hxr⟩
  | logicalLeft => exact ⟨hm, (List.forall_mem_append.1 hr).1⟩
  | logicalRight hl _ =>
    obtain ⟨hxl, hxr⟩ := List.forall_mem_append.1 hr
    exact ⟨(made_behind_eval hl hσ ⟨hm, hxl⟩ (hg.call .logicalLeft)).2.1, hxr⟩
  | assigned => exact ⟨hm, hr⟩
  | callee => exact ⟨hm, (List.forall_mem_append.1 hr).1⟩
  | arguments hf =>
    obtain ⟨hxf, hxs⟩ := List.forall_mem_append.1 hr
    exact ⟨(made_behind_eval hf hσ ⟨hm, hxf⟩ (hg.call .callee)).2.1, hxs⟩
  | @called n _ _ _ _ _ _ _ _ _ hf hvs =>
    obtain ⟨hxf, hxs⟩ := List.forall_mem_append.1 hr
    obtain ⟨-, hm₁, hv⟩ := made_behind_eval hf hσ ⟨hm, hxf⟩ (hg.call .callee)
    have hmakes := (making hσ n).evalAll ⟨hm₁, hxs⟩ (hg.call (.arguments hf))
    rw [hvs] at hmakes
    exact ⟨hmakes.2.1, hv.mono hmakes.1, hmakes.2.2⟩
  | getObject => exact ⟨hm, hr⟩
  | setObject => exact ⟨hm, (List.forall_mem_append.1 hr).1⟩
  | setValue ho =>
    obtain ⟨hxo, hxv⟩ := List.forall_mem_append.1 hr
    exact ⟨(made_behind_eval ho hσ ⟨hm, hxo⟩ (hg.call .setObject)).2.1, hxv⟩
  | firstArgument => exact ⟨hm, (List.forall_mem_append.1 hr).1⟩
  | otherArguments hv =>
    obtain ⟨hx, hxs⟩ := List.forall_mem_append.1 hr
    exact ⟨(made_behind_eval hv hσ ⟨hm, hx⟩ (hg.call .firstArgument)).2.1, hxs⟩
  | function hl => exact ⟨hm, hr⟩
  | initializer hl hnew hmethod hbind =>
    obtain ⟨hc, hvs⟩ := hr
    have hobject := makes_newObject hm hc
    rw [hnew] at hobject
    obtain ⟨hle, hm₁, rfl, hmade⟩ := hobject
    have hbound := makes_bindThis hm₁ (Class.Every.method hmade.2.1 hmethod) hmade
    rw [hbind] at hbound
    exact ⟨hbound.2.1, hbound.2.2.2, fun v hv => (hvs v hv).mono (Nat.le_trans hle hbound.1)⟩
  | @body n c vs _ _ _ hframe =>
    obtain ⟨hc, hvs⟩ := hr
    have hmakes := makes_callFrame hm (c := c) hvs
    rw [hframe] at hmakes
    obtain ⟨⟨name, params, body⟩, frame, init⟩ := c
    exact ⟨hmakes.2.1, hc⟩
  | expression => exact ⟨hm, hr⟩
  | printed => exact ⟨hm, hr⟩
  | initialValue => exact ⟨hm, hr⟩
  | @block _ e _ _ _ _ hnew =>
    have hmakes := makes_newFrame hm (e := e) (b := []) (by simp)
    rw [hnew] at hmakes
    exact ⟨hmakes.2.1, hr⟩
  | ifTest => exact ⟨hm, (List.forall_mem_append.1 hr).1⟩
  | ifBranch hv _ =>
    obtain ⟨hc, ht⟩ := List.forall_mem_append.1 hr
    exact ⟨(made_behind_eval hv hσ ⟨hm, hc⟩ (hg.call .ifTest)).2.1, ht⟩
  | ifElseTest => exact ⟨hm, (List.forall_mem_append.1 hr).1⟩
  | thenBranch hv _ =>
    obtain ⟨hc, hrest⟩ := List.forall_mem_append.1 hr
    exact ⟨(made_behind_eval hv hσ ⟨hm, hc⟩ (hg.call .ifElseTest)).2.1, (List.forall_mem_append.1 hrest).1⟩
  | elseBranch hv _ =>
    obtain ⟨hc, hrest⟩ := List.forall_mem_append.1 hr
    exact ⟨(made_behind_eval hv hσ ⟨hm, hc⟩ (hg.call .ifElseTest)).2.1, (List.forall_mem_append.1 hrest).2⟩
  | loop => exact ⟨hm, hr⟩
  | returned => exact ⟨hm, hr⟩
  | superclass => exact ⟨hm, (List.forall_mem_append.1 hr).1⟩
  | firstStatement => exact ⟨hm, (List.forall_mem_append.1 hr).1⟩
  | @otherStatements n _ _ _ _ _ hx =>
    obtain ⟨hs, hrest⟩ := List.forall_mem_append.1 hr
    have hmakes := (making hσ n).exec ⟨hm, hs⟩ (hg.call .firstStatement)
    rw [hx] at hmakes
    exact ⟨hmakes.2.1, hrest⟩
  | test => exact ⟨hm, (List.forall_mem_append.1 hr).1⟩
  | round hv _ =>
    obtain ⟨hc, hbi⟩ := List.forall_mem_append.1 hr
    exact ⟨(made_behind_eval hv hσ ⟨hm, hc⟩ (hg.call .test)).2.1, (List.forall_mem_append.1 hbi).1⟩
  | increment hv ht hb _ =>
    have hi := (List.forall_mem_append.1 (List.forall_mem_append.1 hr).2).2
    exact ⟨made_behind_round hv ht hb hσ ⟨hm, hr⟩ hg, hi⟩
  | again hv ht hb _ => exact ⟨made_behind_round hv ht hb hσ ⟨hm, hr⟩ hg, hr⟩
  | againBehindIncrement hv ht hb hgo hu =>
    have hi := (List.forall_mem_append.1 (List.forall_mem_append.1 hr).2).2
    have hm₂ := made_behind_round hv ht hb hσ ⟨hm, hr⟩ hg
    exact ⟨(made_behind_eval hu hσ ⟨hm₂, hi⟩ (hg.call (.increment hv ht hb hgo))).2.1, hr⟩
  | topStatement => exact ⟨hm, (List.forall_mem_append.1 hr).1⟩
  | @restOfProgram n _ _ _ _ _ hx =>
    obtain ⟨hs, hrest⟩ := List.forall_mem_append.1 hr
    have hmakes := (making hσ n).exec ⟨hm, hs⟩ (hg.call .topStatement)
    rw [hx] at hmakes
    exact ⟨hmakes.2.1, hrest⟩

/-- Every point of a run is made as its start is. -/
theorem Visits.made (hσ : σ.Joins P) (h : Visits σ p q) (hg : σ.GivesOnly P p) (hp : p.Made P) : q.Made P := by
  induction h with
  | refl => exact hp
  | tail hv hcall ih => exact hcall.made hσ (hg.visits hv) ih

end

end ScriptLang
