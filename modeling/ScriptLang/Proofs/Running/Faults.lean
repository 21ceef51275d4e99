import ScriptLang.Proofs.Running.Visits

/-!
# Where undefined names are reported

A run ends with the fault that a name is undefined only because some node that refers to a binding raised it, and that
node was visited (`exists_raises_of_fails`).  Everything else in the recursion is clear of this fault.
-/

namespace ScriptLang

/-- The fault that a name is undefined. -/
def Fault.isUndefined : Fault → Bool
  | .runtime ⟨_, .undefinedVariable _⟩ => true
  | _ => false

namespace Exec

variable {α β : Type} {m m' : Machine} {fault : Fault}

/-- A sequence fails in its first part or in its second. -/
theorem bind_failed {x : Exec α} {f : α → Exec β} (h : (x >>= f) m = .failed fault m') :
    x m = .failed fault m' ∨ ∃ a m₁, x m = .done a m₁ ∧ f a m₁ = .failed fault m' := by
  have h' : andThen x f m = .failed fault m' := h
  unfold andThen at h'
  cases hx : x m with
  | done a m₁ =>
    rw [hx] at h'
    exact .inr ⟨a, m₁, rfl, h'⟩
  | failed fault' m₁ =>
    rw [hx] at h'
    cases h'
    exact .inl rfl
  | outOfFuel =>
    rw [hx] at h'
    cases h'

/-! ## computations that never report an undefined name -/

/-- A computation does not fail with an undefined name. -/
def Clear (x : Exec α) : Prop := ∀ m fault m', x m = .failed fault m' → fault.isUndefined = false

theorem Clear.not_failed {x : Exec α} (hx : x.Clear) (hu : fault.isUndefined = true) : x m ≠ .failed fault m' := by
  intro h
  rw [hx m fault m' h] at hu
  cases hu

theorem clear_pure (a : α) : (pure a : Exec α).Clear := by
  intro m fault m' h
  cases h

theorem Clear.bind {x : Exec α} {f : α → Exec β} (hx : x.Clear) (hf : ∀ a, (f a).Clear) : (x >>= f).Clear := by
  intro m fault m' h
  rcases bind_failed h with h | ⟨a, m₁, -, h⟩
  · exact hx m fault m' h
  · exact hf a m₁ fault m' h

theorem clear_fail {anchor : Token} {cause : RuntimeFault} (h : ∀ x, cause ≠ .undefinedVariable x) :
    (fail anchor cause : Exec α).Clear := by
  intro m fault m' hf
  cases hf
  cases cause with
  | undefinedVariable x => exact absurd rfl (h x)
  | _ => rfl

theorem clear_ofResult {anchor : Token} {r : Except RuntimeFault α}
    (h : ∀ x, r ≠ .error (.undefinedVariable x)) : (ofResult anchor r).Clear := by
  cases r with
  | ok a => exact clear_pure a
  | error cause => exact clear_fail fun x hx => h x (hx ▸ rfl)

theorem clear_newFrame {o : FrameRef} {b : Assoc String Value} : (newFrame o b).Clear := by
  intro m fault m' h
  cases h

theorem clear_newTag : newTag.Clear := by
  intro m fault m' h
  cases h

theorem clear_define {e : FrameRef} {name : String} {v : Value} : (define e name v).Clear := by
  intro m fault m' h
  cases h

theorem clear_bindThis {method : Closure} {this : Value} : (bindThis method this).Clear :=
  clear_newFrame.bind fun _ => clear_pure _

theorem clear_boundMethod {method : Closure} {this : Value} : (boundMethod method this).Clear :=
  clear_bindThis.bind fun _ => clear_newTag.bind fun _ => clear_pure _

theorem clear_newObject {c : Class} : (newObject c).Clear := by
  intro m fault m' h
  cases h

theorem clear_setField {o : ObjectRef} {name : String} {v : Value} : (setField o name v).Clear := by
  intro m fault m' h
  cases h

theorem clear_nameIn? {e : FrameRef} {d : Nat} {name : String} : (nameIn? e d name).Clear := by
  intro m fault m' h
  cases h

theorem clear_write {s : String} : (write s).Clear := by
  intro m fault m' h
  unfold write at h
  dsimp only at h
  split at h <;> cases h
  rfl

theorem clear_print {keyword : Token} {v : Value} : (print keyword v).Clear := by
  unfold print
  split
  · split
    · exact clear_write
    · exact clear_fail (by simp)
  · exact clear_write

theorem clear_runBuiltin {hosts : Array Host} {b : Builtin} {vs : List Value} {paren : Token} :
    (runBuiltin hosts b vs paren).Clear := by
  intro m fault m' h
  unfold runBuiltin at h
  split at h <;> cases h
  rfl

theorem clear_getProperty {o : ObjectRef} {c : Class} {name : Token} : (getProperty o c name).Clear := by
  have hfield : (field? o name.lexeme).Clear := by
    intro m fault m' h
    cases h
  refine hfield.bind fun found => ?_
  split
  · exact clear_pure _
  · split
    · exact clear_boundMethod
    · exact clear_fail (by simp)

theorem clear_checkArity {paren : Token} {expected got : Nat} : (checkArity paren expected got).Clear := by
  unfold checkArity
  split
  · exact clear_pure ()
  · exact clear_fail (by simp)

theorem clear_asSuperclass {name : Token} {x : Expr} {v : Value} : (asSuperclass name x v).Clear := by
  unfold asSuperclass
  split
  · exact clear_pure _
  · split <;> exact clear_fail (by simp)

theorem clear_makeClass {e : FrameRef} {name : Token} {parent : Option Class} {methods : List FunctionDecl} :
    (makeClass e name parent methods).Clear := by
  unfold makeClass
  refine clear_define.bind fun _ => ?_
  cases parent with
  | none => exact (clear_pure e).bind fun _ => clear_newTag.bind fun _ => clear_define
  | some c => exact clear_newFrame.bind fun _ => clear_newTag.bind fun _ => clear_define

theorem clear_callResult {c : Closure} {flow : Flow} : (callResult c flow).Clear := by
  unfold callResult
  split
  · exact clear_nameIn?.bind fun _ => clear_pure _
  · exact clear_pure _

theorem applyUnary_ne_undefined {op : Kind} {v : Value} (x : String) :
    applyUnary op v ≠ .error (.undefinedVariable x) := by
  unfold applyUnary
  split
  · split <;> simp
  · simp
  · simp

theorem applyBinary_ne_undefined {op : Kind} {v u : Value} (x : String) :
    applyBinary op v u ≠ .error (.undefinedVariable x) := by
  unfold applyBinary
  split
  · simp
  · simp
  · unfold applyPlus
    split <;> simp
  · split
    · unfold applyArithmetic
      split <;> simp
    · simp

end Exec

/-! ## nodes that report undefined names -/

/-- A task ends with a fault. -/
def Point.Fails (σ : Setting) (fault : Fault) (p : Point) : Prop :=
  match p.task with
  | .eval e x => ∃ m, Exec.eval p.fuel σ e x p.machine = .failed fault m
  | .evalAll e xs => ∃ m, Exec.evalAll p.fuel σ e xs p.machine = .failed fault m
  | .call f vs paren => ∃ m, Exec.call p.fuel σ f vs paren p.machine = .failed fault m
  | .invoke c vs => ∃ m, Exec.invoke p.fuel σ c vs p.machine = .failed fault m
  | .exec e s => ∃ m, Exec.exec p.fuel σ e s p.machine = .failed fault m
  | .execAll e body => ∃ m, Exec.execAll p.fuel σ e body p.machine = .failed fault m
  | .loop e c b i => ∃ m, Exec.loop p.fuel σ e c b i p.machine = .failed fault m
  | .program body => ∃ m, Exec.program p.fuel σ body p.machine = .failed fault m

open Exec in
/-- A node that refers to a binding reports a fault itself. -/
inductive Raises (σ : Setting) (fault : Fault) : Point → Prop
  | read {n e label name m m'} : readName (σ.distance? label) e name m = .failed fault m' →
      Raises σ fault ⟨n + 1, .eval e (.variable label name), m⟩
  | readThis {n e label keyword m m'} : readName (σ.distance? label) e keyword m = .failed fault m' →
      Raises σ fault ⟨n + 1, .eval e (.this label keyword), m⟩
  | readSuper {n e label keyword method m m'} : getSuper (σ.distance? label) e keyword method m = .failed fault m' →
      Raises σ fault ⟨n + 1, .eval e (.super label keyword method), m⟩
  | write {n e label name x m v m₁ m'} : eval n σ e x m = .done v m₁ →
      writeName (σ.distance? label) e name v m₁ = .failed fault m' →
      Raises σ fault ⟨n + 1, .eval e (.assign label name x), m⟩

section

open Exec

variable {σ : Setting} {fault : Fault} {n : Nat} {e : FrameRef} {m m' : Machine}

/-- The fault comes from a call of the task, or the task raises it. -/
def Traced (σ : Setting) (fault : Fault) (p : Point) : Prop :=
  (∃ q, Calls σ p q ∧ q.Fails σ fault) ∨ Raises σ fault p

theorem traced_eval (hu : fault.isUndefined = true) {x : Expr} (h : eval (n + 1) σ e x m = .failed fault m') :
    Traced σ fault ⟨n + 1, .eval e x, m⟩ := by
  cases x with
  | literal l =>
    simp only [eval] at h
    exact absurd h ((clear_pure _).not_failed hu)
  | group x =>
    simp only [eval] at h
    exact .inl ⟨_, .group, _, h⟩
  | unary op x =>
    simp only [eval] at h
    rcases bind_failed h with h | ⟨v, m₁, -, h⟩
    · exact .inl ⟨_, .operand, _, h⟩
    · exact absurd h ((clear_ofResult applyUnary_ne_undefined).not_failed hu)
  | binary l op r =>
    simp only [eval] at h
    rcases bind_failed h with h | ⟨v, m₁, hv, h⟩
    · exact .inl ⟨_, .binaryLeft, _, h⟩
    rcases bind_failed h with h | ⟨u, m₂, -, h⟩
    · exact .inl ⟨_, .binaryRight hv, _, h⟩
    · exact absurd h ((clear_ofResult applyBinary_ne_undefined).not_failed hu)
  | logical l op r =>
    simp only [eval] at h
    rcases bind_failed h with h | ⟨v, m₁, hv, h⟩
    · exact .inl ⟨_, .logicalLeft, _, h⟩
    split at h
    · exact absurd h ((clear_pure _).not_failed hu)
    · next hd => exact .inl ⟨_, .logicalRight hv (by simpa using hd), _, h⟩
  | «variable» label name =>
    simp only [eval] at h
    exact .inr (.read h)
  | assign label name x =>
    simp only [eval] at h
    rcases bind_failed h with h | ⟨v, m₁, hv, h⟩
    · exact .inl ⟨_, .assigned, _, h⟩
    rcases bind_failed h with h | ⟨u, m₂, -, h⟩
    · exact .inr (.write hv h)
    · exact absurd h ((clear_pure _).not_failed hu)
  | call f paren xs =>
    simp only [eval] at h
    rcases bind_failed h with h | ⟨v, m₁, hv, h⟩
    · exact .inl ⟨_, .callee, _, h⟩
    rcases bind_failed h with h | ⟨vs, m₂, hvs, h⟩
    · exact .inl ⟨_, .arguments hv, _, h⟩
    · exact .inl ⟨_, .called hv hvs, _, h⟩
  | get x name =>
    simp only [eval] at h
    rcases bind_failed h with h | ⟨v, m₁, -, h⟩
    · exact .inl ⟨_, .getObject, _, h⟩
    split at h
    · exact absurd h (clear_getProperty.not_failed hu)
    · exact absurd h ((clear_fail (by simp)).not_failed hu)
  | set x name y =>
    simp only [eval] at h
    rcases bind_failed h with h | ⟨v, m₁, hv, h⟩
    · exact .inl ⟨_, .setObject, _, h⟩
    split at h
    · rcases bind_failed h with h | ⟨u, m₂, -, h⟩
      · exact .inl ⟨_, .setValue hv, _, h⟩
      · exact absurd h ((clear_setField.bind fun _ => clear_pure _).not_failed hu)
    · exact absurd h ((clear_fail (by simp)).not_failed hu)
  | this label keyword =>
    simp only [eval] at h
    exact .inr (.readThis h)
  | super label keyword method =>
    simp only [eval] at h
    exact .inr (.readSuper h)

theorem traced_evalAll (hu : fault.isUndefined = true) {xs : List Expr}
    (h : evalAll (n + 1) σ e xs m = .failed fault m') : Traced σ fault ⟨n + 1, .evalAll e xs, m⟩ := by
  cases xs with
  | nil =>
    simp only [evalAll] at h
    exact absurd h ((clear_pure _).not_failed hu)
  | cons x xs =>
    simp only [evalAll] at h
    rcases bind_failed h with h | ⟨v, m₁, hv, h⟩
    · exact .inl ⟨_, .firstArgument, _, h⟩
    rcases bind_failed h with h | ⟨vs, m₂, -, h⟩
    · exact .inl ⟨_, .otherArguments hv, _, h⟩
    · exact absurd h ((clear_pure _).not_failed hu)

theorem length_of_checkArity {paren : Token} {expected got : Nat} {u : Unit} {m₁ : Machine}
    (h : checkArity paren expected got m = .done u m₁) : got = expected ∧ m₁ = m := by
  unfold checkArity at h
  split at h
  · next hl =>
    cases h
    exact ⟨hl, rfl⟩
  · cases h

theorem traced_call (hu : fault.isUndefined = true) {f : Value} {vs : List Value} {paren : Token}
    (h : call (n + 1) σ f vs paren m = .failed fault m') : Traced σ fault ⟨n + 1, .call f vs paren, m⟩ := by
  cases f with
  | function tag c =>
    simp only [call] at h
    rcases bind_failed h with hf | ⟨u, m₁, hcheck, hf⟩
    · exact absurd hf (clear_checkArity.not_failed hu)
    · obtain ⟨hl, rfl⟩ := length_of_checkArity hcheck
      exact .inl ⟨_, .function hl, _, hf⟩
  | builtin tag b =>
    simp only [call] at h
    exact absurd h ((clear_checkArity.bind fun _ => clear_runBuiltin).not_failed hu)
  | klass c =>
    simp only [call] at h
    rcases bind_failed h with hf | ⟨u, m₁, hcheck, hf⟩
    · exact absurd hf (clear_checkArity.not_failed hu)
    obtain ⟨hl, rfl⟩ := length_of_checkArity hcheck
    rcases bind_failed hf with hf' | ⟨this, m₂, ho, hf'⟩
    · exact absurd hf' (clear_newObject.not_failed hu)
    cases hm : c.method? FunctionDecl.initName with
    | none =>
      rw [hm] at hf'
      exact absurd hf' ((clear_pure _).not_failed hu)
    | some method =>
      rw [hm] at hf'
      rcases bind_failed hf' with hb | ⟨bound, m₃, hb, hi⟩
      · exact absurd hb (clear_bindThis.not_failed hu)
      rcases bind_failed hi with hi' | ⟨_, m₄, -, hi'⟩
      · exact .inl ⟨_, .initializer hl ho hm hb, _, hi'⟩
      · exact absurd hi' ((clear_pure _).not_failed hu)
  | _ =>
    simp only [call] at h
    exact absurd h ((clear_fail (by simp)).not_failed hu)

theorem traced_invoke (hu : fault.isUndefined = true) {c : Closure} {vs : List Value}
    (h : invoke (n + 1) σ c vs m = .failed fault m') : Traced σ fault ⟨n + 1, .invoke c vs, m⟩ := by
  simp only [invoke] at h
  rcases bind_failed h with h | ⟨e, m₁, he, h⟩
  · exact absurd h (clear_newFrame.not_failed hu)
  rcases bind_failed h with h | ⟨flow, m₂, -, h⟩
  · exact .inl ⟨_, .body he, _, h⟩
  · exact absurd h (clear_callResult.not_failed hu)

theorem traced_exec (hu : fault.isUndefined = true) {s : Stmt} (h : exec (n + 1) σ e s m = .failed fault m') :
    Traced σ fault ⟨n + 1, .exec e s, m⟩ := by
  cases s with
  | expr x =>
    simp only [exec] at h
    rcases bind_failed h with h | ⟨v, m₁, -, h⟩
    · exact .inl ⟨_, .expression, _, h⟩
    · exact absurd h ((clear_pure _).not_failed hu)
  | print keyword x =>
    simp only [exec] at h
    rcases bind_failed h with h | ⟨v, m₁, -, h⟩
    · exact .inl ⟨_, .printed, _, h⟩
    · exact absurd h ((clear_print.bind fun _ => clear_pure _).not_failed hu)
  | varDecl name x =>
    cases x with
    | none =>
      simp only [exec] at h
      exact absurd h ((clear_define.bind fun _ => clear_pure _).not_failed hu)
    | some x =>
      simp only [exec] at h
      rcases bind_failed h with h | ⟨v, m₁, -, h⟩
      · exact .inl ⟨_, .initialValue, _, h⟩
      · exact absurd h ((clear_define.bind fun _ => clear_pure _).not_failed hu)
  | block body =>
    simp only [exec] at h
    rcases bind_failed h with h | ⟨inner, m₁, hi, h⟩
    · exact absurd h (clear_newFrame.not_failed hu)
    · exact .inl ⟨_, .block hi, _, h⟩
  | ifThen c t =>
    simp only [exec] at h
    rcases bind_failed h with h | ⟨v, m₁, hv, h⟩
    · exact .inl ⟨_, .ifTest, _, h⟩
    split at h
    · next ht => exact .inl ⟨_, .ifBranch hv ht, _, h⟩
    · exact absurd h ((clear_pure _).not_failed hu)
  | ifElse c t f =>
    simp only [exec] at h
    rcases bind_failed h with h | ⟨v, m₁, hv, h⟩
    · exact .inl ⟨_, .ifElseTest, _, h⟩
    split at h
    · next ht => exact .inl ⟨_, .thenBranch hv ht, _, h⟩
    · next ht => exact .inl ⟨_, .elseBranch hv (by simpa using ht), _, h⟩
  | loop c b i =>
    simp only [exec] at h
    exact .inl ⟨_, .loop, _, h⟩
  | funDecl d =>
    simp only [exec] at h
    exact absurd h ((clear_newTag.bind fun _ => clear_define.bind fun _ => clear_pure _).not_failed hu)
  | returnFrom keyword x =>
    cases x with
    | none =>
      simp only [exec] at h
      exact absurd h ((clear_pure _).not_failed hu)
    | some x =>
      simp only [exec] at h
      rcases bind_failed h with h | ⟨v, m₁, -, h⟩
      · exact .inl ⟨_, .returned, _, h⟩
      · exact absurd h ((clear_pure _).not_failed hu)
  | classDecl name s ms =>
    cases s with
    | none =>
      simp only [exec] at h
      exact absurd h ((clear_makeClass.bind fun _ => clear_pure _).not_failed hu)
    | some x =>
      simp only [exec] at h
      rcases bind_failed h with h | ⟨v, m₁, -, h⟩
      · exact .inl ⟨_, .superclass, _, h⟩
      · exact absurd h ((clear_asSuperclass.bind fun _ => clear_makeClass.bind fun _ => clear_pure _).not_failed hu)
  | breakLoop keyword =>
    simp only [exec] at h
    exact absurd h ((clear_pure _).not_failed hu)
  | continueLoop keyword =>
    simp only [exec] at h
    exact absurd h ((clear_pure _).not_failed hu)

theorem traced_execAll (hu : fault.isUndefined = true) {body : List Stmt}
    (h : execAll (n + 1) σ e body m = .failed fault m') : Traced σ fault ⟨n + 1, .execAll e body, m⟩ := by
  cases body with
  | nil =>
    simp only [execAll] at h
    exact absurd h ((clear_pure _).not_failed hu)
  | cons s rest =>
    simp only [execAll] at h
    rcases bind_failed h with h | ⟨flow, m₁, hf, h⟩
    · exact .inl ⟨_, .firstStatement, _, h⟩
    split at h
    · exact .inl ⟨_, .otherStatements hf, _, h⟩
    · exact absurd h ((clear_pure _).not_failed hu)

theorem traced_loop (hu : fault.isUndefined = true) {c : Expr} {b : Stmt} {i : Option Expr}
    (h : loop (n + 1) σ e c b i m = .failed fault m') : Traced σ fault ⟨n + 1, .loop e c b i, m⟩ := by
  cases i with
  | none =>
    simp only [loop] at h
    rcases bind_failed h with h | ⟨v, m₁, hv, h⟩
    · exact .inl ⟨_, .test, _, h⟩
    split at h
    · next ht =>
      rcases bind_failed h with h | ⟨flow, m₂, hb, h⟩
      · exact .inl ⟨_, .round hv ht, _, h⟩
      cases flow with
      | broken => exact absurd h ((clear_pure _).not_failed hu)
      | returned v => exact absurd h ((clear_pure _).not_failed hu)
      | normal => exact .inl ⟨_, .again hv ht hb rfl, _, h⟩
      | continued => exact .inl ⟨_, .again hv ht hb rfl, _, h⟩
    · exact absurd h ((clear_pure _).not_failed hu)
  | some x =>
    simp only [loop] at h
    rcases bind_failed h with h | ⟨v, m₁, hv, h⟩
    · exact .inl ⟨_, .test, _, h⟩
    split at h
    · next ht =>
      rcases bind_failed h with h | ⟨flow, m₂, hb, h⟩
      · exact .inl ⟨_, .round hv ht, _, h⟩
      have hgo : ∀ flow, exec n σ e b m₁ = .done flow m₂ → flow.goesOn = true →
          (do let _ ← eval n σ e x; loop n σ e c b (some x) : Exec Flow) m₂ = .failed fault m' →
          Traced σ fault ⟨n + 1, .loop e c b (some x), m⟩ := by
        intro flow hb hf h
        rcases bind_failed h with h | ⟨u, m₃, hx, h⟩
        · exact .inl ⟨_, .increment hv ht hb hf, _, h⟩
        · exact .inl ⟨_, .againBehindIncrement hv ht hb hf hx, _, h⟩
      cases flow with
      | broken => exact absurd h ((clear_pure _).not_failed hu)
      | returned v => exact absurd h ((clear_pure _).not_failed hu)
      | normal => exact hgo .normal hb rfl h
      | continued => exact hgo .continued hb rfl h
    · exact absurd h ((clear_pure _).not_failed hu)

theorem traced_program (hu : fault.isUndefined = true) {body : List Stmt}
    (h : program n σ body m = .failed fault m') : Traced σ fault ⟨n, .program body, m⟩ := by
  cases body with
  | nil =>
    simp only [program] at h
    exact absurd h ((clear_pure _).not_failed hu)
  | cons s rest =>
    simp only [program] at h
    rcases bind_failed h with h | ⟨flow, m₁, hf, h⟩
    · exact .inl ⟨_, .topStatement, _, h⟩
    · exact .inl ⟨_, .restOfProgram hf, _, h⟩

/-- Without depth only a program can fail. -/
theorem Point.not_fails_zero {task : Task} (ht : ∀ body, task ≠ .program body) :
    ¬ Point.Fails σ fault ⟨0, task, m⟩ := by
  intro h
  cases task with
  | program body => exact ht body rfl
  | _ =>
    obtain ⟨m', hm⟩ := h
    simp only [eval, evalAll, call, invoke, exec, execAll, loop] at hm
    cases hm

/-- A task that ends with an undefined name has a call that does, or raises it. -/
theorem Point.Fails.traced {p : Point} (h : p.Fails σ fault) (hu : fault.isUndefined = true) : Traced σ fault p := by
  obtain ⟨n, task, m⟩ := p
  cases n with
  | zero =>
    cases task with
    | program body => exact traced_program hu h.choose_spec
    | _ => exact absurd h (Point.not_fails_zero (by simp))
  | succ n =>
    cases task with
    | eval e x => exact traced_eval hu h.choose_spec
    | evalAll e xs => exact traced_evalAll hu h.choose_spec
    | call f vs paren => exact traced_call hu h.choose_spec
    | invoke c vs => exact traced_invoke hu h.choose_spec
    | exec e s => exact traced_exec hu h.choose_spec
    | execAll e body => exact traced_execAll hu h.choose_spec
    | loop e c b i => exact traced_loop hu h.choose_spec
    | program body => exact traced_program hu h.choose_spec

end

/-! ## the origin of a fault -/

/-- What is left to do at a point; every call has less. -/
def Point.size (p : Point) : Nat × Nat :=
  match p.task with
  | .program body => (p.fuel + 1, body.length)
  | _ => (p.fuel, 0)

theorem Calls.size_lt {σ : Setting} {p q : Point} (h : Calls σ p q) :
    Prod.Lex (· < ·) (· < ·) q.size p.size := by
  cases h with
  | topStatement => exact .left _ _ (Nat.lt_succ_self _)
  | restOfProgram _ => exact .right _ (Nat.lt_succ_self _)
  | _ => exact .left _ _ (Nat.lt_succ_self _)

/-- An undefined name that ends a task was reported by a node that was visited. -/
theorem exists_raises_of_fails {σ : Setting} {fault : Fault} {p : Point} (h : p.Fails σ fault)
    (hu : fault.isUndefined = true) : ∃ q, Visits σ p q ∧ Raises σ fault q := by
  have hwf : WellFounded fun q p : Point => Prod.Lex (· < ·) (· < ·) q.size p.size :=
    InvImage.wf Point.size (Prod.lex Nat.lt_wfRel Nat.lt_wfRel).wf
  induction p using hwf.induction with
  | _ p ih =>
    rcases h.traced hu with ⟨q, hc, hq⟩ | hr
    · obtain ⟨r, hv, hr⟩ := ih q hc.size_lt hq
      exact ⟨r, .head hc hv, hr⟩
    · exact ⟨p, .refl, hr⟩

end ScriptLang
