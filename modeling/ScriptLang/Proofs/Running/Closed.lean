import ScriptLang.Proofs.Running.Confined

/-!
# What all of evaluation is put together from

Names and objects are a matter of the heap alone; what else there is are sequences, the console and the bound on the
depth.

* `Exec.onHeap` — a computation that reads and changes the heap, and `readName_eq`, …, `setField_eq`: so is each
  computation on names and objects;
* `Exec.Closed hosts C` — a property that computations on the heap and the console have, and that sequences keep;
* `Exec.Parts hosts C` — the same, with the parts without recursion one by one;
* `Exec.Parts.evaluation` — then everything in the recursion has it, at every depth; `Exec.Parts.program` says so of
  programs.
-/

namespace ScriptLang

namespace Exec

variable {α β : Type}

/-- A computation on the heap, which gives a value or fails and then changes nothing. -/
def onHeap (f : Heap → Except (Report RuntimeFault) (α × Heap)) : Exec α := fun m =>
  match f m.heap with
  | .ok (a, heap) => .done a { m with heap }
  | .error report => .failed (.runtime report) m

/-! ## computations on the heap -/

theorem pure_eq (a : α) : (pure a : Exec α) = onHeap fun h => .ok (a, h) := rfl

theorem fail_eq (anchor : Token) (cause : RuntimeFault) :
    (fail anchor cause : Exec α) = onHeap fun _ => .error ⟨anchor, cause⟩ := rfl

theorem readName_eq (distance : Option Nat) (e : FrameRef) (name : Token) :
    readName distance e name = onHeap fun h =>
      (match distance with
        | some d => h.frames.readAt e d name
        | none => h.frames.read Heap.globals name).map (·, h) := by
  funext m
  unfold readName onHeap
  cases distance with
  | some d => dsimp only; cases m.heap.frames.readAt e d name <;> rfl
  | none => dsimp only; cases m.heap.frames.read Heap.globals name <;> rfl

theorem writeName_eq (distance : Option Nat) (e : FrameRef) (name : Token) (v : Value) :
    writeName distance e name v = onHeap fun h =>
      let found := match distance with
        | some d => h.frames.ownerAt? e d name.lexeme
        | none => h.frames.owner? Heap.globals name.lexeme
      match found with
      | some o => .ok ((), h.define o name.lexeme v)
      | none => .error (.undefined name) := by
  funext m
  unfold writeName onHeap
  cases distance with
  | some d => dsimp only; cases m.heap.frames.ownerAt? e d name.lexeme <;> rfl
  | none => dsimp only; cases m.heap.frames.owner? Heap.globals name.lexeme <;> rfl

theorem define_eq (e : FrameRef) (name : String) (v : Value) :
    define e name v = onHeap fun h => .ok ((), h.define e name v) := rfl

theorem newFrame_eq (enclosing : FrameRef) (bindings : Assoc String Value) :
    newFrame enclosing bindings = onHeap fun h => .ok (h.frames.size, h.addFrame enclosing bindings) := rfl

theorem nameIn?_eq (e : FrameRef) (distance : Nat) (name : String) :
    nameIn? e distance name = onHeap fun h => .ok (h.frames.findAt? e distance name, h) := rfl

theorem newTag_eq : newTag = onHeap fun h => .ok (h.nextTag, { h with nextTag := h.nextTag + 1 }) := rfl

theorem newObject_eq (c : Class) :
    newObject c = onHeap fun h => .ok (.object h.objects.size c, h.addObject) := rfl

theorem field?_eq (o : ObjectRef) (name : String) :
    field? o name = onHeap fun h => .ok (Assoc.get? (h.fields o) name, h) := rfl

theorem setField_eq (o : ObjectRef) (name : String) (v : Value) :
    setField o name v = onHeap fun h => .ok ((), h.setField o name v) := rfl

/-! ## closed properties -/

/-- A property that computations on the heap and on the console have, and sequences of computations that have it. -/
structure Closed (hosts : Array Host) (C : ∀ {α : Type}, Exec α → Prop) : Prop where
  onHeap : ∀ {α : Type} (f : Heap → Except (Report RuntimeFault) (α × Heap)), C (onHeap f)
  write : ∀ s, C (write s)
  runBuiltin : ∀ b arguments paren, C (runBuiltin hosts b arguments paren)
  outOfFuel : ∀ {α : Type}, C (outOfFuel : Exec α)
  bind : ∀ {α β : Type} {x : Exec α} {f : α → Exec β}, C x → (∀ a, C (f a)) → C (x >>= f)

/-- A property that all parts without recursion have, and sequences of computations that have it. -/
structure Parts (hosts : Array Host) (C : ∀ {α : Type}, Exec α → Prop) : Prop where
  pure : ∀ {α : Type} (a : α), C (pure a : Exec α)
  fail : ∀ {α : Type} (anchor : Token) (cause : RuntimeFault), C (fail anchor cause : Exec α)
  readName : ∀ distance e name, C (readName distance e name)
  writeName : ∀ distance e name v, C (writeName distance e name v)
  define : ∀ e name v, C (define e name v)
  newFrame : ∀ enclosing bindings, C (newFrame enclosing bindings)
  nameIn? : ∀ e distance name, C (nameIn? e distance name)
  newTag : C newTag
  newObject : ∀ c, C (newObject c)
  field? : ∀ o name, C (field? o name)
  setField : ∀ o name v, C (setField o name v)
  write : ∀ s, C (write s)
  runBuiltin : ∀ b arguments paren, C (runBuiltin hosts b arguments paren)
  outOfFuel : ∀ {α : Type}, C (outOfFuel : Exec α)
  bind : ∀ {α β : Type} {x : Exec α} {f : α → Exec β}, C x → (∀ a, C (f a)) → C (x >>= f)

/-- The parts without recursion are computations on the heap and on the console. -/
theorem Closed.parts {C : ∀ {α : Type}, Exec α → Prop} {hosts : Array Host} (h : Closed hosts C) : Parts hosts C where
  pure a := pure_eq a ▸ h.onHeap _
  fail anchor cause := fail_eq anchor cause ▸ h.onHeap _
  readName distance e name := readName_eq distance e name ▸ h.onHeap _
  writeName distance e name v := writeName_eq distance e name v ▸ h.onHeap _
  define e name v := define_eq e name v ▸ h.onHeap _
  newFrame enclosing bindings := newFrame_eq enclosing bindings ▸ h.onHeap _
  nameIn? e distance name := nameIn?_eq e distance name ▸ h.onHeap _
  newTag := newTag_eq ▸ h.onHeap _
  newObject c := newObject_eq c ▸ h.onHeap _
  field? o name := field?_eq o name ▸ h.onHeap _
  setField o name v := setField_eq o name v ▸ h.onHeap _
  write := h.write
  runBuiltin := h.runBuiltin
  outOfFuel := h.outOfFuel
  bind := h.bind

namespace Parts

variable {C : ∀ {α : Type}, Exec α → Prop} {σ : Setting} (h : Parts σ.hosts C)

include h

theorem ofResult (anchor : Token) (r : Except RuntimeFault α) : C (ofResult anchor r) := by
  cases r with
  | ok a => exact h.pure a
  | error cause => exact h.fail anchor cause

theorem bindThis (method : Closure) (this : Value) : C (bindThis method this) :=
  h.bind (h.newFrame _ _) fun _ => h.pure _

theorem boundMethod (method : Closure) (this : Value) : C (boundMethod method this) :=
  h.bind (h.bindThis method this) fun _ => h.bind h.newTag fun _ => h.pure _

theorem print (keyword : Token) (v : Value) : C (print keyword v) := by
  unfold Exec.print
  split
  · split
    · exact h.write _
    · exact h.fail _ _
  · exact h.write _

theorem getProperty (o : ObjectRef) (c : Class) (name : Token) : C (getProperty o c name) := by
  refine h.bind (h.field? _ _) fun found => ?_
  cases found with
  | some v => exact h.pure v
  | none =>
    cases hm : c.method? name.lexeme with
    | some method => simpa only [hm] using h.boundMethod method _
    | none => simpa only [hm] using h.fail name _

theorem getSuper (distance : Option Nat) (e : FrameRef) (keyword method : Token) :
    C (getSuper distance e keyword method) := by
  cases distance with
  | none => exact h.fail _ _
  | some d =>
    refine h.bind (h.readName _ _ _) fun parent => ?_
    cases parent with
    | klass parent =>
      refine h.bind (h.nameIn? _ _ _) fun this => ?_
      split
      · split
        · exact h.boundMethod _ _
        · exact h.fail _ _
      · exact h.fail _ _
    | _ => exact h.fail _ _

theorem checkArity (paren : Token) (expected got : Nat) : C (checkArity paren expected got) := by
  unfold Exec.checkArity
  split
  · exact h.pure ()
  · exact h.fail _ _

theorem asSuperclass (name : Token) (superclass : Expr) (v : Value) : C (asSuperclass name superclass v) := by
  unfold Exec.asSuperclass
  split
  · exact h.pure _
  · split <;> exact h.fail _ _

theorem makeClass (e : FrameRef) (name : Token) (parent : Option Class) (methods : List FunctionDecl) :
    C (makeClass e name parent methods) := by
  refine h.bind (h.define _ _ _) fun _ => ?_
  cases parent with
  | some c =>
    refine h.bind (h.newFrame _ _) fun inner => ?_
    exact h.bind h.newTag fun _ => h.define _ _ _
  | none =>
    refine h.bind (h.pure e) fun inner => ?_
    exact h.bind h.newTag fun _ => h.define _ _ _

theorem callFrame (c : Closure) (arguments : List Value) : C (callFrame c arguments) :=
  h.newFrame _ _

theorem callResult (c : Closure) (flow : Flow) : C (callResult c flow) := by
  unfold Exec.callResult
  split
  · exact h.bind (h.nameIn? _ _ _) fun _ => h.pure _
  · exact h.pure _

end Parts

/-- All functions of the recursion have a property at one depth. -/
structure Evaluation (C : ∀ {α : Type}, Exec α → Prop) (σ : Setting) (n : Nat) : Prop where
  eval : ∀ e x, C (eval n σ e x)
  evalAll : ∀ e xs, C (evalAll n σ e xs)
  call : ∀ f vs paren, C (call n σ f vs paren)
  invoke : ∀ c vs, C (invoke n σ c vs)
  exec : ∀ e s, C (exec n σ e s)
  execAll : ∀ e body, C (execAll n σ e body)
  loop : ∀ e c b i, C (loop n σ e c b i)

namespace Parts

variable {C : ∀ {α : Type}, Exec α → Prop} {σ : Setting} {n : Nat} (h : Parts σ.hosts C) (ih : Evaluation C σ n)

include h ih

theorem eval (e : FrameRef) (x : Expr) : C (eval (n + 1) σ e x) := by
  cases x with
  | literal l =>
    simp only [Exec.eval]
    exact h.pure _
  | group inner =>
    simp only [Exec.eval]
    exact ih.eval e inner
  | unary op right =>
    simp only [Exec.eval]
    exact h.bind (ih.eval e right) fun v => h.ofResult _ _
  | binary left op right =>
    simp only [Exec.eval]
    exact h.bind (ih.eval e left) fun v => h.bind (ih.eval e right) fun w => h.ofResult _ _
  | logical left op right =>
    simp only [Exec.eval]
    refine h.bind (ih.eval e left) fun v => ?_
    split
    · exact h.pure v
    · exact ih.eval e right
  | «variable» label name =>
    simp only [Exec.eval]
    exact h.readName _ _ _
  | assign label name value =>
    simp only [Exec.eval]
    refine h.bind (ih.eval e value) fun v => ?_
    exact h.bind (h.writeName _ _ _ _) fun _ => h.pure v
  | call callee paren arguments =>
    simp only [Exec.eval]
    refine h.bind (ih.eval e callee) fun f => ?_
    exact h.bind (ih.evalAll e arguments) fun vs => ih.call f vs paren
  | get object name =>
    simp only [Exec.eval]
    refine h.bind (ih.eval e object) fun v => ?_
    cases v with
    | object o c => exact h.getProperty o c name
    | _ => exact h.fail _ _
  | set object name value =>
    simp only [Exec.eval]
    refine h.bind (ih.eval e object) fun v => ?_
    cases v with
    | object o c =>
      refine h.bind (ih.eval e value) fun w => ?_
      exact h.bind (h.setField _ _ _) fun _ => h.pure w
    | _ => exact h.fail _ _
  | this label keyword =>
    simp only [Exec.eval]
    exact h.readName _ _ _
  | super label keyword name =>
    simp only [Exec.eval]
    exact h.getSuper _ _ _ _

theorem evalAll (e : FrameRef) (xs : List Expr) : C (evalAll (n + 1) σ e xs) := by
  cases xs with
  | nil =>
    simp only [Exec.evalAll]
    exact h.pure []
  | cons x xs =>
    simp only [Exec.evalAll]
    exact h.bind (ih.eval e x) fun v => h.bind (ih.evalAll e xs) fun vs => h.pure (v :: vs)

theorem call (f : Value) (vs : List Value) (paren : Token) : C (call (n + 1) σ f vs paren) := by
  cases f with
  | function tag c =>
    simp only [Exec.call]
    exact h.bind (h.checkArity _ _ _) fun _ => ih.invoke c vs
  | builtin tag b =>
    simp only [Exec.call]
    exact h.bind (h.checkArity _ _ _) fun _ => h.runBuiltin b vs paren
  | klass c =>
    simp only [Exec.call]
    refine h.bind (h.checkArity _ _ _) fun _ => h.bind (h.newObject c) fun this => ?_
    split
    · exact h.bind (h.bindThis _ _) fun bound => h.bind (ih.invoke bound vs) fun _ => h.pure this
    · exact h.pure this
  | _ =>
    simp only [Exec.call]
    exact h.fail _ _

theorem invoke (c : Closure) (vs : List Value) : C (invoke (n + 1) σ c vs) := by
  simp only [Exec.invoke]
  refine h.bind (h.callFrame c vs) fun e => ?_
  exact h.bind (ih.execAll e c.declaration.body) fun flow => h.callResult c flow

theorem exec (e : FrameRef) (s : Stmt) : C (exec (n + 1) σ e s) := by
  cases s with
  | expr x =>
    simp only [Exec.exec]
    exact h.bind (ih.eval e x) fun _ => h.pure _
  | print keyword x =>
    simp only [Exec.exec]
    exact h.bind (ih.eval e x) fun v => h.bind (h.print keyword v) fun _ => h.pure _
  | varDecl name x =>
    cases x with
    | none =>
      simp only [Exec.exec]
      exact h.bind (h.define _ _ _) fun _ => h.pure _
    | some x =>
      simp only [Exec.exec]
      exact h.bind (ih.eval e x) fun v => h.bind (h.define _ _ _) fun _ => h.pure _
  | block body =>
    simp only [Exec.exec]
    exact h.bind (h.newFrame _ _) fun inner => ih.execAll inner body
  | ifThen c t =>
    simp only [Exec.exec]
    refine h.bind (ih.eval e c) fun v => ?_
    split
    · exact ih.exec e t
    · exact h.pure _
  | ifElse c t f =>
    simp only [Exec.exec]
    refine h.bind (ih.eval e c) fun v => ?_
    split
    · exact ih.exec e t
    · exact ih.exec e f
  | loop c b i =>
    simp only [Exec.exec]
    exact ih.loop e c b i
  | funDecl d =>
    simp only [Exec.exec]
    exact h.bind h.newTag fun t => h.bind (h.define _ _ _) fun _ => h.pure _
  | returnFrom keyword x =>
    cases x with
    | none =>
      simp only [Exec.exec]
      exact h.pure _
    | some x =>
      simp only [Exec.exec]
      exact h.bind (ih.eval e x) fun v => h.pure _
  | classDecl name x ms =>
    cases x with
    | none =>
      simp only [Exec.exec]
      exact h.bind (h.makeClass _ _ _ _) fun _ => h.pure _
    | some x =>
      simp only [Exec.exec]
      refine h.bind (ih.eval e x) fun v => h.bind (h.asSuperclass name x v) fun parent => ?_
      exact h.bind (h.makeClass _ _ _ _) fun _ => h.pure _
  | breakLoop keyword =>
    simp only [Exec.exec]
    exact h.pure _
  | continueLoop keyword =>
    simp only [Exec.exec]
    exact h.pure _

theorem execAll (e : FrameRef) (body : List Stmt) : C (execAll (n + 1) σ e body) := by
  cases body with
  | nil =>
    simp only [Exec.execAll]
    exact h.pure _
  | cons s rest =>
    simp only [Exec.execAll]
    refine h.bind (ih.exec e s) fun flow => ?_
    cases flow with
    | normal => exact ih.execAll e rest
    | _ => exact h.pure _

/-- What a loop does behind a round, however that ended. -/
theorem behindRound (e : FrameRef) (c : Expr) (b : Stmt) (i : Option Expr) (flow : Flow) :
    C (match flow with
      | .broken => Pure.pure .normal
      | .returned w => Pure.pure (.returned w)
      | _ => again n σ e c b i) := by
  have hagain : C (again n σ e c b i) := by
    unfold again
    cases i with
    | some x => exact h.bind (ih.eval e x) fun _ => ih.loop e c b _
    | none => exact ih.loop e c b _
  cases flow with
  | normal => exact hagain
  | continued => exact hagain
  | broken => exact h.pure _
  | returned v => exact h.pure _

theorem loop (e : FrameRef) (c : Expr) (b : Stmt) (i : Option Expr) : C (loop (n + 1) σ e c b i) := by
  rw [loop_succ]
  refine h.bind (ih.eval e c) fun v => ?_
  split
  · exact h.bind (ih.exec e b) fun flow => h.behindRound ih e c b i flow
  · exact h.pure _

end Parts

section

variable {C : ∀ {α : Type}, Exec α → Prop} {σ : Setting}

/-- What the parts have, everything in the recursion has. -/
theorem Parts.evaluation (h : Parts σ.hosts C) (n : Nat) : Evaluation C σ n := by
  induction n with
  | zero =>
    constructor <;> intros
    · simp only [Exec.eval]; exact h.outOfFuel
    · simp only [Exec.evalAll]; exact h.outOfFuel
    · simp only [Exec.call]; exact h.outOfFuel
    · simp only [Exec.invoke]; exact h.outOfFuel
    · simp only [Exec.exec]; exact h.outOfFuel
    · simp only [Exec.execAll]; exact h.outOfFuel
    · simp only [Exec.loop]; exact h.outOfFuel
  | succ n ih =>
    exact ⟨h.eval ih, h.evalAll ih, h.call ih, h.invoke ih, h.exec ih, h.execAll ih, h.loop ih⟩

/-- And every program has it. -/
theorem Parts.program (h : Parts σ.hosts C) (n : Nat) (body : List Stmt) : C (program n σ body) := by
  induction body with
  | nil => exact h.pure ()
  | cons s rest ih => exact h.bind ((h.evaluation n).exec _ s) fun _ => ih

/-- A closed property holds of every program. -/
theorem Closed.program (h : Closed σ.hosts C) (n : Nat) (body : List Stmt) : C (program n σ body) :=
  h.parts.program n body

end

end Exec

end ScriptLang
