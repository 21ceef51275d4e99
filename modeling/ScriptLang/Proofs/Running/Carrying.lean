import ScriptLang.Proofs.Running.Creation
import ScriptLang.Proofs.Running.Faults
import ScriptLang.Proofs.Running.Made

/-!
# What all values of a run have

A property that plain values and functions have, and that objects and classes have when they are created, is a property
of all values that a run ever handles: nothing else makes an object or a class.

* `Setting.Supplies V p` — from the point `p` on, what is created has the property;
* `Heap.Carries V`, `Ending.Carries V Q` — everything that frames and fields hold has it; also behind a computation;
* `Carrying V σ n` — evaluation keeps this at depth `n`; `carrying` proves it by induction;
* `Setting.SuppliesBefore V p q` — what is created until `p` calls `q` has the property, which is enough for the values
  at `q`;
* `Visits.carries` — so it is at every point of a run.
-/

namespace ScriptLang

/-- What comes to be from a point on has a property, if what it is made from has it. -/
structure Setting.Supplies (σ : Setting) (V : Value → Prop) (p : Point) : Prop where
  hosts : ∀ f ∈ σ.hosts, Host.Tame f
  plain : ∀ v, Value.Plain v → V v
  function : ∀ tag c, V (.function tag c)
  object : ∀ q o c, Visits σ p q → Creates σ q (.object o c) → V (.klass c) → V (.object o c)
  klass : ∀ q c, Visits σ p q → Creates σ q (.klass c) → (∀ parent ∈ c.superclass?, V (.klass parent)) → V (.klass c)

theorem Setting.Supplies.visits {σ : Setting} {V : Value → Prop} {p q : Point} (h : σ.Supplies V p)
    (hv : Visits σ p q) : σ.Supplies V q :=
  { h with
    object := fun r o c hr => h.object r o c (hv.trans hr)
    klass := fun r c hr => h.klass r c (hv.trans hr) }

theorem Setting.Supplies.call {σ : Setting} {V : Value → Prop} {p q : Point} (h : σ.Supplies V p)
    (hc : Calls σ p q) : σ.Supplies V q :=
  h.visits (.single hc)

/-- What comes to be at a point and in what it calls, before a point that it calls, has a property. -/
structure Setting.SuppliesBefore (σ : Setting) (V : Value → Prop) (p q : Point) : Prop where
  object : ∀ o c, Creates σ p (.object o c) → V (.klass c) → V (.object o c)
  call : ∀ r, Calls σ p r → r.Over σ q → σ.Supplies V r

theorem Setting.Supplies.before {σ : Setting} {V : Value → Prop} {p q : Point} (h : σ.Supplies V p) :
    σ.SuppliesBefore V p q where
  object o c hc hk := h.object p o c .refl hc hk
  call _ hr _ := h.call hr

/-- All values in frames and fields have a property. -/
structure Heap.Carries (V : Value → Prop) (h : Heap) : Prop where
  value : ∀ e, ∀ p ∈ h.frames.bindings e, V p.2
  field : ∀ o, ∀ p ∈ h.fields o, V p.2

/-- The values that a task was handed. -/
def Task.arguments : Task → List Value
  | .call callee arguments _ => callee :: arguments
  | .invoke _ arguments => arguments
  | _ => []

/-- All values at a point have a property. -/
structure Point.Carries (V : Value → Prop) (p : Point) : Prop where
  heap : p.machine.heap.Carries V
  arguments : ∀ v ∈ p.task.arguments, V v

/-- The ending of a computation of which all values have a property. -/
def Ending.Carries {α : Type} (V : Value → Prop) (Q : α → Prop) : Ending α → Prop
  | .done a m => m.heap.Carries V ∧ Q a
  | .failed _ m => m.heap.Carries V
  | .outOfFuel => True

section

variable {V : Value → Prop}

namespace Heap.Carries

variable {h h' : Heap}

/-- A heap with the same objects. -/
theorem of_values (hm : h.Carries V) (hs : h'.objects = h.objects) (hv : ∀ e, ∀ p ∈ h'.frames.bindings e, V p.2) :
    h'.Carries V where
  value := hv
  field o p hp := by
    have hfields : h'.fields o = h.fields o := by rw [Heap.fields, hs, Heap.fields]
    exact hm.field o p (hfields ▸ hp)

theorem define (hm : h.Carries V) (e : FrameRef) (name : String) {v : Value} (hv : V v) :
    (h.define e name v).Carries V := by
  refine hm.of_values rfl fun f p hp => ?_
  rcases Frames.mem_bindings_define hp with rfl | hp
  · exact hv
  · exact hm.value f p hp

theorem addFrame (hm : h.Carries V) (e : FrameRef) {b : Assoc String Value} (hb : ∀ p ∈ b, V p.2) :
    (h.addFrame e b).Carries V := by
  refine hm.of_values rfl fun f p hp => ?_
  rw [Heap.addFrame, Frames.bindings_push] at hp
  split at hp
  · exact hb p hp
  · exact hm.value f p hp

theorem addObject (hm : h.Carries V) : h.addObject.Carries V := by
  refine ⟨hm.value, fun o p hp => ?_⟩
  rw [World.fields_addObject] at hp
  exact hm.field o p hp

theorem setField (hm : h.Carries V) (o : ObjectRef) (name : String) {v : Value} (hv : V v) :
    (h.setField o name v).Carries V := by
  refine ⟨hm.value, fun o' p hp => ?_⟩
  rcases Scene.mem_fields_setField hp with hp | hp
  · rw [hp]
    exact hv
  · exact hm.field o' p hp

end Heap.Carries

end

namespace Exec

variable {α β : Type} {V : Value → Prop} {m : Machine} {e : FrameRef} {Q R : α → Prop}

/-! ## sequences and endings -/

/-- A sequence; the second part may use how the first one ended. -/
theorem carries_bind {S : β → Prop} {x : Exec α} {f : α → Exec β} (hx : (x m).Carries V Q)
    (hf : ∀ a m', x m = .done a m' → m'.heap.Carries V → Q a → (f a m').Carries V S) :
    ((x >>= f) m).Carries V S := by
  show (Exec.andThen x f m).Carries V S
  unfold Exec.andThen
  cases he : x m with
  | done a m₁ =>
    rw [he] at hx
    exact hf a m₁ he hx.1 hx.2
  | failed fault m₁ =>
    rw [he] at hx
    exact hx
  | outOfFuel => trivial

theorem carries_pure (hm : m.heap.Carries V) {a : α} (hq : Q a) : ((pure a : Exec α) m).Carries V Q := ⟨hm, hq⟩

theorem carries_fail (hm : m.heap.Carries V) {anchor : Token} {cause : RuntimeFault} :
    ((fail anchor cause : Exec α) m).Carries V Q :=
  hm

theorem carries_ofResult (hm : m.heap.Carries V) {anchor : Token} {r : Except RuntimeFault α}
    (hq : ∀ a, r = .ok a → Q a) : (ofResult anchor r m).Carries V Q := by
  cases r with
  | ok a => exact carries_pure hm (hq a rfl)
  | error cause => exact carries_fail hm

/-- A computation that leaves the heap alone. -/
theorem carries_of_heap (hm : m.heap.Carries V) {x : Exec α} (hd : ∀ a m', x m = .done a m' → m'.heap = m.heap ∧ Q a)
    (hf : ∀ fault m', x m = .failed fault m' → m'.heap = m.heap) : (x m).Carries V Q := by
  cases he : x m with
  | done a m' =>
    obtain ⟨hheap, ha⟩ := hd a m' he
    rw [← hheap] at hm
    exact ⟨hm, ha⟩
  | failed fault m' =>
    rw [← hf fault m' he] at hm
    exact hm
  | outOfFuel => trivial

/-! ## names -/

theorem carries_readName (hm : m.heap.Carries V) {d : Option Nat} {name : Token} :
    (readName d e name m).Carries V V := by
  refine carries_of_heap hm (fun v m' h => ?_) fun fault m' h => ?_
  · have hfound : ∀ {f : FrameRef}, Assoc.get? (m.heap.frames.bindings f) name.lexeme = some v → V v :=
      fun hf => hm.value _ _ (Assoc.mem_of_get? hf)
    cases d with
    | some d =>
      cases hv : m.heap.frames.findAt? e d name.lexeme with
      | some u =>
        simp only [readName, Frames.readAt, hv, Frames.orUndefined] at h
        cases h
        obtain ⟨f, -, hf⟩ := Option.bind_eq_some_iff.1 hv
        exact ⟨rfl, hfound hf⟩
      | none =>
        simp only [readName, Frames.readAt, hv, Frames.orUndefined] at h
        cases h
    | none =>
      cases hv : m.heap.frames.find? Heap.globals name.lexeme with
      | some u =>
        simp only [readName, Frames.read, hv, Frames.orUndefined] at h
        cases h
        obtain ⟨f, -, hf⟩ := Option.bind_eq_some_iff.1 hv
        exact ⟨rfl, hfound hf⟩
      | none =>
        simp only [readName, Frames.read, hv, Frames.orUndefined] at h
        cases h
  · unfold readName at h
    dsimp only at h
    split at h <;> cases h
    rfl

theorem carries_define (hm : m.heap.Carries V) {name : String} {v : Value} (hv : V v) :
    (define e name v m).Carries V fun _ => True :=
  ⟨hm.define e name hv, trivial⟩

theorem carries_writeName (hm : m.heap.Carries V) {d : Option Nat} {name : Token} {v : Value} (hv : V v) :
    (writeName d e name v m).Carries V fun _ => True := by
  unfold writeName
  dsimp only
  split
  · exact ⟨hm.define _ _ hv, trivial⟩
  · exact hm

theorem carries_nameIn? (hm : m.heap.Carries V) {d : Nat} {name : String} :
    (nameIn? e d name m).Carries V fun v => ∀ u ∈ v, V u := by
  refine ⟨hm, fun u hu => ?_⟩
  obtain ⟨f, -, hf⟩ := Option.bind_eq_some_iff.1 hu
  exact hm.value f _ (Assoc.mem_of_get? hf)

theorem carries_newFrame (hm : m.heap.Carries V) {b : Assoc String Value} (hb : ∀ p ∈ b, V p.2) :
    (newFrame e b m).Carries V fun _ => True :=
  ⟨hm.addFrame e hb, trivial⟩

/-! ## objects -/

theorem carries_newTag (hm : m.heap.Carries V) : (newTag m).Carries V fun t => t = m.heap.nextTag :=
  ⟨⟨hm.value, hm.field⟩, rfl⟩

theorem carries_newObject (hm : m.heap.Carries V) {c : Class} :
    (newObject c m).Carries V fun v => v = .object m.heap.objects.size c :=
  ⟨hm.addObject, rfl⟩

theorem carries_field? (hm : m.heap.Carries V) {o : ObjectRef} {name : String} :
    (field? o name m).Carries V fun v => ∀ u ∈ v, V u :=
  ⟨hm, fun _ hu => hm.field o _ (Assoc.mem_of_get? hu)⟩

theorem carries_setField (hm : m.heap.Carries V) {o : ObjectRef} {name : String} {v : Value} (hv : V v) :
    (setField o name v m).Carries V fun _ => True :=
  ⟨hm.setField o name hv, trivial⟩

theorem carries_bindThis (hm : m.heap.Carries V) {method : Closure} {this : Value} (ht : V this) :
    (bindThis method this m).Carries V fun _ => True := by
  refine carries_bind (carries_newFrame hm (List.forall_mem_singleton.2 ht)) fun e m₁ _ hm₁ _ => ?_
  exact carries_pure hm₁ trivial

theorem carries_boundMethod (hf : ∀ tag c, V (.function tag c)) (hm : m.heap.Carries V) {method : Closure} {this : Value}
    (ht : V this) : (boundMethod method this m).Carries V V := by
  refine carries_bind (carries_bindThis hm ht) fun c m₁ _ hm₁ _ => ?_
  refine carries_bind (carries_newTag hm₁) fun t m₂ _ hm₂ _ => ?_
  exact carries_pure hm₂ (hf t c)

theorem carries_getProperty (hf : ∀ tag c, V (.function tag c)) (hm : m.heap.Carries V) {o : ObjectRef} {c : Class}
    {name : Token} (ho : V (.object o c)) : (getProperty o c name m).Carries V V := by
  unfold getProperty
  refine carries_bind (carries_field? hm) fun found m₁ _ hm₁ hfound => ?_
  cases found with
  | some v => exact carries_pure hm₁ (hfound v rfl)
  | none =>
    cases hmethod : c.method? name.lexeme with
    | some method => exact carries_boundMethod hf hm₁ ho
    | none => exact carries_fail hm₁

theorem carries_getSuper (hf : ∀ tag c, V (.function tag c)) (hm : m.heap.Carries V) {distance : Option Nat}
    {keyword name : Token} : (getSuper distance e keyword name m).Carries V V := by
  unfold getSuper
  cases distance with
  | none => exact carries_fail hm
  | some d =>
    refine carries_bind (carries_readName hm) fun found m₁ _ hm₁ _ => ?_
    cases found with
    | klass parent =>
      refine carries_bind (carries_nameIn? hm₁) fun this m₂ _ hm₂ hthis => ?_
      cases this with
      | none => exact carries_fail hm₂
      | some this =>
        cases this with
        | object o c =>
          cases hmethod : parent.method? name.lexeme with
          | some method => exact carries_boundMethod hf hm₂ (hthis _ rfl)
          | none => exact carries_fail hm₂
        | _ => exact carries_fail hm₂
    | _ => exact carries_fail hm₁

/-! ## the console -/

theorem carries_write (hm : m.heap.Carries V) {s : String} : (write s m).Carries V fun _ => True := by
  unfold write
  dsimp only
  split
  · exact ⟨hm, trivial⟩
  · exact hm

theorem carries_print (hm : m.heap.Carries V) {keyword : Token} {v : Value} :
    (print keyword v m).Carries V fun _ => True := by
  cases v with
  | string raw =>
    simp only [print]
    cases Text.unescape raw with
    | ok s => exact carries_write hm
    | error c => exact carries_fail hm
  | _ => exact carries_write hm

theorem carries_runBuiltin (hp : ∀ v, Value.Plain v → V v) (hm : m.heap.Carries V) {hosts : Array Host}
    (hh : ∀ f ∈ hosts, Host.Tame f) {b : Builtin} {arguments : List Value} (ha : ∀ v ∈ arguments, V v) {paren : Token} :
    (runBuiltin hosts b arguments paren m).Carries V V := by
  refine carries_of_heap hm (fun v m' h => ?_) fun fault m' h => ?_
  · unfold runBuiltin at h
    split at h
    · next u c heq =>
      cases h
      exact ⟨rfl, (mem_or_plain_of_run hh heq).elim (ha _) (hp _)⟩
    · cases h
  · unfold runBuiltin at h
    split at h
    · cases h
    · cases h
      rfl

/-! ## calls and classes -/

theorem carries_checkArity (hm : m.heap.Carries V) {paren : Token} {expected got : Nat} :
    (checkArity paren expected got m).Carries V fun _ => True := by
  unfold checkArity
  split
  · exact carries_pure hm trivial
  · exact carries_fail hm

/-- A class takes the next tag, and its methods are closed over the frame, or over the next one if there is a
superclass. -/
theorem carries_makeClass (hn : V .nil) (hm : m.heap.Carries V) {name : Token} {parent : Option Class}
    {ms : List FunctionDecl} (hp : ∀ c ∈ parent, V (.klass c))
    (hc : V (.klass (.mk m.heap.nextTag name.lexeme parent
      (methodTable (parent.elim e fun _ => m.heap.frames.size) ms)))) :
    (makeClass e name parent ms m).Carries V fun _ => True := by
  have hrest : ∀ m₁ : Machine, m₁.heap.nextTag = m.heap.nextTag → m₁.heap.Carries V →
      ((do
        let t ← newTag
        define e name.lexeme (.klass (.mk t name.lexeme parent
          (methodTable (parent.elim e fun _ => m.heap.frames.size) ms))) : Exec Unit) m₁).Carries V fun _ => True := by
    intro m₁ htag hm₁
    refine carries_bind (carries_newTag hm₁) fun t m₂ _ hm₂ ht => ?_
    refine carries_define hm₂ ?_
    rw [ht, htag]
    exact hc
  unfold makeClass
  refine carries_bind (carries_define hm hn) fun _ m₁ hdefine hm₁ _ => ?_
  cases hdefine
  cases parent with
  | none => exact hrest _ rfl hm₁
  | some c =>
    have hsize : (m.heap.define e name.lexeme .nil).frames.size = m.heap.frames.size := Frames.size_define ..
    refine carries_bind (carries_newFrame hm₁ (List.forall_mem_singleton.2 (hp c rfl))) fun inner m₂ hnew hm₂ _ => ?_
    cases hnew
    show ((do
      let t ← newTag
      define e name.lexeme (.klass (.mk t name.lexeme (some c)
        (methodTable (m.heap.define e name.lexeme .nil).frames.size ms))) : Exec Unit) _).Carries V _
    rw [hsize]
    exact hrest _ rfl hm₂

theorem carries_callFrame (hm : m.heap.Carries V) {c : Closure} {arguments : List Value}
    (ha : ∀ v ∈ arguments, V v) : (callFrame c arguments m).Carries V fun _ => True := by
  refine carries_newFrame hm fun p hp => ?_
  rcases Assoc.mem_of_mem_setAll hp with hp | hp
  · exact ha _ (List.of_mem_zip hp).2
  · cases hp

theorem carries_callResult (hn : V .nil) (hm : m.heap.Carries V) {c : Closure} {flow : Flow} (hf : V flow.result) :
    (callResult c flow m).Carries V V := by
  unfold callResult
  split
  · refine carries_bind (carries_nameIn? hm) fun this m₁ _ hm₁ hthis => ?_
    cases this with
    | none => exact carries_pure hm₁ hn
    | some v => exact carries_pure hm₁ (hthis v rfl)
  · exact carries_pure hm hf

end Exec

/-! ## evaluation -/

/-- All functions of the recursion keep a property of all values, at one depth. -/
structure Carrying (V : Value → Prop) (σ : Setting) (n : Nat) : Prop where
  eval : ∀ {m e x}, m.heap.Carries V → σ.Supplies V ⟨n, .eval e x, m⟩ → (Exec.eval n σ e x m).Carries V V
  evalAll : ∀ {m e xs}, m.heap.Carries V → σ.Supplies V ⟨n, .evalAll e xs, m⟩ →
    (Exec.evalAll n σ e xs m).Carries V fun vs => ∀ v ∈ vs, V v
  call : ∀ {m f vs paren}, m.heap.Carries V → V f → (∀ v ∈ vs, V v) → σ.Supplies V ⟨n, .call f vs paren, m⟩ →
    (Exec.call n σ f vs paren m).Carries V V
  invoke : ∀ {m c vs}, m.heap.Carries V → (∀ v ∈ vs, V v) → σ.Supplies V ⟨n, .invoke c vs, m⟩ →
    (Exec.invoke n σ c vs m).Carries V V
  exec : ∀ {m e s}, m.heap.Carries V → σ.Supplies V ⟨n, .exec e s, m⟩ →
    (Exec.exec n σ e s m).Carries V fun flow => V flow.result
  execAll : ∀ {m e body}, m.heap.Carries V → σ.Supplies V ⟨n, .execAll e body, m⟩ →
    (Exec.execAll n σ e body m).Carries V fun flow => V flow.result
  loop : ∀ {m e c b i}, m.heap.Carries V → σ.Supplies V ⟨n, .loop e c b i, m⟩ →
    (Exec.loop n σ e c b i m).Carries V fun flow => V flow.result

namespace Carrying

open Exec

variable {V : Value → Prop} {σ : Setting} {n : Nat} {m : Machine} {e : FrameRef}

theorem carries_eval (ih : Carrying V σ n) {x : Expr} (hm : m.heap.Carries V)
    (hs : σ.Supplies V ⟨n + 1, .eval e x, m⟩) : (Exec.eval (n + 1) σ e x m).Carries V V := by
  cases x with
  | literal l =>
    simp only [Exec.eval]
    exact carries_pure hm (hs.plain _ (by cases l <;> trivial))
  | group inner =>
    simp only [Exec.eval]
    exact ih.eval hm (hs.call .group)
  | unary op right =>
    simp only [Exec.eval]
    refine carries_bind (ih.eval hm (hs.call .operand)) fun v m₁ _ hm₁ _ => ?_
    exact carries_ofResult hm₁ fun u hu => hs.plain _ (plain_applyUnary hu)
  | binary left op right =>
    simp only [Exec.eval]
    refine carries_bind (ih.eval hm (hs.call .binaryLeft)) fun v m₁ hv hm₁ _ => ?_
    refine carries_bind (ih.eval hm₁ (hs.call (.binaryRight hv))) fun u m₂ _ hm₂ _ => ?_
    exact carries_ofResult hm₂ fun y hy => hs.plain _ (plain_applyBinary hy)
  | logical left op right =>
    simp only [Exec.eval]
    refine carries_bind (ih.eval hm (hs.call .logicalLeft)) fun v m₁ hv hm₁ hleft => ?_
    cases hd : decides op.kind v with
    | true =>
      simp only [if_true]
      exact carries_pure hm₁ hleft
    | false =>
      simp only [Bool.false_eq_true, if_false]
      exact ih.eval hm₁ (hs.call (.logicalRight hv hd))
  | «variable» label name =>
    simp only [Exec.eval]
    exact carries_readName hm
  | assign label name value =>
    simp only [Exec.eval]
    refine carries_bind (ih.eval hm (hs.call .assigned)) fun v m₁ _ hm₁ hv => ?_
    refine carries_bind (carries_writeName hm₁ hv) fun _ m₂ _ hm₂ _ => ?_
    exact carries_pure hm₂ hv
  | call callee paren arguments =>
    simp only [Exec.eval]
    refine carries_bind (ih.eval hm (hs.call .callee)) fun f m₁ hf hm₁ hcallee => ?_
    refine carries_bind (ih.evalAll hm₁ (hs.call (.arguments hf))) fun vs m₂ hvs hm₂ hall => ?_
    exact ih.call hm₂ hcallee hall (hs.call (.called hf hvs))
  | get object name =>
    simp only [Exec.eval]
    refine carries_bind (ih.eval hm (hs.call .getObject)) fun v m₁ _ hm₁ hv => ?_
    cases v with
    | object o c => exact carries_getProperty hs.function hm₁ hv
    | _ => exact carries_fail hm₁
  | set object name value =>
    simp only [Exec.eval]
    refine carries_bind (ih.eval hm (hs.call .setObject)) fun v m₁ hobject hm₁ _ => ?_
    cases v with
    | object o c =>
      refine carries_bind (ih.eval hm₁ (hs.call (.setValue hobject))) fun u m₂ _ hm₂ hu => ?_
      refine carries_bind (carries_setField hm₂ hu) fun _ m₃ _ hm₃ _ => ?_
      exact carries_pure hm₃ hu
    | _ => exact carries_fail hm₁
  | this label keyword =>
    simp only [Exec.eval]
    exact carries_readName hm
  | super label keyword name =>
    simp only [Exec.eval]
    exact carries_getSuper hs.function hm

theorem carries_evalAll (ih : Carrying V σ n) {xs : List Expr} (hm : m.heap.Carries V)
    (hs : σ.Supplies V ⟨n + 1, .evalAll e xs, m⟩) :
    (Exec.evalAll (n + 1) σ e xs m).Carries V fun vs => ∀ v ∈ vs, V v := by
  cases xs with
  | nil =>
    simp only [Exec.evalAll]
    exact carries_pure hm (by simp)
  | cons x xs =>
    simp only [Exec.evalAll]
    refine carries_bind (ih.eval hm (hs.call .firstArgument)) fun v m₁ hv hm₁ hfirst => ?_
    refine carries_bind (ih.evalAll hm₁ (hs.call (.otherArguments hv))) fun vs m₂ _ hm₂ hrest => ?_
    exact carries_pure hm₂ (List.forall_mem_cons.2 ⟨hfirst, hrest⟩)

theorem carries_call (ih : Carrying V σ n) {f : Value} {vs : List Value} {paren : Token} (hm : m.heap.Carries V)
    (hf : V f) (hvs : ∀ v ∈ vs, V v) (hs : σ.Supplies V ⟨n + 1, .call f vs paren, m⟩) :
    (Exec.call (n + 1) σ f vs paren m).Carries V V := by
  cases f with
  | function tag c =>
    simp only [Exec.call]
    refine carries_bind (carries_checkArity hm) fun _ m₁ hcheck _ _ => ?_
    obtain ⟨hl, rfl⟩ := length_of_checkArity hcheck
    exact ih.invoke hm hvs (hs.call (.function hl))
  | builtin tag b =>
    simp only [Exec.call]
    refine carries_bind (carries_checkArity hm) fun _ m₁ hcheck _ _ => ?_
    obtain ⟨hl, rfl⟩ := length_of_checkArity hcheck
    exact carries_runBuiltin hs.plain hm hs.hosts hvs
  | klass c =>
    simp only [Exec.call]
    refine carries_bind (carries_checkArity hm) fun _ m₁ hcheck _ _ => ?_
    obtain ⟨hl, rfl⟩ := length_of_checkArity hcheck
    have hobject := hs.object _ _ c .refl (.object hl) hf
    refine carries_bind (carries_newObject hm) fun this m₂ hnew hm₂ hthis => ?_
    subst hthis
    cases hmethod : c.method? FunctionDecl.initName with
    | none => exact carries_pure hm₂ hobject
    | some initializer =>
      refine carries_bind (carries_bindThis hm₂ hobject) fun bound m₃ hbind hm₃ _ => ?_
      refine carries_bind (ih.invoke hm₃ hvs (hs.call (.initializer hl hnew hmethod hbind))) fun _ m₄ _ hm₄ _ => ?_
      exact carries_pure hm₄ hobject
  | _ =>
    simp only [Exec.call]
    exact carries_fail hm

theorem carries_invoke (ih : Carrying V σ n) {c : Closure} {vs : List Value} (hm : m.heap.Carries V)
    (hvs : ∀ v ∈ vs, V v) (hs : σ.Supplies V ⟨n + 1, .invoke c vs, m⟩) :
    (Exec.invoke (n + 1) σ c vs m).Carries V V := by
  simp only [Exec.invoke]
  refine carries_bind (carries_callFrame hm hvs) fun e m₁ hframe hm₁ _ => ?_
  refine carries_bind (ih.execAll hm₁ (hs.call (.body hframe))) fun flow m₂ _ hm₂ hflow => ?_
  exact carries_callResult (hs.plain _ trivial) hm₂ hflow

theorem carries_exec (ih : Carrying V σ n) {s : Stmt} (hm : m.heap.Carries V)
    (hs : σ.Supplies V ⟨n + 1, .exec e s, m⟩) :
    (Exec.exec (n + 1) σ e s m).Carries V fun flow => V flow.result := by
  have hnil : V .nil := hs.plain _ trivial
  cases s with
  | expr x =>
    simp only [Exec.exec]
    refine carries_bind (ih.eval hm (hs.call .expression)) fun v m₁ _ hm₁ _ => ?_
    exact carries_pure hm₁ hnil
  | print keyword x =>
    simp only [Exec.exec]
    refine carries_bind (ih.eval hm (hs.call .printed)) fun v m₁ _ hm₁ _ => ?_
    refine carries_bind (carries_print hm₁) fun _ m₂ _ hm₂ _ => ?_
    exact carries_pure hm₂ hnil
  | varDecl name x =>
    cases x with
    | none =>
      simp only [Exec.exec]
      refine carries_bind (carries_define hm hnil) fun _ m₁ _ hm₁ _ => ?_
      exact carries_pure hm₁ hnil
    | some x =>
      simp only [Exec.exec]
      refine carries_bind (ih.eval hm (hs.call .initialValue)) fun v m₁ _ hm₁ hv => ?_
      refine carries_bind (carries_define hm₁ hv) fun _ m₂ _ hm₂ _ => ?_
      exact carries_pure hm₂ hnil
  | block body =>
    simp only [Exec.exec]
    refine carries_bind (carries_newFrame hm (by simp)) fun inner m₁ hnew hm₁ _ => ?_
    exact ih.execAll hm₁ (hs.call (.block hnew))
  | ifThen c t =>
    simp only [Exec.exec]
    refine carries_bind (ih.eval hm (hs.call .ifTest)) fun v m₁ hv hm₁ _ => ?_
    cases ht : v.truthy with
    | true =>
      simp only [if_true]
      exact ih.exec hm₁ (hs.call (.ifBranch hv ht))
    | false => exact carries_pure hm₁ hnil
  | ifElse c t f =>
    simp only [Exec.exec]
    refine carries_bind (ih.eval hm (hs.call .ifElseTest)) fun v m₁ hv hm₁ _ => ?_
    cases ht : v.truthy with
    | true =>
      simp only [if_true]
      exact ih.exec hm₁ (hs.call (.thenBranch hv ht))
    | false =>
      simp only [Bool.false_eq_true, if_false]
      exact ih.exec hm₁ (hs.call (.elseBranch hv ht))
  | loop c b i =>
    simp only [Exec.exec]
    exact ih.loop hm (hs.call .loop)
  | funDecl d =>
    simp only [Exec.exec]
    refine carries_bind (carries_newTag hm) fun t m₁ _ hm₁ _ => ?_
    refine carries_bind (carries_define hm₁ (hs.function t ⟨d, e, false⟩)) fun _ m₂ _ hm₂ _ => ?_
    exact carries_pure hm₂ hnil
  | returnFrom keyword x =>
    cases x with
    | none =>
      simp only [Exec.exec]
      exact carries_pure hm hnil
    | some x =>
      simp only [Exec.exec]
      refine carries_bind (ih.eval hm (hs.call .returned)) fun v m₁ _ hm₁ hv => ?_
      exact carries_pure hm₁ hv
  | classDecl name x ms =>
    cases x with
    | none =>
      simp only [Exec.exec]
      have hclass := hs.klass _ _ .refl (.klass .plain) fun parent hp => absurd hp (Option.not_mem_none parent)
      refine carries_bind (carries_makeClass hnil hm (by simp) hclass) fun _ m₁ _ hm₁ _ => ?_
      exact carries_pure hm₁ hnil
    | some x =>
      simp only [Exec.exec]
      refine carries_bind (ih.eval hm (hs.call .superclass)) fun v m₁ hv hm₁ hcarried => ?_
      cases v with
      | klass parent =>
        have hparent : ∀ c ∈ some parent, V (.klass c) := fun c hc => Option.some.inj hc ▸ hcarried
        have hclass := hs.klass _ _ .refl (.klass (.derived hv)) hparent
        refine carries_bind (carries_pure hm₁ (Q := (· = parent)) rfl) fun c m₂ hpure _ hc => ?_
        subst hc
        cases hpure
        refine carries_bind (carries_makeClass hnil hm₁ hparent hclass) fun _ m₃ _ hm₃ _ => ?_
        exact carries_pure hm₃ hnil
      | _ =>
        cases x <;> exact hm₁
  | breakLoop keyword =>
    simp only [Exec.exec]
    exact carries_pure hm hnil
  | continueLoop keyword =>
    simp only [Exec.exec]
    exact carries_pure hm hnil

theorem carries_execAll (ih : Carrying V σ n) {body : List Stmt} (hm : m.heap.Carries V)
    (hs : σ.Supplies V ⟨n + 1, .execAll e body, m⟩) :
    (Exec.execAll (n + 1) σ e body m).Carries V fun flow => V flow.result := by
  cases body with
  | nil =>
    simp only [Exec.execAll]
    exact carries_pure hm (hs.plain _ trivial)
  | cons s rest =>
    simp only [Exec.execAll]
    refine carries_bind (ih.exec hm (hs.call .firstStatement)) fun flow m₁ hx hm₁ hflow => ?_
    cases flow with
    | normal => exact ih.execAll hm₁ (hs.call (.otherStatements hx))
    | _ => exact carries_pure hm₁ hflow

theorem carries_loop (ih : Carrying V σ n) {c : Expr} {b : Stmt} {i : Option Expr} (hm : m.heap.Carries V)
    (hs : σ.Supplies V ⟨n + 1, .loop e c b i, m⟩) :
    (Exec.loop (n + 1) σ e c b i m).Carries V fun flow => V flow.result := by
  rw [loop_succ]
  refine carries_bind (ih.eval hm (hs.call .test)) fun v m₁ hv hm₁ _ => ?_
  cases ht : v.truthy with
  | false => exact carries_pure hm₁ (hs.plain _ trivial)
  | true =>
    simp only [if_true]
    refine carries_bind (ih.exec hm₁ (hs.call (.round hv ht))) fun flow m₂ hround hm₂ hflow => ?_
    have hagain : flow.goesOn = true → (again n σ e c b i m₂).Carries V fun flow => V flow.result := by
      intro hgo
      cases i with
      | none => exact ih.loop hm₂ (hs.call (.again hv ht hround hgo))
      | some x =>
        refine carries_bind (ih.eval hm₂ (hs.call (.increment hv ht hround hgo))) fun u m₃ hu hm₃ _ => ?_
        exact ih.loop hm₃ (hs.call (.againBehindIncrement hv ht hround hgo hu))
    cases flow with
    | normal => exact hagain rfl
    | returned v => exact carries_pure hm₂ hflow
    | broken => exact carries_pure hm₂ (hs.plain _ trivial)
    | continued => exact hagain rfl

end Carrying

section

variable {V : Value → Prop} {σ : Setting}

/-- Evaluation keeps a property of all values, at every depth. -/
theorem carrying (n : Nat) : Carrying V σ n := by
  induction n with
  | zero =>
    constructor <;> intros <;>
      simp only [Exec.eval, Exec.evalAll, Exec.call, Exec.invoke, Exec.exec, Exec.execAll, Exec.loop] <;> trivial
  | succ n ih =>
    exact ⟨ih.carries_eval, ih.carries_evalAll, ih.carries_call, ih.carries_invoke, ih.carries_exec,
      ih.carries_execAll, ih.carries_loop⟩

/-- A program keeps it. -/
theorem carries_program {n : Nat} {body : List Stmt} {m : Machine} (hm : m.heap.Carries V)
    (hs : σ.Supplies V ⟨n, .program body, m⟩) : (Exec.program n σ body m).Carries V fun _ => True := by
  induction body generalizing m with
  | nil => exact Exec.carries_pure hm trivial
  | cons s rest ih =>
    simp only [Exec.program]
    refine Exec.carries_bind ((carrying n).exec hm (hs.call .topStatement)) fun flow m₁ hx hm₁ _ => ?_
    exact ih hm₁ (hs.call (.restOfProgram hx))

/-! ## every point of a run -/

open Exec

variable {p q : Point} {n : Nat} {m m₁ m₂ : Machine} {e : FrameRef}

/-- Behind an expression. -/
theorem Heap.Carries.behind_eval {x : Expr} {v : Value} (hm : m.heap.Carries V) (hs : σ.Supplies V ⟨n, .eval e x, m⟩)
    (h : eval n σ e x m = .done v m₁) : m₁.heap.Carries V ∧ V v := by
  have hcarries := (carrying n).eval hm hs
  rwa [h] at hcarries

/-- Behind a statement. -/
theorem Heap.Carries.behind_exec {s : Stmt} {flow : Flow} (hm : m.heap.Carries V)
    (hs : σ.Supplies V ⟨n, .exec e s, m⟩) (h : exec n σ e s m = .done flow m₁) : m₁.heap.Carries V := by
  have hcarries := (carrying n).exec hm hs
  rw [h] at hcarries
  exact hcarries.1

/-- Behind the test of a loop and its body. -/
theorem Heap.Carries.behind_round {c : Expr} {b : Stmt} {i : Option Expr} {v : Value} {flow : Flow}
    (hm : m.heap.Carries V) (hs : σ.SuppliesBefore V ⟨n + 1, .loop e c b i, m⟩ q) (hv : eval n σ e c m = .done v m₁)
    (ht : v.truthy = true) (hb : exec n σ e b m₁ = .done flow m₂) (hq : m₂.Older q.machine) : m₂.heap.Carries V := by
  have htest := hs.call _ .test (.eval hv ((older_of_exec hb).trans hq))
  exact (hm.behind_eval htest hv).1.behind_exec (hs.call _ (.round hv ht) (.exec hb hq)) hb

/-- The values at a point that a task calls are its own, or were made since. -/
theorem Calls.carries_of_before (h : Calls σ p q) (hs : σ.SuppliesBefore V p q) (hp : p.Carries V) : q.Carries V := by
  obtain ⟨hm, ha⟩ := hp
  -- a part that is evaluated just before the call
  have hpart : ∀ {n e x m m' v}, m.heap.Carries V → Calls σ p ⟨n, .eval e x, m⟩ → eval n σ e x m = .done v m' →
      m'.Older q.machine → m'.heap.Carries V ∧ V v :=
    fun hm hc hv hq => hm.behind_eval (hs.call _ hc (.eval hv hq)) hv
  cases h with
  | binaryRight hl => exact ⟨(hpart hm .binaryLeft hl (.refl _)).1, fun _ h => nomatch h⟩
  | logicalRight hl _ => exact ⟨(hpart hm .logicalLeft hl (.refl _)).1, fun _ h => nomatch h⟩
  | arguments hf => exact ⟨(hpart hm .callee hf (.refl _)).1, fun _ h => nomatch h⟩
  | @called n _ _ _ _ _ _ _ _ _ hf hvs =>
    obtain ⟨hm₁, hv⟩ := hpart hm .callee hf (older_of_evalAll hvs)
    have hcarries := (carrying n).evalAll hm₁ (hs.call _ (.arguments hf) (.evalAll hvs (.refl _)))
    rw [hvs] at hcarries
    exact ⟨hcarries.1, List.forall_mem_cons.2 ⟨hv, hcarries.2⟩⟩
  | setValue ho => exact ⟨(hpart hm .setObject ho (.refl _)).1, fun _ h => nomatch h⟩
  | otherArguments hv => exact ⟨(hpart hm .firstArgument hv (.refl _)).1, fun _ h => nomatch h⟩
  | function hl => exact ⟨hm, (List.forall_mem_cons.1 ha).2⟩
  | initializer hl hnew _ hbind =>
    obtain ⟨hc, hvs⟩ := List.forall_mem_cons.1 ha
    have hobject := hs.object _ _ (.object hl) hc
    cases hnew
    cases hbind
    exact ⟨hm.addObject.addFrame _ (List.forall_mem_singleton.2 hobject), hvs⟩
  | @body _ c vs m₀ _ _ hframe =>
    have hcarries : (callFrame c vs m₀).Carries V fun _ => True := carries_callFrame hm ha
    rw [hframe] at hcarries
    exact ⟨hcarries.1, fun _ h => nomatch h⟩
  | @block _ e _ _ _ _ hnew =>
    have hcarries := carries_newFrame hm (e := e) (b := []) (by simp)
    rw [hnew] at hcarries
    exact ⟨hcarries.1, fun _ h => nomatch h⟩
  | ifBranch hv _ => exact ⟨(hpart hm .ifTest hv (.refl _)).1, fun _ h => nomatch h⟩
  | thenBranch hv _ => exact ⟨(hpart hm .ifElseTest hv (.refl _)).1, fun _ h => nomatch h⟩
  | elseBranch hv _ => exact ⟨(hpart hm .ifElseTest hv (.refl _)).1, fun _ h => nomatch h⟩
  | otherStatements hx =>
    exact ⟨hm.behind_exec (hs.call _ .firstStatement (.exec hx (.refl _))) hx, fun _ h => nomatch h⟩
  | round hv _ => exact ⟨(hpart hm .test hv (.refl _)).1, fun _ h => nomatch h⟩
  | increment hv ht hb _ => exact ⟨hm.behind_round hs hv ht hb (.refl _), fun _ h => nomatch h⟩
  | again hv ht hb _ => exact ⟨hm.behind_round hs hv ht hb (.refl _), fun _ h => nomatch h⟩
  | againBehindIncrement hv ht hb hgo hu =>
    have hm₂ := hm.behind_round hs hv ht hb (older_of_eval hu)
    exact ⟨(hpart hm₂ (.increment hv ht hb hgo) hu (.refl _)).1, fun _ h => nomatch h⟩
  | restOfProgram hx =>
    exact ⟨hm.behind_exec (hs.call _ .topStatement (.exec hx (.refl _))) hx, fun _ h => nomatch h⟩
  | _ => exact ⟨hm, fun _ h => nomatch h⟩

theorem Calls.carries (h : Calls σ p q) (hs : σ.Supplies V p) (hp : p.Carries V) : q.Carries V :=
  h.carries_of_before hs.before hp

/-- So it is at every point that a run visits. -/
theorem Visits.carries (h : Visits σ p q) (hs : σ.Supplies V p) (hp : p.Carries V) : q.Carries V := by
  induction h with
  | refl => exact hp
  | tail hv hc ih => exact hc.carries (hs.visits hv) ih

end

end ScriptLang
