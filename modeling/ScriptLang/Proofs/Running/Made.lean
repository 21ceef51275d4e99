import ScriptLang.Proofs.Parsing.Strings
import ScriptLang.Proofs.Running.Tells

/-!
# What values are made of

Strings come from literals and from strings that were put together, and objects from classes that were called.

* `Value.Made P count` — the strings in a value have the property `P`, also those in the code of its functions and
  methods, methods go by the names they were declared with, and its object is one of `count`;
* `Heap.MadeOf P` — this holds of everything that frames and fields hold;
* `Ending.Makes P count Q` — a computation that started with `count` objects leaves such a heap, and a value with `Q`.

There is one lemma for each computation without recursion.
-/

namespace ScriptLang

/-- The string literals in the body of a function have a property. -/
def Closure.Spells (P : String → Prop) (c : Closure) : Prop := ∀ raw ∈ c.declaration.strings, P raw

/-- Methods are found by the names that they were declared with. -/
def Class.Titled (c : Class) : Prop := ∀ name method, c.method? name = some method → method.name = name

/-- The strings in a value have a property, methods go by their names, and its object is one of `count`. -/
def Value.Made (P : String → Prop) (count : Nat) : Value → Prop
  | .string raw => P raw
  | .function _ c => c.Spells P
  | .klass c => c.Every (Closure.Spells P) ∧ c.Titled
  | .object o c => o < count ∧ c.Every (Closure.Spells P) ∧ c.Titled
  | _ => True

/-- All values in frames and fields are made so. -/
structure Heap.MadeOf (P : String → Prop) (h : Heap) : Prop where
  value : ∀ e, ∀ p ∈ h.frames.bindings e, p.2.Made P h.objects.size
  field : ∀ o, ∀ p ∈ h.fields o, p.2.Made P h.objects.size

/-- The ending of a computation that started with so many objects. -/
def Ending.Makes {α : Type} (P : String → Prop) (count : Nat) (Q : Nat → α → Prop) : Ending α → Prop
  | .done a m => count ≤ m.heap.objects.size ∧ m.heap.MadeOf P ∧ Q m.heap.objects.size a
  | .failed _ m => count ≤ m.heap.objects.size ∧ m.heap.MadeOf P
  | .outOfFuel => True

/-- What a definition leaves in a frame is what it binds, or was there before. -/
theorem Frames.mem_bindings_define {α : Type} {fs : Frames α} {e f : FrameRef} {name : String} {a : α}
    {p : String × α} (h : p ∈ (fs.define e name a).bindings f) : p = (name, a) ∨ p ∈ fs.bindings f := by
  unfold bindings define at h
  rw [Array.getElem?_modify] at h
  unfold bindings
  split at h
  · next he =>
    subst he
    cases hf : fs[e]? with
    | none =>
      rw [hf] at h
      cases h
    | some frame =>
      rw [hf] at h
      exact Assoc.mem_of_mem_set h
  · exact .inr h

section

variable {P : String → Prop} {count count' : Nat}

theorem Value.Made.mono {v : Value} (h : v.Made P count) (hc : count ≤ count') : v.Made P count' := by
  cases v with
  | object o c => exact ⟨Nat.lt_of_lt_of_le h.1 hc, h.2⟩
  | _ => exact h

/-- A plain value that is no string is made of nothing. -/
theorem Value.Plain.made {v : Value} (h : v.Plain) (hs : ∀ raw, v = .string raw → P raw) : v.Made P count := by
  cases v with
  | string raw => exact hs raw rfl
  | function tag c => exact h.elim
  | klass c => exact h.elim
  | object o c => exact h.elim
  | _ => trivial

namespace Heap.MadeOf

variable {h : Heap}

/-- A heap with as many objects whose values are made so. -/
theorem of_values {h' : Heap} (hm : h.MadeOf P) (hs : h'.objects = h.objects)
    (hv : ∀ e, ∀ p ∈ h'.frames.bindings e, p.2.Made P h.objects.size) : h'.MadeOf P where
  value := hs ▸ hv
  field o p hp := by
    have hfields : h'.fields o = h.fields o := by rw [Heap.fields, hs, Heap.fields]
    exact hs ▸ hm.field o p (hfields ▸ hp)

theorem define (hm : h.MadeOf P) (e : FrameRef) (name : String) {v : Value} (hv : v.Made P h.objects.size) :
    (h.define e name v).MadeOf P := by
  refine hm.of_values rfl fun f p hp => ?_
  rcases Frames.mem_bindings_define hp with rfl | hp
  · exact hv
  · exact hm.value f p hp

theorem addFrame (hm : h.MadeOf P) (e : FrameRef) {b : Assoc String Value} (hb : ∀ p ∈ b, p.2.Made P h.objects.size) :
    (h.addFrame e b).MadeOf P := by
  refine hm.of_values rfl fun f p hp => ?_
  rw [Heap.addFrame, Frames.bindings_push] at hp
  split at hp
  · exact hb p hp
  · exact hm.value f p hp

theorem addObject (hm : h.MadeOf P) : h.addObject.MadeOf P := by
  have hle : h.objects.size ≤ h.addObject.objects.size := by simp [Heap.addObject]
  refine ⟨fun e p hp => (hm.value e p hp).mono hle, fun o p hp => ?_⟩
  rw [World.fields_addObject] at hp
  exact (hm.field o p hp).mono hle

theorem setField (hm : h.MadeOf P) (o : ObjectRef) (name : String) {v : Value} (hv : v.Made P h.objects.size) :
    (h.setField o name v).MadeOf P := by
  have hsize : (h.setField o name v).objects.size = h.objects.size := by simp [Heap.setField]
  refine ⟨fun e p hp => hsize ▸ hm.value e p hp, fun o' p hp => ?_⟩
  rw [hsize]
  rcases Scene.mem_fields_setField hp with hp | hp
  · rw [hp]
    exact hv
  · exact hm.field o' p hp

end Heap.MadeOf

end

namespace Exec

variable {α β : Type} {P : String → Prop} {m : Machine} {e : FrameRef} {Q R : Nat → α → Prop}

theorem makes_weaken {count : Nat} {x : Ending α} (h : x.Makes P count Q) (hq : ∀ k a, count ≤ k → Q k a → R k a) :
    x.Makes P count R := by
  cases x with
  | done a m => exact ⟨h.1, h.2.1, hq _ a h.1 h.2.2⟩
  | failed fault m => exact h
  | outOfFuel => trivial

/-- A sequence; the second part may use how the first one ended. -/
theorem makes_bind {S : Nat → β → Prop} {x : Exec α} {f : α → Exec β}
    (hx : (x m).Makes P m.heap.objects.size Q)
    (hf : ∀ a m', x m = .done a m' → m.heap.objects.size ≤ m'.heap.objects.size → m'.heap.MadeOf P →
      Q m'.heap.objects.size a → (f a m').Makes P m'.heap.objects.size S) :
    ((x >>= f) m).Makes P m.heap.objects.size S := by
  show (Exec.andThen x f m).Makes P m.heap.objects.size S
  unfold Exec.andThen
  cases he : x m with
  | done a m₁ =>
    rw [he] at hx
    obtain ⟨hle, hm₁, ha⟩ := hx
    have hend := hf a m₁ he hle hm₁ ha
    show (f a m₁).Makes P m.heap.objects.size S
    cases hfm : f a m₁ with
    | done b m₂ =>
      rw [hfm] at hend
      exact ⟨Nat.le_trans hle hend.1, hend.2⟩
    | failed fault m₂ =>
      rw [hfm] at hend
      exact ⟨Nat.le_trans hle hend.1, hend.2⟩
    | outOfFuel => trivial
  | failed fault m₁ =>
    rw [he] at hx
    exact hx
  | outOfFuel => trivial

theorem makes_pure (hm : m.heap.MadeOf P) {a : α} (hq : Q m.heap.objects.size a) :
    ((pure a : Exec α) m).Makes P m.heap.objects.size Q :=
  ⟨Nat.le_refl _, hm, hq⟩

theorem makes_fail (hm : m.heap.MadeOf P) {anchor : Token} {cause : RuntimeFault} :
    ((fail anchor cause : Exec α) m).Makes P m.heap.objects.size Q :=
  ⟨Nat.le_refl _, hm⟩

theorem makes_ofResult (hm : m.heap.MadeOf P) {anchor : Token} {r : Except RuntimeFault α}
    (hq : ∀ a, r = .ok a → Q m.heap.objects.size a) : (ofResult anchor r m).Makes P m.heap.objects.size Q := by
  cases r with
  | ok a => exact makes_pure hm (hq a rfl)
  | error cause => exact makes_fail hm

/-- A computation that leaves the heap alone. -/
theorem makes_of_heap (hm : m.heap.MadeOf P) {x : Exec α}
    (hd : ∀ a m', x m = .done a m' → m'.heap = m.heap ∧ Q m.heap.objects.size a)
    (hf : ∀ fault m', x m = .failed fault m' → m'.heap = m.heap) : (x m).Makes P m.heap.objects.size Q := by
  cases he : x m with
  | done a m' =>
    obtain ⟨hheap, ha⟩ := hd a m' he
    rw [← hheap] at hm ha ⊢
    exact ⟨Nat.le_refl _, hm, ha⟩
  | failed fault m' =>
    rw [← hf fault m' he] at hm ⊢
    exact ⟨Nat.le_refl _, hm⟩
  | outOfFuel => trivial

/-! ## names -/

theorem made_of_findAt? (hm : m.heap.MadeOf P) {d : Nat} {name : String} {v : Value}
    (h : m.heap.frames.findAt? e d name = some v) : v.Made P m.heap.objects.size := by
  obtain ⟨f, -, hf⟩ := Option.bind_eq_some_iff.1 h
  exact hm.value f _ (Assoc.mem_of_get? hf)

theorem makes_readName (hm : m.heap.MadeOf P) {d : Option Nat} {name : Token} :
    (readName d e name m).Makes P m.heap.objects.size fun k v => v.Made P k := by
  unfold readName
  cases d with
  | some d =>
    cases hv : m.heap.frames.findAt? e d name.lexeme with
    | some v =>
      simp only [Frames.readAt, hv, Frames.orUndefined]
      exact ⟨Nat.le_refl _, hm, made_of_findAt? hm hv⟩
    | none =>
      simp only [Frames.readAt, hv, Frames.orUndefined]
      exact ⟨Nat.le_refl _, hm⟩
  | none =>
    cases hv : m.heap.frames.find? Heap.globals name.lexeme with
    | some v =>
      obtain ⟨f, -, hf⟩ := Option.bind_eq_some_iff.1 hv
      simp only [Frames.read, hv, Frames.orUndefined]
      exact ⟨Nat.le_refl _, hm, hm.value f _ (Assoc.mem_of_get? hf)⟩
    | none =>
      simp only [Frames.read, hv, Frames.orUndefined]
      exact ⟨Nat.le_refl _, hm⟩

theorem makes_define (hm : m.heap.MadeOf P) {name : String} {v : Value} (hv : v.Made P m.heap.objects.size) :
    (define e name v m).Makes P m.heap.objects.size fun k _ => v.Made P k :=
  ⟨Nat.le_refl _, hm.define e name hv, hv⟩

theorem makes_writeName (hm : m.heap.MadeOf P) {d : Option Nat} {name : Token} {v : Value}
    (hv : v.Made P m.heap.objects.size) :
    (writeName d e name v m).Makes P m.heap.objects.size fun k _ => v.Made P k := by
  unfold writeName
  dsimp only
  split
  · exact ⟨Nat.le_refl _, hm.define _ _ hv, hv⟩
  · exact ⟨Nat.le_refl _, hm⟩

theorem makes_nameIn? (hm : m.heap.MadeOf P) {d : Nat} {name : String} :
    (nameIn? e d name m).Makes P m.heap.objects.size fun k v => ∀ u ∈ v, Value.Made P k u :=
  ⟨Nat.le_refl _, hm, fun _ hu => made_of_findAt? hm hu⟩

theorem makes_newFrame (hm : m.heap.MadeOf P) {b : Assoc String Value} (hb : ∀ p ∈ b, p.2.Made P m.heap.objects.size) :
    (newFrame e b m).Makes P m.heap.objects.size fun k _ => k = m.heap.objects.size :=
  ⟨Nat.le_refl _, hm.addFrame e hb, rfl⟩

/-! ## objects -/

theorem makes_newTag (hm : m.heap.MadeOf P) : (newTag m).Makes P m.heap.objects.size fun k _ => k = m.heap.objects.size :=
  ⟨Nat.le_refl _, ⟨hm.value, hm.field⟩, rfl⟩

theorem makes_newObject (hm : m.heap.MadeOf P) {c : Class} (hc : (Value.klass c).Made P m.heap.objects.size) :
    (newObject c m).Makes P m.heap.objects.size fun k v => v = .object m.heap.objects.size c ∧ v.Made P k := by
  have hsize : m.heap.addObject.objects.size = m.heap.objects.size + 1 := by simp [Heap.addObject]
  refine ⟨?_, hm.addObject, rfl, ?_, hc⟩
  · show _ ≤ m.heap.addObject.objects.size
    omega
  · show _ < m.heap.addObject.objects.size
    omega

theorem makes_field? (hm : m.heap.MadeOf P) {o : ObjectRef} {name : String} :
    (field? o name m).Makes P m.heap.objects.size fun k v => ∀ u ∈ v, Value.Made P k u :=
  ⟨Nat.le_refl _, hm, fun _ hu => hm.field o _ (Assoc.mem_of_get? hu)⟩

theorem makes_setField (hm : m.heap.MadeOf P) {o : ObjectRef} {name : String} {v : Value}
    (hv : v.Made P m.heap.objects.size) :
    (setField o name v m).Makes P m.heap.objects.size fun k _ => v.Made P k := by
  have hsize : (m.heap.setField o name v).objects.size = m.heap.objects.size := by simp [Heap.setField]
  refine ⟨Nat.le_of_eq hsize.symm, hm.setField o name hv, ?_⟩
  show v.Made P (m.heap.setField o name v).objects.size
  rw [hsize]
  exact hv

theorem makes_bindThis (hm : m.heap.MadeOf P) {method : Closure} {this : Value} (hmethod : method.Spells P)
    (ht : this.Made P m.heap.objects.size) :
    (bindThis method this m).Makes P m.heap.objects.size fun k c => k = m.heap.objects.size ∧ c.Spells P := by
  refine makes_bind (makes_newFrame hm (List.forall_mem_singleton.2 ht)) fun e m₁ _ _ hm₁ hk => ?_
  exact makes_pure hm₁ ⟨hk, hmethod⟩

theorem makes_boundMethod (hm : m.heap.MadeOf P) {method : Closure} {this : Value} (hmethod : method.Spells P)
    (ht : this.Made P m.heap.objects.size) :
    (boundMethod method this m).Makes P m.heap.objects.size fun k v => v.Made P k := by
  refine makes_bind (makes_bindThis hm hmethod ht) fun c m₁ _ _ hm₁ hc => ?_
  refine makes_bind (makes_newTag hm₁) fun t m₂ _ _ hm₂ _ => ?_
  exact makes_pure hm₂ hc.2

theorem makes_getProperty (hm : m.heap.MadeOf P) {o : ObjectRef} {c : Class} {name : Token}
    (ho : (Value.object o c).Made P m.heap.objects.size) :
    (getProperty o c name m).Makes P m.heap.objects.size fun k v => v.Made P k := by
  unfold getProperty
  refine makes_bind (makes_field? hm) fun found m₁ hfound hle hm₁ hmade => ?_
  cases found with
  | some v => exact makes_pure hm₁ (hmade v rfl)
  | none =>
    cases hmethod : c.method? name.lexeme with
    | some method => exact makes_boundMethod hm₁ (Class.Every.method ho.2.1 hmethod) (ho.mono hle)
    | none => exact makes_fail hm₁

theorem makes_getSuper (hm : m.heap.MadeOf P) {distance : Option Nat} {keyword name : Token} :
    (getSuper distance e keyword name m).Makes P m.heap.objects.size fun k v => v.Made P k := by
  unfold getSuper
  cases distance with
  | none => exact makes_fail hm
  | some d =>
    refine makes_bind (makes_readName hm) fun found m₁ _ _ hm₁ hfound => ?_
    cases found with
    | klass parent =>
      refine makes_bind (makes_nameIn? hm₁) fun this m₂ _ _ hm₂ hthis => ?_
      cases this with
      | none => exact makes_fail hm₂
      | some this =>
        cases this with
        | object o c =>
          cases hmethod : parent.method? name.lexeme with
          | some method => exact makes_boundMethod hm₂ (Class.Every.method hfound.1 hmethod) (hthis _ rfl)
          | none => exact makes_fail hm₂
        | _ => exact makes_fail hm₂
    | _ => exact makes_fail hm₁

/-! ## the console -/

theorem makes_write (hm : m.heap.MadeOf P) {s : String} :
    (write s m).Makes P m.heap.objects.size fun _ _ => True := by
  unfold write
  dsimp only
  split
  · exact ⟨Nat.le_refl _, hm, trivial⟩
  · exact ⟨Nat.le_refl _, hm⟩

theorem makes_flush (hm : m.heap.MadeOf P) : (flush m).Makes P m.heap.objects.size fun _ _ => True := by
  unfold flush
  split
  · exact ⟨Nat.le_refl _, hm⟩
  · exact ⟨Nat.le_refl _, hm, trivial⟩

theorem makes_print (hm : m.heap.MadeOf P) {keyword : Token} {v : Value} :
    (print keyword v m).Makes P m.heap.objects.size fun _ _ => True := by
  cases v with
  | string raw =>
    simp only [print]
    cases Text.unescape raw with
    | ok s => exact makes_write hm
    | error c => exact makes_fail hm
  | _ => exact makes_write hm

theorem makes_runBuiltin (hm : m.heap.MadeOf P) {hosts : Array Host} (hh : ∀ f ∈ hosts, Host.Tame f) {b : Builtin}
    {arguments : List Value} (ha : ∀ v ∈ arguments, v.Made P m.heap.objects.size) {paren : Token}
    (hs : ∀ raw m', runBuiltin hosts b arguments paren m = .done (.string raw) m' → P raw) :
    (runBuiltin hosts b arguments paren m).Makes P m.heap.objects.size fun k v => v.Made P k := by
  refine makes_of_heap hm (fun v m' h => ?_) fun fault m' h => ?_
  · have hstring : ∀ raw, v = .string raw → P raw := by
      rintro raw rfl
      exact hs raw m' h
    unfold runBuiltin at h
    split at h
    · next u c heq =>
      cases h
      exact ⟨rfl, (mem_or_plain_of_run hh heq).elim (ha _) fun hplain => hplain.made hstring⟩
    · cases h
  · unfold runBuiltin at h
    split at h
    · cases h
    · cases h
      rfl

/-! ## calls and classes -/

theorem makes_checkArity (hm : m.heap.MadeOf P) {paren : Token} {expected got : Nat} :
    (checkArity paren expected got m).Makes P m.heap.objects.size fun k _ => k = m.heap.objects.size := by
  unfold checkArity
  split
  · exact makes_pure hm rfl
  · exact makes_fail hm

theorem makes_asSuperclass (hm : m.heap.MadeOf P) {name : Token} {x : Expr} {v : Value}
    (hv : v.Made P m.heap.objects.size) :
    (asSuperclass name x v m).Makes P m.heap.objects.size fun k c => (Value.klass c).Made P k := by
  unfold asSuperclass
  split
  · exact makes_pure hm hv
  · split <;> exact makes_fail hm

/-- A method stands in the table under the name that it was declared with. -/
theorem name_of_methodTable {inner : FrameRef} {methods : List FunctionDecl} {name : String} {method : Closure}
    (h : Assoc.get? (methodTable inner methods) name = some method) : method.name = name := by
  rcases Assoc.mem_of_mem_setAll (Assoc.mem_of_get? h) with h | h
  · obtain ⟨d, -, he⟩ := List.mem_map.1 h
    cases he
    rfl
  · cases h

/-- A class of made methods and a made superclass. -/
theorem made_mk {tag : Tag} {name : String} {parent : Option Class} {methods : List FunctionDecl} {inner : FrameRef}
    {count : Nat} (hp : ∀ c ∈ parent, (Value.klass c).Made P count) (hs : ∀ raw ∈ FunctionDecl.stringsAll methods, P raw) :
    (Value.klass (.mk tag name parent (methodTable inner methods))).Made P count := by
  have hown : ∀ p ∈ methodTable inner methods, p.2.Spells P := by
    intro p hp
    obtain ⟨d, hd, he⟩ := mem_methodTable hp
    rw [he]
    exact fun raw hraw => hs raw (FunctionDecl.strings_subset hd hraw)
  cases parent with
  | none => exact ⟨hown, fun _ _ h => name_of_methodTable h⟩
  | some c =>
    refine ⟨⟨hown, (hp c rfl).1⟩, fun key method h => ?_⟩
    unfold Class.method? at h
    split at h
    · next own =>
      obtain rfl := Option.some.inj h
      exact name_of_methodTable own
    · exact (hp c rfl).2 key method h

theorem makes_makeClass (hm : m.heap.MadeOf P) {name : Token} {parent : Option Class} {methods : List FunctionDecl}
    (hp : ∀ c ∈ parent, (Value.klass c).Made P m.heap.objects.size)
    (hs : ∀ raw ∈ FunctionDecl.stringsAll methods, P raw) :
    (makeClass e name parent methods m).Makes P m.heap.objects.size fun _ _ => True := by
  have hrest : ∀ (m₁ : Machine) (inner : FrameRef), m.heap.objects.size ≤ m₁.heap.objects.size → m₁.heap.MadeOf P →
      ((do
        let t ← newTag
        define e name.lexeme (.klass (.mk t name.lexeme parent (methodTable inner methods))) : Exec Unit) m₁).Makes P
        m₁.heap.objects.size fun _ _ => True := by
    intro m₁ inner hle hm₁
    refine makes_bind (makes_newTag hm₁) fun t m₂ _ hle₂ hm₂ _ => ?_
    have hclass : (Value.klass (.mk t name.lexeme parent (methodTable inner methods))).Made P m₂.heap.objects.size :=
      made_mk (fun c hc => (hp c hc).mono (Nat.le_trans hle hle₂)) hs
    exact makes_weaken (makes_define hm₂ hclass) fun _ _ _ _ => trivial
  unfold makeClass
  refine makes_bind (makes_define hm (v := .nil) trivial) fun _ m₁ _ hle₁ hm₁ _ => ?_
  cases parent with
  | none =>
    refine makes_bind (makes_pure hm₁ (Q := fun _ _ => True) trivial) fun inner m₂ _ hle₂ hm₂ _ => ?_
    exact hrest m₂ inner (Nat.le_trans hle₁ hle₂) hm₂
  | some c =>
    have hc : (Value.klass c).Made P m₁.heap.objects.size := (hp c rfl).mono hle₁
    refine makes_bind (makes_newFrame hm₁ (List.forall_mem_singleton.2 hc)) fun inner m₂ _ hle₂ hm₂ _ => ?_
    exact hrest m₂ inner (Nat.le_trans hle₁ hle₂) hm₂

theorem makes_callFrame (hm : m.heap.MadeOf P) {c : Closure} {arguments : List Value}
    (ha : ∀ v ∈ arguments, v.Made P m.heap.objects.size) :
    (callFrame c arguments m).Makes P m.heap.objects.size fun k _ => k = m.heap.objects.size := by
  refine makes_newFrame hm fun p hp => ?_
  rcases Assoc.mem_of_mem_setAll hp with hp | hp
  · exact ha _ (List.of_mem_zip hp).2
  · cases hp

theorem makes_callResult (hm : m.heap.MadeOf P) {c : Closure} {flow : Flow}
    (hf : flow.result.Made P m.heap.objects.size) :
    (callResult c flow m).Makes P m.heap.objects.size fun k v => v.Made P k := by
  unfold callResult
  split
  · refine makes_bind (makes_nameIn? hm) fun this m₁ _ _ hm₁ hthis => ?_
    cases this with
    | none => exact makes_pure hm₁ trivial
    | some v => exact makes_pure hm₁ (hthis v rfl)
  · exact makes_pure hm hf

end Exec

end ScriptLang
