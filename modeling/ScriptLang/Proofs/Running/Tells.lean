import ScriptLang.Proofs.Running.Scene

/-!
# Computations that keep a scene sound

`Ending.Tells L w Q` says of the ending of a computation that started in the scene `w`: a value is left in a sound scene
that has grown out of `w` and in which `Q` holds, a fault also in a sound scene.  There is one lemma for each computation
without recursion, and one for sequences.  Where a method is looked up or a class is made, the point at which that happens
has to be in the lore.
-/

namespace ScriptLang

variable {α β : Type} {L : Lore} {w : Scene} {m : Machine} {e : FrameRef}

/-- The ending of a computation that started in `w`. -/
def Ending.Tells (L : Lore) (w : Scene) (Q : Scene → α → Prop) : Ending α → Prop
  | .done a m => ∃ w' : Scene, w'.At L m ∧ w.Grows w' ∧ Q w' a
  | .failed _ m => ∃ w' : Scene, w'.At L m
  | .outOfFuel => True

theorem Ending.Tells.done {Q : Scene → α → Prop} {x : Ending α} (h : x.Tells L w Q) {a : α} (hx : x = .done a m) :
    ∃ w' : Scene, w'.At L m ∧ w.Grows w' ∧ Q w' a := by
  rw [hx] at h
  exact h

namespace Exec

variable {Q R : Scene → α → Prop}

theorem tells_weaken {x : Ending α} (h : x.Tells L w Q) (hq : ∀ w' a, Q w' a → R w' a) : x.Tells L w R := by
  cases x with
  | done a m =>
    obtain ⟨w', hw', hg, ha⟩ := h
    exact ⟨w', hw', hg, hq w' a ha⟩
  | failed fault m => exact h
  | outOfFuel => trivial

/-- A sequence; the second part may use how the first one ended. -/
theorem tells_bind {S : Scene → β → Prop} {x : Exec α} {f : α → Exec β} (hx : (x m).Tells L w Q)
    (hf : ∀ w' a m', x m = .done a m' → w'.At L m' → w.Grows w' → Q w' a → (f a m').Tells L w' S) :
    ((x >>= f) m).Tells L w S := by
  show (Exec.andThen x f m).Tells L w S
  unfold Exec.andThen
  cases he : x m with
  | done a m₁ =>
    rw [he] at hx
    obtain ⟨w₁, hw₁, hg₁, ha⟩ := hx
    have hend := hf w₁ a m₁ he hw₁ hg₁ ha
    show (f a m₁).Tells L w S
    cases hfm : f a m₁ with
    | done b m₂ =>
      rw [hfm] at hend
      obtain ⟨w₂, hw₂, hg₂, hb⟩ := hend
      exact ⟨w₂, hw₂, hg₁.trans hg₂, hb⟩
    | failed fault m₂ =>
      rw [hfm] at hend
      exact hend
    | outOfFuel => trivial
  | failed fault m₁ =>
    rw [he] at hx
    exact hx
  | outOfFuel => trivial

/-! ## endings -/

theorem tells_pure (hw : w.At L m) {a : α} (hq : Q w a) : ((pure a : Exec α) m).Tells L w Q :=
  ⟨w, hw, .refl w, hq⟩

theorem tells_fail (hw : w.At L m) {anchor : Token} {cause : RuntimeFault} :
    ((fail anchor cause : Exec α) m).Tells L w Q :=
  ⟨w, hw⟩

theorem tells_ofResult (hw : w.At L m) {anchor : Token} {r : Except RuntimeFault α} (hq : ∀ a, r = .ok a → Q w a) :
    (ofResult anchor r m).Tells L w Q := by
  cases r with
  | ok a => exact tells_pure hw (hq a rfl)
  | error cause => exact tells_fail hw

/-- A computation that leaves the heap alone. -/
theorem tells_of_heap (hw : w.At L m) {x : Exec α} (hd : ∀ a m', x m = .done a m' → m'.heap = m.heap ∧ Q w a)
    (hf : ∀ fault m', x m = .failed fault m' → m'.heap = m.heap) : (x m).Tells L w Q := by
  cases he : x m with
  | done a m' =>
    obtain ⟨hm, ha⟩ := hd a m' he
    exact ⟨w, ⟨hw.heap.trans hm.symm, hw.sound⟩, .refl w, ha⟩
  | failed fault m' => exact ⟨w, hw.heap.trans (hf fault m' he).symm, hw.sound⟩
  | outOfFuel => trivial

/-! ## names -/

theorem placed_of_findAt? (hw : w.At L m) {d : Nat} {name : String} {v : Value}
    (h : m.heap.frames.findAt? e d name = some v) : v.Placed L w := by
  obtain ⟨f, -, hf⟩ := Option.bind_eq_some_iff.1 h
  rw [← hw.heap] at hf
  exact hw.sound.value f _ (Assoc.mem_of_get? hf)

theorem tells_readName (hw : w.At L m) {d : Option Nat} {name : Token} :
    (readName d e name m).Tells L w fun w' v => v.Placed L w' := by
  unfold readName
  cases d with
  | some d =>
    cases hv : m.heap.frames.findAt? e d name.lexeme with
    | some v =>
      simp only [Frames.readAt, hv, Frames.orUndefined]
      exact ⟨w, hw, .refl w, placed_of_findAt? hw hv⟩
    | none =>
      simp only [Frames.readAt, hv, Frames.orUndefined]
      exact ⟨w, hw⟩
  | none =>
    cases hv : m.heap.frames.find? Heap.globals name.lexeme with
    | some v =>
      obtain ⟨f, -, hf⟩ := Option.bind_eq_some_iff.1 hv
      rw [← hw.heap] at hf
      simp only [Frames.read, hv, Frames.orUndefined]
      exact ⟨w, hw, .refl w, hw.sound.value f _ (Assoc.mem_of_get? hf)⟩
    | none =>
      simp only [Frames.read, hv, Frames.orUndefined]
      exact ⟨w, hw⟩

theorem lt_of_owner {fs : Frames Value} {o : FrameRef} {name : String} {n : Nat}
    (h : fs.owner name n e = some o) : o < fs.size := by
  induction n generalizing e with
  | zero => cases h
  | succ n ih =>
    unfold Frames.owner at h
    split at h
    · next hb =>
      obtain rfl := Option.some.inj h
      exact Frames.lt_of_bound hb
    · obtain ⟨o', -, ho'⟩ := Option.bind_eq_some_iff.1 h
      exact ih ho'

theorem tells_define (hw : w.At L m) {name : String} {v : Value} (he : e < w.heap.frames.size)
    (hn : e ≠ Heap.globals → Ordinary name) (hv : v.Placed L w) :
    (define e name v m).Tells L w fun w' _ => w' = w.define e name v :=
  ⟨w.define e name v, ⟨by simp [Scene.define, hw.heap], hw.sound.define he hn hv⟩, Scene.grows_define he hn, rfl⟩

theorem tells_writeName (hw : w.At L m) {d : Option Nat} {name : Token} {v : Value} (hv : v.Placed L w)
    (hn : Ordinary name.lexeme) : (writeName d e name v m).Tells L w fun w' _ => v.Placed L w' := by
  have hdefine : ∀ o, o < m.heap.frames.size → Ending.Tells L w (fun w' (_ : Unit) => v.Placed L w')
      (.done () { m with heap := m.heap.define o name.lexeme v }) := by
    intro o ho
    rw [← hw.heap] at ho
    obtain ⟨w', hw', hg, rfl⟩ := tells_define hw ho (fun _ => hn) hv
    exact ⟨_, hw', hg, hv.mono hg⟩
  unfold writeName
  cases d with
  | some d =>
    cases ho : m.heap.frames.ownerAt? e d name.lexeme with
    | some o =>
      simp only [ho]
      exact hdefine o (Frames.lt_of_bound (Option.filter_eq_some_iff.1 ho).2)
    | none =>
      simp only [ho]
      exact ⟨w, hw⟩
  | none =>
    cases ho : m.heap.frames.owner? Heap.globals name.lexeme with
    | some o => exact hdefine o (lt_of_owner ho)
    | none => exact ⟨w, hw⟩

theorem tells_nameIn? (hw : w.At L m) {d : Nat} {name : String} :
    (nameIn? e d name m).Tells L w fun w' v => ∀ u ∈ v, Value.Placed L w' u :=
  ⟨w, hw, .refl w, fun _ hu => placed_of_findAt? hw hu⟩

/-- A frame that belongs to the activation around it. -/
theorem tells_newFrame (hw : w.At L m) {o : FrameRef} {b : Assoc String Value} (ho : o < w.heap.frames.size)
    (hb : ∀ p ∈ b, p.2.Placed L w) : (newFrame o b m).Tells L w fun w' e =>
      e = w.heap.frames.size ∧ w' = w.push o b ((w.around o).map further) :=
  ⟨_, ⟨by simp [Scene.push, hw.heap], hw.sound.push_plain ho hb⟩, Scene.grows_push,
    by rw [hw.heap], rfl⟩

/-! ## objects -/

theorem tells_newTag (hw : w.At L m) : (newTag m).Tells L w fun _ _ => True := by
  let heap := { w.heap with nextTag := w.heap.nextTag + 1 }
  refine ⟨{ w with heap }, ⟨?_, hw.sound.of_frames heap rfl hw.sound.field⟩, Scene.grows_of_frames heap rfl, trivial⟩
  simp [heap, hw.heap]

theorem tells_newObject (hw : w.At L m) {c : Class} (hc : Value.Placed L w (.klass c)) :
    (newObject c m).Tells L w fun w' v => v = .object m.heap.objects.size c ∧ v.Placed L w' := by
  have hg : w.Grows { w with heap := w.heap.addObject } := Scene.grows_of_frames w.heap.addObject rfl
  refine ⟨_, ⟨congrArg Heap.addObject hw.heap, hw.sound.of_frames w.heap.addObject rfl ?_⟩, hg, rfl, hc.mono hg⟩
  intro o p hp
  rw [World.fields_addObject] at hp
  exact hw.sound.field o p hp

theorem tells_field? (hw : w.At L m) {o : ObjectRef} {name : String} :
    (field? o name m).Tells L w fun w' v => ∀ u ∈ v, Value.Placed L w' u := by
  refine ⟨w, hw, .refl w, fun u hu => ?_⟩
  have hmem := Assoc.mem_of_get? hu
  rw [← hw.heap] at hmem
  exact hw.sound.field o _ hmem

theorem tells_setField (hw : w.At L m) {o : ObjectRef} {name : String} {v : Value} (hv : v.Placed L w) :
    (setField o name v m).Tells L w fun w' _ => v.Placed L w' := by
  have hg : w.Grows { w with heap := w.heap.setField o name v } :=
    Scene.grows_of_frames (w.heap.setField o name v) rfl
  refine ⟨_, ⟨congrArg (Heap.setField · o name v) hw.heap, hw.sound.of_frames (w.heap.setField o name v) rfl ?_⟩, hg,
    hv.mono hg⟩
  intro o' p hp
  rcases Scene.mem_fields_setField hp with rfl | hp
  · exact hv
  · exact hw.sound.field o' p hp

/-- The method is looked up at a point of the past, and the frame for it comes next. -/
def LookedUp (L : Lore) (m : Machine) (method : Closure) (this : Value) : Prop :=
  ∃ σ p, L.past σ p ∧ Looks σ p method this m.heap.frames.size

/-- The frame for `this` is that of a new activation. -/
theorem tells_bindThis (hw : w.At L m) {method : Closure} {this : Value} (hm : method.PlacedMethod L w)
    (ht : this.Placed L w) (ho : ∃ o c, this = .object o c) (hl : LookedUp L m method this) :
    (bindThis method this m).Tells L w fun w' c => c.Placed L w' := by
  obtain ⟨parent, klass, hfounded, hinherits, hderived, hlawful⟩ := hm.code
  unfold LookedUp at hl
  rw [← hw.heap] at hl
  let a : Activation := ⟨method, this, w.heap.frames.size, parent⟩
  let w' := w.push method.frame [("this", this)] (some (a, 0))
  have hg : w.Grows w' := Scene.grows_push
  have hopens : w'.Opens L a := by
    refine ⟨?_, ho, hinherits.mono hg hm.lt, hl, hfounded⟩
    rw [Scene.bound?_push]
    rfl
  have hsound : w'.Sound L := by
    refine hw.sound.push (List.forall_mem_singleton.2 ht) ⟨method.frame, ?_, hm.lt, .inr ?_⟩
    · rw [Scene.enclosing?_push, if_pos rfl]
    · exact ⟨a, Scene.around_push, rfl, rfl, hopens⟩
  refine ⟨w', ⟨congrArg (Heap.addFrame · method.frame _) hw.heap, hsound⟩, hg, ?_⟩
  have hsize : m.heap.frames.size = w.heap.frames.size := by rw [hw.heap]
  have haround : w'.around m.heap.frames.size = some (a, 0) := hsize ▸ Scene.around_push
  refine ⟨?_, ⟨(· ∈ method.declaration.own), ⟨.ofMethod method.declaration, klass, false⟩, 0, hlawful, ?_, rfl, ?_, ?_⟩, ?_⟩
  · show m.heap.frames.size < w'.heap.frames.size
    rw [hsize]
    exact Scene.lt_size_push
  · exact fun _ => ⟨a, haround, fun o h => h, hderived⟩
  · show FunctionPlace.ofMethod method.declaration ≠ .none
    unfold FunctionPlace.ofMethod
    split <;> simp
  · intro hi
    have hinit : method.declaration.isInit = true := hm.initializer ▸ hi
    simp [FunctionPlace.ofMethod, hinit]
  · exact fun _ => ⟨a, haround⟩

theorem tells_boundMethod (hw : w.At L m) {method : Closure} {this : Value} (hm : method.PlacedMethod L w)
    (ht : this.Placed L w) (ho : ∃ o c, this = .object o c) (hl : LookedUp L m method this) :
    (boundMethod method this m).Tells L w fun w' v => v.Placed L w' := by
  refine tells_bind (tells_bindThis hw hm ht ho hl) fun w₁ c m₁ _ hw₁ _ hc => ?_
  refine tells_bind (tells_newTag hw₁) fun w₂ t m₂ _ hw₂ hg₂ _ => ?_
  exact tells_pure hw₂ (hc.mono hg₂)

theorem tells_getProperty (hw : w.At L m) {o : ObjectRef} {c : Class} (hc : Value.Placed L w (.object o c))
    {name : Token} (hl : ∀ method, Assoc.get? (m.heap.fields o) name.lexeme = none →
      c.method? name.lexeme = some method → LookedUp L m method (.object o c)) :
    (getProperty o c name m).Tells L w fun w' v => v.Placed L w' := by
  unfold getProperty
  refine tells_bind (tells_field? hw) fun w₁ found m₁ hfound hw₁ hg₁ hplaced => ?_
  cases hfound
  cases hv : Assoc.get? (m.heap.fields o) name.lexeme with
  | some v =>
    rw [hv] at hplaced
    exact tells_pure hw₁ (hplaced v rfl)
  | none =>
    have hc₁ := hc.mono hg₁
    cases hm : c.method? name.lexeme with
    | some method => exact tells_boundMethod hw₁ (Class.Every.method hc₁ hm) hc₁ ⟨o, c, rfl⟩ (hl method hv hm)
    | none => exact tells_fail hw₁

theorem tells_getSuper (hw : w.At L m) {distance : Option Nat} {keyword name : Token}
    (hl : ∀ d parent o c method, distance = some d → m.heap.frames.findAt? e d keyword.lexeme = some (.klass parent) →
      m.heap.frames.findAt? e (d - 1) "this" = some (.object o c) → parent.method? name.lexeme = some method →
      LookedUp L m method (.object o c)) :
    (getSuper distance e keyword name m).Tells L w fun w' v => v.Placed L w' := by
  unfold getSuper
  cases distance with
  | none => exact tells_fail hw
  | some d =>
    refine tells_bind (tells_readName hw) fun w₁ found m₁ hread hw₁ _ hfound => ?_
    obtain ⟨hparent, rfl⟩ : m.heap.frames.findAt? e d keyword.lexeme = some found ∧ m₁ = m := by
      cases hv : m.heap.frames.findAt? e d keyword.lexeme with
      | some v =>
        simp only [readName, Frames.readAt, hv, Frames.orUndefined] at hread
        cases hread
        exact ⟨rfl, rfl⟩
      | none =>
        simp only [readName, Frames.readAt, hv, Frames.orUndefined] at hread
        cases hread
    split
    · next parent =>
      refine tells_bind (tells_nameIn? hw₁) fun w₂ this m₂ hname hw₂ hg₂ hthis => ?_
      cases hname
      cases hv : m₁.heap.frames.findAt? e (d - 1) "this" with
      | none => exact tells_fail hw₂
      | some this =>
        rw [hv] at hthis
        cases this with
        | object o c =>
          cases hm : parent.method? name.lexeme with
          | some method =>
            exact tells_boundMethod hw₂ (Class.Every.method (hfound.mono hg₂) hm) (hthis _ rfl) ⟨o, c, rfl⟩
              (hl d parent o c method rfl hparent hv hm)
          | none => exact tells_fail hw₂
        | _ => exact tells_fail hw₂
    · exact tells_fail hw₁

/-! ## the console -/

theorem tells_write (hw : w.At L m) {s : String} : (write s m).Tells L w fun _ _ => True := by
  refine tells_of_heap hw (fun a m' h => ?_) fun fault m' h => ?_
  all_goals
    unfold write at h
    dsimp only at h
    split at h <;> cases h
    simp

theorem tells_flush (hw : w.At L m) : (flush m).Tells L w fun _ _ => True := by
  refine tells_of_heap hw (fun a m' h => ?_) fun fault m' h => ?_
  all_goals
    unfold flush at h
    split at h <;> cases h
    simp

theorem tells_print (hw : w.At L m) {keyword : Token} {v : Value} : (print keyword v m).Tells L w fun _ _ => True := by
  cases v with
  | string raw =>
    simp only [print]
    cases Text.unescape raw with
    | ok s => exact tells_write hw
    | error c => exact tells_fail hw
  | _ => exact tells_write hw

theorem tells_runBuiltin (hw : w.At L m) {hosts : Array Host} (hh : ∀ f ∈ hosts, Host.Tame f) {b : Builtin}
    {arguments : List Value} (ha : ∀ v ∈ arguments, v.Placed L w) {paren : Token} :
    (runBuiltin hosts b arguments paren m).Tells L w fun w' v => v.Placed L w' := by
  refine tells_of_heap hw (fun v m' h => ?_) fun fault m' h => ?_
  · unfold runBuiltin at h
    split at h
    · next u c heq =>
      cases h
      exact ⟨rfl, (mem_or_plain_of_run hh heq).elim (ha _) Value.Plain.placed⟩
    · cases h
  · unfold runBuiltin at h
    split at h
    · cases h
    · cases h
      rfl

/-! ## calls and classes -/

theorem tells_checkArity (hw : w.At L m) {paren : Token} {expected got : Nat} :
    (checkArity paren expected got m).Tells L w fun _ _ => got = expected := by
  unfold checkArity
  split
  · next h => exact tells_pure hw h
  · exact tells_fail hw

theorem asSuperclass_done {name : Token} {x : Expr} {v : Value} {c : Class} {m' : Machine}
    (h : asSuperclass name x v m = .done c m') : v = .klass c ∧ m' = m := by
  unfold asSuperclass at h
  split at h
  · cases h
    exact ⟨rfl, rfl⟩
  · split at h <;> cases h

theorem tells_asSuperclass (hw : w.At L m) {name : Token} {x : Expr} {v : Value} (hv : v.Placed L w) :
    (asSuperclass name x v m).Tells L w fun w' c => Value.Placed L w' (.klass c) := by
  unfold asSuperclass
  split
  · exact tells_pure hw hv
  · split <;> exact tells_fail hw

theorem mem_methodTable {inner : FrameRef} {methods : List FunctionDecl} {p : String × Closure}
    (h : p ∈ methodTable inner methods) : ∃ d ∈ methods, p.2 = ⟨d, inner, d.isInit⟩ := by
  rcases Assoc.mem_of_mem_setAll h with h | h
  · obtain ⟨d, hd, rfl⟩ := List.mem_map.1 h
    exact ⟨d, hd, rfl⟩
  · cases h

/-- The methods of a class are placed where the class statement made them. -/
theorem every_mk {tag : Tag} {name : String} {parent : Option Class} {methods : List FunctionDecl} {inner : FrameRef}
    {klass : ClassPlace} (hp : ∀ c ∈ parent, Value.Placed L w (.klass c))
    (hl : FunctionDecl.LawfulMethods L.recorded klass methods) (hk : klass = .derived → parent.isSome)
    (hi : inner < w.heap.frames.size) (hsuper : w.Inherits inner parent)
    (hf : ∃ σ p, L.past σ p ∧ Founds σ p methods parent inner) :
    Value.Placed L w (.klass (.mk tag name parent (methodTable inner methods))) := by
  have hown : ∀ p ∈ methodTable inner methods, p.2.PlacedMethod L w := by
    intro p hp
    obtain ⟨d, hd, he⟩ := mem_methodTable hp
    obtain ⟨σ, q, hq, hfounds⟩ := hf
    rw [he]
    exact ⟨hi, ⟨parent, klass, ⟨σ, q, methods, hq, hfounds, hd⟩, hsuper, hk, hl.lawful hd⟩, rfl⟩
  cases parent with
  | none => exact hown
  | some c => exact ⟨hown, hp c rfl⟩

/-- The frame that the methods of a class are closed over. -/
def methodFrame (m : Machine) (e : FrameRef) (parent : Option Class) : FrameRef :=
  if parent.isSome then m.heap.frames.size else e

theorem tells_makeClass (hw : w.At L m) (he : e < w.heap.frames.size) {name : Token} (hn : Ordinary name.lexeme)
    {parent : Option Class} (hp : ∀ c ∈ parent, Value.Placed L w (.klass c)) {methods : List FunctionDecl}
    {klass : ClassPlace} (hl : FunctionDecl.LawfulMethods L.recorded klass methods)
    (hk : klass = .derived → parent.isSome)
    (hf : ∃ σ p, L.past σ p ∧ Founds σ p methods parent (methodFrame m e parent)) :
    (makeClass e name parent methods m).Tells L w fun _ _ => True := by
  unfold makeClass
  have hrest : ∀ w₁ m₁ inner, w₁.At L m₁ → w.Grows w₁ → inner < w₁.heap.frames.size → w₁.Inherits inner parent →
      inner = methodFrame m e parent →
      ((do
        let t ← newTag
        define e name.lexeme (.klass (.mk t name.lexeme parent (methodTable inner methods))) : Exec Unit) m₁).Tells L w₁
        fun _ _ => True := by
    rintro w₁ m₁ inner hw₁ hg₁ hlt hsuper rfl
    refine tells_bind (tells_newTag hw₁) fun w₂ t m₂ _ hw₂ hg₂ _ => ?_
    have hg := hg₁.trans hg₂
    have hclass : Value.Placed L w₂
        (.klass (.mk t name.lexeme parent (methodTable (methodFrame m e parent) methods))) :=
      every_mk (fun c hc => (hp c hc).mono hg) hl hk (Nat.lt_of_lt_of_le hlt hg₂.size) (hsuper.mono hg₂ hlt) hf
    exact tells_weaken (tells_define hw₂ (Nat.lt_of_lt_of_le he hg.size) (fun _ => hn) hclass) fun _ _ _ => trivial
  refine tells_bind (tells_define hw he (fun _ => hn) (v := .nil) trivial) fun w₁ _ m₁ hdef hw₁ hg₁ _ => ?_
  have hsize : m₁.heap.frames.size = m.heap.frames.size := by
    cases hdef
    simp [Heap.define]
  -- the frame of the methods: a new one for `super` if there is a superclass
  cases parent with
  | none =>
    refine tells_bind (tells_pure (Q := fun w' a => w' = w₁ ∧ a = e) hw₁ ⟨rfl, rfl⟩) fun w₂ inner m₂ hpure hw₂ hg₂ hq => ?_
    obtain ⟨rfl, rfl⟩ := hq
    cases hpure
    refine hrest w₂ m₁ inner hw₂ hg₁ (Nat.lt_of_lt_of_le he hg₁.size) ?_ rfl
    intro c hc
    cases hc
  | some c =>
    have hc : Value.Placed L w₁ (.klass c) := (hp c rfl).mono hg₁
    have hlt : e < w₁.heap.frames.size := Nat.lt_of_lt_of_le he hg₁.size
    refine tells_bind (tells_newFrame hw₁ hlt (List.forall_mem_singleton.2 hc)) fun w₂ inner m₂ _ hw₂ hg₂ hq => ?_
    obtain ⟨rfl, rfl⟩ := hq
    refine hrest _ m₂ _ hw₂ (hg₁.trans hg₂) Scene.lt_size_push ?_ ?_
    · rintro c' ⟨⟩
      refine ⟨?_, ?_⟩
      · exact Nat.ne_of_gt (Nat.lt_of_le_of_lt (Nat.zero_le e) hlt)
      · rw [Scene.bound?_push]
        rfl
    · show w₁.heap.frames.size = m.heap.frames.size
      rw [hw₁.heap, hsize]

/-- The frame of a call has the code of the body seated in it. -/
theorem tells_callFrame (hw : w.At L m) {c : Closure} {O : Occurrence → Prop} {place : Place} {k : Nat}
    (hc : c.frame < w.heap.frames.size) (hs : w.Seats c.frame O place k) {arguments : List Value}
    (ha : ∀ v ∈ arguments, v.Placed L w) :
    (callFrame c arguments m).Tells L w fun w' e => e < w'.heap.frames.size ∧ w'.Seats e O place (k + 1) := by
  unfold callFrame
  refine tells_weaken (tells_newFrame hw hc fun p hp => ?_) ?_
  · rcases Assoc.mem_of_mem_setAll hp with hp | hp
    · exact ha _ (List.of_mem_zip hp).2
    · cases hp
  · rintro w' e ⟨rfl, rfl⟩
    exact ⟨Scene.lt_size_push, hs.push⟩

theorem tells_callResult (hw : w.At L m) {c : Closure} {flow : Flow} (hf : flow.Placed L w) :
    (callResult c flow m).Tells L w fun w' v => v.Placed L w' := by
  unfold callResult
  split
  · refine tells_bind (tells_nameIn? hw) fun w₁ this m₁ _ hw₁ _ hthis => ?_
    cases this with
    | none => exact tells_pure hw₁ trivial
    | some v => exact tells_pure hw₁ (hthis v rfl)
  · cases flow with
    | returned v => exact tells_pure hw hf
    | _ => exact tells_pure hw trivial

end Exec

end ScriptLang
