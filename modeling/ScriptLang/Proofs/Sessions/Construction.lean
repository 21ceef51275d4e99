import ScriptLang.Proofs.Sessions.Mirror
import ScriptLang.Proofs.Sessions.Receivers
import ScriptLang.Proofs.Sessions.Strings

/-!
# Construction

* `Heap.Holds` — a frame or a field holds a value;
* `Exec.invoke_of_initializer` — a finished call of an initializer gives what its frame binds as `this`;
* `Session.construction_sound` — so in every run of an accepted source a call of a class gives an object that nothing
  held before, or fails as its initializer does, or has the wrong number of arguments; later calls of an initializer
  give the object again; and bodies run in new frames that bind the parameters to the arguments;
* `Session.init_of_field` — a field of the name is called in place of the initializer.
-/

namespace ScriptLang

/-! ## what a heap holds -/

/-- A value that a frame or a field holds. -/
def Heap.Holds (h : Heap) (v : Value) : Prop :=
  (∃ e name, (name, v) ∈ h.frames.bindings e) ∨ ∃ o name, (name, v) ∈ h.fields o

theorem Heap.MadeOf.holds {P : String → Prop} {h : Heap} (hm : h.MadeOf P) {v : Value} (hv : h.Holds v) :
    v.Made P h.objects.size := by
  obtain ⟨e, name, hmem⟩ | ⟨o, name, hmem⟩ := hv
  · exact hm.value e _ hmem
  · exact hm.field o _ hmem

theorem Scene.Sound.holds {L : Lore} {w : Scene} (hw : w.Sound L) {v : Value} (hv : w.heap.Holds v) : v.Placed L w := by
  obtain ⟨e, name, hmem⟩ | ⟨o, name, hmem⟩ := hv
  · exact hw.value e _ hmem
  · exact hw.field o _ hmem

/-- Functions are closed over frames that there are. -/
theorem Value.Placed.within {L : Lore} {w : Scene} {v : Value} (h : v.Placed L w) :
    v.Every (·.frame < w.heap.frames.size) (·.frame < w.heap.frames.size) :=
  Value.Every.mono h (fun _ hc => hc.lt) fun _ hm => hm.lt

/-- The method `init` of a class is an initializer. -/
theorem Class.isInitializer_of_method? {L : Lore} {w : Scene} {c : Class} (hp : c.Every (Closure.PlacedMethod L w))
    (ht : c.Titled) {method : Closure} (h : c.method? FunctionDecl.initName = some method) :
    method.isInitializer = true := by
  rw [(Class.Every.method hp h).initializer]
  exact decide_eq_true (ht _ _ h)

/-- The nearest method `init` on the chain of superclasses. -/
def Class.initializer? (c : Class) : Option Closure :=
  c.chain.findSome? fun k => Assoc.get? k.methods FunctionDecl.initName

theorem Class.method?_initName (c : Class) : c.method? FunctionDecl.initName = c.initializer? :=
  Class.method?_eq_findSome? ..

/-- A class takes as many arguments as that has parameters. -/
theorem Class.arity_eq (c : Class) : c.arity = (c.initializer?.map Closure.arity).getD 0 := by
  rw [← Class.method?_initName]
  rfl

namespace Exec

/-- How a call of a class ends: with a new object of the class, or as the initializer does that it runs on that. -/
def Constructs (n : Nat) (σ : Setting) (c : Class) (vs : List Value) (paren : Token) (m : Machine) : Prop :=
  match c.initializer? with
  | none => call (n + 1) σ (.klass c) vs paren m =
      .done (.object m.heap.objects.size c) { m with heap := m.heap.addObject }
  | some method =>
    match invoke n σ { method with frame := m.heap.frames.size } vs
      { m with heap := m.heap.addObject.addFrame method.frame [("this", .object m.heap.objects.size c)] } with
    | .done v m' => v = .object m.heap.objects.size c ∧
        call (n + 1) σ (.klass c) vs paren m = .done (.object m.heap.objects.size c) m'
    | .failed fault m' => call (n + 1) σ (.klass c) vs paren m = .failed fault m'
    | .outOfFuel => call (n + 1) σ (.klass c) vs paren m = .outOfFuel

/-- A function body runs in a frame that no function knows yet and that binds just the parameters, each to its
argument. -/
structure BindsOneToOne (n : Nat) (σ : Setting) (f : Closure) (vs : List Value) (m : Machine) : Prop where
  nodup : (f.declaration.params.map Token.lexeme).Nodup
  length : vs.length = f.declaration.params.length
  unknown : ∀ v, m.heap.Holds v ∨ v ∈ vs → v.Every (·.frame ≠ m.heap.frames.size) (·.frame ≠ m.heap.frames.size)
  body : invoke (n + 1) σ f vs m = (do
    let flow ← execAll n σ m.heap.frames.size f.declaration.body
    callResult f flow : Exec Value)
      { m with heap := m.heap.addFrame f.frame ((f.declaration.params.map Token.lexeme).zip vs) }

variable {L : Lore} {σ : Setting} {w : Scene} {m m' : Machine} {n : Nat} {e : FrameRef} {c : Class} {vs : List Value}
  {paren : Token} {v : Value}

/-! ## calls of classes -/

theorem call_class_of_ne (h : vs.length ≠ c.arity) :
    call (n + 1) σ (.klass c) vs paren m = .failed (.runtime ⟨paren, .arity c.arity vs.length⟩) m := by
  simp only [call, checkArity, if_neg h]
  rfl

theorem call_class_of_none (h : vs.length = c.arity) (hm : c.initializer? = none) :
    call (n + 1) σ (.klass c) vs paren m =
      .done (.object m.heap.objects.size c) { m with heap := m.heap.addObject } := by
  simp only [call, checkArity, if_pos h, Class.method?_initName, hm]
  rfl

/-- An initializer is called with a new object as `this`, and the object is the result. -/
theorem call_class_of_some (h : vs.length = c.arity) {method : Closure} (hm : c.initializer? = some method) :
    call (n + 1) σ (.klass c) vs paren m =
      match invoke n σ { method with frame := m.heap.frames.size } vs
        { m with heap := m.heap.addObject.addFrame method.frame [("this", .object m.heap.objects.size c)] } with
      | .done _ m' => .done (.object m.heap.objects.size c) m'
      | .failed fault m' => .failed fault m'
      | .outOfFuel => .outOfFuel := by
  have hrun : call (n + 1) σ (.klass c) vs paren m =
      andThen (invoke n σ { method with frame := m.heap.frames.size } vs)
        (fun _ => pure (.object m.heap.objects.size c))
        { m with heap := m.heap.addObject.addFrame method.frame [("this", .object m.heap.objects.size c)] } := by
    simp only [call, checkArity, if_pos h, Class.method?_initName, hm]
    rfl
  rw [hrun, andThen]
  cases invoke n σ { method with frame := m.heap.frames.size } vs _ <;> rfl

/-! ## calls of initializers -/

/-- The function that a method becomes on an object. -/
theorem boundMethod_done {method : Closure} {this : Value} (h : boundMethod method this m = .done v m') :
    ∃ t, v = .function t { method with frame := m.heap.frames.size } ∧
      m'.heap.bound? m.heap.frames.size "this" = some this := by
  cases h
  refine ⟨_, rfl, ?_⟩
  show Assoc.get? ((m.heap.addFrame method.frame [("this", this)]).frames.bindings m.heap.frames.size) "this" = _
  rw [Heap.addFrame, Frames.bindings_push, if_pos rfl]
  rfl

/-- A finished call of an initializer gives what its frame binds as `this`. -/
theorem invoke_of_initializer (hσ : σ.Serves L) (hw : w.At L m) {f : Closure} (hp : (Task.invoke f vs).Placed L w)
    (hcovers : L.Covers σ ⟨n, .invoke f vs, m⟩) (hi : f.isInitializer = true) {this : Value}
    (hthis : m.heap.bound? f.frame "this" = some this) (h : invoke n σ f vs m = .done v m') : v = this := by
  obtain ⟨hf, hvs⟩ := hp
  cases n with
  | zero =>
    simp only [invoke] at h
    cases h
  | succ n =>
    simp only [invoke] at h
    obtain ⟨e, m₁, hframe, h⟩ := bind_done h
    obtain ⟨flow, m₂, hbody, h⟩ := bind_done h
    obtain ⟨w', hw', hg, -⟩ := hf.behind_body hσ hw hvs hcovers hframe hbody
    have hne : f.frame ≠ Heap.globals := fun he => by
      obtain ⟨a, ha⟩ := hf.receiver hi
      rw [he, hw.sound.outside] at ha
      cases ha
    -- the body leaves `this` alone
    have hkept : m₂.heap.frames.findAt? f.frame 0 "this" = some this := by
      have hbound := hg.kept f.frame hf.lt hne _ not_ordinary_this
      rw [hw'.heap, hw.heap] at hbound
      exact hbound.trans hthis
    unfold callResult at h
    rw [if_pos hi] at h
    obtain ⟨found, m₃, hfound, h⟩ := bind_done h
    cases hfound
    rw [hkept] at h
    exact eq_of_pure_done h

/-- A call that is finished has found what it calls. -/
theorem eval_call_done {callee : Expr} {arguments : List Expr}
    (h : eval (n + 1) σ e (.call callee paren arguments) m = .done v m') :
    ∃ f m₁ us m₂, eval n σ e callee m = .done f m₁ ∧ evalAll n σ e arguments m₁ = .done us m₂ ∧
      call n σ f us paren m₂ = .done v m' := by
  simp only [eval] at h
  obtain ⟨f, m₁, hf, h⟩ := bind_done h
  obtain ⟨us, m₂, hus, h⟩ := bind_done h
  exact ⟨f, m₁, us, m₂, hf, hus, h⟩

/-- A finished call of an expression that is an initializer gives what the frame of that binds as `this`. -/
theorem eval_call_of_initializer (hσ : σ.Serves L) (hw : w.At L m) {callee : Expr} {arguments : List Expr}
    (hp : (Task.eval e (.call callee paren arguments)).Placed L w)
    (hcovers : L.Covers σ ⟨n + 1, .eval e (.call callee paren arguments), m⟩) {tag : Tag} {f : Closure} {m₁ : Machine}
    (hf : eval n σ e callee m = .done (.function tag f) m₁) (hi : f.isInitializer = true) {this : Value}
    (hthis : m₁.heap.bound? f.frame "this" = some this)
    (h : eval (n + 1) σ e (.call callee paren arguments) m = .done v m') : v = this := by
  obtain ⟨he, O, place, k, hx, hs⟩ := hp
  obtain ⟨hxf, hxs⟩ := List.forall_mem_append.1 hx.2
  obtain ⟨g, m₁', us, m₂, hg, hus, h⟩ := eval_call_done h
  cases hf.symm.trans hg
  -- scenes behind the callee and behind the arguments
  obtain ⟨w₁, hw₁, hg₁, hf₁⟩ :=
    ((telling hσ n).eval hw ⟨he, O, place, k, ⟨hx.1.1, hxf⟩, hs⟩ (hcovers.call .callee)).done hf
  have hstay : e < w₁.heap.frames.size ∧ w₁.Seats e O place k := ⟨Nat.lt_of_lt_of_le he hg₁.size, hs.mono hg₁ he⟩
  obtain ⟨w₂, hw₂, hg₂, hus₂⟩ := ((telling hσ n).evalAll hw₁
    ⟨hstay.1, O, place, k, Expr.lawfulAll hx.1.2 hxs, hstay.2⟩ (hcovers.call (.arguments hf))).done hus
  have hf₁ : f.Placed L w₁ := hf₁
  have hne : f.frame ≠ Heap.globals := fun he => by
    obtain ⟨a, ha⟩ := hf₁.receiver hi
    rw [he, hw₁.sound.outside] at ha
    cases ha
  have hkept : m₂.heap.bound? f.frame "this" = some this := by
    have hbound := hg₂.kept f.frame hf₁.lt hne _ not_ordinary_this
    rw [hw₂.heap, hw₁.heap] at hbound
    exact hbound.trans hthis
  -- the call itself
  have hcall := hcovers.call (.called hf hus)
  cases n with
  | zero =>
    simp only [call] at h
    cases h
  | succ n =>
    simp only [call] at h
    obtain ⟨u, m₃, hcheck, hinvoke⟩ := bind_done h
    obtain ⟨hl, rfl⟩ := length_of_checkArity hcheck
    exact invoke_of_initializer hσ hw₂ ⟨hf₁.mono hg₂, hus₂⟩ (hcall.call (.function hl)) hi hkept hinvoke

/-! ## function bodies -/

/-- A body runs in a new frame that binds the parameters, if they have names of their own. -/
theorem invoke_eq {f : Closure} (hnodup : (f.declaration.params.map Token.lexeme).Nodup)
    (hl : vs.length = f.arity) :
    invoke (n + 1) σ f vs m = (do
      let flow ← execAll n σ m.heap.frames.size f.declaration.body
      callResult f flow : Exec Value)
        { m with heap := m.heap.addFrame f.frame ((f.declaration.params.map Token.lexeme).zip vs) } := by
  have hkeys : (Assoc.keys ([] ++ (f.declaration.params.map Token.lexeme).zip vs)).Nodup := by
    rw [List.nil_append, Assoc.keys, List.map_fst_zip (by rw [List.length_map, hl]; exact Nat.le_refl _)]
    exact hnodup
  simp only [invoke, callFrame]
  rw [Assoc.setAll_of_nodup hkeys]
  rfl

end Exec

namespace Session

variable {s s' : Session} {sites : List Site} {runs : List Run} {source : String} {program : List Stmt} {fuel : Nat}

/-- What a finished expression in a run leaves: a sound scene, and a value that is placed in it and well made. -/
theorem Ran.behind_eval (hs : Ran s sites runs) (he : s.enter? source = some (s', program)) {n : Nat} {e : FrameRef}
    {x : Expr} {m m' : Machine} {v : Value}
    (hv : Visits s'.setting ⟨fuel, .program program, s'.machine⟩ ⟨n, .eval e x, m⟩)
    (h : Exec.eval n s'.setting e x m = .done v m') :
    (∃ w : Scene, w.At (lore (sites ++ Stmt.sitesAll [] program) (runs ++ [⟨s', fuel, program⟩])) m' ∧
      v.Placed (lore (sites ++ Stmt.sitesAll [] program) (runs ++ [⟨s', fuel, program⟩])) w) ∧
    v.Made (fun _ => True) m'.heap.objects.size := by
  obtain ⟨w, hw, hx⟩ := hs.placed he hv
  obtain ⟨w', hw', -, hplaced⟩ :=
    ((telling (hs.reached.kept.enter he).serves n).eval hw hx (covers_of_visits hv)).done h
  have hpoint := hs.made_at Text.inherent_true he (fun _ _ _ _ => trivial) hv
  have hσ := (hs.reached.kept.enter he).joins Text.inherent_true
  exact ⟨⟨w', hw', hplaced⟩, (made_behind_eval h hσ hpoint fun _ _ => trivial).2.2⟩

/-- A finished call of `init` on an object that has no field of the name gives the object. -/
theorem Ran.init_of_object (hs : Ran s sites runs) (he : s.enter? source = some (s', program)) {n : Nat} {e : FrameRef}
    {x : Expr} {name paren : Token} {arguments : List Expr} {m m₁ m₂ : Machine} {o : ObjectRef} {c : Class} {v : Value}
    (hv : Visits s'.setting ⟨fuel, .program program, s'.machine⟩
      ⟨n + 2, .eval e (.call (.get x name) paren arguments), m⟩) (hname : name.lexeme = FunctionDecl.initName)
    (ho : Exec.eval n s'.setting e x m = .done (.object o c) m₁)
    (hfield : Assoc.get? (m₁.heap.fields o) FunctionDecl.initName = none)
    (h : Exec.eval (n + 2) s'.setting e (.call (.get x name) paren arguments) m = .done v m₂) : v = .object o c := by
  obtain ⟨w, hw, hx⟩ := hs.placed he hv
  obtain ⟨⟨w₁, hw₁, hplaced⟩, hmade⟩ := hs.behind_eval he ((hv.tail .callee).tail .getObject) ho
  obtain ⟨f, m₃, -, -, hf, -⟩ := Exec.eval_call_done h
  -- what the property is
  have hget := hf
  simp only [Exec.eval] at hget
  obtain ⟨u, m₄, hu, hget⟩ := Exec.bind_done hget
  rw [ho] at hu
  cases hu
  unfold Exec.getProperty at hget
  obtain ⟨found, m₄, hfound, hget⟩ := Exec.bind_done hget
  cases hfound
  rw [hname, hfield] at hget
  cases hm : c.method? FunctionDecl.initName with
  | none =>
    simp only [hm] at hget
    cases hget
  | some method =>
    simp only [hm] at hget
    obtain ⟨tag, rfl, hthis⟩ := Exec.boundMethod_done hget
    have hi := Class.isInitializer_of_method? hplaced hmade.2.2 hm
    exact Exec.eval_call_of_initializer (hs.reached.kept.enter he).serves hw hx (covers_of_visits hv) hf hi hthis h

/-- A finished call of `super.init` gives the object of the method around it. -/
theorem Ran.init_of_super (hs : Ran s sites runs) (he : s.enter? source = some (s', program)) {n : Nat} {e : FrameRef}
    {label : Label} {keyword name paren : Token} {arguments : List Expr} {m m' : Machine} {v : Value}
    (hv : Visits s'.setting ⟨fuel, .program program, s'.machine⟩
      ⟨n + 2, .eval e (.call (.super label keyword name) paren arguments), m⟩)
    (hname : name.lexeme = FunctionDecl.initName)
    (h : Exec.eval (n + 2) s'.setting e (.call (.super label keyword name) paren arguments) m = .done v m') :
    ∃ a d, Activation.Surrounds (Visited (runs ++ [⟨s', fuel, program⟩])) m.heap e d ⟨.super, label, keyword⟩ a ∧
      v = a.this := by
  have hσ : s'.setting.Serves (lore (sites ++ Stmt.sitesAll [] program) (runs ++ [⟨s', fuel, program⟩])) :=
    (hs.reached.kept.enter he).serves
  obtain ⟨w, hw, hx⟩ := hs.placed he hv
  obtain ⟨w₁, hw₁, hsuper⟩ := hs.placed he (hv.tail .callee)
  obtain ⟨a, d, parent, hin, -, -, -, hparent, heval⟩ := eval_super hσ hw₁ hsuper (n := n)
  obtain ⟨f, m₁, -, -, hf, -⟩ := Exec.eval_call_done h
  rw [hname] at heval
  refine ⟨a, d, hin, ?_⟩
  cases hm : parent.method? FunctionDecl.initName with
  | none =>
    simp only [hm] at heval
    cases heval.symm.trans hf
  | some method =>
    simp only [hm] at heval
    obtain ⟨tag, rfl, hthis⟩ := Exec.boundMethod_done (heval.symm.trans hf)
    have hplaced : Value.Placed _ w₁ (.klass parent) := Exec.placed_of_findAt? hw₁ hparent
    have hpoint := hs.made_at Text.inherent_true he (fun _ _ _ _ => trivial) (hv.tail .callee)
    have hmade : (Value.klass parent).Made _ _ := Exec.made_of_findAt? hpoint.1 hparent
    have hi := Class.isInitializer_of_method? hplaced hmade.2 hm
    exact Exec.eval_call_of_initializer hσ hw hx (covers_of_visits hv) hf hi hthis h

/-- A called class constructs an object. -/
theorem Ran.constructs (hs : Ran s sites runs) (he : s.enter? source = some (s', program)) {n : Nat} {c : Class}
    {vs : List Value} {paren : Token} {m : Machine}
    (hv : Visits s'.setting ⟨fuel, .program program, s'.machine⟩ ⟨n + 1, .call (.klass c) vs paren, m⟩)
    (hl : vs.length = c.arity) : Exec.Constructs n s'.setting c vs paren m := by
  obtain ⟨hmachine, hclass, -⟩ := hs.made_at Text.inherent_true he (fun _ _ _ _ => trivial) hv
  unfold Exec.Constructs
  cases hm : c.initializer? with
  | none => exact Exec.call_class_of_none hl hm
  | some method =>
    have hmethod : c.method? FunctionDecl.initName = some method := (Class.method?_initName c).trans hm
    have hcall : Exec.call (n + 1) s'.setting (.klass c) vs paren m = _ := Exec.call_class_of_some hl hm
    -- the scene in which the initializer is called
    have hinit := hv.tail (.initializer hl rfl hmethod rfl)
    obtain ⟨w, hw, hf, hvs⟩ := hs.placed he hinit
    obtain ⟨w₀, -, hplaced, -⟩ := hs.placed he hv
    have hi := Class.isInitializer_of_method? hplaced hclass.2 hmethod
    dsimp only
    cases hinvoke : Exec.invoke n s'.setting { method with frame := m.heap.frames.size } vs
        { m with heap := m.heap.addObject.addFrame method.frame [("this", .object m.heap.objects.size c)] } with
    | done v m' =>
      rw [hinvoke] at hcall
      refine ⟨?_, hcall⟩
      refine Exec.invoke_of_initializer (hs.reached.kept.enter he).serves hw ⟨hf, hvs⟩ (covers_of_visits hinit) hi ?_
        hinvoke
      show Assoc.get? ((m.heap.addObject.addFrame _ _).frames.bindings m.heap.frames.size) "this" = _
      rw [Heap.addFrame, show m.heap.frames.size = m.heap.addObject.frames.size from rfl, Frames.bindings_push, if_pos rfl]
      rfl
    | failed fault m' => rwa [hinvoke] at hcall
    | outOfFuel => rwa [hinvoke] at hcall

/-- Nothing holds the object that comes next. -/
theorem Ran.object_new (hs : Ran s sites runs) (he : s.enter? source = some (s', program)) {n : Nat} {f : Value}
    {vs : List Value} {paren : Token} {m : Machine}
    (hv : Visits s'.setting ⟨fuel, .program program, s'.machine⟩ ⟨n, .call f vs paren, m⟩) {v : Value}
    (h : m.heap.Holds v ∨ v ∈ vs) (c : Class) : v ≠ .object m.heap.objects.size c := by
  obtain ⟨hmachine, -, hvs⟩ := hs.made_at Text.inherent_true he (fun _ _ _ _ => trivial) hv
  have hmade : v.Made (fun _ => True) m.heap.objects.size := h.elim hmachine.holds (hvs v)
  rintro rfl
  exact Nat.lt_irrefl _ hmade.1

/-- The body of a called function runs in a new frame. -/
theorem Ran.bindsOneToOne (hs : Ran s sites runs) (he : s.enter? source = some (s', program)) {n : Nat} {f : Closure}
    {vs : List Value} {m : Machine}
    (hv : Visits s'.setting ⟨fuel, .program program, s'.machine⟩ ⟨n + 1, .invoke f vs, m⟩) :
    Exec.BindsOneToOne n s'.setting f vs m := by
  obtain ⟨w, hw, hf, hvs⟩ := hs.placed he hv
  obtain ⟨-, -, -, -, -, hl⟩ := hs.reached.ready he hv
  obtain ⟨O, place, k, hlawful, -⟩ := hf.code
  refine ⟨hlawful.nodup, hl, fun v hv => ?_, Exec.invoke_eq hlawful.nodup hl⟩
  have hplaced : v.Placed _ w := hv.elim (fun h => hw.sound.holds (hw.heap ▸ h)) (hvs v)
  rw [← show w.heap = m.heap from hw.heap]
  exact Value.Every.mono hplaced.within (fun _ => Nat.ne_of_lt) fun _ => Nat.ne_of_lt

/-- In every run of an accepted source in a session: a call of a class with a wrong number of arguments fails at the
closing parenthesis and changes nothing, and any other gives a new object or fails as the initializer does; a finished
call of `init` on an object without a field of the name gives the object, and one of `super.init` the object of the method
around it; every function body runs in a new frame that binds the parameters to the arguments one to one. -/
theorem construction_sound (hs : Ran s sites runs) (he : s.enter? source = some (s', program)) (fuel : Nat) :
    (∀ n c vs paren m,
      Visits s'.setting ⟨fuel, .program program, s'.machine⟩ ⟨n + 1, .call (.klass c) vs paren, m⟩ →
      ∀ expected, expected = (c.initializer?.map Closure.arity).getD 0 →
        (vs.length ≠ expected → Exec.call (n + 1) s'.setting (.klass c) vs paren m =
          .failed (.runtime ⟨paren, .arity expected vs.length⟩) m) ∧
        (vs.length = expected → (∀ v, m.heap.Holds v ∨ v ∈ vs → ∀ k, v ≠ .object m.heap.objects.size k) ∧
          Exec.Constructs n s'.setting c vs paren m)) ∧
    (∀ n e x name paren arguments m o c m₁ v m₂,
      Visits s'.setting ⟨fuel, .program program, s'.machine⟩ ⟨n + 2, .eval e (.call (.get x name) paren arguments), m⟩ →
      name.lexeme = FunctionDecl.initName → Exec.eval n s'.setting e x m = .done (.object o c) m₁ →
      Assoc.get? (m₁.heap.fields o) FunctionDecl.initName = none →
      Exec.eval (n + 2) s'.setting e (.call (.get x name) paren arguments) m = .done v m₂ → v = .object o c) ∧
    (∀ n e label keyword name paren arguments m v m',
      Visits s'.setting ⟨fuel, .program program, s'.machine⟩
        ⟨n + 2, .eval e (.call (.super label keyword name) paren arguments), m⟩ →
      name.lexeme = FunctionDecl.initName →
      Exec.eval (n + 2) s'.setting e (.call (.super label keyword name) paren arguments) m = .done v m' →
      ∃ a d, Activation.Surrounds (Visited (runs ++ [⟨s', fuel, program⟩])) m.heap e d ⟨.super, label, keyword⟩ a ∧
        v = a.this) ∧
    ∀ n f vs m, Visits s'.setting ⟨fuel, .program program, s'.machine⟩ ⟨n + 1, .invoke f vs, m⟩ →
      Exec.BindsOneToOne n s'.setting f vs m := by
  refine ⟨?_, ?_, ?_, ?_⟩
  · rintro n c vs paren m hv expected rfl
    rw [← Class.arity_eq]
    exact ⟨Exec.call_class_of_ne, fun hl => ⟨fun v h k => hs.object_new he hv h k, hs.constructs he hv hl⟩⟩
  · intro n e x name paren arguments m o c m₁ v m₂ hv hname ho hfield h
    exact hs.init_of_object he hv hname ho hfield h
  · intro n e label keyword name paren arguments m v m' hv hname h
    exact hs.init_of_super he hv hname h
  · intro n f vs m hv
    exact hs.bindsOneToOne he hv

/-- An initializer is called once more. -/
theorem construction_sound_again : ∃ s' program,
    (start ⟨.unlimited, [], .running 0⟩).enter? "class A { init() {} } A().init();" = some (s', program) ∧
    ∃ n e x name paren m o c m₁ v m₂,
      Visits s'.setting ⟨19, .program program, s'.machine⟩ ⟨n + 2, .eval e (.call (.get x name) paren []), m⟩ ∧
      name.lexeme = FunctionDecl.initName ∧ Exec.eval n s'.setting e x m = .done (.object o c) m₁ ∧
      Assoc.get? (m₁.heap.fields o) FunctionDecl.initName = none ∧
      Exec.eval (n + 2) s'.setting e (.call (.get x name) paren []) m = .done v m₂ ∧ v = .object o c := by
  -- the program does not touch the console
  generalize (⟨.unlimited, [], .running 0⟩ : Console) = console
  let a : Token := ⟨.identifier, "A", 1⟩
  let init : Token := ⟨.identifier, "init", 1⟩
  let paren : Token := .ofMark .rightParen 1
  let made : Expr := .call (.variable 0 a) paren []
  let program : List Stmt := [.classDecl a none [.mk init [] []], .expr (.call (.get made init) paren [])]
  let s' : Session := { start console with fresh := 1 }
  have he : (start console).enter? "class A { init() {} } A().init();" = some (s', program) := rfl
  obtain ⟨m, hv, c, m₁, ho, hfield, v, m₂, hagain⟩ : ∃ m,
      Visits s'.setting ⟨19, .program program, s'.machine⟩
        ⟨18, .eval Heap.globals (.call (.get made init) paren []), m⟩ ∧
      ∃ c m₁, Exec.eval 16 s'.setting Heap.globals made m = .done (.object 0 c) m₁ ∧
        Assoc.get? (m₁.heap.fields 0) FunctionDecl.initName = none ∧
        ∃ v m₂, Exec.eval 18 s'.setting Heap.globals (.call (.get made init) paren []) m = .done v m₂ :=
    ⟨_, .head (.restOfProgram (by
          simp only [Exec.exec, Exec.makeClass, Exec.methodTable, Assoc.setAll_cons, List.map]; rfl)) <|
        .head .topStatement <| .head .expression .refl,
      _, _, by simp only [made]; cbv, rfl, _, _, by simp only [made]; cbv⟩
  exact ⟨s', program, he, 16, _, made, init, paren, m, 0, c, m₁, v, m₂, hv, rfl, ho, hfield, hagain,
    (construction_sound (.start _) he 19).2.1 16 _ made init paren [] m 0 c m₁ v m₂ hv rfl ho hfield hagain⟩

/-- A function in a field `init` is called in place of the initializer. -/
theorem init_of_field : ∃ s' program,
    (start ⟨.unlimited, [], .running 0⟩).enter?
      "fun f() {} class A { init() {} } var a = A(); a.init = f; print a.init();" = some (s', program) ∧
    ∃ n e x name paren m o c m₁ m₂,
      Visits s'.setting ⟨19, .program program, s'.machine⟩ ⟨n + 2, .eval e (.call (.get x name) paren []), m⟩ ∧
      name.lexeme = FunctionDecl.initName ∧ Exec.eval n s'.setting e x m = .done (.object o c) m₁ ∧
      Exec.eval (n + 2) s'.setting e (.call (.get x name) paren []) m = .done .nil m₂ := by
  -- the program does not touch the console
  generalize (⟨.unlimited, [], .running 0⟩ : Console) = console
  let a : Token := ⟨.identifier, "a", 1⟩
  let f : Token := ⟨.identifier, "f", 1⟩
  let klass : Token := ⟨.identifier, "A", 1⟩
  let init : Token := ⟨.identifier, "init", 1⟩
  let paren : Token := .ofMark .rightParen 1
  let program : List Stmt := [.funDecl (.mk f [] []), .classDecl klass none [.mk init [] []],
    .varDecl a (some (.call (.variable 0 klass) paren [])), .expr (.set (.variable 1 a) init (.variable 2 f)),
    .print ⟨.keyword .kwPrint, "print", 1⟩ (.call (.get (.variable 3 a) init) paren [])]
  let s' : Session := { start console with fresh := 4 }
  have he : (start console).enter?
      "fun f() {} class A { init() {} } var a = A(); a.init = f; print a.init();" = some (s', program) := rfl
  exact ⟨s', program, he, 16, Heap.globals, .variable 3 a, init, paren, _, 0, _, _, _,
    .head (.restOfProgram (by cbv)) <|
      .head (.restOfProgram (by
        simp only [Exec.exec, Exec.makeClass, Exec.methodTable, Assoc.setAll_cons, List.map]; rfl)) <|
      .head (.restOfProgram (by cbv)) <| .head (.restOfProgram (by cbv)) <|
      .head .topStatement <| .head .printed .refl,
    rfl, by cbv, by cbv⟩

end Session

end ScriptLang
