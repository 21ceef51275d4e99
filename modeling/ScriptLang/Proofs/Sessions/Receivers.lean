import ScriptLang.Proofs.Sessions.Past

/-!
# The receiver of a method

* `Activation.Surrounds` — an occurrence is evaluated inside of a method that was looked up on an object;
* `Scene.eval_this`, `Scene.eval_super` — what the two keywords evaluate to there;
* `Session.receiver_sound` — so in every run of an accepted source `this` is the object that the method around it was
  looked up on, and `super` searches the classes from the superclass that the class around it was made with, binds the
  first method it finds to the same object, and fails only if there is none.

A lookup makes a frame for `this`, and its position tells lookups apart.
-/

namespace ScriptLang

/-! ## the chain of superclasses -/

namespace Class

/-- The methods that the class itself has. -/
def methods : Class → Assoc String Closure
  | mk _ _ _ ms => ms

/-- The class and those it inherits from, nearest first. -/
def chain : Class → List Class
  | mk tag name none ms => [mk tag name none ms]
  | mk tag name (some parent) ms => mk tag name (some parent) ms :: parent.chain

/-- A method is looked up in one class after the other. -/
theorem method?_eq_findSome? (name : String) (c : Class) :
    c.method? name = c.chain.findSome? fun k => Assoc.get? k.methods name :=
  match c with
  | mk _ _ none ms => by
    unfold method? chain
    cases h : Assoc.get? ms name <;> simp [methods, h]
  | mk _ _ (some parent) ms => by
    unfold method? chain
    cases h : Assoc.get? ms name with
    | some m => simp [methods, h]
    | none => simp [methods, h, method?_eq_findSome? name parent]

end Class

/-! ## occurrences inside of methods -/

/-- An occurrence is evaluated in a frame inside of a method that was looked up on an object at a point of the past. -/
structure Activation.Surrounds (past : Setting → Point → Prop) (h : Heap) (e : FrameRef) (d : Nat) (o : Occurrence)
    (a : Activation) : Prop where
  /-- The method is the innermost one that a class around the occurrence has. -/
  own : o ∈ a.method.declaration.own
  looked : ∃ σ q, past σ q ∧ Looks σ q a.method a.this a.frame
  founded : ∃ σ q ms, past σ q ∧ Founds σ q ms a.parent a.method.frame ∧ a.method.declaration ∈ ms
  /-- The frame for `this` that the lookup made is around the occurrence. -/
  frame : h.frames.ancestor? e d = some a.frame

namespace Frames

variable {α : Type} {fs : Frames α} {e f o : FrameRef} {d : Nat} {name : String}

theorem ancestor?_succ_of_enclosing? (h : fs.ancestor? e d = some f) (ho : fs.enclosing? f = some o) :
    fs.ancestor? e (d + 1) = some o := by
  induction d generalizing e with
  | zero =>
    obtain rfl : e = f := Option.some.inj h
    simp [ancestor?, ho]
  | succ d ih =>
    unfold ancestor? at h
    obtain ⟨e', he', h'⟩ := Option.bind_eq_some_iff.1 h
    unfold ancestor?
    rw [he']
    exact ih h'

theorem findAt?_eq (h : fs.ancestor? e d = some f) : fs.findAt? e d name = Assoc.get? (fs.bindings f) name := by
  unfold findAt?
  rw [h]
  rfl

end Frames

section

open Exec

variable {L : Lore} {σ : Setting} {w : Scene} {m : Machine} {n : Nat} {e : FrameRef} {label : Label}
  {keyword : Token}

/-- `this` is the object that the method around it was looked up on. -/
theorem eval_this (hσ : σ.Serves L) (hw : w.At L m) (h : (Task.eval e (.this label keyword)).Placed L w) :
    ∃ a d, Activation.Surrounds L.past m.heap e d ⟨.this, label, keyword⟩ a ∧ σ.distance? label = some d ∧
      (∃ o c, a.this = .object o c) ∧ eval (n + 1) σ e (.this label keyword) m = .done a.this m := by
  obtain ⟨he, O, place, k, hx, hs⟩ := h
  obtain ⟨hplace, hname, hO, hrecorded⟩ := hx.2 _ (List.mem_singleton.2 rfl)
  obtain ⟨a, ha, hown, -⟩ := hs hplace
  obtain ⟨hframe, -, hopens⟩ := hw.sound.ancestor? he ha
  have hd : σ.distance? label = some k := hσ.distance _ _ hrecorded
  rw [hw.heap] at hframe
  refine ⟨a, k, ⟨hown _ hO, hopens.looked, hopens.founded, hframe⟩, hd, hopens.object, ?_⟩
  have hthis : m.heap.frames.findAt? e k keyword.lexeme = some a.this := by
    rw [Frames.findAt?_eq hframe, ← hw.heap, show keyword.lexeme = "this" from hname]
    exact hopens.this
  simp only [eval, hd, readName, Frames.readAt, hthis, Frames.orUndefined]

/-- What the names behind `super` are bound to: the superclass that the class of the method around it was made with, and
the object that the method was looked up on. -/
theorem bound_super (hσ : σ.Serves L) (hw : w.At L m) {name : Token}
    (h : (Task.eval e (.super label keyword name)).Placed L w) :
    ∃ a d parent, Activation.Surrounds L.past m.heap e d ⟨.super, label, keyword⟩ a ∧
      σ.distance? label = some (d + 1) ∧ (∃ o c, a.this = .object o c) ∧ a.parent = some parent ∧
      m.heap.frames.findAt? e (d + 1) keyword.lexeme = some (.klass parent) ∧
      m.heap.frames.findAt? e d "this" = some a.this := by
  obtain ⟨he, O, place, k, hx, hs⟩ := h
  obtain ⟨hplace, hname, hO, hrecorded⟩ := hx.2 _ (List.mem_singleton.2 rfl)
  obtain ⟨a, ha, hown, hparent⟩ := hs (by simp [hplace])
  obtain ⟨parent, hparent⟩ := Option.isSome_iff_exists.1 (hparent hplace)
  obtain ⟨hframe, houter, hopens⟩ := hw.sound.ancestor? he ha
  have hd : σ.distance? label = some (k + 1) := hσ.distance _ _ hrecorded
  have hsuper : m.heap.frames.findAt? e (k + 1) keyword.lexeme = some (.klass parent) := by
    rw [← hw.heap, Frames.findAt?_eq (Frames.ancestor?_succ_of_enclosing? hframe houter),
      show keyword.lexeme = "super" from hname]
    exact (hopens.inherits parent hparent).2
  have hthis : m.heap.frames.findAt? e k "this" = some a.this := by
    rw [← hw.heap, Frames.findAt?_eq hframe]
    exact hopens.this
  rw [hw.heap] at hframe
  exact ⟨a, k, parent, ⟨hown _ hO, hopens.looked, hopens.founded, hframe⟩, hd, hopens.object, hparent, hsuper, hthis⟩

/-- `super` searches from that superclass, and binds what it finds to that object. -/
theorem eval_super (hσ : σ.Serves L) (hw : w.At L m) {name : Token}
    (h : (Task.eval e (.super label keyword name)).Placed L w) :
    ∃ a d parent, Activation.Surrounds L.past m.heap e d ⟨.super, label, keyword⟩ a ∧
      σ.distance? label = some (d + 1) ∧ (∃ o c, a.this = .object o c) ∧ a.parent = some parent ∧
      m.heap.frames.findAt? e (d + 1) keyword.lexeme = some (.klass parent) ∧
      eval (n + 1) σ e (.super label keyword name) m =
        match parent.method? name.lexeme with
        | some method => boundMethod method a.this m
        | none => .failed (.runtime ⟨name, .undefinedProperty name.lexeme⟩) m := by
  obtain ⟨a, d, parent, hin, hd, hobject, hparent, hsuper, hthis⟩ := bound_super hσ hw h
  refine ⟨a, d, parent, hin, hd, hobject, hparent, hsuper, ?_⟩
  obtain ⟨o, c, ho⟩ := hobject
  rw [ho] at hthis ⊢
  have hread : readName (some (d + 1)) e keyword m = .done (.klass parent) m := by
    simp only [readName, Frames.readAt, hsuper, Frames.orUndefined]
  have hin : nameIn? e d "this" m = .done (some (.object o c)) m := by
    simp only [nameIn?, hthis]
  simp only [eval, hd, getSuper]
  show andThen _ _ m = _
  simp only [andThen, hread]
  show andThen _ _ m = _
  simp only [andThen, Nat.add_sub_cancel, hin]
  cases parent.method? name.lexeme <;> rfl

/-- An initializer gives the object that it was looked up on. -/
theorem callResult_of_initializer (hw : w.At L m) {c : Closure} (hc : c.Placed L w) (hi : c.isInitializer = true)
    (flow : Flow) : ∃ a : Activation, a.frame = c.frame ∧ (∃ σ q, L.past σ q ∧ Looks σ q a.method a.this a.frame) ∧
      (∃ o k, a.this = .object o k) ∧ m.heap.frames.findAt? c.frame 0 "this" = some a.this ∧
      callResult c flow m = .done a.this m := by
  obtain ⟨a, ha⟩ := hc.receiver hi
  obtain ⟨hframe, -, hopens⟩ := hw.sound.ancestor? hc.lt ha
  have hthis : m.heap.frames.findAt? c.frame 0 "this" = some a.this := by
    rw [← hw.heap, Frames.findAt?_eq hframe]
    exact hopens.this
  refine ⟨a, (Option.some.inj hframe).symm, hopens.looked, hopens.object, hthis, ?_⟩
  unfold callResult
  rw [if_pos hi]
  show andThen _ _ m = _
  simp only [andThen, nameIn?, hthis]
  rfl

/-- Behind its body, a function is placed as it was before. -/
theorem Closure.Placed.behind_body {c : Closure} (hc : c.Placed L w) (hσ : σ.Serves L) (hw : w.At L m)
    {vs : List Value} (hvs : ∀ v ∈ vs, v.Placed L w) (hcovers : L.Covers σ ⟨n + 1, .invoke c vs, m⟩) {m₁ m₂ : Machine}
    {flow : Flow} (hf : callFrame c vs m = .done e m₁) (hb : execAll n σ e c.declaration.body m₁ = .done flow m₂) :
    ∃ w' : Scene, w'.At L m₂ ∧ w.Grows w' ∧ c.Placed L w' := by
  obtain ⟨O, place, k, hl, hs, -⟩ := hc.code
  obtain ⟨w₁, hw₁, hg₁, he₁, hs₁⟩ := (tells_callFrame hw hc.lt hs hvs).done hf
  have hbody : (Task.execAll e c.declaration.body).Placed L w₁ := ⟨he₁, O, place, k + 1, hl.body, hs₁⟩
  obtain ⟨w₂, hw₂, hg₂, -⟩ := ((telling hσ n).execAll hw₁ hbody (hcovers.call (.body hf))).done hb
  exact ⟨w₂, hw₂, hg₁.trans hg₂, (hc.mono hg₁).mono hg₂⟩

end

namespace Session

variable {s s' : Session} {sites : List Site} {runs : List Run} {source : String} {program : List Stmt}

/-- In every run of an accepted source in a session: `this` evaluates to the object that the method around it was looked
up on; `super` evaluates to the first method of the name on the chain of the class that the superclass was when the class
around it was made, bound to that object, or fails because there is none; an initializer gives the object that it was
looked up on; and no operator is invalid. -/
theorem receiver_sound (hs : Ran s sites runs) (he : s.enter? source = some (s', program)) (fuel : Nat) :
    (∀ n e label keyword m,
      Visits s'.setting ⟨fuel, .program program, s'.machine⟩ ⟨n + 1, .eval e (.this label keyword), m⟩ →
      ∃ a d, Activation.Surrounds (Visited (runs ++ [⟨s', fuel, program⟩])) m.heap e d ⟨.this, label, keyword⟩ a ∧
        s'.setting.distance? label = some d ∧ (∃ o c, a.this = .object o c) ∧
        Exec.eval (n + 1) s'.setting e (.this label keyword) m = .done a.this m) ∧
    (∀ n e label keyword name m,
      Visits s'.setting ⟨fuel, .program program, s'.machine⟩ ⟨n + 1, .eval e (.super label keyword name), m⟩ →
      ∃ a d parent,
        Activation.Surrounds (Visited (runs ++ [⟨s', fuel, program⟩])) m.heap e d ⟨.super, label, keyword⟩ a ∧
        s'.setting.distance? label = some (d + 1) ∧ (∃ o c, a.this = .object o c) ∧ a.parent = some parent ∧
        Exec.eval (n + 1) s'.setting e (.super label keyword name) m =
          match parent.chain.findSome? fun k => Assoc.get? k.methods name.lexeme with
          | some method => Exec.boundMethod method a.this m
          | none => .failed (.runtime ⟨name, .undefinedProperty name.lexeme⟩) m) ∧
    (∀ n c vs m e m₁ flow m₂,
      Visits s'.setting ⟨fuel, .program program, s'.machine⟩ ⟨n + 1, .invoke c vs, m⟩ → c.isInitializer = true →
      Exec.callFrame c vs m = .done e m₁ → Exec.execAll n s'.setting e c.declaration.body m₁ = .done flow m₂ →
      ∃ a : Activation, a.frame = c.frame ∧
        (∃ σ q, Visited (runs ++ [⟨s', fuel, program⟩]) σ q ∧ Looks σ q a.method a.this a.frame) ∧
        (∃ o k, a.this = .object o k) ∧ m₂.heap.frames.findAt? c.frame 0 "this" = some a.this ∧
        Exec.callResult c flow m₂ = .done a.this m₂) ∧
    (∀ n e operator x m v,
      Visits s'.setting ⟨fuel, .program program, s'.machine⟩ ⟨n + 1, .eval e (.unary operator x), m⟩ →
      applyUnary operator.kind v ≠ .error .invalidUnary) ∧
    ∀ n e x operator y m v u,
      Visits s'.setting ⟨fuel, .program program, s'.machine⟩ ⟨n + 1, .eval e (.binary x operator y), m⟩ →
      applyBinary operator.kind v u ≠ .error .invalidBinary := by
  have hσ : s'.setting.Serves (lore (sites ++ Stmt.sitesAll [] program) (runs ++ [⟨s', fuel, program⟩])) :=
    (hs.reached.kept.enter he).serves
  refine ⟨?_, ?_, ?_, ?_, ?_⟩
  · intro n e label keyword m hv
    obtain ⟨w, hw, hx⟩ := hs.placed he hv
    exact eval_this hσ hw hx
  · intro n e label keyword name m hv
    obtain ⟨w, hw, hx⟩ := hs.placed he hv
    obtain ⟨a, d, parent, hin, hd, hobject, hparent, -, h⟩ := eval_super hσ hw hx (n := n)
    rw [Class.method?_eq_findSome?] at h
    exact ⟨a, d, parent, hin, hd, hobject, hparent, h⟩
  · intro n c vs m e m₁ flow m₂ hv hi hf hb
    obtain ⟨w, hw, hc, hvs⟩ := hs.placed he hv
    obtain ⟨w', hw', -, hc'⟩ := hc.behind_body hσ hw hvs (covers_of_visits hv) hf hb
    exact callResult_of_initializer hw' hc' hi flow
  · intro n e operator x m v hv
    obtain ⟨w, -, -, O, place, k, hx, -⟩ := hs.placed he hv
    exact applyUnary_ne_invalid hx.1.1 v
  · intro n e x operator y m v u hv
    obtain ⟨w, -, -, O, place, k, hx, -⟩ := hs.placed he hv
    exact applyBinary_ne_invalid hx.1.1 v u

/-- A method that overrides another reads it through `super`. -/
theorem receiver_sound_inherited : ∃ s' program,
    (start ⟨.unlimited, [], .running 0⟩).enter? "class A { f() {} } class B < A { f() { super.f; } } B().f();" =
      some (s', program) ∧
    ∃ n e m, ∃ a : Activation, ∃ parent : Class, Visits s'.setting ⟨19, .program program, s'.machine⟩
        ⟨n + 1, .eval e (.super 1 ⟨.keyword .kwSuper, "super", 1⟩ ⟨.identifier, "f", 1⟩), m⟩ ∧
      m.heap.frames.ancestor? e 1 = some a.frame ∧ a.parent = some parent ∧
      Exec.eval (n + 1) s'.setting e (.super 1 ⟨.keyword .kwSuper, "super", 1⟩ ⟨.identifier, "f", 1⟩) m =
        match parent.chain.findSome? fun k => Assoc.get? k.methods "f" with
        | some method => Exec.boundMethod method a.this m
        | none => .failed (.runtime ⟨⟨.identifier, "f", 1⟩, .undefinedProperty "f"⟩) m := by
  let a : Token := ⟨.identifier, "A", 1⟩
  let b : Token := ⟨.identifier, "B", 1⟩
  let f : Token := ⟨.identifier, "f", 1⟩
  let node : Expr := .super 1 ⟨.keyword .kwSuper, "super", 1⟩ f
  let method : FunctionDecl := .mk f [] [.expr node]
  let paren : Token := .ofMark .rightParen 1
  let program : List Stmt := [.classDecl a none [.mk f [] []], .classDecl b (some (.variable 0 a)) [method],
    .expr (.call (.get (.call (.variable 2 b) paren []) f) paren [])]
  let s' : Session := { start ⟨.unlimited, [], .running 0⟩ with fresh := 3, distances := [(1, 2)] }
  have he : (start ⟨.unlimited, [], .running 0⟩).enter?
      "class A { f() {} } class B < A { f() { super.f; } } B().f();" = some (s', program) := rfl
  have hv : Visits s'.setting ⟨19, .program program, s'.machine⟩ ⟨13, .eval 3 node, _⟩ :=
    .head (.restOfProgram (by simp only [Exec.exec]; rfl)) <|
      .head (.restOfProgram (by simp only [Exec.exec, Exec.eval]; rfl)) <|
      .head .topStatement <| .head .expression <|
      .head (.called (by simp only [Exec.eval, Exec.evalAll, Exec.call.eq_def]; rfl) (by simp only [Exec.evalAll]; rfl)) <|
      .head (.function rfl) <| .head (.body rfl) <| .head .firstStatement <| .head .expression .refl
  obtain ⟨a, d, parent, hin, hd, -, hparent, heval⟩ := (receiver_sound (.start _) he 19).2.1 12 3 _ _ _ _ hv
  obtain rfl : 1 = d := Nat.succ.inj (Option.some.inj hd)
  exact ⟨s', program, he, 12, 3, _, a, parent, hv, hin.frame, hparent, heval⟩

end Session

end ScriptLang
