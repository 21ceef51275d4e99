import ScriptLang.Proofs.Running.Visits
import ScriptLang.Proofs.Scoping.Lawful

/-!
# Scenes: the method around a frame

A heap does not say for which object a method was looked up when a frame was made, nor which class statement made the
method.  A `Scene` adds to each frame the activation of the method around it, and how far away its frame for `this` is.

* `Looks`, `Founds` — at a point a method is looked up on an object, a class statement makes its class;
* `Scene.Grows` — from one scene to a later one old frames keep their links, their activations and what they bind as
  `this` and `super`;
* `Closure.Placed`, `Closure.PlacedMethod` — a closure is lawful code in a frame with the activation that it belongs to;
* `Scene.Sound L` — all closures in a scene are placed, and activations go back to points of the past in the lore `L`.
-/

namespace ScriptLang

/-! ## everything in a value -/

/-- All methods of a class and of the classes it inherits from have a property. -/
def Class.Every (P : Closure → Prop) : Class → Prop
  | .mk _ _ none methods => ∀ p ∈ methods, P p.2
  | .mk _ _ (some parent) methods => (∀ p ∈ methods, P p.2) ∧ parent.Every P

/-- A function in a value has a property, and all methods in it have another. -/
def Value.Every (F M : Closure → Prop) : Value → Prop
  | .function _ c => F c
  | .klass c => c.Every M
  | .object _ c => c.Every M
  | _ => True

section

variable {F F' M M' : Closure → Prop}

theorem Class.Every.mono {c : Class} (h : c.Every M) (hM : ∀ m, M m → M' m) : c.Every M' :=
  match c, h with
  | .mk _ _ none _, h => fun p hp => hM _ (h p hp)
  | .mk _ _ (some _) _, h => ⟨fun p hp => hM _ (h.1 p hp), Class.Every.mono h.2 hM⟩

/-- What is found on the chain of superclasses is a method of one of the classes. -/
theorem Class.Every.method {c : Class} (h : c.Every M) {name : String} {m : Closure}
    (hm : c.method? name = some m) : M m :=
  match c, h, hm with
  | .mk _ _ none _, h, hm => h _ (Assoc.mem_of_get? hm)
  | .mk _ _ (some parent) methods, h, hm => by
    unfold Class.method? at hm
    split at hm
    · next own =>
      obtain rfl := Option.some.inj hm
      exact h.1 _ (Assoc.mem_of_get? own)
    · exact Class.Every.method h.2 hm

theorem Value.Every.mono {v : Value} (h : v.Every F M) (hF : ∀ c, F c → F' c) (hM : ∀ m, M m → M' m) :
    v.Every F' M' := by
  cases v with
  | function tag c => exact hF c h
  | klass c => exact Class.Every.mono h hM
  | object o c => exact Class.Every.mono h hM
  | _ => trivial

theorem Value.Plain.every {v : Value} (h : v.Plain) : v.Every F M := by
  cases v with
  | function tag c => exact h.elim
  | klass c => exact h.elim
  | object o c => exact h.elim
  | _ => trivial

end

/-! ## events -/

open Exec in
/-- At a point a method is looked up on an object; the frame in which it has the object as `this` is new. -/
inductive Looks (σ : Setting) : Point → Closure → Value → FrameRef → Prop
  | property {n e x name m o c m' method} : eval n σ e x m = .done (.object o c) m' →
      Assoc.get? (m'.heap.fields o) name.lexeme = none → c.method? name.lexeme = some method →
      Looks σ ⟨n + 1, .eval e (.get x name), m⟩ method (.object o c) m'.heap.frames.size
  | super {n e label keyword name m d parent o c method} : σ.distance? label = some d →
      m.heap.frames.findAt? e d keyword.lexeme = some (.klass parent) →
      m.heap.frames.findAt? e (d - 1) "this" = some (.object o c) → parent.method? name.lexeme = some method →
      Looks σ ⟨n + 1, .eval e (.super label keyword name), m⟩ method (.object o c) m.heap.frames.size
  | construct {n c vs paren m method} : vs.length = c.arity → c.method? FunctionDecl.initName = some method →
      Looks σ ⟨n + 1, .call (.klass c) vs paren, m⟩ method (.object m.heap.objects.size c) m.heap.frames.size

open Exec in
/-- At a point a class statement makes a class with methods: its superclass, and the frame that the methods are closed
over. -/
inductive Founds (σ : Setting) : Point → List FunctionDecl → Option Class → FrameRef → Prop
  | plain {n e name ms m} : Founds σ ⟨n + 1, .exec e (.classDecl name none ms), m⟩ ms none e
  | derived {n e name x ms m parent m'} : eval n σ e x m = .done (.klass parent) m' →
      Founds σ ⟨n + 1, .exec e (.classDecl name (some x) ms), m⟩ ms (some parent) m'.heap.frames.size

/-- What is known beside a scene: the distances that were recorded for labels, and the points that were visited. -/
structure Lore where
  recorded : Label → Option Nat → Prop
  past : Setting → Point → Prop

/-- The points that are visited from here on are in the lore. -/
def Lore.Covers (L : Lore) (σ : Setting) (p : Point) : Prop := ∀ q, Visits σ p q → L.past σ q

theorem Lore.Covers.here {L : Lore} {σ : Setting} {p : Point} (h : L.Covers σ p) : L.past σ p := h p .refl

theorem Lore.Covers.call {L : Lore} {σ : Setting} {p q : Point} (h : L.Covers σ p) (hc : Calls σ p q) :
    L.Covers σ q :=
  fun r hr => h r (.head hc hr)

/-- A class statement in the past made the method, in a class with that superclass. -/
def Closure.Founded (L : Lore) (method : Closure) (parent : Option Class) : Prop :=
  ∃ σ p ms, L.past σ p ∧ Founds σ p ms parent method.frame ∧ method.declaration ∈ ms

/-- A method that was looked up on an object. -/
structure Activation where
  method : Closure
  this : Value
  /-- The frame that binds `this`. -/
  frame : FrameRef
  /-- The superclass of the class that the method was made in. -/
  parent : Option Class

/-! ## scenes -/

/-- The value of a name in a frame. -/
def Heap.bound? (h : Heap) (e : FrameRef) (name : String) : Option Value := Assoc.get? (h.frames.bindings e) name

/-- A heap, and for each frame the activation around it with its distance. -/
structure Scene where
  heap : Heap
  around : FrameRef → Option (Activation × Nat)

/-- One scope further in. -/
def further (x : Activation × Nat) : Activation × Nat := (x.1, x.2 + 1)

namespace Scene

/-- What holds from a scene to a later one. -/
structure Grows (w w' : Scene) : Prop where
  size : w.heap.frames.size ≤ w'.heap.frames.size
  enclosing : ∀ e < w.heap.frames.size, w'.heap.frames.enclosing? e = w.heap.frames.enclosing? e
  around : ∀ e < w.heap.frames.size, w'.around e = w.around e
  kept : ∀ e < w.heap.frames.size, e ≠ Heap.globals → ∀ name, ¬ Ordinary name →
    w'.heap.bound? e name = w.heap.bound? e name

namespace Grows

variable {w w' w'' : Scene}

theorem refl (w : Scene) : w.Grows w := ⟨Nat.le_refl _, fun _ _ => rfl, fun _ _ => rfl, fun _ _ _ _ _ => rfl⟩

theorem trans (h : w.Grows w') (h' : w'.Grows w'') : w.Grows w'' where
  size := Nat.le_trans h.size h'.size
  enclosing e he := (h'.enclosing e (Nat.lt_of_lt_of_le he h.size)).trans (h.enclosing e he)
  around e he := (h'.around e (Nat.lt_of_lt_of_le he h.size)).trans (h.around e he)
  kept e he hne name hn := (h'.kept e (Nat.lt_of_lt_of_le he h.size) hne name hn).trans (h.kept e he hne name hn)

end Grows

/-- The code at a place, of which the occurrences `O` belong to the method around it, may run in a frame: the activation
there is of that method, and `this` as far away as the code has it. -/
def Seats (w : Scene) (e : FrameRef) (O : Occurrence → Prop) (place : Place) (k : Nat) : Prop :=
  place.klass ≠ .none → ∃ a, w.around e = some (a, k) ∧ (∀ o, O o → o ∈ a.method.declaration.own) ∧
    (place.klass = .derived → a.parent.isSome)

/-- The frame that a method is closed over has the superclass, if there is one. -/
def Inherits (w : Scene) (e : FrameRef) (parent : Option Class) : Prop :=
  ∀ c, parent = some c → e ≠ Heap.globals ∧ w.heap.bound? e "super" = some (.klass c)

/-- The frame of an activation binds `this`, and outside of it is the frame that the method is closed over. -/
structure Opens (L : Lore) (w : Scene) (a : Activation) : Prop where
  this : w.heap.bound? a.frame "this" = some a.this
  object : ∃ o c, a.this = .object o c
  inherits : w.Inherits a.method.frame a.parent
  looked : ∃ σ p, L.past σ p ∧ Looks σ p a.method a.this a.frame
  founded : a.method.Founded L a.parent

/-- A frame belongs to the activation that the frame outside of it belongs to, or it is the frame of one. -/
def Linked (L : Lore) (w : Scene) (e : FrameRef) : Prop :=
  ∃ o, w.heap.frames.enclosing? e = some o ∧ o < e ∧
    (w.around e = (w.around o).map further ∨
      ∃ a, w.around e = some (a, 0) ∧ a.frame = e ∧ a.method.frame = o ∧ w.Opens L a)

end Scene

section

variable (L : Lore) (w : Scene)

/-- A function is lawful code in its frame; if it is an initializer, its frame is that of an activation. -/
structure Closure.Placed (c : Closure) : Prop where
  lt : c.frame < w.heap.frames.size
  code : ∃ O place k, c.declaration.Lawful L.recorded O place k ∧ w.Seats c.frame O place k ∧
    place.inLoop = false ∧ place.function ≠ .none ∧ (c.isInitializer = true → place.function = .initializer)
  receiver : c.isInitializer = true → ∃ a, w.around c.frame = some (a, 0)

/-- A method is lawful code, made by a class statement. -/
structure Closure.PlacedMethod (m : Closure) : Prop where
  lt : m.frame < w.heap.frames.size
  code : ∃ parent klass, m.Founded L parent ∧ w.Inherits m.frame parent ∧ (klass = .derived → parent.isSome) ∧
    m.declaration.Lawful L.recorded (· ∈ m.declaration.own) ⟨.ofMethod m.declaration, klass, false⟩ 0
  initializer : m.isInitializer = m.declaration.isInit

/-- All closures in a value are placed. -/
def Value.Placed (v : Value) : Prop := v.Every (Closure.Placed L w) (Closure.PlacedMethod L w)

/-- The value that a statement ended with is placed. -/
def Flow.Placed : Flow → Prop
  | .returned v => v.Placed L w
  | _ => True

/-- What holds of the scene at every point of a run. -/
structure Scene.Sound : Prop where
  root : Heap.globals < w.heap.frames.size
  top : w.heap.frames.enclosing? Heap.globals = none
  outside : w.around Heap.globals = none
  linked : ∀ e < w.heap.frames.size, e ≠ Heap.globals → w.Linked L e
  value : ∀ e, ∀ p ∈ w.heap.frames.bindings e, p.2.Placed L w
  field : ∀ o, ∀ p ∈ w.heap.fields o, p.2.Placed L w

/-- A sound scene of a machine. -/
structure Scene.At (m : Machine) : Prop where
  heap : w.heap = m.heap
  sound : w.Sound L

end

section

variable {L : Lore} {w w' : Scene} {e : FrameRef}

/-! ## growing -/

theorem not_ordinary_this : ¬ Ordinary "this" := fun h => h.1 rfl

theorem not_ordinary_super : ¬ Ordinary "super" := fun h => h.2 rfl

namespace Scene

theorem Seats.mono {O : Occurrence → Prop} {place : Place} {k : Nat} (h : w.Seats e O place k) (hg : w.Grows w')
    (he : e < w.heap.frames.size) : w'.Seats e O place k := by
  intro hk
  obtain ⟨a, ha, h⟩ := h hk
  exact ⟨a, (hg.around e he).trans ha, h⟩

theorem Inherits.mono {parent : Option Class} (h : w.Inherits e parent) (hg : w.Grows w')
    (he : e < w.heap.frames.size) : w'.Inherits e parent := by
  intro c hc
  obtain ⟨hne, hb⟩ := h c hc
  exact ⟨hne, (hg.kept e he hne _ not_ordinary_super).trans hb⟩

theorem Linked.mono (h : w.Linked L e) (hg : w.Grows w') (he : e < w.heap.frames.size) (hne : e ≠ Heap.globals) :
    w'.Linked L e := by
  obtain ⟨o, ho, hlt, h⟩ := h
  have ho' : o < w.heap.frames.size := Nat.lt_trans hlt he
  refine ⟨o, (hg.enclosing e he).trans ho, hlt, ?_⟩
  rcases h with h | ⟨a, ha, rfl, rfl, hopens⟩
  · left
    rw [hg.around e he, hg.around o ho', h]
  · right
    refine ⟨a, (hg.around _ he).trans ha, rfl, rfl, ?_⟩
    exact { hopens with
      this := (hg.kept _ he hne _ not_ordinary_this).trans hopens.this
      inherits := hopens.inherits.mono hg ho' }

end Scene

theorem Closure.Placed.mono {c : Closure} (h : c.Placed L w) (hg : w.Grows w') : c.Placed L w' where
  lt := Nat.lt_of_lt_of_le h.lt hg.size
  code := by
    obtain ⟨O, place, k, hl, hs, h'⟩ := h.code
    exact ⟨O, place, k, hl, hs.mono hg h.lt, h'⟩
  receiver hi := by
    obtain ⟨a, ha⟩ := h.receiver hi
    exact ⟨a, (hg.around _ h.lt).trans ha⟩

theorem Closure.PlacedMethod.mono {m : Closure} (h : m.PlacedMethod L w) (hg : w.Grows w') : m.PlacedMethod L w' where
  lt := Nat.lt_of_lt_of_le h.lt hg.size
  code := by
    obtain ⟨parent, klass, hf, hi, h'⟩ := h.code
    exact ⟨parent, klass, hf, hi.mono hg h.lt, h'⟩
  initializer := h.initializer

theorem Value.Placed.mono {v : Value} (h : v.Placed L w) (hg : w.Grows w') : v.Placed L w' :=
  Value.Every.mono h (fun _ hc => hc.mono hg) fun _ hm => hm.mono hg

theorem Value.Plain.placed {v : Value} (h : v.Plain) : v.Placed L w := h.every

/-! ## more lore -/

/-- More records and more points of the past do no harm. -/
structure Lore.Extends (L L' : Lore) : Prop where
  recorded : ∀ l d, L.recorded l d → L'.recorded l d
  past : ∀ σ p, L.past σ p → L'.past σ p

variable {L' : Lore}

theorem Closure.Founded.more {m : Closure} {parent : Option Class} (h : m.Founded L parent) (hL : L.Extends L') :
    m.Founded L' parent := by
  obtain ⟨σ, p, ms, hp, h⟩ := h
  exact ⟨σ, p, ms, hL.past σ p hp, h⟩

theorem Value.Placed.more {v : Value} (h : v.Placed L w) (hL : L.Extends L') : v.Placed L' w := by
  refine Value.Every.mono h (fun c hc => ?_) fun m hm => ?_
  · obtain ⟨O, place, k, hl, h'⟩ := hc.code
    exact ⟨hc.lt, ⟨O, place, k, hl.mono hL.recorded, h'⟩, hc.receiver⟩
  · obtain ⟨parent, klass, hf, hi, hd, hl⟩ := hm.code
    exact ⟨hm.lt, ⟨parent, klass, hf.more hL, hi, hd, hl.mono hL.recorded⟩, hm.initializer⟩

theorem Scene.Sound.more (h : w.Sound L) (hL : L.Extends L') : w.Sound L' := by
  refine { h with
    linked := fun e he hne => ?_
    value := fun e p hp => (h.value e p hp).more hL
    field := fun o p hp => (h.field o p hp).more hL }
  obtain ⟨o, ho, hlt, hcase⟩ := h.linked e he hne
  refine ⟨o, ho, hlt, hcase.imp_right ?_⟩
  rintro ⟨a, ha, hfr, hm, hopens⟩
  obtain ⟨σ, p, hp, hlooks⟩ := hopens.looked
  exact ⟨a, ha, hfr, hm, { hopens with
    looked := ⟨σ, p, hL.past σ p hp, hlooks⟩
    founded := hopens.founded.more hL }⟩

/-! ## the frame of an activation -/

/-- The frame of the activation around a frame is as far away as the scene has it. -/
theorem Scene.Sound.ancestor? (h : w.Sound L) {a : Activation} {k : Nat} (he : e < w.heap.frames.size)
    (ha : w.around e = some (a, k)) :
    w.heap.frames.ancestor? e k = some a.frame ∧ w.heap.frames.enclosing? a.frame = some a.method.frame ∧
      w.Opens L a := by
  induction k generalizing e with
  | zero =>
    have hne : e ≠ Heap.globals := by
      rintro rfl
      rw [h.outside] at ha
      cases ha
    obtain ⟨o, ho, hlt, hplain | ⟨a', ha', rfl, rfl, hopens⟩⟩ := h.linked e he hne
    · rw [ha] at hplain
      obtain ⟨x, -, hx⟩ := Option.map_eq_some_iff.1 hplain.symm
      cases hx
    · obtain ⟨rfl, -⟩ := Prod.mk.inj (Option.some.inj (ha'.symm.trans ha))
      exact ⟨rfl, ho, hopens⟩
  | succ k ih =>
    have hne : e ≠ Heap.globals := by
      rintro rfl
      rw [h.outside] at ha
      cases ha
    obtain ⟨o, ho, hlt, hplain | ⟨a', ha', -⟩⟩ := h.linked e he hne
    · rw [ha] at hplain
      obtain ⟨⟨b, j⟩, hx, hbj⟩ := Option.map_eq_some_iff.1 hplain.symm
      cases hbj
      obtain ⟨hanc, h'⟩ := ih (Nat.lt_trans hlt he) hx
      refine ⟨?_, h'⟩
      simp only [Frames.ancestor?, ho, Option.bind_some]
      exact hanc
    · rw [ha] at ha'
      cases ha'

/-! ## what changes a scene -/

namespace Scene

variable {name : String} {v : Value}

/-- Binds a name in a frame. -/
def define (w : Scene) (e : FrameRef) (name : String) (v : Value) : Scene :=
  { w with heap := w.heap.define e name v }

theorem grows_define (he : e < w.heap.frames.size) (hn : e ≠ Heap.globals → Ordinary name) :
    w.Grows (w.define e name v) where
  size := by simp [define, Heap.define]
  enclosing f _ := by simp [define, Heap.define]
  around _ _ := rfl
  kept f _ hf n hne := by
    unfold Heap.bound? define Heap.define
    rw [Frames.bindings_define _ he]
    split
    · next heq =>
      subst heq
      rw [Assoc.get?_set_of_ne]
      rintro rfl
      exact hne (hn hf)
    · rfl

theorem Sound.define (h : w.Sound L) (he : e < w.heap.frames.size) (hn : e ≠ Heap.globals → Ordinary name)
    (hv : v.Placed L w) : (w.define e name v).Sound L := by
  have hg : w.Grows (w.define e name v) := grows_define he hn
  have hsize : (w.define e name v).heap.frames.size = w.heap.frames.size := by simp [Scene.define, Heap.define]
  refine ⟨Nat.lt_of_lt_of_le h.root hg.size, (hg.enclosing _ h.root).trans h.top, h.outside, ?_, ?_, ?_⟩
  · intro f hf hne
    rw [hsize] at hf
    exact (h.linked f hf hne).mono hg hf hne
  · intro f p hp
    unfold Scene.define Heap.define at hp
    rw [Frames.bindings_define _ he] at hp
    split at hp
    · rcases Assoc.mem_of_mem_set hp with rfl | hp
      · exact hv.mono hg
      · exact (h.value e p hp).mono hg
    · exact (h.value f p hp).mono hg
  · exact fun o p hp => (h.field o p hp).mono hg

/-- Adds a frame with the activation around it. -/
def push (w : Scene) (o : FrameRef) (b : Assoc String Value) (x : Option (Activation × Nat)) : Scene where
  heap := w.heap.addFrame o b
  around f := if f = w.heap.frames.size then x else w.around f

section

variable {o : FrameRef} {b : Assoc String Value} {x : Option (Activation × Nat)}

theorem bindings_push (f : FrameRef) :
    (w.push o b x).heap.frames.bindings f = if f = w.heap.frames.size then b else w.heap.frames.bindings f :=
  Frames.bindings_push ..

theorem enclosing?_push (f : FrameRef) : (w.push o b x).heap.frames.enclosing? f =
    if f = w.heap.frames.size then some o else w.heap.frames.enclosing? f :=
  Frames.enclosing?_push ..

theorem size_push : (w.push o b x).heap.frames.size = w.heap.frames.size + 1 := by
  simp [push, Heap.addFrame]

theorem lt_size_push : w.heap.frames.size < (w.push o b x).heap.frames.size := by
  rw [size_push]
  exact Nat.lt_succ_self _

theorem grows_push : w.Grows (w.push o b x) where
  size := by simp [size_push]
  enclosing f hf := by rw [enclosing?_push, if_neg (Nat.ne_of_lt hf)]
  around f hf := if_neg (Nat.ne_of_lt hf)
  kept f hf _ n _ := by
    unfold Heap.bound?
    rw [bindings_push, if_neg (Nat.ne_of_lt hf)]

theorem bound?_push (n : String) : (w.push o b x).heap.bound? w.heap.frames.size n = Assoc.get? b n := by
  unfold Heap.bound?
  rw [bindings_push, if_pos rfl]

theorem around_push : (w.push o b x).around w.heap.frames.size = x := if_pos rfl

/-- A new frame makes a sound scene if it is linked and what it binds is placed. -/
theorem Sound.push (h : w.Sound L) (hb : ∀ p ∈ b, p.2.Placed L w)
    (hl : (w.push o b x).Linked L w.heap.frames.size) : (w.push o b x).Sound L := by
  have hg : w.Grows (w.push o b x) := grows_push
  refine ⟨Nat.lt_of_lt_of_le h.root hg.size, (hg.enclosing _ h.root).trans h.top, ?_, ?_, ?_, ?_⟩
  · exact (hg.around _ h.root).trans h.outside
  · intro f hf hne
    by_cases hlt : f < w.heap.frames.size
    · exact (h.linked f hlt hne).mono hg hlt hne
    · obtain rfl : f = w.heap.frames.size := by
        rw [size_push] at hf
        omega
      exact hl
  · intro f p hp
    rw [bindings_push] at hp
    split at hp
    · exact (hb p hp).mono hg
    · exact (h.value f p hp).mono hg
  · exact fun o p hp => (h.field o p hp).mono hg

/-- A frame for a block, a call or a superclass belongs to the activation around it. -/
theorem Sound.push_plain (h : w.Sound L) (ho : o < w.heap.frames.size) (hb : ∀ p ∈ b, p.2.Placed L w) :
    (w.push o b ((w.around o).map further)).Sound L := by
  refine h.push hb ⟨o, ?_, ho, .inl ?_⟩
  · rw [enclosing?_push, if_pos rfl]
  · rw [around_push, grows_push.around o ho]

/-- The code of a block or of a function body may run in the new frame. -/
theorem Seats.push {O : Occurrence → Prop} {place : Place} {k : Nat} (h : w.Seats o O place k) :
    (w.push o b ((w.around o).map further)).Seats w.heap.frames.size O place (k + 1) := by
  intro hk
  obtain ⟨a, ha, h⟩ := h hk
  refine ⟨a, ?_, h⟩
  rw [around_push, ha]
  rfl

end

/-! ## changes that leave the frames alone -/

theorem grows_of_frames (h' : Heap) (hf : h'.frames = w.heap.frames) : w.Grows { w with heap := h' } := by
  obtain ⟨heap, around⟩ := w
  obtain ⟨frames, objects, tag⟩ := h'
  obtain rfl : frames = heap.frames := hf
  exact ⟨Nat.le_refl _, fun _ _ => rfl, fun _ _ => rfl, fun _ _ _ _ _ => rfl⟩

theorem Sound.of_frames (h : w.Sound L) (h' : Heap) (hf : h'.frames = w.heap.frames)
    (hfield : ∀ o, ∀ p ∈ h'.fields o, p.2.Placed L w) : Sound L { w with heap := h' } := by
  have hg := grows_of_frames h' hf
  refine ⟨Nat.lt_of_lt_of_le h.root hg.size, (hg.enclosing _ h.root).trans h.top, h.outside, ?_, ?_, ?_⟩
  · intro f hlt hne
    rw [show (Scene.heap { w with heap := h' }).frames = w.heap.frames from hf] at hlt
    exact (h.linked f hlt hne).mono hg hlt hne
  · intro f p hp
    rw [show (Scene.heap { w with heap := h' }).frames = w.heap.frames from hf] at hp
    exact (h.value f p hp).mono hg
  · exact fun o p hp => (hfield o p hp).mono hg

theorem mem_fields_setField {h : Heap} {o o' : ObjectRef} {n : String} {v : Value} {p : String × Value}
    (hp : p ∈ (h.setField o n v).fields o') : p.2 = v ∨ p ∈ h.fields o' := by
  unfold Heap.setField Heap.fields at hp
  rw [Array.getElem?_modify] at hp
  split at hp
  · next he =>
    subst he
    cases hs : h.objects[o]? with
    | none =>
      rw [hs] at hp
      cases hp
    | some fields =>
      rw [hs] at hp
      simp only [Option.map_some, Option.getD_some] at hp
      rcases Assoc.mem_of_mem_set hp with rfl | hp
      · exact .inl rfl
      · right
        unfold Heap.fields
        rw [hs]
        exact hp
  · exact .inr hp

end Scene

end

end ScriptLang
