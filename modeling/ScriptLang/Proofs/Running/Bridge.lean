import ScriptLang.Proofs.Running.Likeness
import ScriptLang.Proofs.Scoping.Shifted

/-!
# Heaps of which one has more frames

The second of two heaps may have frames that the first has not; these bind nothing that is ever looked up.

* `Bridge` — which frames of two heaps belong together, and what becomes of distances;
* `Value.Matched` — two values differ in nothing but the functions and methods that can be reached through them;
* `Value.Bridged`, `Heap.Bridged`, `Machine.Bridged` — functions in values are closed over frames that belong together
  and their code is shifted accordingly; frames that belong together bind the same names, and from each frame of the
  second heap the chain outwards meets the images of the chain in the first.
-/

namespace ScriptLang

/-! ## matched maps -/

/-- Two maps have the same keys, and related values for them. -/
def Assoc.Matched {α : Type} (R : α → α → Prop) (m m' : Assoc String α) : Prop :=
  ∀ k, Option.Rel R (Assoc.get? m k) (Assoc.get? m' k)

namespace Assoc.Matched

variable {α : Type} {R S : α → α → Prop} {m m' : Assoc String α}

theorem nil : Matched R [] [] := fun _ => .none

theorem mono (h : Matched R m m') (hR : ∀ a a', R a a' → S a a') : Matched S m m' := by
  intro k
  have hrel := h k
  revert hrel
  cases Assoc.get? m k <;> cases Assoc.get? m' k <;> intro hrel <;> cases hrel
  · exact .none
  · exact .some (hR _ _ ‹_›)

theorem set (h : Matched R m m') (k : String) {a a' : α} (ha : R a a') : Matched R (Assoc.set m k a) (Assoc.set m' k a') := by
  intro x
  rw [Assoc.get?_set, Assoc.get?_set]
  split
  · exact .some ha
  · exact h x

theorem setAll (h : Matched R m m') {pairs pairs' : List (String × α)}
    (hp : List.Forall₂ (fun p p' => p'.1 = p.1 ∧ R p.2 p'.2) pairs pairs') :
    Matched R (Assoc.setAll m pairs) (Assoc.setAll m' pairs') := by
  induction hp generalizing m m' with
  | nil => exact h
  | @cons p p' _ _ hp _ ih =>
    rw [Assoc.setAll_cons, Assoc.setAll_cons, hp.1]
    exact ih (h.set p.1 hp.2)

theorem isSome_eq (h : Matched R m m') (k : String) : (Assoc.get? m' k).isSome = (Assoc.get? m k).isSome := by
  have hrel := h k
  revert hrel
  cases Assoc.get? m k <;> cases Assoc.get? m' k <;> intro hrel <;> cases hrel <;> rfl

end Assoc.Matched

/-! ## matched values -/

/-- Two classes have one tag, one name, and related methods where a method can be looked up. -/
structure Class.Matched (M : Closure → Closure → Prop) (c c' : Class) : Prop where
  tag : c'.tag = c.tag
  name : c'.name = c.name
  method : ∀ name, Option.Rel M (c.method? name) (c'.method? name)

/-- Two values are matched if the functions in them, and the methods, are related. -/
inductive Value.Matched (F M : Closure → Closure → Prop) : Value → Value → Prop
  | number {x} : Matched F M (.number x) (.number x)
  | string {s} : Matched F M (.string s) (.string s)
  | bool {b} : Matched F M (.bool b) (.bool b)
  | nil : Matched F M .nil .nil
  | function {t c c'} : F c c' → Matched F M (.function t c) (.function t c')
  | builtin {t b} : Matched F M (.builtin t b) (.builtin t b)
  | klass {c c'} : c.Matched M c' → Matched F M (.klass c) (.klass c')
  | object {o c c'} : c.Matched M c' → Matched F M (.object o c) (.object o c')

section

variable {F F' M M' : Closure → Closure → Prop} {c c' : Class} {a a' u u' : Value}

theorem Class.Matched.mono (h : c.Matched M c') (hM : ∀ m m', M m m' → M' m m') : c.Matched M' c' := by
  refine ⟨h.tag, h.name, fun name => ?_⟩
  have hmethod := h.method name
  revert hmethod
  cases c.method? name <;> cases c'.method? name <;> intro hmethod <;> cases hmethod
  · exact .none
  · exact .some (hM _ _ ‹_›)

/-- A class without a superclass has the methods of its table. -/
theorem Class.Matched.base {t : Tag} {n : String} {ms ms' : Assoc String Closure} (h : Assoc.Matched M ms ms') :
    Class.Matched M (.mk t n none ms) (.mk t n none ms') := ⟨rfl, rfl, h⟩

/-- A class with a superclass has its own methods and those of the superclass that they do not hide. -/
theorem Class.Matched.derived {t : Tag} {n : String} {ms ms' : Assoc String Closure} (hc : c.Matched M c')
    (h : Assoc.Matched M ms ms') : Class.Matched M (.mk t n (some c) ms) (.mk t n (some c') ms') := by
  refine ⟨rfl, rfl, fun name => ?_⟩
  have hown := h name
  unfold Class.method?
  revert hown
  cases Assoc.get? ms name <;> cases Assoc.get? ms' name <;> intro hown <;> cases hown
  · exact hc.method name
  · exact .some ‹_›

namespace Value.Matched

theorem mono (h : a.Matched F M a') (hF : ∀ c c', F c c' → F' c c') (hM : ∀ m m', M m m' → M' m m') :
    a.Matched F' M' a' := by
  cases h with
  | number => exact .number
  | string => exact .string
  | bool => exact .bool
  | nil => exact .nil
  | function hc => exact .function (hF _ _ hc)
  | builtin => exact .builtin
  | klass hc => exact .klass (hc.mono hM)
  | object hc => exact .object (hc.mono hM)

theorem truthy (h : a.Matched F M a') : a'.truthy = a.truthy := by cases h <;> rfl

theorem typeName (h : a.Matched F M a') : a'.typeName = a.typeName := by cases h <;> rfl

theorem display (h : a.Matched F M a') (hF : ∀ c c', F c c' → c'.name = c.name) : a'.display = a.display := by
  cases h with
  | function hc => simp [Value.display, hF _ _ hc]
  | klass hc => exact hc.name
  | object hc => simp [Value.display, hc.name]
  | _ => rfl

theorem equals (h : a.Matched F M a') (hu : u.Matched F M u') : a'.equals u' = a.equals u := by
  cases h <;> cases hu <;> first | rfl | skip
  case klass.klass hc _ _ hd => simp only [Value.equals, hc.tag, hd.tag]

/-- Operators look at nothing in which matched values differ. -/
theorem applyUnary (h : a.Matched F M a') (k : Kind) : applyUnary k a' = applyUnary k a := by
  unfold ScriptLang.applyUnary
  rw [h.truthy]
  cases h <;> rfl

theorem applyBinary (h : a.Matched F M a') (hu : u.Matched F M u') (k : Kind) :
    applyBinary k a' u' = applyBinary k a u := by
  unfold ScriptLang.applyBinary
  rw [h.equals hu]
  cases h <;> cases hu <;> rfl

end Value.Matched

theorem Value.Plain.matched (h : a.Plain) : a.Matched F M a := by
  cases a with
  | number x => exact .number
  | string s => exact .string
  | bool b => exact .bool
  | nil => exact .nil
  | builtin t b => exact .builtin
  | function t c => exact h.elim
  | klass c => exact h.elim
  | object o c => exact h.elim

end

/-! ## bridges -/

/-- Between the frames of two heaps of which the second may have more. -/
structure Bridge where
  size : Nat
  size' : Nat
  /-- The frame of the second heap that a frame of the first has become. -/
  image : FrameRef → FrameRef
  /-- The frame of the first heap in which the code runs that runs in a frame of the second. -/
  origin : FrameRef → FrameRef
  /-- What becomes of distances from there. -/
  shift : FrameRef → Shift
  image_lt : ∀ e < size, image e < size'
  origin_lt : ∀ e < size', origin e < size
  origin_image : ∀ e < size, origin (image e) = e
  root : Heap.globals < size
  image_root : image Heap.globals = Heap.globals

namespace Bridge

variable {β β' β'' : Bridge}

/-- What holds from a bridge to a later one. -/
structure Grows (β β' : Bridge) : Prop where
  size : β.size ≤ β'.size
  size' : β.size' ≤ β'.size'
  image : ∀ e < β.size, β'.image e = β.image e
  origin : ∀ e < β.size', β'.origin e = β.origin e
  shift : ∀ e < β.size', β'.shift e = β.shift e

namespace Grows

theorem refl (β : Bridge) : β.Grows β := ⟨Nat.le_refl _, Nat.le_refl _, fun _ _ => rfl, fun _ _ => rfl, fun _ _ => rfl⟩

theorem trans (h : β.Grows β') (h' : β'.Grows β'') : β.Grows β'' where
  size := Nat.le_trans h.size h'.size
  size' := Nat.le_trans h.size' h'.size'
  image e he := (h'.image e (Nat.lt_of_lt_of_le he h.size)).trans (h.image e he)
  origin e he := (h'.origin e (Nat.lt_of_lt_of_le he h.size')).trans (h.origin e he)
  shift e he := (h'.shift e (Nat.lt_of_lt_of_le he h.size')).trans (h.shift e he)

end Grows

/-- The bridge with one more frame on both sides. -/
def push (β : Bridge) (δ : Shift) : Bridge where
  size := β.size + 1
  size' := β.size' + 1
  image e := if e = β.size then β.size' else β.image e
  origin e := if e = β.size' then β.size else β.origin e
  shift e := if e = β.size' then δ else β.shift e
  image_lt e he := by
    split
    · exact Nat.lt_succ_self _
    · next hne => exact Nat.lt_succ_of_lt (β.image_lt e (Nat.lt_of_le_of_ne (Nat.le_of_lt_succ he) hne))
  origin_lt e he := by
    split
    · exact Nat.lt_succ_self _
    · next hne => exact Nat.lt_succ_of_lt (β.origin_lt e (Nat.lt_of_le_of_ne (Nat.le_of_lt_succ he) hne))
  origin_image e he := by
    by_cases hne : e = β.size
    · rw [if_pos hne, if_pos rfl, hne]
    · have hlt : e < β.size := Nat.lt_of_le_of_ne (Nat.le_of_lt_succ he) hne
      rw [if_neg hne, if_neg (Nat.ne_of_lt (β.image_lt e hlt)), β.origin_image e hlt]
  root := Nat.lt_succ_of_lt β.root
  image_root := (if_neg (Nat.ne_of_lt β.root)).trans β.image_root

/-- The bridge with one more frame around code that ran in `o`, on the second side only. -/
def insert (β : Bridge) (o : FrameRef) (ho : o < β.size') : Bridge where
  size := β.size
  size' := β.size' + 1
  image := β.image
  origin e := if e = β.size' then β.origin o else β.origin e
  shift e := if e = β.size' then (β.shift o).skip else β.shift e
  image_lt e he := Nat.lt_succ_of_lt (β.image_lt e he)
  origin_lt e he := by
    split
    · exact β.origin_lt o ho
    · next hne => exact β.origin_lt e (Nat.lt_of_le_of_ne (Nat.le_of_lt_succ he) hne)
  origin_image e he := by rw [if_neg (Nat.ne_of_lt (β.image_lt e he)), β.origin_image e he]
  root := β.root
  image_root := β.image_root

section

variable {δ : Shift} {e o : FrameRef} {ho : o < β.size'}

theorem image_injective (he : e < β.size) (ho : o < β.size) (h : β.image e = β.image o) : e = o := by
  rw [← β.origin_image e he, h, β.origin_image o ho]

theorem grows_push : β.Grows (β.push δ) :=
  ⟨Nat.le_succ _, Nat.le_succ _, fun _ he => if_neg (Nat.ne_of_lt he), fun _ he => if_neg (Nat.ne_of_lt he),
    fun _ he => if_neg (Nat.ne_of_lt he)⟩

theorem grows_insert : β.Grows (β.insert o ho) :=
  ⟨Nat.le_refl _, Nat.le_succ _, fun _ _ => rfl, fun _ he => if_neg (Nat.ne_of_lt he),
    fun _ he => if_neg (Nat.ne_of_lt he)⟩

@[simp] theorem image_push : (β.push δ).image β.size = β.size' := if_pos rfl

@[simp] theorem origin_push : (β.push δ).origin β.size' = β.size := if_pos rfl

@[simp] theorem shift_push : (β.push δ).shift β.size' = δ := if_pos rfl

@[simp] theorem origin_insert : (β.insert o ho).origin β.size' = β.origin o := if_pos rfl

@[simp] theorem shift_insert : (β.insert o ho).shift β.size' = (β.shift o).skip := if_pos rfl

end

end Bridge

/-- Code that runs in a frame of the first heap runs in one of the second, and its distances are shifted.  With
`level` the second frame is what has become of the first. -/
structure Bridge.Ties (β : Bridge) (level : Bool) (δ : Shift) (o e : FrameRef) : Prop where
  lt : e < β.size'
  origin : β.origin e = o
  shift : β.shift e = δ
  own : level = true → β.image o = e

namespace Bridge.Ties

variable {β β' : Bridge} {level : Bool} {δ : Shift} {o e : FrameRef}

theorem lt_size (h : β.Ties level δ o e) : o < β.size := h.origin ▸ β.origin_lt e h.lt

theorem mono (h : β.Ties level δ o e) (hg : β.Grows β') : β'.Ties level δ o e where
  lt := Nat.lt_of_lt_of_le h.lt hg.size'
  origin := (hg.origin e h.lt).trans h.origin
  shift := (hg.shift e h.lt).trans h.shift
  own hl := (hg.image o h.lt_size).trans (h.own hl)

/-- A frame that has become another runs the same code there. -/
theorem image (he : e < β.size) : β.Ties true (β.shift (β.image e)) e (β.image e) :=
  ⟨β.image_lt e he, β.origin_image e he, rfl, fun _ => rfl⟩

theorem push (β : Bridge) (δ : Shift) : (β.push δ).Ties true δ β.size β.size' :=
  ⟨Nat.lt_succ_self _, origin_push, shift_push, fun _ => image_push⟩

theorem insert (h : β.Ties level δ o e) : (β.insert e h.lt).Ties false δ.skip o β.size' :=
  ⟨Nat.lt_succ_self _, origin_insert.trans h.origin, shift_insert.trans (congrArg Shift.skip h.shift), by simp⟩

end Bridge.Ties

/-! ## chains of frames -/

/-- Nothing is around the globals, and around other frames are frames. -/
structure Frames.Rooted (fs : Frames Value) : Prop where
  root : Heap.globals < fs.size
  top : fs.enclosing? Heap.globals = none
  linked : ∀ e o, fs.enclosing? e = some o → o < fs.size

namespace Frames.Rooted

variable {fs : Frames Value} {e o : FrameRef}

theorem push (h : fs.Rooted) (ho : o < fs.size) (bs : Assoc String Value) : Frames.Rooted (fs.push ⟨bs, some o⟩) := by
  refine ⟨?_, ?_, fun e f hf => ?_⟩
  · rw [Array.size_push]
    exact Nat.lt_succ_of_lt h.root
  · rw [Frames.enclosing?_push, if_neg (Nat.ne_of_lt h.root)]
    exact h.top
  · rw [Array.size_push]
    rw [Frames.enclosing?_push] at hf
    split at hf
    · exact Option.some.inj hf ▸ Nat.lt_succ_of_lt ho
    · exact Nat.lt_succ_of_lt (h.linked e f hf)

theorem define (h : fs.Rooted) (o : FrameRef) (name : String) (a : Value) : Frames.Rooted (fs.define o name a) :=
  ⟨by simpa using h.root, by simpa using h.top, by simpa using h.linked⟩

theorem ancestor_lt (h : fs.Rooted) {d : Nat} {f : FrameRef} (he : e < fs.size) (hf : fs.ancestor? e d = some f) :
    f < fs.size := by
  induction d generalizing e with
  | zero => exact Option.some.inj hf ▸ he
  | succ d ih =>
    unfold Frames.ancestor? at hf
    obtain ⟨o, ho, hf⟩ := Option.bind_eq_some_iff.1 hf
    exact ih (h.linked e o ho) hf

/-- A new frame does not change the chain outwards from old ones. -/
theorem ancestor?_push (h : fs.Rooted) (he : e < fs.size) (bs : Assoc String Value) (o : Option FrameRef) (d : Nat) :
    Frames.ancestor? (fs.push ⟨bs, o⟩) e d = fs.ancestor? e d := by
  induction d generalizing e with
  | zero => rfl
  | succ d ih =>
    unfold Frames.ancestor?
    rw [Frames.enclosing?_push, if_neg (Nat.ne_of_lt he)]
    cases ho : fs.enclosing? e with
    | none => rfl
    | some o' => exact ih (h.linked e o' ho)

/-- From a new frame the chain goes on from the one around it. -/
theorem ancestor?_push_size (h : fs.Rooted) (ho : o < fs.size) (bs : Assoc String Value) (d : Nat) :
    Frames.ancestor? (fs.push ⟨bs, some o⟩) fs.size (d + 1) = fs.ancestor? o d := by
  show (Frames.enclosing? (fs.push ⟨bs, some o⟩) fs.size).bind _ = _
  rw [Frames.enclosing?_push, if_pos rfl]
  exact h.ancestor?_push ho bs (some o) d

end Frames.Rooted

theorem Frames.ancestor?_define (fs : Frames Value) (o : FrameRef) (name : String) (a : Value) (e : FrameRef) (d : Nat) :
    (fs.define o name a).ancestor? e d = fs.ancestor? e d := by
  induction d generalizing e with
  | zero => rfl
  | succ d ih =>
    unfold Frames.ancestor?
    rw [Frames.enclosing?_define]
    cases fs.enclosing? e with
    | none => rfl
    | some o' => exact ih o'

/-! ## what a bridge joins -/

/-- Two functions are closed over frames that belong together, and their code is shifted as the bridge says there; that
of methods in one more scope, the one of `this`. -/
structure Closure.BridgedUnder (σ σ' : Setting) (β : Bridge) (wrap : Shift → Shift) (c c' : Closure) : Prop where
  lt : c.frame < β.size
  frame : c'.frame = β.image c.frame
  initializer : c'.isInitializer = c.isInitializer
  code : c.declaration.Shifted σ.distance? σ'.distance? (wrap (β.shift c'.frame)) c'.declaration

/-- Two values are joined by a bridge. -/
def Value.Bridged (σ σ' : Setting) (β : Bridge) : Value → Value → Prop :=
  Value.Matched (Closure.BridgedUnder σ σ' β id) (Closure.BridgedUnder σ σ' β Shift.cons)

/-- Two heaps are joined by a bridge. -/
structure Heap.Bridged (σ σ' : Setting) (β : Bridge) (h h' : Heap) : Prop where
  size : h.frames.size = β.size
  size' : h'.frames.size = β.size'
  rooted : h.frames.Rooted
  rooted' : h'.frames.Rooted
  chain : ∀ e < β.size', ∀ d,
    h'.frames.ancestor? e (β.shift e d) = (h.frames.ancestor? (β.origin e) d).map β.image
  bindings : ∀ e < β.size,
    Assoc.Matched (Value.Bridged σ σ' β) (h.frames.bindings e) (h'.frames.bindings (β.image e))
  fields : ∀ o, Assoc.Matched (Value.Bridged σ σ' β) (h.fields o) (h'.fields o)
  objects : h'.objects.size = h.objects.size
  tag : h'.nextTag = h.nextTag

/-- Two machines are joined by a bridge and have the same console. -/
structure Machine.Bridged (σ σ' : Setting) (β : Bridge) (m m' : Machine) : Prop where
  heap : m.heap.Bridged σ σ' β m'.heap
  console : m'.console = m.console

section

variable {σ σ' : Setting} {β β' : Bridge} {wrap : Shift → Shift} {c c' : Closure} {a a' : Value}

theorem Closure.BridgedUnder.mono (h : c.BridgedUnder σ σ' β wrap c') (hg : β.Grows β') :
    c.BridgedUnder σ σ' β' wrap c' := by
  refine ⟨Nat.lt_of_lt_of_le h.lt hg.size, h.frame.trans (hg.image _ h.lt).symm, h.initializer, ?_⟩
  rw [hg.shift _ (h.frame ▸ β.image_lt _ h.lt)]
  exact h.code

theorem Closure.BridgedUnder.name (h : c.BridgedUnder σ σ' β wrap c') : c'.name = c.name := by
  unfold Closure.name
  rw [h.code.name]

theorem Closure.BridgedUnder.arity (h : c.BridgedUnder σ σ' β wrap c') : c'.arity = c.arity := by
  unfold Closure.arity
  rw [h.code.params]

theorem Class.Matched.arity {c c' : Class} (h : c.Matched (Closure.BridgedUnder σ σ' β wrap) c') :
    c'.arity = c.arity := by
  have hinit := h.method FunctionDecl.initName
  unfold Class.arity
  revert hinit
  cases c.method? FunctionDecl.initName <;> cases c'.method? FunctionDecl.initName <;> intro hinit <;> cases hinit
  · rfl
  · next hm => exact hm.arity

theorem Value.Bridged.mono (h : a.Bridged σ σ' β a') (hg : β.Grows β') : a.Bridged σ σ' β' a' :=
  Value.Matched.mono h (fun _ _ hc => hc.mono hg) fun _ _ hc => hc.mono hg

theorem Value.Bridged.display (h : a.Bridged σ σ' β a') : a'.display = a.display :=
  Value.Matched.display h fun _ _ hc => hc.name

theorem forall₂_bridged_mono {as as' : List Value} (h : List.Forall₂ (Value.Bridged σ σ' β) as as')
    (hg : β.Grows β') : List.Forall₂ (Value.Bridged σ σ' β') as as' :=
  h.imp fun _ _ ha => ha.mono hg

end

/-! ## frames of bridged heaps -/

namespace Heap.Bridged

variable {σ σ' : Setting} {β : Bridge} {h h' : Heap} {e o : FrameRef} {a a' : Value}

theorem findAt? (hh : h.Bridged σ σ' β h') (he : e < β.size') (d : Nat) (name : String) :
    Option.Rel (Value.Bridged σ σ' β) (h.frames.findAt? (β.origin e) d name)
      (h'.frames.findAt? e (β.shift e d) name) := by
  unfold Frames.findAt?
  rw [hh.chain e he]
  cases hf : h.frames.ancestor? (β.origin e) d with
  | none => exact .none
  | some f => exact hh.bindings f (hh.size ▸ hh.rooted.ancestor_lt (hh.size ▸ β.origin_lt e he) hf) name

/-- An owner at a distance is a frame that both heaps have. -/
theorem ownerAt? (hh : h.Bridged σ σ' β h') (he : e < β.size') (d : Nat) (name : String) :
    h'.frames.ownerAt? e (β.shift e d) name = (h.frames.ownerAt? (β.origin e) d name).map β.image ∧
      ∀ o, h.frames.ownerAt? (β.origin e) d name = some o → o < β.size := by
  unfold Frames.ownerAt?
  rw [hh.chain e he]
  cases hf : h.frames.ancestor? (β.origin e) d with
  | none => exact ⟨rfl, fun o ho => by cases ho⟩
  | some f =>
    have hlt : f < β.size := hh.size ▸ hh.rooted.ancestor_lt (hh.size ▸ β.origin_lt e he) hf
    simp only [Option.map_some, Option.filter_some, (hh.bindings f hlt).isSome_eq]
    refine ⟨by split <;> rfl, fun o ho => ?_⟩
    split at ho
    · exact Option.some.inj ho ▸ hlt
    · cases ho

theorem owner?_globals (hh : h.Bridged σ σ' β h') (name : String) :
    h'.frames.owner? Heap.globals name = h.frames.owner? Heap.globals name ∧
      ∀ o, h.frames.owner? Heap.globals name = some o → o = Heap.globals := by
  have hbound := (hh.bindings Heap.globals β.root).isSome_eq name
  rw [β.image_root] at hbound
  rw [Frames.owner?_of_top hh.rooted.root hh.rooted.top, Frames.owner?_of_top hh.rooted'.root hh.rooted'.top, hbound]
  refine ⟨rfl, fun o ho => ?_⟩
  split at ho
  · exact (Option.some.inj ho).symm
  · cases ho

theorem find?_globals (hh : h.Bridged σ σ' β h') (name : String) :
    Option.Rel (Value.Bridged σ σ' β) (h.frames.find? Heap.globals name) (h'.frames.find? Heap.globals name) := by
  obtain ⟨howner, htop⟩ := hh.owner?_globals name
  unfold Frames.find?
  rw [howner]
  cases hf : h.frames.owner? Heap.globals name with
  | none => exact .none
  | some o =>
    obtain rfl := htop o hf
    have hbound := hh.bindings Heap.globals β.root name
    rwa [β.image_root] at hbound

/-! ## what keeps heaps bridged -/

theorem define (hh : h.Bridged σ σ' β h') (he : e < β.size) (name : String) (ha : a.Bridged σ σ' β a') :
    (h.define e name a).Bridged σ σ' β (h'.define (β.image e) name a') := by
  refine { hh with
    size := by simp [Heap.define, hh.size]
    size' := by simp [Heap.define, hh.size']
    rooted := hh.rooted.define e name a
    rooted' := hh.rooted'.define (β.image e) name a'
    chain := fun f hf d => ?_
    bindings := fun f hf => ?_ }
  · unfold Heap.define
    rw [Frames.ancestor?_define, Frames.ancestor?_define]
    exact hh.chain f hf d
  · unfold Heap.define
    rw [Frames.bindings_define _ (hh.size ▸ he), Frames.bindings_define _ (hh.size' ▸ β.image_lt e he)]
    by_cases heq : e = f
    · subst heq
      rw [if_pos rfl, if_pos rfl]
      exact (hh.bindings e he).set name ha
    · rw [if_neg heq, if_neg fun hi => heq (β.image_injective he hf hi)]
      exact hh.bindings f hf

/-- A new frame on both sides. -/
theorem addFrame (hh : h.Bridged σ σ' β h') (ho : o < β.size') {bs bs' : Assoc String Value}
    (hb : Assoc.Matched (Value.Bridged σ σ' β) bs bs') :
    (h.addFrame (β.origin o) bs).Bridged σ σ' (β.push (β.shift o).cons) (h'.addFrame o bs') := by
  have hg : β.Grows (β.push (β.shift o).cons) := Bridge.grows_push
  have hold : β.origin o < h.frames.size := hh.size ▸ β.origin_lt o ho
  have hold' : o < h'.frames.size := hh.size' ▸ ho
  -- the images of old frames stay
  have himage : ∀ {e : FrameRef} {d : Nat}, e < h.frames.size →
      (h.frames.ancestor? e d).map β.image = (h.frames.ancestor? e d).map (β.push (β.shift o).cons).image := by
    intro e d he
    refine Option.map_congr fun f hf => (hg.image f ?_).symm
    exact hh.size ▸ hh.rooted.ancestor_lt he hf
  refine ⟨?_, ?_, hh.rooted.push hold bs, hh.rooted'.push hold' bs', ?_, ?_, ?_, hh.objects, hh.tag⟩
  · simp [Heap.addFrame, Bridge.push, hh.size]
  · simp [Heap.addFrame, Bridge.push, hh.size']
  · intro e he d
    simp only [Heap.addFrame]
    rcases Nat.lt_succ_iff_lt_or_eq.1 he with he | rfl
    · have heo : β.origin e < h.frames.size := hh.size ▸ β.origin_lt e he
      rw [hg.shift e he, hg.origin e he, hh.rooted'.ancestor?_push (hh.size' ▸ he), hh.rooted.ancestor?_push heo]
      rw [hh.chain e he, himage heo]
    · rw [Bridge.shift_push, Bridge.origin_push, ← hh.size, ← hh.size']
      cases d with
      | zero =>
        show some h'.frames.size = some ((β.push (β.shift o).cons).image h.frames.size)
        rw [hh.size, hh.size', Bridge.image_push]
      | succ d =>
        rw [hh.rooted.ancestor?_push_size hold, ← himage hold, ← hh.chain o ho]
        exact hh.rooted'.ancestor?_push_size hold' bs' _
  · intro e he
    simp only [Heap.addFrame, Frames.bindings_push, hh.size, hh.size']
    rcases Nat.lt_succ_iff_lt_or_eq.1 he with he | rfl
    · rw [hg.image e he, if_neg (Nat.ne_of_lt he), if_neg (Nat.ne_of_lt (β.image_lt e he))]
      exact (hh.bindings e he).mono fun _ _ ha => ha.mono hg
    · rw [Bridge.image_push, if_pos rfl, if_pos rfl]
      exact hb.mono fun _ _ ha => ha.mono hg
  · exact fun i => (hh.fields i).mono fun _ _ ha => ha.mono hg

/-- A new frame on the second side only. -/
theorem insertFrame (hh : h.Bridged σ σ' β h') (ho : o < β.size') :
    h.Bridged σ σ' (β.insert o ho) (h'.addFrame o []) := by
  have hg : β.Grows (β.insert o ho) := Bridge.grows_insert
  have hold' : o < h'.frames.size := hh.size' ▸ ho
  refine ⟨hh.size, ?_, hh.rooted, hh.rooted'.push hold' [], ?_, ?_, ?_, hh.objects, hh.tag⟩
  · simp [Heap.addFrame, Bridge.insert, hh.size']
  · intro e he d
    simp only [Heap.addFrame]
    rcases Nat.lt_succ_iff_lt_or_eq.1 he with he | rfl
    · rw [hg.shift e he, hg.origin e he, hh.rooted'.ancestor?_push (hh.size' ▸ he), hh.chain e he]
      rfl
    · rw [Bridge.shift_insert, Bridge.origin_insert, ← hh.size']
      exact (hh.rooted'.ancestor?_push_size hold' [] _).trans (hh.chain o ho d)
  · intro e he
    have hne : β.image e ≠ β.size' := Nat.ne_of_lt (β.image_lt e he)
    simp only [Heap.addFrame, Frames.bindings_push, hh.size', hg.image e he, if_neg hne]
    exact (hh.bindings e he).mono fun _ _ ha => ha.mono hg
  · exact fun i => (hh.fields i).mono fun _ _ ha => ha.mono hg

theorem addObject (hh : h.Bridged σ σ' β h') : h.addObject.Bridged σ σ' β h'.addObject := by
  refine { hh with fields := fun o => ?_, objects := by simp [Heap.addObject, hh.objects] }
  rw [World.fields_addObject, World.fields_addObject]
  exact hh.fields o

theorem setField (hh : h.Bridged σ σ' β h') (o : ObjectRef) (name : String) (ha : a.Bridged σ σ' β a') :
    (h.setField o name a).Bridged σ σ' β (h'.setField o name a') := by
  refine { hh with fields := fun o' => ?_, objects := by simp [Heap.setField, hh.objects] }
  have hfields := hh.fields o'
  unfold Heap.setField Heap.fields at *
  simp only [Array.getElem?_modify] at *
  split
  · next he =>
    subst he
    rcases Nat.lt_or_ge o h.objects.size with hlt | hge
    · have hlt' : o < h'.objects.size := hh.objects ▸ hlt
      simp only [Array.getElem?_eq_getElem hlt, Array.getElem?_eq_getElem hlt', Option.getD_some,
        Option.map_some] at hfields ⊢
      exact hfields.set name ha
    · simp only [Array.getElem?_eq_none hge, Array.getElem?_eq_none (hh.objects ▸ hge), Option.map_none]
      exact .nil
  · exact hfields

theorem nextTag (hh : h.Bridged σ σ' β h') :
    Heap.Bridged σ σ' β { h with nextTag := h.nextTag + 1 } { h' with nextTag := h'.nextTag + 1 } :=
  { hh with
    tag := by simp [hh.tag]
    fields := hh.fields }

end Heap.Bridged

end ScriptLang
