import ScriptLang.Proofs.Running.Guise

/-!
# Runs that stay alike

* `View` — for each frame the mask of the code that runs in it; `View.Grows` — old frames keep theirs;
* `Heap.Like`, `Machine.Like` — two heaps are alike under a view, two machines also have the same console;
* `Ending.Agree` — two computations that began on alike machines end alike: with related values, with the same fault up
  to the renaming, or both for want of fuel.

There is one lemma for each computation without recursion, and one for sequences.
-/

namespace ScriptLang

/-! ## views -/

/-- For each frame the mask of the code that runs in it. -/
structure View where
  size : Nat
  mask : FrameRef → Mask

/-- What holds from a view to a later one. -/
structure View.Grows (v v' : View) : Prop where
  size : v.size ≤ v'.size
  mask : ∀ e < v.size, v'.mask e = v.mask e

namespace View.Grows

variable {v v' v'' : View}

theorem refl (v : View) : v.Grows v := ⟨Nat.le_refl _, fun _ _ => rfl⟩

theorem trans (h : v.Grows v') (h' : v'.Grows v'') : v.Grows v'' where
  size := Nat.le_trans h.size h'.size
  mask e he := (h'.mask e (Nat.lt_of_lt_of_le he h.size)).trans (h.mask e he)

end View.Grows

/-- The view with one more frame. -/
def View.push (v : View) (Γ : Mask) : View where
  size := v.size + 1
  mask e := if e = v.size then Γ else v.mask e

theorem View.grows_push {v : View} {Γ : Mask} : v.Grows (v.push Γ) where
  size := Nat.le_succ _
  mask _ he := if_neg (Nat.ne_of_lt he)

theorem View.mask_push {v : View} {Γ : Mask} : (v.push Γ).mask v.size = Γ := if_pos rfl

/-! ## what is alike under a view -/

/-- Two functions are closed over the same frame and their code is alike under its mask; that of methods in one more
scope, the one of `this`. -/
structure Closure.LikeUnder (g : Guise) (v : View) (wrap : Mask → Mask) (c c' : Closure) : Prop where
  frame : c'.frame = c.frame
  initializer : c'.isInitializer = c.isInitializer
  lt : c.frame < v.size
  code : c.declaration.Like g (wrap (v.mask c.frame)) c'.declaration

/-- Two values are alike under a view. -/
def Value.Like (g : Guise) (v : View) : Value → Value → Prop :=
  Value.Alike (Closure.LikeUnder g v id) (Closure.LikeUnder g v (Mask.cons false))

/-- Two statements ended alike. -/
inductive Flow.Like (g : Guise) (v : View) : Flow → Flow → Prop
  | normal : Like g v .normal .normal
  | returned {a a'} : Value.Like g v a a' → Like g v (.returned a) (.returned a')
  | broken : Like g v .broken .broken
  | continued : Like g v .continued .continued

/-- A cause with the name in it renamed. -/
def RuntimeFault.renamed (rename : String → String) : RuntimeFault → RuntimeFault
  | .undefinedVariable name => .undefinedVariable (rename name)
  | cause => cause

/-- Two faults are the same up to the renaming. -/
inductive Fault.Like (g : Guise) : Fault → Fault → Prop
  | runtime {t t' cause} (b : Bool) : t.Like g b t' →
      Like g (.runtime ⟨t, cause⟩) (.runtime ⟨t', cause.renamed (g.name b)⟩)
  | output {cause} : Like g (.output cause) (.output cause)

/-- Two heaps are alike under a view. -/
structure Heap.Like (g : Guise) (v : View) (h h' : Heap) : Prop where
  root : Heap.globals < v.size
  size : h.frames.size = v.size
  enclosing : ∀ e, h'.frames.enclosing? e = h.frames.enclosing? e
  top : h.frames.enclosing? Heap.globals = none
  clear : v.mask Heap.globals 0 = false
  outward : ∀ e o, h.frames.enclosing? e = some o → o < v.size ∧ ∀ d, v.mask e (d + 1) = v.mask o d
  bindings : ∀ e, Assoc.Related (g.name (v.mask e 0)) (Value.Like g v) (h.frames.bindings e) (h'.frames.bindings e)
  fields : ∀ o, Assoc.Related id (Value.Like g v) (h.fields o) (h'.fields o)
  frames : h'.frames.size = h.frames.size
  objects : h'.objects.size = h.objects.size
  tag : h'.nextTag = h.nextTag

/-- Two machines are alike under a view. -/
structure Machine.Like (g : Guise) (v : View) (m m' : Machine) : Prop where
  heap : m.heap.Like g v m'.heap
  console : m'.console = m.console

variable {α β : Type} {g : Guise} {v v' : View} {m m' : Machine} {e : FrameRef}

section

variable {wrap : Mask → Mask} {c c' : Closure} {a a' : Value}

theorem Closure.LikeUnder.mono (h : c.LikeUnder g v wrap c') (hg : v.Grows v') : c.LikeUnder g v' wrap c' :=
  ⟨h.frame, h.initializer, Nat.lt_of_lt_of_le h.lt hg.size, by rw [hg.mask _ h.lt]; exact h.code⟩

theorem Closure.LikeUnder.name (h : c.LikeUnder g v wrap c') : c'.name = c.name := h.code.name.lexeme

theorem Closure.LikeUnder.arity (h : c.LikeUnder g v wrap c') : c'.arity = c.arity := by
  obtain ⟨d, f, i⟩ := c
  obtain ⟨d', f', i'⟩ := c'
  cases h.code with
  | mk b _ hparams _ => exact hparams.length_eq.symm

theorem Value.Like.mono (h : a.Like g v a') (hg : v.Grows v') : a.Like g v' a' :=
  Value.Alike.mono h (fun _ _ hc => hc.mono hg) fun _ _ hc => hc.mono hg

theorem Value.Like.display (h : a.Like g v a') : a'.display = a.display :=
  Value.Alike.display h fun _ _ hc => hc.name

theorem forall₂_like_mono {as as' : List Value} (h : List.Forall₂ (Value.Like g v) as as') (hg : v.Grows v') :
    List.Forall₂ (Value.Like g v') as as' :=
  h.imp fun _ _ ha => ha.mono hg

theorem Class.Alike.arity {c c' : Class} (h : c.Alike (Closure.LikeUnder g v wrap) c') : c'.arity = c.arity := by
  have hinit := h.method? FunctionDecl.initName
  unfold Class.arity
  revert hinit
  cases c.method? FunctionDecl.initName <;> cases c'.method? FunctionDecl.initName <;> intro hinit <;> cases hinit
  · rfl
  · next hm => exact hm.arity

end

/-! ## frames of alike heaps -/

namespace Heap.Like

variable {h h' : Heap} {name : String} {a a' : Value} {o : FrameRef}

theorem ancestor? (hh : h.Like g v h') (d : Nat) : h'.frames.ancestor? e d = h.frames.ancestor? e d := by
  induction d generalizing e with
  | zero => rfl
  | succ d ih =>
    unfold Frames.ancestor?
    rw [hh.enclosing]
    cases h.frames.enclosing? e with
    | none => rfl
    | some o => exact ih

/-- The mask at a distance is that of the frame there. -/
theorem mask_ancestor? (hh : h.Like g v h') {d : Nat} {f : FrameRef} (hf : h.frames.ancestor? e d = some f) :
    v.mask f 0 = v.mask e d := by
  induction d generalizing e with
  | zero =>
    obtain rfl := Option.some.inj hf
    rfl
  | succ d ih =>
    unfold Frames.ancestor? at hf
    obtain ⟨o, ho, hf⟩ := Option.bind_eq_some_iff.1 hf
    rw [ih hf, (hh.outward e o ho).2]

theorem get? (hh : h.Like g v h') (e : FrameRef) (name : String) :
    Option.Rel (Value.Like g v) (Assoc.get? (h.frames.bindings e) name)
      (Assoc.get? (h'.frames.bindings e) (g.name (v.mask e 0) name)) :=
  (hh.bindings e).get? (g.name_injective _) name

theorem findAt? (hh : h.Like g v h') (d : Nat) (name : String) :
    Option.Rel (Value.Like g v) (h.frames.findAt? e d name) (h'.frames.findAt? e d (g.name (v.mask e d) name)) := by
  unfold Frames.findAt?
  rw [hh.ancestor?]
  cases hf : h.frames.ancestor? e d with
  | none => exact .none
  | some f =>
    rw [← hh.mask_ancestor? hf]
    exact hh.get? f name

theorem isSome_get? (hh : h.Like g v h') (e : FrameRef) (name : String) :
    (Assoc.get? (h'.frames.bindings e) (g.name (v.mask e 0) name)).isSome =
      (Assoc.get? (h.frames.bindings e) name).isSome := by
  have hrel := hh.get? e name
  revert hrel
  cases Assoc.get? (h.frames.bindings e) name <;>
    cases Assoc.get? (h'.frames.bindings e) (g.name (v.mask e 0) name) <;> intro hrel <;> cases hrel <;> rfl

theorem ownerAt? (hh : h.Like g v h') (d : Nat) (name : String) :
    h'.frames.ownerAt? e d (g.name (v.mask e d) name) = h.frames.ownerAt? e d name := by
  unfold Frames.ownerAt?
  rw [hh.ancestor?]
  cases hf : h.frames.ancestor? e d with
  | none => rfl
  | some f =>
    simp only [Option.filter_some]
    rw [← hh.mask_ancestor? hf, hh.isSome_get?]

end Heap.Like

/-- Nothing is around the globals. -/
theorem Frames.owner?_of_top {fs : Frames Value} (hlt : e < fs.size) (ht : fs.enclosing? e = none) (name : String) :
    fs.owner? e name = if (Assoc.get? (fs.bindings e) name).isSome then some e else none := by
  unfold Frames.owner?
  obtain ⟨n, hn⟩ := Nat.exists_eq_succ_of_ne_zero (Nat.ne_of_gt (Nat.lt_of_le_of_lt (Nat.zero_le e) hlt))
  rw [hn]
  unfold Frames.owner
  rw [ht]
  rfl

namespace Heap.Like

variable {h h' : Heap} {name : String} {a a' : Value} {o : FrameRef}

theorem owner?_globals (hh : h.Like g v h') (name : String) :
    h'.frames.owner? Heap.globals name = h.frames.owner? Heap.globals name := by
  have hlt : Heap.globals < h.frames.size := hh.size ▸ hh.root
  have hsome := hh.isSome_get? Heap.globals name
  rw [hh.clear] at hsome
  rw [Frames.owner?_of_top hlt hh.top, Frames.owner?_of_top (hh.frames ▸ hlt) (hh.enclosing _ ▸ hh.top)]
  rw [show Assoc.get? (h'.frames.bindings Heap.globals) name =
    Assoc.get? (h'.frames.bindings Heap.globals) (g.name false name) from rfl, hsome]

theorem owner?_eq (hh : h.Like g v h') {f : FrameRef} (hf : h.frames.owner? Heap.globals name = some f) :
    f = Heap.globals := by
  rw [Frames.owner?_of_top (hh.size ▸ hh.root) hh.top] at hf
  split at hf
  · exact (Option.some.inj hf).symm
  · cases hf

theorem find?_globals (hh : h.Like g v h') (name : String) :
    Option.Rel (Value.Like g v) (h.frames.find? Heap.globals name) (h'.frames.find? Heap.globals name) := by
  unfold Frames.find?
  rw [hh.owner?_globals]
  cases hf : h.frames.owner? Heap.globals name with
  | none => exact .none
  | some f =>
    obtain rfl := hh.owner?_eq hf
    have hrel := hh.get? Heap.globals name
    rw [hh.clear] at hrel
    exact hrel

/-! ## what keeps heaps alike -/

theorem define (hh : h.Like g v h') (ha : a.Like g v a') :
    (h.define e name a).Like g v (h'.define e (g.name (v.mask e 0) name) a') := by
  refine { hh with
    size := by simp [Heap.define, hh.size]
    frames := by simp [Heap.define, hh.frames]
    enclosing := by simp [Heap.define, hh.enclosing]
    top := by simp [Heap.define, hh.top]
    outward := by simpa [Heap.define] using hh.outward
    bindings := fun f => ?_ }
  rcases Nat.lt_or_ge e h.frames.size with hlt | hge
  · unfold Heap.define
    rw [Frames.bindings_define _ hlt, Frames.bindings_define _ (hh.frames ▸ hlt)]
    split
    · next he =>
      subst he
      exact (hh.bindings e).set (g.name_injective _) name ha
    · exact hh.bindings f
  · -- a frame that does not exist binds nothing
    have hsame : ∀ {fs : Frames Value} {n : String} {u : Value}, fs.size ≤ e → fs.define e n u = fs := by
      intro fs n u hle
      unfold Frames.define
      refine Array.ext_getElem? fun i => ?_
      rw [Array.getElem?_modify]
      split
      · next hi =>
        subst hi
        rw [Array.getElem?_eq_none hle]
        rfl
      · rfl
    unfold Heap.define
    rw [hsame hge, hsame (hh.frames ▸ hge)]
    exact hh.bindings f

theorem mono_fields (hh : h.Like g v h') (hg : v.Grows v') (o : ObjectRef) :
    Assoc.Related id (Value.Like g v') (h.fields o) (h'.fields o) :=
  (hh.fields o).mono fun _ _ ha => ha.mono hg

theorem addFrame (hh : h.Like g v h') (ho : o < v.size) (b : Bool) {bs bs' : Assoc String Value}
    (hb : Assoc.Related (g.name b) (Value.Like g v) bs bs') :
    (h.addFrame o bs).Like g (v.push (.cons b (v.mask o))) (h'.addFrame o bs') := by
  have hg : v.Grows (v.push (.cons b (v.mask o))) := View.grows_push
  have hold : ∀ f < v.size, (v.push (.cons b (v.mask o))).mask f = v.mask f := hg.mask
  have hbindings := fun f => (hh.bindings f).mono fun _ _ ha => Value.Like.mono ha hg
  refine ⟨Nat.lt_of_lt_of_le hh.root hg.size, ?_, ?_, ?_, ?_, ?_, ?_, hh.mono_fields hg, ?_, hh.objects, hh.tag⟩
  · simp [Heap.addFrame, View.push, hh.size]
  · intro f
    simp only [Heap.addFrame, Frames.enclosing?_push, hh.frames, hh.enclosing]
  · simp only [Heap.addFrame, Frames.enclosing?_push, hh.size]
    rw [if_neg (Nat.ne_of_lt hh.root)]
    exact hh.top
  · rw [hold _ hh.root]
    exact hh.clear
  · intro f o' hf
    simp only [Heap.addFrame, Frames.enclosing?_push, hh.size] at hf
    split at hf
    · next he =>
      obtain rfl := Option.some.inj hf
      refine ⟨Nat.lt_of_lt_of_le ho hg.size, fun d => ?_⟩
      rw [he, View.mask_push, hold _ ho]
      rfl
    · next he =>
      obtain ⟨hlt, hd⟩ := hh.outward f o' hf
      refine ⟨Nat.lt_of_lt_of_le hlt hg.size, fun d => ?_⟩
      rw [hold _ hlt, ← hd d]
      simp [View.push, he]
  · intro f
    simp only [Heap.addFrame, Frames.bindings_push, hh.frames, hh.size]
    split
    · next he =>
      rw [he, View.mask_push]
      exact hb.mono fun _ _ ha => ha.mono hg
    · next he =>
      rw [show (v.push (.cons b (v.mask o))).mask f = v.mask f from if_neg he]
      exact hbindings f
  · simp [Heap.addFrame, hh.frames]

theorem addObject (hh : h.Like g v h') : h.addObject.Like g v h'.addObject := by
  refine { hh with fields := fun o => ?_, objects := by simp [Heap.addObject, hh.objects] }
  rw [World.fields_addObject, World.fields_addObject]
  exact hh.fields o

theorem setField (hh : h.Like g v h') (ha : a.Like g v a') {o : ObjectRef} :
    (h.setField o name a).Like g v (h'.setField o name a') := by
  refine { hh with fields := fun o' => ?_, objects := by simp [Heap.setField, hh.objects] }
  have hfields := hh.fields o'
  unfold Heap.setField Heap.fields at *
  simp only [Array.getElem?_modify] at *
  split
  · next he =>
    subst he
    rcases Nat.lt_or_ge o h.objects.size with hlt | hge
    · have hlt' : o < h'.objects.size := hh.objects ▸ hlt
      simp only [Array.getElem?_eq_getElem hlt, Array.getElem?_eq_getElem hlt', Option.getD_some,
        Option.map_some] at hfields ⊢
      exact hfields.set Function.injective_id name ha
    · simp only [Array.getElem?_eq_none hge, Array.getElem?_eq_none (hh.objects ▸ hge), Option.map_none]
      exact .nil
  · exact hfields

theorem nextTag (hh : h.Like g v h') :
    Heap.Like g v { h with nextTag := h.nextTag + 1 } { h' with nextTag := h'.nextTag + 1 } :=
  { hh with
    tag := by simp [hh.tag]
    fields := hh.fields }

end Heap.Like

end ScriptLang
