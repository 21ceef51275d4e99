import ScriptLang.Proofs.Running.Keeps

/-!
# What can be reached, and what a computation touches

The memory of a run consists of cells: scope frames and the fields of objects.  A value gives access to cells, a cell
leads to others, and from some roots all cells are reached that a chain of such links leads to.

* `Heap.Footprint` — from one heap to a later one, only cells inside were written: those that were reached from the
  roots before or were made in between.  Nothing leads out of the inside;
* `Exec.Touches` — a computation that has a footprint and whose value gives access to cells inside only.

Footprints can be put one behind the other (`Footprint.trans`).
-/

namespace ScriptLang

/-- A place that is written while a program runs. -/
inductive Cell
  | frame (f : FrameRef)
  | object (o : ObjectRef)
deriving DecidableEq

/-- The cells a class gives access to: the frames of its methods and of those of its superclasses. -/
inductive Class.Gives : Class → Cell → Prop
  | own {t : Tag} {className name : String} {s : Option Class} {methods : Assoc String Closure} {m : Closure}
      (h : Assoc.get? methods name = some m) : Gives (.mk t className s methods) (.frame m.frame)
  | inherited {t : Tag} {className : String} {parent : Class} {methods : Assoc String Closure} {c : Cell}
      (h : Gives parent c) : Gives (.mk t className (some parent) methods) c

/-- The cells a value gives access to. -/
def Value.Gives (v : Value) (c : Cell) : Prop :=
  match v with
  | .function _ closure => c = .frame closure.frame
  | .klass k => k.Gives c
  | .object o k => c = .object o ∨ k.Gives c
  | _ => False

/-- The cells that the value of a return gives access to. -/
def Flow.Gives (flow : Flow) (c : Cell) : Prop :=
  match flow with
  | .returned v => v.Gives c
  | _ => False

theorem Class.gives_of_method? {name : String} {m : Closure} :
    ∀ {k : Class}, k.method? name = some m → k.Gives (.frame m.frame)
  | .mk _ _ none _, h => .own h
  | .mk _ _ (some parent) methods, h => by
    simp only [Class.method?] at h
    split at h
    · next hown =>
      obtain rfl := Option.some.inj h
      exact .own hown
    · exact .inherited (gives_of_method? h)

theorem Value.Plain.not_gives {v : Value} (h : v.Plain) {c : Cell} : ¬ v.Gives c := by
  intro hc
  cases v with
  | function tag closure => exact h
  | klass k => exact h
  | object o k => exact h
  | _ => exact hc

theorem Value.not_gives_nil {c : Cell} : ¬ Value.nil.Gives c := id

theorem not_gives_ofLiteral {l : Literal} {c : Cell} : ¬ (Value.ofLiteral l).Gives c := by
  cases l <;> exact id

theorem Flow.gives_of_result {flow : Flow} {c : Cell} (h : flow.result.Gives c) : flow.Gives c := by
  cases flow with
  | returned v => exact h
  | _ => exact h.elim

/-! ## links -/

namespace Heap

/-- A cell of the heap. -/
def Has (h : Heap) : Cell → Prop
  | .frame f => f < h.frames.size
  | .object o => o < h.objects.size

/-- One cell leads to another: a frame to the one around it and to what its names are bound to, an object to what its
fields hold. -/
inductive Links (h : Heap) : Cell → Cell → Prop
  | enclosing {f g : FrameRef} (hf : h.frames.enclosing? f = some g) : Links h (.frame f) (.frame g)
  | bound {f : FrameRef} {name : String} {v : Value} {c : Cell} (hf : Assoc.get? (h.frames.bindings f) name = some v)
      (hc : v.Gives c) : Links h (.frame f) c
  | field {o : ObjectRef} {name : String} {v : Value} {c : Cell} (ho : Assoc.get? (h.fields o) name = some v)
      (hc : v.Gives c) : Links h (.object o) c

/-- A chain of links leads from one of the roots to a cell. -/
inductive Reaches (h : Heap) (roots : Cell → Prop) : Cell → Prop
  | root {c : Cell} (hc : roots c) : Reaches h roots c
  | link {c d : Cell} (hc : Reaches h roots c) (hd : h.Links c d) : Reaches h roots d

/-- A cell that was made on the way to a later heap. -/
def Made (h h' : Heap) (c : Cell) : Prop := ¬ h.Has c ∧ h'.Has c

/-- A cell that was reached before or made since. -/
def Inside (h h' : Heap) (roots : Cell → Prop) (c : Cell) : Prop := h.Reaches roots c ∨ h.Made h' c

/-- A later heap of a run that wrote cells inside only, and put nothing into them that leads out. -/
structure Footprint (roots : Cell → Prop) (h h' : Heap) : Prop where
  grows : ∀ c, h.Has c → h'.Has c
  frame : ∀ f, ¬ h.Inside h' roots (.frame f) → h'.frames[f]? = h.frames[f]?
  object : ∀ o, ¬ h.Inside h' roots (.object o) → h'.objects[o]? = h.objects[o]?
  closed : ∀ c d, h.Inside h' roots c → h'.Links c d → h.Inside h' roots d

variable {h h' h'' : Heap} {roots roots' : Cell → Prop}

/-- What holds of the roots and is handed on along links holds of all that is reached. -/
theorem Reaches.within {P : Cell → Prop} {c : Cell} (hc : h.Reaches roots c) (hr : ∀ d, roots d → P d)
    (hl : ∀ c d, P c → h.Links c d → P d) : P c := by
  induction hc with
  | root hd => exact hr _ hd
  | link _ hd ih => exact hl _ _ ih hd

/-- The links of a cell that was not written are those it had. -/
theorem Links.back {c d : Cell} (hl : h'.Links c d) (hf : ∀ f, c = .frame f → h'.frames[f]? = h.frames[f]?)
    (ho : ∀ o, c = .object o → h'.objects[o]? = h.objects[o]?) : h.Links c d := by
  cases hl with
  | enclosing hg =>
    unfold Frames.enclosing? at hg
    rw [hf _ rfl] at hg
    exact .enclosing hg
  | bound hb hc =>
    unfold Frames.bindings at hb
    rw [hf _ rfl] at hb
    exact .bound hb hc
  | field hv hc =>
    unfold fields at hv
    rw [ho _ rfl] at hv
    exact .field hv hc

/-- Only a cell of the heap leads somewhere. -/
theorem Links.has {c d : Cell} (hl : h.Links c d) : h.Has c := by
  refine Classical.byContradiction fun hc => ?_
  cases hl with
  | enclosing hf =>
    rw [Frames.enclosing?_of_size_le (Nat.le_of_not_lt hc)] at hf
    cases hf
  | bound hf _ =>
    rw [Frames.bindings_of_size_le (Nat.le_of_not_lt hc)] at hf
    cases hf
  | field ho _ =>
    unfold fields at ho
    rw [Array.getElem?_eq_none (Nat.le_of_not_lt hc)] at ho
    cases ho

namespace Footprint

theorem links_back (hp : Footprint roots h h') {c d : Cell} (hc : ¬ h.Inside h' roots c) (hl : h'.Links c d) :
    h.Links c d := by
  refine hl.back (fun f hf => ?_) fun o ho => ?_
  · subst hf
    exact hp.frame f hc
  · subst ho
    exact hp.object o hc

/-- Nothing outside is reached from the inside. -/
theorem inside_of_reaches (hp : Footprint roots h h') {c : Cell} (hr : ∀ d, roots' d → h.Inside h' roots d)
    (hc : h'.Reaches roots' c) : h.Inside h' roots c :=
  hc.within hr hp.closed

theorem refl (roots : Cell → Prop) (h : Heap) : Footprint roots h h where
  grows _ hc := hc
  frame _ _ := rfl
  object _ _ := rfl
  closed c d hc hl := by
    rcases hc with hc | hc
    · exact .inl (.link hc hl)
    · exact absurd hc.2 hc.1

theorem made_left (hp : Footprint roots' h' h'') {c : Cell} (hc : h.Made h' c) : h.Made h'' c :=
  ⟨hc.1, hp.grows c hc.2⟩

theorem made_right (hp : Footprint roots h h') {c : Cell} (hc : h'.Made h'' c) : h.Made h'' c :=
  ⟨fun hold => hc.1 (hp.grows c hold), hc.2⟩

section

variable (hp : Footprint roots h h') (hq : Footprint roots' h' h'') (hr : ∀ d, roots' d → h.Inside h' roots d)

include hq in
/-- What is inside of the first part is inside of the whole. -/
theorem inside_left {c : Cell} (hc : h.Inside h' roots c) : h.Inside h'' roots c := hc.imp_right hq.made_left

include hp hq hr in
/-- So is what is inside of the second part, if its roots are inside of the first. -/
theorem inside_right {c : Cell} (hc : h'.Inside h'' roots' c) : h.Inside h'' roots c := by
  rcases hc with hc | hc
  · exact hq.inside_left (hp.inside_of_reaches hr hc)
  · exact .inr (hp.made_right hc)

include hp hq hr in
/-- Two parts one after the other. -/
theorem trans : Footprint roots h h'' where
  grows c hc := hq.grows c (hp.grows c hc)
  frame f hf := by
    have hsecond := hq.frame f fun hin => hf (hp.inside_right hq hr hin)
    have hfirst := hp.frame f fun hin => hf (hq.inside_left hin)
    exact hsecond.trans hfirst
  object o ho := by
    have hsecond := hq.object o fun hin => ho (hp.inside_right hq hr hin)
    have hfirst := hp.object o fun hin => ho (hq.inside_left hin)
    exact hsecond.trans hfirst
  closed c d hc hl := by
    by_cases hin : h'.Inside h'' roots' c
    · exact hp.inside_right hq hr (hq.closed c d hin hl)
    · -- the second part did not write the cell, so the first part decides where it leads
      have hmid : h.Inside h' roots c := by
        rcases hc with hreach | hmade
        · exact .inl hreach
        · by_cases hold : h'.Has c
          · exact .inr ⟨hmade.1, hold⟩
          · exact absurd (.inr ⟨hold, hmade.2⟩) hin
      exact hq.inside_left (hp.closed c d hmid (hq.links_back hin hl))

end

end Footprint

/-! ## what changes a heap -/

variable {f g : FrameRef} {o : ObjectRef} {name : String} {v : Value} {b : Assoc String Value}

theorem links_addFrame {c d : Cell} (hl : (h.addFrame g b).Links c d) :
    (c = .frame h.frames.size ∧ (d = .frame g ∨ ∃ name v, Assoc.get? b name = some v ∧ v.Gives d)) ∨ h.Links c d := by
  unfold addFrame at hl
  cases hl with
  | enclosing hf =>
    rw [Frames.enclosing?_push] at hf
    split at hf
    · next he =>
      obtain rfl := Option.some.inj hf
      exact .inl ⟨congrArg Cell.frame he, .inl rfl⟩
    · exact .inr (.enclosing hf)
  | bound hf hc =>
    rw [Frames.bindings_push] at hf
    split at hf
    · next he => exact .inl ⟨congrArg Cell.frame he, .inr ⟨_, _, hf, hc⟩⟩
    · exact .inr (.bound hf hc)
  | field ho hc => exact .inr (.field ho hc)

theorem links_define {c d : Cell} (hl : (h.define f name v).Links c d) :
    (c = .frame f ∧ v.Gives d) ∨ h.Links c d := by
  unfold define at hl
  cases hl with
  | enclosing hf =>
    rw [Frames.enclosing?_define] at hf
    exact .inr (.enclosing hf)
  | @bound g n u _ hf hc =>
    by_cases hlt : f < h.frames.size
    · rw [Frames.bindings_define _ hlt] at hf
      split at hf
      · next he =>
        subst he
        rw [Assoc.get?_set] at hf
        split at hf
        · obtain rfl := Option.some.inj hf
          exact .inl ⟨rfl, hc⟩
        · exact .inr (.bound hf hc)
      · exact .inr (.bound hf hc)
    · -- there is no such frame, so nothing is written
      have hnone : h.frames[f]? = none := Array.getElem?_eq_none (Nat.le_of_not_lt hlt)
      have hsame : (h.frames.define f name v)[g]? = h.frames[g]? := by
        unfold Frames.define
        rw [Array.getElem?_modify]
        split
        · next he => rw [← he, hnone, Option.map_none]
        · rfl
      unfold Frames.bindings at hf
      rw [hsame] at hf
      exact .inr (.bound hf hc)
  | field ho hc => exact .inr (.field ho hc)

theorem links_addObject {c d : Cell} (hl : h.addObject.Links c d) : h.Links c d := by
  cases hl with
  | enclosing hf => exact .enclosing hf
  | bound hf hc => exact .bound hf hc
  | field ho hc =>
    rw [World.fields_addObject] at ho
    exact .field ho hc

theorem links_setField {c d : Cell} (hl : (h.setField o name v).Links c d) :
    (c = .object o ∧ v.Gives d) ∨ h.Links c d := by
  cases hl with
  | enclosing hf => exact .inr (.enclosing hf)
  | bound hf hc => exact .inr (.bound hf hc)
  | @field o' name' u d hu hc =>
    by_cases he : o = o'
    · subst he
      rcases World.get?_fields_setField hu with rfl | hu
      · exact .inl ⟨rfl, hc⟩
      · exact .inr (.field hu hc)
    · have hsame : (h.setField o name v).fields o' = h.fields o' := by
        unfold setField fields
        rw [Array.getElem?_modify, if_neg he]
      rw [hsame] at hu
      exact .inr (.field hu hc)

namespace Footprint

/-- One write to a cell that is reached. -/
theorem of_write {c : Cell} (hc : h.Reaches roots c) (hsize : ∀ d, h'.Has d ↔ h.Has d)
    (hf : ∀ f, c ≠ .frame f → h'.frames[f]? = h.frames[f]?) (ho : ∀ o, c ≠ .object o → h'.objects[o]? = h.objects[o]?)
    (hl : ∀ d e, h'.Links d e → (d = c ∧ h.Reaches roots e) ∨ h.Links d e) : Footprint roots h h' where
  grows d := (hsize d).2
  frame f hout := hf f fun he => hout (.inl (he ▸ hc))
  object o hout := ho o fun he => hout (.inl (he ▸ hc))
  closed d e hd hlink := by
    rcases hd with hd | hd
    · rcases hl d e hlink with ⟨-, he⟩ | hold
      · exact .inl he
      · exact .inl (.link hd hold)
    · exact absurd ((hsize d).1 hd.2) hd.1

theorem define (hf : h.Reaches roots (.frame f)) (hv : ∀ c, v.Gives c → h.Reaches roots c) :
    Footprint roots h (h.define f name v) := by
  refine .of_write hf (fun d => ?_) (fun g hg => ?_) (fun _ _ => rfl) fun d e hl => ?_
  · cases d with
    | frame g => simp [Has, Heap.define]
    | object o => exact .rfl
  · have hne : f ≠ g := fun he => hg (congrArg Cell.frame he)
    show (h.frames.modify f _)[g]? = _
    rw [Array.getElem?_modify, if_neg hne]
  · exact (links_define hl).imp_left (And.imp_right (hv e))

theorem setField (ho : h.Reaches roots (.object o)) (hv : ∀ c, v.Gives c → h.Reaches roots c) :
    Footprint roots h (h.setField o name v) := by
  refine .of_write ho (fun d => ?_) (fun _ _ => rfl) (fun p hp => ?_) fun d e hl => ?_
  · cases d with
    | frame g => exact .rfl
    | object p => simp [Has, Heap.setField]
  · have hne : o ≠ p := fun he => hp (congrArg Cell.object he)
    show (h.objects.modify o _)[p]? = _
    rw [Array.getElem?_modify, if_neg hne]
  · exact (links_setField hl).imp_left (And.imp_right (hv e))

theorem addFrame (hg : h.Reaches roots (.frame g))
    (hb : ∀ name v, Assoc.get? b name = some v → ∀ c, v.Gives c → h.Reaches roots c) :
    Footprint roots h (h.addFrame g b) where
  grows c hc := by
    cases c with
    | frame f =>
      have hlt : f < h.frames.size := hc
      show f < (h.frames.push ⟨b, some g⟩).size
      rw [Array.size_push]
      exact Nat.lt_succ_of_lt hlt
    | object o => exact hc
  frame f hout := by
    have hne : f ≠ h.frames.size := by
      rintro rfl
      exact hout (.inr ⟨Nat.lt_irrefl _, by simp [Has, Heap.addFrame]⟩)
    show (h.frames.push _)[f]? = _
    rw [Array.getElem?_push, if_neg hne]
  object _ _ := rfl
  closed c d hc hl := by
    rcases links_addFrame hl with ⟨-, rfl | ⟨name, v, hv, hd⟩⟩ | hold
    · exact .inl hg
    · exact .inl (hb name v hv d hd)
    · rcases hc with hc | hc
      · exact .inl (.link hc hold)
      · exact absurd hold.has hc.1

theorem addObject : Footprint roots h h.addObject where
  grows c hc := by
    cases c with
    | frame f => exact hc
    | object o =>
      have hlt : o < h.objects.size := hc
      show o < (h.objects.push []).size
      rw [Array.size_push]
      exact Nat.lt_succ_of_lt hlt
  frame _ _ := rfl
  object o hout := by
    have hne : o ≠ h.objects.size := by
      rintro rfl
      exact hout (.inr ⟨Nat.lt_irrefl _, by simp [Has, Heap.addObject]⟩)
    show (h.objects.push [])[o]? = _
    rw [Array.getElem?_push, if_neg hne]
  closed c d hc hl := by
    have hold := links_addObject hl
    rcases hc with hc | hc
    · exact .inl (.link hc hold)
    · exact absurd hold.has hc.1

/-- A heap with other tags. -/
theorem retag (t : Tag) : Footprint roots h { h with nextTag := t } where
  grows _ hc := hc
  frame _ _ := rfl
  object _ _ := rfl
  closed c d hc hl := by
    have hold : h.Links c d := hl.back (fun _ _ => rfl) fun _ _ => rfl
    rcases hc with hc | hc
    · exact .inl (.link hc hold)
    · exact absurd hc.2 hc.1

end Footprint

end Heap

end ScriptLang
