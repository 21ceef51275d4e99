import ScriptLang.Assoc

/-!
# Scope frames

Frames are the run-time scopes: each has bindings and, except for the outermost, a link to the frame that encloses it.
They live in one growing array and are named by their position, so several frames, closures and calls can share one.

* `Frames.owner?`, `Frames.find?`, `Frames.assign?` — access by search along the chain of enclosing frames;
* `Frames.ownerAt?`, `Frames.findAt?`, `Frames.assignAt?` — access at a known distance along that chain.
-/

namespace ScriptLang

/-- The position of a frame. -/
abbrev FrameRef : Type := Nat

/-- One scope: its bindings and the frame around it. -/
structure Frame (α : Type) where
  bindings : Assoc String α
  enclosing : Option FrameRef

/-- All frames made so far, oldest first. -/
abbrev Frames (α : Type) : Type := Array (Frame α)

namespace Frames

variable {α : Type}

/-- Adds an empty frame; its position is the size of the array before. -/
def extend (fs : Frames α) (enclosing : Option FrameRef) : Frames α := fs.push ⟨[], enclosing⟩

/-- The bindings of a frame. -/
def bindings (fs : Frames α) (e : FrameRef) : Assoc String α := (fs[e]?).elim [] Frame.bindings

/-- The frame around a frame. -/
def enclosing? (fs : Frames α) (e : FrameRef) : Option FrameRef := (fs[e]?).bind Frame.enclosing

/-- Binds a name in a frame, whether it was bound there or not. -/
def define (fs : Frames α) (e : FrameRef) (name : String) (a : α) : Frames α :=
  fs.modify e fun f => { f with bindings := Assoc.set f.bindings name a }

@[simp] theorem size_define (fs : Frames α) (e : FrameRef) (name : String) (a : α) :
    (fs.define e name a).size = fs.size := by
  simp [define]

/-- Links never change. -/
@[simp] theorem enclosing?_define (fs : Frames α) (e : FrameRef) (name : String) (a : α) (o : FrameRef) :
    (fs.define e name a).enclosing? o = fs.enclosing? o := by
  unfold enclosing? define
  rw [Array.getElem?_modify]
  split
  · cases fs[o]? <;> rfl
  · rfl

/-- A definition is seen in its own frame and in no other. -/
theorem bindings_define (fs : Frames α) {e : FrameRef} (h : e < fs.size) (name : String) (a : α) (o : FrameRef) :
    (fs.define e name a).bindings o =
      if e = o then Assoc.set (fs.bindings e) name a else fs.bindings o := by
  unfold bindings define
  rw [Array.getElem?_modify]
  split
  · next heq =>
    subst heq
    simp [Array.getElem?_eq_getElem h]
  · rfl

/-! ## access by search -/

/-- The first frame that binds a name on a chain of at most so many frames. -/
def owner (fs : Frames α) (name : String) : Nat → FrameRef → Option FrameRef
  | 0, _ => none
  | n + 1, e =>
    if (Assoc.get? (fs.bindings e) name).isSome then some e
    else (fs.enclosing? e).bind (owner fs name n)

/-- The first frame on a chain that binds a name.  No chain is longer than the array. -/
def owner? (fs : Frames α) (e : FrameRef) (name : String) : Option FrameRef := owner fs name fs.size e

/-- The value of a name, searched from a frame outwards. -/
def find? (fs : Frames α) (e : FrameRef) (name : String) : Option α :=
  (fs.owner? e name).bind fun o => Assoc.get? (fs.bindings o) name

/-- Writes a name where the search from a frame outwards finds it. -/
def assign? (fs : Frames α) (e : FrameRef) (name : String) (a : α) : Option (Frames α) :=
  (fs.owner? e name).map fun o => fs.define o name a

/-! ## access at a distance -/

/-- The frame so many links outwards. -/
def ancestor? (fs : Frames α) (e : FrameRef) : Nat → Option FrameRef
  | 0 => some e
  | n + 1 => (fs.enclosing? e).bind fun o => ancestor? fs o n

/-- The frame so many links outwards, if it binds a name. -/
def ownerAt? (fs : Frames α) (e : FrameRef) (distance : Nat) (name : String) : Option FrameRef :=
  (fs.ancestor? e distance).filter fun o => (Assoc.get? (fs.bindings o) name).isSome

/-- The value of a name in the frame so many links outwards. -/
def findAt? (fs : Frames α) (e : FrameRef) (distance : Nat) (name : String) : Option α :=
  (fs.ancestor? e distance).bind fun o => Assoc.get? (fs.bindings o) name

/-- Writes a name in the frame so many links outwards, if it is bound there. -/
def assignAt? (fs : Frames α) (e : FrameRef) (distance : Nat) (name : String) (a : α) : Option (Frames α) :=
  (fs.ownerAt? e distance name).map fun o => fs.define o name a

end Frames

end ScriptLang
