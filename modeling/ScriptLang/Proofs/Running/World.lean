import ScriptLang.Eval
import ScriptLang.Proofs.Scoping.Fits

/-!
# Worlds: frames that stand for regions

A heap does not say which names a frame may come to bind.  A `World` adds that, and with it the frames of a run can be
compared with the regions of the text.

* `World.Grows P` — from one world to a later one old frames keep their links and their bindings, and the new bindings
  in old frames are among those that `P` allows;
* `World.Mirrors skip ctx e` — from the frame `e` outwards the frames stand for the regions of `ctx`: each announces the
  same names and binds those that are ready, where `skip` is excused in the innermost one;
* `World.Stands` — in addition, the innermost frame binds nothing that is not ready;
* `World.Sound S` — all closures in a world were made where the frames mirrored the text around them.
-/

namespace ScriptLang

/-! ## frames -/

namespace Frames

variable {α : Type} (fs : Frames α) (b : Assoc String α) (o : Option FrameRef)

theorem bindings_push (e : FrameRef) : Frames.bindings (fs.push ⟨b, o⟩) e = if e = fs.size then b else fs.bindings e := by
  unfold bindings
  rw [Array.getElem?_push]
  split <;> rfl

theorem enclosing?_push (e : FrameRef) :
    Frames.enclosing? (fs.push ⟨b, o⟩) e = if e = fs.size then o else fs.enclosing? e := by
  unfold enclosing?
  rw [Array.getElem?_push]
  split <;> rfl

theorem bindings_of_size_le {fs : Frames α} {e : FrameRef} (h : fs.size ≤ e) : fs.bindings e = [] := by
  unfold bindings
  rw [Array.getElem?_eq_none h]
  rfl

theorem enclosing?_of_size_le {fs : Frames α} {e : FrameRef} (h : fs.size ≤ e) : fs.enclosing? e = none := by
  unfold enclosing?
  rw [Array.getElem?_eq_none h]
  rfl

/-- A frame that binds a name exists. -/
theorem lt_of_bound {fs : Frames α} {e : FrameRef} {name : String} (h : (Assoc.get? (fs.bindings e) name).isSome) :
    e < fs.size := by
  refine Nat.lt_of_not_le fun hle => ?_
  rw [bindings_of_size_le hle] at h
  cases h

end Frames

/-- A heap, and for each frame the names that may come to be bound in it. -/
structure World where
  heap : Heap
  names : FrameRef → List String

namespace World

/-- The value of a name in a frame. -/
def value? (w : World) (e : FrameRef) (name : String) : Option Value :=
  Assoc.get? (w.heap.frames.bindings e) name

/-- A frame binds a name. -/
def Binds (w : World) (e : FrameRef) (name : String) : Prop := (w.value? e name).isSome

theorem Binds.lt {w : World} {e : FrameRef} {name : String} (h : w.Binds e name) : e < w.heap.frames.size :=
  Frames.lt_of_bound h

/-! ## growing -/

/-- No binding at all. -/
def nowhere (_ : FrameRef) (_ : String) : Prop := False

/-- Some names in one frame. -/
def within (e : FrameRef) (names : List String) (f : FrameRef) (name : String) : Prop := f = e ∧ name ∈ names

/-- What holds from a world to a later one; `P` are the new bindings that old frames may have. -/
structure Grows (P : FrameRef → String → Prop) (w w' : World) : Prop where
  size : w.heap.frames.size ≤ w'.heap.frames.size
  enclosing : ∀ e < w.heap.frames.size, w'.heap.frames.enclosing? e = w.heap.frames.enclosing? e
  names : ∀ e < w.heap.frames.size, w'.names e = w.names e
  binds : ∀ e name, w.Binds e name → w'.Binds e name
  fresh : ∀ e name, e < w.heap.frames.size → w'.Binds e name → w.Binds e name ∨ P e name

namespace Grows

variable {P P' : FrameRef → String → Prop} {w w' w'' : World}

theorem refl (w : World) : w.Grows P w :=
  ⟨Nat.le_refl _, fun _ _ => rfl, fun _ _ => rfl, fun _ _ h => h, fun _ _ _ h => .inl h⟩

/-- Of the second part only the bindings in frames from before the first part count. -/
theorem trans (h : w.Grows P w') (h' : w'.Grows P' w'')
    (hp : ∀ e name, e < w.heap.frames.size → P' e name → P e name) : w.Grows P w'' where
  size := Nat.le_trans h.size h'.size
  enclosing e he := (h'.enclosing e (Nat.lt_of_lt_of_le he h.size)).trans (h.enclosing e he)
  names e he := (h'.names e (Nat.lt_of_lt_of_le he h.size)).trans (h.names e he)
  binds e name hb := h'.binds e name (h.binds e name hb)
  fresh e name he hb := by
    rcases h'.fresh e name (Nat.lt_of_lt_of_le he h.size) hb with hb' | hp'
    · exact h.fresh e name he hb'
    · exact .inr (hp e name he hp')

theorem weaken (h : w.Grows P w') (hp : ∀ e name, P e name → P' e name) : w.Grows P' w' :=
  { h with fresh := fun e name he hb => (h.fresh e name he hb).imp_right (hp e name) }

end Grows

/-! ## mirrors -/

/-- A frame stands for a region. -/
structure Shows (w : World) (skip : Option String) (r : Region) (e : FrameRef) : Prop where
  lt : e < w.heap.frames.size
  names : w.names e = r.names
  ready : ∀ name, Assoc.get? r.known name = some true → skip = some name ∨ w.Binds e name

/-- From a frame outwards the frames stand for regions, and behind the last region come the globals. -/
def Mirrors (w : World) : Option String → Context → FrameRef → Prop
  | _, [], e => e = Heap.globals
  | skip, r :: outer, e =>
    w.Shows skip r e ∧ ∃ o, w.heap.frames.enclosing? e = some o ∧ Mirrors w none outer o

/-- The innermost frame binds only what is ready. -/
def Exact (w : World) : Context → FrameRef → Prop
  | [], _ => True
  | r :: _, e => ∀ name, w.Binds e name → Assoc.get? r.known name = some true

/-- Where evaluation stands when it comes to a node with a context. -/
structure Stands (w : World) (skip : Option String) (ctx : Context) (e : FrameRef) : Prop where
  mirrors : w.Mirrors skip ctx e
  exact : w.Exact ctx e

section

variable {P : FrameRef → String → Prop} {w w' : World} {skip : Option String} {ctx : Context} {e : FrameRef}

theorem Shows.mono {r : Region} (h : w.Shows skip r e) (hg : w.Grows P w') : w'.Shows skip r e where
  lt := Nat.lt_of_lt_of_le h.lt hg.size
  names := (hg.names e h.lt).trans h.names
  ready name hn := (h.ready name hn).imp_right (hg.binds e name)

/-- A mirror of the text stays one. -/
theorem Mirrors.mono (h : w.Mirrors skip ctx e) (hg : w.Grows P w') : w'.Mirrors skip ctx e := by
  induction ctx generalizing skip e with
  | nil => exact h
  | cons r outer ih =>
    obtain ⟨hs, o, ho, hm⟩ := h
    exact ⟨hs.mono hg, o, (hg.enclosing e hs.lt).trans ho, ih hm⟩

/-- Where nothing new is bound in old frames, evaluation stands as before. -/
theorem Stands.mono (h : w.Stands skip ctx e) (hg : w.Grows nowhere w') : w'.Stands skip ctx e := by
  refine ⟨h.mirrors.mono hg, ?_⟩
  cases ctx with
  | nil => trivial
  | cons r outer =>
    intro name hb
    rcases hg.fresh e name h.mirrors.1.lt hb with hb | hp
    · exact h.exact name hb
    · exact hp.elim

/-- While the initializer of a variable runs. -/
theorem Stands.put_pending (h : w.Stands none ctx e) {name : String} (ha : ctx.Admits name) :
    w.Stands none (ctx.put false name) e := by
  cases ctx with
  | nil => exact h
  | cons r outer =>
    obtain ⟨⟨hs, o, ho, hm⟩, hx⟩ := h
    refine ⟨⟨⟨hs.lt, hs.names, fun n hn => ?_⟩, o, ho, hm⟩, fun n hb => ?_⟩
    · rw [Assoc.get?_set] at hn
      split at hn
      · cases hn
      · exact hs.ready n hn
    · have hn := hx n hb
      have hne : name ≠ n := by
        rintro rfl
        rw [ha.2.1] at hn
        cases hn
      rw [Assoc.get?_set_of_ne _ hne]
      exact hn

/-- While the superclass of a class is evaluated. -/
theorem Stands.put_heading (h : w.Stands none ctx e) (name : String) :
    w.Stands (some name) (ctx.put true name) e := by
  cases ctx with
  | nil => exact ⟨h.mirrors, trivial⟩
  | cons r outer =>
    obtain ⟨⟨hs, o, ho, hm⟩, hx⟩ := h
    refine ⟨⟨⟨hs.lt, hs.names, fun n hn => ?_⟩, o, ho, hm⟩, fun n hb => ?_⟩
    · rw [Assoc.get?_set] at hn
      split at hn
      · next he => exact .inl (congrArg some he)
      · exact .inr ((hs.ready n hn).resolve_left (by simp))
    · rw [Assoc.get?_set]
      split
      · rfl
      · exact hx n hb

/-- A name that is bound may become ready. -/
theorem Mirrors.put_ready (h : w.Mirrors none ctx e) {name : String} (hb : w.Binds e name) :
    w.Mirrors none (ctx.put true name) e := by
  cases ctx with
  | nil => exact h
  | cons r outer =>
    obtain ⟨hs, o, ho, hm⟩ := h
    refine ⟨⟨hs.lt, hs.names, fun n hn => ?_⟩, o, ho, hm⟩
    rw [Assoc.get?_set] at hn
    split at hn
    · next he => exact .inr (he ▸ hb)
    · exact hs.ready n hn

theorem Mirrors.declareAll (h : w.Mirrors none ctx e) {names : List Token}
    (hb : ∀ t ∈ names, w.Binds e t.lexeme) : w.Mirrors none (ctx.declareAll names) e := by
  unfold Context.declareAll
  induction names generalizing ctx with
  | nil => exact h
  | cons t names ih =>
    rw [List.forall_mem_cons] at hb
    exact ih (h.put_ready hb.1) hb.2

end

end World

/-- The top level keeps no names. -/
theorem Context.declareAll_nil (names : List Token) : Context.declareAll [] names = [] := by
  unfold declareAll
  induction names with
  | nil => rfl
  | cons t names ih => exact ih

/-- The innermost region after declaring names. -/
theorem Context.declareAll_cons (r : Region) (outer : Context) (names : List Token) :
    Context.declareAll (r :: outer) names =
      { r with known := Assoc.setAll r.known (names.map fun t => (t.lexeme, true)) } :: outer := by
  unfold declareAll
  induction names generalizing r with
  | nil => rfl
  | cons t names ih =>
    rw [List.foldl_cons, put, ih, List.map_cons, Assoc.setAll_cons]

/-- Declaring makes names ready and keeps those that are. -/
theorem Assoc.get?_setAll_ready {known : Scope} {names : List Token} {n : String} :
    Assoc.get? (Assoc.setAll known (names.map fun t => (t.lexeme, true))) n = some true ↔
      n ∈ names.map Token.lexeme ∨ Assoc.get? known n = some true := by
  induction names generalizing known with
  | nil => simp
  | cons t names ih =>
    rw [List.map_cons, setAll_cons, ih, get?_set, List.map_cons, List.mem_cons]
    by_cases he : t.lexeme = n
    · simp [he]
    · have hn : ¬ n = t.lexeme := fun h => he h.symm
      simp [he, hn]

namespace World

variable {w w' : World} {ctx : Context} {e : FrameRef}

/-- Behind a statement that bound all it declares. -/
theorem Stands.declareAll (h : w.Stands none ctx e) {names : List Token}
    (hg : w.Grows (within e (names.map Token.lexeme)) w') (hb : ∀ t ∈ names, w'.Binds e t.lexeme) :
    w'.Stands none (ctx.declareAll names) e := by
  refine ⟨(h.mirrors.mono hg).declareAll hb, ?_⟩
  cases ctx with
  | nil =>
    rw [Context.declareAll_nil]
    trivial
  | cons r outer =>
    rw [Context.declareAll_cons]
    intro n hn
    refine Assoc.get?_setAll_ready.2 ?_
    rcases hg.fresh e n h.mirrors.1.lt hn with hn | hp
    · exact .inr (h.exact n hn)
    · exact .inl hp.2

end World

/-! ## sound values -/

section

variable (S : Site → Prop) (w : World)

/-- A function was made where the frames mirrored the text around it. -/
def Closure.Sound (c : Closure) : Prop := ∃ ctx, c.declaration.Fits S ctx ∧ w.Mirrors none ctx c.frame

/-- The same of a method, which is given a frame for `this` before it is called. -/
def Closure.SoundMethod (c : Closure) : Prop :=
  ∃ ctx, c.declaration.Fits S (Region.only "this" :: ctx) ∧ w.Mirrors none ctx c.frame

/-- All methods of a class are sound, also those it inherits. -/
def Class.Sound (c : Class) : Prop := ∀ name m, c.method? name = some m → m.SoundMethod S w

/-- All closures that a value gives access to are sound. -/
def Value.Sound : Value → Prop
  | .function _ c => c.Sound S w
  | .klass c => c.Sound S w
  | .object _ c => c.Sound S w
  | _ => True

/-- The value that a statement ended with is sound. -/
def Flow.Sound : Flow → Prop
  | .returned v => v.Sound S w
  | _ => True

end

namespace World

/-- What holds of the world at every point of a run. -/
structure Sound (S : Site → Prop) (w : World) : Prop where
  /-- There are globals. -/
  root : Heap.globals < w.heap.frames.size
  /-- Nothing is around the globals. -/
  top : w.heap.frames.enclosing? Heap.globals = none
  /-- Other frames bind only names they announce. -/
  announced : ∀ e name, e ≠ Heap.globals → w.Binds e name → name ∈ w.names e
  value : ∀ e name v, w.value? e name = some v → v.Sound S w
  field : ∀ o name v, Assoc.get? (w.heap.fields o) name = some v → v.Sound S w
  /-- Outside of the globals `this` is an object. -/
  this : ∀ e v, e ≠ Heap.globals → w.value? e "this" = some v → ∃ o c, v = .object o c

end World

section

variable {S S' : Site → Prop} {P : FrameRef → String → Prop} {w w' : World}

theorem Closure.Sound.mono {c : Closure} (h : c.Sound S w) (hg : w.Grows P w') : c.Sound S w' := by
  obtain ⟨ctx, hf, hm⟩ := h
  exact ⟨ctx, hf, hm.mono hg⟩

theorem Class.Sound.mono {c : Class} (h : c.Sound S w) (hg : w.Grows P w') : c.Sound S w' := by
  intro name m hm
  obtain ⟨ctx, hf, hc⟩ := h name m hm
  exact ⟨ctx, hf, hc.mono hg⟩

theorem Value.Sound.mono {v : Value} (h : v.Sound S w) (hg : w.Grows P w') : v.Sound S w' := by
  cases v with
  | function tag c => exact Closure.Sound.mono h hg
  | klass c => exact Class.Sound.mono h hg
  | object o c => exact Class.Sound.mono h hg
  | _ => trivial

/-- More sites do no harm. -/
theorem Value.Sound.more {v : Value} (h : v.Sound S w) (hS : ∀ site, S site → S' site) : v.Sound S' w := by
  have hclass : ∀ c : Class, c.Sound S w → c.Sound S' w := by
    intro c hc name m hm
    obtain ⟨ctx, hf, hmirrors⟩ := hc name m hm
    exact ⟨ctx, hf.mono hS, hmirrors⟩
  cases v with
  | function tag c =>
    obtain ⟨ctx, hf, hm⟩ := h
    exact ⟨ctx, hf.mono hS, hm⟩
  | klass c => exact hclass c h
  | object o c => exact hclass c h
  | _ => trivial

theorem World.Sound.more (h : w.Sound S) (hS : ∀ site, S site → S' site) : w.Sound S' :=
  { h with
    value := fun e name v hv => (h.value e name v hv).more hS
    field := fun o name v hv => (h.field o name v hv).more hS }

end

/-! ## what changes a world -/

namespace World

variable {S : Site → Prop} {w : World} {e : FrameRef} {name : String} {v : Value}

/-- Binds a name in a frame. -/
def define (w : World) (e : FrameRef) (name : String) (v : Value) : World :=
  { w with heap := w.heap.define e name v }

theorem value?_define (he : e < w.heap.frames.size) (f : FrameRef) (n : String) :
    (w.define e name v).value? f n = if e = f ∧ name = n then some v else w.value? f n := by
  unfold value? define Heap.define
  rw [Frames.bindings_define _ he]
  by_cases hf : e = f
  · subst hf
    by_cases hn : name = n <;> simp [Assoc.get?_set, hn]
  · simp [hf]

theorem binds_define (he : e < w.heap.frames.size) : (w.define e name v).Binds e name := by
  unfold Binds
  rw [value?_define he]
  simp

theorem grows_define (he : e < w.heap.frames.size) : w.Grows (within e [name]) (w.define e name v) where
  size := by simp [define, Heap.define]
  enclosing f _ := by simp [define, Heap.define]
  names _ _ := rfl
  binds f n hb := by
    unfold Binds at hb ⊢
    rw [value?_define he]
    split
    · rfl
    · exact hb
  fresh f n _ hb := by
    unfold Binds at hb ⊢
    rw [value?_define he] at hb
    split at hb
    · next h => exact .inr ⟨h.1.symm, List.mem_singleton.2 h.2.symm⟩
    · exact .inl hb

/-- A name that is bound already is no new binding. -/
theorem grows_define_of_binds (hb : w.Binds e name) : w.Grows nowhere (w.define e name v) := by
  have hg : w.Grows (within e [name]) (w.define e name v) := grows_define hb.lt
  refine { hg with fresh := fun f n hf hn => ?_ }
  rcases hg.fresh f n hf hn with h | ⟨rfl, hmem⟩
  · exact .inl h
  · exact .inl (List.mem_singleton.1 hmem ▸ hb)

/-- A function may be closed over the frame it is bound in, so its soundness counts after that. -/
theorem Sound.define (h : w.Sound S) (he : e < w.heap.frames.size) (hv : v.Sound S (w.define e name v))
    (hn : e ≠ Heap.globals → name ∈ w.names e ∧ name ≠ "this") : (w.define e name v).Sound S := by
  have hg : w.Grows (within e [name]) (w.define e name v) := grows_define he
  refine ⟨Nat.lt_of_lt_of_le h.root hg.size, (hg.enclosing _ h.root).trans h.top, ?_, ?_, ?_, ?_⟩
  · intro f n hf hb
    have hlt : f < w.heap.frames.size := by simpa [World.define, Heap.define] using hb.lt
    rcases hg.fresh f n hlt hb with hb' | ⟨rfl, hmem⟩
    · exact h.announced f n hf hb'
    · exact List.mem_singleton.1 hmem ▸ (hn hf).1
  · intro f n u hu
    rw [value?_define he] at hu
    split at hu
    · exact Option.some.inj hu ▸ hv
    · exact (h.value f n u hu).mono hg
  · exact fun o n u hu => (h.field o n u hu).mono hg
  · intro f u hf hu
    rw [value?_define he] at hu
    split at hu
    · next heq => exact absurd heq.2 (hn (heq.1 ▸ hf)).2
    · exact h.this f u hf hu

/-- Adds a frame that announces names. -/
def push (w : World) (enclosing : FrameRef) (bindings : Assoc String Value) (names : List String) : World where
  heap := w.heap.addFrame enclosing bindings
  names f := if f = w.heap.frames.size then names else w.names f

section

variable {o : FrameRef} {b : Assoc String Value} {names : List String}

theorem value?_push (f : FrameRef) (n : String) :
    (w.push o b names).value? f n = if f = w.heap.frames.size then Assoc.get? b n else w.value? f n := by
  unfold value? push Heap.addFrame
  rw [Frames.bindings_push]
  split <;> rfl

theorem grows_push : w.Grows nowhere (w.push o b names) where
  size := by simp [push, Heap.addFrame]
  enclosing f hf := by
    show Frames.enclosing? (w.heap.frames.push _) f = _
    rw [Frames.enclosing?_push, if_neg (Nat.ne_of_lt hf)]
  names f hf := if_neg (Nat.ne_of_lt hf)
  binds f n hb := by
    have hf := hb.lt
    unfold Binds at hb ⊢
    rwa [value?_push, if_neg (Nat.ne_of_lt hf)]
  fresh f n hf hb := by
    unfold Binds at hb ⊢
    rw [value?_push, if_neg (Nat.ne_of_lt hf)] at hb
    exact .inl hb

theorem Sound.push (h : w.Sound S) (hb : ∀ n v, Assoc.get? b n = some v →
    v.Sound S w ∧ n ∈ names ∧ (n = "this" → ∃ o c, v = .object o c)) : (w.push o b names).Sound S := by
  have hg : w.Grows nowhere (w.push o b names) := grows_push
  refine ⟨Nat.lt_of_lt_of_le h.root hg.size, (hg.enclosing _ h.root).trans h.top, ?_, ?_, ?_, ?_⟩
  · intro f n hf hn
    obtain ⟨v, hv⟩ := Option.isSome_iff_exists.1 hn
    rw [value?_push] at hv
    show n ∈ if f = w.heap.frames.size then names else w.names f
    split at hv
    · next he => exact if_pos he ▸ (hb n v hv).2.1
    · next he => exact if_neg he ▸ h.announced f n hf (Option.isSome_iff_exists.2 ⟨v, hv⟩)
  · intro f n v hv
    rw [value?_push] at hv
    split at hv
    · exact (hb n v hv).1.mono hg
    · exact (h.value f n v hv).mono hg
  · exact fun o n v hv => (h.field o n v hv).mono hg
  · intro f v hf hv
    rw [value?_push] at hv
    split at hv
    · exact (hb "this" v hv).2.2 rfl
    · exact h.this f v hf hv

/-- A new frame stands for a region of its own. -/
theorem Mirrors.push {ctx : Context} {known : Scope} (h : w.Mirrors none ctx o)
    (hk : ∀ n, Assoc.get? known n = some true → (Assoc.get? b n).isSome) :
    (w.push o b names).Mirrors none (⟨known, names⟩ :: ctx) w.heap.frames.size := by
  refine ⟨⟨?_, if_pos rfl, fun n hn => .inr ?_⟩, o, ?_, h.mono grows_push⟩
  · simp [World.push, Heap.addFrame]
  · unfold Binds
    rw [value?_push, if_pos rfl]
    exact hk n hn
  · show Frames.enclosing? (w.heap.frames.push _) w.heap.frames.size = _
    rw [Frames.enclosing?_push, if_pos rfl]

theorem Stands.push {ctx : Context} {known : Scope} (h : w.Mirrors none ctx o)
    (hk : ∀ n, Assoc.get? known n = some true ↔ (Assoc.get? b n).isSome) :
    (w.push o b names).Stands none (⟨known, names⟩ :: ctx) w.heap.frames.size := by
  refine ⟨h.push fun n => (hk n).1, fun n hn => (hk n).2 ?_⟩
  unfold Binds at hn
  rwa [value?_push, if_pos rfl] at hn

end

/-! ## changes that leave the frames alone -/

theorem grows_of_frames (h' : Heap) (hf : h'.frames = w.heap.frames) {P : FrameRef → String → Prop} :
    w.Grows P { w with heap := h' } := by
  obtain ⟨heap, names⟩ := w
  obtain ⟨frames, objects, tag⟩ := h'
  obtain rfl : frames = heap.frames := hf
  exact ⟨Nat.le_refl _, fun _ _ => rfl, fun _ _ => rfl, fun _ _ h => h, fun _ _ _ h => .inl h⟩

theorem Sound.of_frames (h : w.Sound S) (h' : Heap) (hf : h'.frames = w.heap.frames)
    (hfield : ∀ o n v, Assoc.get? (h'.fields o) n = some v → v.Sound S w) : Sound S { w with heap := h' } := by
  have hg := grows_of_frames (P := nowhere) h' hf
  have hvalue : ∀ f n, value? { w with heap := h' } f n = w.value? f n := by
    intro f n
    unfold value?
    rw [hf]
  refine ⟨Nat.lt_of_lt_of_le h.root hg.size, (hg.enclosing _ h.root).trans h.top, ?_, ?_, ?_, ?_⟩
  · intro f n hn hb
    unfold Binds at hb
    rw [hvalue] at hb
    exact h.announced f n hn hb
  · intro f n v hv
    rw [hvalue] at hv
    exact (h.value f n v hv).mono hg
  · exact fun o n v hv => (hfield o n v hv).mono hg
  · intro f v hn hv
    rw [hvalue] at hv
    exact h.this f v hn hv

theorem fields_addObject (h : Heap) (o : ObjectRef) : h.addObject.fields o = h.fields o := by
  unfold Heap.addObject Heap.fields
  rw [Array.getElem?_push]
  split
  · next he =>
    subst he
    simp
  · rfl

theorem get?_fields_setField {h : Heap} {o o' : ObjectRef} {n n' : String} {v u : Value}
    (hu : Assoc.get? ((h.setField o n v).fields o') n' = some u) :
    u = v ∨ Assoc.get? (h.fields o') n' = some u := by
  unfold Heap.setField Heap.fields at hu
  rw [Array.getElem?_modify] at hu
  split at hu
  · next he =>
    subst he
    cases hs : h.objects[o]? with
    | none =>
      rw [hs] at hu
      cases hu
    | some fields =>
      rw [hs] at hu
      simp only [Option.map_some, Option.getD_some, Assoc.get?_set] at hu
      split at hu
      · exact .inl (Option.some.inj hu).symm
      · right
        unfold Heap.fields
        rw [hs]
        exact hu
  · exact .inr hu

end World

end ScriptLang
