import ScriptLang.Proofs.Running.Confined
import ScriptLang.Proofs.Running.Preservation
import ScriptLang.Proofs.Running.Reach

/-!
# What a computation touches

`x.Touches roots gives` says of a computation: however it ends, the heap behind it has a footprint in what the roots
reach, and its value gives access to cells inside only.  There is one lemma for each computation without recursion, one
for sequences, and `touching` for the recursion, by induction on the depth.  Nothing is asked of the heap, of the
distances or of the text that is run.

`Exec.local_of_honest` is what follows for those who look at a run from outside.
-/

namespace ScriptLang

variable {α β : Type} {roots : Cell → Prop}

/-- The ending of a computation that started with a heap. -/
def Ending.Touches (roots : Cell → Prop) (gives : α → Cell → Prop) (start : Heap) : Ending α → Prop
  | .done a m => start.Footprint roots m.heap ∧ ∀ c, gives a c → start.Inside m.heap roots c
  | .failed _ m => start.Footprint roots m.heap
  | .outOfFuel => True

/-- A host function gives access to nothing that its arguments do not give access to. -/
def Host.Honest (f : Host) : Prop :=
  ∀ arguments v, f arguments = .ok v → ∀ c, v.Gives c → ∃ a ∈ arguments, a.Gives c

/-- A frame that is looked at from within a run: it is among the roots, as the globals are. -/
structure Cell.Rooted (roots : Cell → Prop) (e : FrameRef) : Prop where
  globals : roots (.frame Heap.globals)
  frame : roots (.frame e)

theorem Cell.Rooted.wide {e : FrameRef} (h : Cell.Rooted roots e) (more : Cell → Prop) :
    Cell.Rooted (fun c => roots c ∨ more c) e := ⟨.inl h.globals, .inl h.frame⟩

namespace Exec

/-- A computation touches only what the roots reach, and its value gives access to nothing else. -/
def Touches (roots : Cell → Prop) (gives : α → Cell → Prop) (x : Exec α) : Prop :=
  ∀ m, (x m).Touches roots gives m.heap

/-- No cells. -/
def nothing (_ : α) (_ : Cell) : Prop := False

variable {gives : α → Cell → Prop} {gives' : β → Cell → Prop} {e : FrameRef}

/-! ## sequences -/

/-- The second part may also look at what the value of the first gives access to. -/
theorem Touches.seq {x : Exec α} {f : α → Exec β} (hx : x.Touches roots gives)
    (hf : ∀ a, (f a).Touches (fun c => roots c ∨ gives a c) gives') : (x >>= f).Touches roots gives' := by
  intro m
  show (Exec.andThen x f m).Touches roots gives' m.heap
  unfold Exec.andThen
  have hfirst := hx m
  cases hxm : x m with
  | done a m₁ =>
    rw [hxm] at hfirst
    obtain ⟨hp, ha⟩ := hfirst
    have hroots : ∀ d, roots d ∨ gives a d → m.heap.Inside m₁.heap roots d := by
      rintro d (hd | hd)
      · exact .inl (.root hd)
      · exact ha d hd
    have hsecond := hf a m₁
    show (f a m₁).Touches roots gives' m.heap
    cases hfm : f a m₁ with
    | done b m₂ =>
      rw [hfm] at hsecond
      obtain ⟨hq, hb⟩ := hsecond
      exact ⟨hp.trans hq hroots, fun c hc => hp.inside_right hq hroots (hb c hc)⟩
    | failed fault m₂ =>
      rw [hfm] at hsecond
      exact hp.trans hsecond hroots
    | outOfFuel => trivial
  | failed fault m₁ =>
    rw [hxm] at hfirst
    exact hfirst
  | outOfFuel => trivial

/-! ## endings -/

theorem touches_pure {a : α} (ha : ∀ c, gives a c → roots c) : (pure a : Exec α).Touches roots gives :=
  fun m => ⟨.refl roots m.heap, fun c hc => .inl (.root (ha c hc))⟩

theorem touches_fail {anchor : Token} {cause : RuntimeFault} : (fail anchor cause).Touches roots gives :=
  fun m => .refl roots m.heap

theorem touches_outOfFuel : (outOfFuel : Exec α).Touches roots gives := fun _ => trivial

theorem touches_ofResult {anchor : Token} {r : Except RuntimeFault α} (hr : ∀ a, r = .ok a → ∀ c, gives a c → roots c) :
    (ofResult anchor r).Touches roots gives := by
  cases r with
  | ok a => exact touches_pure (hr a rfl)
  | error cause => exact touches_fail

/-- A computation that leaves the heap alone, and whose value the roots reach. -/
theorem touches_of_heap {x : Exec α}
    (hd : ∀ m a m', x m = .done a m' → m'.heap = m.heap ∧ ∀ c, gives a c → m.heap.Reaches roots c)
    (hf : ∀ m fault m', x m = .failed fault m' → m'.heap = m.heap) : x.Touches roots gives := by
  intro m
  cases hx : x m with
  | done a m' =>
    obtain ⟨hm, ha⟩ := hd m a m' hx
    show m.heap.Footprint roots m'.heap ∧ _
    rw [hm]
    exact ⟨.refl roots m.heap, fun c hc => .inl (ha c hc)⟩
  | failed fault m' =>
    show m.heap.Footprint roots m'.heap
    rw [hf m fault m' hx]
    exact .refl roots m.heap
  | outOfFuel => trivial

/-! ## names -/

theorem reaches_ancestor? {h : Heap} {d : Nat} {o : FrameRef} (he : h.Reaches roots (.frame e))
    (ho : h.frames.ancestor? e d = some o) : h.Reaches roots (.frame o) := by
  induction d generalizing e with
  | zero =>
    obtain rfl := Option.some.inj ho
    exact he
  | succ d ih =>
    obtain ⟨g, hg, hrest⟩ := Option.bind_eq_some_iff.1 ho
    exact ih (.link he (.enclosing hg)) hrest

theorem reaches_owner {h : Heap} {name : String} {n : Nat} {o : FrameRef} (he : h.Reaches roots (.frame e))
    (ho : h.frames.owner name n e = some o) : h.Reaches roots (.frame o) := by
  induction n generalizing e with
  | zero => cases ho
  | succ n ih =>
    unfold Frames.owner at ho
    split at ho
    · obtain rfl := Option.some.inj ho
      exact he
    · obtain ⟨g, hg, hrest⟩ := Option.bind_eq_some_iff.1 ho
      exact ih (.link he (.enclosing hg)) hrest

theorem reaches_findAt? {h : Heap} {d : Nat} {name : String} {v : Value} (he : h.Reaches roots (.frame e))
    (hv : h.frames.findAt? e d name = some v) {c : Cell} (hc : v.Gives c) : h.Reaches roots c := by
  obtain ⟨o, ho, hb⟩ := Option.bind_eq_some_iff.1 hv
  exact .link (reaches_ancestor? he ho) (.bound hb hc)

theorem reaches_find? {h : Heap} {name : String} {v : Value} (he : h.Reaches roots (.frame e))
    (hv : h.frames.find? e name = some v) {c : Cell} (hc : v.Gives c) : h.Reaches roots c := by
  obtain ⟨o, ho, hb⟩ := Option.bind_eq_some_iff.1 hv
  exact .link (reaches_owner he ho) (.bound hb hc)

theorem touches_readName (hr : Cell.Rooted roots e) {d : Option Nat} {name : Token} :
    (readName d e name).Touches roots Value.Gives := by
  have hroot : ∀ {f} {h : Heap}, roots (.frame f) → h.Reaches roots (.frame f) := .root
  intro m
  unfold readName
  cases d with
  | some d =>
    cases hv : m.heap.frames.findAt? e d name.lexeme with
    | some v =>
      simp only [Frames.readAt, hv, Frames.orUndefined]
      exact ⟨.refl _ _, fun c hc => .inl (reaches_findAt? (hroot hr.frame) hv hc)⟩
    | none =>
      simp only [Frames.readAt, hv, Frames.orUndefined]
      exact .refl _ _
  | none =>
    cases hv : m.heap.frames.find? Heap.globals name.lexeme with
    | some v =>
      simp only [Frames.read, hv, Frames.orUndefined]
      exact ⟨.refl _ _, fun c hc => .inl (reaches_find? (hroot hr.globals) hv hc)⟩
    | none =>
      simp only [Frames.read, hv, Frames.orUndefined]
      exact .refl _ _

theorem touches_writeName (hr : Cell.Rooted roots e) {d : Option Nat} {name : Token} {v : Value}
    (hv : ∀ c, v.Gives c → roots c) : (writeName d e name v).Touches roots nothing := by
  intro m
  have hwrite : ∀ o, m.heap.Reaches roots (.frame o) → Ending.Touches roots nothing m.heap
      (.done () { m with heap := m.heap.define o name.lexeme v }) := by
    intro o ho
    exact ⟨.define ho fun c hc => .root (hv c hc), fun _ hc => hc.elim⟩
  unfold writeName
  cases d with
  | some d =>
    cases ho : m.heap.frames.ownerAt? e d name.lexeme with
    | some o =>
      simp only [ho]
      have ha : m.heap.frames.ancestor? e d = some o := (Option.filter_eq_some_iff.1 ho).1
      exact hwrite o (reaches_ancestor? (.root hr.frame) ha)
    | none =>
      simp only [ho]
      exact .refl _ _
  | none =>
    cases ho : m.heap.frames.owner? Heap.globals name.lexeme with
    | some o => exact hwrite o (reaches_owner (.root hr.globals) ho)
    | none => exact .refl _ _

theorem touches_define (he : roots (.frame e)) {name : String} {v : Value} (hv : ∀ c, v.Gives c → roots c) :
    (define e name v).Touches roots nothing :=
  fun _ => ⟨.define (.root he) fun c hc => .root (hv c hc), fun _ hc => hc.elim⟩

theorem touches_newFrame (he : roots (.frame e)) {b : Assoc String Value}
    (hb : ∀ name v, Assoc.get? b name = some v → ∀ c, v.Gives c → roots c) :
    (newFrame e b).Touches roots fun f c => c = .frame f := by
  intro m
  refine ⟨.addFrame (.root he) fun name v hv c hc => .root (hb name v hv c hc), ?_⟩
  rintro c rfl
  refine .inr ⟨Nat.lt_irrefl _, ?_⟩
  show m.heap.frames.size < (m.heap.frames.push _).size
  rw [Array.size_push]
  exact Nat.lt_succ_self _

theorem touches_nameIn? (he : roots (.frame e)) {d : Nat} {name : String} :
    (nameIn? e d name).Touches roots fun found c => ∃ v ∈ found, Value.Gives v c :=
  fun _ => ⟨.refl _ _, fun _ ⟨_, hv, hc⟩ => .inl (reaches_findAt? (.root he) hv hc)⟩

/-! ## objects -/

theorem touches_newTag : newTag.Touches roots nothing := fun _ => ⟨.retag _, fun _ hc => hc.elim⟩

theorem touches_newObject {k : Class} (hk : ∀ c, k.Gives c → roots c) : (newObject k).Touches roots Value.Gives := by
  intro m
  refine ⟨.addObject, ?_⟩
  rintro c (rfl | hc)
  · refine .inr ⟨Nat.lt_irrefl _, ?_⟩
    show m.heap.objects.size < (m.heap.objects.push []).size
    rw [Array.size_push]
    exact Nat.lt_succ_self _
  · exact .inl (.root (hk c hc))

theorem touches_field? {o : ObjectRef} (ho : roots (.object o)) {name : String} :
    (field? o name).Touches roots fun found c => ∃ v ∈ found, Value.Gives v c :=
  fun _ => ⟨.refl _ _, fun _ ⟨_, hv, hc⟩ => .inl (.link (.root ho) (.field hv hc))⟩

theorem touches_setField {o : ObjectRef} (ho : roots (.object o)) {name : String} {v : Value}
    (hv : ∀ c, v.Gives c → roots c) : (setField o name v).Touches roots nothing :=
  fun _ => ⟨.setField (.root ho) fun c hc => .root (hv c hc), fun _ hc => hc.elim⟩

/-- A frame with one binding. -/
theorem gives_of_get?_singleton {name n : String} {v u : Value} (h : Assoc.get? [(name, v)] n = some u) : u = v := by
  unfold Assoc.get? at h
  split at h
  · exact (Option.some.inj h).symm
  · cases h

theorem touches_bindThis {method : Closure} {this : Value} (hm : roots (.frame method.frame))
    (ht : ∀ c, this.Gives c → roots c) :
    (bindThis method this).Touches roots fun closure c => c = .frame closure.frame := by
  unfold bindThis
  refine (touches_newFrame hm fun name v hv => ?_).seq fun f => touches_pure fun c hc => .inr hc
  obtain rfl := gives_of_get?_singleton hv
  exact ht

theorem touches_boundMethod {method : Closure} {this : Value} (hm : roots (.frame method.frame))
    (ht : ∀ c, this.Gives c → roots c) : (boundMethod method this).Touches roots Value.Gives := by
  unfold boundMethod
  refine (touches_bindThis hm ht).seq fun closure => ?_
  refine touches_newTag.seq fun t => ?_
  exact touches_pure fun c hc => .inl (.inr hc)

/-! ## the console and built-in functions -/

theorem touches_write {s : String} : (write s).Touches roots nothing := by
  refine touches_of_heap (fun m a m' h => ?_) fun m fault m' h => ?_
  all_goals
    unfold write at h
    dsimp only at h
    split at h <;> cases h
  · exact ⟨rfl, fun _ hc => hc.elim⟩
  · rfl

theorem gives_of_run {hosts : Array Host} (hh : ∀ f ∈ hosts, Host.Honest f) {b : Builtin} {arguments : List Value}
    {console console' : Console} {v : Value} (h : b.action.run hosts arguments console = (.ok v, console')) {c : Cell}
    (hc : v.Gives c) : ∃ a ∈ arguments, a.Gives c := by
  unfold Action.run at h
  split at h
  · exact absurd hc (plain_timeValue (Prod.mk.inj h).1).not_gives
  · exact absurd hc (plain_lineValue (Prod.mk.inj h).1).not_gives
  · split at h <;> cases h
    exact hc.elim
  · split at h
    · next f hf => exact hh f (Array.mem_of_getElem? hf) arguments v (Prod.mk.inj h).1 c hc
    · cases h
      exact hc.elim

theorem touches_runBuiltin {hosts : Array Host} (hh : ∀ f ∈ hosts, Host.Honest f) {b : Builtin}
    {arguments : List Value} (ha : ∀ v ∈ arguments, ∀ c, v.Gives c → roots c) {paren : Token} :
    (runBuiltin hosts b arguments paren).Touches roots Value.Gives := by
  refine touches_of_heap (fun m a m' h => ?_) fun m fault m' h => ?_
  · unfold runBuiltin at h
    split at h
    · next v console hrun =>
      cases h
      refine ⟨rfl, fun c hc => ?_⟩
      obtain ⟨u, hu, hgives⟩ := gives_of_run hh hrun hc
      exact .root (ha u hu c hgives)
    · cases h
  · unfold runBuiltin at h
    split at h <;> cases h
    rfl

/-! ## the parts without recursion -/

theorem touches_print {keyword : Token} {v : Value} : (print keyword v).Touches roots nothing := by
  unfold print
  split
  · split
    · exact touches_write
    · exact touches_fail
  · exact touches_write

theorem touches_getProperty {o : ObjectRef} {k : Class} (hv : ∀ c, (Value.object o k).Gives c → roots c) {name : Token} :
    (getProperty o k name).Touches roots Value.Gives := by
  unfold getProperty
  refine (touches_field? (hv _ (.inl rfl))).seq fun found => ?_
  cases found with
  | some v => exact touches_pure fun c hc => .inr ⟨v, rfl, hc⟩
  | none =>
    dsimp only
    cases hm : k.method? name.lexeme with
    | some method =>
      have hframe : roots (.frame method.frame) := hv _ (.inr (Class.gives_of_method? hm))
      exact touches_boundMethod (.inl hframe) fun c hc => .inl (hv c hc)
    | none => exact touches_fail

theorem touches_getSuper (hr : Cell.Rooted roots e) {d : Option Nat} {keyword method : Token} :
    (getSuper d e keyword method).Touches roots Value.Gives := by
  unfold getSuper
  cases d with
  | none => exact touches_fail
  | some d =>
    refine (touches_readName hr).seq fun found => ?_
    split
    · next parent =>
      refine (touches_nameIn? (hr.wide _).frame).seq fun this => ?_
      split
      · next o k =>
        split
        · next m hm =>
          refine touches_boundMethod (.inl (.inr ?_)) fun c hc => .inr ⟨_, rfl, hc⟩
          exact Class.gives_of_method? hm
        · exact touches_fail
      · exact touches_fail
    · exact touches_fail

theorem touches_checkArity {paren : Token} {expected got : Nat} :
    (checkArity paren expected got).Touches roots nothing := by
  unfold checkArity
  split
  · exact touches_pure fun c hc => hc.elim
  · exact touches_fail

theorem touches_asSuperclass {name : Token} {x : Expr} {v : Value} (hv : ∀ c, v.Gives c → roots c) :
    (asSuperclass name x v).Touches roots Class.Gives := by
  unfold asSuperclass
  split
  · exact touches_pure hv
  · split <;> exact touches_fail

/-- All methods of a class declaration are closed over one frame. -/
theorem frame_of_methodTable {f : FrameRef} {methods : List FunctionDecl} {name : String} {m : Closure}
    (h : Assoc.get? (methodTable f methods) name = some m) : m.frame = f := by
  rcases Assoc.mem_or_get?_of_get?_setAll h with hmem | hnone
  · obtain ⟨d, -, heq⟩ := List.mem_map.1 hmem
    cases heq
    rfl
  · cases hnone

theorem gives_mk {t : Tag} {name : String} {parent : Option Class} {methods : List FunctionDecl} {f : FrameRef} {c : Cell}
    (hc : (Class.mk t name parent (methodTable f methods)).Gives c) :
    c = .frame f ∨ ∃ p ∈ parent, Class.Gives p c := by
  cases hc with
  | own hm => exact .inl (congrArg Cell.frame (frame_of_methodTable hm))
  | inherited hp => exact .inr ⟨_, rfl, hp⟩

theorem touches_makeClass (he : roots (.frame e)) {name : Token} {parent : Option Class}
    (hp : ∀ p ∈ parent, ∀ c, Class.Gives p c → roots c) {methods : List FunctionDecl} :
    (makeClass e name parent methods).Touches roots nothing := by
  unfold makeClass
  refine (touches_define he fun c hc => absurd hc Value.not_gives_nil).seq fun _ => ?_
  -- the frame of the methods leads to nothing that the roots do not reach
  have hrest : ∀ inner : FrameRef, (do
      let t ← newTag
      define e name.lexeme (.klass (.mk t name.lexeme parent (methodTable inner methods))) : Exec Unit).Touches
      (fun c => (roots c ∨ nothing () c) ∨ c = .frame inner) nothing := by
    intro inner
    refine touches_newTag.seq fun t => ?_
    refine touches_define (.inl (.inl (.inl he))) fun c hc => .inl ?_
    rcases gives_mk hc with rfl | ⟨p, hmem, hgives⟩
    · exact .inr rfl
    · exact .inl (.inl (hp p hmem c hgives))
  cases parent with
  | none =>
    have hpure : (pure e : Exec FrameRef).Touches (fun c => roots c ∨ nothing () c) fun f c => c = .frame f := by
      refine touches_pure ?_
      rintro c rfl
      exact .inl he
    exact hpure.seq hrest
  | some p =>
    refine (touches_newFrame (.inl he) fun n v hv c hc => .inl ?_).seq hrest
    obtain rfl := gives_of_get?_singleton hv
    exact hp p rfl c hc

theorem touches_callFrame {closure : Closure} {arguments : List Value} (hf : roots (.frame closure.frame))
    (ha : ∀ v ∈ arguments, ∀ c, v.Gives c → roots c) :
    (callFrame closure arguments).Touches roots fun f c => c = .frame f := by
  unfold callFrame
  refine touches_newFrame hf fun name v hv => ?_
  rcases Assoc.mem_or_get?_of_get?_setAll hv with hmem | hnone
  · exact ha v (List.of_mem_zip hmem).2
  · cases hnone

theorem touches_callResult {closure : Closure} {flow : Flow} (hf : roots (.frame closure.frame))
    (hflow : ∀ c, flow.Gives c → roots c) : (callResult closure flow).Touches roots Value.Gives := by
  unfold callResult
  split
  · refine (touches_nameIn? hf).seq fun this => ?_
    refine touches_pure fun c hc => .inr ?_
    cases this with
    | none => exact hc.elim
    | some v => exact ⟨v, rfl, hc⟩
  · exact touches_pure fun c hc => hflow c (Flow.gives_of_result hc)

/-! ## the recursion -/

/-- What a list of values gives access to. -/
def givesAll (vs : List Value) (c : Cell) : Prop := ∃ v ∈ vs, v.Gives c

/-- All functions of the recursion touch, at one depth, only what their frames and values reach. -/
structure Touching (σ : Setting) (n : Nat) : Prop where
  eval : ∀ {roots e x}, Cell.Rooted roots e → (eval n σ e x).Touches roots Value.Gives
  evalAll : ∀ {roots e xs}, Cell.Rooted roots e → (evalAll n σ e xs).Touches roots givesAll
  call : ∀ {roots f vs paren}, roots (.frame Heap.globals) → (∀ c, f.Gives c → roots c) →
    (∀ v ∈ vs, ∀ c, v.Gives c → roots c) → (call n σ f vs paren).Touches roots Value.Gives
  invoke : ∀ {roots closure vs}, Cell.Rooted roots closure.frame → (∀ v ∈ vs, ∀ c, v.Gives c → roots c) →
    (invoke n σ closure vs).Touches roots Value.Gives
  exec : ∀ {roots e s}, Cell.Rooted roots e → (exec n σ e s).Touches roots Flow.Gives
  execAll : ∀ {roots e body}, Cell.Rooted roots e → (execAll n σ e body).Touches roots Flow.Gives
  loop : ∀ {roots e c b i}, Cell.Rooted roots e → (loop n σ e c b i).Touches roots Flow.Gives

namespace Touching

variable {σ : Setting} {n : Nat}

theorem touches_eval (ih : Touching σ n) (hr : Cell.Rooted roots e) {x : Expr} :
    (Exec.eval (n + 1) σ e x).Touches roots Value.Gives := by
  cases x with
  | literal l =>
    simp only [Exec.eval]
    exact touches_pure fun c hc => absurd hc not_gives_ofLiteral
  | group inner =>
    simp only [Exec.eval]
    exact ih.eval hr
  | unary op right =>
    simp only [Exec.eval]
    refine (ih.eval hr).seq fun v => ?_
    exact touches_ofResult fun u hu c hc => absurd hc (plain_applyUnary hu).not_gives
  | binary left op right =>
    simp only [Exec.eval]
    refine (ih.eval hr).seq fun v => ?_
    refine (ih.eval (hr.wide _)).seq fun u => ?_
    exact touches_ofResult fun y hy c hc => absurd hc (plain_applyBinary hy).not_gives
  | logical left op right =>
    simp only [Exec.eval]
    refine (ih.eval hr).seq fun v => ?_
    split
    · exact touches_pure fun c hc => .inr hc
    · exact ih.eval (hr.wide _)
  | «variable» label name =>
    simp only [Exec.eval]
    exact touches_readName hr
  | assign label name value =>
    simp only [Exec.eval]
    refine (ih.eval hr).seq fun v => ?_
    refine (touches_writeName (hr.wide _) fun c hc => .inr hc).seq fun _ => ?_
    exact touches_pure fun c hc => .inl (.inr hc)
  | call callee paren arguments =>
    simp only [Exec.eval]
    refine (ih.eval hr).seq fun f => ?_
    refine (ih.evalAll (hr.wide _)).seq fun vs => ?_
    refine ih.call (.inl (.inl hr.globals)) (fun c hc => .inl (.inr hc)) fun v hv c hc => .inr ?_
    exact ⟨v, hv, hc⟩
  | get object name =>
    simp only [Exec.eval]
    refine (ih.eval hr).seq fun v => ?_
    split
    · exact touches_getProperty fun c hc => .inr hc
    · exact touches_fail
  | set object name value =>
    simp only [Exec.eval]
    refine (ih.eval hr).seq fun v => ?_
    split
    · next o k =>
      refine (ih.eval (hr.wide _)).seq fun u => ?_
      have ho : roots (.object o) ∨ (Value.object o k).Gives (.object o) := .inr (.inl rfl)
      refine (touches_setField (.inl ho) fun c hc => .inr hc).seq fun _ => ?_
      exact touches_pure fun c hc => .inl (.inr hc)
    · exact touches_fail
  | this label keyword =>
    simp only [Exec.eval]
    exact touches_readName hr
  | super label keyword method =>
    simp only [Exec.eval]
    exact touches_getSuper hr

theorem touches_evalAll (ih : Touching σ n) (hr : Cell.Rooted roots e) {xs : List Expr} :
    (Exec.evalAll (n + 1) σ e xs).Touches roots givesAll := by
  cases xs with
  | nil =>
    simp only [Exec.evalAll]
    refine touches_pure fun c hgives => ?_
    obtain ⟨v, hv, -⟩ := hgives
    cases hv
  | cons x xs =>
    simp only [Exec.evalAll]
    refine (ih.eval hr).seq fun v => ?_
    refine (ih.evalAll (hr.wide _)).seq fun vs => ?_
    refine touches_pure fun c hgives => ?_
    obtain ⟨u, hu, hc⟩ := hgives
    rcases List.mem_cons.1 hu with rfl | hu
    · exact .inl (.inr hc)
    · exact .inr ⟨u, hu, hc⟩

theorem touches_call (ih : Touching σ n) (hσ : ∀ f ∈ σ.hosts, Host.Honest f) {f : Value} {vs : List Value}
    {paren : Token} (hg : roots (.frame Heap.globals)) (hf : ∀ c, f.Gives c → roots c)
    (hvs : ∀ v ∈ vs, ∀ c, v.Gives c → roots c) : (Exec.call (n + 1) σ f vs paren).Touches roots Value.Gives := by
  cases f with
  | function tag closure =>
    simp only [Exec.call]
    refine touches_checkArity.seq fun _ => ?_
    exact ih.invoke ⟨.inl hg, .inl (hf _ rfl)⟩ fun v hv c hc => .inl (hvs v hv c hc)
  | builtin tag b =>
    simp only [Exec.call]
    refine touches_checkArity.seq fun _ => ?_
    exact touches_runBuiltin hσ fun v hv c hc => .inl (hvs v hv c hc)
  | klass k =>
    simp only [Exec.call]
    refine touches_checkArity.seq fun _ => ?_
    refine (touches_newObject fun c hc => .inl (hf c hc)).seq fun this => ?_
    cases hm : k.method? FunctionDecl.initName with
    | none => exact touches_pure fun c hc => .inr hc
    | some initializer =>
      have hframe : roots (.frame initializer.frame) := hf _ (Class.gives_of_method? hm)
      refine (touches_bindThis (.inl (.inl hframe)) fun c hc => .inr hc).seq fun bound => ?_
      refine (ih.invoke ⟨.inl (.inl (.inl hg)), .inr rfl⟩ fun v hv c hc => ?_).seq fun _ => ?_
      · exact .inl (.inl (.inl (hvs v hv c hc)))
      · exact touches_pure fun c hc => .inl (.inl (.inr hc))
  | _ =>
    simp only [Exec.call]
    exact touches_fail

theorem touches_invoke (ih : Touching σ n) {closure : Closure} {vs : List Value}
    (hr : Cell.Rooted roots closure.frame) (hvs : ∀ v ∈ vs, ∀ c, v.Gives c → roots c) :
    (Exec.invoke (n + 1) σ closure vs).Touches roots Value.Gives := by
  simp only [Exec.invoke]
  refine (touches_callFrame hr.frame hvs).seq fun e => ?_
  refine (ih.execAll ⟨.inl hr.globals, .inr rfl⟩).seq fun flow => ?_
  exact touches_callResult (.inl (.inl hr.frame)) fun c hc => .inr hc

theorem touches_exec (ih : Touching σ n) (hr : Cell.Rooted roots e) {s : Stmt} :
    (Exec.exec (n + 1) σ e s).Touches roots Flow.Gives := by
  -- most statements end without a value
  have hend : ∀ {more : Cell → Prop}, (pure .normal : Exec Flow).Touches more Flow.Gives :=
    touches_pure fun _ hc => hc.elim
  cases s with
  | expr x =>
    simp only [Exec.exec]
    exact (ih.eval hr).seq fun _ => hend
  | print keyword x =>
    simp only [Exec.exec]
    refine (ih.eval hr).seq fun v => ?_
    exact touches_print.seq fun _ => hend
  | varDecl name x =>
    cases x with
    | none =>
      simp only [Exec.exec]
      exact (touches_define hr.frame fun c hc => absurd hc Value.not_gives_nil).seq fun _ => hend
    | some x =>
      simp only [Exec.exec]
      refine (ih.eval hr).seq fun v => ?_
      exact (touches_define (.inl hr.frame) fun c hc => .inr hc).seq fun _ => hend
  | block body =>
    simp only [Exec.exec]
    refine (touches_newFrame hr.frame fun name v hv => ?_).seq fun inner => ?_
    · cases hv
    · exact ih.execAll ⟨.inl hr.globals, .inr rfl⟩
  | ifThen c t =>
    simp only [Exec.exec]
    refine (ih.eval hr).seq fun v => ?_
    split
    · exact ih.exec (hr.wide _)
    · exact hend
  | ifElse c t f =>
    simp only [Exec.exec]
    refine (ih.eval hr).seq fun v => ?_
    split <;> exact ih.exec (hr.wide _)
  | loop c b i =>
    simp only [Exec.exec]
    exact ih.loop hr
  | funDecl d =>
    simp only [Exec.exec]
    refine touches_newTag.seq fun t => ?_
    refine (touches_define (.inl hr.frame) fun c hc => .inl ?_).seq fun _ => hend
    obtain rfl : c = .frame e := hc
    exact hr.frame
  | returnFrom keyword x =>
    cases x with
    | none =>
      simp only [Exec.exec]
      exact touches_pure fun c hc => hc.elim
    | some x =>
      simp only [Exec.exec]
      refine (ih.eval hr).seq fun v => ?_
      exact touches_pure fun c hc => .inr hc
  | classDecl name s methods =>
    cases s with
    | none =>
      simp only [Exec.exec]
      exact (touches_makeClass hr.frame fun p hp => by cases hp).seq fun _ => hend
    | some x =>
      simp only [Exec.exec]
      refine (ih.eval hr).seq fun v => ?_
      refine (touches_asSuperclass fun c hc => .inr hc).seq fun parent => ?_
      refine (touches_makeClass (.inl (.inl hr.frame)) fun p hp c hc => .inr ?_).seq fun _ => hend
      obtain rfl := Option.some.inj hp
      exact hc
  | breakLoop keyword =>
    simp only [Exec.exec]
    exact touches_pure fun c hc => hc.elim
  | continueLoop keyword =>
    simp only [Exec.exec]
    exact touches_pure fun c hc => hc.elim

theorem touches_execAll (ih : Touching σ n) (hr : Cell.Rooted roots e) {body : List Stmt} :
    (Exec.execAll (n + 1) σ e body).Touches roots Flow.Gives := by
  cases body with
  | nil =>
    simp only [Exec.execAll]
    exact touches_pure fun c hc => hc.elim
  | cons s rest =>
    simp only [Exec.execAll]
    refine (ih.exec hr).seq fun flow => ?_
    split
    · exact ih.execAll (hr.wide _)
    · exact touches_pure fun c hc => .inr hc

theorem touches_again (ih : Touching σ n) (hr : Cell.Rooted roots e) {c : Expr} {b : Stmt} {i : Option Expr} :
    (again n σ e c b i).Touches roots Flow.Gives := by
  unfold again
  cases i with
  | none => exact ih.loop hr
  | some x =>
    refine (ih.eval hr).seq fun v => ?_
    exact ih.loop (hr.wide _)

theorem touches_loop (ih : Touching σ n) (hr : Cell.Rooted roots e) {c : Expr} {b : Stmt} {i : Option Expr} :
    (Exec.loop (n + 1) σ e c b i).Touches roots Flow.Gives := by
  rw [loop_succ]
  refine (ih.eval hr).seq fun v => ?_
  have hr₁ := hr.wide v.Gives
  split
  · refine (ih.exec hr₁).seq fun flow => ?_
    split
    · exact touches_pure fun c hc => hc.elim
    · exact touches_pure fun c hc => .inr hc
    · exact ih.touches_again (hr₁.wide _)
  · exact touches_pure fun c hc => hc.elim

end Touching

theorem touching {σ : Setting} (hσ : ∀ f ∈ σ.hosts, Host.Honest f) (n : Nat) : Touching σ n := by
  induction n with
  | zero =>
    refine ⟨?_, ?_, ?_, ?_, ?_, ?_, ?_⟩ <;> intros
    · simp only [eval]; exact touches_outOfFuel
    · simp only [evalAll]; exact touches_outOfFuel
    · simp only [call]; exact touches_outOfFuel
    · simp only [invoke]; exact touches_outOfFuel
    · simp only [exec]; exact touches_outOfFuel
    · simp only [execAll]; exact touches_outOfFuel
    · simp only [loop]; exact touches_outOfFuel
  | succ n ih =>
    exact {
      eval := fun hr => ih.touches_eval hr
      evalAll := fun hr => ih.touches_evalAll hr
      call := fun hg hf hvs => ih.touches_call hσ hg hf hvs
      invoke := fun hr hvs => ih.touches_invoke hr hvs
      exec := fun hr => ih.touches_exec hr
      execAll := fun hr => ih.touches_execAll hr
      loop := fun hr => ih.touches_loop hr }

end Exec

/-! ## seen from outside -/

/-- What happened to a heap: cells that were there and could not be reached are as they were, and what can be reached
from the roots or from the result could be reached before or was made since. -/
structure Heap.Spared (roots result : Cell → Prop) (h h' : Heap) : Prop where
  frame : ∀ f, f < h.frames.size → ¬ h.Reaches roots (.frame f) → h'.frames[f]? = h.frames[f]?
  object : ∀ o, o < h.objects.size → ¬ h.Reaches roots (.object o) → h'.objects[o]? = h.objects[o]?
  reach : ∀ c, h'.Reaches (fun d => roots d ∨ result d) c → h.Reaches roots c ∨ h.Made h' c

/-- The same of an ending; a fault has no value. -/
def Ending.Spares (roots : Cell → Prop) (gives : α → Cell → Prop) (start : Heap) : Ending α → Prop
  | .done a m => start.Spared roots (gives a) m.heap
  | .failed _ m => start.Spared roots (fun _ => False) m.heap
  | .outOfFuel => True

namespace Heap.Footprint

/-- What lies outside was there before and could not be reached. -/
theorem spared {h h' : Heap} {result : Cell → Prop} (hp : Footprint roots h h')
    (hr : ∀ c, result c → h.Inside h' roots c) : h.Spared roots result h' where
  frame f hlt hf := by
    refine hp.frame f ?_
    rintro (hreach | hmade)
    · exact hf hreach
    · exact hmade.1 hlt
  object o hlt ho := by
    refine hp.object o ?_
    rintro (hreach | hmade)
    · exact ho hreach
    · exact hmade.1 hlt
  reach c hc := by
    refine hp.inside_of_reaches ?_ hc
    rintro d (hd | hd)
    · exact .inl (.root hd)
    · exact hr d hd

end Heap.Footprint

theorem Exec.Touches.spares {x : Exec α} {gives : α → Cell → Prop} (hx : x.Touches roots gives) (m : Machine) :
    (x m).Spares roots gives m.heap := by
  have h := hx m
  cases hxm : x m with
  | done a m' =>
    rw [hxm] at h
    exact h.1.spared h.2
  | failed fault m' =>
    rw [hxm] at h
    exact h.spared fun _ hc => hc.elim
  | outOfFuel => trivial

/-- What is at hand where something is evaluated: its frame and the globals. -/
def Cell.around (e : FrameRef) (c : Cell) : Prop := c = .frame e ∨ c = .frame Heap.globals

/-- What is at hand in a call: the function, the arguments and the globals, but not the frame of the caller. -/
def Cell.ofCall (f : Value) (arguments : List Value) (c : Cell) : Prop :=
  f.Gives c ∨ Exec.givesAll arguments c ∨ c = .frame Heap.globals

/-- From a machine on, evaluation spares what cannot be reached from where it stands. -/
structure Setting.Local (σ : Setting) (m : Machine) (n : Nat) : Prop where
  eval : ∀ e x, (Exec.eval n σ e x m).Spares (Cell.around e) Value.Gives m.heap
  exec : ∀ e s, (Exec.exec n σ e s m).Spares (Cell.around e) Flow.Gives m.heap
  call : ∀ f vs paren, (Exec.call n σ f vs paren m).Spares (Cell.ofCall f vs) Value.Gives m.heap

/-- Evaluation is local, from every machine and at every depth. -/
theorem Setting.local_of_honest (σ : Setting) (hσ : ∀ f ∈ σ.hosts, Host.Honest f) (m : Machine) (n : Nat) :
    σ.Local m n := by
  have ih := Exec.touching hσ n
  have hrooted : ∀ e, Cell.Rooted (Cell.around e) e := fun e => ⟨.inr rfl, .inl rfl⟩
  refine ⟨fun e x => ?_, fun e s => ?_, fun f vs paren => ?_⟩
  · exact (ih.eval (hrooted e)).spares m
  · exact (ih.exec (hrooted e)).spares m
  · have hcall : (Exec.call n σ f vs paren).Touches (Cell.ofCall f vs) Value.Gives :=
      ih.call (.inr (.inr rfl)) (fun c hc => .inl hc) fun v hv c hc => .inr (.inl ⟨v, hv, hc⟩)
    exact hcall.spares m

/-- A function writes the global `x` and not the `x` of its caller, to which nothing leads. -/
theorem Setting.local_of_honest_caller :
    let name (s : String) : Token := ⟨.identifier, s, 1⟩
    let f : Value := .function 0 ⟨.mk (name "f") [] [.expr (.assign 0 (name "x") (.literal .nil))], 0, false⟩
    let caller : Frame Value := ⟨[("x", .bool false)], some 0⟩
    let m : Machine := ⟨⟨#[⟨[("x", .bool true), ("f", f)], none⟩, caller], #[], 1⟩, ⟨.unlimited, [], .running 0⟩⟩
    ∃ m', Exec.call 6 ⟨[], #[fun _ => .ok .nil]⟩ f [] (.ofMark .rightParen 1) m = .done .nil m' ∧
      Assoc.get? (m'.heap.frames.bindings 0) "x" = some .nil ∧ m'.heap.frames[1]? = some caller := by
  intro name f caller m
  have hhosts : ∀ g ∈ #[fun _ => Except.ok Value.nil], Host.Honest g := by
    intro g hg arguments v hv c hc
    obtain rfl := Array.mem_singleton.1 hg
    cases hv
    exact absurd hc Value.not_gives_nil
  have hlocal := Setting.local_of_honest ⟨[], #[fun _ => .ok .nil]⟩ hhosts m 6
  -- the function is closed over the globals, which lead to nothing but the function
  have hout : ¬ m.heap.Reaches (Cell.ofCall f []) (.frame 1) := by
    intro hreach
    have hglobals : Cell.frame 1 = .frame 0 := by
      refine hreach.within (P := fun c => c = .frame 0) ?_ ?_
      · rintro c (hc | ⟨v, hv, -⟩ | hc)
        · exact hc
        · cases hv
        · exact hc
      · rintro c d rfl hl
        cases hl with
        | enclosing hg => cases hg
        | bound hb hd =>
          have hmem : (_, _) ∈ [("x", Value.bool true), ("f", f)] := Assoc.mem_of_get? hb
          rcases List.mem_cons.1 hmem with hx | hf
          · obtain rfl := (Prod.mk.inj hx).2
            exact hd.elim
          · obtain rfl := (Prod.mk.inj (List.mem_singleton.1 hf)).2
            exact hd
    cases hglobals
  let m' : Machine := { m with heap := ⟨#[⟨[("x", .nil), ("f", f)], none⟩, caller, ⟨[], some 0⟩], #[], 1⟩ }
  have hrun : Exec.call 6 ⟨[], #[fun _ => .ok .nil]⟩ f [] (.ofMark .rightParen 1) m = .done .nil m' := by
    with_unfolding_all rfl
  have hspared := hlocal.call f [] (.ofMark .rightParen 1)
  rw [hrun] at hspared
  exact ⟨m', hrun, rfl, hspared.frame 1 (by decide) hout⟩

end ScriptLang
