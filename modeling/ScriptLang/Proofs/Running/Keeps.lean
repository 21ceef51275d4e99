import ScriptLang.Proofs.Running.World

/-!
# Computations that keep a world sound

`x.Keeps S P w Q` says of a computation that starts in the world `w`: if it ends with a value, then in a sound world
that has grown out of `w` by the bindings `P` allows and in which `Q` holds; if it ends with a fault, then also in a
sound world.  There is one lemma for each computation without recursion, and one for sequences.
-/

namespace ScriptLang

variable {α β : Type} {S : Site → Prop} {P P₁ P₂ : FrameRef → String → Prop} {w : World}

/-- The ending of a computation that started in `w`. -/
def Ending.Keeps (S : Site → Prop) (P : FrameRef → String → Prop) (w : World) (Q : World → α → Prop) : Ending α → Prop
  | .done a m => ∃ w' : World, w'.heap = m.heap ∧ w'.Sound S ∧ w.Grows P w' ∧ Q w' a
  | .failed _ m => ∃ w' : World, w'.heap = m.heap ∧ w'.Sound S
  | .outOfFuel => True

namespace Exec

/-- A computation keeps the world sound, whatever the console holds. -/
def Keeps (S : Site → Prop) (P : FrameRef → String → Prop) (w : World) (Q : World → α → Prop) (x : Exec α) : Prop :=
  ∀ console, (x ⟨w.heap, console⟩).Keeps S P w Q

namespace Keeps

variable {Q R : World → α → Prop} {T : World → β → Prop} {x : Exec α} {f : α → Exec β} {m m' : Machine}

theorem ending (h : x.Keeps S P w Q) (hm : w.heap = m.heap) : (x m).Keeps S P w Q := by
  obtain ⟨heap, console⟩ := m
  obtain rfl : w.heap = heap := hm
  exact h console

theorem done (h : x.Keeps S P w Q) (hm : w.heap = m.heap) {a : α} (hx : x m = .done a m') :
    ∃ w' : World, w'.heap = m'.heap ∧ w'.Sound S ∧ w.Grows P w' ∧ Q w' a := by
  have := h.ending hm
  rwa [hx] at this

theorem failed (h : x.Keeps S P w Q) (hm : w.heap = m.heap) {fault : Fault} (hx : x m = .failed fault m') :
    ∃ w' : World, w'.heap = m'.heap ∧ w'.Sound S := by
  have := h.ending hm
  rwa [hx] at this

theorem weaken (h : x.Keeps S P w Q) (hp : ∀ e n, P e n → P₁ e n) (hq : ∀ w' a, Q w' a → R w' a) :
    x.Keeps S P₁ w R := by
  intro console
  have hx := h console
  cases he : x ⟨w.heap, console⟩ with
  | done a m =>
    rw [he] at hx
    obtain ⟨w', hm, hs, hg, ha⟩ := hx
    exact ⟨w', hm, hs, hg.weaken hp, hq w' a ha⟩
  | failed fault m =>
    rw [he] at hx
    exact hx
  | outOfFuel => trivial

theorem of_nowhere (h : x.Keeps S World.nowhere w Q) : x.Keeps S P w Q :=
  h.weaken (fun _ _ hp => hp.elim) fun _ _ hq => hq

/-- A sequence.  Of what the second part allows, only the bindings in frames from before the first part count. -/
theorem andThen (hx : x.Keeps S P₁ w Q) (h₁ : ∀ e n, P₁ e n → P e n)
    (hf : ∀ w' a, w'.Sound S → w.Grows P₁ w' → Q w' a → ∃ P₂ : FrameRef → String → Prop,
      (∀ e n, e < w.heap.frames.size → P₂ e n → P e n) ∧ (f a).Keeps S P₂ w' T) : (x >>= f).Keeps S P w T := by
  intro console
  show (Exec.andThen x f ⟨w.heap, console⟩).Keeps S P w T
  unfold Exec.andThen
  have hx' := hx console
  cases he : x ⟨w.heap, console⟩ with
  | done a m =>
    rw [he] at hx'
    obtain ⟨w', hm, hs, hg, ha⟩ := hx'
    obtain ⟨P₂, h₂, hfa⟩ := hf w' a hs hg ha
    have hend := hfa.ending hm
    show (f a m).Keeps S P w T
    cases hfm : f a m with
    | done b m' =>
      rw [hfm] at hend
      obtain ⟨w'', hm', hs', hg', hb⟩ := hend
      exact ⟨w'', hm', hs', (hg.weaken h₁).trans hg' h₂, hb⟩
    | failed fault m' =>
      rw [hfm] at hend
      exact hend
    | outOfFuel => trivial
  | failed fault m =>
    rw [he] at hx'
    exact hx'
  | outOfFuel => trivial

/-- A sequence of two parts that allow less. -/
theorem bind (hx : x.Keeps S P₁ w Q) (h₁ : ∀ e n, P₁ e n → P e n) (h₂ : ∀ e n, P₂ e n → P e n)
    (hf : ∀ w' a, w'.Sound S → w.Grows P₁ w' → Q w' a → (f a).Keeps S P₂ w' T) : (x >>= f).Keeps S P w T :=
  hx.andThen h₁ fun w' a hw' hg ha => ⟨P₂, fun e n _ => h₂ e n, hf w' a hw' hg ha⟩

/-- A sequence whose first part binds nothing in old frames. -/
theorem seq (hx : x.Keeps S World.nowhere w Q)
    (hf : ∀ w' a, w'.Sound S → w.Grows World.nowhere w' → Q w' a → (f a).Keeps S P w' T) : (x >>= f).Keeps S P w T :=
  hx.bind (fun _ _ hp => hp.elim) (fun _ _ hp => hp) hf

/-- A sequence whose second part binds nothing in old frames. -/
theorem last (hx : x.Keeps S P w Q)
    (hf : ∀ w' a, w'.Sound S → w.Grows P w' → Q w' a → (f a).Keeps S World.nowhere w' T) : (x >>= f).Keeps S P w T :=
  hx.bind (fun _ _ hp => hp) (fun _ _ hp => hp.elim) hf

/-- A sequence whose second part binds names only in a frame that the first part made. -/
theorem scope (hx : x.Keeps S World.nowhere w Q)
    (hf : ∀ w' a, w'.Sound S → w.Grows World.nowhere w' → Q w' a → ∃ e names, w.heap.frames.size ≤ e ∧
      (f a).Keeps S (World.within e names) w' T) : (x >>= f).Keeps S World.nowhere w T := by
  refine hx.andThen (fun _ _ hp => hp) fun w' a hw' hg ha => ?_
  obtain ⟨e, names, he, hk⟩ := hf w' a hw' hg ha
  refine ⟨_, fun f n hlt hp => ?_, hk⟩
  have : f = e := hp.1
  have hle : w.heap.frames.size ≤ f := this ▸ he
  omega

end Keeps

/-! ## endings -/

variable {Q : World → α → Prop}

theorem keeps_pure (hw : w.Sound S) {a : α} (hq : Q w a) : (pure a : Exec α).Keeps S P w Q :=
  fun _ => ⟨w, rfl, hw, .refl w, hq⟩

theorem keeps_fail (hw : w.Sound S) {anchor : Token} {cause : RuntimeFault} : (fail anchor cause).Keeps S P w Q :=
  fun _ => ⟨w, rfl, hw⟩

theorem keeps_outOfFuel : (outOfFuel : Exec α).Keeps S P w Q := fun _ => trivial

theorem keeps_ofResult (hw : w.Sound S) {anchor : Token} {r : Except RuntimeFault α} (hq : ∀ a, r = .ok a → Q w a) :
    (ofResult anchor r).Keeps S P w Q := by
  cases r with
  | ok a => exact keeps_pure hw (hq a rfl)
  | error cause => exact keeps_fail hw

/-! ## names -/

theorem value?_of_findAt? {e : FrameRef} {d : Nat} {name : String} {v : Value}
    (h : w.heap.frames.findAt? e d name = some v) : ∃ f, w.value? f name = some v := by
  obtain ⟨f, -, hf⟩ := Option.bind_eq_some_iff.1 h
  exact ⟨f, hf⟩

theorem keeps_readName (hw : w.Sound S) {d : Option Nat} {e : FrameRef} {name : Token} :
    (readName d e name).Keeps S P w fun w' v => v.Sound S w' := by
  intro console
  unfold readName
  cases d with
  | some d =>
    cases hv : w.heap.frames.findAt? e d name.lexeme with
    | some v =>
      obtain ⟨f, hf⟩ := value?_of_findAt? hv
      simp only [Frames.readAt, hv, Frames.orUndefined]
      exact ⟨w, rfl, hw, .refl w, hw.value f _ v hf⟩
    | none =>
      simp only [Frames.readAt, hv, Frames.orUndefined]
      exact ⟨w, rfl, hw⟩
  | none =>
    cases hv : w.heap.frames.find? Heap.globals name.lexeme with
    | some v =>
      obtain ⟨f, -, hf⟩ := Option.bind_eq_some_iff.1 hv
      simp only [Frames.read, hv, Frames.orUndefined]
      exact ⟨w, rfl, hw, .refl w, hw.value f _ v hf⟩
    | none =>
      simp only [Frames.read, hv, Frames.orUndefined]
      exact ⟨w, rfl, hw⟩

/-- What is looked up among the globals is found there or nowhere. -/
theorem owner?_globals (hw : w.Sound S) {name : String} {o : FrameRef}
    (h : w.heap.frames.owner? Heap.globals name = some o) : o = Heap.globals ∧ w.Binds o name := by
  unfold Frames.owner? at h
  obtain ⟨n, hn⟩ := Nat.exists_eq_succ_of_ne_zero (Nat.ne_of_gt hw.root)
  rw [hn] at h
  unfold Frames.owner at h
  split at h
  · next hb =>
    obtain rfl := Option.some.inj h
    exact ⟨rfl, hb⟩
  · rw [hw.top] at h
    cases h

theorem binds_of_ownerAt? {e o : FrameRef} {d : Nat} {name : String}
    (h : w.heap.frames.ownerAt? e d name = some o) : w.Binds o name := by
  have := (Option.filter_eq_some_iff.1 h).2
  exact this

theorem keeps_writeName (hw : w.Sound S) {d : Option Nat} {e : FrameRef} {name : Token} {v : Value}
    (hv : v.Sound S w) (hn : d ≠ none → name.lexeme ≠ "this") :
    (writeName d e name v).Keeps S World.nowhere w fun w' _ => v.Sound S w' := by
  intro console
  have hdefine : ∀ o, w.Binds o name.lexeme → (o ≠ Heap.globals → name.lexeme ≠ "this") →
      Ending.Keeps S World.nowhere w (fun w' (_ : Unit) => v.Sound S w')
        (.done () ⟨w.heap.define o name.lexeme v, console⟩) := by
    intro o hb ho
    have hg := World.grows_define_of_binds (v := v) hb
    refine ⟨w.define o name.lexeme v, rfl, ?_, hg, hv.mono hg⟩
    exact hw.define hb.lt (hv.mono hg) fun hne => ⟨hw.announced o _ hne hb, ho hne⟩
  unfold writeName
  cases d with
  | some d =>
    cases ho : w.heap.frames.ownerAt? e d name.lexeme with
    | some o =>
      simp only [ho]
      exact hdefine o (binds_of_ownerAt? ho) fun _ => hn (by simp)
    | none =>
      simp only [ho]
      exact ⟨w, rfl, hw⟩
  | none =>
    cases ho : w.heap.frames.owner? Heap.globals name.lexeme with
    | some o =>
      obtain ⟨rfl, hb⟩ := owner?_globals hw ho
      exact hdefine _ hb fun hne => absurd rfl hne
    | none => exact ⟨w, rfl, hw⟩

theorem keeps_define (hw : w.Sound S) {e : FrameRef} {name : String} {v : Value} (he : e < w.heap.frames.size)
    (hv : v.Sound S (w.define e name v)) (hn : e ≠ Heap.globals → name ∈ w.names e ∧ name ≠ "this") :
    (define e name v).Keeps S (World.within e [name]) w fun w' _ => w' = w.define e name v :=
  fun _ => ⟨w.define e name v, rfl, hw.define he hv hn, World.grows_define he, rfl⟩

theorem keeps_newFrame (hw : w.Sound S) {o : FrameRef} {b : Assoc String Value} (names : List String)
    (hb : ∀ n v, Assoc.get? b n = some v → v.Sound S w ∧ n ∈ names ∧ (n = "this" → ∃ o c, v = .object o c)) :
    (newFrame o b).Keeps S World.nowhere w fun w' e => e = w.heap.frames.size ∧ w' = w.push o b names :=
  fun _ => ⟨w.push o b names, rfl, hw.push hb, World.grows_push, rfl, rfl⟩

theorem keeps_nameIn? (hw : w.Sound S) {e : FrameRef} {d : Nat} {name : String} :
    (nameIn? e d name).Keeps S P w fun w' v => ∀ u ∈ v, Value.Sound S w' u := by
  refine fun _ => ⟨w, rfl, hw, .refl w, fun u hu => ?_⟩
  obtain ⟨f, hf⟩ := value?_of_findAt? hu
  exact hw.value f name u hf

/-! ## objects -/

theorem keeps_newTag (hw : w.Sound S) : newTag.Keeps S P w fun _ _ => True :=
  let heap := { w.heap with nextTag := w.heap.nextTag + 1 }
  fun _ => ⟨{ w with heap }, rfl, hw.of_frames heap rfl hw.field, World.grows_of_frames heap rfl, trivial⟩

theorem keeps_newObject (hw : w.Sound S) {c : Class} (hc : c.Sound S w) :
    (newObject c).Keeps S P w fun w' v => c.Sound S w' ∧ ∃ o, v = .object o c := by
  have hg : w.Grows P { w with heap := w.heap.addObject } := World.grows_of_frames w.heap.addObject rfl
  refine fun _ => ⟨_, rfl, hw.of_frames w.heap.addObject rfl ?_, hg, hc.mono hg, _, rfl⟩
  intro o n v hv
  rw [World.fields_addObject] at hv
  exact hw.field o n v hv

theorem keeps_field? (hw : w.Sound S) {o : ObjectRef} {name : String} :
    (field? o name).Keeps S P w fun w' v => ∀ u ∈ v, Value.Sound S w' u :=
  fun _ => ⟨w, rfl, hw, .refl w, fun u hu => hw.field o name u hu⟩

theorem keeps_setField (hw : w.Sound S) {o : ObjectRef} {name : String} {v : Value} (hv : v.Sound S w) :
    (setField o name v).Keeps S P w fun w' _ => v.Sound S w' := by
  have hg : w.Grows P { w with heap := w.heap.setField o name v } :=
    World.grows_of_frames (w.heap.setField o name v) rfl
  refine fun _ => ⟨_, rfl, hw.of_frames (w.heap.setField o name v) rfl ?_, hg, hv.mono hg⟩
  intro o' n u hu
  rcases World.get?_fields_setField hu with rfl | hu
  · exact hv
  · exact hw.field o' n u hu

/-- A frame with one binding has what the region of its name has. -/
theorem get?_only {name : String} {v : Value} (n : String) (h : Assoc.get? (Scope.only name) n = some true) :
    (Assoc.get? [(name, v)] n).isSome := by
  simp only [Scope.only, Assoc.get?] at h ⊢
  split at h
  · next he => simp [he]
  · cases h

/-- The frame for `this` stands for a region of its own. -/
theorem keeps_bindThis (hw : w.Sound S) {method : Closure} {this : Value} (hm : method.SoundMethod S w)
    (ht : this.Sound S w) (ho : ∃ o c, this = .object o c) :
    (bindThis method this).Keeps S World.nowhere w fun w' c =>
      c.Sound S w' ∧ c.declaration = method.declaration := by
  obtain ⟨ctx, hf, hmirrors⟩ := hm
  have hb : ∀ n v, Assoc.get? [("this", this)] n = some v →
      v.Sound S w ∧ n ∈ ["this"] ∧ (n = "this" → ∃ o c, v = .object o c) := by
    intro n v hv
    simp only [Assoc.get?] at hv
    split at hv
    · next he =>
      obtain rfl := Option.some.inj hv
      exact ⟨ht, List.mem_singleton.2 he.symm, fun _ => ho⟩
    · cases hv
  refine (keeps_newFrame hw ["this"] hb).seq ?_
  rintro w' e hw' - ⟨rfl, rfl⟩
  exact keeps_pure hw' ⟨⟨_, hf, hmirrors.push get?_only⟩, rfl⟩

theorem keeps_boundMethod (hw : w.Sound S) {method : Closure} {this : Value} (hm : method.SoundMethod S w)
    (ht : this.Sound S w) (ho : ∃ o c, this = .object o c) :
    (boundMethod method this).Keeps S World.nowhere w fun w' v => v.Sound S w' := by
  refine (keeps_bindThis hw hm ht ho).seq fun w' c hw' _ hc => ?_
  refine (keeps_newTag hw').seq fun w'' t hw'' hg _ => ?_
  exact keeps_pure hw'' (hc.1.mono hg)

/-! ## the console -/

/-- A computation that leaves the heap alone keeps everything. -/
theorem keeps_of_heap (hw : w.Sound S) {x : Exec α} (hd : ∀ m a m', x m = .done a m' → m'.heap = m.heap ∧ Q w a)
    (hf : ∀ m fault m', x m = .failed fault m' → m'.heap = m.heap) : x.Keeps S P w Q := by
  intro console
  cases he : x ⟨w.heap, console⟩ with
  | done a m =>
    obtain ⟨hm, ha⟩ := hd _ _ _ he
    exact ⟨w, hm.symm, hw, .refl w, ha⟩
  | failed fault m => exact ⟨w, (hf _ _ _ he).symm, hw⟩
  | outOfFuel => trivial

theorem keeps_write (hw : w.Sound S) {s : String} : (write s).Keeps S P w fun _ _ => True := by
  refine keeps_of_heap hw (fun m a m' h => ?_) fun m fault m' h => ?_
  all_goals
    unfold write at h
    dsimp only at h
    split at h <;> cases h
    simp

theorem keeps_flush (hw : w.Sound S) : flush.Keeps S P w fun _ _ => True := by
  refine keeps_of_heap hw (fun m a m' h => ?_) fun m fault m' h => ?_
  all_goals
    unfold flush at h
    split at h <;> cases h
    simp

end Exec

/-! ## built-in functions -/

/-- A value that gives access to no closure. -/
def Value.Plain : Value → Prop
  | .function _ _ => False
  | .klass _ => False
  | .object _ _ => False
  | _ => True

theorem Value.Plain.sound {v : Value} (h : v.Plain) : v.Sound S w := by
  cases v with
  | function tag c => exact h.elim
  | klass c => exact h.elim
  | object o c => exact h.elim
  | _ => trivial

/-- A host function gives a plain value or one of its arguments: it cannot make closures. -/
def Host.Tame (f : Host) : Prop := ∀ arguments v, f arguments = .ok v → v ∈ arguments ∨ v.Plain

namespace Exec

theorem plain_timeValue {reading : Except String Float} {v : Value} (h : Builtin.timeValue reading = .ok v) :
    v.Plain := by
  cases reading with
  | ok seconds =>
    cases h
    trivial
  | error e => cases h

theorem plain_lineValue {line : List UInt8} {v : Value} (h : Builtin.lineValue line = .ok v) : v.Plain := by
  unfold Builtin.lineValue at h
  split at h
  · cases h
    trivial
  · split at h
    · cases h
      trivial
    · cases h

/-- What a built-in function gives is one of its arguments, or plain. -/
theorem mem_or_plain_of_run {hosts : Array Host} (hh : ∀ f ∈ hosts, Host.Tame f) {action : Action}
    {arguments : List Value} {c c' : Console} {v : Value} (h : action.run hosts arguments c = (.ok v, c')) :
    v ∈ arguments ∨ v.Plain := by
  unfold Action.run at h
  split at h
  · exact .inr (plain_timeValue (Prod.mk.inj h).1)
  · exact .inr (plain_lineValue (Prod.mk.inj h).1)
  · split at h <;> cases h
    exact .inr trivial
  · split at h
    · next f hf => exact hh f (Array.mem_of_getElem? hf) arguments v (Prod.mk.inj h).1
    · cases h
      exact .inr trivial

theorem keeps_runBuiltin (hw : w.Sound S) {hosts : Array Host} (hh : ∀ f ∈ hosts, Host.Tame f) {b : Builtin}
    {arguments : List Value} (ha : ∀ v ∈ arguments, v.Sound S w) {paren : Token} :
    (runBuiltin hosts b arguments paren).Keeps S P w fun w' v => v.Sound S w' := by
  refine keeps_of_heap hw (fun m a m' h => ?_) fun m fault m' h => ?_
  · unfold runBuiltin at h
    split at h
    · next v c heq =>
      cases h
      exact ⟨rfl, (mem_or_plain_of_run hh heq).elim (ha _) Value.Plain.sound⟩
    · cases h
  · unfold runBuiltin at h
    split at h
    · cases h
    · cases h
      rfl

end Exec

end ScriptLang
