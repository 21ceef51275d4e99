import ScriptLang.Proofs.Running.Likeness

/-!
# Computations that end alike

`Ending.Agree g v Q` says of the endings of two computations that began on machines alike under the view `v`: they have
values related by `Q`, or the same fault up to the renaming, and leave alike machines; or both ran out of fuel.  There
is one lemma for each computation without recursion, and one for sequences.

A host function sees the values that it is called with, but not into the code of functions (`Host.Blind`).
-/

namespace ScriptLang

variable {α β : Type} {g : Guise} {v v' : View} {m m' : Machine} {e : FrameRef}

/-- The endings of two computations that began on alike machines. -/
inductive Ending.Agree (g : Guise) (v : View) (Q : View → α → α → Prop) : Ending α → Ending α → Prop
  | done {a a' m m'} (v' : View) : v.Grows v' → m.Like g v' m' → Q v' a a' → Agree g v Q (.done a m) (.done a' m')
  | failed {f f' m m'} (v' : View) : f.Like g f' → m.Like g v' m' → Agree g v Q (.failed f m) (.failed f' m')
  | outOfFuel : Agree g v Q .outOfFuel .outOfFuel

theorem Ending.Agree.of_done {Q : View → α → α → Prop} {a : α} {x : Ending α} (h : (Ending.done a m).Agree g v Q x) :
    ∃ a' m' v', x = .done a' m' ∧ v.Grows v' ∧ m.Like g v' m' ∧ Q v' a a' := by
  cases h with
  | done v' hg hm ha => exact ⟨_, _, v', rfl, hg, hm, ha⟩

namespace Exec

variable {Q R : View → α → α → Prop}

theorem agree_weaken {x x' : Ending α} (h : x.Agree g v Q x') (hq : ∀ v' a a', Q v' a a' → R v' a a') :
    x.Agree g v R x' := by
  cases h with
  | done v' hg hm ha => exact .done v' hg hm (hq _ _ _ ha)
  | failed v' hf hm => exact .failed v' hf hm
  | outOfFuel => exact .outOfFuel

theorem agree_bind {S : View → β → β → Prop} {x x' : Exec α} {f f' : α → Exec β} (hx : (x m).Agree g v Q (x' m'))
    (hf : ∀ v' a a' m₁ m₁', v.Grows v' → m₁.Like g v' m₁' → Q v' a a' → (f a m₁).Agree g v' S (f' a' m₁')) :
    ((x >>= f) m).Agree g v S ((x' >>= f') m') := by
  show (andThen x f m).Agree g v S (andThen x' f' m')
  unfold andThen
  revert hx
  generalize x m = y
  generalize x' m' = y'
  intro hx
  cases hx with
  | @done a a' m₁ m₁' v₁ hg₁ hm₁ ha =>
    have hend := hf v₁ a a' m₁ m₁' hg₁ hm₁ ha
    show (f a m₁).Agree g v S (f' a' m₁')
    revert hend
    generalize f a m₁ = z
    generalize f' a' m₁' = z'
    intro hend
    cases hend with
    | done v₂ hg₂ hm₂ hb => exact .done v₂ (hg₁.trans hg₂) hm₂ hb
    | failed v₂ hfault hm₂ => exact .failed v₂ hfault hm₂
    | outOfFuel => exact .outOfFuel
  | failed v₁ hfault hm₁ => exact .failed v₁ hfault hm₁
  | outOfFuel => exact .outOfFuel

/-! ## endings -/

theorem agree_pure (hm : m.Like g v m') {a a' : α} (hq : Q v a a') :
    ((pure a : Exec α) m).Agree g v Q ((pure a' : Exec α) m') :=
  .done v (.refl v) hm hq

theorem agree_fail (hm : m.Like g v m') {t t' : Token} {b : Bool} (ht : t.Like g b t') (cause : RuntimeFault) :
    ((fail t cause : Exec α) m).Agree g v Q ((fail t' (cause.renamed (g.name b)) : Exec α) m') :=
  .failed v (.runtime b ht) hm

/-- The result of an operator, which is the same on both sides. -/
theorem agree_ofResult (hm : m.Like g v m') {t t' : Token} (ht : t.Like g false t') {r : Except RuntimeFault α}
    (hn : ∀ name, r ≠ .error (.undefinedVariable name)) (hq : ∀ a, r = .ok a → Q v a a) :
    (ofResult t r m).Agree g v Q (ofResult t' r m') := by
  cases r with
  | ok a => exact agree_pure hm (hq a rfl)
  | error cause =>
    have hcause : cause.renamed (g.name false) = cause := by
      cases cause with
      | undefinedVariable name => exact absurd rfl (hn name)
      | _ => rfl
    have hfail := agree_fail (Q := Q) hm ht cause
    rw [hcause] at hfail
    exact hfail

/-! ## names -/

/-- What is found for a name, or the fault that it is undefined. -/
theorem agree_found (hm : m.Like g v m') {name name' : Token} {b : Bool} (hn : name.Like g b name')
    {found found' : Option Value} (h : Option.Rel (Value.Like g v) found found') :
    Ending.Agree g v (fun v' => Value.Like g v')
      (match Frames.orUndefined name found with
        | .ok a => .done a m
        | .error report => .failed (.runtime report) m)
      (match Frames.orUndefined name' found' with
        | .ok a => .done a m'
        | .error report => .failed (.runtime report) m') := by
  cases h with
  | some ha => exact .done v (.refl v) hm ha
  | none =>
    have hfault := agree_fail (α := Value) (Q := fun v' => Value.Like g v') hm hn (.undefinedVariable name.lexeme)
    simp only [RuntimeFault.renamed, ← hn.lexeme] at hfault
    exact hfault

theorem agree_readName (hm : m.Like g v m') {d : Option Nat} {name name' : Token}
    (hn : name.Like g ((v.mask e).at d) name') :
    (readName d e name m).Agree g v (fun v' => Value.Like g v') (readName d e name' m') := by
  cases d with
  | some d =>
    have hfound := hm.heap.findAt? (e := e) d name.lexeme
    rw [show g.name (v.mask e d) name.lexeme = name'.lexeme from hn.lexeme.symm] at hfound
    exact agree_found hm hn hfound
  | none =>
    have hfound := hm.heap.find?_globals name.lexeme
    have hname : name'.lexeme = name.lexeme := hn.lexeme
    refine agree_found hm hn ?_
    rw [hname]
    exact hfound

theorem agree_define (hm : m.Like g v m') {name name' : String} (hn : name' = g.name (v.mask e 0) name) {a a' : Value}
    (ha : a.Like g v a') :
    (define e name a m).Agree g v (fun v' _ _ => v' = v) (define e name' a' m') := by
  subst hn
  exact .done v (.refl v) ⟨hm.heap.define ha, hm.console⟩ rfl

theorem agree_writeName (hm : m.Like g v m') {d : Option Nat} {name name' : Token}
    (hn : name.Like g ((v.mask e).at d) name') {a a' : Value} (ha : a.Like g v a') :
    (writeName d e name a m).Agree g v (fun v' _ _ => v' = v) (writeName d e name' a' m') := by
  have hdefine : ∀ o, v.mask o 0 = (v.mask e).at d → Ending.Agree g v (fun v' (_ _ : Unit) => v' = v)
      (.done () { m with heap := m.heap.define o name.lexeme a })
      (.done () { m' with heap := m'.heap.define o name'.lexeme a' }) := by
    intro o ho
    rw [hn.lexeme, ← ho]
    exact .done v (.refl v) ⟨hm.heap.define ha, hm.console⟩ rfl
  have hfault := agree_fail (α := Unit) (Q := fun v' _ _ => v' = v) hm hn (.undefinedVariable name.lexeme)
  simp only [RuntimeFault.renamed, ← hn.lexeme] at hfault
  unfold writeName
  cases d with
  | some d =>
    have howner := hm.heap.ownerAt? (e := e) d name.lexeme
    rw [show g.name (v.mask e d) name.lexeme = name'.lexeme from hn.lexeme.symm] at howner
    simp only [howner]
    cases hf : m.heap.frames.ownerAt? e d name.lexeme with
    | none => exact hfault
    | some o =>
      refine hdefine o (hm.heap.mask_ancestor? ?_)
      exact (Option.filter_eq_some_iff.1 hf).1
  | none =>
    have hname : name'.lexeme = name.lexeme := hn.lexeme
    have howner := hm.heap.owner?_globals name.lexeme
    simp only [hname, howner]
    rw [hname] at hdefine
    cases hf : m.heap.frames.owner? Heap.globals name.lexeme with
    | none => exact hfault
    | some o =>
      obtain rfl := hm.heap.owner?_eq hf
      exact hdefine _ hm.heap.clear

/-- A new frame, of which the names may be renamed. -/
theorem agree_newFrame (hm : m.Like g v m') {o : FrameRef} (ho : o < v.size) (b : Bool) {bs bs' : Assoc String Value}
    (hb : Assoc.Related (g.name b) (Value.Like g v) bs bs') :
    (newFrame o bs m).Agree g v (fun v' e e' => e' = e ∧ e < v'.size ∧ v'.mask e = .cons b (v.mask o))
      (newFrame o bs' m') := by
  refine .done _ View.grows_push ⟨hm.heap.addFrame ho b hb, hm.console⟩ ⟨hm.heap.frames, ?_, ?_⟩
  · rw [hm.heap.size]
    exact Nat.lt_succ_self _
  · rw [hm.heap.size]
    exact View.mask_push

theorem agree_nameIn?_this (hm : m.Like g v m') {d : Nat} :
    (nameIn? e d "this" m).Agree g v (fun v' a a' => v' = v ∧ Option.Rel (Value.Like g v') a a')
      (nameIn? e d "this" m') := by
  have hfound := hm.heap.findAt? (e := e) d "this"
  rw [g.name_this] at hfound
  exact .done v (.refl v) hm ⟨rfl, hfound⟩

/-! ## objects -/

theorem agree_newTag (hm : m.Like g v m') :
    (newTag m).Agree g v (fun v' t t' => v' = v ∧ t' = t) (newTag m') :=
  .done v (.refl v) ⟨hm.heap.nextTag, hm.console⟩ ⟨rfl, hm.heap.tag⟩

theorem agree_newObject (hm : m.Like g v m') {c c' : Class} (hc : Value.Like g v (.klass c) (.klass c')) :
    (newObject c m).Agree g v (fun v' => Value.Like g v') (newObject c' m') := by
  refine .done v (.refl v) ⟨hm.heap.addObject, hm.console⟩ ?_
  rw [hm.heap.objects]
  cases hc with
  | klass hc => exact .object hc

theorem agree_field? (hm : m.Like g v m') {o : ObjectRef} {name : String} :
    (field? o name m).Agree g v (fun v' a a' => v' = v ∧ Option.Rel (Value.Like g v') a a') (field? o name m') :=
  .done v (.refl v) hm ⟨rfl, (hm.heap.fields o).get? Function.injective_id name⟩

theorem agree_setField (hm : m.Like g v m') {o : ObjectRef} {name : String} {a a' : Value} (ha : a.Like g v a') :
    (setField o name a m).Agree g v (fun v' _ _ => v' = v) (setField o name a' m') :=
  .done v (.refl v) ⟨hm.heap.setField ha, hm.console⟩ rfl

theorem agree_bindThis (hm : m.Like g v m') {c c' : Closure} (hc : c.LikeUnder g v (Mask.cons false) c') {a a' : Value}
    (ha : a.Like g v a') :
    (bindThis c a m).Agree g v (fun v' c c' => c.LikeUnder g v' id c') (bindThis c' a' m') := by
  unfold bindThis
  have hbound : Assoc.Related (g.name false) (Value.Like g v) [("this", a)] [("this", a')] :=
    .cons ⟨(g.name_this false).symm, ha⟩ .nil
  have hframe := agree_newFrame hm hc.lt false hbound
  rw [hc.frame]
  refine agree_bind hframe fun v₁ f f' m₁ m₁' hg₁ hm₁ hq => ?_
  obtain ⟨rfl, hlt, hmask⟩ := hq
  refine agree_pure hm₁ ⟨rfl, hc.initializer, hlt, ?_⟩
  show FunctionDecl.Like g (v₁.mask f') _ _
  rw [hmask]
  exact hc.code

theorem agree_boundMethod (hm : m.Like g v m') {c c' : Closure} (hc : c.LikeUnder g v (Mask.cons false) c')
    {a a' : Value} (ha : a.Like g v a') :
    (boundMethod c a m).Agree g v (fun v' => Value.Like g v') (boundMethod c' a' m') := by
  refine agree_bind (agree_bindThis hm hc ha) fun v₁ c c' m₁ m₁' _ hm₁ hc₁ => ?_
  refine agree_bind (agree_newTag hm₁) fun v₂ t t' m₂ m₂' _ hm₂ hq => ?_
  obtain ⟨rfl, rfl⟩ := hq
  exact agree_pure hm₂ (.function hc₁)

theorem agree_getProperty (hm : m.Like g v m') {o : ObjectRef} {c c' : Class}
    (hc : Value.Like g v (.object o c) (.object o c')) {name name' : Token} (hn : name.Like g false name') :
    (getProperty o c name m).Agree g v (fun v' => Value.Like g v') (getProperty o c' name' m') := by
  have hlexeme : name'.lexeme = name.lexeme := hn.lexeme
  unfold getProperty
  rw [hlexeme]
  refine agree_bind (agree_field? hm) fun v₁ a a' m₁ m₁' _ hm₁ hq => ?_
  obtain ⟨rfl, ha⟩ := hq
  cases ha with
  | some ha => exact agree_pure hm₁ ha
  | none =>
    cases hc with
    | object hclass =>
      have hmethod := hclass.method? name.lexeme
      revert hmethod
      cases c.method? name.lexeme <;> cases c'.method? name.lexeme <;> intro hmethod <;> cases hmethod
      · exact agree_fail hm₁ hn (.undefinedProperty name.lexeme)
      · next hmethod => exact agree_boundMethod hm₁ hmethod (.object hclass)

theorem agree_getSuper (hm : m.Like g v m') {d : Option Nat} {keyword keyword' name name' : Token}
    (hk : keyword.Like g ((v.mask e).at d) keyword') (hn : name.Like g false name') :
    (getSuper d e keyword name m).Agree g v (fun v' => Value.Like g v') (getSuper d e keyword' name' m') := by
  have hlexeme : name'.lexeme = name.lexeme := hn.lexeme
  unfold getSuper
  cases d with
  | none =>
    have hfail := agree_fail (α := Value) (Q := fun v' => Value.Like g v') hm hk (.undefinedVariable "super")
    simp only [RuntimeFault.renamed, g.name_super] at hfail
    exact hfail
  | some d =>
    refine agree_bind (agree_readName hm hk) fun v₁ a a' m₁ m₁' _ hm₁ ha => ?_
    cases ha with
    | @klass parent parent' hparent =>
      refine agree_bind (agree_nameIn?_this hm₁) fun v₂ this this' m₂ m₂' _ hm₂ hq => ?_
      obtain ⟨rfl, hthis⟩ := hq
      have hfail := agree_fail (α := Value) (Q := fun v' => Value.Like g v') hm₂ hk (.undefinedVariable "this")
      simp only [RuntimeFault.renamed, g.name_this] at hfail
      cases hthis with
      | none => exact hfail
      | some hthis =>
        cases hthis with
        | @object o c c' hclass =>
          have hmethod := hparent.method? name.lexeme
          simp only [hlexeme]
          revert hmethod
          cases parent.method? name.lexeme <;> cases parent'.method? name.lexeme <;> intro hmethod <;> cases hmethod
          · exact agree_fail hm₂ hn (.undefinedProperty name.lexeme)
          · next hmethod => exact agree_boundMethod hm₂ hmethod (.object hclass)
        | _ => exact hfail
    | _ => exact agree_fail hm₁ hk .superclassNotClass

/-! ## the console -/

theorem agree_write (hm : m.Like g v m') {s : String} : (write s m).Agree g v (fun _ _ _ => True) (write s m') := by
  unfold write
  simp only [hm.console]
  split
  · exact .done v (.refl v) ⟨hm.heap, rfl⟩ trivial
  · exact .failed v .output ⟨hm.heap, rfl⟩

theorem agree_flush (hm : m.Like g v m') : (flush m).Agree g v (fun _ _ _ => True) (flush m') := by
  unfold flush
  rw [hm.console]
  split
  · exact .failed v .output hm
  · exact .done v (.refl v) hm trivial

theorem agree_print (hm : m.Like g v m') {keyword keyword' : Token} (hk : keyword.Like g false keyword') {a a' : Value}
    (ha : a.Like g v a') : (print keyword a m).Agree g v (fun _ _ _ => True) (print keyword' a' m') := by
  have hdisplay := ha.display
  cases ha with
  | @string raw =>
    simp only [print]
    cases Text.unescape raw with
    | ok s => exact agree_write hm
    | error c => exact agree_fail hm hk (.invalidEscape c)
  | _ =>
    simp only [print]
    rw [hdisplay]
    exact agree_write hm

end Exec

/-- All but the code of two functions is the same. -/
structure Closure.SameFace (c c' : Closure) : Prop where
  frame : c'.frame = c.frame
  initializer : c'.isInitializer = c.isInitializer
  name : c'.name = c.name
  arity : c'.arity = c.arity

/-- A host function that does not see into the code of functions: from arguments that differ in nothing else it gives
the same message, the same plain value, or the same of its arguments. -/
def Host.Blind (f : Host) : Prop :=
  ∀ as as', List.Forall₂ (Value.Alike Closure.SameFace Closure.SameFace) as as' →
    (∃ message, f as = .error message ∧ f as' = .error message) ∨
      ∃ a a', f as = .ok a ∧ f as' = .ok a' ∧ (a.Plain ∧ a' = a ∨ ∃ i : Nat, as[i]? = some a ∧ as'[i]? = some a')

theorem Closure.LikeUnder.sameFace {wrap : Mask → Mask} {c c' : Closure} (h : c.LikeUnder g v wrap c') :
    c.SameFace c' :=
  ⟨h.frame, h.initializer, h.name, h.arity⟩

/-- The seconds to wait are read off a plain value or the name of a type. -/
theorem waitTime_eq {as as' : List Value} (h : List.Forall₂ (Value.Like g v) as as') :
    Builtin.waitTime as' = Builtin.waitTime as := by
  cases h with
  | nil => rfl
  | cons ha _ =>
    have htype := Value.Alike.typeName ha
    cases ha with
    | number => rfl
    | _ => simp only [Builtin.waitTime, htype]

/-- Two results of a built-in function are alike. -/
inductive Builtin.ResultLike (g : Guise) (v : View) : Except String Value → Except String Value → Prop
  | ok {a a'} : Value.Like g v a a' → ResultLike g v (.ok a) (.ok a')
  | error {message} : ResultLike g v (.error message) (.error message)

/-- A plain result is like itself, and so is a fault. -/
theorem Builtin.ResultLike.of_plain {r : Except String Value} (h : ∀ {a}, r = .ok a → a.Plain) :
    ResultLike g v r r := by
  cases r with
  | ok a => exact .ok (h rfl).alike
  | error message => exact .error

theorem Host.Blind.resultLike {f : Host} (hf : f.Blind) {as as' : List Value}
    (ha : List.Forall₂ (Value.Like g v) as as') : Builtin.ResultLike g v (f as) (f as') := by
  have hface : List.Forall₂ (Value.Alike Closure.SameFace Closure.SameFace) as as' :=
    ha.imp fun _ _ h => Value.Alike.mono h (fun _ _ hc => hc.sameFace) fun _ _ hc => hc.sameFace
  rcases hf as as' hface with ⟨message, h, h'⟩ | ⟨a, a', h, h', ⟨hplain, rfl⟩ | ⟨i, hi, hi'⟩⟩
  · rw [h, h']
    exact .error
  · rw [h, h']
    exact .ok hplain.alike
  · rw [h, h']
    obtain ⟨hlt, rfl⟩ := List.getElem?_eq_some_iff.1 hi
    obtain ⟨hlt', rfl⟩ := List.getElem?_eq_some_iff.1 hi'
    exact .ok (ha.get hlt hlt')

/-- A built-in function gives alike results and leaves the same console. -/
theorem Action.exists_run {hosts : Array Host} (hh : ∀ f ∈ hosts, Host.Blind f) (action : Action) {as as' : List Value}
    (ha : List.Forall₂ (Value.Like g v) as as') (c : Console) :
    ∃ r r' c', action.run hosts as c = (r, c') ∧ action.run hosts as' c = (r', c') ∧ Builtin.ResultLike g v r r' := by
  cases action with
  | clock => exact ⟨_, _, _, rfl, rfl, .of_plain Exec.plain_timeValue⟩
  | read => exact ⟨_, _, _, rfl, rfl, .of_plain Exec.plain_lineValue⟩
  | wait =>
    have htime := waitTime_eq ha
    cases hw : Builtin.waitTime as with
    | ok seconds =>
      rw [hw] at htime
      exact ⟨.ok .nil, .ok .nil, c.wait seconds, by simp [run, hw], by simp [run, htime], .ok .nil⟩
    | error message =>
      rw [hw] at htime
      exact ⟨.error message, .error message, c, by simp [run, hw], by simp [run, htime], .error⟩
  | host position =>
    cases hf : hosts[position]? with
    | none => exact ⟨.ok .nil, .ok .nil, c, by simp [run, hf], by simp [run, hf], .ok .nil⟩
    | some f =>
      have hblind := hh f (Array.mem_of_getElem? hf)
      exact ⟨f as, f as', c, by simp [run, hf], by simp [run, hf], hblind.resultLike ha⟩

namespace Exec

theorem agree_runBuiltin (hm : m.Like g v m') {hosts : Array Host} (hh : ∀ f ∈ hosts, Host.Blind f) {b : Builtin}
    {as as' : List Value} (ha : List.Forall₂ (Value.Like g v) as as') {paren paren' : Token}
    (hp : paren.Like g false paren') :
    (runBuiltin hosts b as paren m).Agree g v (fun v' => Value.Like g v') (runBuiltin hosts b as' paren' m') := by
  unfold runBuiltin
  rw [hm.console]
  obtain ⟨r, r', c, hr, hr', hlike⟩ := b.action.exists_run hh ha m.console
  rw [hr, hr']
  cases hlike with
  | ok ha => exact .done v (.refl v) ⟨hm.heap, rfl⟩ ha
  | error => exact .failed v (.runtime false hp) ⟨hm.heap, rfl⟩

/-! ## calls and classes -/

theorem agree_checkArity (hm : m.Like g v m') {paren paren' : Token} (hp : paren.Like g false paren')
    {expected got : Nat} :
    (checkArity paren expected got m).Agree g v (fun v' _ _ => v' = v) (checkArity paren' expected got m') := by
  unfold checkArity
  split
  · exact agree_pure hm rfl
  · exact agree_fail hm hp (.arity expected got)

theorem agree_asSuperclass (hm : m.Like g v m') {name name' : Token} (hn : name.Like g false name') {Γ : Mask}
    {x x' : Expr} (hx : x.Like g Γ x') {a a' : Value} (ha : a.Like g v a') :
    (asSuperclass name x a m).Agree g v (fun v' c c' => Value.Like g v' (.klass c) (.klass c'))
      (asSuperclass name' x' a' m') := by
  cases ha with
  | klass hc => exact agree_pure hm (.klass hc)
  | _ =>
    cases hx with
    | «variable» _ hother => exact agree_fail hm hother .superclassNotClass
    | _ => exact agree_fail hm hn .superclassNotClass

/-- The methods of a class, closed over one frame. -/
theorem related_methodTable {Γ : Mask} {ms ms' : List FunctionDecl} (h : FunctionDecl.LikeAll g Γ ms ms')
    (he : e < v.size) (hΓ : Γ = .cons false (v.mask e)) :
    Assoc.Related id (Closure.LikeUnder g v (Mask.cons false)) (methodTable e ms) (methodTable e ms') := by
  refine Assoc.Related.setAll .nil Function.injective_id ?_
  induction ms generalizing ms' with
  | nil =>
    cases h
    exact .nil
  | cons d ds ih =>
    cases h with
    | cons hd hds =>
      have hname : _ = d.name.lexeme := hd.name.lexeme
      refine .cons ⟨hname, ⟨rfl, ?_, he, hΓ ▸ hd⟩⟩ (ih hds)
      simp only [FunctionDecl.isInit, hname]

theorem agree_makeClass (hm : m.Like g v m') (he : e < v.size) {name name' : Token} (hn : name.Like g false name')
    (hkept : g.name (v.mask e 0) name.lexeme = name.lexeme) {parent parent' : Option Class}
    (hp : Option.Rel (fun c c' => Value.Like g v (.klass c) (.klass c')) parent parent') {ms ms' : List FunctionDecl}
    (hms : FunctionDecl.LikeAll g (.cons false (if parent.isSome then .cons false (v.mask e) else v.mask e)) ms ms') :
    (makeClass e name parent ms m).Agree g v (fun _ _ _ => True) (makeClass e name' parent' ms' m') := by
  have hlexeme : name'.lexeme = name.lexeme := hn.lexeme
  unfold makeClass
  rw [hlexeme]
  have hrest : ∀ v₁ m₁ m₁' inner, v.Grows v₁ → m₁.Like g v₁ m₁' → inner < v₁.size →
      v₁.mask inner = (if parent.isSome then .cons false (v.mask e) else v.mask e) →
      ((do
        let t ← newTag
        define e name.lexeme (.klass (.mk t name.lexeme parent (methodTable inner ms))) : Exec Unit) m₁).Agree g v₁
        (fun _ _ _ => True)
        ((do
          let t ← newTag
          define e name.lexeme (.klass (.mk t name.lexeme parent' (methodTable inner ms'))) : Exec Unit) m₁') := by
    intro v₁ m₁ m₁' inner hg hm₁ hlt hmask
    refine agree_bind (agree_newTag hm₁) fun v₂ t t' m₂ m₂' _ hm₂ hq => ?_
    obtain ⟨rfl, rfl⟩ := hq
    have htable := related_methodTable (v := v₂) hms hlt (by rw [hmask])
    have hclass : Value.Like g v₂ (.klass (.mk t' name.lexeme parent (methodTable inner ms)))
        (.klass (.mk t' name.lexeme parent' (methodTable inner ms'))) := by
      cases hp with
      | none => exact .klass (.base htable)
      | some hc =>
        cases hc.mono hg with
        | klass hc => exact .klass (.derived hc htable)
    refine agree_weaken (agree_define hm₂ ?_ hclass) fun _ _ _ _ => trivial
    rw [hg.mask e he, hkept]
  refine agree_bind (agree_define hm hkept.symm .nil) fun v₁ _ _ m₁ m₁' _ hm₁ hv => ?_
  subst hv
  cases hp with
  | none =>
    have hpure := agree_pure (Q := fun v' a a' => v' = v₁ ∧ a = e ∧ a' = e) hm₁ ⟨rfl, rfl, rfl⟩
    refine agree_bind hpure fun v₂ inner inner' m₂ m₂' _ hm₂ hq => ?_
    obtain ⟨rfl, rfl, rfl⟩ := hq
    exact hrest _ m₂ m₂' _ (.refl _) hm₂ he rfl
  | @some c c' hc =>
    have hbound : Assoc.Related (g.name false) (Value.Like g v₁) [("super", .klass c)] [("super", .klass c')] :=
      .cons ⟨(g.name_super false).symm, hc⟩ .nil
    refine agree_bind (agree_newFrame hm₁ he false hbound) fun v₂ inner inner' m₂ m₂' hg₂ hm₂ hq => ?_
    obtain ⟨rfl, hlt, hmask⟩ := hq
    exact hrest v₂ m₂ m₂' _ hg₂ hm₂ hlt hmask

/-- The body of a call is alike under the mask of its frame. -/
theorem agree_callFrame (hm : m.Like g v m') {c c' : Closure} (hc : c.LikeUnder g v id c') {as as' : List Value}
    (ha : List.Forall₂ (Value.Like g v) as as') :
    (callFrame c as m).Agree g v
      (fun v' e e' => e' = e ∧ e < v'.size ∧ Stmt.LikeAll g (v'.mask e) c.declaration.body c'.declaration.body)
      (callFrame c' as' m') := by
  obtain ⟨d, f, i⟩ := c
  obtain ⟨d', f', i'⟩ := c'
  obtain rfl : f' = f := hc.frame
  have hcode := hc.code
  have hlt : f' < v.size := hc.lt
  cases hcode with
  | @mk _ name name' params params' body body' b _ hparams hbody =>
    have hzip : List.Forall₂ (fun p p' => p'.1 = g.name b p.1 ∧ Value.Like g v p.2 p'.2)
        ((params.map Token.lexeme).zip as) ((params'.map Token.lexeme).zip as') := by
      clear hc hbody
      induction hparams generalizing as as' with
      | nil => exact .nil
      | cons hp _ ih =>
        cases ha with
        | nil => exact .nil
        | cons ha has => exact .cons ⟨hp.lexeme, ha⟩ (ih has)
    have hbound := Assoc.Related.setAll .nil (g.name_injective b) hzip
    refine agree_weaken (agree_newFrame hm hlt b hbound) fun v' e e' hq => ?_
    obtain ⟨rfl, hlt', hmask⟩ := hq
    exact ⟨rfl, hlt', hmask ▸ hbody⟩

theorem agree_callResult (hm : m.Like g v m') {c c' : Closure} (hf : c'.frame = c.frame)
    (hi : c'.isInitializer = c.isInitializer) {flow flow' : Flow} (hflow : flow.Like g v flow') :
    (callResult c flow m).Agree g v (fun v' => Value.Like g v') (callResult c' flow' m') := by
  unfold callResult
  rw [hf, hi]
  split
  · refine agree_bind (agree_nameIn?_this hm) fun v₁ a a' m₁ m₁' _ hm₁ hq => ?_
    obtain ⟨rfl, ha⟩ := hq
    cases ha with
    | some ha => exact agree_pure hm₁ ha
    | none => exact agree_pure hm₁ .nil
  · cases hflow with
    | returned ha => exact agree_pure hm ha
    | _ => exact agree_pure hm .nil

end Exec

end ScriptLang
