import ScriptLang.Proofs.Running.Bridge
import ScriptLang.Proofs.Running.Preservation

/-!
# Computations that meet over a bridge

`Ending.Meets σ σ' p β Q` says of the endings of two computations that began on machines joined by the bridge `β`: they
have values related by `Q`, or the same fault, and leave machines joined by a later bridge; or one of them ran out of
fuel, which one is allowed to by the `Pace` of the two.  There is one lemma for each computation without recursion, and
one for sequences.

A host function sees neither the frames nor the code of the functions it is called with (`Host.Shallow`).
-/

namespace ScriptLang

/-! ## pace -/

/-- Which of two runs may be short of fuel. -/
inductive Pace
  | first
  | second

/-- The fuel of two runs.  One that the first run spends on a round of a loop may cost the second five: it runs a block
with two statements.  `spare` is what the second has beyond that. -/
def Pace.Allows : Pace → Nat → Nat → Nat → Prop
  | first, spare, n, k => 5 * n + spare ≤ k
  | second, _, n, k => k ≤ n

namespace Pace.Allows

variable {p : Pace} {spare n k : Nat}

theorem weaken (h : p.Allows spare n k) : p.Allows 0 n k := by
  cases p with
  | first => exact Nat.le_trans (Nat.le_add_right _ _) h
  | second => exact h

/-- A step of the second run uses up what it has to spare. -/
theorem step (h : p.Allows (spare + 1) n (k + 1)) : p.Allows spare n k := by
  cases p with
  | first => exact Nat.le_of_succ_le_succ h
  | second => exact Nat.le_of_succ_le h

/-- A step of both runs gives the second something to spare. -/
theorem both (h : p.Allows 0 (n + 1) (k + 1)) : p.Allows 4 n k := by
  cases p with
  | first =>
    unfold Allows at h ⊢
    omega
  | second => exact Nat.le_of_succ_le_succ h

/-- Only the second of two runs may have too little. -/
theorem second_of_lt (h : p.Allows spare n k) (hk : k < 5 * n + spare) : p = .second := by
  cases p with
  | first => exact absurd h (Nat.not_le_of_lt hk)
  | second => rfl

end Pace.Allows

/-! ## endings -/

/-- The endings of two computations that began on machines joined by a bridge. -/
inductive Ending.Meets {α : Type} (σ σ' : Setting) (p : Pace) (β : Bridge) (Q : Bridge → α → α → Prop) :
    Ending α → Ending α → Prop
  | done {a a' m m'} (β' : Bridge) : β.Grows β' → m.Bridged σ σ' β' m' → Q β' a a' →
      Meets σ σ' p β Q (.done a m) (.done a' m')
  | failed {f m m'} (β' : Bridge) : m.Bridged σ σ' β' m' → Meets σ σ' p β Q (.failed f m) (.failed f m')
  | early {x} : p = .first → Meets σ σ' p β Q .outOfFuel x
  | late {x} : p = .second → Meets σ σ' p β Q x .outOfFuel

/-- How two statements ended; by `continue` only where `b` says so. -/
inductive Flow.Bridged (σ σ' : Setting) (b : Bool) (β : Bridge) : Flow → Flow → Prop
  | normal : Bridged σ σ' b β .normal .normal
  | returned {a a'} : Value.Bridged σ σ' β a a' → Bridged σ σ' b β (.returned a) (.returned a')
  | broken : Bridged σ σ' b β .broken .broken
  | continued : b = true → Bridged σ σ' b β .continued .continued

variable {α γ : Type} {σ σ' : Setting} {p : Pace} {β β' : Bridge} {m m' : Machine} {level : Bool} {δ : Shift}
  {o e : FrameRef}

theorem Flow.Bridged.weaken {b b' : Bool} {flow flow' : Flow} (h : flow.Bridged σ σ' b β flow')
    (hb : b = true → b' = true) : flow.Bridged σ σ' b' β flow' := by
  cases h with
  | normal => exact .normal
  | returned ha => exact .returned ha
  | broken => exact .broken
  | continued hc => exact .continued (hb hc)

theorem Flow.Bridged.result {b : Bool} {flow flow' : Flow} (h : flow.Bridged σ σ' b β flow') :
    flow.result.Bridged σ σ' β flow'.result := by
  cases h with
  | returned ha => exact ha
  | _ => exact .nil

namespace Exec

variable {Q R : Bridge → α → α → Prop}

theorem meets_weaken {x x' : Ending α} (h : x.Meets σ σ' p β Q x') (hq : ∀ β' a a', Q β' a a' → R β' a a') :
    x.Meets σ σ' p β R x' := by
  cases h with
  | done β' hg hm ha => exact .done β' hg hm (hq _ _ _ ha)
  | failed β' hm => exact .failed β' hm
  | early hp => exact .early hp
  | late hp => exact .late hp

/-- What holds from a later bridge on holds from an earlier one on. -/
theorem meets_from {x x' : Ending α} (hg : β.Grows β') (h : x.Meets σ σ' p β' Q x') : x.Meets σ σ' p β Q x' := by
  cases h with
  | done β'' hg' hm ha => exact .done β'' (hg.trans hg') hm ha
  | failed β'' hm => exact .failed β'' hm
  | early hp => exact .early hp
  | late hp => exact .late hp

theorem meets_bind {S : Bridge → γ → γ → Prop} {x x' : Exec α} {f f' : α → Exec γ}
    (hx : (x m).Meets σ σ' p β Q (x' m'))
    (hf : ∀ β' a a' m₁ m₁', β.Grows β' → m₁.Bridged σ σ' β' m₁' → Q β' a a' →
      (f a m₁).Meets σ σ' p β' S (f' a' m₁')) :
    ((x >>= f) m).Meets σ σ' p β S ((x' >>= f') m') := by
  show (andThen x f m).Meets σ σ' p β S (andThen x' f' m')
  unfold andThen
  revert hx
  generalize x m = y
  generalize x' m' = y'
  intro hx
  cases hx with
  | done β₁ hg₁ hm₁ ha => exact meets_from hg₁ (hf β₁ _ _ _ _ hg₁ hm₁ ha)
  | failed β₁ hm₁ => exact .failed β₁ hm₁
  | early hp => exact .early hp
  | late hp => exact .late hp

/-- The second computation may have no fuel to begin with. -/
theorem meets_late {x : Ending α} {x' : Exec γ} {f' : γ → Exec α} (hp : p = .second) (hx : x' = outOfFuel) :
    x.Meets σ σ' p β Q ((x' >>= f') m') := by
  rw [hx]
  exact .late hp

theorem meets_pure (hm : m.Bridged σ σ' β m') {a a' : α} (hq : Q β a a') :
    ((pure a : Exec α) m).Meets σ σ' p β Q ((pure a' : Exec α) m') :=
  .done β (.refl β) hm hq

theorem meets_fail (hm : m.Bridged σ σ' β m') (t : Token) (cause : RuntimeFault) :
    ((fail t cause : Exec α) m).Meets σ σ' p β Q ((fail t cause : Exec α) m') :=
  .failed β hm

/-- The result of an operator, which is the same on both sides. -/
theorem meets_ofResult (hm : m.Bridged σ σ' β m') (t : Token) {r : Except RuntimeFault α}
    (hq : ∀ a, r = .ok a → Q β a a) : (ofResult t r m).Meets σ σ' p β Q (ofResult t r m') := by
  cases r with
  | ok a => exact meets_pure hm (hq a rfl)
  | error cause => exact meets_fail hm t cause

/-! ## names -/

/-- What is found for a name, or the fault that it is undefined. -/
theorem meets_found (hm : m.Bridged σ σ' β m') (name : Token) {found found' : Option Value}
    (h : Option.Rel (Value.Bridged σ σ' β) found found') :
    Ending.Meets σ σ' p β (Value.Bridged σ σ')
      (match Frames.orUndefined name found with
        | .ok a => .done a m
        | .error report => .failed (.runtime report) m)
      (match Frames.orUndefined name found' with
        | .ok a => .done a m'
        | .error report => .failed (.runtime report) m') := by
  cases h with
  | some ha => exact .done β (.refl β) hm ha
  | none => exact .failed β hm

theorem meets_readName (hm : m.Bridged σ σ' β m') (ht : β.Ties level δ o e) (d : Option Nat) (name : Token) :
    (readName d o name m).Meets σ σ' p β (Value.Bridged σ σ') (readName (d.map δ) e name m') := by
  obtain ⟨hlt, rfl, rfl, -⟩ := ht
  cases d with
  | some d => exact meets_found hm name (hm.heap.findAt? hlt d name.lexeme)
  | none => exact meets_found hm name (hm.heap.find?_globals name.lexeme)

theorem meets_define (hm : m.Bridged σ σ' β m') (ht : β.Ties true δ o e) (name : String) {a a' : Value}
    (ha : a.Bridged σ σ' β a') :
    (define o name a m).Meets σ σ' p β (fun β' _ _ => β' = β) (define e name a' m') := by
  have hheap := hm.heap.define ht.lt_size name ha
  rw [ht.own rfl] at hheap
  exact .done β (.refl β) ⟨hheap, hm.console⟩ rfl

theorem meets_writeName (hm : m.Bridged σ σ' β m') (ht : β.Ties level δ o e) (d : Option Nat) (name : Token)
    {a a' : Value} (ha : a.Bridged σ σ' β a') :
    (writeName d o name a m).Meets σ σ' p β (fun β' _ _ => β' = β) (writeName (d.map δ) e name a' m') := by
  have hwrite : ∀ f < β.size, Ending.Meets σ σ' p β (fun β' (_ _ : Unit) => β' = β)
      (.done () { m with heap := m.heap.define f name.lexeme a })
      (.done () { m' with heap := m'.heap.define (β.image f) name.lexeme a' }) := fun f hf =>
    .done β (.refl β) ⟨hm.heap.define hf name.lexeme ha, hm.console⟩ rfl
  obtain ⟨hlt, rfl, rfl, -⟩ := ht
  unfold writeName
  cases d with
  | some d =>
    obtain ⟨howner, hold⟩ := hm.heap.ownerAt? hlt d name.lexeme
    simp only [Option.map_some, howner]
    cases hf : m.heap.frames.ownerAt? (β.origin e) d name.lexeme with
    | none => exact .failed β hm
    | some f => exact hwrite f (hold f hf)
  | none =>
    obtain ⟨howner, htop⟩ := hm.heap.owner?_globals name.lexeme
    simp only [Option.map_none, howner]
    cases hf : m.heap.frames.owner? Heap.globals name.lexeme with
    | none => exact .failed β hm
    | some f =>
      obtain rfl := htop f hf
      have hglobal := hwrite Heap.globals β.root
      rw [β.image_root] at hglobal
      exact hglobal

/-- A new frame on both sides. -/
theorem meets_newFrame (hm : m.Bridged σ σ' β m') (ht : β.Ties level δ o e) {bs bs' : Assoc String Value}
    (hb : Assoc.Matched (Value.Bridged σ σ' β) bs bs') :
    (newFrame o bs m).Meets σ σ' p β (fun β' f f' => β'.Ties true δ.cons f f') (newFrame e bs' m') := by
  have hheap := hm.heap.addFrame ht.lt hb
  rw [ht.origin, ht.shift] at hheap
  have hties := Bridge.Ties.push β δ.cons
  rw [← hm.heap.size, ← hm.heap.size'] at hties
  exact .done _ Bridge.grows_push ⟨hheap, hm.console⟩ hties

/-- A new frame on the second side only. -/
theorem insertFrame (hm : m.Bridged σ σ' β m') (ht : β.Ties level δ o e) :
    ∃ f' m₁' β', newFrame e [] m' = .done f' m₁' ∧ β.Grows β' ∧ m.Bridged σ σ' β' m₁' ∧ β'.Ties false δ.skip o f' := by
  refine ⟨_, _, β.insert e ht.lt, rfl, Bridge.grows_insert, ⟨hm.heap.insertFrame ht.lt, hm.console⟩, ?_⟩
  rw [hm.heap.size']
  exact ht.insert

/-- The value of a name at a distance. -/
theorem meets_nameIn? (hm : m.Bridged σ σ' β m') (ht : β.Ties level δ o e) (d : Nat) (name : String) :
    (nameIn? o d name m).Meets σ σ' p β (fun β' a a' => β' = β ∧ Option.Rel (Value.Bridged σ σ' β') a a')
      (nameIn? e (δ d) name m') := by
  obtain ⟨hlt, rfl, rfl, -⟩ := ht
  exact .done β (.refl β) hm ⟨rfl, hm.heap.findAt? hlt d name⟩

/-- The value of a name in a frame and in what has become of it. -/
theorem meets_nameIn?_zero (hm : m.Bridged σ σ' β m') (ho : o < β.size) (name : String) :
    (nameIn? o 0 name m).Meets σ σ' p β (fun β' a a' => β' = β ∧ Option.Rel (Value.Bridged σ σ' β') a a')
      (nameIn? (β.image o) 0 name m') :=
  .done β (.refl β) hm ⟨rfl, hm.heap.bindings o ho name⟩

/-! ## objects -/

theorem meets_newTag (hm : m.Bridged σ σ' β m') :
    (newTag m).Meets σ σ' p β (fun β' t t' => β' = β ∧ t' = t) (newTag m') :=
  .done β (.refl β) ⟨hm.heap.nextTag, hm.console⟩ ⟨rfl, hm.heap.tag⟩

theorem meets_newObject (hm : m.Bridged σ σ' β m') {c c' : Class}
    (hc : c.Matched (Closure.BridgedUnder σ σ' β Shift.cons) c') :
    (newObject c m).Meets σ σ' p β (Value.Bridged σ σ') (newObject c' m') := by
  refine .done β (.refl β) ⟨hm.heap.addObject, hm.console⟩ ?_
  rw [hm.heap.objects]
  exact .object hc

theorem meets_field? (hm : m.Bridged σ σ' β m') (i : ObjectRef) (name : String) :
    (field? i name m).Meets σ σ' p β (fun β' a a' => β' = β ∧ Option.Rel (Value.Bridged σ σ' β') a a')
      (field? i name m') :=
  .done β (.refl β) hm ⟨rfl, hm.heap.fields i name⟩

theorem meets_setField (hm : m.Bridged σ σ' β m') (i : ObjectRef) (name : String) {a a' : Value}
    (ha : a.Bridged σ σ' β a') :
    (setField i name a m).Meets σ σ' p β (fun β' _ _ => β' = β) (setField i name a' m') :=
  .done β (.refl β) ⟨hm.heap.setField i name ha, hm.console⟩ rfl

theorem meets_bindThis (hm : m.Bridged σ σ' β m') {c c' : Closure} (hc : c.BridgedUnder σ σ' β Shift.cons c')
    {a a' : Value} (ha : a.Bridged σ σ' β a') :
    (bindThis c a m).Meets σ σ' p β (fun β' c c' => c.BridgedUnder σ σ' β' id c') (bindThis c' a' m') := by
  have hties := Bridge.Ties.image hc.lt
  rw [← hc.frame] at hties
  have hbound : Assoc.Matched (Value.Bridged σ σ' β) [("this", a)] [("this", a')] := Assoc.Matched.nil.set "this" ha
  refine meets_bind (meets_newFrame hm hties hbound) fun β₁ f f' m₁ m₁' hg₁ hm₁ hnew => ?_
  refine meets_pure hm₁ ⟨hnew.lt_size, (hnew.own rfl).symm, hc.initializer, ?_⟩
  show FunctionDecl.Shifted _ _ (β₁.shift f') _ _
  rw [hnew.shift]
  exact hc.code

theorem meets_boundMethod (hm : m.Bridged σ σ' β m') {c c' : Closure} (hc : c.BridgedUnder σ σ' β Shift.cons c')
    {a a' : Value} (ha : a.Bridged σ σ' β a') :
    (boundMethod c a m).Meets σ σ' p β (Value.Bridged σ σ') (boundMethod c' a' m') := by
  refine meets_bind (meets_bindThis hm hc ha) fun β₁ c c' m₁ m₁' _ hm₁ hc₁ => ?_
  refine meets_bind (meets_newTag hm₁) fun β₂ t t' m₂ m₂' _ hm₂ hq => ?_
  obtain ⟨rfl, rfl⟩ := hq
  exact meets_pure hm₂ (.function hc₁)

/-- A method of two classes that belong together, bound to the same object, or the fault that there is none. -/
theorem meets_method (hm : m.Bridged σ σ' β m') {c c' : Class}
    (hc : c.Matched (Closure.BridgedUnder σ σ' β Shift.cons) c') {a a' : Value} (ha : a.Bridged σ σ' β a')
    (name : Token) :
    Ending.Meets σ σ' p β (Value.Bridged σ σ')
      ((match c.method? name.lexeme with
        | some method => boundMethod method a
        | none => fail name (.undefinedProperty name.lexeme)) m)
      ((match c'.method? name.lexeme with
        | some method => boundMethod method a'
        | none => fail name (.undefinedProperty name.lexeme)) m') := by
  have hmethod := hc.method name.lexeme
  revert hmethod
  cases c.method? name.lexeme <;> cases c'.method? name.lexeme <;> intro hmethod <;> cases hmethod
  · exact meets_fail hm name _
  · next hbound => exact meets_boundMethod hm hbound ha

theorem meets_getProperty (hm : m.Bridged σ σ' β m') {i : ObjectRef} {c c' : Class}
    (hc : c.Matched (Closure.BridgedUnder σ σ' β Shift.cons) c') (name : Token) :
    (getProperty i c name m).Meets σ σ' p β (Value.Bridged σ σ') (getProperty i c' name m') := by
  unfold getProperty
  refine meets_bind (meets_field? hm i name.lexeme) fun β₁ a a' m₁ m₁' _ hm₁ hq => ?_
  obtain ⟨rfl, ha⟩ := hq
  cases ha with
  | some ha => exact meets_pure hm₁ ha
  | none => exact meets_method hm₁ hc (.object hc) name

/-- The instance is found one frame nearer than the superclass on both sides. -/
theorem meets_getSuper (hm : m.Bridged σ σ' β m') (ht : β.Ties level δ o e) {d : Option Nat}
    (hd : ∀ k, d = some k → δ (k - 1) = δ k - 1) (keyword name : Token) :
    (getSuper d o keyword name m).Meets σ σ' p β (Value.Bridged σ σ') (getSuper (d.map δ) e keyword name m') := by
  unfold getSuper
  cases d with
  | none => exact meets_fail hm keyword _
  | some d =>
    refine meets_bind (meets_readName hm ht (some d) keyword) fun β₁ a a' m₁ m₁' hg₁ hm₁ ha => ?_
    cases ha with
    | klass hparent =>
      have hthis := meets_nameIn? hm₁ (ht.mono hg₁) (d - 1) "this" (p := p)
      rw [hd d rfl] at hthis
      refine meets_bind hthis fun β₂ this this' m₂ m₂' _ hm₂ hq => ?_
      obtain ⟨rfl, hinstance⟩ := hq
      cases hinstance with
      | none => exact meets_fail hm₂ keyword _
      | some hinstance =>
        cases hinstance with
        | object hc => exact meets_method hm₂ hparent (.object hc) name
        | _ => exact meets_fail hm₂ keyword _
    | _ => exact meets_fail hm₁ keyword _

/-! ## the console -/

theorem meets_write (hm : m.Bridged σ σ' β m') (s : String) :
    (write s m).Meets σ σ' p β (fun _ _ _ => True) (write s m') := by
  unfold write
  simp only [hm.console]
  split
  · exact .done β (.refl β) ⟨hm.heap, rfl⟩ trivial
  · exact .failed β ⟨hm.heap, rfl⟩

theorem meets_flush (hm : m.Bridged σ σ' β m') : (flush m).Meets σ σ' p β (fun _ _ _ => True) (flush m') := by
  unfold flush
  rw [hm.console]
  split
  · exact .failed β hm
  · exact .done β (.refl β) hm trivial

theorem meets_print (hm : m.Bridged σ σ' β m') (keyword : Token) {a a' : Value} (ha : a.Bridged σ σ' β a') :
    (print keyword a m).Meets σ σ' p β (fun _ _ _ => True) (print keyword a' m') := by
  have hdisplay := ha.display
  cases ha with
  | @string raw =>
    simp only [print]
    cases Text.unescape raw with
    | ok s => exact meets_write hm _
    | error c => exact meets_fail hm keyword _
  | _ =>
    simp only [print]
    rw [hdisplay]
    exact meets_write hm _

end Exec

/-! ## built-in functions -/

/-- What a value shows of a function. -/
structure Closure.SameSurface (c c' : Closure) : Prop where
  initializer : c'.isInitializer = c.isInitializer
  name : c'.name = c.name
  arity : c'.arity = c.arity

/-- A host function that sees of functions neither the code nor the frame: from arguments that differ in nothing else it
gives the same message, the same plain value, or the same of its arguments. -/
def Host.Shallow (f : Host) : Prop :=
  ∀ as as', List.Forall₂ (Value.Matched Closure.SameSurface Closure.SameSurface) as as' →
    (∃ message, f as = .error message ∧ f as' = .error message) ∨
      ∃ a a', f as = .ok a ∧ f as' = .ok a' ∧ (a.Plain ∧ a' = a ∨ ∃ i : Nat, as[i]? = some a ∧ as'[i]? = some a')

theorem Closure.BridgedUnder.sameSurface {wrap : Shift → Shift} {c c' : Closure}
    (h : c.BridgedUnder σ σ' β wrap c') : c.SameSurface c' :=
  ⟨h.initializer, h.name, h.arity⟩

/-- Two results of a built-in function are joined by a bridge. -/
inductive Builtin.ResultBridged (σ σ' : Setting) (β : Bridge) : Except String Value → Except String Value → Prop
  | ok {a a'} : Value.Bridged σ σ' β a a' → ResultBridged σ σ' β (.ok a) (.ok a')
  | error {message} : ResultBridged σ σ' β (.error message) (.error message)

/-- A plain result is joined to itself, and so is a fault. -/
theorem Builtin.ResultBridged.of_plain {r : Except String Value} (h : ∀ {a}, r = .ok a → a.Plain) :
    ResultBridged σ σ' β r r := by
  cases r with
  | ok a => exact .ok (h rfl).matched
  | error message => exact .error

theorem Host.Shallow.resultBridged {f : Host} (hf : f.Shallow) {as as' : List Value}
    (ha : List.Forall₂ (Value.Bridged σ σ' β) as as') : Builtin.ResultBridged σ σ' β (f as) (f as') := by
  have hsurface : List.Forall₂ (Value.Matched Closure.SameSurface Closure.SameSurface) as as' :=
    ha.imp fun _ _ h => Value.Matched.mono h (fun _ _ hc => hc.sameSurface) fun _ _ hc => hc.sameSurface
  rcases hf as as' hsurface with ⟨message, h, h'⟩ | ⟨a, a', h, h', ⟨hplain, rfl⟩ | ⟨i, hi, hi'⟩⟩
  · rw [h, h']
    exact .error
  · rw [h, h']
    exact .ok hplain.matched
  · rw [h, h']
    obtain ⟨hlt, rfl⟩ := List.getElem?_eq_some_iff.1 hi
    obtain ⟨hlt', rfl⟩ := List.getElem?_eq_some_iff.1 hi'
    exact .ok (ha.get hlt hlt')

/-- The seconds to wait are read off a plain value or the name of a type. -/
theorem Value.Bridged.waitTime {as as' : List Value} (h : List.Forall₂ (Value.Bridged σ σ' β) as as') :
    Builtin.waitTime as' = Builtin.waitTime as := by
  cases h with
  | nil => rfl
  | cons ha _ =>
    have htype := Value.Matched.typeName ha
    cases ha with
    | number => rfl
    | _ => simp only [Builtin.waitTime, htype]

/-- A built-in function gives results that belong together, and leaves the same console. -/
theorem Action.run_bridged {hosts : Array Host} (hh : ∀ f ∈ hosts, Host.Shallow f) (action : Action)
    {as as' : List Value} (ha : List.Forall₂ (Value.Bridged σ σ' β) as as') (c : Console) :
    ∃ r r' c', action.run hosts as c = (r, c') ∧ action.run hosts as' c = (r', c') ∧
      Builtin.ResultBridged σ σ' β r r' := by
  cases action with
  | clock => exact ⟨_, _, _, rfl, rfl, .of_plain Exec.plain_timeValue⟩
  | read => exact ⟨_, _, _, rfl, rfl, .of_plain Exec.plain_lineValue⟩
  | wait =>
    have htime := Value.Bridged.waitTime ha
    cases hw : Builtin.waitTime as with
    | ok seconds =>
      rw [hw] at htime
      exact ⟨.ok .nil, .ok .nil, c.wait seconds, by simp [run, hw], by simp [run, htime], .ok .nil⟩
    | error message =>
      rw [hw] at htime
      exact ⟨.error message, .error message, c, by simp [run, hw], by simp [run, htime], .error⟩
  | host position =>
    cases hf : hosts[position]? with
    | none => exact ⟨.ok .nil, .ok .nil, c, by simp [run, hf], by simp [run, hf], .ok .nil⟩
    | some f =>
      have hshallow := hh f (Array.mem_of_getElem? hf)
      exact ⟨f as, f as', c, by simp [run, hf], by simp [run, hf], hshallow.resultBridged ha⟩

namespace Exec

theorem meets_runBuiltin (hm : m.Bridged σ σ' β m') {hosts : Array Host} (hh : ∀ f ∈ hosts, Host.Shallow f)
    (b : Builtin) {as as' : List Value} (ha : List.Forall₂ (Value.Bridged σ σ' β) as as') (paren : Token) :
    (runBuiltin hosts b as paren m).Meets σ σ' p β (Value.Bridged σ σ') (runBuiltin hosts b as' paren m') := by
  unfold runBuiltin
  rw [hm.console]
  obtain ⟨r, r', c, hr, hr', hresult⟩ := b.action.run_bridged hh ha m.console
  rw [hr, hr']
  cases hresult with
  | ok ha => exact .done β (.refl β) ⟨hm.heap, rfl⟩ ha
  | error => exact .failed β ⟨hm.heap, rfl⟩

/-! ## calls and classes -/

theorem meets_checkArity (hm : m.Bridged σ σ' β m') (paren : Token) (expected got : Nat) :
    (checkArity paren expected got m).Meets σ σ' p β (fun β' _ _ => β' = β) (checkArity paren expected got m') := by
  unfold checkArity
  split
  · exact meets_pure hm rfl
  · exact meets_fail hm paren _

theorem meets_asSuperclass (hm : m.Bridged σ σ' β m') (name : Token) (x : Expr) {a a' : Value}
    (ha : a.Bridged σ σ' β a') :
    (asSuperclass name x a m).Meets σ σ' p β (fun β' c c' => c.Matched (Closure.BridgedUnder σ σ' β' Shift.cons) c')
      (asSuperclass name x a' m') := by
  cases ha with
  | klass hc => exact meets_pure hm hc
  | _ => cases x <;> exact meets_fail hm _ _

/-- The methods of a class, closed over frames that belong together. -/
theorem matched_methodTable (ht : β.Ties true δ o e) {ms ms' : List FunctionDecl}
    (h : FunctionDecl.ShiftedAll σ.distance? σ'.distance? δ.cons ms ms') :
    Assoc.Matched (Closure.BridgedUnder σ σ' β Shift.cons) (methodTable o ms) (methodTable e ms') := by
  refine Assoc.Matched.nil.setAll ?_
  induction ms generalizing ms' with
  | nil =>
    cases h
    exact .nil
  | cons d ds ih =>
    cases h with
    | @cons _ _ d' _ ds' hd hds =>
      refine .cons ⟨congrArg Token.lexeme hd.name, ht.lt_size, (ht.own rfl).symm, ?_, ?_⟩ (ih hds)
      · simp only [FunctionDecl.isInit, hd.name]
      · show FunctionDecl.Shifted _ _ (β.shift e).cons d d'
        rw [ht.shift]
        exact hd

theorem meets_makeClass (hm : m.Bridged σ σ' β m') (ht : β.Ties true δ o e) (name : Token)
    {parent parent' : Option Class}
    (hp : Option.Rel (Class.Matched (Closure.BridgedUnder σ σ' β Shift.cons)) parent parent')
    {ms ms' : List FunctionDecl}
    (hms : FunctionDecl.ShiftedAll σ.distance? σ'.distance? (if parent.isSome then δ.cons.cons else δ.cons) ms ms') :
    (makeClass o name parent ms m).Meets σ σ' p β (fun _ _ _ => True) (makeClass e name parent' ms' m') := by
  have hrest : ∀ β₁ m₁ m₁' inner inner', β.Grows β₁ → m₁.Bridged σ σ' β₁ m₁' →
      β₁.Ties true (if parent.isSome then δ.cons else δ) inner inner' →
      ((do
        let t ← newTag
        define o name.lexeme (.klass (.mk t name.lexeme parent (methodTable inner ms))) : Exec Unit) m₁).Meets σ σ' p
        β₁ (fun _ _ _ => True)
        ((do
          let t ← newTag
          define e name.lexeme (.klass (.mk t name.lexeme parent' (methodTable inner' ms'))) : Exec Unit) m₁') := by
    intro β₁ m₁ m₁' inner inner' hg hm₁ hinner
    refine meets_bind (meets_newTag hm₁) fun β₂ t t' m₂ m₂' _ hm₂ hq => ?_
    obtain ⟨rfl, rfl⟩ := hq
    have htable : Assoc.Matched (Closure.BridgedUnder σ σ' β₂ Shift.cons) (methodTable inner ms)
        (methodTable inner' ms') := by
      refine matched_methodTable hinner ?_
      cases hsome : parent.isSome <;> rw [hsome] at hms <;> exact hms
    have hclass : Value.Bridged σ σ' β₂ (.klass (.mk t' name.lexeme parent (methodTable inner ms)))
        (.klass (.mk t' name.lexeme parent' (methodTable inner' ms'))) := by
      cases hp with
      | none => exact .klass (.base htable)
      | some hc => exact .klass (.derived (hc.mono fun _ _ hbound => hbound.mono hg) htable)
    exact meets_weaken (meets_define hm₂ (ht.mono hg) name.lexeme hclass) fun _ _ _ _ => trivial
  unfold makeClass
  refine meets_bind (meets_define hm ht name.lexeme .nil) fun β₁ _ _ m₁ m₁' _ hm₁ hsame => ?_
  subst hsame
  cases hp with
  | none =>
    have hpure := meets_pure (p := p) (Q := fun β' a a' => β' = β₁ ∧ a = o ∧ a' = e) hm₁ ⟨rfl, rfl, rfl⟩
    refine meets_bind hpure fun β₂ inner inner' m₂ m₂' _ hm₂ hq => ?_
    obtain ⟨rfl, rfl, rfl⟩ := hq
    exact hrest _ m₂ m₂' _ _ (.refl _) hm₂ ht
  | @some c c' hc =>
    have hbound : Assoc.Matched (Value.Bridged σ σ' β₁) [("super", .klass c)] [("super", .klass c')] :=
      Assoc.Matched.nil.set "super" (.klass hc)
    refine meets_bind (meets_newFrame hm₁ ht hbound) fun β₂ inner inner' m₂ m₂' hg₂ hm₂ hnew => ?_
    exact hrest β₂ m₂ m₂' _ _ hg₂ hm₂ hnew

/-- The frames of two calls belong together, and the bodies are shifted as the bridge says there. -/
theorem meets_callFrame (hm : m.Bridged σ σ' β m') {c c' : Closure} (hc : c.BridgedUnder σ σ' β id c')
    {as as' : List Value} (ha : List.Forall₂ (Value.Bridged σ σ' β) as as') :
    (callFrame c as m).Meets σ σ' p β
      (fun β' f f' => ∃ δ, β'.Ties true δ f f' ∧
        Stmt.ShiftedAll σ.distance? σ'.distance? δ c.declaration.body c'.declaration.body)
      (callFrame c' as' m') := by
  have hties := Bridge.Ties.image hc.lt
  rw [← hc.frame] at hties
  unfold callFrame
  rw [hc.code.params]
  have hzip : ∀ names : List String, List.Forall₂ (fun q q' => q'.1 = q.1 ∧ Value.Bridged σ σ' β q.2 q'.2)
      (names.zip as) (names.zip as') := by
    intro names
    induction ha generalizing names with
    | nil =>
      rw [List.zip_nil_right]
      exact .nil
    | cons ha _ ih =>
      cases names with
      | nil => exact .nil
      | cons name names => exact .cons ⟨rfl, ha⟩ (ih names)
  have hbound := Assoc.Matched.nil.setAll (hzip (c.declaration.params.map Token.lexeme))
  exact meets_weaken (meets_newFrame hm hties hbound) fun β' f f' hnew => ⟨_, hnew, hc.code.body⟩

theorem meets_callResult (hm : m.Bridged σ σ' β m') {c c' : Closure} (hc : c.BridgedUnder σ σ' β id c') {b : Bool}
    {flow flow' : Flow} (hflow : flow.Bridged σ σ' b β flow') :
    (callResult c flow m).Meets σ σ' p β (Value.Bridged σ σ') (callResult c' flow' m') := by
  unfold callResult
  rw [hc.initializer]
  split
  · have hthis := meets_nameIn?_zero hm hc.lt "this" (p := p)
    rw [← hc.frame] at hthis
    refine meets_bind hthis fun β₁ a a' m₁ m₁' _ hm₁ hq => ?_
    obtain ⟨rfl, ha⟩ := hq
    cases ha with
    | some ha => exact meets_pure hm₁ ha
    | none => exact meets_pure hm₁ .nil
  · exact meets_pure hm hflow.result

end Exec

end ScriptLang
