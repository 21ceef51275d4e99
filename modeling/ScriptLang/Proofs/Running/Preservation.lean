import ScriptLang.Proofs.Running.Keeps

/-!
# Evaluation keeps worlds sound

Evaluation starts at a node whose regions the frames mirror, and then

* an expression binds nothing new in the frames that were there, and its value is sound;
* a statement binds at most what it declares, in the frame it is run in, and all of it if it ends normally.

`Keeping S σ n` says this of all functions of the recursion at depth `n`; `keeping` proves it by induction on the depth.
-/

namespace ScriptLang

/-- What a run takes for granted about its sites and its host functions. -/
structure Setting.Suits (σ : Setting) (S : Site → Prop) : Prop where
  hosts : ∀ f ∈ σ.hosts, Host.Tame f
  legal : ∀ site, S site → site.Legal
  distance : ∀ site, S site → σ.distance? site.label = site.distance?

variable {S : Site → Prop} {σ : Setting} {P : FrameRef → String → Prop} {w : World} {ctx : Context} {e : FrameRef}

/-! ## operators -/

theorem plain_applyUnary {op : Kind} {v u : Value} (h : applyUnary op v = .ok u) : u.Plain := by
  unfold applyUnary at h
  split at h
  · split at h <;> cases h
    trivial
  · cases h
    trivial
  · cases h

theorem plain_applyPlus {v u x : Value} (h : applyPlus v u = .ok x) : x.Plain := by
  unfold applyPlus at h
  split at h <;> cases h <;> trivial

theorem plain_applyArithmetic {op : Kind} {a b : Float} {x : Value} (h : applyArithmetic op a b = .ok x) :
    x.Plain := by
  unfold applyArithmetic at h
  split at h <;> cases h <;> trivial

theorem plain_applyBinary {op : Kind} {v u x : Value} (h : applyBinary op v u = .ok x) : x.Plain := by
  unfold applyBinary at h
  split at h
  · cases h
    trivial
  · cases h
    trivial
  · exact plain_applyPlus h
  · split at h
    · exact plain_applyArithmetic h
    · cases h

theorem sound_ofLiteral (l : Literal) : (Value.ofLiteral l).Sound S w := by
  cases l <;> trivial

theorem Expr.fits_of_occurrencesAll {xs : List Expr} {skip : Option String}
    (h : ∀ o ∈ Expr.occurrencesAll xs, S ⟨o, ctx, skip⟩) : ∀ x ∈ xs, Expr.Fits S ctx skip x := by
  induction xs with
  | nil => simp
  | cons x xs ih =>
    obtain ⟨hx, hxs⟩ := List.forall_mem_append.1 h
    exact List.forall_mem_cons.2 ⟨hx, ih hxs⟩

namespace Exec

/-! ## the parts without recursion -/

theorem keeps_print (hw : w.Sound S) {keyword : Token} {v : Value} :
    (print keyword v).Keeps S P w fun _ _ => True := by
  unfold print
  split
  · split
    · exact keeps_write hw
    · exact keeps_fail hw
  · exact keeps_write hw

theorem keeps_getProperty (hw : w.Sound S) {o : ObjectRef} {c : Class} (hc : c.Sound S w) {name : Token} :
    (getProperty o c name).Keeps S World.nowhere w fun w' v => v.Sound S w' := by
  unfold getProperty
  refine (keeps_field? hw).seq fun w' found hw' hg hfound => ?_
  cases found with
  | some v => exact keeps_pure hw' (hfound v rfl)
  | none =>
    have hc' := hc.mono hg
    cases hm : c.method? name.lexeme with
    | some method =>
      exact keeps_boundMethod hw' (hc' _ _ hm) hc' ⟨o, c, rfl⟩
    | none => exact keeps_fail hw'

theorem keeps_getSuper (hw : w.Sound S) {d : Option Nat} {keyword method : Token} :
    (getSuper d e keyword method).Keeps S World.nowhere w fun w' v => v.Sound S w' := by
  unfold getSuper
  cases d with
  | none => exact keeps_fail hw
  | some d =>
    refine (keeps_readName hw).seq fun w₁ found hw₁ _ hfound => ?_
    split
    · next parent =>
      refine (keeps_nameIn? hw₁).seq fun w₂ this hw₂ hg hthis => ?_
      split
      · next o c =>
        split
        · next m hm => exact keeps_boundMethod hw₂ (hfound.mono hg _ _ hm) (hthis _ rfl) ⟨o, c, rfl⟩
        · exact keeps_fail hw₂
      · exact keeps_fail hw₂
    · exact keeps_fail hw₁

theorem keeps_checkArity (hw : w.Sound S) {paren : Token} {expected got : Nat} :
    (checkArity paren expected got).Keeps S World.nowhere w fun _ _ => got = expected := by
  unfold checkArity
  split
  · next h => exact keeps_pure hw h
  · exact keeps_fail hw

theorem keeps_asSuperclass (hw : w.Sound S) {name : Token} {x : Expr} {v : Value} (hv : v.Sound S w) :
    (asSuperclass name x v).Keeps S World.nowhere w fun w' c => c.Sound S w' := by
  unfold asSuperclass
  split
  · exact keeps_pure hw hv
  · split <;> exact keeps_fail hw

/-- The methods of a class are closed over a frame that mirrors the text around them. -/
theorem soundMethod_methodTable {methods : List FunctionDecl} {inner : FrameRef}
    (hf : FunctionDecl.FitsAll S (Region.only "this" :: ctx) methods) (hm : w.Mirrors none ctx inner) {name : String}
    {m : Closure} (h : Assoc.get? (methodTable inner methods) name = some m) : m.SoundMethod S w := by
  unfold methodTable at h
  rcases Assoc.mem_or_get?_of_get?_setAll h with hmem | hnone
  · obtain ⟨d, hd, heq⟩ := List.mem_map.1 hmem
    cases heq
    exact ⟨ctx, hf.fits hd, hm⟩
  · cases hnone

theorem sound_mk {tag : Tag} {name : String} {parent : Option Class} {methods : List FunctionDecl} {inner : FrameRef}
    (hp : ∀ c ∈ parent, Class.Sound S w c) (hf : FunctionDecl.FitsAll S (Region.only "this" :: ctx) methods)
    (hm : w.Mirrors none ctx inner) : Class.Sound S w (.mk tag name parent (methodTable inner methods)) := by
  intro n m h
  cases parent with
  | none =>
    simp only [Class.method?] at h
    exact soundMethod_methodTable hf hm h
  | some p =>
    simp only [Class.method?] at h
    split at h
    · next hown =>
      obtain rfl := Option.some.inj h
      exact soundMethod_methodTable hf hm hown
    · exact hp p rfl n m h

/-- A frame can bind a name that its region has room for. -/
theorem admits_define (hm : w.Mirrors none ctx e) {name : String} (ha : ctx.Admits name) :
    e ≠ Heap.globals → name ∈ w.names e ∧ name ≠ "this" := by
  intro he
  cases ctx with
  | nil => exact absurd hm he
  | cons r outer => exact ⟨hm.1.names ▸ ha.1, ha.2.2⟩

theorem lt_of_mirrors (hw : w.Sound S) {skip : Option String} (hm : w.Mirrors skip ctx e) :
    e < w.heap.frames.size := by
  cases ctx with
  | nil => exact (show e = Heap.globals from hm) ▸ hw.root
  | cons r outer => exact hm.1.lt

/-- A declaration binds its name. -/
theorem keeps_declare (hw : w.Sound S) (hm : w.Mirrors none ctx e) {name : String} (ha : ctx.Admits name) {v : Value}
    (hv : v.Sound S (w.define e name v)) :
    (define e name v).Keeps S (World.within e [name]) w fun w' _ => w'.Binds e name := by
  have he := lt_of_mirrors hw hm
  refine (keeps_define hw he hv (admits_define hm ha)).weaken (fun _ _ h => h) ?_
  rintro w' - rfl
  exact World.binds_define he

theorem keeps_declareValue (hw : w.Sound S) (hm : w.Mirrors none ctx e) {name : String} (ha : ctx.Admits name)
    {v : Value} (hv : v.Sound S w) :
    (define e name v).Keeps S (World.within e [name]) w fun w' _ => w'.Binds e name :=
  keeps_declare hw hm ha (hv.mono (World.grows_define (lt_of_mirrors hw hm)))

/-- A function is closed over the frame that binds its name, so it can call itself. -/
theorem keeps_declareFunction (hw : w.Sound S) (hm : w.Mirrors none ctx e) {d : FunctionDecl}
    (hf : (Stmt.funDecl d).Fits S ctx) {t : Tag} {isInitializer : Bool} :
    (define e d.name.lexeme (.function t ⟨d, e, isInitializer⟩)).Keeps S (World.within e [d.name.lexeme]) w
      fun w' _ => w'.Binds e d.name.lexeme := by
  have he := lt_of_mirrors hw hm
  refine keeps_declare hw hm hf.1 ⟨_, hf.2, ?_⟩
  exact (hm.mono (World.grows_define he)).put_ready (World.binds_define he)

theorem keeps_superFrame (hw : w.Sound S) {c : Class} (hc : c.Sound S w) :
    (newFrame e [("super", .klass c)]).Keeps S World.nowhere w fun w' inner =>
      inner = w.heap.frames.size ∧ w' = w.push e [("super", .klass c)] ["super"] := by
  refine keeps_newFrame hw ["super"] fun n v hv => ?_
  simp only [Assoc.get?] at hv
  split at hv
  · next he =>
    obtain rfl := Option.some.inj hv
    exact ⟨hc, List.mem_singleton.2 he.symm, fun ht => by simp [← he] at ht⟩
  · cases hv

theorem keeps_makeClass (hw : w.Sound S) (hm : w.Mirrors none ctx e) {name : Token} (ha : ctx.Admits name.lexeme)
    (s : Option Expr) (parent : Option Class) (hs : s.isSome = parent.isSome) (hp : ∀ c ∈ parent, Class.Sound S w c)
    {methods : List FunctionDecl}
    (hf : FunctionDecl.FitsAll S (Region.only "this" :: (ctx.put true name.lexeme).ofClass s) methods) :
    (makeClass e name parent methods).Keeps S (World.within e [name.lexeme]) w fun w' _ => w'.Binds e name.lexeme := by
  unfold makeClass
  refine (keeps_declare hw hm ha (v := .nil) trivial).bind (fun _ _ h => h) (fun _ _ h => h) ?_
  intro w₁ _ hw₁ hg₁ hb₁
  have hm₁ := (hm.mono hg₁).put_ready hb₁
  have hrest : ∀ w₂ inner, w₂.Sound S → w₁.Grows World.nowhere w₂ →
      w₂.Mirrors none ((ctx.put true name.lexeme).ofClass s) inner →
      (do
        let t ← newTag
        define e name.lexeme (.klass (.mk t name.lexeme parent (methodTable inner methods))) : Exec Unit).Keeps S
        (World.within e [name.lexeme]) w₂ fun w' _ => w'.Binds e name.lexeme := by
    intro w₂ inner hw₂ hg₂ hm₂
    refine (keeps_newTag hw₂).seq fun w₃ t hw₃ hg₃ _ => ?_
    have hp₃ : ∀ c ∈ parent, Class.Sound S w₃ c := fun c hc => (((hp c hc).mono hg₁).mono hg₂).mono hg₃
    exact keeps_declareValue hw₃ (((hm.mono hg₁).mono hg₂).mono hg₃) ha (sound_mk hp₃ hf (hm₂.mono hg₃))
  -- the frame of the methods: a new one for `super` if there is a superclass
  cases parent with
  | none =>
    cases s with
    | none => exact (keeps_pure hw₁ hm₁).seq hrest
    | some x => cases hs
  | some c =>
    cases s with
    | none => cases hs
    | some x =>
      refine (keeps_superFrame hw₁ ((hp c rfl).mono hg₁)).seq fun w₂ inner hw₂ hg₂ hpush => hrest w₂ inner hw₂ hg₂ ?_
      obtain ⟨rfl, rfl⟩ := hpush
      exact hm₁.push get?_only

/-- The frame of a call mirrors the function around its body. -/
theorem keeps_callFrame (hw : w.Sound S) {c : Closure} (hf : c.declaration.Fits S ctx)
    (hm : w.Mirrors none ctx c.frame) {arguments : List Value} (ha : ∀ v ∈ arguments, v.Sound S w)
    (hl : arguments.length = c.arity) :
    (callFrame c arguments).Keeps S World.nowhere w fun w' e => w.heap.frames.size ≤ e ∧
      w'.Stands none (ctx.ofFunction c.declaration.params c.declaration.body) e := by
  unfold callFrame
  let params := c.declaration.params.map Token.lexeme
  have hfst : (params.zip arguments).map Prod.fst = params :=
    List.map_fst_zip (by simpa [params, Closure.arity] using Nat.le_of_eq hl.symm)
  have hsome : ∀ n, (Assoc.get? (Assoc.setAll [] (params.zip arguments)) n).isSome ↔ n ∈ params := by
    intro n
    rw [Assoc.isSome_get?_setAll, hfst]
    simp
  have hb : ∀ n v, Assoc.get? (Assoc.setAll [] (params.zip arguments)) n = some v →
      v.Sound S w ∧ n ∈ params ++ Stmt.declaredAll c.declaration.body ∧ (n = "this" → ∃ o c, v = .object o c) := by
    intro n v hv
    have hn : n ∈ params := (hsome n).1 (by rw [hv]; rfl)
    refine ⟨?_, List.mem_append_left _ hn, fun ht => ?_⟩
    · rcases Assoc.mem_or_get?_of_get?_setAll hv with hmem | hnone
      · exact ha v (List.of_mem_zip hmem).2
      · cases hnone
    · obtain ⟨p, hp, rfl⟩ := List.mem_map.1 hn
      exact absurd ht (hf.params p hp)
  refine (keeps_newFrame hw _ hb).weaken (fun _ _ h => h) ?_
  rintro w' e ⟨rfl, rfl⟩
  refine ⟨Nat.le_refl _, ?_⟩
  unfold Context.ofFunction
  rw [Context.declareAll_cons]
  refine World.Stands.push hm fun n => ?_
  rw [Assoc.get?_setAll_ready, hsome]
  simp [params]

theorem keeps_callResult (hw : w.Sound S) {c : Closure} {flow : Flow} (hf : flow.Sound S w) :
    (callResult c flow).Keeps S World.nowhere w fun w' v => v.Sound S w' := by
  unfold callResult
  split
  · refine (keeps_nameIn? hw).seq fun w' this hw' _ hthis => ?_
    cases this with
    | none => exact keeps_pure hw' trivial
    | some v => exact keeps_pure hw' (hthis v rfl)
  · cases flow with
    | returned v => exact keeps_pure hw hf
    | _ => exact keeps_pure hw trivial

end Exec

/-! ## tasks -/

/-- What a function of the recursion is called for. -/
inductive Task
  | eval (e : FrameRef) (x : Expr)
  | evalAll (e : FrameRef) (xs : List Expr)
  | call (callee : Value) (arguments : List Value) (paren : Token)
  | invoke (c : Closure) (arguments : List Value)
  | exec (e : FrameRef) (s : Stmt)
  | execAll (e : FrameRef) (body : List Stmt)
  | loop (e : FrameRef) (condition : Expr) (body : Stmt) (increment : Option Expr)
  | program (body : List Stmt)

/-- What a world has to offer before a task is begun: the frames mirror the text around what is evaluated, and the
values at hand are sound. -/
def Task.Ready (S : Site → Prop) (w : World) : Task → Prop
  | .eval e x => ∃ ctx skip, x.Fits S ctx skip ∧ w.Stands skip ctx e
  | .evalAll e xs => ∃ ctx skip, (∀ x ∈ xs, Expr.Fits S ctx skip x) ∧ w.Stands skip ctx e
  | .call callee arguments _ => callee.Sound S w ∧ ∀ v ∈ arguments, v.Sound S w
  | .invoke c arguments => c.Sound S w ∧ (∀ v ∈ arguments, v.Sound S w) ∧ arguments.length = c.arity
  | .exec e s => ∃ ctx, s.Fits S ctx ∧ w.Stands none ctx e
  | .execAll e body => ∃ ctx, Stmt.FitsAll S ctx body ∧ w.Stands none ctx e
  | .loop e c b i => ∃ ctx, (Stmt.loop c b i).Fits S ctx ∧ w.Stands none ctx e
  | .program body => Stmt.FitsAll S [] body

/-- All functions of the recursion keep worlds sound at one depth. -/
structure Keeping (S : Site → Prop) (σ : Setting) (n : Nat) : Prop where
  eval : ∀ {w e x}, w.Sound S → (Task.eval e x).Ready S w →
    (Exec.eval n σ e x).Keeps S World.nowhere w fun w' v => v.Sound S w'
  evalAll : ∀ {w e xs}, w.Sound S → (Task.evalAll e xs).Ready S w →
    (Exec.evalAll n σ e xs).Keeps S World.nowhere w fun w' vs => ∀ v ∈ vs, v.Sound S w'
  call : ∀ {w f vs paren}, w.Sound S → (Task.call f vs paren).Ready S w →
    (Exec.call n σ f vs paren).Keeps S World.nowhere w fun w' v => v.Sound S w'
  invoke : ∀ {w c vs}, w.Sound S → (Task.invoke c vs).Ready S w →
    (Exec.invoke n σ c vs).Keeps S World.nowhere w fun w' v => v.Sound S w'
  exec : ∀ {w e s}, w.Sound S → (Task.exec e s).Ready S w →
    (Exec.exec n σ e s).Keeps S (World.within e (s.declared.map Token.lexeme)) w fun w' flow =>
      flow.Sound S w' ∧ (flow = .normal → ∀ t ∈ s.declared, w'.Binds e t.lexeme)
  execAll : ∀ {w e body}, w.Sound S → (Task.execAll e body).Ready S w →
    (Exec.execAll n σ e body).Keeps S (World.within e (Stmt.declaredAll body)) w fun w' flow => flow.Sound S w'
  loop : ∀ {w e c b i}, w.Sound S → (Task.loop e c b i).Ready S w →
    (Exec.loop n σ e c b i).Keeps S World.nowhere w fun w' flow => flow.Sound S w'

namespace Keeping

open Exec

variable {n : Nat}

theorem keeps_eval (ih : Keeping S σ n) (hσ : σ.Suits S) (hw : w.Sound S) {x : Expr}
    (hr : (Task.eval e x).Ready S w) :
    (Exec.eval (n + 1) σ e x).Keeps S World.nowhere w fun w' v => v.Sound S w' := by
  obtain ⟨ctx, skip, hx, hs⟩ := hr
  cases x with
  | literal l =>
    simp only [Exec.eval]
    exact keeps_pure hw (sound_ofLiteral l)
  | group inner =>
    simp only [Exec.eval]
    exact ih.eval hw ⟨ctx, skip, hx, hs⟩
  | unary op right =>
    have hr : right.Fits S ctx skip := hx
    simp only [Exec.eval]
    refine (ih.eval hw ⟨ctx, skip, hr, hs⟩).seq fun w' v hw' _ _ => ?_
    exact keeps_ofResult hw' fun u hu => (plain_applyUnary hu).sound
  | binary left op right =>
    obtain ⟨hl, hr⟩ := List.forall_mem_append.1 hx
    simp only [Exec.eval]
    refine (ih.eval hw ⟨ctx, skip, hl, hs⟩).seq fun w₁ v hw₁ hg₁ _ => ?_
    refine (ih.eval hw₁ ⟨ctx, skip, hr, hs.mono hg₁⟩).seq fun w₂ u hw₂ _ _ => ?_
    exact keeps_ofResult hw₂ fun y hy => (plain_applyBinary hy).sound
  | logical left op right =>
    obtain ⟨hl, hr⟩ := List.forall_mem_append.1 hx
    simp only [Exec.eval]
    refine (ih.eval hw ⟨ctx, skip, hl, hs⟩).seq fun w₁ v hw₁ hg₁ hv => ?_
    split
    · exact keeps_pure hw₁ hv
    · exact ih.eval hw₁ ⟨ctx, skip, hr, hs.mono hg₁⟩
  | «variable» label name =>
    simp only [Exec.eval]
    exact keeps_readName hw
  | assign label name value =>
    obtain ⟨hsite, hv⟩ := List.forall_mem_cons.1 hx
    simp only [Exec.eval]
    refine (ih.eval hw ⟨ctx, skip, hv, hs⟩).seq fun w₁ v hw₁ _ hv₁ => ?_
    have hname := (hσ.legal _ hsite).written rfl
    refine (keeps_writeName hw₁ hv₁ fun _ => hname).seq fun w₂ _ hw₂ _ hv₂ => ?_
    exact keeps_pure hw₂ hv₂
  | call callee paren arguments =>
    obtain ⟨hf, ha⟩ := List.forall_mem_append.1 hx
    simp only [Exec.eval]
    refine (ih.eval hw ⟨ctx, skip, hf, hs⟩).seq fun w₁ f hw₁ hg₁ hf₁ => ?_
    refine (ih.evalAll hw₁ ⟨ctx, skip, Expr.fits_of_occurrencesAll ha, hs.mono hg₁⟩).seq fun w₂ vs hw₂ hg₂ hvs => ?_
    exact ih.call hw₂ ⟨hf₁.mono hg₂, hvs⟩
  | get object name =>
    have ho : object.Fits S ctx skip := hx
    simp only [Exec.eval]
    refine (ih.eval hw ⟨ctx, skip, ho, hs⟩).seq fun w₁ v hw₁ _ hv => ?_
    split
    · exact keeps_getProperty hw₁ hv
    · exact keeps_fail hw₁
  | set object name value =>
    obtain ⟨ho, hv⟩ := List.forall_mem_append.1 hx
    simp only [Exec.eval]
    refine (ih.eval hw ⟨ctx, skip, ho, hs⟩).seq fun w₁ v hw₁ hg₁ _ => ?_
    split
    · refine (ih.eval hw₁ ⟨ctx, skip, hv, hs.mono hg₁⟩).seq fun w₂ u hw₂ _ hu => ?_
      refine (keeps_setField hw₂ hu).seq fun w₃ _ hw₃ _ hu₃ => ?_
      exact keeps_pure hw₃ hu₃
    · exact keeps_fail hw₁
  | this label keyword =>
    simp only [Exec.eval]
    exact keeps_readName hw
  | super label keyword method =>
    simp only [Exec.eval]
    exact keeps_getSuper hw

theorem keeps_evalAll (ih : Keeping S σ n) (hw : w.Sound S) {xs : List Expr}
    (hr : (Task.evalAll e xs).Ready S w) :
    (Exec.evalAll (n + 1) σ e xs).Keeps S World.nowhere w fun w' vs => ∀ v ∈ vs, v.Sound S w' := by
  obtain ⟨ctx, skip, hx, hs⟩ := hr
  cases xs with
  | nil =>
    simp only [Exec.evalAll]
    exact keeps_pure hw (by simp)
  | cons x xs =>
    obtain ⟨hx, hxs⟩ := List.forall_mem_cons.1 hx
    simp only [Exec.evalAll]
    refine (ih.eval hw ⟨ctx, skip, hx, hs⟩).seq fun w₁ v hw₁ hg₁ hv => ?_
    refine (ih.evalAll hw₁ ⟨ctx, skip, hxs, hs.mono hg₁⟩).seq fun w₂ vs hw₂ hg₂ hvs => ?_
    exact keeps_pure hw₂ (List.forall_mem_cons.2 ⟨hv.mono hg₂, hvs⟩)

theorem keeps_call (ih : Keeping S σ n) (hσ : σ.Suits S) (hw : w.Sound S) {f : Value} {vs : List Value} {paren : Token}
    (hr : (Task.call f vs paren).Ready S w) :
    (Exec.call (n + 1) σ f vs paren).Keeps S World.nowhere w fun w' v => v.Sound S w' := by
  obtain ⟨hf, hvs⟩ := hr
  cases f with
  | function tag c =>
    simp only [Exec.call]
    refine (keeps_checkArity hw).seq fun w₁ _ hw₁ hg₁ hl => ?_
    exact ih.invoke hw₁ ⟨Closure.Sound.mono hf hg₁, fun v hv => (hvs v hv).mono hg₁, hl⟩
  | builtin tag b =>
    simp only [Exec.call]
    refine (keeps_checkArity hw).seq fun w₁ _ hw₁ hg₁ _ => ?_
    exact keeps_runBuiltin hw₁ hσ.hosts fun v hv => (hvs v hv).mono hg₁
  | klass c =>
    simp only [Exec.call]
    refine (keeps_checkArity hw).seq fun w₁ _ hw₁ hg₁ hl => ?_
    refine (keeps_newObject hw₁ (Class.Sound.mono hf hg₁)).seq fun w₂ this hw₂ hg₂ hthis => ?_
    obtain ⟨hc, o, rfl⟩ := hthis
    cases hm : c.method? FunctionDecl.initName with
    | none => exact keeps_pure hw₂ hc
    | some initializer =>
      have hthis : Value.Sound S w₂ (.object o c) := hc
      refine (keeps_bindThis hw₂ (hc _ _ hm) hthis ⟨o, c, rfl⟩).seq fun w₃ bound hw₃ hg₃ hbound => ?_
      have hvs₃ : ∀ v ∈ vs, v.Sound S w₃ := fun v hv => (((hvs v hv).mono hg₁).mono hg₂).mono hg₃
      have hl₃ : vs.length = bound.arity := by
        unfold Closure.arity
        rw [hbound.2]
        simpa [Class.arity, hm, Closure.arity] using hl
      refine (ih.invoke hw₃ ⟨hbound.1, hvs₃, hl₃⟩).seq fun w₄ _ hw₄ hg₄ _ => ?_
      exact keeps_pure hw₄ (Class.Sound.mono (hc.mono hg₃) hg₄)
  | _ =>
    simp only [Exec.call]
    exact keeps_fail hw

theorem keeps_invoke (ih : Keeping S σ n) (hw : w.Sound S) {c : Closure} {vs : List Value}
    (hr : (Task.invoke c vs).Ready S w) :
    (Exec.invoke (n + 1) σ c vs).Keeps S World.nowhere w fun w' v => v.Sound S w' := by
  obtain ⟨⟨ctx, hf, hm⟩, hvs, hl⟩ := hr
  simp only [Exec.invoke]
  refine (keeps_callFrame hw hf hm hvs hl).scope fun w₁ e hw₁ hg₁ hs => ?_
  refine ⟨e, _, hs.1, (ih.execAll hw₁ ⟨_, hf.body, hs.2⟩).last fun w₂ flow hw₂ _ hflow => ?_⟩
  exact keeps_callResult hw₂ hflow

theorem keeps_exec (ih : Keeping S σ n) (hw : w.Sound S) {s : Stmt} (hr : (Task.exec e s).Ready S w) :
    (Exec.exec (n + 1) σ e s).Keeps S (World.within e (s.declared.map Token.lexeme)) w fun w' flow =>
      flow.Sound S w' ∧ (flow = .normal → ∀ t ∈ s.declared, w'.Binds e t.lexeme) := by
  obtain ⟨ctx, hf, hs⟩ := hr
  cases s with
  | expr x =>
    simp only [Exec.exec]
    refine (ih.eval hw ⟨ctx, none, hf, hs⟩).seq fun w₁ v hw₁ _ _ => ?_
    exact keeps_pure hw₁ ⟨trivial, by simp [Stmt.declared]⟩
  | print keyword x =>
    simp only [Exec.exec]
    refine (ih.eval hw ⟨ctx, none, hf, hs⟩).seq fun w₁ v hw₁ _ _ => ?_
    refine (keeps_print hw₁).seq fun w₂ _ hw₂ _ _ => ?_
    exact keeps_pure hw₂ ⟨trivial, by simp [Stmt.declared]⟩
  | varDecl name x =>
    cases x with
    | none =>
      simp only [Exec.exec]
      refine (keeps_declare hw hs.mirrors hf.1 (v := .nil) trivial).last fun w₁ _ hw₁ _ hb => ?_
      exact keeps_pure hw₁ ⟨trivial, fun _ => List.forall_mem_singleton.2 hb⟩
    | some x =>
      simp only [Exec.exec]
      refine (ih.eval hw ⟨_, none, hf.2 x rfl, hs.put_pending hf.1⟩).seq fun w₁ v hw₁ hg₁ hv => ?_
      refine (keeps_declareValue hw₁ (hs.mirrors.mono hg₁) hf.1 hv).last fun w₂ _ hw₂ _ hb => ?_
      exact keeps_pure hw₂ ⟨trivial, fun _ => List.forall_mem_singleton.2 hb⟩
  | block body =>
    simp only [Exec.exec]
    refine Keeps.of_nowhere ((keeps_newFrame hw (Stmt.declaredAll body) (by simp)).scope ?_)
    rintro w₁ inner hw₁ - ⟨rfl, rfl⟩
    refine ⟨_, _, Nat.le_refl _, (ih.execAll hw₁ ⟨_, hf, ?_⟩).weaken (fun _ _ h => h) ?_⟩
    · exact World.Stands.push hs.mirrors (by simp)
    · exact fun w' flow hflow => ⟨hflow, by simp [Stmt.declared]⟩
  | ifThen c t =>
    obtain ⟨hc, hd, ht⟩ := hf
    simp only [Exec.exec]
    refine (ih.eval hw ⟨ctx, none, hc, hs⟩).seq fun w₁ v hw₁ hg₁ _ => ?_
    split
    · exact ih.exec hw₁ ⟨ctx, ht, hs.mono hg₁⟩
    · exact keeps_pure hw₁ ⟨trivial, by simp [Stmt.declared, hd]⟩
  | ifElse c t f =>
    obtain ⟨hc, ⟨hd, ht⟩, hd', hf'⟩ := hf
    simp only [Exec.exec, Stmt.declared, hd, hd', List.append_nil]
    refine (ih.eval hw ⟨ctx, none, hc, hs⟩).seq fun w₁ v hw₁ hg₁ _ => ?_
    split
    · simpa only [hd] using ih.exec hw₁ ⟨ctx, ht, hs.mono hg₁⟩
    · simpa only [hd'] using ih.exec hw₁ ⟨ctx, hf', hs.mono hg₁⟩
  | loop c b i =>
    simp only [Exec.exec, Stmt.declared, hf.2.1.1]
    refine (ih.loop hw ⟨ctx, hf, hs⟩).of_nowhere.weaken (fun _ _ h => h) ?_
    exact fun w' flow hflow => ⟨hflow, by simp⟩
  | funDecl d =>
    simp only [Exec.exec]
    refine (keeps_newTag hw).seq fun w₁ t hw₁ hg₁ _ => ?_
    refine (keeps_declareFunction hw₁ (hs.mirrors.mono hg₁) hf).last fun w₂ _ hw₂ _ hb => ?_
    exact keeps_pure hw₂ ⟨trivial, fun _ => List.forall_mem_singleton.2 hb⟩
  | returnFrom keyword x =>
    cases x with
    | none =>
      simp only [Exec.exec]
      exact keeps_pure hw ⟨trivial, by simp⟩
    | some x =>
      simp only [Exec.exec]
      refine (ih.eval hw ⟨ctx, none, hf x rfl, hs⟩).seq fun w₁ v hw₁ _ hv => ?_
      exact keeps_pure hw₁ ⟨hv, by simp⟩
  | classDecl name s methods =>
    cases s with
    | none =>
      simp only [Exec.exec]
      refine (keeps_makeClass hw hs.mirrors hf.1 none none rfl (by simp) hf.2.2).last fun w₁ _ hw₁ _ hb => ?_
      exact keeps_pure hw₁ ⟨trivial, fun _ => List.forall_mem_singleton.2 hb⟩
    | some x =>
      simp only [Exec.exec]
      refine (ih.eval hw ⟨_, _, hf.2.1 x rfl, hs.put_heading name.lexeme⟩).seq fun w₁ v hw₁ hg₁ hv => ?_
      refine (keeps_asSuperclass hw₁ hv).seq fun w₂ parent hw₂ hg₂ hp => ?_
      have hm := (hs.mirrors.mono hg₁).mono hg₂
      refine (keeps_makeClass hw₂ hm hf.1 (some x) (some parent) rfl ?_ hf.2.2).last fun w₃ _ hw₃ _ hb => ?_
      · rintro c ⟨⟩
        exact hp
      · exact keeps_pure hw₃ ⟨trivial, fun _ => List.forall_mem_singleton.2 hb⟩
  | breakLoop keyword =>
    simp only [Exec.exec]
    exact keeps_pure hw ⟨trivial, by simp⟩
  | continueLoop keyword =>
    simp only [Exec.exec]
    exact keeps_pure hw ⟨trivial, by simp⟩

theorem keeps_execAll (ih : Keeping S σ n) (hw : w.Sound S) {body : List Stmt}
    (hr : (Task.execAll e body).Ready S w) :
    (Exec.execAll (n + 1) σ e body).Keeps S (World.within e (Stmt.declaredAll body)) w fun w' flow =>
      flow.Sound S w' := by
  obtain ⟨ctx, hf, hs⟩ := hr
  cases body with
  | nil =>
    simp only [Exec.execAll]
    exact keeps_pure hw trivial
  | cons s rest =>
    simp only [Exec.execAll]
    have hfirst : ∀ f m, World.within e (s.declared.map Token.lexeme) f m →
        World.within e (Stmt.declaredAll (s :: rest)) f m := fun f m h => ⟨h.1, List.mem_append_left _ h.2⟩
    have hrest : ∀ f m, World.within e (Stmt.declaredAll rest) f m →
        World.within e (Stmt.declaredAll (s :: rest)) f m := fun f m h => ⟨h.1, List.mem_append_right _ h.2⟩
    refine (ih.exec hw ⟨ctx, hf.1, hs⟩).bind hfirst hrest fun w₁ flow hw₁ hg₁ hflow => ?_
    split
    · exact ih.execAll hw₁ ⟨ctx.after s, hf.2, hs.declareAll hg₁ (hflow.2 rfl)⟩
    · exact keeps_pure hw₁ hflow.1

theorem keeps_loop (ih : Keeping S σ n) (hw : w.Sound S) {c : Expr} {b : Stmt} {i : Option Expr}
    (hr : (Task.loop e c b i).Ready S w) :
    (Exec.loop (n + 1) σ e c b i).Keeps S World.nowhere w fun w' flow => flow.Sound S w' := by
  obtain ⟨ctx, hf, hs⟩ := hr
  obtain ⟨hc, ⟨hd, hb⟩, hi⟩ := hf
  have hround : ∀ w₁, w₁.Sound S → w₁.Stands none ctx e →
      (Exec.exec n σ e b).Keeps S World.nowhere w₁ fun w' flow => flow.Sound S w' := by
    intro w₁ hw₁ hs₁
    -- a body that declares nothing leaves old frames as they are
    refine (ih.exec hw₁ ⟨ctx, hb, hs₁⟩).weaken (fun f m h => ?_) fun _ _ h => h.1
    rw [hd] at h
    cases h.2
  cases i with
  | none =>
    simp only [Exec.loop]
    refine (ih.eval hw ⟨ctx, none, hc, hs⟩).seq fun w₁ v hw₁ hg₁ _ => ?_
    split
    · refine (hround w₁ hw₁ (hs.mono hg₁)).seq fun w₂ flow hw₂ hg₂ hflow => ?_
      split
      · exact keeps_pure hw₂ trivial
      · exact keeps_pure hw₂ hflow
      · exact ih.loop hw₂ ⟨ctx, ⟨hc, ⟨hd, hb⟩, hi⟩, (hs.mono hg₁).mono hg₂⟩
    · exact keeps_pure hw₁ trivial
  | some x =>
    simp only [Exec.loop]
    refine (ih.eval hw ⟨ctx, none, hc, hs⟩).seq fun w₁ v hw₁ hg₁ _ => ?_
    split
    · refine (hround w₁ hw₁ (hs.mono hg₁)).seq fun w₂ flow hw₂ hg₂ hflow => ?_
      have hs₂ := (hs.mono hg₁).mono hg₂
      split
      · exact keeps_pure hw₂ trivial
      · exact keeps_pure hw₂ hflow
      · refine (ih.eval hw₂ ⟨ctx, none, hi x rfl, hs₂⟩).seq fun w₃ _ hw₃ hg₃ _ => ?_
        exact ih.loop hw₃ ⟨ctx, ⟨hc, ⟨hd, hb⟩, hi⟩, hs₂.mono hg₃⟩
    · exact keeps_pure hw₁ trivial

end Keeping

/-- Evaluation keeps worlds sound at every depth. -/
theorem keeping (hσ : σ.Suits S) (n : Nat) : Keeping S σ n := by
  induction n with
  | zero =>
    constructor <;> intros <;>
      simp only [Exec.eval, Exec.evalAll, Exec.call, Exec.invoke, Exec.exec, Exec.execAll, Exec.loop] <;>
      exact Exec.keeps_outOfFuel
  | succ n ih =>
    exact ⟨fun hw => ih.keeps_eval hσ hw, fun hw => ih.keeps_evalAll hw, fun hw => ih.keeps_call hσ hw,
      fun hw => ih.keeps_invoke hw, fun hw => ih.keeps_exec hw, fun hw => ih.keeps_execAll hw,
      fun hw => ih.keeps_loop hw⟩

/-- A program keeps worlds sound; it may bind anything among the globals. -/
theorem keeps_program (hσ : σ.Suits S) {n : Nat} {body : List Stmt} (hw : w.Sound S) (hf : Stmt.FitsAll S [] body) :
    (Exec.program n σ body).Keeps S (fun e _ => e = Heap.globals) w fun _ _ => True := by
  induction body generalizing w with
  | nil => exact Exec.keeps_pure hw trivial
  | cons s rest ih =>
    have hready : (Task.exec Heap.globals s).Ready S w := ⟨[], hf.1, rfl, trivial⟩
    have hrest : Stmt.FitsAll S [] rest := by
      have h := hf.2
      rwa [show Context.after [] s = [] from Context.declareAll_nil _] at h
    exact ((keeping hσ n).exec hw hready).bind (fun f m h => h.1) (fun f m h => h) fun w' _ hw' _ _ => ih hw' hrest

end ScriptLang
