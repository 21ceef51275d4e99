import ScriptLang.Proofs.Running.Confined
import ScriptLang.Proofs.Running.Faults
import ScriptLang.Proofs.Running.Tells

/-!
# Evaluation keeps scenes sound

Evaluation starts with lawful code in a frame that it is seated in, and leaves a sound scene and placed values.

* `Telling L σ n` — this holds of all functions of the recursion at depth `n`; `telling` proves it by induction;
* `Visits.placed` — the scene is sound, and what is evaluated placed in it, at every point of a run.

The lore has to cover the points that the run visits, because what happens there is told of the frames it makes.
-/

namespace ScriptLang

/-- What a run takes for granted. -/
structure Setting.Serves (σ : Setting) (L : Lore) : Prop where
  hosts : ∀ f ∈ σ.hosts, Host.Tame f
  distance : ∀ l d, L.recorded l d → σ.distance? l = d

/-- What a scene has to offer before a task is begun. -/
def Task.Placed (L : Lore) (w : Scene) : Task → Prop
  | .eval e x => e < w.heap.frames.size ∧ ∃ O place k, x.Lawful L.recorded O place k ∧ w.Seats e O place k
  | .evalAll e xs => e < w.heap.frames.size ∧ ∃ O place k, (∀ x ∈ xs, Expr.Lawful L.recorded O place k x) ∧
      w.Seats e O place k
  | .call callee arguments _ => callee.Placed L w ∧ ∀ v ∈ arguments, v.Placed L w
  | .invoke c arguments => c.Placed L w ∧ ∀ v ∈ arguments, v.Placed L w
  | .exec e s => e < w.heap.frames.size ∧ ∃ O place k, s.Lawful L.recorded O place k ∧ w.Seats e O place k
  | .execAll e body => e < w.heap.frames.size ∧ ∃ O place k, Stmt.LawfulAll L.recorded O place k body ∧
      w.Seats e O place k
  | .loop e c b i => e < w.heap.frames.size ∧ ∃ O place k, (Stmt.loop c b i).Lawful L.recorded O place k ∧
      w.Seats e O place k
  | .program body => ∃ O, Stmt.LawfulAll L.recorded O .top 0 body

/-- All functions of the recursion keep scenes sound at one depth. -/
structure Telling (L : Lore) (σ : Setting) (n : Nat) : Prop where
  eval : ∀ {w m e x}, w.At L m → (Task.eval e x).Placed L w → L.Covers σ ⟨n, .eval e x, m⟩ →
    (Exec.eval n σ e x m).Tells L w fun w' v => v.Placed L w'
  evalAll : ∀ {w m e xs}, w.At L m → (Task.evalAll e xs).Placed L w → L.Covers σ ⟨n, .evalAll e xs, m⟩ →
    (Exec.evalAll n σ e xs m).Tells L w fun w' vs => ∀ v ∈ vs, v.Placed L w'
  call : ∀ {w m f vs paren}, w.At L m → (Task.call f vs paren).Placed L w → L.Covers σ ⟨n, .call f vs paren, m⟩ →
    (Exec.call n σ f vs paren m).Tells L w fun w' v => v.Placed L w'
  invoke : ∀ {w m c vs}, w.At L m → (Task.invoke c vs).Placed L w → L.Covers σ ⟨n, .invoke c vs, m⟩ →
    (Exec.invoke n σ c vs m).Tells L w fun w' v => v.Placed L w'
  exec : ∀ {w m e s}, w.At L m → (Task.exec e s).Placed L w → L.Covers σ ⟨n, .exec e s, m⟩ →
    (Exec.exec n σ e s m).Tells L w fun w' flow => flow.Placed L w'
  execAll : ∀ {w m e body}, w.At L m → (Task.execAll e body).Placed L w → L.Covers σ ⟨n, .execAll e body, m⟩ →
    (Exec.execAll n σ e body m).Tells L w fun w' flow => flow.Placed L w'
  loop : ∀ {w m e c b i}, w.At L m → (Task.loop e c b i).Placed L w → L.Covers σ ⟨n, .loop e c b i, m⟩ →
    (Exec.loop n σ e c b i m).Tells L w fun w' flow => flow.Placed L w'

section

variable {T : Label → Option Nat → Prop} {O : Occurrence → Prop} {place : Place} {k : Nat}

/-! ## parts of lawful expressions -/

theorem Expr.Lawful.left {x y z : Expr} (h : z.Lawful T O place k) (ho : z.Operates → x.Operates)
    (hm : z.occurrences = x.occurrences ++ y.occurrences) : x.Lawful T O place k :=
  ⟨ho h.1, fun o hmem => h.2 o (hm ▸ List.mem_append_left _ hmem)⟩

theorem Expr.Lawful.right {x y z : Expr} (h : z.Lawful T O place k) (ho : z.Operates → y.Operates)
    (hm : z.occurrences = x.occurrences ++ y.occurrences) : y.Lawful T O place k :=
  ⟨ho h.1, fun o hmem => h.2 o (hm ▸ List.mem_append_right _ hmem)⟩

end

namespace Telling

open Exec

variable {L : Lore} {σ : Setting} {n : Nat} {w : Scene} {m : Machine} {e : FrameRef}

theorem tells_eval (ih : Telling L σ n) {x : Expr} (hw : w.At L m) (hr : (Task.eval e x).Placed L w)
    (hc : L.Covers σ ⟨n + 1, .eval e x, m⟩) :
    (Exec.eval (n + 1) σ e x m).Tells L w fun w' v => v.Placed L w' := by
  obtain ⟨he, O, place, k, hx, hs⟩ := hr
  -- behind a part of the expression, the code is still seated where it was
  have hstay : ∀ {w' : Scene}, w.Grows w' → e < w'.heap.frames.size ∧ w'.Seats e O place k := fun hg =>
    ⟨Nat.lt_of_lt_of_le he hg.size, hs.mono hg he⟩
  cases x with
  | literal l =>
    simp only [Exec.eval]
    exact tells_pure hw (by cases l <;> trivial)
  | group inner =>
    simp only [Exec.eval]
    exact ih.eval hw ⟨he, O, place, k, hx, hs⟩ (hc.call .group)
  | unary op right =>
    simp only [Exec.eval]
    refine tells_bind (ih.eval hw ⟨he, O, place, k, ⟨hx.1.2, hx.2⟩, hs⟩ (hc.call .operand)) fun w₁ v m₁ _ hw₁ _ _ => ?_
    exact tells_ofResult hw₁ fun u hu => (plain_applyUnary hu).placed
  | binary left op right =>
    have hl : left.Lawful L.recorded O place k := hx.left (fun h => h.2.1) rfl
    have hr : right.Lawful L.recorded O place k := hx.right (fun h => h.2.2) rfl
    simp only [Exec.eval]
    refine tells_bind (ih.eval hw ⟨he, O, place, k, hl, hs⟩ (hc.call .binaryLeft)) fun w₁ v m₁ hv hw₁ hg₁ _ => ?_
    obtain ⟨he₁, hs₁⟩ := hstay hg₁
    refine tells_bind (ih.eval hw₁ ⟨he₁, O, place, k, hr, hs₁⟩ (hc.call (.binaryRight hv))) fun w₂ u m₂ _ hw₂ _ _ => ?_
    exact tells_ofResult hw₂ fun y hy => (plain_applyBinary hy).placed
  | logical left op right =>
    have hl : left.Lawful L.recorded O place k := hx.left (fun h => h.1) rfl
    have hr : right.Lawful L.recorded O place k := hx.right (fun h => h.2) rfl
    simp only [Exec.eval]
    refine tells_bind (ih.eval hw ⟨he, O, place, k, hl, hs⟩ (hc.call .logicalLeft)) fun w₁ v m₁ hv hw₁ hg₁ hplaced => ?_
    cases hd : decides op.kind v with
    | true =>
      simp only [if_true]
      exact tells_pure hw₁ hplaced
    | false =>
      obtain ⟨he₁, hs₁⟩ := hstay hg₁
      simp only [Bool.false_eq_true, if_false]
      exact ih.eval hw₁ ⟨he₁, O, place, k, hr, hs₁⟩ (hc.call (.logicalRight hv hd))
  | «variable» label name =>
    simp only [Exec.eval]
    exact tells_readName hw
  | assign label name value =>
    obtain ⟨hname, hv⟩ := List.forall_mem_cons.1 hx.2
    simp only [Exec.eval]
    refine tells_bind (ih.eval hw ⟨he, O, place, k, ⟨hx.1, hv⟩, hs⟩ (hc.call .assigned))
      fun w₁ v m₁ _ hw₁ _ hplaced => ?_
    refine tells_bind (tells_writeName hw₁ hplaced hname) fun w₂ _ m₂ _ hw₂ _ hplaced₂ => ?_
    exact tells_pure hw₂ hplaced₂
  | call callee paren arguments =>
    obtain ⟨hf, ha⟩ := List.forall_mem_append.1 hx.2
    simp only [Exec.eval]
    refine tells_bind (ih.eval hw ⟨he, O, place, k, ⟨hx.1.1, hf⟩, hs⟩ (hc.call .callee))
      fun w₁ f m₁ hv hw₁ hg₁ hf₁ => ?_
    obtain ⟨he₁, hs₁⟩ := hstay hg₁
    refine tells_bind (ih.evalAll hw₁ ⟨he₁, O, place, k, Expr.lawfulAll hx.1.2 ha, hs₁⟩ (hc.call (.arguments hv)))
      fun w₂ vs m₂ hvs hw₂ hg₂ hplaced => ?_
    exact ih.call hw₂ ⟨hf₁.mono hg₂, hplaced⟩ (hc.call (.called hv hvs))
  | get object name =>
    simp only [Exec.eval]
    refine tells_bind (ih.eval hw ⟨he, O, place, k, hx, hs⟩ (hc.call .getObject)) fun w₁ v m₁ hv hw₁ _ hplaced => ?_
    cases v with
    | object o c =>
      exact tells_getProperty hw₁ hplaced fun method hfield hm => ⟨σ, _, hc.here, .property hv hfield hm⟩
    | _ => exact tells_fail hw₁
  | set object name value =>
    have ho : object.Lawful L.recorded O place k := hx.left (fun h => h.1) rfl
    have hvalue : value.Lawful L.recorded O place k := hx.right (fun h => h.2) rfl
    simp only [Exec.eval]
    refine tells_bind (ih.eval hw ⟨he, O, place, k, ho, hs⟩ (hc.call .setObject)) fun w₁ v m₁ hv hw₁ hg₁ _ => ?_
    cases v with
    | object o c =>
      obtain ⟨he₁, hs₁⟩ := hstay hg₁
      refine tells_bind (ih.eval hw₁ ⟨he₁, O, place, k, hvalue, hs₁⟩ (hc.call (.setValue hv)))
        fun w₂ u m₂ _ hw₂ _ hu => ?_
      refine tells_bind (tells_setField hw₂ hu) fun w₃ _ m₃ _ hw₃ _ hu₃ => ?_
      exact tells_pure hw₃ hu₃
    | _ => exact tells_fail hw₁
  | this label keyword =>
    simp only [Exec.eval]
    exact tells_readName hw
  | super label keyword name =>
    simp only [Exec.eval]
    refine tells_getSuper hw fun d parent o c method hd hparent hthis hm => ?_
    exact ⟨σ, _, hc.here, .super hd hparent hthis hm⟩

theorem tells_evalAll (ih : Telling L σ n) {xs : List Expr} (hw : w.At L m) (hr : (Task.evalAll e xs).Placed L w)
    (hc : L.Covers σ ⟨n + 1, .evalAll e xs, m⟩) :
    (Exec.evalAll (n + 1) σ e xs m).Tells L w fun w' vs => ∀ v ∈ vs, v.Placed L w' := by
  obtain ⟨he, O, place, k, hx, hs⟩ := hr
  cases xs with
  | nil =>
    simp only [Exec.evalAll]
    exact tells_pure hw (by simp)
  | cons x xs =>
    obtain ⟨hx, hxs⟩ := List.forall_mem_cons.1 hx
    simp only [Exec.evalAll]
    refine tells_bind (ih.eval hw ⟨he, O, place, k, hx, hs⟩ (hc.call .firstArgument)) fun w₁ v m₁ hv hw₁ hg₁ hplaced => ?_
    have hready : (Task.evalAll e xs).Placed L w₁ :=
      ⟨Nat.lt_of_lt_of_le he hg₁.size, O, place, k, hxs, hs.mono hg₁ he⟩
    refine tells_bind (ih.evalAll hw₁ hready (hc.call (.otherArguments hv))) fun w₂ vs m₂ _ hw₂ hg₂ hvs => ?_
    exact tells_pure hw₂ (List.forall_mem_cons.2 ⟨hplaced.mono hg₂, hvs⟩)

theorem tells_call (ih : Telling L σ n) (hσ : σ.Serves L) {f : Value} {vs : List Value} {paren : Token} (hw : w.At L m)
    (hr : (Task.call f vs paren).Placed L w) (hc : L.Covers σ ⟨n + 1, .call f vs paren, m⟩) :
    (Exec.call (n + 1) σ f vs paren m).Tells L w fun w' v => v.Placed L w' := by
  obtain ⟨hf, hvs⟩ := hr
  cases f with
  | function tag c =>
    simp only [Exec.call]
    refine tells_bind (tells_checkArity hw) fun w₁ _ m₁ hcheck hw₁ hg₁ hl => ?_
    obtain ⟨-, rfl⟩ := length_of_checkArity hcheck
    exact ih.invoke hw₁ ⟨Closure.Placed.mono hf hg₁, fun v hv => (hvs v hv).mono hg₁⟩ (hc.call (.function hl))
  | builtin tag b =>
    simp only [Exec.call]
    refine tells_bind (tells_checkArity hw) fun w₁ _ m₁ _ hw₁ hg₁ _ => ?_
    exact tells_runBuiltin hw₁ hσ.hosts fun v hv => (hvs v hv).mono hg₁
  | klass c =>
    simp only [Exec.call]
    refine tells_bind (tells_checkArity hw) fun w₁ _ m₁ hcheck hw₁ hg₁ hl => ?_
    obtain ⟨-, rfl⟩ := length_of_checkArity hcheck
    refine tells_bind (tells_newObject hw₁ (hf.mono hg₁)) fun w₂ this m₂ hnew hw₂ hg₂ hthis => ?_
    obtain ⟨rfl, hplaced⟩ := hthis
    cases hm : c.method? FunctionDecl.initName with
    | none => exact tells_pure hw₂ hplaced
    | some initializer =>
      have hlooked : LookedUp L m₂ initializer (.object m₁.heap.objects.size c) := by
        have hsize : m₂.heap.frames.size = m₁.heap.frames.size := by
          cases hnew
          rfl
        refine ⟨σ, _, hc.here, ?_⟩
        rw [hsize]
        exact .construct hl hm
      refine tells_bind (tells_bindThis hw₂ (Class.Every.method hplaced hm) hplaced ⟨_, _, rfl⟩ hlooked)
        fun w₃ bound m₃ hbind hw₃ hg₃ hbound => ?_
      have hvs₃ : ∀ v ∈ vs, v.Placed L w₃ := fun v hv => (((hvs v hv).mono hg₁).mono hg₂).mono hg₃
      refine tells_bind (ih.invoke hw₃ ⟨hbound, hvs₃⟩ (hc.call (.initializer hl hnew hm hbind)))
        fun w₄ _ m₄ _ hw₄ hg₄ _ => ?_
      exact tells_pure hw₄ ((hplaced.mono hg₃).mono hg₄)
  | _ =>
    simp only [Exec.call]
    exact tells_fail hw

theorem tells_invoke (ih : Telling L σ n) {c : Closure} {vs : List Value} (hw : w.At L m)
    (hr : (Task.invoke c vs).Placed L w) (hc : L.Covers σ ⟨n + 1, .invoke c vs, m⟩) :
    (Exec.invoke (n + 1) σ c vs m).Tells L w fun w' v => v.Placed L w' := by
  obtain ⟨hclosure, hvs⟩ := hr
  obtain ⟨O, place, k, hl, hs, -⟩ := hclosure.code
  simp only [Exec.invoke]
  refine tells_bind (tells_callFrame hw hclosure.lt hs hvs) fun w₁ e m₁ hframe hw₁ _ hseat => ?_
  have hready : (Task.execAll e c.declaration.body).Placed L w₁ := ⟨hseat.1, O, place, k + 1, hl.body, hseat.2⟩
  refine tells_bind (ih.execAll hw₁ hready (hc.call (.body hframe))) fun w₂ flow m₂ _ hw₂ _ hflow => ?_
  exact tells_callResult hw₂ hflow

theorem tells_exec (ih : Telling L σ n) {s : Stmt} (hw : w.At L m) (hr : (Task.exec e s).Placed L w)
    (hc : L.Covers σ ⟨n + 1, .exec e s, m⟩) :
    (Exec.exec (n + 1) σ e s m).Tells L w fun w' flow => flow.Placed L w' := by
  obtain ⟨he, O, place, k, hs, hseat⟩ := hr
  have hstay : ∀ {w' : Scene}, w.Grows w' → e < w'.heap.frames.size ∧ w'.Seats e O place k := fun hg =>
    ⟨Nat.lt_of_lt_of_le he hg.size, hseat.mono hg he⟩
  cases s with
  | expr x =>
    simp only [Exec.exec]
    refine tells_bind (ih.eval hw ⟨he, O, place, k, hs, hseat⟩ (hc.call .expression)) fun w₁ v m₁ _ hw₁ _ _ => ?_
    exact tells_pure hw₁ trivial
  | print keyword x =>
    simp only [Exec.exec]
    refine tells_bind (ih.eval hw ⟨he, O, place, k, hs, hseat⟩ (hc.call .printed)) fun w₁ v m₁ _ hw₁ _ _ => ?_
    refine tells_bind (tells_print hw₁) fun w₂ _ m₂ _ hw₂ _ _ => ?_
    exact tells_pure hw₂ trivial
  | varDecl name x =>
    cases x with
    | none =>
      simp only [Exec.exec]
      refine tells_bind (tells_define hw he (fun _ => hs.1) (v := .nil) trivial) fun w₁ _ m₁ _ hw₁ _ _ => ?_
      exact tells_pure hw₁ trivial
    | some x =>
      simp only [Exec.exec]
      refine tells_bind (ih.eval hw ⟨he, O, place, k, hs.2 x rfl, hseat⟩ (hc.call .initialValue))
        fun w₁ v m₁ _ hw₁ hg₁ hv => ?_
      refine tells_bind (tells_define hw₁ (hstay hg₁).1 (fun _ => hs.1) hv) fun w₂ _ m₂ _ hw₂ _ _ => ?_
      exact tells_pure hw₂ trivial
  | block body =>
    simp only [Exec.exec]
    refine tells_bind (tells_newFrame hw he (by simp)) fun w₁ inner m₁ hnew hw₁ _ hq => ?_
    obtain ⟨rfl, rfl⟩ := hq
    exact ih.execAll hw₁ ⟨Scene.lt_size_push, O, place, k + 1, hs, hseat.push⟩ (hc.call (.block hnew))
  | ifThen c t =>
    simp only [Exec.exec]
    refine tells_bind (ih.eval hw ⟨he, O, place, k, hs.1, hseat⟩ (hc.call .ifTest)) fun w₁ v m₁ hv hw₁ hg₁ _ => ?_
    obtain ⟨he₁, hseat₁⟩ := hstay hg₁
    cases ht : v.truthy with
    | true =>
      simp only [if_true]
      exact ih.exec hw₁ ⟨he₁, O, place, k, hs.2, hseat₁⟩ (hc.call (.ifBranch hv ht))
    | false => exact tells_pure hw₁ trivial
  | ifElse c t f =>
    simp only [Exec.exec]
    refine tells_bind (ih.eval hw ⟨he, O, place, k, hs.1, hseat⟩ (hc.call .ifElseTest)) fun w₁ v m₁ hv hw₁ hg₁ _ => ?_
    obtain ⟨he₁, hseat₁⟩ := hstay hg₁
    cases ht : v.truthy with
    | true =>
      simp only [if_true]
      exact ih.exec hw₁ ⟨he₁, O, place, k, hs.2.1, hseat₁⟩ (hc.call (.thenBranch hv ht))
    | false =>
      simp only [Bool.false_eq_true, if_false]
      exact ih.exec hw₁ ⟨he₁, O, place, k, hs.2.2, hseat₁⟩ (hc.call (.elseBranch hv ht))
  | loop c b i =>
    simp only [Exec.exec]
    exact ih.loop hw ⟨he, O, place, k, hs, hseat⟩ (hc.call .loop)
  | funDecl d =>
    simp only [Exec.exec]
    refine tells_bind (tells_newTag hw) fun w₁ t m₁ _ hw₁ hg₁ _ => ?_
    obtain ⟨he₁, hseat₁⟩ := hstay hg₁
    have hplaced : Value.Placed L w₁ (.function t ⟨d, e, false⟩) :=
      ⟨he₁, ⟨O, ⟨.function, place.klass, false⟩, k, hs.2, hseat₁, rfl, by simp, by simp⟩, by simp⟩
    refine tells_bind (tells_define hw₁ he₁ (fun _ => hs.1) hplaced) fun w₂ _ m₂ _ hw₂ _ _ => ?_
    exact tells_pure hw₂ trivial
  | returnFrom keyword x =>
    cases x with
    | none =>
      simp only [Exec.exec]
      exact tells_pure hw trivial
    | some x =>
      simp only [Exec.exec]
      refine tells_bind (ih.eval hw ⟨he, O, place, k, hs.2.2 x rfl, hseat⟩ (hc.call .returned))
        fun w₁ v m₁ _ hw₁ _ hv => ?_
      exact tells_pure hw₁ hv
  | classDecl name s ms =>
    obtain ⟨hname, hsuper, hmethods⟩ := hs
    cases s with
    | none =>
      simp only [Exec.exec]
      have hmake : (makeClass e name none ms m).Tells L w fun _ _ => True :=
        tells_makeClass hw he hname (by simp) hmethods (by simp [ClassPlace.of]) ⟨σ, _, hc.here, .plain⟩
      refine tells_bind hmake fun w₁ _ m₁ _ hw₁ _ _ => ?_
      exact tells_pure hw₁ trivial
    | some x =>
      simp only [Exec.exec]
      refine tells_bind (ih.eval hw ⟨he, O, place, k, hsuper x rfl, hseat⟩ (hc.call .superclass))
        fun w₁ v m₁ hv hw₁ hg₁ hplaced => ?_
      refine tells_bind (tells_asSuperclass hw₁ hplaced) fun w₂ parent m₂ has hw₂ hg₂ hparent => ?_
      obtain ⟨rfl, rfl⟩ := asSuperclass_done has
      have he₂ := Nat.lt_of_lt_of_le (hstay hg₁).1 hg₂.size
      have hmake : (makeClass e name (some parent) ms m₂).Tells L w₂ fun _ _ => True :=
        tells_makeClass hw₂ he₂ hname (fun c hc => Option.some.inj hc ▸ hparent) hmethods (fun _ => rfl)
          ⟨σ, _, hc.here, .derived hv⟩
      refine tells_bind hmake fun w₃ _ m₃ _ hw₃ _ _ => ?_
      exact tells_pure hw₃ trivial
  | breakLoop keyword =>
    simp only [Exec.exec]
    exact tells_pure hw trivial
  | continueLoop keyword =>
    simp only [Exec.exec]
    exact tells_pure hw trivial

theorem tells_execAll (ih : Telling L σ n) {body : List Stmt} (hw : w.At L m) (hr : (Task.execAll e body).Placed L w)
    (hc : L.Covers σ ⟨n + 1, .execAll e body, m⟩) :
    (Exec.execAll (n + 1) σ e body m).Tells L w fun w' flow => flow.Placed L w' := by
  obtain ⟨he, O, place, k, hs, hseat⟩ := hr
  cases body with
  | nil =>
    simp only [Exec.execAll]
    exact tells_pure hw trivial
  | cons s rest =>
    simp only [Exec.execAll]
    refine tells_bind (ih.exec hw ⟨he, O, place, k, hs.1, hseat⟩ (hc.call .firstStatement))
      fun w₁ flow m₁ hx hw₁ hg₁ hflow => ?_
    cases flow with
    | normal =>
      have hready : (Task.execAll e rest).Placed L w₁ :=
        ⟨Nat.lt_of_lt_of_le he hg₁.size, O, place, k, hs.2, hseat.mono hg₁ he⟩
      exact ih.execAll hw₁ hready (hc.call (.otherStatements hx))
    | _ => exact tells_pure hw₁ hflow

theorem tells_loop (ih : Telling L σ n) {c : Expr} {b : Stmt} {i : Option Expr} (hw : w.At L m)
    (hr : (Task.loop e c b i).Placed L w) (hc : L.Covers σ ⟨n + 1, .loop e c b i, m⟩) :
    (Exec.loop (n + 1) σ e c b i m).Tells L w fun w' flow => flow.Placed L w' := by
  obtain ⟨he, O, place, k, hs, hseat⟩ := hr
  have hstay : ∀ {w' : Scene}, w.Grows w' → e < w'.heap.frames.size ∧ w'.Seats e O place k := fun hg =>
    ⟨Nat.lt_of_lt_of_le he hg.size, hseat.mono hg he⟩
  rw [loop_succ]
  refine tells_bind (ih.eval hw ⟨he, O, place, k, hs.1, hseat⟩ (hc.call .test)) fun w₁ v m₁ hv hw₁ hg₁ _ => ?_
  cases ht : v.truthy with
  | false => exact tells_pure hw₁ trivial
  | true =>
    simp only [if_true]
    obtain ⟨he₁, hseat₁⟩ := hstay hg₁
    refine tells_bind (ih.exec hw₁ ⟨he₁, O, { place with inLoop := true }, k, hs.2.1, hseat₁⟩ (hc.call (.round hv ht)))
      fun w₂ flow m₂ hb hw₂ hg₂ hflow => ?_
    obtain ⟨he₂, hseat₂⟩ := hstay (hg₁.trans hg₂)
    have hagain : flow.goesOn = true → (again n σ e c b i m₂).Tells L w₂ fun w' flow => flow.Placed L w' := by
      intro hgo
      cases i with
      | none => exact ih.loop hw₂ ⟨he₂, O, place, k, hs, hseat₂⟩ (hc.call (.again hv ht hb hgo))
      | some x =>
        refine tells_bind (ih.eval hw₂ ⟨he₂, O, place, k, hs.2.2 x rfl, hseat₂⟩ (hc.call (.increment hv ht hb hgo)))
          fun w₃ u m₃ hu hw₃ hg₃ _ => ?_
        obtain ⟨he₃, hseat₃⟩ := hstay ((hg₁.trans hg₂).trans hg₃)
        exact ih.loop hw₃ ⟨he₃, O, place, k, hs, hseat₃⟩ (hc.call (.againBehindIncrement hv ht hb hgo hu))
    cases flow with
    | normal => exact hagain rfl
    | returned v => exact tells_pure hw₂ hflow
    | broken => exact tells_pure hw₂ trivial
    | continued => exact hagain rfl

end Telling

variable {L : Lore} {σ : Setting}

/-- Evaluation keeps scenes sound at every depth. -/
theorem telling (hσ : σ.Serves L) (n : Nat) : Telling L σ n := by
  induction n with
  | zero =>
    constructor <;> intros <;>
      simp only [Exec.eval, Exec.evalAll, Exec.call, Exec.invoke, Exec.exec, Exec.execAll, Exec.loop] <;> trivial
  | succ n ih =>
    exact ⟨ih.tells_eval, ih.tells_evalAll, ih.tells_call hσ, ih.tells_invoke, ih.tells_exec, ih.tells_execAll,
      ih.tells_loop⟩

/-- Top-level code is seated everywhere. -/
theorem Scene.seats_top {w : Scene} {e : FrameRef} {O : Occurrence → Prop} {k : Nat} : w.Seats e O .top k :=
  fun h => absurd rfl h

/-- A program keeps scenes sound. -/
theorem tells_program (hσ : σ.Serves L) {n : Nat} {body : List Stmt} {w : Scene} {m : Machine} (hw : w.At L m)
    (hb : (Task.program body).Placed L w) (hc : L.Covers σ ⟨n, .program body, m⟩) :
    (Exec.program n σ body m).Tells L w fun _ _ => True := by
  obtain ⟨O, hb⟩ := hb
  induction body generalizing w m with
  | nil => exact Exec.tells_pure hw trivial
  | cons s rest ih =>
    simp only [Exec.program]
    have hready : (Task.exec Heap.globals s).Placed L w := ⟨hw.sound.root, O, .top, 0, hb.1, Scene.seats_top⟩
    refine Exec.tells_bind ((telling hσ n).exec hw hready (hc.call .topStatement)) fun w₁ flow m₁ hx hw₁ _ _ => ?_
    exact ih hw₁ (hc.call (.restOfProgram hx)) hb.2

/-! ## every point of a run -/

/-- The scene at a point is sound and has what the task needs. -/
def Point.Placed (L : Lore) (p : Point) : Prop := ∃ w : Scene, w.At L p.machine ∧ p.task.Placed L w

section

open Exec

variable {p q : Point} {n : Nat} {w : Scene} {m m₁ m₂ : Machine} {e : FrameRef} {O : Occurrence → Prop} {place : Place}
  {k : Nat} {c : Expr} {b : Stmt} {i : Option Expr} {v : Value}

/-- Behind an expression, the code around it is seated where it was. -/
theorem Scene.Seats.behind_eval (hs : w.Seats e O place k) (he : e < w.heap.frames.size) (hσ : σ.Serves L)
    (hw : w.At L m) {x : Expr} (hx : x.Lawful L.recorded O place k) (hc : L.Covers σ ⟨n, .eval e x, m⟩)
    (h : eval n σ e x m = .done v m₁) :
    ∃ w' : Scene, w'.At L m₁ ∧ e < w'.heap.frames.size ∧ w'.Seats e O place k ∧ v.Placed L w' := by
  obtain ⟨w', hw', hg, hv⟩ := ((telling hσ n).eval hw ⟨he, O, place, k, hx, hs⟩ hc).done h
  exact ⟨w', hw', Nat.lt_of_lt_of_le he hg.size, hs.mono hg he, hv⟩

/-- Behind the body of a loop, its code is seated where it was. -/
theorem Scene.Seats.behind_round (hs : w.Seats e O place k) (he : e < w.heap.frames.size) (hσ : σ.Serves L)
    (hw : w.At L m) (hl : (Stmt.loop c b i).Lawful L.recorded O place k)
    (hc : L.Covers σ ⟨n + 1, .loop e c b i, m⟩) (h : eval n σ e c m = .done v m₁) (ht : v.truthy = true) {flow : Flow}
    (hb : exec n σ e b m₁ = .done flow m₂) :
    ∃ w' : Scene, w'.At L m₂ ∧ e < w'.heap.frames.size ∧ w'.Seats e O place k := by
  obtain ⟨w₁, hw₁, he₁, hs₁, -⟩ := hs.behind_eval he hσ hw hl.1 (hc.call .test) h
  have hbody : (Task.exec e b).Placed L w₁ := ⟨he₁, O, { place with inLoop := true }, k, hl.2.1, hs₁⟩
  obtain ⟨w₂, hw₂, hg, -⟩ := ((telling hσ n).exec hw₁ hbody (hc.call (.round h ht))).done hb
  exact ⟨w₂, hw₂, Nat.lt_of_lt_of_le he₁ hg.size, hs₁.mono hg he₁⟩

/-- What a task calls finds the scene sound and what it needs placed. -/
theorem Calls.placed (hσ : σ.Serves L) (h : Calls σ p q) (hc : L.Covers σ p) (hp : p.Placed L) : q.Placed L := by
  obtain ⟨w, hw, hr⟩ := hp
  cases h with
  | group => exact ⟨w, hw, hr⟩
  | operand =>
    obtain ⟨he, O, place, k, hx, hs⟩ := hr
    exact ⟨w, hw, he, O, place, k, ⟨hx.1.2, hx.2⟩, hs⟩
  | binaryLeft =>
    obtain ⟨he, O, place, k, hx, hs⟩ := hr
    exact ⟨w, hw, he, O, place, k, hx.left (fun h => h.2.1) rfl, hs⟩
  | binaryRight hl =>
    obtain ⟨he, O, place, k, hx, hs⟩ := hr
    obtain ⟨w', hw', he', hs', -⟩ := hs.behind_eval he hσ hw (hx.left (fun h => h.2.1) rfl) (hc.call .binaryLeft) hl
    exact ⟨w', hw', he', O, place, k, hx.right (fun h => h.2.2) rfl, hs'⟩
  | logicalLeft =>
    obtain ⟨he, O, place, k, hx, hs⟩ := hr
    exact ⟨w, hw, he, O, place, k, hx.left (fun h => h.1) rfl, hs⟩
  | logicalRight hl _ =>
    obtain ⟨he, O, place, k, hx, hs⟩ := hr
    obtain ⟨w', hw', he', hs', -⟩ := hs.behind_eval he hσ hw (hx.left (fun h => h.1) rfl) (hc.call .logicalLeft) hl
    exact ⟨w', hw', he', O, place, k, hx.right (fun h => h.2) rfl, hs'⟩
  | assigned =>
    obtain ⟨he, O, place, k, hx, hs⟩ := hr
    exact ⟨w, hw, he, O, place, k, ⟨hx.1, (List.forall_mem_cons.1 hx.2).2⟩, hs⟩
  | callee =>
    obtain ⟨he, O, place, k, hx, hs⟩ := hr
    exact ⟨w, hw, he, O, place, k, ⟨hx.1.1, (List.forall_mem_append.1 hx.2).1⟩, hs⟩
  | arguments hf =>
    obtain ⟨he, O, place, k, hx, hs⟩ := hr
    obtain ⟨hxf, hxs⟩ := List.forall_mem_append.1 hx.2
    obtain ⟨w', hw', he', hs', -⟩ := hs.behind_eval he hσ hw ⟨hx.1.1, hxf⟩ (hc.call .callee) hf
    exact ⟨w', hw', he', O, place, k, Expr.lawfulAll hx.1.2 hxs, hs'⟩
  | @called n _ _ _ _ _ _ _ _ _ hf hvs =>
    obtain ⟨he, O, place, k, hx, hs⟩ := hr
    obtain ⟨hxf, hxs⟩ := List.forall_mem_append.1 hx.2
    obtain ⟨w₁, hw₁, he₁, hs₁, hv⟩ := hs.behind_eval he hσ hw ⟨hx.1.1, hxf⟩ (hc.call .callee) hf
    have hready : (Task.evalAll _ _).Placed L w₁ := ⟨he₁, O, place, k, Expr.lawfulAll hx.1.2 hxs, hs₁⟩
    obtain ⟨w₂, hw₂, hg₂, hvs'⟩ := ((telling hσ n).evalAll hw₁ hready (hc.call (.arguments hf))).done hvs
    exact ⟨w₂, hw₂, hv.mono hg₂, hvs'⟩
  | getObject => exact ⟨w, hw, hr⟩
  | setObject =>
    obtain ⟨he, O, place, k, hx, hs⟩ := hr
    exact ⟨w, hw, he, O, place, k, hx.left (fun h => h.1) rfl, hs⟩
  | setValue ho =>
    obtain ⟨he, O, place, k, hx, hs⟩ := hr
    obtain ⟨w', hw', he', hs', -⟩ := hs.behind_eval he hσ hw (hx.left (fun h => h.1) rfl) (hc.call .setObject) ho
    exact ⟨w', hw', he', O, place, k, hx.right (fun h => h.2) rfl, hs'⟩
  | firstArgument =>
    obtain ⟨he, O, place, k, hx, hs⟩ := hr
    exact ⟨w, hw, he, O, place, k, (List.forall_mem_cons.1 hx).1, hs⟩
  | otherArguments hv =>
    obtain ⟨he, O, place, k, hx, hs⟩ := hr
    obtain ⟨hx, hxs⟩ := List.forall_mem_cons.1 hx
    obtain ⟨w', hw', he', hs', -⟩ := hs.behind_eval he hσ hw hx (hc.call .firstArgument) hv
    exact ⟨w', hw', he', O, place, k, hxs, hs'⟩
  | function hl => exact ⟨w, hw, hr.1, hr.2⟩
  | initializer hl ho hi hb =>
    obtain ⟨hclass, hvs⟩ := hr
    obtain ⟨w₁, hw₁, hg₁, rfl, hthis⟩ := (tells_newObject hw hclass).done ho
    have hlooked : LookedUp L _ _ _ := ⟨σ, _, hc.here, .construct hl hi⟩
    cases ho
    obtain ⟨w₂, hw₂, hg₂, hbound⟩ :=
      (tells_bindThis hw₁ (Class.Every.method hthis hi) hthis ⟨_, _, rfl⟩ hlooked).done hb
    exact ⟨w₂, hw₂, hbound, fun v hv => ((hvs v hv).mono hg₁).mono hg₂⟩
  | body hf =>
    obtain ⟨hclosure, hvs⟩ := hr
    obtain ⟨O, place, k, hl, hs, -⟩ := hclosure.code
    obtain ⟨w', hw', -, he', hs'⟩ := (tells_callFrame hw hclosure.lt hs hvs).done hf
    exact ⟨w', hw', he', O, place, k + 1, hl.body, hs'⟩
  | expression => exact ⟨w, hw, hr⟩
  | printed => exact ⟨w, hw, hr⟩
  | initialValue =>
    obtain ⟨he, O, place, k, hx, hs⟩ := hr
    exact ⟨w, hw, he, O, place, k, hx.2 _ rfl, hs⟩
  | block hb =>
    obtain ⟨he, O, place, k, hx, hs⟩ := hr
    obtain ⟨w', hw', -, rfl, rfl⟩ := (tells_newFrame hw he (by simp)).done hb
    exact ⟨_, hw', Scene.lt_size_push, O, place, k + 1, hx, hs.push⟩
  | ifTest =>
    obtain ⟨he, O, place, k, hx, hs⟩ := hr
    exact ⟨w, hw, he, O, place, k, hx.1, hs⟩
  | ifBranch hv _ =>
    obtain ⟨he, O, place, k, hx, hs⟩ := hr
    obtain ⟨w', hw', he', hs', -⟩ := hs.behind_eval he hσ hw hx.1 (hc.call .ifTest) hv
    exact ⟨w', hw', he', O, place, k, hx.2, hs'⟩
  | ifElseTest =>
    obtain ⟨he, O, place, k, hx, hs⟩ := hr
    exact ⟨w, hw, he, O, place, k, hx.1, hs⟩
  | thenBranch hv _ =>
    obtain ⟨he, O, place, k, hx, hs⟩ := hr
    obtain ⟨w', hw', he', hs', -⟩ := hs.behind_eval he hσ hw hx.1 (hc.call .ifElseTest) hv
    exact ⟨w', hw', he', O, place, k, hx.2.1, hs'⟩
  | elseBranch hv _ =>
    obtain ⟨he, O, place, k, hx, hs⟩ := hr
    obtain ⟨w', hw', he', hs', -⟩ := hs.behind_eval he hσ hw hx.1 (hc.call .ifElseTest) hv
    exact ⟨w', hw', he', O, place, k, hx.2.2, hs'⟩
  | loop => exact ⟨w, hw, hr⟩
  | returned =>
    obtain ⟨he, O, place, k, hx, hs⟩ := hr
    exact ⟨w, hw, he, O, place, k, hx.2.2 _ rfl, hs⟩
  | superclass =>
    obtain ⟨he, O, place, k, hx, hs⟩ := hr
    exact ⟨w, hw, he, O, place, k, hx.2.1 _ rfl, hs⟩
  | firstStatement =>
    obtain ⟨he, O, place, k, hx, hs⟩ := hr
    exact ⟨w, hw, he, O, place, k, hx.1, hs⟩
  | @otherStatements n _ _ _ _ _ hx =>
    obtain ⟨he, O, place, k, hl, hs⟩ := hr
    have hready : (Task.exec _ _).Placed L w := ⟨he, O, place, k, hl.1, hs⟩
    obtain ⟨w', hw', hg, -⟩ := ((telling hσ n).exec hw hready (hc.call .firstStatement)).done hx
    exact ⟨w', hw', Nat.lt_of_lt_of_le he hg.size, O, place, k, hl.2, hs.mono hg he⟩
  | test =>
    obtain ⟨he, O, place, k, hx, hs⟩ := hr
    exact ⟨w, hw, he, O, place, k, hx.1, hs⟩
  | round hv _ =>
    obtain ⟨he, O, place, k, hx, hs⟩ := hr
    obtain ⟨w', hw', he', hs', -⟩ := hs.behind_eval he hσ hw hx.1 (hc.call .test) hv
    exact ⟨w', hw', he', O, { place with inLoop := true }, k, hx.2.1, hs'⟩
  | increment hv ht hb _ =>
    obtain ⟨he, O, place, k, hx, hs⟩ := hr
    obtain ⟨w', hw', he', hs'⟩ := hs.behind_round he hσ hw hx hc hv ht hb
    exact ⟨w', hw', he', O, place, k, hx.2.2 _ rfl, hs'⟩
  | again hv ht hb _ =>
    obtain ⟨he, O, place, k, hx, hs⟩ := hr
    obtain ⟨w', hw', he', hs'⟩ := hs.behind_round he hσ hw hx hc hv ht hb
    exact ⟨w', hw', he', O, place, k, hx, hs'⟩
  | againBehindIncrement hv ht hb hgo hi =>
    obtain ⟨he, O, place, k, hx, hs⟩ := hr
    obtain ⟨w₁, hw₁, he₁, hs₁⟩ := hs.behind_round he hσ hw hx hc hv ht hb
    have hcovers := hc.call (.increment hv ht hb hgo)
    obtain ⟨w₂, hw₂, he₂, hs₂, -⟩ := hs₁.behind_eval he₁ hσ hw₁ (hx.2.2 _ rfl) hcovers hi
    exact ⟨w₂, hw₂, he₂, O, place, k, hx, hs₂⟩
  | topStatement =>
    obtain ⟨O, hl⟩ := hr
    exact ⟨w, hw, hw.sound.root, O, .top, 0, hl.1, Scene.seats_top⟩
  | @restOfProgram n s _ _ _ _ hx =>
    obtain ⟨O, hl⟩ := hr
    have hready : (Task.exec Heap.globals s).Placed L w := ⟨hw.sound.root, O, .top, 0, hl.1, Scene.seats_top⟩
    obtain ⟨w', hw', -⟩ := ((telling hσ n).exec hw hready (hc.call .topStatement)).done hx
    exact ⟨w', hw', O, hl.2⟩

/-- The scene is sound, and what is evaluated placed in it, at every point of a run. -/
theorem Visits.placed (hσ : σ.Serves L) (h : Visits σ p q) (hc : L.Covers σ p) (hp : p.Placed L) : q.Placed L := by
  induction h with
  | refl => exact hp
  | tail hv hcall ih => exact hcall.placed hσ (fun r hr => hc r (hv.trans hr)) ih

end

end ScriptLang
