import Mathlib.Logic.Relation
import ScriptLang.Proofs.Running.Preservation

/-!
# The points that a run visits

* `Point` — a task, the machine that it finds, and the depth that is left for it;
* `Calls σ p q` — the task at `p` calls the one at `q`, after whatever it has done before that; there is one constructor
  for each call in the recursion;
* `Visits σ p q` — from `p` the run comes to `q`;
* `Visits.ready` — if the world at `p` is sound and ready, so is the one at every point that is visited.
-/

namespace ScriptLang

/-- A task that a run begins, and the machine it finds. -/
structure Point where
  /-- The depth of calls that is left. -/
  fuel : Nat
  task : Task
  machine : Machine

/-- A loop goes on behind a round that ended so. -/
def Flow.goesOn : Flow → Bool
  | .normal => true
  | .continued => true
  | _ => false

open Exec in
/-- One task calls another. -/
inductive Calls (σ : Setting) : Point → Point → Prop
  -- expressions
  | group {n e x m} : Calls σ ⟨n + 1, .eval e (.group x), m⟩ ⟨n, .eval e x, m⟩
  | operand {n e op x m} : Calls σ ⟨n + 1, .eval e (.unary op x), m⟩ ⟨n, .eval e x, m⟩
  | binaryLeft {n e l op r m} : Calls σ ⟨n + 1, .eval e (.binary l op r), m⟩ ⟨n, .eval e l, m⟩
  | binaryRight {n e l op r m v m'} : eval n σ e l m = .done v m' →
      Calls σ ⟨n + 1, .eval e (.binary l op r), m⟩ ⟨n, .eval e r, m'⟩
  | logicalLeft {n e l op r m} : Calls σ ⟨n + 1, .eval e (.logical l op r), m⟩ ⟨n, .eval e l, m⟩
  | logicalRight {n e l op r m v m'} : eval n σ e l m = .done v m' → decides op.kind v = false →
      Calls σ ⟨n + 1, .eval e (.logical l op r), m⟩ ⟨n, .eval e r, m'⟩
  | assigned {n e label name x m} : Calls σ ⟨n + 1, .eval e (.assign label name x), m⟩ ⟨n, .eval e x, m⟩
  | callee {n e f paren xs m} : Calls σ ⟨n + 1, .eval e (.call f paren xs), m⟩ ⟨n, .eval e f, m⟩
  | arguments {n e f paren xs m v m'} : eval n σ e f m = .done v m' →
      Calls σ ⟨n + 1, .eval e (.call f paren xs), m⟩ ⟨n, .evalAll e xs, m'⟩
  | called {n e f paren xs m v m₁ vs m₂} : eval n σ e f m = .done v m₁ → evalAll n σ e xs m₁ = .done vs m₂ →
      Calls σ ⟨n + 1, .eval e (.call f paren xs), m⟩ ⟨n, .call v vs paren, m₂⟩
  | getObject {n e x name m} : Calls σ ⟨n + 1, .eval e (.get x name), m⟩ ⟨n, .eval e x, m⟩
  | setObject {n e x name y m} : Calls σ ⟨n + 1, .eval e (.set x name y), m⟩ ⟨n, .eval e x, m⟩
  | setValue {n e x name y m o c m'} : eval n σ e x m = .done (.object o c) m' →
      Calls σ ⟨n + 1, .eval e (.set x name y), m⟩ ⟨n, .eval e y, m'⟩
  | firstArgument {n e x xs m} : Calls σ ⟨n + 1, .evalAll e (x :: xs), m⟩ ⟨n, .eval e x, m⟩
  | otherArguments {n e x xs m v m'} : eval n σ e x m = .done v m' →
      Calls σ ⟨n + 1, .evalAll e (x :: xs), m⟩ ⟨n, .evalAll e xs, m'⟩
  -- calls
  | function {n tag c vs paren m} : vs.length = c.arity →
      Calls σ ⟨n + 1, .call (.function tag c) vs paren, m⟩ ⟨n, .invoke c vs, m⟩
  | initializer {n c vs paren method m this m₁ bound m₂} : vs.length = c.arity → newObject c m = .done this m₁ →
      c.method? FunctionDecl.initName = some method → bindThis method this m₁ = .done bound m₂ →
      Calls σ ⟨n + 1, .call (.klass c) vs paren, m⟩ ⟨n, .invoke bound vs, m₂⟩
  | body {n c vs m e m'} : callFrame c vs m = .done e m' →
      Calls σ ⟨n + 1, .invoke c vs, m⟩ ⟨n, .execAll e c.declaration.body, m'⟩
  -- statements
  | expression {n e x m} : Calls σ ⟨n + 1, .exec e (.expr x), m⟩ ⟨n, .eval e x, m⟩
  | printed {n e keyword x m} : Calls σ ⟨n + 1, .exec e (.print keyword x), m⟩ ⟨n, .eval e x, m⟩
  | initialValue {n e name x m} : Calls σ ⟨n + 1, .exec e (.varDecl name (some x)), m⟩ ⟨n, .eval e x, m⟩
  | block {n e body m inner m'} : newFrame e [] m = .done inner m' →
      Calls σ ⟨n + 1, .exec e (.block body), m⟩ ⟨n, .execAll inner body, m'⟩
  | ifTest {n e c t m} : Calls σ ⟨n + 1, .exec e (.ifThen c t), m⟩ ⟨n, .eval e c, m⟩
  | ifBranch {n e c t m v m'} : eval n σ e c m = .done v m' → v.truthy = true →
      Calls σ ⟨n + 1, .exec e (.ifThen c t), m⟩ ⟨n, .exec e t, m'⟩
  | ifElseTest {n e c t f m} : Calls σ ⟨n + 1, .exec e (.ifElse c t f), m⟩ ⟨n, .eval e c, m⟩
  | thenBranch {n e c t f m v m'} : eval n σ e c m = .done v m' → v.truthy = true →
      Calls σ ⟨n + 1, .exec e (.ifElse c t f), m⟩ ⟨n, .exec e t, m'⟩
  | elseBranch {n e c t f m v m'} : eval n σ e c m = .done v m' → v.truthy = false →
      Calls σ ⟨n + 1, .exec e (.ifElse c t f), m⟩ ⟨n, .exec e f, m'⟩
  | loop {n e c b i m} : Calls σ ⟨n + 1, .exec e (.loop c b i), m⟩ ⟨n, .loop e c b i, m⟩
  | returned {n e keyword x m} : Calls σ ⟨n + 1, .exec e (.returnFrom keyword (some x)), m⟩ ⟨n, .eval e x, m⟩
  | superclass {n e name x ms m} : Calls σ ⟨n + 1, .exec e (.classDecl name (some x) ms), m⟩ ⟨n, .eval e x, m⟩
  | firstStatement {n e s rest m} : Calls σ ⟨n + 1, .execAll e (s :: rest), m⟩ ⟨n, .exec e s, m⟩
  | otherStatements {n e s rest m m'} : exec n σ e s m = .done .normal m' →
      Calls σ ⟨n + 1, .execAll e (s :: rest), m⟩ ⟨n, .execAll e rest, m'⟩
  -- loops
  | test {n e c b i m} : Calls σ ⟨n + 1, .loop e c b i, m⟩ ⟨n, .eval e c, m⟩
  | round {n e c b i m v m'} : eval n σ e c m = .done v m' → v.truthy = true →
      Calls σ ⟨n + 1, .loop e c b i, m⟩ ⟨n, .exec e b, m'⟩
  | increment {n e c b x m v m₁ flow m₂} : eval n σ e c m = .done v m₁ → v.truthy = true →
      exec n σ e b m₁ = .done flow m₂ → flow.goesOn = true →
      Calls σ ⟨n + 1, .loop e c b (some x), m⟩ ⟨n, .eval e x, m₂⟩
  | again {n e c b m v m₁ flow m₂} : eval n σ e c m = .done v m₁ → v.truthy = true →
      exec n σ e b m₁ = .done flow m₂ → flow.goesOn = true →
      Calls σ ⟨n + 1, .loop e c b none, m⟩ ⟨n, .loop e c b none, m₂⟩
  | againBehindIncrement {n e c b x m v m₁ flow m₂ u m₃} : eval n σ e c m = .done v m₁ → v.truthy = true →
      exec n σ e b m₁ = .done flow m₂ → flow.goesOn = true → eval n σ e x m₂ = .done u m₃ →
      Calls σ ⟨n + 1, .loop e c b (some x), m⟩ ⟨n, .loop e c b (some x), m₃⟩
  -- programs
  | topStatement {n s rest m} : Calls σ ⟨n, .program (s :: rest), m⟩ ⟨n, .exec Heap.globals s, m⟩
  | restOfProgram {n s rest m flow m'} : exec n σ Heap.globals s m = .done flow m' →
      Calls σ ⟨n, .program (s :: rest), m⟩ ⟨n, .program rest, m'⟩

/-- From one point a run comes to another. -/
def Visits (σ : Setting) : Point → Point → Prop := Relation.ReflTransGen (Calls σ)

/-- The world at a point is sound and has what the task needs. -/
def Point.Ready (S : Site → Prop) (p : Point) : Prop :=
  ∃ w : World, w.heap = p.machine.heap ∧ w.Sound S ∧ p.task.Ready S w

section

variable {S : Site → Prop} {σ : Setting} {p q : Point}

open Exec

section

variable {n : Nat} {w : World} {e : FrameRef} {c : Expr} {b : Stmt} {i : Option Expr} {v : Value} {m m₁ m₂ : Machine}

/-- Behind an expression, evaluation stands where it stood before. -/
theorem World.Stands.behind_eval {skip : Option String} {ctx : Context} (hs : w.Stands skip ctx e) (hσ : σ.Suits S)
    (hw : w.Sound S) (hm : w.heap = m.heap) (hc : c.Fits S ctx skip) (h : eval n σ e c m = .done v m₁) :
    ∃ w' : World, w'.heap = m₁.heap ∧ w'.Sound S ∧ w'.Stands skip ctx e := by
  obtain ⟨w', hm', hw', hg, -⟩ := ((keeping hσ n).eval hw ⟨ctx, skip, hc, hs⟩).done hm h
  exact ⟨w', hm', hw', hs.mono hg⟩

/-- Behind the test of a loop. -/
theorem World.ready_round (hσ : σ.Suits S) (hw : w.Sound S) (hm : w.heap = m.heap)
    (hr : (Task.loop e c b i).Ready S w) (hc : eval n σ e c m = .done v m₁) :
    ∃ ctx, ∃ w' : World, w'.heap = m₁.heap ∧ w'.Sound S ∧ (Stmt.loop c b i).Fits S ctx ∧ w'.Stands none ctx e := by
  obtain ⟨ctx, hf, hs⟩ := hr
  obtain ⟨w', hm', hw', hs'⟩ := hs.behind_eval hσ hw hm hf.1 hc
  exact ⟨ctx, w', hm', hw', hf, hs'⟩

/-- Behind the body of a loop, which declares nothing. -/
theorem World.ready_behind_round (hσ : σ.Suits S) (hw : w.Sound S) (hm : w.heap = m.heap)
    (hr : (Task.loop e c b i).Ready S w) (hc : eval n σ e c m = .done v m₁) {flow : Flow}
    (hb : exec n σ e b m₁ = .done flow m₂) :
    ∃ ctx, ∃ w' : World, w'.heap = m₂.heap ∧ w'.Sound S ∧ (Stmt.loop c b i).Fits S ctx ∧ w'.Stands none ctx e := by
  obtain ⟨ctx, w₁, hm₁, hw₁, hf, hs⟩ := World.ready_round hσ hw hm hr hc
  obtain ⟨w₂, hm₂, hw₂, hg, -⟩ := ((keeping hσ n).exec hw₁ ⟨ctx, hf.2.1.2, hs⟩).done hm₁ hb
  have hg' : w₁.Grows World.nowhere w₂ := hg.weaken fun f name h => by
    rw [hf.2.1.1] at h
    cases h.2
  exact ⟨ctx, w₂, hm₂, hw₂, hf, hs.mono hg'⟩

end

/-- What a task calls finds the world ready. -/
theorem Calls.ready (hσ : σ.Suits S) (h : Calls σ p q) (hp : p.Ready S) : q.Ready S := by
  obtain ⟨w, hm, hw, hr⟩ := hp
  cases h with
  | group => exact ⟨w, hm, hw, hr⟩
  | operand => exact ⟨w, hm, hw, hr⟩
  | binaryLeft =>
    obtain ⟨ctx, skip, hx, hs⟩ := hr
    exact ⟨w, hm, hw, ctx, skip, (List.forall_mem_append.1 hx).1, hs⟩
  | binaryRight hl =>
    obtain ⟨ctx, skip, hx, hs⟩ := hr
    obtain ⟨hxl, hxr⟩ := List.forall_mem_append.1 hx
    obtain ⟨w', hm', hw', hs'⟩ := hs.behind_eval hσ hw hm hxl hl
    exact ⟨w', hm', hw', ctx, skip, hxr, hs'⟩
  | logicalLeft =>
    obtain ⟨ctx, skip, hx, hs⟩ := hr
    exact ⟨w, hm, hw, ctx, skip, (List.forall_mem_append.1 hx).1, hs⟩
  | logicalRight hl _ =>
    obtain ⟨ctx, skip, hx, hs⟩ := hr
    obtain ⟨hxl, hxr⟩ := List.forall_mem_append.1 hx
    obtain ⟨w', hm', hw', hs'⟩ := hs.behind_eval hσ hw hm hxl hl
    exact ⟨w', hm', hw', ctx, skip, hxr, hs'⟩
  | assigned =>
    obtain ⟨ctx, skip, hx, hs⟩ := hr
    exact ⟨w, hm, hw, ctx, skip, (List.forall_mem_cons.1 hx).2, hs⟩
  | callee =>
    obtain ⟨ctx, skip, hx, hs⟩ := hr
    exact ⟨w, hm, hw, ctx, skip, (List.forall_mem_append.1 hx).1, hs⟩
  | arguments hf =>
    obtain ⟨ctx, skip, hx, hs⟩ := hr
    obtain ⟨hxf, hxs⟩ := List.forall_mem_append.1 hx
    obtain ⟨w', hm', hw', hs'⟩ := hs.behind_eval hσ hw hm hxf hf
    exact ⟨w', hm', hw', ctx, skip, Expr.fits_of_occurrencesAll hxs, hs'⟩
  | @called n _ _ _ _ _ _ _ _ _ hf hvs =>
    obtain ⟨ctx, skip, hx, hs⟩ := hr
    obtain ⟨hxf, hxs⟩ := List.forall_mem_append.1 hx
    obtain ⟨w₁, hm₁, hw₁, hg₁, hv⟩ := ((keeping hσ n).eval hw ⟨ctx, skip, hxf, hs⟩).done hm hf
    have hready : (Task.evalAll _ _).Ready S w₁ := ⟨ctx, skip, Expr.fits_of_occurrencesAll hxs, hs.mono hg₁⟩
    obtain ⟨w₂, hm₂, hw₂, hg₂, hvs'⟩ := ((keeping hσ n).evalAll hw₁ hready).done hm₁ hvs
    exact ⟨w₂, hm₂, hw₂, hv.mono hg₂, hvs'⟩
  | getObject => exact ⟨w, hm, hw, hr⟩
  | setObject =>
    obtain ⟨ctx, skip, hx, hs⟩ := hr
    exact ⟨w, hm, hw, ctx, skip, (List.forall_mem_append.1 hx).1, hs⟩
  | setValue ho =>
    obtain ⟨ctx, skip, hx, hs⟩ := hr
    obtain ⟨hxo, hxv⟩ := List.forall_mem_append.1 hx
    obtain ⟨w', hm', hw', hs'⟩ := hs.behind_eval hσ hw hm hxo ho
    exact ⟨w', hm', hw', ctx, skip, hxv, hs'⟩
  | firstArgument =>
    obtain ⟨ctx, skip, hx, hs⟩ := hr
    exact ⟨w, hm, hw, ctx, skip, (List.forall_mem_cons.1 hx).1, hs⟩
  | otherArguments hv =>
    obtain ⟨ctx, skip, hx, hs⟩ := hr
    obtain ⟨hx, hxs⟩ := List.forall_mem_cons.1 hx
    obtain ⟨w', hm', hw', hs'⟩ := hs.behind_eval hσ hw hm hx hv
    exact ⟨w', hm', hw', ctx, skip, hxs, hs'⟩
  | function hl => exact ⟨w, hm, hw, hr.1, hr.2, hl⟩
  | initializer hl ho hi hb =>
    obtain ⟨hc, hvs⟩ := hr
    obtain ⟨w₁, hm₁, hw₁, hg₁, hc₁, o, rfl⟩ := (keeps_newObject (P := World.nowhere) hw hc).done hm ho
    have hthis : Value.Sound S w₁ (.object o _) := hc₁
    obtain ⟨w₂, hm₂, hw₂, hg₂, hbound⟩ := (keeps_bindThis hw₁ (hc₁ _ _ hi) hthis ⟨o, _, rfl⟩).done hm₁ hb
    refine ⟨w₂, hm₂, hw₂, hbound.1, fun v hv => ((hvs v hv).mono hg₁).mono hg₂, ?_⟩
    unfold Closure.arity
    rw [hbound.2]
    simpa [Class.arity, hi, Closure.arity] using hl
  | body hf =>
    obtain ⟨⟨ctx, hfit, hmirrors⟩, hvs, hl⟩ := hr
    obtain ⟨w', hm', hw', -, hs⟩ := (keeps_callFrame hw hfit hmirrors hvs hl).done hm hf
    exact ⟨w', hm', hw', _, hfit.body, hs.2⟩
  | expression =>
    obtain ⟨ctx, hf, hs⟩ := hr
    exact ⟨w, hm, hw, ctx, none, hf, hs⟩
  | printed =>
    obtain ⟨ctx, hf, hs⟩ := hr
    exact ⟨w, hm, hw, ctx, none, hf, hs⟩
  | initialValue =>
    obtain ⟨ctx, hf, hs⟩ := hr
    exact ⟨w, hm, hw, _, none, hf.2 _ rfl, hs.put_pending hf.1⟩
  | @block _ _ body _ _ _ hb =>
    obtain ⟨ctx, hf, hs⟩ := hr
    obtain ⟨w', hm', hw', -, rfl, rfl⟩ := (keeps_newFrame hw (Stmt.declaredAll body) (by simp)).done hm hb
    exact ⟨_, hm', hw', _, hf, World.Stands.push hs.mirrors (by simp)⟩
  | ifTest =>
    obtain ⟨ctx, hf, hs⟩ := hr
    exact ⟨w, hm, hw, ctx, none, hf.1, hs⟩
  | ifBranch hc _ =>
    obtain ⟨ctx, hf, hs⟩ := hr
    obtain ⟨w', hm', hw', hs'⟩ := hs.behind_eval hσ hw hm hf.1 hc
    exact ⟨w', hm', hw', ctx, hf.2.2, hs'⟩
  | ifElseTest =>
    obtain ⟨ctx, hf, hs⟩ := hr
    exact ⟨w, hm, hw, ctx, none, hf.1, hs⟩
  | thenBranch hc _ =>
    obtain ⟨ctx, hf, hs⟩ := hr
    obtain ⟨w', hm', hw', hs'⟩ := hs.behind_eval hσ hw hm hf.1 hc
    exact ⟨w', hm', hw', ctx, hf.2.1.2, hs'⟩
  | elseBranch hc _ =>
    obtain ⟨ctx, hf, hs⟩ := hr
    obtain ⟨w', hm', hw', hs'⟩ := hs.behind_eval hσ hw hm hf.1 hc
    exact ⟨w', hm', hw', ctx, hf.2.2.2, hs'⟩
  | loop => exact ⟨w, hm, hw, hr⟩
  | returned =>
    obtain ⟨ctx, hf, hs⟩ := hr
    exact ⟨w, hm, hw, ctx, none, hf _ rfl, hs⟩
  | superclass =>
    obtain ⟨ctx, hf, hs⟩ := hr
    exact ⟨w, hm, hw, _, _, hf.2.1 _ rfl, hs.put_heading _⟩
  | firstStatement =>
    obtain ⟨ctx, hf, hs⟩ := hr
    exact ⟨w, hm, hw, ctx, hf.1, hs⟩
  | @otherStatements n _ _ _ _ _ hx =>
    obtain ⟨ctx, hf, hs⟩ := hr
    obtain ⟨w', hm', hw', hg, hflow⟩ := ((keeping hσ n).exec hw ⟨ctx, hf.1, hs⟩).done hm hx
    exact ⟨w', hm', hw', _, hf.2, hs.declareAll hg (hflow.2 rfl)⟩
  | test =>
    obtain ⟨ctx, hf, hs⟩ := hr
    exact ⟨w, hm, hw, ctx, none, hf.1, hs⟩
  | round hc _ =>
    obtain ⟨ctx, w', hm', hw', hf, hs⟩ := World.ready_round hσ hw hm hr hc
    exact ⟨w', hm', hw', ctx, hf.2.1.2, hs⟩
  | increment hc _ hb _ =>
    obtain ⟨ctx, w', hm', hw', hf, hs⟩ := World.ready_behind_round hσ hw hm hr hc hb
    exact ⟨w', hm', hw', ctx, none, hf.2.2 _ rfl, hs⟩
  | again hc _ hb _ =>
    obtain ⟨ctx, w', hm', hw', hf, hs⟩ := World.ready_behind_round hσ hw hm hr hc hb
    exact ⟨w', hm', hw', ctx, hf, hs⟩
  | againBehindIncrement hc _ hb _ hi =>
    obtain ⟨ctx, w', hm', hw', hf, hs⟩ := World.ready_behind_round hσ hw hm hr hc hb
    obtain ⟨w'', hm'', hw'', hs'⟩ := hs.behind_eval hσ hw' hm' (hf.2.2 _ rfl) hi
    exact ⟨w'', hm'', hw'', ctx, hf, hs'⟩
  | topStatement => exact ⟨w, hm, hw, [], hr.1, rfl, trivial⟩
  | @restOfProgram n s _ _ _ _ hx =>
    have hready : (Task.exec Heap.globals s).Ready S w := ⟨[], hr.1, rfl, trivial⟩
    obtain ⟨w', hm', hw', -⟩ := ((keeping hσ n).exec hw hready).done hm hx
    have hrest := hr.2
    rw [show Context.after [] s = [] from Context.declareAll_nil _] at hrest
    exact ⟨w', hm', hw', hrest⟩

/-- The world is sound and ready at every point of a run. -/
theorem Visits.ready (hσ : σ.Suits S) (h : Visits σ p q) (hp : p.Ready S) : q.Ready S := by
  induction h with
  | refl => exact hp
  | tail _ hc ih => exact hc.ready hσ ih

end

end ScriptLang
