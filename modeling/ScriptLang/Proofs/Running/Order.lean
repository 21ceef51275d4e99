import ScriptLang.Proofs.Running.Cut
import ScriptLang.Proofs.Running.Visits

/-!
# The order of points

The next position for an object and the next tag only ever go up, and so they are clocks of a run.  Frames come to be,
stay, and keep their links.

* `Machine.Older` — the clocks of one machine stand no later than those of another, which still has all its frames;
* `Exec.Ages` — a computation never turns them back; all of evaluation is such;
* `Calls.within` — what a task calls happens between its beginning and its end;
* `Calls.inOrder` — of two points that a task calls, one is over before the other begins.
-/

namespace ScriptLang

/-- The clocks of a machine stand no later than those of another, which has all its frames with the same links. -/
structure Machine.Older (m m' : Machine) : Prop where
  objects : m.heap.objects.size ≤ m'.heap.objects.size
  tags : m.heap.nextTag ≤ m'.heap.nextTag
  frames : m.heap.frames.size ≤ m'.heap.frames.size
  links : ∀ e < m.heap.frames.size, m'.heap.frames.enclosing? e = m.heap.frames.enclosing? e

namespace Machine.Older

variable {m m' m'' : Machine}

/-- Only objects and tags are new. -/
theorem of_frames (h : m'.heap.frames = m.heap.frames) (ho : m.heap.objects.size ≤ m'.heap.objects.size)
    (ht : m.heap.nextTag ≤ m'.heap.nextTag) : m.Older m' :=
  ⟨ho, ht, Nat.le_of_eq (by rw [h]), fun e _ => by rw [h]⟩

theorem refl (m : Machine) : m.Older m := .of_frames rfl (Nat.le_refl _) (Nat.le_refl _)

theorem trans (h : m.Older m') (h' : m'.Older m'') : m.Older m'' where
  objects := Nat.le_trans h.objects h'.objects
  tags := Nat.le_trans h.tags h'.tags
  frames := Nat.le_trans h.frames h'.frames
  links e he := (h'.links e (Nat.lt_of_lt_of_le he h.frames)).trans (h.links e he)

theorem define (m : Machine) (e : FrameRef) (name : String) (v : Value) :
    m.Older { m with heap := m.heap.define e name v } where
  objects := Nat.le_refl _
  tags := Nat.le_refl _
  frames := Nat.le_of_eq (Frames.size_define ..).symm
  links o _ := Frames.enclosing?_define m.heap.frames e name v o

end Machine.Older

/-- The machine that the task at a point leaves. -/
def Point.leaves? (σ : Setting) (p : Point) : Option Machine :=
  match p.task with
  | .eval e x => (Exec.eval p.fuel σ e x p.machine).machine?
  | .evalAll e xs => (Exec.evalAll p.fuel σ e xs p.machine).machine?
  | .call f vs paren => (Exec.call p.fuel σ f vs paren p.machine).machine?
  | .invoke c vs => (Exec.invoke p.fuel σ c vs p.machine).machine?
  | .exec e s => (Exec.exec p.fuel σ e s p.machine).machine?
  | .execAll e body => (Exec.execAll p.fuel σ e body p.machine).machine?
  | .loop e c b i => (Exec.loop p.fuel σ e c b i p.machine).machine?
  | .program body => (Exec.program p.fuel σ body p.machine).machine?

namespace Exec

variable {α β : Type} {m m' : Machine}

/-! ## clocks -/

/-- A computation never turns the clocks back. -/
def Ages (x : Exec α) : Prop := ∀ m m', (x m).machine? = some m' → m.Older m'

theorem machine?_of_done {x : Exec α} {a : α} (h : x m = .done a m') : (x m).machine? = some m' := by rw [h]; rfl

/-- A sequence leaves a machine only if its first part does; the second part begins on that one. -/
theorem machine?_of_bind {x : Exec α} {f : α → Exec β} (h : ((x >>= f) m).machine? = some m') :
    ∃ m₁, (x m).machine? = some m₁ ∧ (m₁ = m' ∨ ∃ a, (f a m₁).machine? = some m') := by
  change (andThen x f m).machine? = some m' at h
  unfold andThen at h
  cases he : x m with
  | done a m₁ =>
    rw [he] at h
    exact ⟨m₁, rfl, .inr ⟨a, h⟩⟩
  | failed fault m₁ =>
    rw [he] at h
    exact ⟨m₁, rfl, .inl (Option.some.inj h)⟩
  | outOfFuel =>
    rw [he] at h
    cases h

/-- What comes behind a part of a sequence does not turn the clocks back. -/
theorem older_of_bind {x : Exec α} {f : α → Exec β} (hf : ∀ a, (f a).Ages) (h : ((x >>= f) m).machine? = some m') :
    ∃ m₁, (x m).machine? = some m₁ ∧ m₁.Older m' := by
  obtain ⟨m₁, hx, rfl | ⟨a, ha⟩⟩ := machine?_of_bind h
  · exact ⟨m₁, hx, .refl m₁⟩
  · exact ⟨m₁, hx, hf a m₁ m' ha⟩

/-- A computation that leaves the heap alone. -/
theorem ages_of_heap {x : Exec α} (h : ∀ m m', (x m).machine? = some m' → m'.heap = m.heap) : x.Ages := by
  intro m m' hx
  have hheap := h m m' hx
  exact .of_frames (by rw [hheap]) (Nat.le_of_eq (by rw [hheap])) (Nat.le_of_eq (by rw [hheap]))

theorem ages_bind {x : Exec α} {f : α → Exec β} (hx : x.Ages) (hf : ∀ a, (f a).Ages) : (x >>= f).Ages := by
  intro m m' h
  obtain ⟨m₁, h₁, h₂⟩ := older_of_bind hf h
  exact (hx m m₁ h₁).trans h₂

theorem ages_readName (distance : Option Nat) (e : FrameRef) (name : Token) : (readName distance e name).Ages := by
  refine ages_of_heap fun m m' h => ?_
  unfold readName at h
  dsimp only at h
  split at h <;> cases h <;> rfl

theorem ages_writeName (distance : Option Nat) (e : FrameRef) (name : Token) (v : Value) :
    (writeName distance e name v).Ages := by
  intro m m' h
  unfold writeName at h
  dsimp only at h
  split at h <;> cases h
  · exact .define ..
  · exact .refl m

theorem ages_newFrame (enclosing : FrameRef) (bindings : Assoc String Value) : (newFrame enclosing bindings).Ages := by
  intro m m' h
  cases h
  refine ⟨Nat.le_refl _, Nat.le_refl _, ?_, fun e he => ?_⟩
  · show _ ≤ (Array.push _ _).size
    rw [Array.size_push]
    exact Nat.le_succ _
  · show Frames.enclosing? (Array.push _ _) e = _
    rw [Frames.enclosing?_push, if_neg (Nat.ne_of_lt he)]

theorem ages_newObject (c : Class) : (newObject c).Ages := by
  intro m m' h
  cases h
  refine .of_frames rfl ?_ (Nat.le_refl _)
  show _ ≤ (m.heap.objects.push []).size
  rw [Array.size_push]
  exact Nat.le_succ _

theorem ages_setField (o : ObjectRef) (name : String) (v : Value) : (setField o name v).Ages := by
  intro m m' h
  cases h
  exact .of_frames rfl (Nat.le_of_eq Array.size_modify.symm) (Nat.le_refl _)

theorem ages_write (s : String) : (write s).Ages := by
  refine ages_of_heap fun m m' h => ?_
  rw [write_eq] at h
  split at h <;> cases h <;> rfl

theorem ages_runBuiltin (hosts : Array Host) (b : Builtin) (arguments : List Value) (paren : Token) :
    (runBuiltin hosts b arguments paren).Ages := by
  refine ages_of_heap fun m m' h => ?_
  unfold runBuiltin at h
  split at h <;> cases h <;> rfl

/-- No part of evaluation turns the clocks back. -/
theorem ages_parts (hosts : Array Host) : Parts hosts Ages where
  pure _ := ages_of_heap fun m m' h => by cases h; rfl
  fail _ _ := ages_of_heap fun m m' h => by cases h; rfl
  readName := ages_readName
  writeName := ages_writeName
  define _ _ _ := fun m m' h => by cases h; exact .define ..
  newFrame := ages_newFrame
  nameIn? _ _ _ := ages_of_heap fun m m' h => by cases h; rfl
  newTag := fun m m' h => by cases h; exact .of_frames rfl (Nat.le_refl _) (Nat.le_succ _)
  newObject := ages_newObject
  field? _ _ := ages_of_heap fun m m' h => by cases h; rfl
  setField := ages_setField
  write := ages_write
  runBuiltin := ages_runBuiltin hosts
  outOfFuel := fun _ _ h => (nomatch h)
  bind := ages_bind

theorem ages_evaluation (σ : Setting) (n : Nat) : Evaluation Ages σ n := (ages_parts σ.hosts).evaluation n

theorem Ages.done {x : Exec α} (hx : x.Ages) {a : α} (h : x m = .done a m') : m.Older m' :=
  hx m m' (machine?_of_done h)

end Exec

/-! ## what happens while a task runs -/

/-- A point lies between the beginning and the end of the task at another. -/
structure Point.Within (σ : Setting) (p q : Point) : Prop where
  begins : p.machine.Older q.machine
  ends : ∀ m, p.leaves? σ = some m → ∃ m', q.leaves? σ = some m' ∧ m'.Older m

section

open Exec

variable {σ : Setting} {p q : Point}

theorem Point.Within.refl (p : Point) : p.Within σ p := ⟨.refl _, fun m h => ⟨m, h, .refl m⟩⟩

theorem Point.Within.trans {r : Point} (h : p.Within σ q) (h' : q.Within σ r) : p.Within σ r where
  begins := h.begins.trans h'.begins
  ends m hm := by
    obtain ⟨m₁, hq, h₁⟩ := h.ends m hm
    obtain ⟨m₂, hr, h₂⟩ := h'.ends m₁ hq
    exact ⟨m₂, hr, h₂.trans h₁⟩

/-- The last part of a task. -/
theorem Point.Within.of_eq (hm : p.machine.Older q.machine) (h : p.leaves? σ = q.leaves? σ) : p.Within σ q :=
  ⟨hm, fun m hp => ⟨m, h ▸ hp, .refl m⟩⟩

/-- What a task calls happens between its beginning and its end. -/
theorem Calls.within (h : Calls σ p q) : p.Within σ q := by
  have P := ages_parts σ.hosts
  have E := ages_evaluation σ
  cases h with
  -- expressions
  | group => exact .of_eq (.refl _) (by simp only [Point.leaves?, eval])
  | operand =>
    refine ⟨.refl _, fun m h => ?_⟩
    simp only [Point.leaves?, eval] at h
    exact older_of_bind (fun _ => P.ofResult _ _) h
  | @binaryLeft n =>
    refine ⟨.refl _, fun m h => ?_⟩
    simp only [Point.leaves?, eval] at h
    exact older_of_bind (fun _ => P.bind ((E n).eval _ _) fun _ => P.ofResult _ _) h
  | @binaryRight n _ _ _ _ _ _ _ hl =>
    refine ⟨((E n).eval _ _).done hl, fun m h => ?_⟩
    simp only [Point.leaves?, eval, bind_of_done hl] at h
    exact older_of_bind (fun _ => P.ofResult _ _) h
  | @logicalLeft n =>
    refine ⟨.refl _, fun m h => ?_⟩
    simp only [Point.leaves?, eval] at h
    refine older_of_bind (fun v => ?_) h
    split
    · exact P.pure _
    · exact (E n).eval _ _
  | @logicalRight n _ _ _ _ _ _ _ hl hd =>
    refine .of_eq (((E n).eval _ _).done hl) ?_
    simp only [Point.leaves?, eval, bind_of_done hl, hd, Bool.false_eq_true, if_false]
  | assigned =>
    refine ⟨.refl _, fun m h => ?_⟩
    simp only [Point.leaves?, eval] at h
    exact older_of_bind (fun _ => P.bind (P.writeName _ _ _ _) fun _ => P.pure _) h
  | @callee n =>
    refine ⟨.refl _, fun m h => ?_⟩
    simp only [Point.leaves?, eval] at h
    exact older_of_bind (fun _ => P.bind ((E n).evalAll _ _) fun _ => (E n).call _ _ _) h
  | @arguments n _ _ _ _ _ _ _ hf =>
    refine ⟨((E n).eval _ _).done hf, fun m h => ?_⟩
    simp only [Point.leaves?, eval, bind_of_done hf] at h
    exact older_of_bind (fun _ => (E n).call _ _ _) h
  | @called n _ _ _ _ _ _ _ _ _ hf hvs =>
    refine .of_eq ((((E n).eval _ _).done hf).trans (((E n).evalAll _ _).done hvs)) ?_
    simp only [Point.leaves?, eval, bind_of_done hf, bind_of_done hvs]
  | getObject =>
    refine ⟨.refl _, fun m h => ?_⟩
    simp only [Point.leaves?, eval] at h
    refine older_of_bind (fun v => ?_) h
    split
    · exact P.getProperty _ _ _
    · exact P.fail _ _
  | @setObject n =>
    refine ⟨.refl _, fun m h => ?_⟩
    simp only [Point.leaves?, eval] at h
    refine older_of_bind (fun v => ?_) h
    split
    · exact P.bind ((E n).eval _ _) fun _ => P.bind (P.setField _ _ _) fun _ => P.pure _
    · exact P.fail _ _
  | @setValue n _ _ _ _ _ _ _ _ ho =>
    refine ⟨((E n).eval _ _).done ho, fun m h => ?_⟩
    simp only [Point.leaves?, eval, bind_of_done ho] at h
    exact older_of_bind (fun _ => P.bind (P.setField _ _ _) fun _ => P.pure _) h
  | @firstArgument n =>
    refine ⟨.refl _, fun m h => ?_⟩
    simp only [Point.leaves?, evalAll] at h
    exact older_of_bind (fun _ => P.bind ((E n).evalAll _ _) fun _ => P.pure _) h
  | @otherArguments n _ _ _ _ _ _ hv =>
    refine ⟨((E n).eval _ _).done hv, fun m h => ?_⟩
    simp only [Point.leaves?, evalAll, bind_of_done hv] at h
    exact older_of_bind (fun _ => P.pure _) h
  -- calls
  | function hl =>
    refine .of_eq (.refl _) ?_
    simp only [Point.leaves?, call, checkArity, if_pos hl]
    rfl
  | initializer hl ho hi hb =>
    refine ⟨((P.newObject _).done ho).trans ((P.bindThis _ _).done hb), fun m h => ?_⟩
    simp only [Point.leaves?, call, checkArity, if_pos hl, hi, pure_bind, bind_of_done ho, bind_of_done hb] at h
    exact older_of_bind (fun _ => P.pure _) h
  | body hf =>
    refine ⟨(P.callFrame _ _).done hf, fun m h => ?_⟩
    simp only [Point.leaves?, invoke, bind_of_done hf] at h
    exact older_of_bind (fun _ => P.callResult _ _) h
  -- statements
  | expression =>
    refine ⟨.refl _, fun m h => ?_⟩
    simp only [Point.leaves?, exec] at h
    exact older_of_bind (fun _ => P.pure _) h
  | printed =>
    refine ⟨.refl _, fun m h => ?_⟩
    simp only [Point.leaves?, exec] at h
    exact older_of_bind (fun _ => P.bind (P.print _ _) fun _ => P.pure _) h
  | initialValue =>
    refine ⟨.refl _, fun m h => ?_⟩
    simp only [Point.leaves?, exec] at h
    exact older_of_bind (fun _ => P.bind (P.define _ _ _) fun _ => P.pure _) h
  | block hb =>
    refine .of_eq ((P.newFrame _ _).done hb) ?_
    simp only [Point.leaves?, exec, bind_of_done hb]
  | @ifTest n =>
    refine ⟨.refl _, fun m h => ?_⟩
    simp only [Point.leaves?, exec] at h
    refine older_of_bind (fun v => ?_) h
    split
    · exact (E n).exec _ _
    · exact P.pure _
  | @ifBranch n _ _ _ _ _ _ hc ht =>
    refine .of_eq (((E n).eval _ _).done hc) ?_
    simp only [Point.leaves?, exec, bind_of_done hc, ht, if_true]
  | @ifElseTest n =>
    refine ⟨.refl _, fun m h => ?_⟩
    simp only [Point.leaves?, exec] at h
    refine older_of_bind (fun v => ?_) h
    split <;> exact (E n).exec _ _
  | @thenBranch n _ _ _ _ _ _ _ hc ht =>
    refine .of_eq (((E n).eval _ _).done hc) ?_
    simp only [Point.leaves?, exec, bind_of_done hc, ht, if_true]
  | @elseBranch n _ _ _ _ _ _ _ hc ht =>
    refine .of_eq (((E n).eval _ _).done hc) ?_
    simp only [Point.leaves?, exec, bind_of_done hc, ht, Bool.false_eq_true, if_false]
  | loop => exact .of_eq (.refl _) (by simp only [Point.leaves?, exec])
  | returned =>
    refine ⟨.refl _, fun m h => ?_⟩
    simp only [Point.leaves?, exec] at h
    exact older_of_bind (fun _ => P.pure _) h
  | superclass =>
    refine ⟨.refl _, fun m h => ?_⟩
    simp only [Point.leaves?, exec] at h
    exact older_of_bind (fun _ => P.bind (P.asSuperclass _ _ _) fun _ => P.bind (P.makeClass _ _ _ _) fun _ => P.pure _) h
  | @firstStatement n =>
    refine ⟨.refl _, fun m h => ?_⟩
    simp only [Point.leaves?, execAll] at h
    refine older_of_bind (fun flow => ?_) h
    split
    · exact (E n).execAll _ _
    · exact P.pure _
  | @otherStatements n _ _ _ _ _ hs =>
    refine .of_eq (((E n).exec _ _).done hs) ?_
    simp only [Point.leaves?, execAll, bind_of_done hs]
  -- loops
  | @test n =>
    refine ⟨.refl _, fun m h => ?_⟩
    simp only [Point.leaves?, loop_succ] at h
    refine older_of_bind (fun v => ?_) h
    split
    · exact P.bind ((E n).exec _ _) fun flow => P.behindRound (E n) _ _ _ _ flow
    · exact P.pure _
  | @round n _ _ _ _ _ _ _ hc ht =>
    refine ⟨((E n).eval _ _).done hc, fun m h => ?_⟩
    simp only [Point.leaves?, loop_succ, bind_of_done hc, ht, if_true] at h
    exact older_of_bind (fun flow => P.behindRound (E n) _ _ _ _ flow) h
  | @increment n _ _ _ _ _ _ _ flow _ hc ht hb hf =>
    refine ⟨(((E n).eval _ _).done hc).trans (((E n).exec _ _).done hb), fun m h => ?_⟩
    simp only [Point.leaves?, loop_succ, bind_of_done hc, bind_of_done hb, ht, if_true] at h
    cases flow with
    | normal => exact older_of_bind (fun _ => (E n).loop _ _ _ _) h
    | continued => exact older_of_bind (fun _ => (E n).loop _ _ _ _) h
    | _ => cases hf
  | @again n _ _ _ _ _ _ flow _ hc ht hb hf =>
    refine .of_eq ((((E n).eval _ _).done hc).trans (((E n).exec _ _).done hb)) ?_
    simp only [Point.leaves?, loop_succ, bind_of_done hc, bind_of_done hb, ht, if_true]
    cases flow with
    | normal => rfl
    | continued => rfl
    | _ => cases hf
  | @againBehindIncrement n _ _ _ _ _ _ _ flow _ _ _ hc ht hb hf hi =>
    have hround := (((E n).eval _ _).done hc).trans (((E n).exec _ _).done hb)
    refine .of_eq (hround.trans (((E n).eval _ _).done hi)) ?_
    simp only [Point.leaves?, loop_succ, bind_of_done hc, bind_of_done hb, ht, if_true]
    cases flow with
    | normal => simp only [Exec.again, bind_of_done hi]
    | continued => simp only [Exec.again, bind_of_done hi]
    | _ => cases hf
  -- programs
  | @topStatement n _ rest =>
    refine ⟨.refl _, fun m h => ?_⟩
    simp only [Point.leaves?, program] at h
    exact older_of_bind (fun _ => P.program n rest) h
  | @restOfProgram n _ _ _ _ _ hs =>
    refine .of_eq (((E n).exec _ _).done hs) ?_
    simp only [Point.leaves?, program, bind_of_done hs]

/-- What is visited from a point happens between its beginning and its end. -/
theorem Visits.within (h : Visits σ p q) : p.Within σ q := by
  induction h with
  | refl => exact .refl p
  | tail _ hc ih => exact ih.trans hc.within

/-! ## what happens one after the other -/

/-- The task at one point is over before the one at another begins. -/
def Point.Over (σ : Setting) (p q : Point) : Prop := ∃ m, p.leaves? σ = some m ∧ m.Older q.machine

section

variable {n : Nat} {e : FrameRef} {m m' : Machine} {v : Value}

theorem Point.Over.eval {x : Expr} (h : Exec.eval n σ e x m = .done v m') (hm : m'.Older q.machine) :
    Point.Over σ ⟨n, .eval e x, m⟩ q :=
  ⟨m', machine?_of_done h, hm⟩

theorem Point.Over.evalAll {xs : List Expr} {vs : List Value} (h : Exec.evalAll n σ e xs m = .done vs m')
    (hm : m'.Older q.machine) : Point.Over σ ⟨n, .evalAll e xs, m⟩ q :=
  ⟨m', machine?_of_done h, hm⟩

theorem Point.Over.exec {s : Stmt} {flow : Flow} (h : Exec.exec n σ e s m = .done flow m') (hm : m'.Older q.machine) :
    Point.Over σ ⟨n, .exec e s, m⟩ q :=
  ⟨m', machine?_of_done h, hm⟩

theorem older_of_eval {x : Expr} (h : Exec.eval n σ e x m = .done v m') : m.Older m' :=
  ((ages_evaluation σ n).eval e x).done h

theorem older_of_evalAll {xs : List Expr} {vs : List Value} (h : Exec.evalAll n σ e xs m = .done vs m') : m.Older m' :=
  ((ages_evaluation σ n).evalAll e xs).done h

theorem older_of_exec {s : Stmt} {flow : Flow} (h : Exec.exec n σ e s m = .done flow m') : m.Older m' :=
  ((ages_evaluation σ n).exec e s).done h

end

/-- Of two points that a task calls, one is over before the other begins, or they are the same. -/
theorem Calls.inOrder {q' : Point} (h : Calls σ p q) (h' : Calls σ p q') :
    q = q' ∨ q.Over σ q' ∨ q'.Over σ q := by
  -- a later call has among its hypotheses how the earlier ones ended
  cases h <;> cases h' <;> first
    | exact .inl rfl
    | grind [Point.Over.eval, Point.Over.evalAll, Point.Over.exec, → older_of_eval, → older_of_evalAll, → older_of_exec,
        Machine.Older.refl, Machine.Older.trans]

end

end ScriptLang
