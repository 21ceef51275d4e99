import ScriptLang.Proofs.Parsing.Moved
import ScriptLang.Proofs.Running.Likeness
import ScriptLang.Proofs.Running.Scene

/-!
# What is alike where nothing is renamed

* `Stmt.like_moved` — a statement is alike itself on other lines, if a guise lets lines differ so;
* `View.still` — all frames of a heap with nothing renamed;
* `Scene.At.like` — a machine with a sound scene is alike itself.
-/

namespace ScriptLang

/-! ## masks -/

namespace Mask

@[simp] theorem at_clear (d : Option Nat) : clear.at d = false := by cases d <;> rfl

@[simp] theorem cons_clear : clear.cons false = clear := by
  funext d
  cases d <;> rfl

@[simp] theorem ofClass_clear (s : Option Expr) : clear.ofClass s = clear := by
  cases s <;> simp [ofClass]

end Mask

/-! ## trees -/

section

variable {g : Guise} {ℓ : Nat → Nat}

theorem Token.like_moved (hl : ∀ n, g.lines n (ℓ n)) (t : Token) : t.Like g false (t.moved ℓ) := ⟨rfl, rfl, hl t.line⟩

/-- The token of an occurrence, where nothing is renamed. -/
theorem Token.like_moved_at (hl : ∀ n, g.lines n (ℓ n)) (t : Token) (d : Option Nat) :
    t.Like g (Mask.clear.at d) (t.moved ℓ) := by
  rw [Mask.at_clear]
  exact t.like_moved hl

theorem Token.forall₂_like_moved (hl : ∀ n, g.lines n (ℓ n)) (ts : List Token) :
    List.Forall₂ (Token.Like g false) ts (ts.map (Token.moved ℓ)) := by
  induction ts with
  | nil => exact .nil
  | cons t ts ih => exact .cons (t.like_moved hl) ih

mutual

theorem Expr.like_moved (hl : ∀ n, g.lines n (ℓ n)) (x : Expr)
    (ha : ∀ o ∈ x.occurrences, g.admits o.label) : x.Like g .clear (x.moved ℓ 0) := by
  cases x with
  | literal v => exact .literal
  | group x => exact .group (Expr.like_moved hl x ha)
  | unary op x => exact .unary (op.like_moved hl) (Expr.like_moved hl x ha)
  | binary x op y =>
    simp only [Expr.occurrences, List.forall_mem_append] at ha
    exact .binary (Expr.like_moved hl x ha.1) (op.like_moved hl) (Expr.like_moved hl y ha.2)
  | logical x op y =>
    simp only [Expr.occurrences, List.forall_mem_append] at ha
    exact .logical (Expr.like_moved hl x ha.1) (op.like_moved hl) (Expr.like_moved hl y ha.2)
  | «variable» l name => exact .variable (ha _ List.mem_cons_self) (name.like_moved_at hl _)
  | assign l name x =>
    simp only [Expr.occurrences, List.forall_mem_cons] at ha
    exact .assign ha.1 (name.like_moved_at hl _) (Expr.like_moved hl x ha.2)
  | call f paren xs =>
    simp only [Expr.occurrences, List.forall_mem_append] at ha
    exact .call (Expr.like_moved hl f ha.1) (paren.like_moved hl) (Expr.forall₂_like_moved hl xs ha.2)
  | get x name => exact .get (Expr.like_moved hl x ha) (name.like_moved hl)
  | set x name y =>
    simp only [Expr.occurrences, List.forall_mem_append] at ha
    exact .set (Expr.like_moved hl x ha.1) (name.like_moved hl) (Expr.like_moved hl y ha.2)
  | this l keyword => exact .this (ha _ List.mem_cons_self) (keyword.like_moved_at hl _)
  | super l keyword name =>
    exact .super (ha _ List.mem_cons_self) (keyword.like_moved_at hl _) (name.like_moved hl)

theorem Expr.forall₂_like_moved (hl : ∀ n, g.lines n (ℓ n)) (xs : List Expr)
    (ha : ∀ o ∈ Expr.occurrencesAll xs, g.admits o.label) :
    List.Forall₂ (Expr.Like g .clear) xs (Expr.movedAll ℓ 0 xs) := by
  cases xs with
  | nil => exact .nil
  | cons x xs =>
    simp only [Expr.occurrencesAll, List.forall_mem_append] at ha
    exact .cons (Expr.like_moved hl x ha.1) (Expr.forall₂_like_moved hl xs ha.2)

end

theorem Expr.rel_like_moved (hl : ∀ n, g.lines n (ℓ n)) (x : Option Expr)
    (ha : ∀ o ∈ Expr.occurrencesIn x, g.admits o.label) :
    Option.Rel (Expr.Like g .clear) x (x.map (Expr.moved ℓ 0)) := by
  cases x with
  | none => exact .none
  | some x => exact .some (x.like_moved hl ha)

mutual

/-- A statement is alike itself on other lines. -/
theorem Stmt.like_moved (hl : ∀ n, g.lines n (ℓ n)) (s : Stmt)
    (ha : ∀ o ∈ s.occurrences, g.admits o.label) : s.Like g .clear (s.moved ℓ 0) := by
  cases s with
  | expr x => exact .expr (x.like_moved hl ha)
  | print keyword x => exact .print (keyword.like_moved hl) (x.like_moved hl ha)
  | varDecl name x => exact .varDecl (name.like_moved hl) (Expr.rel_like_moved hl x ha)
  | block body =>
    refine .block false ?_
    rw [Mask.cons_clear]
    exact Stmt.likeAll_moved hl body ha
  | ifThen c t =>
    simp only [Stmt.occurrences, List.forall_mem_append] at ha
    exact .ifThen (c.like_moved hl ha.1) (Stmt.like_moved hl t ha.2)
  | ifElse c t e =>
    simp only [Stmt.occurrences, List.forall_mem_append] at ha
    exact .ifElse (c.like_moved hl ha.1.1) (Stmt.like_moved hl t ha.1.2) (Stmt.like_moved hl e ha.2)
  | loop c b i =>
    simp only [Stmt.occurrences, List.forall_mem_append] at ha
    exact .loop (c.like_moved hl ha.1.1) (Stmt.like_moved hl b ha.1.2) (Expr.rel_like_moved hl i ha.2)
  | funDecl d => exact .funDecl rfl (FunctionDecl.like_moved hl d ha)
  | returnFrom keyword x => exact .returnFrom (keyword.like_moved hl) (Expr.rel_like_moved hl x ha)
  | classDecl name s ms =>
    simp only [Stmt.occurrences, List.forall_mem_append] at ha
    refine .classDecl (name.like_moved hl) rfl (Expr.rel_like_moved hl s ha.1) ?_
    rw [Mask.ofClass_clear]
    exact FunctionDecl.likeAll_moved hl ms ha.2
  | breakLoop keyword => exact .breakLoop (keyword.like_moved hl)
  | continueLoop keyword => exact .continueLoop (keyword.like_moved hl)

theorem Stmt.likeAll_moved (hl : ∀ n, g.lines n (ℓ n)) (body : List Stmt)
    (ha : ∀ o ∈ Stmt.occurrencesAll body, g.admits o.label) :
    Stmt.LikeAll g .clear body (Stmt.movedAll ℓ 0 body) := by
  cases body with
  | nil => exact .nil
  | cons s rest =>
    simp only [Stmt.occurrencesAll, List.forall_mem_append] at ha
    exact .cons (Stmt.like_moved hl s ha.1) (Stmt.likeAll_moved hl rest ha.2)

theorem FunctionDecl.like_moved (hl : ∀ n, g.lines n (ℓ n)) (d : FunctionDecl)
    (ha : ∀ o ∈ d.occurrences, g.admits o.label) :
    d.Like g .clear (d.moved ℓ 0) := by
  cases d with
  | mk name params body =>
    refine .mk false (name.like_moved hl) (Token.forall₂_like_moved hl params) ?_
    rw [Mask.cons_clear]
    exact Stmt.likeAll_moved hl body ha

theorem FunctionDecl.likeAll_moved (hl : ∀ n, g.lines n (ℓ n)) (ds : List FunctionDecl)
    (ha : ∀ o ∈ FunctionDecl.occurrencesAll ds, g.admits o.label) :
    FunctionDecl.LikeAll g .clear ds (FunctionDecl.movedAll ℓ 0 ds) := by
  cases ds with
  | nil => exact .nil
  | cons d ds =>
    simp only [FunctionDecl.occurrencesAll, List.forall_mem_append] at ha
    exact .cons (FunctionDecl.like_moved hl d ha.1) (FunctionDecl.likeAll_moved hl ds ha.2)

end

end

/-! ## machines -/

theorem Class.Every.alike {M : Closure → Prop} {R : Closure → Closure → Prop} {c : Class} (h : c.Every M)
    (hM : ∀ m, M m → R m m) : c.Alike R c :=
  match c, h with
  | .mk _ _ none _, h => .base (List.forall₂_same.2 fun p hp => ⟨rfl, hM _ (h p hp)⟩)
  | .mk _ _ (some _) _, h =>
    .derived (Class.Every.alike h.2 hM) (List.forall₂_same.2 fun p hp => ⟨rfl, hM _ (h.1 p hp)⟩)

theorem Value.Every.alike {F M : Closure → Prop} {R S : Closure → Closure → Prop} {a : Value} (h : a.Every F M)
    (hF : ∀ c, F c → R c c) (hM : ∀ m, M m → S m m) : a.Alike R S a := by
  cases a with
  | number x => exact .number
  | string s => exact .string
  | bool b => exact .bool
  | nil => exact .nil
  | builtin t b => exact .builtin
  | function t c => exact .function (hF c h)
  | klass c => exact .klass (Class.Every.alike h hM)
  | object o c => exact .object (Class.Every.alike h hM)

/-- Only frames that exist are linked. -/
theorem Frames.lt_of_enclosing? {α : Type} {fs : Frames α} {e o : FrameRef} (h : fs.enclosing? e = some o) :
    e < fs.size := by
  obtain ⟨f, hf, -⟩ := Option.bind_eq_some_iff.1 h
  exact (Array.getElem?_eq_some_iff.1 hf).1

/-- All frames of a heap with nothing renamed. -/
def View.still (h : Heap) : View := ⟨h.frames.size, fun _ => .clear⟩

section

variable {g : Guise} {L : Lore} {w : Scene} {m : Machine}

theorem FunctionDecl.like_refl (hl : ∀ n, g.lines n n) (ha : ∀ l, g.admits l) (d : FunctionDecl) :
    d.Like g .clear d := by
  have hd := FunctionDecl.like_moved (ℓ := id) hl d fun o _ => ha o.label
  rwa [FunctionDecl.moved_id] at hd

theorem Value.Placed.like (hl : ∀ n, g.lines n n) (ha : ∀ l, g.admits l) {a : Value} (h : a.Placed L w) :
    a.Like g (.still w.heap) a := by
  refine Value.Every.alike h (fun c hc => ?_) fun c hc => ?_
  · exact ⟨rfl, rfl, hc.lt, c.declaration.like_refl hl ha⟩
  · refine ⟨rfl, rfl, hc.lt, ?_⟩
    show c.declaration.Like g (Mask.cons false .clear) c.declaration
    rw [Mask.cons_clear]
    exact c.declaration.like_refl hl ha

/-- What is around a frame is a frame. -/
theorem Scene.Sound.lt_of_enclosing? (hw : w.Sound L) {e o : FrameRef} (ho : w.heap.frames.enclosing? e = some o) :
    o < w.heap.frames.size := by
  have he : e < w.heap.frames.size := Frames.lt_of_enclosing? ho
  have hne : e ≠ Heap.globals := by
    rintro rfl
    rw [hw.top] at ho
    cases ho
  obtain ⟨o', ho', hlt, -⟩ := hw.linked e he hne
  obtain rfl := Option.some.inj (ho'.symm.trans ho)
  exact Nat.lt_trans hlt he

theorem Scene.Sound.like (hl : ∀ n, g.lines n n) (ha : ∀ l, g.admits l) (hw : w.Sound L) :
    w.heap.Like g (.still w.heap) w.heap := by
  refine ⟨hw.root, rfl, fun _ => rfl, hw.top, rfl, fun e o ho => ⟨hw.lt_of_enclosing? ho, fun _ => rfl⟩, fun e => ?_,
    fun o => ?_, rfl, rfl, rfl⟩
  · exact List.forall₂_same.2 fun p hp => ⟨rfl, (hw.value e p hp).like hl ha⟩
  · exact List.forall₂_same.2 fun p hp => ⟨rfl, (hw.field o p hp).like hl ha⟩

/-- A machine with a sound scene is alike itself. -/
theorem Scene.At.like (hl : ∀ n, g.lines n n) (ha : ∀ l, g.admits l) (hw : w.At L m) :
    m.Like g (.still m.heap) m := by
  refine ⟨?_, rfl⟩
  rw [← hw.heap]
  exact hw.sound.like hl ha

end

end ScriptLang
