import ScriptLang.Proofs.Running.Still

/-!
# Runs that differ in lines

* `Guise.onLines` — nothing differs but lines;
* `Stmt.LikeAll.widen`, `Machine.Like.widen` — what is alike stays so if more labels are known on both sides;
* `Heap.unlined`, `Diagnostic.unlined` — without lines;
* `Machine.Like.unlined` — machines that differ in lines only are the same without lines.
-/

namespace ScriptLang

/-- Nothing differs but lines; the distances of some labels are known. -/
def Guise.onLines (δ : Label → Option Nat) (P : Label → Prop) : Guise where
  rename := id
  injective := Function.injective_id
  this := rfl
  super := rfl
  lines _ _ := True
  distance := δ
  admits := P

/-! ## more labels -/

section

variable {δ : Label → Option Nat} {P Q : Label → Prop} {Γ : Mask}

theorem Token.Like.widen {b : Bool} {t t' : Token} (h : t.Like (.onLines δ P) b t') : t.Like (.onLines δ Q) b t' :=
  ⟨h.kind, h.lexeme, trivial⟩

mutual

theorem Expr.Like.widen (hPQ : ∀ l, P l → Q l) (x : Expr) {x' : Expr} (h : x.Like (.onLines δ P) Γ x') :
    x.Like (.onLines δ Q) Γ x' := by
  cases h with
  | literal => exact .literal
  | group h => exact .group (h.widen hPQ)
  | unary hop h => exact .unary hop.widen (h.widen hPQ)
  | binary h hop h' => exact .binary (h.widen hPQ) hop.widen (h'.widen hPQ)
  | logical h hop h' => exact .logical (h.widen hPQ) hop.widen (h'.widen hPQ)
  | «variable» hl hname => exact .variable (hPQ _ hl) hname.widen
  | assign hl hname h => exact .assign (hPQ _ hl) hname.widen (h.widen hPQ)
  | call h hparen hs => exact .call (h.widen hPQ) hparen.widen (Expr.Like.widenAll hPQ _ hs)
  | get h hname => exact .get (h.widen hPQ) hname.widen
  | set h hname h' => exact .set (h.widen hPQ) hname.widen (h'.widen hPQ)
  | this hl hk => exact .this (hPQ _ hl) hk.widen
  | super hl hk hname => exact .super (hPQ _ hl) hk.widen hname.widen

theorem Expr.Like.widenAll (hPQ : ∀ l, P l → Q l) (xs : List Expr) {xs' : List Expr}
    (h : List.Forall₂ (Expr.Like (.onLines δ P) Γ) xs xs') : List.Forall₂ (Expr.Like (.onLines δ Q) Γ) xs xs' := by
  cases h with
  | nil => exact .nil
  | cons h hs => exact .cons (Expr.Like.widen hPQ _ h) (Expr.Like.widenAll hPQ _ hs)

end

theorem Expr.Like.widenIn (hPQ : ∀ l, P l → Q l) {x x' : Option Expr}
    (h : Option.Rel (Expr.Like (.onLines δ P) Γ) x x') : Option.Rel (Expr.Like (.onLines δ Q) Γ) x x' := by
  cases h with
  | none => exact .none
  | some h => exact .some (h.widen hPQ)

theorem Token.Like.widenAll {b : Bool} {ts ts' : List Token} (h : List.Forall₂ (Token.Like (.onLines δ P) b) ts ts') :
    List.Forall₂ (Token.Like (.onLines δ Q) b) ts ts' :=
  h.imp fun _ _ ht => ht.widen

end

section

variable {δ : Label → Option Nat} {P Q : Label → Prop}

mutual

theorem Stmt.Like.widen (hPQ : ∀ l, P l → Q l) {Γ : Mask} (s : Stmt) {s' : Stmt} (h : s.Like (.onLines δ P) Γ s') :
    s.Like (.onLines δ Q) Γ s' := by
  cases h with
  | expr h => exact .expr (h.widen hPQ)
  | print hk h => exact .print hk.widen (h.widen hPQ)
  | varDecl hname h => exact .varDecl hname.widen (Expr.Like.widenIn hPQ h)
  | block b h => exact .block b (h.widen hPQ)
  | ifThen hc h => exact .ifThen (hc.widen hPQ) (h.widen hPQ)
  | ifElse hc h h' => exact .ifElse (hc.widen hPQ) (h.widen hPQ) (h'.widen hPQ)
  | loop hc h hi => exact .loop (hc.widen hPQ) (h.widen hPQ) (Expr.Like.widenIn hPQ hi)
  | funDecl hname h => exact .funDecl hname (h.widen hPQ)
  | returnFrom hk h => exact .returnFrom hk.widen (Expr.Like.widenIn hPQ h)
  | classDecl hname hkeep hs hms =>
    exact .classDecl hname.widen hkeep (Expr.Like.widenIn hPQ hs) (hms.widen hPQ)
  | breakLoop hk => exact .breakLoop hk.widen
  | continueLoop hk => exact .continueLoop hk.widen

theorem Stmt.LikeAll.widen (hPQ : ∀ l, P l → Q l) {Γ : Mask} (body : List Stmt) {body' : List Stmt}
    (h : Stmt.LikeAll (.onLines δ P) Γ body body') : Stmt.LikeAll (.onLines δ Q) Γ body body' := by
  cases h with
  | nil => exact .nil
  | cons h hs => exact .cons (h.widen hPQ) (hs.widen hPQ)

theorem FunctionDecl.Like.widen (hPQ : ∀ l, P l → Q l) {Γ : Mask} (d : FunctionDecl) {d' : FunctionDecl}
    (h : d.Like (.onLines δ P) Γ d') : d.Like (.onLines δ Q) Γ d' := by
  cases h with
  | mk b hname hparams h => exact .mk b hname.widen (Token.Like.widenAll hparams) (h.widen hPQ)

theorem FunctionDecl.LikeAll.widen (hPQ : ∀ l, P l → Q l) {Γ : Mask} (ds : List FunctionDecl) {ds' : List FunctionDecl}
    (h : FunctionDecl.LikeAll (.onLines δ P) Γ ds ds') : FunctionDecl.LikeAll (.onLines δ Q) Γ ds ds' := by
  cases h with
  | nil => exact .nil
  | cons h hs => exact .cons (h.widen hPQ) (hs.widen hPQ)

end

variable {v : View}

theorem Value.Like.widen (hPQ : ∀ l, P l → Q l) {a a' : Value} (h : a.Like (.onLines δ P) v a') :
    a.Like (.onLines δ Q) v a' :=
  Value.Alike.mono h (fun _ _ hc => ⟨hc.frame, hc.initializer, hc.lt, hc.code.widen hPQ⟩)
    fun _ _ hc => ⟨hc.frame, hc.initializer, hc.lt, hc.code.widen hPQ⟩

theorem Machine.Like.widen (hPQ : ∀ l, P l → Q l) {m m' : Machine} (h : m.Like (.onLines δ P) v m') :
    m.Like (.onLines δ Q) v m' :=
  ⟨{ h.heap with
      bindings := fun e => (h.heap.bindings e).mono fun _ _ ha => Value.Like.widen hPQ ha
      fields := fun o => (h.heap.fields o).mono fun _ _ ha => Value.Like.widen hPQ ha }, h.console⟩

end

/-! ## without lines -/

/-- The function without lines. -/
def FunctionDecl.unlined (d : FunctionDecl) : FunctionDecl := d.moved (fun _ => 0) 0

/-- The closure without lines. -/
def Closure.unlined (c : Closure) : Closure := { c with declaration := c.declaration.unlined }

/-- The class without lines. -/
def Class.unlined : Class → Class
  | .mk tag name none methods => .mk tag name none (methods.map fun p => (p.1, p.2.unlined))
  | .mk tag name (some parent) methods => .mk tag name (some parent.unlined) (methods.map fun p => (p.1, p.2.unlined))

/-- The value without lines. -/
def Value.unlined : Value → Value
  | .function tag c => .function tag c.unlined
  | .klass c => .klass c.unlined
  | .object o c => .object o c.unlined
  | a => a

/-- Bindings or fields without lines. -/
def unlinedAll (bs : Assoc String Value) : Assoc String Value := bs.map fun p => (p.1, p.2.unlined)

/-- The heap without lines. -/
def Heap.unlined (h : Heap) : Heap where
  frames := h.frames.map fun f => { f with bindings := unlinedAll f.bindings }
  objects := h.objects.map unlinedAll
  nextTag := h.nextTag

/-- The diagnostic without lines. -/
def Diagnostic.unlined : Diagnostic → Diagnostic
  | .lexical _ cause => .lexical 0 cause
  | .syntactic t cause => .syntactic (t.moved fun _ => 0) cause
  | .scoping t cause => .scoping (t.moved fun _ => 0) cause
  | .runtime t cause => .runtime (t.moved fun _ => 0) cause
  | .output cause => .output cause

section

variable {δ : Label → Option Nat} {P : Label → Prop} {Γ : Mask} {v : View}

@[simp] theorem Guise.name_onLines (b : Bool) (s : String) : (Guise.onLines δ P).name b s = s := by cases b <;> rfl

theorem Token.Like.unlined {b : Bool} {t t' : Token} (h : t.Like (.onLines δ P) b t') :
    t'.moved (fun _ => 0) = t.moved fun _ => 0 := by
  have hlexeme : t'.lexeme = t.lexeme := h.lexeme.trans (Guise.name_onLines b _)
  simp only [Token.moved, h.kind, hlexeme]

theorem Token.Like.unlinedAll {b : Bool} {ts ts' : List Token} (h : List.Forall₂ (Token.Like (.onLines δ P) b) ts ts') :
    ts'.map (Token.moved fun _ => 0) = ts.map (Token.moved fun _ => 0) := by
  induction h with
  | nil => rfl
  | cons ht _ ih => rw [List.map_cons, List.map_cons, ht.unlined, ih]

mutual

theorem Expr.Like.unlined (x : Expr) {x' : Expr} (h : x.Like (.onLines δ P) Γ x') :
    x'.moved (fun _ => 0) 0 = x.moved (fun _ => 0) 0 := by
  cases h with
  | literal => rfl
  | group h => simp only [Expr.moved, h.unlined]
  | unary hop h => simp only [Expr.moved, hop.unlined, h.unlined]
  | binary h hop h' => simp only [Expr.moved, h.unlined, hop.unlined, h'.unlined]
  | logical h hop h' => simp only [Expr.moved, h.unlined, hop.unlined, h'.unlined]
  | «variable» hl hname => simp only [Expr.moved, hname.unlined]
  | assign hl hname h => simp only [Expr.moved, hname.unlined, h.unlined]
  | call h hparen hs => simp only [Expr.moved, h.unlined, hparen.unlined, Expr.Like.unlinedAll _ hs]
  | get h hname => simp only [Expr.moved, h.unlined, hname.unlined]
  | set h hname h' => simp only [Expr.moved, h.unlined, hname.unlined, h'.unlined]
  | this hl hk => simp only [Expr.moved, hk.unlined]
  | super hl hk hname => simp only [Expr.moved, hk.unlined, hname.unlined]

theorem Expr.Like.unlinedAll (xs : List Expr) {xs' : List Expr} (h : List.Forall₂ (Expr.Like (.onLines δ P) Γ) xs xs') :
    Expr.movedAll (fun _ => 0) 0 xs' = Expr.movedAll (fun _ => 0) 0 xs := by
  cases h with
  | nil => rfl
  | cons h hs => simp only [Expr.movedAll, Expr.Like.unlined _ h, Expr.Like.unlinedAll _ hs]

end

theorem Expr.Like.unlinedIn {x x' : Option Expr} (h : Option.Rel (Expr.Like (.onLines δ P) Γ) x x') :
    x'.map (Expr.moved (fun _ => 0) 0) = x.map (Expr.moved (fun _ => 0) 0) := by
  cases h with
  | none => rfl
  | some h => simp only [Option.map_some, h.unlined]

mutual

theorem Stmt.Like.unlined {Γ : Mask} (s : Stmt) {s' : Stmt} (h : s.Like (.onLines δ P) Γ s') :
    s'.moved (fun _ => 0) 0 = s.moved (fun _ => 0) 0 := by
  cases h with
  | expr h => simp only [Stmt.moved, h.unlined]
  | print hk h => simp only [Stmt.moved, hk.unlined, h.unlined]
  | varDecl hname h => simp only [Stmt.moved, hname.unlined, Expr.Like.unlinedIn h]
  | block b h => simp only [Stmt.moved, h.unlined]
  | ifThen hc h => simp only [Stmt.moved, hc.unlined, h.unlined]
  | ifElse hc h h' => simp only [Stmt.moved, hc.unlined, h.unlined, h'.unlined]
  | loop hc h hi => simp only [Stmt.moved, hc.unlined, h.unlined, Expr.Like.unlinedIn hi]
  | funDecl hname h => simp only [Stmt.moved, h.unlined]
  | returnFrom hk h => simp only [Stmt.moved, hk.unlined, Expr.Like.unlinedIn h]
  | classDecl hname hkeep hs hms => simp only [Stmt.moved, hname.unlined, Expr.Like.unlinedIn hs, hms.unlined]
  | breakLoop hk => simp only [Stmt.moved, hk.unlined]
  | continueLoop hk => simp only [Stmt.moved, hk.unlined]

theorem Stmt.LikeAll.unlined {Γ : Mask} (body : List Stmt) {body' : List Stmt}
    (h : Stmt.LikeAll (.onLines δ P) Γ body body') :
    Stmt.movedAll (fun _ => 0) 0 body' = Stmt.movedAll (fun _ => 0) 0 body := by
  cases h with
  | nil => rfl
  | cons h hs => simp only [Stmt.movedAll, h.unlined, hs.unlined]

theorem FunctionDecl.Like.unlined {Γ : Mask} (d : FunctionDecl) {d' : FunctionDecl}
    (h : d.Like (.onLines δ P) Γ d') : d'.moved (fun _ => 0) 0 = d.moved (fun _ => 0) 0 := by
  cases h with
  | mk b hname hparams h =>
    simp only [FunctionDecl.moved, hname.unlined, Token.Like.unlinedAll hparams, h.unlined]

theorem FunctionDecl.LikeAll.unlined {Γ : Mask} (ds : List FunctionDecl) {ds' : List FunctionDecl}
    (h : FunctionDecl.LikeAll (.onLines δ P) Γ ds ds') :
    FunctionDecl.movedAll (fun _ => 0) 0 ds' = FunctionDecl.movedAll (fun _ => 0) 0 ds := by
  cases h with
  | nil => rfl
  | cons h hs => simp only [FunctionDecl.movedAll, h.unlined, hs.unlined]

end

theorem Closure.LikeUnder.unlined {wrap : Mask → Mask} {c c' : Closure} (h : c.LikeUnder (.onLines δ P) v wrap c') :
    c'.unlined = c.unlined := by
  have hcode : c'.declaration.unlined = c.declaration.unlined := h.code.unlined
  simp only [Closure.unlined, hcode, h.frame, h.initializer]

/-- Maps with the same keys are the same if their values are. -/
theorem Assoc.Related.map_eq {α β : Type} {rename : String → String} {R : α → α → Prop} {m m' : Assoc String α}
    {f : α → β} (h : Related rename R m m') (hn : ∀ n, rename n = n) (hf : ∀ a a', R a a' → f a' = f a) :
    m'.map (fun p => (p.1, f p.2)) = m.map fun p => (p.1, f p.2) := by
  induction h with
  | nil => rfl
  | cons hp _ ih => rw [List.map_cons, List.map_cons, hp.1, hn, hf _ _ hp.2, ih]

theorem Class.Alike.unlined {wrap : Mask → Mask} {c c' : Class}
    (h : c.Alike (Closure.LikeUnder (.onLines δ P) v wrap) c') : c'.unlined = c.unlined := by
  induction h with
  | base hms => simp only [Class.unlined, hms.map_eq (fun _ => rfl) fun _ _ hm => hm.unlined]
  | derived _ hms ih => simp only [Class.unlined, hms.map_eq (fun _ => rfl) fun _ _ hm => hm.unlined, ih]

theorem Value.Like.unlined {a a' : Value} (h : a.Like (.onLines δ P) v a') : a'.unlined = a.unlined := by
  cases h with
  | function hc => simp only [Value.unlined, hc.unlined]
  | klass hc => simp only [Value.unlined, hc.unlined]
  | object hc => simp only [Value.unlined, hc.unlined]
  | _ => rfl

/-- Frames are the same if their links and their bindings are. -/
theorem Frames.map_eq {α β : Type} {fs fs' : Frames α} {f : Assoc String α → Assoc String β} (hs : fs'.size = fs.size)
    (he : ∀ e, fs'.enclosing? e = fs.enclosing? e) (hb : ∀ e, f (fs'.bindings e) = f (fs.bindings e)) :
    fs'.map (fun r => Frame.mk (f r.bindings) r.enclosing) = fs.map fun r => Frame.mk (f r.bindings) r.enclosing := by
  refine Array.ext (by simp [hs]) fun e h h' => ?_
  rw [Array.size_map] at h h'
  have hlink := he e
  have hbindings := hb e
  simp only [Frames.enclosing?, Frames.bindings, Array.getElem?_eq_getElem h, Array.getElem?_eq_getElem h',
    Option.bind_some, Option.elim_some] at hlink hbindings
  simp only [Array.getElem_map, hlink, hbindings]

/-- Machines that differ in lines only are the same without lines. -/
theorem Machine.Like.unlined {m m' : Machine} (h : m.Like (.onLines δ P) v m') :
    m'.heap.unlined = m.heap.unlined := by
  have hframes := Frames.map_eq (f := unlinedAll) h.heap.frames h.heap.enclosing fun e =>
    (h.heap.bindings e).map_eq (Guise.name_onLines _) fun _ _ ha => Value.Like.unlined ha
  have hobjects : m'.heap.objects.map unlinedAll = m.heap.objects.map unlinedAll := by
    refine Array.ext (by simp [h.heap.objects]) fun o hlt hlt' => ?_
    rw [Array.size_map] at hlt hlt'
    have hfields := (h.heap.fields o).map_eq (fun _ => rfl) fun _ _ ha => Value.Like.unlined ha
    simp only [Heap.fields, Array.getElem?_eq_getElem hlt, Array.getElem?_eq_getElem hlt', Option.getD_some] at hfields
    simpa only [Array.getElem_map, unlinedAll] using hfields
  unfold Heap.unlined
  rw [hframes, hobjects, h.heap.tag]

theorem Fault.Like.unlined {f f' : Fault} (h : f.Like (.onLines δ P) f') :
    f'.toDiagnostic.unlined = f.toDiagnostic.unlined := by
  cases h with
  | @runtime t t' cause b ht =>
    have hcause : cause.renamed ((Guise.onLines δ P).name b) = cause := by
      cases cause with
      | undefinedVariable name => exact congrArg RuntimeFault.undefinedVariable (Guise.name_onLines b name)
      | _ => rfl
    simp only [Fault.toDiagnostic, Diagnostic.unlined, ht.unlined, hcause]
  | output => rfl

end

end ScriptLang
