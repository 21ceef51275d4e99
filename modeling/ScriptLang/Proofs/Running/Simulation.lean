import ScriptLang.Proofs.Running.Agree
import ScriptLang.Proofs.Running.Confined
import ScriptLang.Proofs.Running.Faults

/-!
# Alike programs run alike

Alike code in one frame of two alike machines ends alike.  `Simulates g σ σ' n` says so of all functions of the
recursion at depth `n`, and `simulates` proves it by induction on the depth; `agree_program` is the same for whole programs.

Both sides need the same fuel, so a run that uses it up does so on both.
-/

namespace ScriptLang

/-- Two settings know the distances of the labels of a guise, and have the same host functions. -/
structure Guise.Joins (g : Guise) (σ σ' : Setting) : Prop where
  left : ∀ l, g.admits l → σ.distance? l = g.distance l
  right : ∀ l, g.admits l → σ'.distance? l = g.distance l
  hosts : σ'.hosts = σ.hosts
  blind : ∀ f ∈ σ.hosts, Host.Blind f

/-- All functions of the recursion keep machines alike at one depth. -/
structure Simulates (g : Guise) (σ σ' : Setting) (n : Nat) : Prop where
  eval : ∀ {v m m' e x x'}, Machine.Like g v m m' → e < v.size → Expr.Like g (v.mask e) x x' →
    (Exec.eval n σ e x m).Agree g v (fun v' => Value.Like g v') (Exec.eval n σ' e x' m')
  evalAll : ∀ {v m m' e xs xs'}, Machine.Like g v m m' → e < v.size → List.Forall₂ (Expr.Like g (v.mask e)) xs xs' →
    (Exec.evalAll n σ e xs m).Agree g v (fun v' => List.Forall₂ (Value.Like g v')) (Exec.evalAll n σ' e xs' m')
  call : ∀ {v m m' f f' as as' paren paren'}, Machine.Like g v m m' → Value.Like g v f f' →
    List.Forall₂ (Value.Like g v) as as' → Token.Like g false paren paren' →
    (Exec.call n σ f as paren m).Agree g v (fun v' => Value.Like g v') (Exec.call n σ' f' as' paren' m')
  invoke : ∀ {v m m' c c' as as'}, Machine.Like g v m m' → Closure.LikeUnder g v id c c' →
    List.Forall₂ (Value.Like g v) as as' →
    (Exec.invoke n σ c as m).Agree g v (fun v' => Value.Like g v') (Exec.invoke n σ' c' as' m')
  exec : ∀ {v m m' e s s'}, Machine.Like g v m m' → e < v.size → Stmt.Like g (v.mask e) s s' →
    (Exec.exec n σ e s m).Agree g v (fun v' => Flow.Like g v') (Exec.exec n σ' e s' m')
  execAll : ∀ {v m m' e body body'}, Machine.Like g v m m' → e < v.size → Stmt.LikeAll g (v.mask e) body body' →
    (Exec.execAll n σ e body m).Agree g v (fun v' => Flow.Like g v') (Exec.execAll n σ' e body' m')
  loop : ∀ {v m m' e c c' b b' i i'}, Machine.Like g v m m' → e < v.size → Expr.Like g (v.mask e) c c' →
    Stmt.Like g (v.mask e) b b' → Option.Rel (Expr.Like g (v.mask e)) i i' →
    (Exec.loop n σ e c b i m).Agree g v (fun v' => Flow.Like g v') (Exec.loop n σ' e c' b' i' m')

namespace Simulates

open Exec

variable {g : Guise} {σ σ' : Setting} {n : Nat} {v : View} {m m' : Machine} {e : FrameRef}

theorem agree_eval (ih : Simulates g σ σ' n) (hσ : g.Joins σ σ') {x x' : Expr} (hm : m.Like g v m') (he : e < v.size)
    (hx : x.Like g (v.mask e) x') :
    (Exec.eval (n + 1) σ e x m).Agree g v (fun v' => Value.Like g v') (Exec.eval (n + 1) σ' e x' m') := by
  -- behind a part of the expression, the frame has the mask that it had
  have hstay : ∀ {v' : View} {y y' : Expr}, v.Grows v' → y.Like g (v.mask e) y' →
      e < v'.size ∧ y.Like g (v'.mask e) y' := fun hg hy =>
    ⟨Nat.lt_of_lt_of_le he hg.size, by rw [hg.mask e he]; exact hy⟩
  cases hx with
  | literal =>
    simp only [Exec.eval]
    refine agree_pure hm ?_
    next l => cases l <;> constructor
  | group hx =>
    simp only [Exec.eval]
    exact ih.eval hm he hx
  | @unary op op' y y' hop hx =>
    simp only [Exec.eval]
    refine agree_bind (ih.eval hm he hx) fun v₁ a a' m₁ m₁' _ hm₁ ha => ?_
    rw [hop.kind, Value.Alike.applyUnary ha]
    exact agree_ofResult hm₁ hop applyUnary_ne_undefined fun b hb => (plain_applyUnary hb).alike
  | @binary y y' op op' z z' hl hop hr =>
    simp only [Exec.eval]
    refine agree_bind (ih.eval hm he hl) fun v₁ a a' m₁ m₁' hg₁ hm₁ ha => ?_
    obtain ⟨he₁, hr₁⟩ := hstay hg₁ hr
    refine agree_bind (ih.eval hm₁ he₁ hr₁) fun v₂ b b' m₂ m₂' hg₂ hm₂ hb => ?_
    rw [hop.kind, Value.Alike.applyBinary (ha.mono hg₂) hb]
    exact agree_ofResult hm₂ hop applyBinary_ne_undefined fun c hc => (plain_applyBinary hc).alike
  | @logical y y' op op' z z' hl hop hr =>
    simp only [Exec.eval]
    refine agree_bind (ih.eval hm he hl) fun v₁ a a' m₁ m₁' hg₁ hm₁ ha => ?_
    have hdecides : decides op'.kind a' = decides op.kind a := by
      unfold decides
      rw [hop.kind, ha.truthy]
    rw [hdecides]
    split
    · exact agree_pure hm₁ ha
    · obtain ⟨he₁, hr₁⟩ := hstay hg₁ hr
      exact ih.eval hm₁ he₁ hr₁
  | «variable» hl hname =>
    simp only [Exec.eval]
    rw [hσ.left _ hl, hσ.right _ hl]
    exact agree_readName hm hname
  | @assign l name name' y y' hl hname hx =>
    simp only [Exec.eval]
    refine agree_bind (ih.eval hm he hx) fun v₁ a a' m₁ m₁' hg₁ hm₁ ha => ?_
    rw [hσ.left _ hl, hσ.right _ hl]
    have hname₁ : name.Like g ((v₁.mask e).at (g.distance l)) name' := by
      rw [hg₁.mask e he]
      exact hname
    refine agree_bind (agree_writeName hm₁ hname₁ ha) fun v₂ _ _ m₂ m₂' _ hm₂ hv => ?_
    subst hv
    exact agree_pure hm₂ ha
  | call hf hparen hxs =>
    simp only [Exec.eval]
    refine agree_bind (ih.eval hm he hf) fun v₁ f f' m₁ m₁' hg₁ hm₁ hf₁ => ?_
    have hxs₁ : List.Forall₂ (Expr.Like g (v₁.mask e)) _ _ := hxs.imp fun _ _ hy => (hstay hg₁ hy).2
    refine agree_bind (ih.evalAll hm₁ (Nat.lt_of_lt_of_le he hg₁.size) hxs₁) fun v₂ as as' m₂ m₂' hg₂ hm₂ has => ?_
    exact ih.call hm₂ (hf₁.mono hg₂) has hparen
  | get hx hname =>
    simp only [Exec.eval]
    refine agree_bind (ih.eval hm he hx) fun v₁ a a' m₁ m₁' _ hm₁ ha => ?_
    cases ha with
    | object hc => exact agree_getProperty hm₁ (.object hc) hname
    | _ => exact agree_fail hm₁ hname .noProperties
  | @set y y' name name' z z' hx hname hz =>
    have hlexeme : name'.lexeme = name.lexeme := hname.lexeme
    simp only [Exec.eval]
    refine agree_bind (ih.eval hm he hx) fun v₁ a a' m₁ m₁' hg₁ hm₁ ha => ?_
    cases ha with
    | object hc =>
      obtain ⟨he₁, hz₁⟩ := hstay hg₁ hz
      refine agree_bind (ih.eval hm₁ he₁ hz₁) fun v₂ b b' m₂ m₂' _ hm₂ hb => ?_
      rw [hlexeme]
      refine agree_bind (agree_setField hm₂ hb) fun v₃ _ _ m₃ m₃' _ hm₃ hv => ?_
      subst hv
      exact agree_pure hm₃ hb
    | _ => exact agree_fail hm₁ hname .noFields
  | this hl hkeyword =>
    simp only [Exec.eval]
    rw [hσ.left _ hl, hσ.right _ hl]
    exact agree_readName hm hkeyword
  | super hl hkeyword hname =>
    simp only [Exec.eval]
    rw [hσ.left _ hl, hσ.right _ hl]
    exact agree_getSuper hm hkeyword hname

theorem agree_evalAll (ih : Simulates g σ σ' n) {xs xs' : List Expr} (hm : m.Like g v m') (he : e < v.size)
    (hx : List.Forall₂ (Expr.Like g (v.mask e)) xs xs') :
    (Exec.evalAll (n + 1) σ e xs m).Agree g v (fun v' => List.Forall₂ (Value.Like g v'))
      (Exec.evalAll (n + 1) σ' e xs' m') := by
  cases hx with
  | nil =>
    simp only [Exec.evalAll]
    exact agree_pure hm .nil
  | cons hx hxs =>
    simp only [Exec.evalAll]
    refine agree_bind (ih.eval hm he hx) fun v₁ a a' m₁ m₁' hg₁ hm₁ ha => ?_
    rw [← hg₁.mask e he] at hxs
    refine agree_bind (ih.evalAll hm₁ (Nat.lt_of_lt_of_le he hg₁.size) hxs) fun v₂ as as' m₂ m₂' hg₂ hm₂ has => ?_
    exact agree_pure hm₂ (.cons (ha.mono hg₂) has)

theorem agree_call (ih : Simulates g σ σ' n) (hσ : g.Joins σ σ') {f f' : Value} {as as' : List Value}
    {paren paren' : Token} (hm : m.Like g v m') (hf : f.Like g v f') (ha : List.Forall₂ (Value.Like g v) as as')
    (hp : paren.Like g false paren') :
    (Exec.call (n + 1) σ f as paren m).Agree g v (fun v' => Value.Like g v')
      (Exec.call (n + 1) σ' f' as' paren' m') := by
  cases hf with
  | function hc =>
    simp only [Exec.call]
    rw [hc.arity, ← ha.length_eq]
    refine agree_bind (agree_checkArity hm hp) fun v₁ _ _ m₁ m₁' _ hm₁ hv => ?_
    subst hv
    exact ih.invoke hm₁ hc ha
  | builtin =>
    simp only [Exec.call]
    rw [← ha.length_eq, hσ.hosts]
    refine agree_bind (agree_checkArity hm hp) fun v₁ _ _ m₁ m₁' _ hm₁ hv => ?_
    subst hv
    exact agree_runBuiltin hm₁ hσ.blind ha hp
  | @klass c c' hc =>
    simp only [Exec.call]
    rw [hc.arity, ← ha.length_eq]
    refine agree_bind (agree_checkArity hm hp) fun v₁ _ _ m₁ m₁' _ hm₁ hv => ?_
    subst hv
    refine agree_bind (agree_newObject hm₁ (.klass hc)) fun v₂ this this' m₂ m₂' hg₂ hm₂ hthis => ?_
    have hinit := hc.method? FunctionDecl.initName
    revert hinit
    cases c.method? FunctionDecl.initName <;> cases c'.method? FunctionDecl.initName <;> intro hinit <;> cases hinit
    · exact agree_pure hm₂ hthis
    · next hmethod =>
      refine agree_bind (agree_bindThis hm₂ (hmethod.mono hg₂) hthis) fun v₃ b b' m₃ m₃' hg₃ hm₃ hbound => ?_
      have has := forall₂_like_mono ha (hg₂.trans hg₃)
      refine agree_bind (ih.invoke hm₃ hbound has) fun v₄ _ _ m₄ m₄' hg₄ hm₄ _ => ?_
      exact agree_pure hm₄ (hthis.mono (hg₃.trans hg₄))
  | _ =>
    simp only [Exec.call]
    exact agree_fail hm hp .notCallable

theorem agree_invoke (ih : Simulates g σ σ' n) {c c' : Closure} {as as' : List Value} (hm : m.Like g v m')
    (hc : c.LikeUnder g v id c') (ha : List.Forall₂ (Value.Like g v) as as') :
    (Exec.invoke (n + 1) σ c as m).Agree g v (fun v' => Value.Like g v') (Exec.invoke (n + 1) σ' c' as' m') := by
  simp only [Exec.invoke]
  refine agree_bind (agree_callFrame hm hc ha) fun v₁ f f' m₁ m₁' _ hm₁ hq => ?_
  obtain ⟨rfl, hlt, hbody⟩ := hq
  refine agree_bind (ih.execAll hm₁ hlt hbody) fun v₂ flow flow' m₂ m₂' _ hm₂ hflow => ?_
  exact agree_callResult hm₂ hc.frame hc.initializer hflow

theorem agree_exec (ih : Simulates g σ σ' n) {s s' : Stmt} (hm : m.Like g v m') (he : e < v.size)
    (hs : s.Like g (v.mask e) s') :
    (Exec.exec (n + 1) σ e s m).Agree g v (fun v' => Flow.Like g v') (Exec.exec (n + 1) σ' e s' m') := by
  have hlt : ∀ {v' : View}, v.Grows v' → e < v'.size := fun hg => Nat.lt_of_lt_of_le he hg.size
  cases hs with
  | expr hx =>
    simp only [Exec.exec]
    refine agree_bind (ih.eval hm he hx) fun v₁ a a' m₁ m₁' _ hm₁ _ => ?_
    exact agree_pure hm₁ .normal
  | print hkeyword hx =>
    simp only [Exec.exec]
    refine agree_bind (ih.eval hm he hx) fun v₁ a a' m₁ m₁' _ hm₁ ha => ?_
    refine agree_bind (agree_print hm₁ hkeyword ha) fun v₂ _ _ m₂ m₂' _ hm₂ _ => ?_
    exact agree_pure hm₂ .normal
  | varDecl hname hx =>
    cases hx with
    | none =>
      simp only [Exec.exec]
      refine agree_bind (agree_define hm hname.lexeme .nil) fun v₁ _ _ m₁ m₁' _ hm₁ _ => ?_
      exact agree_pure hm₁ .normal
    | some hx =>
      simp only [Exec.exec]
      refine agree_bind (ih.eval hm he hx) fun v₁ a a' m₁ m₁' hg₁ hm₁ ha => ?_
      have hlexeme := hname.lexeme
      rw [← hg₁.mask e he] at hlexeme
      refine agree_bind (agree_define hm₁ hlexeme ha) fun v₂ _ _ m₂ m₂' _ hm₂ _ => ?_
      exact agree_pure hm₂ .normal
  | block b hbody =>
    simp only [Exec.exec]
    refine agree_bind (agree_newFrame hm he b .nil) fun v₁ f f' m₁ m₁' _ hm₁ hq => ?_
    obtain ⟨rfl, hinner, hmask⟩ := hq
    exact ih.execAll hm₁ hinner (hmask ▸ hbody)
  | ifThen hc ht =>
    simp only [Exec.exec]
    refine agree_bind (ih.eval hm he hc) fun v₁ a a' m₁ m₁' hg₁ hm₁ ha => ?_
    rw [ha.truthy]
    rw [← hg₁.mask e he] at ht
    split
    · exact ih.exec hm₁ (hlt hg₁) ht
    · exact agree_pure hm₁ .normal
  | ifElse hc ht hf =>
    simp only [Exec.exec]
    refine agree_bind (ih.eval hm he hc) fun v₁ a a' m₁ m₁' hg₁ hm₁ ha => ?_
    rw [ha.truthy]
    rw [← hg₁.mask e he] at ht hf
    split
    · exact ih.exec hm₁ (hlt hg₁) ht
    · exact ih.exec hm₁ (hlt hg₁) hf
  | loop hc hb hi =>
    simp only [Exec.exec]
    exact ih.loop hm he hc hb hi
  | @funDecl _ d d' hkept hd =>
    simp only [Exec.exec]
    refine agree_bind (agree_newTag hm) fun v₁ t t' m₁ m₁' _ hm₁ hq => ?_
    obtain ⟨rfl, rfl⟩ := hq
    have hlexeme : d'.name.lexeme = g.name (v₁.mask e 0) d.name.lexeme := hd.name.lexeme.trans hkept.symm
    have hclosure : Closure.LikeUnder g v₁ id ⟨d, e, false⟩ ⟨d', e, false⟩ := ⟨rfl, rfl, he, hd⟩
    refine agree_bind (agree_define hm₁ hlexeme (.function hclosure)) fun v₂ _ _ m₂ m₂' _ hm₂ _ => ?_
    exact agree_pure hm₂ .normal
  | returnFrom hkeyword hx =>
    cases hx with
    | none =>
      simp only [Exec.exec]
      exact agree_pure hm (.returned .nil)
    | some hx =>
      simp only [Exec.exec]
      refine agree_bind (ih.eval hm he hx) fun v₁ a a' m₁ m₁' _ hm₁ ha => ?_
      exact agree_pure hm₁ (.returned ha)
  | classDecl hname hkept hx hms =>
    cases hx with
    | none =>
      simp only [Exec.exec]
      refine agree_bind (agree_makeClass hm he hname hkept .none hms) fun v₁ _ _ m₁ m₁' _ hm₁ _ => ?_
      exact agree_pure hm₁ .normal
    | some hx =>
      simp only [Exec.exec]
      refine agree_bind (ih.eval hm he hx) fun v₁ a a' m₁ m₁' hg₁ hm₁ ha => ?_
      rw [← hg₁.mask e he] at hx hkept hms
      refine agree_bind (agree_asSuperclass hm₁ hname hx ha) fun v₂ c c' m₂ m₂' hg₂ hm₂ hc => ?_
      rw [← hg₂.mask e (hlt hg₁)] at hkept hms
      have he₂ := hlt (hg₁.trans hg₂)
      refine agree_bind (agree_makeClass hm₂ he₂ hname hkept (.some hc) hms) fun v₃ _ _ m₃ m₃' _ hm₃ _ => ?_
      exact agree_pure hm₃ .normal
  | breakLoop hkeyword =>
    simp only [Exec.exec]
    exact agree_pure hm .broken
  | continueLoop hkeyword =>
    simp only [Exec.exec]
    exact agree_pure hm .continued

theorem agree_execAll (ih : Simulates g σ σ' n) {body body' : List Stmt} (hm : m.Like g v m') (he : e < v.size)
    (hs : Stmt.LikeAll g (v.mask e) body body') :
    (Exec.execAll (n + 1) σ e body m).Agree g v (fun v' => Flow.Like g v') (Exec.execAll (n + 1) σ' e body' m') := by
  cases hs with
  | nil =>
    simp only [Exec.execAll]
    exact agree_pure hm .normal
  | cons hs hrest =>
    simp only [Exec.execAll]
    refine agree_bind (ih.exec hm he hs) fun v₁ flow flow' m₁ m₁' hg₁ hm₁ hflow => ?_
    rw [← hg₁.mask e he] at hrest
    cases hflow with
    | normal => exact ih.execAll hm₁ (Nat.lt_of_lt_of_le he hg₁.size) hrest
    | returned ha => exact agree_pure hm₁ (.returned ha)
    | broken => exact agree_pure hm₁ .broken
    | continued => exact agree_pure hm₁ .continued

theorem agree_loop (ih : Simulates g σ σ' n) {c c' : Expr} {b b' : Stmt} {i i' : Option Expr} (hm : m.Like g v m')
    (he : e < v.size) (hc : c.Like g (v.mask e) c') (hb : b.Like g (v.mask e) b')
    (hi : Option.Rel (Expr.Like g (v.mask e)) i i') :
    (Exec.loop (n + 1) σ e c b i m).Agree g v (fun v' => Flow.Like g v') (Exec.loop (n + 1) σ' e c' b' i' m') := by
  have hagain : ∀ {v' : View} {m₁ m₁' : Machine}, v.Grows v' → m₁.Like g v' m₁' →
      (again n σ e c b i m₁).Agree g v' (fun v' => Flow.Like g v') (again n σ' e c' b' i' m₁') := by
    intro v₁ m₁ m₁' hg hm₁
    have he₁ := Nat.lt_of_lt_of_le he hg.size
    rw [← hg.mask e he] at hc hb hi
    cases hi with
    | none => exact ih.loop hm₁ he₁ hc hb .none
    | some hx =>
      refine agree_bind (ih.eval hm₁ he₁ hx) fun v₂ _ _ m₂ m₂' hg₂ hm₂ _ => ?_
      rw [← hg₂.mask e he₁] at hc hb hx
      exact ih.loop hm₂ (Nat.lt_of_lt_of_le he₁ hg₂.size) hc hb (.some hx)
  rw [loop_succ, loop_succ]
  refine agree_bind (ih.eval hm he hc) fun v₁ a a' m₁ m₁' hg₁ hm₁ ha => ?_
  rw [ha.truthy]
  split
  · have hb₁ := hb
    rw [← hg₁.mask e he] at hb₁
    refine agree_bind (ih.exec hm₁ (Nat.lt_of_lt_of_le he hg₁.size) hb₁) fun v₂ flow flow' m₂ m₂' hg₂ hm₂ hflow => ?_
    cases hflow with
    | normal => exact hagain (hg₁.trans hg₂) hm₂
    | returned ha => exact agree_pure hm₂ (.returned ha)
    | broken => exact agree_pure hm₂ .normal
    | continued => exact hagain (hg₁.trans hg₂) hm₂
  · exact agree_pure hm₁ .normal

end Simulates

variable {g : Guise} {σ σ' : Setting}

/-- Evaluation keeps machines alike at every depth. -/
theorem simulates (hσ : g.Joins σ σ') (n : Nat) : Simulates g σ σ' n := by
  induction n with
  | zero =>
    constructor <;> intros <;>
      simp only [Exec.eval, Exec.evalAll, Exec.call, Exec.invoke, Exec.exec, Exec.execAll, Exec.loop] <;>
      exact .outOfFuel
  | succ n ih =>
    exact ⟨ih.agree_eval hσ, ih.agree_evalAll, ih.agree_call hσ, ih.agree_invoke, ih.agree_exec, ih.agree_execAll,
      ih.agree_loop⟩

/-- Alike programs end alike. -/
theorem agree_program (hσ : g.Joins σ σ') {n : Nat} {body body' : List Stmt} {v : View} {m m' : Machine}
    (hm : m.Like g v m') (hb : Stmt.LikeAll g (v.mask Heap.globals) body body') :
    (Exec.program n σ body m).Agree g v (fun _ _ _ => True) (Exec.program n σ' body' m') := by
  induction body generalizing body' v m m' with
  | nil =>
    cases hb
    exact Exec.agree_pure hm trivial
  | cons s rest ih =>
    cases hb with
    | cons hs hrest =>
      simp only [Exec.program]
      refine Exec.agree_bind ((simulates hσ n).exec hm hm.heap.root hs) fun v₁ flow flow' m₁ m₁' hg₁ hm₁ _ => ?_
      rw [← hg₁.mask _ hm.heap.root] at hrest
      exact ih hm₁ hrest

theorem agree_program_flush (hσ : g.Joins σ σ') {n : Nat} {body body' : List Stmt} {v : View} {m m' : Machine}
    (hm : m.Like g v m') (hb : Stmt.LikeAll g (v.mask Heap.globals) body body') :
    ((do Exec.program n σ body; Exec.flush : Exec Unit) m).Agree g v (fun _ _ _ => True)
      ((do Exec.program n σ' body'; Exec.flush : Exec Unit) m') :=
  Exec.agree_bind (agree_program hσ hm hb) fun _ _ _ _ _ _ hm' _ => Exec.agree_flush hm'

end ScriptLang
