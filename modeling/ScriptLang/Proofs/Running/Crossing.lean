import ScriptLang.Proofs.Running.Confined
import ScriptLang.Proofs.Running.Meets

/-!
# Programs with more frames run the same

Shifted code in frames that a bridge ties together meets.  `Crosses σ σ' p n k` says so of all functions of the
recursion at two depths, and `crosses` proves it by induction for all depths that the pace allows.

The step that matters is one round of a replaced loop (`Crosses.meets_round`): the second run enters a frame that the
first has not, runs the body and the increment there, and leaves it behind.
-/

namespace ScriptLang

namespace Exec

/-- What a loop does behind its body. -/
def behind (next : Exec Flow) : Flow → Exec Flow
  | .broken => pure .normal
  | .returned w => pure (.returned w)
  | _ => next

theorem loop_eq_behind (n : Nat) (σ : Setting) (e : FrameRef) (c : Expr) (b : Stmt) (i : Option Expr) :
    loop (n + 1) σ e c b i = (do
      let v ← eval n σ e c
      if v.truthy then exec n σ e b >>= behind (again n σ e c b i) else pure .normal) := by
  rw [loop_succ]
  refine bind_congr fun v => if_congr Iff.rfl (bind_congr fun flow => ?_) rfl
  cases flow <;> rfl

end Exec

/-- All functions of the recursion meet at two depths. -/
structure Crosses (σ σ' : Setting) (p : Pace) (n k : Nat) : Prop where
  eval : ∀ {β m m' level δ o e x}, Machine.Bridged σ σ' β m m' → Bridge.Ties β level δ o e →
    Expr.Shifted σ.distance? σ'.distance? δ x →
    (Exec.eval n σ o x m).Meets σ σ' p β (Value.Bridged σ σ') (Exec.eval k σ' e x m')
  evalAll : ∀ {β m m' level δ o e xs}, Machine.Bridged σ σ' β m m' → Bridge.Ties β level δ o e →
    (∀ occ ∈ Expr.occurrencesAll xs, Occurrence.Shifted σ.distance? σ'.distance? δ occ) →
    (Exec.evalAll n σ o xs m).Meets σ σ' p β (fun β' => List.Forall₂ (Value.Bridged σ σ' β'))
      (Exec.evalAll k σ' e xs m')
  call : ∀ {β m m' f f' as as' paren}, Machine.Bridged σ σ' β m m' → Value.Bridged σ σ' β f f' →
    List.Forall₂ (Value.Bridged σ σ' β) as as' →
    (Exec.call n σ f as paren m).Meets σ σ' p β (Value.Bridged σ σ') (Exec.call k σ' f' as' paren m')
  invoke : ∀ {β m m' c c' as as'}, Machine.Bridged σ σ' β m m' → Closure.BridgedUnder σ σ' β id c c' →
    List.Forall₂ (Value.Bridged σ σ' β) as as' →
    (Exec.invoke n σ c as m).Meets σ σ' p β (Value.Bridged σ σ') (Exec.invoke k σ' c' as' m')
  exec : ∀ {β m m' level δ o e s s'}, Machine.Bridged σ σ' β m m' → Bridge.Ties β level δ o e →
    Stmt.Shifted σ.distance? σ'.distance? level δ s s' →
    (Exec.exec n σ o s m).Meets σ σ' p β (Flow.Bridged σ σ' s.continues) (Exec.exec k σ' e s' m')
  execAll : ∀ {β m m' δ o e body body'}, Machine.Bridged σ σ' β m m' → Bridge.Ties β true δ o e →
    Stmt.ShiftedAll σ.distance? σ'.distance? δ body body' →
    (Exec.execAll n σ o body m).Meets σ σ' p β (Flow.Bridged σ σ' (Stmt.continuesAny body))
      (Exec.execAll k σ' e body' m')
  loop : ∀ {β m m' level δ o e c b b' i i'}, Machine.Bridged σ σ' β m m' → Bridge.Ties β level δ o e →
    Stmt.Shifted σ.distance? σ'.distance? level δ (.loop c b i) (.loop c b' i') →
    (Exec.loop n σ o c b i m).Meets σ σ' p β (Flow.Bridged σ σ' false) (Exec.loop k σ' e c b' i' m')

namespace Crosses

open Exec

variable {σ σ' : Setting} {p : Pace} {n k : Nat} {β : Bridge} {m m' : Machine} {level : Bool} {δ : Shift}
  {o e : FrameRef}

/-! ## expressions and calls -/

theorem meets_eval (ih : Crosses σ σ' p n k) {x : Expr} (hm : m.Bridged σ σ' β m') (ht : β.Ties level δ o e)
    (hx : x.Shifted σ.distance? σ'.distance? δ) :
    (Exec.eval (n + 1) σ o x m).Meets σ σ' p β (Value.Bridged σ σ') (Exec.eval (k + 1) σ' e x m') := by
  unfold Expr.Shifted at hx
  cases x with
  | literal l =>
    simp only [Exec.eval]
    exact meets_pure hm (by cases l <;> constructor)
  | group x =>
    simp only [Exec.eval]
    exact ih.eval hm ht hx
  | unary operator x =>
    simp only [Exec.eval]
    refine meets_bind (ih.eval hm ht hx) fun β₁ a a' m₁ m₁' _ hm₁ ha => ?_
    rw [Value.Matched.applyUnary ha]
    exact meets_ofResult hm₁ operator fun b hb => (plain_applyUnary hb).matched
  | binary x operator y =>
    simp only [Expr.occurrences, List.forall_mem_append] at hx
    simp only [Exec.eval]
    refine meets_bind (ih.eval hm ht hx.1) fun β₁ a a' m₁ m₁' hg₁ hm₁ ha => ?_
    refine meets_bind (ih.eval hm₁ (ht.mono hg₁) hx.2) fun β₂ b b' m₂ m₂' hg₂ hm₂ hb => ?_
    rw [Value.Matched.applyBinary (ha.mono hg₂) hb]
    exact meets_ofResult hm₂ operator fun c hc => (plain_applyBinary hc).matched
  | logical x operator y =>
    simp only [Expr.occurrences, List.forall_mem_append] at hx
    simp only [Exec.eval]
    refine meets_bind (ih.eval hm ht hx.1) fun β₁ a a' m₁ m₁' hg₁ hm₁ ha => ?_
    have hdecides : decides operator.kind a' = decides operator.kind a := by
      unfold decides
      rw [Value.Matched.truthy ha]
    rw [hdecides]
    split
    · exact meets_pure hm₁ ha
    · exact ih.eval hm₁ (ht.mono hg₁) hx.2
  | «variable» label name =>
    simp only [Exec.eval]
    rw [(hx _ (List.mem_singleton.2 rfl)).distance]
    exact meets_readName hm ht _ name
  | assign label name x =>
    obtain ⟨hlabel, hx⟩ := List.forall_mem_cons.1 hx
    simp only [Exec.eval]
    refine meets_bind (ih.eval hm ht hx) fun β₁ a a' m₁ m₁' hg₁ hm₁ ha => ?_
    rw [hlabel.distance]
    refine meets_bind (meets_writeName hm₁ (ht.mono hg₁) _ name ha) fun β₂ _ _ m₂ m₂' _ hm₂ hsame => ?_
    subst hsame
    exact meets_pure hm₂ ha
  | call f paren xs =>
    simp only [Expr.occurrences, List.forall_mem_append] at hx
    simp only [Exec.eval]
    refine meets_bind (ih.eval hm ht hx.1) fun β₁ f f' m₁ m₁' hg₁ hm₁ hf => ?_
    refine meets_bind (ih.evalAll hm₁ (ht.mono hg₁) hx.2) fun β₂ as as' m₂ m₂' hg₂ hm₂ has => ?_
    exact ih.call hm₂ (hf.mono hg₂) has
  | get x name =>
    simp only [Exec.eval]
    refine meets_bind (ih.eval hm ht hx) fun β₁ a a' m₁ m₁' _ hm₁ ha => ?_
    cases ha with
    | object hc => exact meets_getProperty hm₁ hc name
    | _ => exact meets_fail hm₁ name _
  | set x name y =>
    simp only [Expr.occurrences, List.forall_mem_append] at hx
    simp only [Exec.eval]
    refine meets_bind (ih.eval hm ht hx.1) fun β₁ a a' m₁ m₁' hg₁ hm₁ ha => ?_
    cases ha with
    | object hc =>
      refine meets_bind (ih.eval hm₁ (ht.mono hg₁) hx.2) fun β₂ b b' m₂ m₂' _ hm₂ hb => ?_
      refine meets_bind (meets_setField hm₂ _ name.lexeme hb) fun β₃ _ _ m₃ m₃' _ hm₃ hsame => ?_
      subst hsame
      exact meets_pure hm₃ hb
    | _ => exact meets_fail hm₁ name _
  | this label keyword =>
    simp only [Exec.eval]
    rw [(hx _ (List.mem_singleton.2 rfl)).distance]
    exact meets_readName hm ht _ keyword
  | super label keyword name =>
    have hlabel := hx _ (List.mem_singleton.2 rfl)
    simp only [Exec.eval]
    rw [hlabel.distance]
    exact meets_getSuper hm ht (hlabel.object rfl) keyword name

theorem meets_evalAll (ih : Crosses σ σ' p n k) {xs : List Expr} (hm : m.Bridged σ σ' β m') (ht : β.Ties level δ o e)
    (hx : ∀ occ ∈ Expr.occurrencesAll xs, Occurrence.Shifted σ.distance? σ'.distance? δ occ) :
    (Exec.evalAll (n + 1) σ o xs m).Meets σ σ' p β (fun β' => List.Forall₂ (Value.Bridged σ σ' β'))
      (Exec.evalAll (k + 1) σ' e xs m') := by
  cases xs with
  | nil =>
    simp only [Exec.evalAll]
    exact meets_pure hm .nil
  | cons x xs =>
    simp only [Expr.occurrencesAll, List.forall_mem_append] at hx
    simp only [Exec.evalAll]
    refine meets_bind (ih.eval hm ht hx.1) fun β₁ a a' m₁ m₁' hg₁ hm₁ ha => ?_
    refine meets_bind (ih.evalAll hm₁ (ht.mono hg₁) hx.2) fun β₂ as as' m₂ m₂' hg₂ hm₂ has => ?_
    exact meets_pure hm₂ (.cons (ha.mono hg₂) has)

theorem meets_call (ih : Crosses σ σ' p n k) (hh : σ'.hosts = σ.hosts) (hs : ∀ f ∈ σ.hosts, Host.Shallow f)
    {f f' : Value} {as as' : List Value} {paren : Token} (hm : m.Bridged σ σ' β m') (hf : f.Bridged σ σ' β f')
    (ha : List.Forall₂ (Value.Bridged σ σ' β) as as') :
    (Exec.call (n + 1) σ f as paren m).Meets σ σ' p β (Value.Bridged σ σ') (Exec.call (k + 1) σ' f' as' paren m') := by
  cases hf with
  | function hc =>
    simp only [Exec.call]
    rw [hc.arity, ← ha.length_eq]
    refine meets_bind (meets_checkArity hm paren _ _) fun β₁ _ _ m₁ m₁' _ hm₁ hsame => ?_
    subst hsame
    exact ih.invoke hm₁ hc ha
  | builtin =>
    simp only [Exec.call]
    rw [← ha.length_eq, hh]
    refine meets_bind (meets_checkArity hm paren _ _) fun β₁ _ _ m₁ m₁' _ hm₁ hsame => ?_
    subst hsame
    exact meets_runBuiltin hm₁ hs _ ha paren
  | @klass c c' hc =>
    simp only [Exec.call]
    rw [hc.arity, ← ha.length_eq]
    refine meets_bind (meets_checkArity hm paren _ _) fun β₁ _ _ m₁ m₁' _ hm₁ hsame => ?_
    subst hsame
    refine meets_bind (meets_newObject hm₁ hc) fun β₂ this this' m₂ m₂' hg₂ hm₂ hthis => ?_
    have hinit := hc.method FunctionDecl.initName
    revert hinit
    cases c.method? FunctionDecl.initName <;> cases c'.method? FunctionDecl.initName <;> intro hinit <;> cases hinit
    · exact meets_pure hm₂ hthis
    · next hmethod =>
      refine meets_bind (meets_bindThis hm₂ (hmethod.mono hg₂) hthis) fun β₃ b b' m₃ m₃' hg₃ hm₃ hbound => ?_
      have has := forall₂_bridged_mono ha (hg₂.trans hg₃)
      refine meets_bind (ih.invoke hm₃ hbound has) fun β₄ _ _ m₄ m₄' hg₄ hm₄ _ => ?_
      exact meets_pure hm₄ (hthis.mono (hg₃.trans hg₄))
  | _ =>
    simp only [Exec.call]
    exact meets_fail hm paren _

theorem meets_invoke (ih : Crosses σ σ' p n k) {c c' : Closure} {as as' : List Value} (hm : m.Bridged σ σ' β m')
    (hc : c.BridgedUnder σ σ' β id c') (ha : List.Forall₂ (Value.Bridged σ σ' β) as as') :
    (Exec.invoke (n + 1) σ c as m).Meets σ σ' p β (Value.Bridged σ σ') (Exec.invoke (k + 1) σ' c' as' m') := by
  simp only [Exec.invoke]
  refine meets_bind (meets_callFrame hm hc ha) fun β₁ f f' m₁ m₁' hg₁ hm₁ hq => ?_
  obtain ⟨δ, hties, hbody⟩ := hq
  refine meets_bind (ih.execAll hm₁ hties hbody) fun β₂ flow flow' m₂ m₂' hg₂ hm₂ hflow => ?_
  exact meets_callResult hm₂ (hc.mono (hg₁.trans hg₂)) hflow

/-! ## statements -/

theorem meets_exec (ih : Crosses σ σ' p n k) {s s' : Stmt} (hm : m.Bridged σ σ' β m') (ht : β.Ties level δ o e)
    (hs : s.Shifted σ.distance? σ'.distance? level δ s') :
    (Exec.exec (n + 1) σ o s m).Meets σ σ' p β (Flow.Bridged σ σ' s.continues) (Exec.exec (k + 1) σ' e s' m') := by
  have hloop : ∀ {c b b' i i'}, Stmt.Shifted σ.distance? σ'.distance? level δ (.loop c b i) (.loop c b' i') →
      (Exec.exec (n + 1) σ o (.loop c b i) m).Meets σ σ' p β (Flow.Bridged σ σ' false)
        (Exec.exec (k + 1) σ' e (.loop c b' i') m') := by
    intro c b b' i i' hl
    simp only [Exec.exec]
    exact ih.loop hm ht hl
  cases hs with
  | expr hx =>
    simp only [Exec.exec]
    refine meets_bind (ih.eval hm ht hx) fun β₁ a a' m₁ m₁' _ hm₁ _ => ?_
    exact meets_pure hm₁ .normal
  | print hx =>
    simp only [Exec.exec]
    refine meets_bind (ih.eval hm ht hx) fun β₁ a a' m₁ m₁' _ hm₁ ha => ?_
    refine meets_bind (meets_print hm₁ _ ha) fun β₂ _ _ m₂ m₂' _ hm₂ _ => ?_
    exact meets_pure hm₂ .normal
  | @varDecl _ name x hx =>
    cases x with
    | none =>
      simp only [Exec.exec]
      refine meets_bind (meets_define hm ht name.lexeme .nil) fun β₁ _ _ m₁ m₁' _ hm₁ _ => ?_
      exact meets_pure hm₁ .normal
    | some x =>
      simp only [Exec.exec]
      refine meets_bind (ih.eval hm ht (hx x rfl)) fun β₁ a a' m₁ m₁' hg₁ hm₁ ha => ?_
      refine meets_bind (meets_define hm₁ (ht.mono hg₁) name.lexeme ha) fun β₂ _ _ m₂ m₂' _ hm₂ _ => ?_
      exact meets_pure hm₂ .normal
  | block hbody =>
    simp only [Exec.exec]
    refine meets_bind (meets_newFrame hm ht .nil) fun β₁ f f' m₁ m₁' _ hm₁ hinner => ?_
    exact ih.execAll hm₁ hinner hbody
  | ifThen hc hthen =>
    simp only [Exec.exec]
    refine meets_bind (ih.eval hm ht hc) fun β₁ a a' m₁ m₁' hg₁ hm₁ ha => ?_
    rw [Value.Matched.truthy ha]
    split
    · exact ih.exec hm₁ (ht.mono hg₁) hthen
    · exact meets_pure hm₁ .normal
  | ifElse hc hthen helse =>
    simp only [Exec.exec]
    refine meets_bind (ih.eval hm ht hc) fun β₁ a a' m₁ m₁' hg₁ hm₁ ha => ?_
    rw [Value.Matched.truthy ha]
    split
    · refine meets_weaken (ih.exec hm₁ (ht.mono hg₁) hthen) fun _ _ _ hflow => hflow.weaken fun hb => ?_
      exact Bool.or_eq_true_iff.2 (.inl hb)
    · refine meets_weaken (ih.exec hm₁ (ht.mono hg₁) helse) fun _ _ _ hflow => hflow.weaken fun hb => ?_
      exact Bool.or_eq_true_iff.2 (.inr hb)
  | loop hc hb hi => exact hloop (.loop hc hb hi)
  | replaced hn hc hb hi => exact hloop (.replaced hn hc hb hi)
  | @funDecl _ d d' hd =>
    simp only [Exec.exec]
    refine meets_bind (meets_newTag hm) fun β₁ t t' m₁ m₁' _ hm₁ hq => ?_
    obtain ⟨rfl, rfl⟩ := hq
    have hclosure : Closure.BridgedUnder σ σ' β₁ id ⟨d, o, false⟩ ⟨d', e, false⟩ :=
      ⟨ht.lt_size, (ht.own rfl).symm, rfl, by rw [ht.shift]; exact hd⟩
    rw [hd.name]
    refine meets_bind (meets_define hm₁ ht _ (.function hclosure)) fun β₂ _ _ m₂ m₂' _ hm₂ _ => ?_
    exact meets_pure hm₂ .normal
  | @returnFrom _ _ _ x hx =>
    cases x with
    | none =>
      simp only [Exec.exec]
      exact meets_pure hm (.returned .nil)
    | some x =>
      simp only [Exec.exec]
      refine meets_bind (ih.eval hm ht (hx x rfl)) fun β₁ a a' m₁ m₁' _ hm₁ ha => ?_
      exact meets_pure hm₁ (.returned ha)
  | @classDecl _ name x ms ms' hx hms =>
    cases x with
    | none =>
      simp only [Exec.exec]
      refine meets_bind (meets_makeClass hm ht name .none hms) fun β₁ _ _ m₁ m₁' _ hm₁ _ => ?_
      exact meets_pure hm₁ .normal
    | some x =>
      simp only [Exec.exec]
      refine meets_bind (ih.eval hm ht (hx x rfl)) fun β₁ a a' m₁ m₁' hg₁ hm₁ ha => ?_
      refine meets_bind (meets_asSuperclass hm₁ name x ha) fun β₂ c c' m₂ m₂' hg₂ hm₂ hc => ?_
      have ht₂ := ht.mono (hg₁.trans hg₂)
      refine meets_bind (meets_makeClass hm₂ ht₂ name (.some hc) hms) fun β₃ _ _ m₃ m₃' _ hm₃ _ => ?_
      exact meets_pure hm₃ .normal
  | breakLoop =>
    simp only [Exec.exec]
    exact meets_pure hm .broken
  | continueLoop =>
    simp only [Exec.exec]
    exact meets_pure hm (.continued rfl)

theorem meets_execAll (ih : Crosses σ σ' p n k) {body body' : List Stmt} (hm : m.Bridged σ σ' β m')
    (ht : β.Ties true δ o e) (hs : Stmt.ShiftedAll σ.distance? σ'.distance? δ body body') :
    (Exec.execAll (n + 1) σ o body m).Meets σ σ' p β (Flow.Bridged σ σ' (Stmt.continuesAny body))
      (Exec.execAll (k + 1) σ' e body' m') := by
  cases hs with
  | nil =>
    simp only [Exec.execAll]
    exact meets_pure hm .normal
  | cons hs hrest =>
    simp only [Exec.execAll]
    refine meets_bind (ih.exec hm ht hs) fun β₁ flow flow' m₁ m₁' hg₁ hm₁ hflow => ?_
    cases hflow with
    | normal =>
      refine meets_weaken (ih.execAll hm₁ (ht.mono hg₁) hrest) fun _ _ _ hflow => hflow.weaken fun hb => ?_
      exact Bool.or_eq_true_iff.2 (.inr hb)
    | returned ha => exact meets_pure hm₁ (.returned ha)
    | broken => exact meets_pure hm₁ .broken
    | continued hb => exact meets_pure hm₁ (.continued (Bool.or_eq_true_iff.2 (.inl hb)))

/-! ## loops -/

/-- One round: the first run goes on behind the body with the increment, the second has it in the block. -/
theorem meets_round (ih : ∀ k, p.Allows 0 n k → Crosses σ σ' p n k) (hp : p.Allows 4 n k) {b b' : Stmt} {x : Expr}
    {next next' : Exec Flow} (hm : m.Bridged σ σ' β m') (ht : β.Ties level δ o e) (hn : b.continues = false)
    (hb : b.Shifted σ.distance? σ'.distance? false δ.skip b') (hx : x.Shifted σ.distance? σ'.distance? δ.skip)
    (hnext : ∀ β' m₁ m₁', β.Grows β' → m₁.Bridged σ σ' β' m₁' →
      (next m₁).Meets σ σ' p β' (Flow.Bridged σ σ' false) (next' m₁')) :
    ((Exec.exec n σ o b >>= behind (Exec.eval n σ o x >>= fun _ => next)) m).Meets σ σ' p β (Flow.Bridged σ σ' false)
      ((Exec.exec k σ' e (.block [b', .expr x]) >>= behind next') m') := by
  cases k with
  | zero => exact meets_late (hp.second_of_lt (by omega)) (by simp only [Exec.exec])
  | succ k =>
    -- the frame of the block
    obtain ⟨f, m₁', β₁, hframe, hg₁, hm₁, hties⟩ := insertFrame hm ht
    simp only [Exec.exec, bind_assoc]
    rw [bind_of_done hframe]
    refine meets_from hg₁ ?_
    replace hp := hp.step
    cases k with
    | zero => exact meets_late (hp.second_of_lt (by omega)) (by simp only [Exec.execAll])
    | succ k =>
      -- the body
      replace hp := hp.step
      simp only [Exec.execAll, bind_assoc]
      refine meets_bind ((ih k hp.weaken).exec hm₁ hties hb) fun β₂ flow flow' m₂ m₂' hg₂ hm₂ hflow => ?_
      cases hflow with
      | returned ha => exact meets_pure hm₂ (.returned ha)
      | broken => exact meets_pure hm₂ .normal
      | continued hc =>
        rw [hn] at hc
        cases hc
      | normal =>
        cases k with
        | zero => exact meets_late (hp.second_of_lt (by omega)) (by simp only [Exec.execAll])
        | succ k =>
          replace hp := hp.step
          simp only [Exec.execAll, bind_assoc]
          cases k with
          | zero => exact meets_late (hp.second_of_lt (by omega)) (by simp only [Exec.exec])
          | succ k =>
            -- the increment
            simp only [Exec.exec, Exec.execAll, bind_assoc, pure_bind, behind]
            refine meets_bind ((ih k hp.step).eval hm₂ (hties.mono hg₂) hx) fun β₃ _ _ m₃ m₃' hg₃ hm₃ _ => ?_
            exact hnext β₃ m₃ m₃' (hg₁.trans (hg₂.trans hg₃)) hm₃

theorem meets_loop (ih : ∀ k, p.Allows 0 n k → Crosses σ σ' p n k) (hp : p.Allows 4 n k) {c : Expr} {b b' : Stmt}
    {i i' : Option Expr} (hm : m.Bridged σ σ' β m') (ht : β.Ties level δ o e)
    (hs : Stmt.Shifted σ.distance? σ'.distance? level δ (.loop c b i) (.loop c b' i')) :
    (Exec.loop (n + 1) σ o c b i m).Meets σ σ' p β (Flow.Bridged σ σ' false)
      (Exec.loop (k + 1) σ' e c b' i' m') := by
  have hk := ih k hp.weaken
  -- another run of the whole loop
  have hagain : ∀ β' m₁ m₁', β.Grows β' → m₁.Bridged σ σ' β' m₁' →
      (Exec.loop n σ o c b i m₁).Meets σ σ' p β' (Flow.Bridged σ σ' false) (Exec.loop k σ' e c b' i' m₁') :=
    fun β' m₁ m₁' hg hm₁ => hk.loop hm₁ (ht.mono hg) hs
  rw [loop_eq_behind, loop_eq_behind]
  have hc : c.Shifted σ.distance? σ'.distance? δ := by
    cases hs with
    | loop hc _ _ => exact hc
    | replaced _ hc _ _ => exact hc
  refine meets_bind (hk.eval hm ht hc) fun β₁ a a' m₁ m₁' hg₁ hm₁ ha => ?_
  rw [Value.Matched.truthy ha]
  split
  · have ht₁ := ht.mono hg₁
    cases hs with
    | replaced hn _ hb hx =>
      exact meets_round ih hp hm₁ ht₁ hn hb hx fun β' m₂ m₂' hg hm₂ => hagain β' m₂ m₂' (hg₁.trans hg) hm₂
    | loop _ hb hi =>
      refine meets_bind (hk.exec hm₁ ht₁ hb) fun β₂ flow flow' m₂ m₂' hg₂ hm₂ hflow => ?_
      have hround : (again n σ o c b i m₂).Meets σ σ' p β₂ (Flow.Bridged σ σ' false) (again k σ' e c b' i m₂') := by
        cases i with
        | none => exact hagain β₂ m₂ m₂' (hg₁.trans hg₂) hm₂
        | some x =>
          refine meets_bind (hk.eval hm₂ (ht₁.mono hg₂) (hi x rfl)) fun β₃ _ _ m₃ m₃' hg₃ hm₃ _ => ?_
          exact hagain β₃ m₃ m₃' (hg₁.trans (hg₂.trans hg₃)) hm₃
      cases hflow with
      | normal => exact hround
      | returned ha => exact meets_pure hm₂ (.returned ha)
      | broken => exact meets_pure hm₂ .normal
      | continued _ => exact hround
  · exact meets_pure hm₁ .normal

end Crosses

/-! ## all depths -/

section

variable {σ σ' : Setting} {p : Pace} {n k : Nat} {β : Bridge} {m m' : Machine}

/-- Shifted code meets at all depths that the pace allows. -/
theorem crosses (hh : σ'.hosts = σ.hosts) (hs : ∀ f ∈ σ.hosts, Host.Shallow f) (hp : p.Allows 0 n k) :
    Crosses σ σ' p n k := by
  induction n generalizing k with
  | zero =>
    cases p with
    | first =>
      constructor <;> intros <;>
        simp only [Exec.eval, Exec.evalAll, Exec.call, Exec.invoke, Exec.exec, Exec.execAll, Exec.loop] <;>
        exact .early rfl
    | second =>
      obtain rfl : k = 0 := Nat.le_zero.1 hp
      constructor <;> intros <;>
        simp only [Exec.eval, Exec.evalAll, Exec.call, Exec.invoke, Exec.exec, Exec.execAll, Exec.loop] <;>
        exact .late rfl
  | succ n ih =>
    cases k with
    | zero =>
      have hsecond := hp.second_of_lt (by omega)
      constructor <;> intros <;>
        simp only [Exec.eval, Exec.evalAll, Exec.call, Exec.invoke, Exec.exec, Exec.execAll, Exec.loop] <;>
        exact .late hsecond
    | succ k =>
      have hk := ih hp.both.weaken
      exact ⟨hk.meets_eval, hk.meets_evalAll, hk.meets_call hh hs, hk.meets_invoke, hk.meets_exec, hk.meets_execAll,
        Crosses.meets_loop (fun _ => ih) hp.both⟩

/-- Shifted programs meet. -/
theorem meets_program (hh : σ'.hosts = σ.hosts) (hs : ∀ f ∈ σ.hosts, Host.Shallow f) (hp : p.Allows 0 n k)
    {δ : Shift} {body body' : List Stmt} (hm : m.Bridged σ σ' β m')
    (ht : β.Ties true δ Heap.globals Heap.globals)
    (hb : Stmt.ShiftedAll σ.distance? σ'.distance? δ body body') :
    (Exec.program n σ body m).Meets σ σ' p β (fun _ _ _ => True) (Exec.program k σ' body' m') := by
  induction body generalizing body' β m m' with
  | nil =>
    cases hb
    exact Exec.meets_pure hm trivial
  | cons s rest ih =>
    cases hb with
    | cons hstmt hrest =>
      simp only [Exec.program]
      refine Exec.meets_bind ((crosses hh hs hp).exec hm ht hstmt) fun β₁ flow flow' m₁ m₁' hg₁ hm₁ _ => ?_
      exact ih hm₁ (ht.mono hg₁) hrest

theorem meets_program_flush (hh : σ'.hosts = σ.hosts) (hs : ∀ f ∈ σ.hosts, Host.Shallow f) (hp : p.Allows 0 n k)
    {δ : Shift} {body body' : List Stmt} (hm : m.Bridged σ σ' β m')
    (ht : β.Ties true δ Heap.globals Heap.globals)
    (hb : Stmt.ShiftedAll σ.distance? σ'.distance? δ body body') :
    ((do Exec.program n σ body; Exec.flush : Exec Unit) m).Meets σ σ' p β (fun _ _ _ => True)
      ((do Exec.program k σ' body'; Exec.flush : Exec Unit) m') :=
  Exec.meets_bind (meets_program hh hs hp hm ht hb) fun _ _ _ _ _ _ hm' _ => Exec.meets_flush hm'

end

end ScriptLang
