import ScriptLang.Proofs.Running.Order

/-!
# Where objects and classes are made

* `Makes`, `Creates` — at a point a class statement makes a class; at a point an object or a class comes to be;
* `Value.Before` — the clocks of a machine stand past the identity of an object or a class;
* `Creates.unique` — in one run no two objects and no two classes that are made have the same identity.
-/

namespace ScriptLang

open Exec in
/-- At a point a class statement makes a class with these methods, closed over this frame. -/
inductive Makes (σ : Setting) : Point → Class → List FunctionDecl → FrameRef → Prop
  | plain {n e name ms m} : Makes σ ⟨n + 1, .exec e (.classDecl name none ms), m⟩
      (.mk m.heap.nextTag name.lexeme none (methodTable e ms)) ms e
  | derived {n e name x ms m parent m'} : eval n σ e x m = .done (.klass parent) m' →
      Makes σ ⟨n + 1, .exec e (.classDecl name (some x) ms), m⟩
        (.mk m'.heap.nextTag name.lexeme (some parent) (methodTable m'.heap.frames.size ms)) ms m'.heap.frames.size

/-- At a point an object or a class comes to be. -/
inductive Creates (σ : Setting) : Point → Value → Prop
  | object {n c vs paren m} : vs.length = c.arity →
      Creates σ ⟨n + 1, .call (.klass c) vs paren, m⟩ (.object m.heap.objects.size c)
  | klass {p c ms frame} : Makes σ p c ms frame → Creates σ p (.klass c)

/-- The clocks of a machine stand past the identity of an object or a class. -/
def Value.Before (m : Machine) : Value → Prop
  | .object o _ => o < m.heap.objects.size
  | .klass c => c.tag < m.heap.nextTag
  | _ => True

section

variable {σ : Setting} {p q q' : Point} {v v' : Value} {m m' : Machine}

theorem Value.Before.mono (h : v.Before m) (hm : m.Older m') : v.Before m' := by
  cases v with
  | object o c => exact Nat.lt_of_lt_of_le h hm.objects
  | klass c => exact Nat.lt_of_lt_of_le h hm.tags
  | _ => trivial

/-- Only the identity matters. -/
theorem Value.Before.congr (h : v.equals v' = true) : v.Before m ↔ v'.Before m := by
  cases v <;> cases v' <;> simp only [equals, decide_eq_true_eq, Bool.false_eq_true] at h <;>
    simp only [Value.Before, h]

/-! ## one point -/

namespace Creates

open Exec

/-- What comes to be was not there at the beginning. -/
theorem not_before (h : Creates σ p v) : ¬ v.Before p.machine := by
  cases h with
  | object hl => exact Nat.lt_irrefl _
  | klass h =>
    cases h with
    | plain => exact Nat.lt_irrefl _
    | derived hx => exact Nat.not_lt_of_le (older_of_eval hx).tags

/-- A class that is made takes the next tag. -/
theorem tag_of_makeClass {e : FrameRef} {name : Token} {parent : Option Class} {ms : List FunctionDecl}
    (h : (makeClass e name parent ms m).machine? = some m') : m.heap.nextTag < m'.heap.nextTag := by
  cases parent <;> cases h <;> exact Nat.lt_succ_self _

/-- It is there at the end. -/
theorem before_end (h : Creates σ p v) (hm : p.leaves? σ = some m) : v.Before m := by
  have P := ages_parts σ.hosts
  cases h with
  | @object n c vs paren m₀ hl =>
    simp only [Point.leaves?, call, checkArity, if_pos hl, pure_bind] at hm
    have hnew : newObject c m₀ = .done (.object m₀.heap.objects.size c) { m₀ with heap := m₀.heap.addObject } := rfl
    rw [bind_of_done hnew] at hm
    have hage : Machine.Older { m₀ with heap := m₀.heap.addObject } m := by
      refine (?_ : Ages _) _ _ hm
      split
      · exact P.bind (P.bindThis _ _) fun _ => P.bind ((ages_evaluation σ n).invoke _ _) fun _ => P.pure _
      · exact P.pure _
    have hsize := hage.objects
    simp only [Heap.addObject, Array.size_push] at hsize
    exact hsize
  | klass h =>
    cases h with
    | plain =>
      simp only [Point.leaves?, exec] at hm
      obtain ⟨m₁, hm₁, hage⟩ := older_of_bind (fun _ => P.pure _) hm
      exact Nat.lt_of_lt_of_le (tag_of_makeClass hm₁) hage.tags
    | derived hx =>
      simp only [Point.leaves?, exec, bind_of_done hx, asSuperclass, pure_bind] at hm
      obtain ⟨m₁, hm₁, hage⟩ := older_of_bind (fun _ => P.pure _) hm
      exact Nat.lt_of_lt_of_le (tag_of_makeClass hm₁) hage.tags

/-- What a task calls happens behind what the task creates, or is over before that. -/
theorem apart (h : Creates σ p v) (hc : Calls σ p q) :
    v.Before q.machine ∨ ∃ m, q.leaves? σ = some m ∧ ¬ v.Before m := by
  cases h with
  | object hl =>
    cases hc with
    | initializer _ ho _ hb =>
      cases ho
      cases hb
      left
      show _ < (Array.push _ _).size
      rw [Array.size_push]
      exact Nat.lt_succ_self _
  | klass h =>
    cases h with
    | plain => cases hc
    | derived hx =>
      cases hc with
      | superclass => exact .inr ⟨_, machine?_of_done hx, Nat.lt_irrefl _⟩

theorem eq_of_point (h : Creates σ p v) (h' : Creates σ p v') : v = v' := by
  cases h with
  | object => cases h' with
    | object => rfl
    | klass h' => cases h'
  | klass h =>
    cases h with
    | plain =>
      cases h' with
      | klass h' => cases h'; rfl
    | derived hx =>
      cases h' with
      | klass h' =>
        cases h' with
        | derived hx' =>
          cases hx.symm.trans hx'
          rfl

/-! ## all points of a run -/

theorem not_before_of_visits (h : Creates σ q v) (hv : Visits σ p q) : ¬ v.Before p.machine :=
  fun hb => h.not_before (hb.mono hv.within.begins)

theorem before_end_of_visits (h : Creates σ q v) (hv : Visits σ p q) (hm : p.leaves? σ = some m) : v.Before m := by
  obtain ⟨m', hm', hage⟩ := hv.within.ends m hm
  exact (h.before_end hm').mono hage

/-- What a task creates is nothing that one of its parts creates. -/
theorem not_equals_of_call {r : Point} (h : Creates σ p v) (hc : Calls σ p q) (hv : Visits σ q r)
    (h' : Creates σ r v') : ¬ v.equals v' = true := by
  intro he
  rcases h.apart hc with hb | ⟨m, hm, hb⟩
  · exact h'.not_before_of_visits hv ((Value.Before.congr he).1 hb)
  · exact hb ((Value.Before.congr he).2 (h'.before_end_of_visits hv hm))

/-- Nothing is created twice in what comes one after the other. -/
theorem not_equals_of_over {r r' : Point} (ho : q.Over σ q') (hv : Visits σ q r) (hv' : Visits σ q' r')
    (h : Creates σ r v) (h' : Creates σ r' v') : ¬ v.equals v' = true := by
  intro he
  obtain ⟨m, hm, hage⟩ := ho
  exact h'.not_before_of_visits hv' ((Value.Before.congr he).1 ((h.before_end_of_visits hv hm).mono hage))

theorem equals_symm (h : v.equals v' = true) (hc : Creates σ p v) : v'.equals v = true := by
  cases hc <;> cases v' <;> simp only [Value.equals, decide_eq_true_eq, Bool.false_eq_true] at h ⊢ <;> exact h.symm

/-- In one run, what is created has an identity of its own. -/
theorem unique (hq : Visits σ p q) (hq' : Visits σ p q') (h : Creates σ q v) (h' : Creates σ q' v')
    (he : v.equals v' = true) : v = v' := by
  induction hq using Relation.ReflTransGen.head_induction_on with
  | refl =>
    rcases hq'.cases_head with rfl | ⟨a, hc, ha⟩
    · exact h.eq_of_point h'
    · exact absurd he (h.not_equals_of_call hc ha h')
  | @head p b hb hbq ih =>
    rcases hq'.cases_head with rfl | ⟨a, hc, ha⟩
    · exact absurd (equals_symm he h) (h'.not_equals_of_call hb hbq h)
    · rcases hb.inOrder hc with rfl | ho | ho
      · exact ih ha
      · exact absurd he (not_equals_of_over ho hbq ha h h')
      · exact absurd (equals_symm he h) (not_equals_of_over ho ha hbq h' h)

end Creates

end

end ScriptLang
