import ScriptLang.Proofs.Running.Carrying
import ScriptLang.Proofs.Running.Telling

/-!
# The machines that a run goes through

* `Point.Passes σ p m` — the task at `p` finds the machine `m`, or leaves it;
* `Point.Passes.older_or_older` — of two machines that one run passes, one is an older state of the other;
* `Point.Passes.exists_scene`, `Point.Passes.carries` — what holds at every point of a run also holds of what its tasks
  leave.
-/

namespace ScriptLang

/-- A machine that the task at a point finds, or leaves. -/
inductive Point.Passes (σ : Setting) (p : Point) : Machine → Prop
  | found : Passes σ p p.machine
  | left {m : Machine} : p.leaves? σ = some m → Passes σ p m

section

variable {σ : Setting} {p q q' : Point} {m m' : Machine}

open Exec

/-! ## the order of machines -/

/-- No task turns the clocks back. -/
theorem Point.older_of_leaves (h : p.leaves? σ = some m) : p.machine.Older m := by
  obtain ⟨n, task, m₀⟩ := p
  have E := ages_evaluation σ n
  cases task with
  | eval e x => exact E.eval e x _ _ h
  | evalAll e xs => exact E.evalAll e xs _ _ h
  | call f vs paren => exact E.call f vs paren _ _ h
  | invoke c vs => exact E.invoke c vs _ _ h
  | exec e s => exact E.exec e s _ _ h
  | execAll e body => exact E.execAll e body _ _ h
  | loop e c b i => exact E.loop e c b i _ _ h
  | program body => exact (ages_parts σ.hosts).program n body _ _ h

namespace Point.Passes

theorem behind_start (h : p.Passes σ m) : p.machine.Older m := by
  cases h with
  | found => exact .refl _
  | left h => exact older_of_leaves h

theorem before_end (h : p.Passes σ m) (hp : p.leaves? σ = some m') : m.Older m' := by
  cases h with
  | found => exact older_of_leaves hp
  | left h =>
    obtain rfl := Option.some.inj (h.symm.trans hp)
    exact .refl m

/-- The same, of a task that runs within the one at a point. -/
theorem behind_start_of_visits (h : q.Passes σ m) (hv : Visits σ p q) : p.machine.Older m :=
  hv.within.begins.trans h.behind_start

theorem before_end_of_visits (h : q.Passes σ m) (hv : Visits σ p q) (hp : p.leaves? σ = some m') : m.Older m' := by
  obtain ⟨m₁, hm₁, hage⟩ := hv.within.ends m' hp
  exact (h.before_end hm₁).trans hage

/-- A task finds its machine before what it calls begins, and leaves one when that is over. -/
theorem older_or_older_of_calls (h : p.Passes σ m) (hc : Calls σ p q) (hv : Visits σ q q') (h' : q'.Passes σ m') :
    m.Older m' ∨ m'.Older m := by
  have hv' : Visits σ p q' := .head hc hv
  cases h with
  | found => exact .inl (h'.behind_start_of_visits hv')
  | left h => exact .inr (h'.before_end_of_visits hv' h)

/-- What one task passes is older than what a later one passes. -/
theorem older_of_over {r r' : Point} (ho : q.Over σ q') (hv : Visits σ q r) (hv' : Visits σ q' r') (h : r.Passes σ m)
    (h' : r'.Passes σ m') : m.Older m' := by
  obtain ⟨m₁, hm₁, hage⟩ := ho
  exact ((h.before_end_of_visits hv hm₁).trans hage).trans (h'.behind_start_of_visits hv')

/-- Of two machines that one run passes, one is an older state of the other. -/
theorem older_or_older (hq : Visits σ p q) (hq' : Visits σ p q') (h : q.Passes σ m) (h' : q'.Passes σ m') :
    m.Older m' ∨ m'.Older m := by
  -- along the first path, as long as the second one goes the same way
  induction hq using Relation.ReflTransGen.head_induction_on with
  | refl =>
    rcases hq'.cases_head with rfl | ⟨a, hc, ha⟩
    · cases h with
      | found => exact .inl h'.behind_start
      | left h => exact .inr (h'.before_end h)
    · exact h.older_or_older_of_calls hc ha h'
  | @head p b hb hbq ih =>
    rcases hq'.cases_head with rfl | ⟨a, hc, ha⟩
    · exact (h'.older_or_older_of_calls hb hbq h).symm
    · rcases hb.inOrder hc with rfl | ho | ho
      · exact ih ha
      · exact .inl (older_of_over ho hbq ha h h')
      · exact .inr (older_of_over ho ha hbq h' h)

end Point.Passes

/-! ## what holds of the machines -/

variable {L : Lore} {V : Value → Prop}

theorem Ending.Tells.exists_scene {α : Type} {w : Scene} {Q : Scene → α → Prop} {x : Ending α} (h : x.Tells L w Q)
    (hx : x.machine? = some m) : ∃ w' : Scene, w'.At L m := by
  cases x with
  | done a m₁ =>
    cases hx
    obtain ⟨w', hw', -⟩ := h
    exact ⟨w', hw'⟩
  | failed fault m₁ =>
    cases hx
    exact h
  | outOfFuel => cases hx

theorem Ending.Carries.heap {α : Type} {Q : α → Prop} {x : Ending α} (h : x.Carries V Q)
    (hx : x.machine? = some m) : m.heap.Carries V := by
  cases x with
  | done a m₁ =>
    cases hx
    exact h.1
  | failed fault m₁ =>
    cases hx
    exact h
  | outOfFuel => cases hx

/-- The machines of a task have sound scenes. -/
theorem Point.Passes.exists_scene (h : p.Passes σ m) (hσ : σ.Serves L) (hc : L.Covers σ p) (hp : p.Placed L) :
    ∃ w : Scene, w.At L m := by
  obtain ⟨w, hw, hr⟩ := hp
  cases h with
  | found => exact ⟨w, hw⟩
  | left h =>
    obtain ⟨n, task, m₀⟩ := p
    have T := telling hσ n
    cases task with
    | eval e x => exact (T.eval hw hr hc).exists_scene h
    | evalAll e xs => exact (T.evalAll hw hr hc).exists_scene h
    | call f vs paren => exact (T.call hw hr hc).exists_scene h
    | invoke c vs => exact (T.invoke hw hr hc).exists_scene h
    | exec e s => exact (T.exec hw hr hc).exists_scene h
    | execAll e body => exact (T.execAll hw hr hc).exists_scene h
    | loop e c b i => exact (T.loop hw hr hc).exists_scene h
    | program body => exact (tells_program hσ hw hr hc).exists_scene h

/-- All values in the machines of a task have a property. -/
theorem Point.Passes.carries (h : p.Passes σ m) (hs : σ.Supplies V p) (hp : p.Carries V) : m.heap.Carries V := by
  obtain ⟨hm, ha⟩ := hp
  cases h with
  | found => exact hm
  | left h =>
    obtain ⟨n, task, m₀⟩ := p
    have C : Carrying V σ n := carrying n
    cases task with
    | eval e x => exact (C.eval hm hs).heap h
    | evalAll e xs => exact (C.evalAll hm hs).heap h
    | call f vs paren =>
      obtain ⟨hf, hvs⟩ := List.forall_mem_cons.1 ha
      exact (C.call hm hf hvs hs).heap h
    | invoke c vs => exact (C.invoke hm ha hs).heap h
    | exec e s => exact (C.exec hm hs).heap h
    | execAll e body => exact (C.execAll hm hs).heap h
    | loop e c b i => exact (C.loop hm hs).heap h
    | program body => exact (carries_program hm hs).heap h

end

end ScriptLang
