import ScriptLang.Eval
import ScriptLang.Proofs.Scoping.Lawful

/-!
# Control stays inside its construct

How a statement may end depends on where it stands: with `break` or `continue` only inside of a loop, with `return` only
inside of a function, and in an initializer only with a `return` that has no value.  `Confined` says that lawful
statements keep to this at one depth, and `confined` proves it for every depth; nothing has to be known about the
machine, because calls do not pass on how the statements of a body ended.
-/

namespace ScriptLang

/-- A statement at a place may end so. -/
def Place.Allows (place : Place) : Flow → Prop
  | .normal => True
  | .returned v => place.function ≠ .none ∧ (place.function = .initializer → v = .nil)
  | .broken => place.inLoop = true
  | .continued => place.inLoop = true

namespace Exec

variable {α β : Type} {m m' : Machine}

/-- A sequence ends with a value if both parts do. -/
theorem bind_done {x : Exec α} {f : α → Exec β} {b : β} (h : (x >>= f) m = .done b m') :
    ∃ a m₁, x m = .done a m₁ ∧ f a m₁ = .done b m' := by
  have h' : andThen x f m = .done b m' := h
  unfold andThen at h'
  cases hx : x m with
  | done a m₁ =>
    rw [hx] at h'
    exact ⟨a, m₁, rfl, h'⟩
  | failed fault m₁ =>
    rw [hx] at h'
    cases h'
  | outOfFuel =>
    rw [hx] at h'
    cases h'

theorem bind_of_done {x : Exec α} {f : α → Exec β} {a : α} (h : x m = .done a m') : (x >>= f) m = f a m' := by
  show andThen x f m = f a m'
  unfold andThen
  rw [h]

theorem eq_of_pure_done {a b : α} (h : (pure a : Exec α) m = .done b m') : b = a := by
  cases h
  rfl

/-- What a loop does behind a round that goes on. -/
def again (n : Nat) (σ : Setting) (e : FrameRef) (c : Expr) (b : Stmt) (i : Option Expr) : Exec Flow :=
  match i with
  | some x => do
    let _ ← eval n σ e x
    loop n σ e c b i
  | none => loop n σ e c b i

/-- A loop by its rounds. -/
theorem loop_succ (n : Nat) (σ : Setting) (e : FrameRef) (c : Expr) (b : Stmt) (i : Option Expr) :
    loop (n + 1) σ e c b i = (do
      let v ← eval n σ e c
      if v.truthy then
        match ← exec n σ e b with
        | .broken => pure .normal
        | .returned w => pure (.returned w)
        | _ => again n σ e c b i
      else pure .normal) := by
  cases i with
  | none => exact loop.eq_def (n + 1) σ e c b none
  | some x => exact loop.eq_def (n + 1) σ e c b (some x)

end Exec

/-- Lawful statements end as their places allow at one depth. -/
structure Confined (σ : Setting) (n : Nat) : Prop where
  exec : ∀ {T O place k e s m flow m'}, Stmt.Lawful T O place k s → Exec.exec n σ e s m = .done flow m' →
    place.Allows flow
  execAll : ∀ {T O place k e body m flow m'}, Stmt.LawfulAll T O place k body →
    Exec.execAll n σ e body m = .done flow m' → place.Allows flow
  loop : ∀ {T O place k e c b i m flow m'}, Stmt.Lawful T O place k (.loop c b i) →
    Exec.loop n σ e c b i m = .done flow m' → place.Allows flow ∧ flow ≠ .broken ∧ flow ≠ .continued

namespace Confined

open Exec

variable {σ : Setting} {n : Nat} {T : Label → Option Nat → Prop} {O : Occurrence → Prop} {place : Place} {k : Nat}
  {e : FrameRef} {m m' : Machine} {flow : Flow}

theorem allows_exec (ih : Confined σ n) {s : Stmt} (hs : s.Lawful T O place k)
    (h : Exec.exec (n + 1) σ e s m = .done flow m') : place.Allows flow := by
  cases s with
  | expr x =>
    simp only [Exec.exec] at h
    obtain ⟨v, m₁, -, h⟩ := bind_done h
    exact eq_of_pure_done h ▸ trivial
  | print keyword x =>
    simp only [Exec.exec] at h
    obtain ⟨v, m₁, -, h⟩ := bind_done h
    obtain ⟨u, m₂, -, h⟩ := bind_done h
    exact eq_of_pure_done h ▸ trivial
  | varDecl name x =>
    cases x with
    | none =>
      simp only [Exec.exec] at h
      obtain ⟨u, m₁, -, h⟩ := bind_done h
      exact eq_of_pure_done h ▸ trivial
    | some x =>
      simp only [Exec.exec] at h
      obtain ⟨v, m₁, -, h⟩ := bind_done h
      obtain ⟨u, m₂, -, h⟩ := bind_done h
      exact eq_of_pure_done h ▸ trivial
  | block body =>
    simp only [Exec.exec] at h
    obtain ⟨inner, m₁, -, h⟩ := bind_done h
    exact ih.execAll hs h
  | ifThen c t =>
    simp only [Exec.exec] at h
    obtain ⟨v, m₁, -, h⟩ := bind_done h
    split at h
    · exact ih.exec hs.2 h
    · exact eq_of_pure_done h ▸ trivial
  | ifElse c t f =>
    simp only [Exec.exec] at h
    obtain ⟨v, m₁, -, h⟩ := bind_done h
    split at h
    · exact ih.exec hs.2.1 h
    · exact ih.exec hs.2.2 h
  | loop c b i =>
    simp only [Exec.exec] at h
    exact (ih.loop hs h).1
  | funDecl d =>
    simp only [Exec.exec] at h
    obtain ⟨t, m₁, -, h⟩ := bind_done h
    obtain ⟨u, m₂, -, h⟩ := bind_done h
    exact eq_of_pure_done h ▸ trivial
  | returnFrom keyword x =>
    obtain ⟨hplace, hvalue, -⟩ := hs
    cases x with
    | none =>
      simp only [Exec.exec] at h
      rw [eq_of_pure_done h]
      exact ⟨hplace, fun _ => rfl⟩
    | some x =>
      simp only [Exec.exec] at h
      obtain ⟨v, m₁, -, h⟩ := bind_done h
      rw [eq_of_pure_done h]
      refine ⟨hplace, fun hi => ?_⟩
      cases hvalue hi
  | classDecl name s ms =>
    cases s with
    | none =>
      simp only [Exec.exec] at h
      obtain ⟨u, m₁, -, h⟩ := bind_done h
      exact eq_of_pure_done h ▸ trivial
    | some x =>
      simp only [Exec.exec] at h
      obtain ⟨v, m₁, -, h⟩ := bind_done h
      obtain ⟨parent, m₂, -, h⟩ := bind_done h
      obtain ⟨u, m₃, -, h⟩ := bind_done h
      exact eq_of_pure_done h ▸ trivial
  | breakLoop keyword =>
    simp only [Exec.exec] at h
    rw [eq_of_pure_done h]
    exact hs
  | continueLoop keyword =>
    simp only [Exec.exec] at h
    rw [eq_of_pure_done h]
    exact hs

theorem allows_execAll (ih : Confined σ n) {body : List Stmt} (hs : Stmt.LawfulAll T O place k body)
    (h : Exec.execAll (n + 1) σ e body m = .done flow m') : place.Allows flow := by
  cases body with
  | nil =>
    simp only [Exec.execAll] at h
    exact eq_of_pure_done h ▸ trivial
  | cons s rest =>
    simp only [Exec.execAll] at h
    obtain ⟨flow₁, m₁, hs₁, h⟩ := bind_done h
    have hallows := ih.exec hs.1 hs₁
    cases flow₁ with
    | normal => exact ih.execAll hs.2 h
    | returned v =>
      rw [eq_of_pure_done h]
      exact hallows
    | broken =>
      rw [eq_of_pure_done h]
      exact hallows
    | continued =>
      rw [eq_of_pure_done h]
      exact hallows

/-- A loop ends the signals that are meant for it and hands on a `return`. -/
theorem allows_loop (ih : Confined σ n) {c : Expr} {b : Stmt} {i : Option Expr}
    (hs : (Stmt.loop c b i).Lawful T O place k) (h : Exec.loop (n + 1) σ e c b i m = .done flow m') :
    place.Allows flow ∧ flow ≠ .broken ∧ flow ≠ .continued := by
  have hnormal : ∀ {a : Flow} {m₁ : Machine}, (pure .normal : Exec Flow) m₁ = .done a m' →
      place.Allows a ∧ a ≠ .broken ∧ a ≠ .continued := by
    intro a m₁ h
    rw [eq_of_pure_done h]
    exact ⟨trivial, by simp, by simp⟩
  have hagain : ∀ {m₁ : Machine}, again n σ e c b i m₁ = .done flow m' →
      place.Allows flow ∧ flow ≠ .broken ∧ flow ≠ .continued := by
    intro m₁ h
    cases i with
    | none => exact ih.loop hs h
    | some x =>
      obtain ⟨u, m₂, -, h⟩ := bind_done h
      exact ih.loop hs h
  rw [loop_succ] at h
  obtain ⟨v, m₁, -, h⟩ := bind_done h
  split at h
  · obtain ⟨flow₁, m₂, hb, h⟩ := bind_done h
    cases flow₁ with
    | normal => exact hagain h
    | returned w =>
      have hallows : Place.Allows { place with inLoop := true } (.returned w) := ih.exec hs.2.1 hb
      rw [eq_of_pure_done h]
      exact ⟨hallows, by simp, by simp⟩
    | broken => exact hnormal h
    | continued => exact hagain h
  · exact hnormal h

end Confined

/-- Lawful statements end as their places allow. -/
theorem confined (σ : Setting) (n : Nat) : Confined σ n := by
  induction n with
  | zero =>
    refine ⟨fun _ h => ?_, fun _ h => ?_, fun _ h => ?_⟩
    · simp only [Exec.exec] at h
      cases h
    · simp only [Exec.execAll] at h
      cases h
    · simp only [Exec.loop] at h
      cases h
  | succ n ih =>
    exact ⟨fun hs h => ih.allows_exec hs h, fun hs h => ih.allows_execAll hs h, fun hs h => ih.allows_loop hs h⟩

end ScriptLang
