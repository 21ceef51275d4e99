import ScriptLang.Proofs.Running.Cut
import ScriptLang.Session

/-!
# A limit on the output

* `Session.limited limit` — the same session with a sink that takes so many bytes in all;
* `Session.limit_cuts_output` — a run in it does the same as without the limit as long as its output fits.  Otherwise it
  keeps the bytes that fit and ends with the fault of the sink, and with nothing else.

The second holds whatever runs at that moment: no construct of the language catches the fault or writes behind it.
-/

namespace ScriptLang

namespace Session

/-- The session with a limit on its output. -/
def limited (limit : Nat) (s : Session) : Session := { s with machine := s.machine.limited limit }

variable {s : Session} {source : String} {program : List Stmt} {fuel limit : Nat}

/-- How a run in a session ends, and how it ends with a limit on the output. -/
structure CutsAt (limit : Nat) (a b : Answer) : Prop where
  same : a.session.output.size ≤ limit → b = { a with session := a.session.limited limit }
  full : limit < a.session.output.size → b.session.output = a.session.output.extract 0 limit ∧
    b.outcome = .runtimeError ∧ b.diagnostics = [.output .limitReached]

/-- What the session makes of how a program ends. -/
def answer (s : Session) : Ending Unit → Answer
  | .done _ machine => ⟨.completed, [], { s with machine }⟩
  | .failed fault machine => ⟨.runtimeError, [fault.toDiagnostic], { s with machine, hadRuntimeFault := true }⟩
  | .outOfFuel => ⟨.unfinished, [], s⟩

theorem execute_eq_answer (s : Session) (fuel : Nat) (program : List Stmt) :
    s.execute fuel program = s.answer ((do Exec.program fuel s.setting program; Exec.flush : Exec Unit) s.machine) := by
  unfold execute answer
  rfl

/-- A program that is executed. -/
theorem cutsAt_execute (hopen : s.machine.console.sink.Open) (hroom : s.output.size ≤ limit)
    (hends : (s.execute fuel program).outcome ≠ .unfinished) :
    CutsAt limit (s.execute fuel program) ((s.limited limit).execute fuel program) := by
  have hcuts : (do Exec.program fuel s.setting program; Exec.flush : Exec Unit).Cuts limit :=
    Exec.cuts_bind ((Exec.cuts_closed s.hosts limit).program (σ := s.setting) fuel program) fun _ =>
      Exec.cuts_flush limit
  have hcut := hcuts.cut s.machine hopen hroom
  rw [execute_eq_answer] at hends ⊢
  rw [execute_eq_answer, show (s.limited limit).setting = s.setting from rfl,
    show (s.limited limit).machine = s.machine.limited limit from rfl]
  generalize (do Exec.program fuel s.setting program; Exec.flush : Exec Unit) s.machine = ending at hcut hends
  generalize (do Exec.program fuel s.setting program; Exec.flush : Exec Unit) (s.machine.limited limit) = ending' at hcut
  cases hcut with
  | done hm => exact ⟨fun _ => rfl, fun hlt => absurd hm (Nat.not_le_of_lt hlt)⟩
  | failed hm => exact ⟨fun _ => rfl, fun hlt => absurd hm (Nat.not_le_of_lt hlt)⟩
  | @full _ m m' hend hlt hsink =>
    have hwritten : m'.output = m.output.extract 0 limit := congrArg Sink.written hsink
    cases ending with
    | done a m₁ =>
      obtain rfl : m₁ = m := Option.some.inj hend
      exact ⟨fun hle => absurd hle (Nat.not_le_of_lt hlt), fun _ => ⟨hwritten, rfl, rfl⟩⟩
    | failed fault m₁ =>
      obtain rfl : m₁ = m := Option.some.inj hend
      exact ⟨fun hle => absurd hle (Nat.not_le_of_lt hlt), fun _ => ⟨hwritten, rfl, rfl⟩⟩
    | outOfFuel => cases hend
  | outOfFuel => exact absurd rfl hends

/-- A source that is refused writes nothing. -/
theorem cutsAt_refuse (hroom : s.output.size ≤ limit) (ds : List Diagnostic) :
    CutsAt limit (s.refuse ds) ((s.limited limit).refuse ds) :=
  ⟨fun _ => rfl, fun hlt => absurd hroom (Nat.not_le_of_lt hlt)⟩

theorem cutsAt_run (hopen : s.machine.console.sink.Open) (hroom : s.output.size ≤ limit)
    (hends : (s.run fuel source).outcome ≠ .unfinished) :
    CutsAt limit (s.run fuel source) ((s.limited limit).run fuel source) := by
  let next : Session := { s with fresh := (parse s.fresh (tokensOf source)).fresh }
  unfold run at hends ⊢
  dsimp only [limited] at hends ⊢
  cases hp : (parse s.fresh (tokensOf source)).result with
  | error reports => exact cutsAt_refuse (s := next) hroom _
  | ok program =>
    simp only [hp] at hends ⊢
    by_cases hr : (!(lexicalDiagnostics source).isEmpty || !s.runnable) = true
    · rw [if_pos hr, if_pos hr]
      exact cutsAt_refuse (s := next) hroom _
    · rw [if_neg hr] at hends
      rw [if_neg hr, if_neg hr]
      cases hd : resolveProgram program with
      | error reports => exact cutsAt_refuse (s := next) hroom _
      | ok distances =>
        simp only [hd] at hends ⊢
        exact cutsAt_execute (s := { next with distances := Assoc.setAll s.distances distances }) hopen hroom hends

/-- For every limit and every run that ends: if the output fits, the run with the limit writes the same, ends the same
way with the same diagnostics and leaves the same globals, and everything else as well; otherwise its output is what fits
of the output, and its only diagnostic the fault of the sink. -/
theorem limit_cuts_output (hopen : s.machine.console.sink.Open) (hroom : s.output.size ≤ limit)
    (hends : (s.run fuel source).outcome ≠ .unfinished) :
    ((s.run fuel source).session.output.size ≤ limit →
      ((s.limited limit).run fuel source).session.output = (s.run fuel source).session.output ∧
      ((s.limited limit).run fuel source).outcome = (s.run fuel source).outcome ∧
      ((s.limited limit).run fuel source).diagnostics = (s.run fuel source).diagnostics ∧
      (∀ name, ((s.limited limit).run fuel source).session.global? name = (s.run fuel source).session.global? name) ∧
      ((s.limited limit).run fuel source).session = (s.run fuel source).session.limited limit) ∧
    (limit < (s.run fuel source).session.output.size →
      ((s.limited limit).run fuel source).session.output = (s.run fuel source).session.output.extract 0 limit ∧
      ((s.limited limit).run fuel source).outcome = .runtimeError ∧
      ((s.limited limit).run fuel source).diagnostics = [.output .limitReached]) := by
  have hcut : CutsAt limit (s.run fuel source) ((s.limited limit).run fuel source) := cutsAt_run hopen hroom hends
  refine ⟨fun hfits => ?_, hcut.full⟩
  rw [hcut.same hfits]
  exact ⟨rfl, rfl, rfl, fun _ => rfl, rfl⟩

/-- The second value that an initializer prints does not fit. -/
theorem limit_cuts_output_initializer :
    let source := "class A { init() { print true; print nil; } } A(); print false;"
    let s := start ⟨.unlimited, [], .running 0⟩
    (s.run 20 source).outcome ≠ .unfinished ∧ 6 < (s.run 20 source).session.output.size ∧
      ((s.limited 6).run 20 source).session.output = (s.run 20 source).session.output.extract 0 6 ∧
      ((s.limited 6).run 20 source).outcome = .runtimeError ∧
      ((s.limited 6).run 20 source).diagnostics = [.output .limitReached] := by
  intro source s
  have hopen : s.machine.console.sink.Open := ⟨rfl, rfl⟩
  have hends : (s.run 20 source).outcome ≠ .unfinished := by decide +kernel
  have hlong : 6 < (s.run 20 source).session.output.size := by decide +kernel
  exact ⟨hends, hlong, (limit_cuts_output hopen (Nat.zero_le 6) hends).2 hlong⟩

end Session

end ScriptLang
