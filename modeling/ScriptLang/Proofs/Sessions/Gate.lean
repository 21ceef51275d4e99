import ScriptLang.Proofs.Parsing.Neighbours
import ScriptLang.Proofs.Scoping.Moved
import ScriptLang.Proofs.Sessions.Reached

/-!
# What stands before a run

A source is executed in a session that is runnable if the three checks find nothing; otherwise the run is refused, and
all that a program can see is as it was.

* `syntaxDiagnostics`, `scopeDiagnostics` — what the checks find in a source, in whatever session it is run;
* `Session.Clear s source` — nothing stands before the run;
* `Session.staticDiagnostics` — what a run reports that is refused;
* `Session.after s calls` — the session after some calls;
* `Session.run_gated` — all this of every run behind every history.
-/

namespace ScriptLang

/-- The faults against the grammar in a source. -/
def syntaxDiagnostics (source : String) : List Diagnostic :=
  (parse 0 (tokensOf source)).reports.map .ofSyntax

/-- The violations of the scope rules in a program. -/
def scopeReports (program : List Stmt) : List (Report ScopeFault) :=
  match resolveProgram program with
  | .error reports => reports
  | .ok _ => []

/-- The violations of the scope rules in a source, if it is a program. -/
def scopeDiagnostics (source : String) : List Diagnostic :=
  match (parse 0 (tokensOf source)).result with
  | .error _ => []
  | .ok program => (scopeReports program).map .ofScope

/-! ## what the checks find in a session -/

/-- The first label does not matter for what is found in reading a source. -/
theorem syntaxDiagnostics_eq (fresh : Label) (source : String) :
    syntaxDiagnostics source = (parse fresh (tokensOf source)).reports.map .ofSyntax := by
  unfold syntaxDiagnostics
  rw [reports_parse_fresh 0 fresh]

theorem scopeReports_eq (program : List Stmt) : scopeReports program = (Stmt.resolveAll .top [] program).faults := by
  unfold scopeReports resolveProgram
  dsimp only
  split
  · next h =>
    split at h
    · cases h
    · exact (Except.error.inj h).symm
  · next h =>
    split at h
    · next hf => exact (List.isEmpty_iff.1 hf).symm
    · cases h

/-- A source that is read with other labels has the same violations. -/
theorem scopeDiagnostics_eq {fresh : Label} {source : String} {program : List Stmt}
    (h : (parse fresh (tokensOf source)).result = .ok program) :
    scopeDiagnostics source = (scopeReports program).map .ofScope := by
  obtain ⟨first, hfirst, -⟩ := parse_relabelled fresh 0 _ _ h
  have hreads := (reads_of_parse hfirst).moved (ℓ := id) (k := fresh)
  rw [Token.map_moved_id, Nat.zero_add] at hreads
  have hprogram : program = Stmt.movedAll id fresh first := by
    rw [parse_of_reads hreads] at h
    exact (Except.ok.inj h).symm
  unfold scopeDiagnostics
  rw [hfirst, hprogram, scopeReports_eq, Stmt.resolveAll_moved]
  simp [scopeReports_eq, Findings.moved]

namespace Session

variable {s : Session} {fuel : Nat} {source : String} {program : List Stmt}

/-- Nothing stands before a run of the source. -/
def Clear (s : Session) (source : String) : Prop :=
  s.runnable = true ∧ lexicalDiagnostics source = [] ∧ syntaxDiagnostics source = [] ∧ scopeDiagnostics source = []

/-- What a refused run reports: the faults found in scanning and those found in reading, or without any in a runnable
session those of the scopes. -/
def staticDiagnostics (s : Session) (source : String) : List Diagnostic :=
  let found := lexicalDiagnostics source ++ syntaxDiagnostics source
  if found.isEmpty && s.runnable then scopeDiagnostics source else found

/-- The run executes the program of the source, with its distances added to those of the session. -/
def Executes (s : Session) (fuel : Nat) (source : String) : Prop :=
  ∃ program distances, (parse s.fresh (tokensOf source)).result = .ok program ∧
    resolveProgram program = .ok distances ∧
    s.run fuel source =
      execute fuel { s with
        fresh := (parse s.fresh (tokensOf source)).fresh
        distances := Assoc.setAll s.distances distances } program

/-! ## runs that are executed, and runs that are refused -/

theorem exists_program_of_syntaxDiagnostics (fresh : Label) (h : syntaxDiagnostics source = []) :
    ∃ program, (parse fresh (tokensOf source)).result = .ok program := by
  rw [syntaxDiagnostics_eq fresh, List.map_eq_nil_iff, reports_parse] at h
  obtain ⟨program, c, hc⟩ := Reply.eq_ok_of_reports (parse_not_outOfFuel fresh (tokensOf source)) h
  exact ⟨program, result_parse_eq_ok_iff.2 ⟨c, hc⟩⟩

theorem executes_of_clear (fuel : Nat) (h : s.Clear source) : s.Executes fuel source := by
  obtain ⟨hrunnable, hlexical, hsyntax, hscope⟩ := h
  obtain ⟨program, hprogram⟩ := exists_program_of_syntaxDiagnostics s.fresh hsyntax
  rw [scopeDiagnostics_eq hprogram, List.map_eq_nil_iff, scopeReports_eq] at hscope
  have hdistances := resolveProgram_eq_ok.2 ⟨hscope, rfl⟩
  refine ⟨program, _, hprogram, hdistances, ?_⟩
  unfold run
  simp only [hprogram, hlexical, hrunnable, hdistances]
  rfl

theorem run_eq_refuse_of_not_clear (fuel : Nat) (h : ¬ s.Clear source) :
    s.run fuel source =
      refuse { s with fresh := (parse s.fresh (tokensOf source)).fresh } (s.staticDiagnostics source) := by
  unfold run staticDiagnostics
  cases hp : (parse s.fresh (tokensOf source)).result with
  | error reports =>
    have hsyntax : syntaxDiagnostics source = reports.map .ofSyntax := by
      rw [syntaxDiagnostics_eq s.fresh, Parse.reports, hp]
    have hne : syntaxDiagnostics source ≠ [] := by
      intro hnone
      obtain ⟨program, hprogram⟩ := exists_program_of_syntaxDiagnostics s.fresh hnone
      rw [hp] at hprogram
      cases hprogram
    simp [hp, ← hsyntax, hne]
  | ok program =>
    have hsyntax : syntaxDiagnostics source = [] := by
      rw [syntaxDiagnostics_eq s.fresh, Parse.reports, hp, List.map_nil]
    simp only [hp, hsyntax, List.append_nil]
    by_cases hlexical : lexicalDiagnostics source = [] ∧ s.runnable = true
    · obtain ⟨hlexical, hrunnable⟩ := hlexical
      have hscope : scopeDiagnostics source ≠ [] := fun hnone => h ⟨hrunnable, hlexical, hsyntax, hnone⟩
      rw [scopeDiagnostics_eq hp] at hscope ⊢
      unfold scopeReports at hscope ⊢
      cases hr : resolveProgram program with
      | error reports => simp [hlexical, hrunnable]
      | ok distances => simp [hr] at hscope
    · have hclosed : (!(lexicalDiagnostics source).isEmpty || !s.runnable) = true := by
        simpa [Classical.or_iff_not_imp_left] using hlexical
      have hopen : ((lexicalDiagnostics source).isEmpty && s.runnable) = false := by
        simpa using hlexical
      rw [if_pos hclosed, hopen]
      rfl

/-! ## how a run that is executed ends -/

theorem outcome_execute_ne (fuel : Nat) (s : Session) (program : List Stmt) :
    (s.execute fuel program).outcome ≠ .staticError := by
  unfold execute
  split <;> simp

theorem runnable_execute (fuel : Nat) (s : Session) (program : List Stmt) :
    (s.execute fuel program).session.runnable = s.runnable := by
  unfold execute
  split <;> rfl

/-- A fault during a run is reported once. -/
theorem diagnostics_execute_of_runtimeError (h : (s.execute fuel program).outcome = .runtimeError) :
    ∃ fault : Fault, (s.execute fuel program).diagnostics = [fault.toDiagnostic] := by
  unfold execute at h ⊢
  split at h
  · cases h
  · next fault _ _ => exact ⟨fault, rfl⟩
  · cases h

theorem diagnostics_execute_of_completed (h : (s.execute fuel program).outcome = .completed) :
    (s.execute fuel program).diagnostics = [] := by
  unfold execute at h ⊢
  split at h
  · rfl
  · cases h
  · cases h

/-! ## gates -/

theorem outcome_eq_staticError_iff (fuel : Nat) : (s.run fuel source).outcome = .staticError ↔ ¬ s.Clear source := by
  constructor
  · intro h hclear
    obtain ⟨program, distances, -, -, hrun⟩ := executes_of_clear fuel hclear
    rw [hrun] at h
    exact outcome_execute_ne _ _ _ h
  · intro h
    rw [run_eq_refuse_of_not_clear fuel h]
    rfl

theorem executes_iff_clear (fuel : Nat) : s.Executes fuel source ↔ s.Clear source := by
  constructor
  · rintro ⟨program, distances, -, -, hrun⟩
    by_cases h : s.Clear source
    · exact h
    · have hstatic := (outcome_eq_staticError_iff fuel).2 h
      rw [hrun] at hstatic
      exact (outcome_execute_ne _ _ _ hstatic).elim
  · exact executes_of_clear fuel

/-! ## histories -/

/-- A call to a session. -/
inductive Call
  | run (fuel : Nat) (source : String)
  | reset

/-- The session after a call. -/
def next (s : Session) : Call → Session
  | .run fuel source => (s.run fuel source).session
  | .reset => s.reset

/-- The session after some calls. -/
def after (s : Session) (calls : List Call) : Session := calls.foldl next s

/-- A session that is not runnable refuses every run, and stays so. -/
theorem not_runnable_run (fuel : Nat) (source : String) (h : s.runnable = false) :
    (s.run fuel source).outcome = .staticError ∧ (s.run fuel source).session.runnable = false := by
  have hclear : ¬ s.Clear source := fun hclear => by
    rw [hclear.1] at h
    cases h
  rw [run_eq_refuse_of_not_clear fuel hclear]
  exact ⟨rfl, rfl⟩

/-- Only a reset makes a session runnable again. -/
theorem not_runnable_after {calls : List Call} (h : s.runnable = false) (hcalls : .reset ∉ calls) :
    (s.after calls).runnable = false := by
  induction calls generalizing s with
  | nil => exact h
  | cons call calls ih =>
    rw [List.mem_cons, not_or] at hcalls
    obtain ⟨hcall, hcalls⟩ := hcalls
    cases call with
    | run fuel source => exact ih (not_runnable_run fuel source h).2 hcalls
    | reset => exact (hcall rfl).elim

theorem runnable_after_reset (s : Session) (calls : List Call) : (s.after (calls ++ [.reset])).runnable = true := by
  unfold after
  rw [List.foldl_append]
  rfl

/-- What is promised of a run of a source in a session. -/
structure Gated (s : Session) (fuel : Nat) (source : String) : Prop where
  executes : s.Executes fuel source ↔ s.Clear source
  /-- A run that does not execute its program answers with a static error. -/
  static : (s.run fuel source).outcome = .staticError ↔ ¬ s.Executes fuel source
  intact : (s.run fuel source).outcome = .staticError →
    (s.run fuel source).session.machine = s.machine ∧ (s.run fuel source).session.distances = s.distances ∧
      (s.run fuel source).session.hosts = s.hosts
  reported : (s.run fuel source).outcome = .staticError →
    (s.run fuel source).diagnostics = s.staticDiagnostics source
  blocked : (s.run fuel source).outcome = .staticError → ∀ later : List Call, .reset ∉ later →
    ((s.run fuel source).session.after later).runnable = false ∧
      ∀ fuel' source', (((s.run fuel source).session.after later).run fuel' source').outcome = .staticError
  lifted : ∀ later : List Call, ((s.run fuel source).session.after (later ++ [.reset])).runnable = true
  runtime : (s.run fuel source).outcome = .runtimeError →
    (s.run fuel source).session.runnable = true ∧
      ((∃ anchor cause, (s.run fuel source).diagnostics = [.runtime anchor cause]) ∨
        ∃ cause, (s.run fuel source).diagnostics = [.output cause])
  completed : (s.run fuel source).outcome = .completed → (s.run fuel source).diagnostics = []

theorem gated_of_clear (fuel : Nat) (h : s.Clear source) : s.Gated fuel source := by
  obtain ⟨program, distances, -, -, hrun⟩ := executes_of_clear fuel h
  have hne : (s.run fuel source).outcome ≠ .staticError := fun hs => (outcome_eq_staticError_iff fuel).1 hs h
  refine ⟨executes_iff_clear fuel, ?_, fun hs => (hne hs).elim, fun hs => (hne hs).elim, fun hs => (hne hs).elim,
    runnable_after_reset _, fun hruntime => ?_, fun hcompleted => ?_⟩
  · rw [executes_iff_clear]
    exact outcome_eq_staticError_iff fuel
  · rw [hrun] at hruntime ⊢
    obtain ⟨fault, hfault⟩ := diagnostics_execute_of_runtimeError hruntime
    refine ⟨(runnable_execute _ _ _).trans h.1, ?_⟩
    cases fault with
    | runtime report => exact .inl ⟨_, _, hfault⟩
    | output cause => exact .inr ⟨_, hfault⟩
  · rw [hrun] at hcompleted ⊢
    exact diagnostics_execute_of_completed hcompleted

theorem gated_of_not_clear (fuel : Nat) (h : ¬ s.Clear source) : s.Gated fuel source := by
  have hrun := run_eq_refuse_of_not_clear fuel h
  have hstatic := (outcome_eq_staticError_iff fuel).2 h
  have hclosed : (s.run fuel source).session.runnable = false := by rw [hrun]; rfl
  refine ⟨executes_iff_clear fuel, ?_, fun _ => ?_, fun _ => ?_, fun _ later hlater => ?_,
    runnable_after_reset _, fun hruntime => ?_, fun hcompleted => ?_⟩
  · rw [executes_iff_clear]
    exact outcome_eq_staticError_iff fuel
  · rw [hrun]
    exact ⟨rfl, rfl, rfl⟩
  · rw [hrun]
    rfl
  · have hlast := not_runnable_after hclosed hlater
    exact ⟨hlast, fun fuel' source' => (not_runnable_run fuel' source' hlast).1⟩
  · rw [hstatic] at hruntime
    cases hruntime
  · rw [hstatic] at hcompleted
    cases hcompleted

/-- Behind every history, static errors keep a source from being executed and leave the session as it was. -/
theorem run_gated (s : Session) (history : List Call) (fuel : Nat) (source : String) :
    (s.after history).Gated fuel source := by
  by_cases h : (s.after history).Clear source
  · exact gated_of_clear fuel h
  · exact gated_of_not_clear fuel h

end Session

end ScriptLang
