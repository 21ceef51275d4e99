import ScriptLang.Proofs.Parsing.Layout
import ScriptLang.Proofs.Sessions.Chunks
import ScriptLang.Proofs.Sessions.Past

/-!
# Layout does not matter

* `Session.runParse` — the part of a run behind the parser, for a source without lexical faults;
* `Session.sameButLines_runParse` — it ends alike for trees and reports on other lines;
* `Session.run_of_same_faces` — so two sources with the same tokens up to lines are run alike.

Two layouts of a source need not be related by a function on lines, since tokens on one line of the first may stand on
several lines of the second.  Both are compared with the layout that has all tokens on line 1.
-/

namespace ScriptLang

/-- Tokens with the same faces are the same once they stand on one line. -/
theorem Token.map_moved_eq_of_face {ts us : List Token} (n : Nat) (h : ts.map Token.face = us.map Token.face) :
    ts.map (Token.moved fun _ => n) = us.map (Token.moved fun _ => n) := by
  have hmoved : (Token.moved fun _ => n) = (fun p : Kind × String => (⟨p.1, p.2, n⟩ : Token)) ∘ Token.face := rfl
  rw [hmoved, ← List.map_map, ← List.map_map, h]

/-! ## answers that differ in lines -/

namespace Answer.SameButLines

variable {a a' a'' : Answer}

theorem symm (h : a.SameButLines a') : a'.SameButLines a where
  outcome := h.outcome.symm
  diagnostics := h.diagnostics.symm
  output hne := (h.output (h.outcome ▸ hne)).symm
  heap hne := (h.heap (h.outcome ▸ hne)).symm
  globals hne name := (h.globals (h.outcome ▸ hne) name).symm

theorem trans (h : a.SameButLines a') (h' : a'.SameButLines a'') : a.SameButLines a'' where
  outcome := h'.outcome.trans h.outcome
  diagnostics := h'.diagnostics.trans h.diagnostics
  output hne := (h'.output (h.outcome ▸ hne)).trans (h.output hne)
  heap hne := (h'.heap (h.outcome ▸ hne)).trans (h.heap hne)
  globals hne name := (h'.globals (h.outcome ▸ hne) name).trans (h.globals hne name)

end Answer.SameButLines

/-! ## diagnostics and checks -/

section

variable {ℓ : Nat → Nat}

theorem Diagnostic.unlined_ofSyntax (reports : List (Report SyntaxFault)) :
    ((reports.map (Report.moved ℓ)).map Diagnostic.ofSyntax).map Diagnostic.unlined =
      (reports.map Diagnostic.ofSyntax).map Diagnostic.unlined := by
  rw [List.map_map, List.map_map, List.map_map]
  rfl

theorem Diagnostic.unlined_ofScope (reports : List (Report ScopeFault)) :
    ((reports.map (Report.moved ℓ)).map Diagnostic.ofScope).map Diagnostic.unlined =
      (reports.map Diagnostic.ofScope).map Diagnostic.unlined := by
  rw [List.map_map, List.map_map, List.map_map]
  rfl

/-- The scope rules do not look at lines. -/
theorem resolveProgram_moved (program : List Stmt) :
    resolveProgram (Stmt.movedAll ℓ 0 program) = (resolveProgram program).mapError (List.map (Report.moved ℓ)) := by
  have hwalk : Stmt.resolveAll .top [] (Stmt.movedAll ℓ 0 program) =
      (Stmt.resolveAll .top [] program).moved ℓ 0 := Stmt.resolveAll_moved program
  have hempty : ((Stmt.resolveAll .top [] program).moved ℓ 0).faults.isEmpty =
      (Stmt.resolveAll .top [] program).faults.isEmpty := by
    simp [Findings.moved]
  unfold resolveProgram
  simp only [hwalk, hempty, Findings.distances_moved_zero]
  split <;> rfl

end

namespace Session

variable {s : Session} {sites : List Site}

/-! ## runs of what was parsed -/

/-- Runs what a source without lexical faults was parsed as. -/
def runParse (fuel : Nat) (s : Session) (parsed : Parse) : Answer :=
  let s := { s with fresh := parsed.fresh }
  match parsed.result with
  | .error reports => s.refuse (reports.map .ofSyntax)
  | .ok program =>
    if !s.runnable then s.refuse []
    else
      match resolveProgram program with
      | .error reports => s.refuse (reports.map .ofScope)
      | .ok distances => execute fuel { s with distances := Assoc.setAll s.distances distances } program

theorem run_eq_runParse {source : String} (hl : lexicalDiagnostics source = []) (fuel : Nat) :
    s.run fuel source = s.runParse fuel (parse s.fresh (tokensOf source)) := by
  unfold run runParse
  rw [hl]
  rfl

/-- Runs that are refused for the same reasons. -/
theorem sameButLines_refuse {ds ds' : List Diagnostic} (h : ds'.map Diagnostic.unlined = ds.map Diagnostic.unlined) :
    (s.refuse ds).SameButLines (s.refuse ds') :=
  ⟨rfl, h, fun _ => rfl, fun _ => rfl, fun _ _ => rfl⟩

/-- A program on other lines is executed alike in a session that can be reached, with any table of distances. -/
theorem sameButLines_execute_moved (hs : Reached s sites) (hblind : ∀ f ∈ s.hosts, Host.Blind f) (ℓ : Nat → Nat)
    (fresh : Label) (distances : Distances) (fuel : Nat) (program : List Stmt) :
    (({ s with fresh, distances } : Session).execute fuel program).SameButLines
      (({ s with fresh, distances } : Session).execute fuel (Stmt.movedAll ℓ 0 program)) := by
  let entered : Session := { s with fresh, distances }
  let g : Guise := .onLines entered.setting.distance? fun _ => True
  obtain ⟨runs, hran⟩ := hs.exists_ran
  obtain ⟨w, hw⟩ := hran.scene
  have hself : entered.machine.Like g (.still s.machine.heap) entered.machine :=
    hw.like (fun _ => trivial) fun _ => trivial
  have hjoins : g.Joins entered.setting entered.setting := ⟨fun _ _ => rfl, fun _ _ => rfl, rfl, hblind⟩
  have hprogram : Stmt.LikeAll g .clear program (Stmt.movedAll ℓ 0 program) :=
    Stmt.likeAll_moved (fun _ => trivial) program fun _ _ => trivial
  have hagree := agree_program_flush hjoins hself hprogram (n := fuel)
  exact sameButLines_execute hagree

/-- What was parsed from tokens on other lines is run alike. -/
theorem sameButLines_runParse (hs : Reached s sites) (hblind : ∀ f ∈ s.hosts, Host.Blind f) (ℓ : Nat → Nat) (fuel : Nat)
    (parsed : Parse) : (s.runParse fuel parsed).SameButLines (s.runParse fuel (parsed.moved ℓ)) := by
  obtain ⟨result, fresh⟩ := parsed
  cases result with
  | error reports => exact sameButLines_refuse (Diagnostic.unlined_ofSyntax reports)
  | ok program =>
    unfold runParse Parse.moved
    dsimp only
    rw [resolveProgram_moved]
    split
    · exact sameButLines_refuse rfl
    · cases resolveProgram program with
      | error reports => exact sameButLines_refuse (Diagnostic.unlined_ofScope reports)
      | ok distances => exact sameButLines_execute_moved hs hblind ℓ _ _ fuel program

/-- Two sources without lexical faults and with the same kinds and texts of tokens, in whatever layout, are run alike in
every session that can be reached: with the same outcome, the same output, the same diagnostics up to lines, the same
heap and the same globals up to lines. -/
theorem run_of_same_faces (hs : Reached s sites) (hblind : ∀ f ∈ s.hosts, Host.Blind f) {a b : String}
    (ha : lexicalDiagnostics a = []) (hb : lexicalDiagnostics b = [])
    (hfaces : (tokensOf a).map Token.face = (tokensOf b).map Token.face) (fuel : Nat) :
    (s.run fuel a).SameButLines (s.run fuel b) := by
  -- both are compared with the tokens on line 1
  have honeLine := parse_moved (ℓ := fun _ => 1) rfl s.fresh
  have hfirst := sameButLines_runParse hs hblind (fun _ => 1) fuel (parse s.fresh (tokensOf a))
  have hsecond := sameButLines_runParse hs hblind (fun _ => 1) fuel (parse s.fresh (tokensOf b))
  rw [← honeLine, Token.map_moved_eq_of_face 1 hfaces, honeLine] at hfirst
  rw [run_eq_runParse ha, run_eq_runParse hb]
  exact hfirst.trans hsecond.symm

/-- A function on one line or on four.  The fault in it is on line 1 of the first source and on line 3 of the second. -/
theorem run_of_same_faces_fault :
    ((start ⟨.unlimited, [], .running 0⟩).run 9 "fun f() \x7b return g; \x7d f();").diagnostics.map
      Diagnostic.line? = [some 1] ∧
    ((start ⟨.unlimited, [], .running 0⟩).run 9 "fun f() \x7b\n  // none\n  return g;\n\x7d f();").diagnostics.map
      Diagnostic.line? = [some 3] ∧
    ((start ⟨.unlimited, [], .running 0⟩).run 9 "fun f() \x7b return g; \x7d f();").SameButLines
      ((start ⟨.unlimited, [], .running 0⟩).run 9 "fun f() \x7b\n  // none\n  return g;\n\x7d f();") := by
  have hhosts : ∀ f ∈ (start ⟨.unlimited, [], .running 0⟩).hosts, Host.Blind f := fun f hf =>
    absurd hf (Array.not_mem_empty f)
  have ha : lexicalDiagnostics "fun f() \x7b return g; \x7d f();" = [] := rfl
  have hb : lexicalDiagnostics "fun f() \x7b\n  // none\n  return g;\n\x7d f();" = [] := rfl
  have hfaces : (tokensOf "fun f() \x7b return g; \x7d f();").map Token.face =
      (tokensOf "fun f() \x7b\n  // none\n  return g;\n\x7d f();").map Token.face := by decide +kernel
  have hsame := run_of_same_faces (.start ⟨.unlimited, [], .running 0⟩) hhosts ha hb hfaces 9
  refine ⟨?_, ?_, hsame⟩
  · decide +kernel
  · decide +kernel

end Session

end ScriptLang
