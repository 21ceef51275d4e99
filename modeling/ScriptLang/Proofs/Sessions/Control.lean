import ScriptLang.Proofs.Sessions.Past

/-!
# Control signals end at their construct

In every run of an accepted source: a statement of the program ends normally, the body of a call ends normally or with
`return`, that of an initializer with a `return` that has no value, and a loop ends neither with `break` nor with
`continue`.  So nothing is lost where a call gives its result and where the next statement of a program is begun.
-/

namespace ScriptLang

/-- The body of a function ends normally or with a `return`; the body of an initializer returns no value. -/
theorem Closure.Placed.allows {L : Lore} {w : Scene} {c : Closure} (h : c.Placed L w) {σ : Setting} {n : Nat}
    {e : FrameRef} {m m' : Machine} {flow : Flow} (hb : Exec.execAll n σ e c.declaration.body m = .done flow m') :
    (flow = .normal ∨ ∃ v, flow = .returned v) ∧
      (c.isInitializer = true → flow = .normal ∨ flow = .returned .nil) := by
  obtain ⟨O, place, k, hl, -, hloop, hplace, hinit⟩ := h.code
  have hallows : place.Allows flow := (confined σ n).execAll hl.body hb
  cases flow with
  | normal => exact ⟨.inl rfl, fun _ => .inl rfl⟩
  | returned v =>
    refine ⟨.inr ⟨v, rfl⟩, fun hi => .inr ?_⟩
    rw [hallows.2 (hinit hi)]
  | broken => simp [Place.Allows, hloop] at hallows
  | continued => simp [Place.Allows, hloop] at hallows

/-- A statement at the top level ends normally. -/
theorem Place.Allows.eq_normal {flow : Flow} (h : Place.top.Allows flow) : flow = .normal := by
  cases flow with
  | normal => rfl
  | returned v => exact absurd rfl h.1
  | broken => cases h
  | continued => cases h

namespace Session

variable {s s' : Session} {sites : List Site} {source : String} {program : List Stmt}

/-- In every run of an accepted source in a session, statements of the program end normally, bodies of calls normally or
with a `return`, bodies of initializers without a value, and loops neither with `break` nor with `continue`. -/
theorem flow_confined (hs : Reached s sites) (he : s.enter? source = some (s', program)) (fuel : Nat) :
    (∀ n stmt rest m flow m',
      Visits s'.setting ⟨fuel, .program program, s'.machine⟩ ⟨n, .program (stmt :: rest), m⟩ →
      Exec.exec n s'.setting Heap.globals stmt m = .done flow m' → flow = .normal) ∧
    (∀ n c vs m e m₁ flow m',
      Visits s'.setting ⟨fuel, .program program, s'.machine⟩ ⟨n + 1, .invoke c vs, m⟩ →
      Exec.callFrame c vs m = .done e m₁ → Exec.execAll n s'.setting e c.declaration.body m₁ = .done flow m' →
      (flow = .normal ∨ ∃ v, flow = .returned v) ∧
        (c.isInitializer = true → flow = .normal ∨ flow = .returned .nil)) ∧
    ∀ n e c b i m flow m',
      Visits s'.setting ⟨fuel, .program program, s'.machine⟩ ⟨n, .exec e (.loop c b i), m⟩ →
      Exec.exec n s'.setting e (.loop c b i) m = .done flow m' → flow ≠ .broken ∧ flow ≠ .continued := by
  obtain ⟨runs, hran⟩ := hs.exists_ran
  refine ⟨?_, ?_, ?_⟩
  · intro n stmt rest m flow m' hv hx
    obtain ⟨w, -, O, hl⟩ := hran.placed he hv
    exact ((confined s'.setting n).exec hl.1 hx).eq_normal
  · intro n c vs m e m₁ flow m' hv _ hb
    obtain ⟨w, -, hc, -⟩ := hran.placed he hv
    exact hc.allows hb
  · intro n e c b i m flow m' hv hx
    obtain ⟨w, -, -, O, place, k, hl, -⟩ := hran.placed he hv
    cases n with
    | zero =>
      simp only [Exec.exec] at hx
      cases hx
    | succ n =>
      simp only [Exec.exec] at hx
      exact ((confined s'.setting n).loop hl hx).2

/-- The constructor returns from a loop in its body, and its body ends with that `return`. -/
theorem flow_confined_initializer : ∃ s' program,
    (start ⟨.unlimited, [], .running 0⟩).enter? "class A { init() { while (true) return; } } A();" = some (s', program) ∧
    ∃ n c vs m e m₁ flow m',
      Visits s'.setting ⟨19, .program program, s'.machine⟩ ⟨n + 1, .invoke c vs, m⟩ ∧ c.isInitializer = true ∧
      Exec.callFrame c vs m = .done e m₁ ∧ Exec.execAll n s'.setting e c.declaration.body m₁ = .done flow m' ∧
      (flow = .normal ∨ flow = .returned .nil) := by
  let a : Token := ⟨.identifier, "A", 1⟩
  let init : FunctionDecl := .mk ⟨.identifier, "init", 1⟩ []
    [.loop (.literal (.bool true)) (.returnFrom ⟨.keyword .kwReturn, "return", 1⟩ none) none]
  let program : List Stmt :=
    [.classDecl a none [init], .expr (.call (.variable 0 a) (.ofMark .rightParen 1) [])]
  let s' : Session := { start ⟨.unlimited, [], .running 0⟩ with fresh := 1 }
  have he : (start ⟨.unlimited, [], .running 0⟩).enter?
      "class A { init() { while (true) return; } } A();" = some (s', program) := rfl
  have hv : Visits s'.setting ⟨19, .program program, s'.machine⟩ ⟨16, .invoke ⟨init, 1, true⟩ [], _⟩ :=
    .head (.restOfProgram (by simp only [Exec.exec]; rfl)) <| .head .topStatement <| .head .expression <|
      .head (.called (by simp only [Exec.eval]; rfl) (by simp only [Exec.evalAll]; rfl)) <|
      .head (.initializer rfl rfl rfl rfl) .refl
  have hb : ∀ m, Exec.execAll 15 s'.setting 2 init.body m = .done (.returned .nil) m := by
    intro m
    simp only [init, FunctionDecl.body, Exec.execAll, Exec.exec, Exec.loop_succ, Exec.eval]
    rfl
  have hflow := ((flow_confined (.start _) he 19).2.1 15 _ _ _ _ _ _ _ hv rfl (hb _)).2 rfl
  exact ⟨s', program, he, 15, ⟨init, 1, true⟩, [], _, _, _, .returned .nil, _, hv, rfl, rfl, hb _, hflow⟩

end Session

end ScriptLang
