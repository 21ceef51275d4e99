import ScriptLang.Proofs.Running.Confined
import ScriptLang.Proofs.Running.Lines
import ScriptLang.Proofs.Running.Simulation
import ScriptLang.Proofs.Scanning.Seam
import ScriptLang.Proofs.Scoping.Moved
import ScriptLang.Proofs.Sessions.Reached

/-!
# One source in two parts

* `Session.enter?_append` — a source of two parts is accepted if its parts are, one after the other; its program is that
  of the first part and, on later lines, that of the second, and each label has the distance that it has after both;
* `Session.sameButLines_append` — the run of both programs as one ends as that of the second behind that of the first;
* `Session.run_append` — so it does not matter whether a source is run in one or in two parts.

The runs of the first program differ in the labels that are known: the distances of the second program are not there yet
if it is run alone.  No function of the first program has such a label.
-/

namespace ScriptLang

/-! ## programs -/

theorem Phrase.Reads.append {first second : List Stmt} {lo mid hi : Label} {ts us : List Token}
    (h : (Phrase.declarations first).Reads lo ts mid) (h' : (Phrase.declarations second).Reads mid us hi) :
    (Phrase.declarations (first ++ second)).Reads lo (ts ++ us) hi := by
  induction first generalizing lo ts with
  | nil =>
    cases h
    exact h'
  | cons s rest ih =>
    cases h with
    | declarationsMore hs hrest =>
      rw [List.append_assoc]
      exact .declarationsMore hs (ih hrest)

theorem Exec.program_append (n : Nat) (σ : Setting) (first second : List Stmt) :
    program n σ (first ++ second) = (do program n σ first; program n σ second) := by
  induction first with
  | nil => rfl
  | cons s rest ih => simp only [List.cons_append, program, ih, bind_assoc]

/-- The labels of a program are those that reading it took. -/
theorem Phrase.Reads.label_lt {program : List Stmt} {lo hi : Label} {ts : List Token}
    (h : (Phrase.declarations program).Reads lo ts hi) {o : Occurrence} (ho : o ∈ Stmt.occurrencesAll program) :
    o.label < hi := by
  have hsites : (Stmt.sitesAll [] program).map Site.occurrence = Stmt.occurrencesAll program :=
    Stmt.occurrence_sitesAll program
  rw [← hsites] at ho
  obtain ⟨site, hsite, rfl⟩ := List.mem_map.1 ho
  exact ((h.labelled []).range site hsite).2

/-! ## globals without lines -/

theorem Assoc.get?_map {κ α β : Type} [DecidableEq κ] (f : α → β) (m : Assoc κ α) (k : κ) :
    get? (m.map fun p => (p.1, f p.2)) k = (get? m k).map f := by
  induction m with
  | nil => rfl
  | cons p rest ih =>
    obtain ⟨key, a⟩ := p
    by_cases hk : key = k
    · simp [get?, hk]
    · simpa [get?, hk] using ih

theorem Heap.bindings_unlined (h : Heap) (e : FrameRef) :
    h.unlined.frames.bindings e = unlinedAll (h.frames.bindings e) := by
  unfold Heap.unlined Frames.bindings
  rw [Array.getElem?_map]
  cases h.frames[e]? <;> rfl

theorem Session.global?_unlined (s : Session) (name : String) :
    Assoc.get? (s.machine.heap.unlined.frames.bindings Heap.globals) name = (s.global? name).map Value.unlined := by
  rw [Heap.bindings_unlined]
  exact Assoc.get?_map Value.unlined _ name

/-- Two runs ended alike and left the same behind, up to lines.  Runs that used up their fuel left nothing behind. -/
structure Answer.SameButLines (a a' : Answer) : Prop where
  outcome : a'.outcome = a.outcome
  diagnostics : a'.diagnostics.map Diagnostic.unlined = a.diagnostics.map Diagnostic.unlined
  output : a.outcome ≠ .unfinished → a'.session.output = a.session.output
  heap : a.outcome ≠ .unfinished → a'.session.machine.heap.unlined = a.session.machine.heap.unlined
  globals : a.outcome ≠ .unfinished → ∀ name,
    (a'.session.global? name).map Value.unlined = (a.session.global? name).map Value.unlined

namespace Session

/-! ## new sessions -/

section

variable {g : Guise} {v : View}

theorem like_defineBuiltin {s : Session} (h : s.machine.Like g v s.machine) (b : Builtin) :
    (s.defineBuiltin b).machine.Like g v (s.defineBuiltin b).machine := by
  let value : Value := .builtin s.machine.heap.nextTag b
  have hdefined : (s.machine.heap.define Heap.globals b.name value).Like g v
      (s.machine.heap.define Heap.globals (g.name (v.mask Heap.globals 0) b.name) value) := h.heap.define .builtin
  rw [h.heap.clear] at hdefined
  exact ⟨hdefined.nextTag, rfl⟩

theorem like_initial : Heap.initial.Like g (.still Heap.initial) Heap.initial := by
  have hlinks : ∀ e, Heap.initial.frames.enclosing? e = none := by
    intro e
    cases e <;> rfl
  have hbindings : ∀ e, Heap.initial.frames.bindings e = [] := by
    intro e
    cases e <;> rfl
  refine ⟨Nat.zero_lt_one, rfl, fun _ => rfl, rfl, rfl, fun e o ho => ?_, fun e => ?_, fun _ => .nil, rfl, rfl, rfl⟩
  · rw [hlinks] at ho
    cases ho
  · rw [hbindings]
    exact .nil

/-- A new session has no code in it, so it is alike itself in every guise. -/
theorem like_start (console : Console) :
    (start console).machine.Like g (.still Heap.initial) (start console).machine := by
  have h : Machine.Like g (.still Heap.initial) ⟨Heap.initial, console⟩ ⟨Heap.initial, console⟩ := ⟨like_initial, rfl⟩
  let s : Session := ⟨⟨Heap.initial, console⟩, [], #[], 0, true, false⟩
  exact like_defineBuiltin (like_defineBuiltin (like_defineBuiltin (s := s) h _) _) _

end

/-! ## sources of two parts -/

variable {s s₁ s₂ s' : Session} {a b source : String} {first second program : List Stmt} {m : Machine}

theorem checked_of_enter? (h : s.enter? source = some (s', program)) :
    lexicalDiagnostics source = [] ∧ s.runnable = true := by
  unfold enter? at h
  dsimp only at h
  split at h
  · cases h
  · split at h
    · cases h
    · next hr => simpa using hr

theorem checked_of_accepted {distances : Distances} (h : checkSource source = .accepted program distances) :
    lexicalDiagnostics source = [] ∧ (parse 0 (tokensOf source)).result = .ok program ∧
      resolveProgram program = .ok distances := by
  unfold checkSource checkProgram at h
  split at h
  · next hl =>
    split at h
    · cases h
    · next hp =>
      split at h
      · cases h
      · next hd =>
        cases h
        exact ⟨hl, hp, hd⟩
  · cases h

/-- What a source that passes all checks is read as in a session: the same but for labels. -/
theorem enter?_of_accepted {distances : Distances} (hr : s.runnable = true)
    (h : checkSource source = .accepted program distances) :
    ∃ s', s.enter? source = some (s', Stmt.movedAll id s.fresh program) := by
  obtain ⟨hl, hp, hd⟩ := checked_of_accepted h
  have hreads := (reads_of_parse hp).moved (ℓ := id) (k := s.fresh)
  rw [Token.map_moved_id, Nat.zero_add] at hreads
  have hfaults := (resolveProgram_eq_ok.1 hd).1
  rw [← Findings.faults_moved (ℓ := id) (k := s.fresh), ← Stmt.resolveAll_moved] at hfaults
  exact ⟨_, enter?_of_reads hr hl hreads hfaults⟩

/-- A source of two parts is accepted if its parts are. -/
theorem enter?_append (ha : s.enter? a = some (s₁, first))
    (hb : ({ s₁ with machine := m } : Session).enter? b = some (s₂, second)) :
    ∃ k s', s.enter? (a ++ "\n" ++ b) = some (s', first ++ Stmt.movedAll (· + k) 0 second) ∧ s'.machine = s.machine ∧
      s'.hosts = s.hosts ∧ ∀ l, s'.setting.distance? l = s₂.setting.distance? l := by
  obtain ⟨hreads₁, hfaults₁, hs₁⟩ := enter?_eq_some ha
  obtain ⟨hreads₂, hfaults₂, hs₂⟩ := enter?_eq_some hb
  obtain ⟨hla, hr⟩ := checked_of_enter? ha
  have hlb := (checked_of_enter? hb).1
  unfold lexicalDiagnostics at hla hlb
  rw [List.map_eq_nil_iff] at hla hlb
  obtain ⟨k, htokens⟩ := beforeEnd_tokensOf_append (b := b) hla
  have hlexical : lexicalDiagnostics (a ++ "\n" ++ b) = [] := by
    unfold lexicalDiagnostics
    rw [lexicalFaults_append hla hlb]
    rfl
  have hreads := hreads₁.append (hreads₂.moved (ℓ := (· + k)) (k := 0))
  rw [← htokens] at hreads
  have hresolve : Stmt.resolveAll .top [] (first ++ Stmt.movedAll (· + k) 0 second) =
      Stmt.resolveAll .top [] first ++ (Stmt.resolveAll .top [] second).moved (· + k) 0 := by
    rw [Stmt.resolveAll_append, Stmt.resolveAll_moved]
  have hfaults : (Stmt.resolveAll .top [] (first ++ Stmt.movedAll (· + k) 0 second)).faults = [] := by
    rw [hresolve, Findings.faults_append, hfaults₁, Findings.faults_moved.2 hfaults₂, List.append_nil]
  refine ⟨k, _, enter?_of_reads hr hlexical hreads hfaults, rfl, rfl, fun l => ?_⟩
  have hold : s₁.distances =
      Assoc.setAll s.distances (Assoc.setAll [] (Stmt.resolveAll .top [] first).distances) := by rw [hs₁]
  show Assoc.get? (Assoc.setAll s.distances (Assoc.setAll [] _)) l = Assoc.get? s₂.distances l
  rw [hs₂, hresolve, Findings.distances_append, Findings.distances_moved_zero, Assoc.get?_setAll_append, ← hold]

/-- The labels of the first part have their distances before the second is there. -/
theorem distance?_of_lt (hb : ({ s₁ with machine := m } : Session).enter? b = some (s₂, second)) {l : Label}
    (hl : l < s₁.fresh) : s₁.setting.distance? l = s₂.setting.distance? l := by
  obtain ⟨hreads, hfaults, hs₂⟩ := enter?_eq_some hb
  have hds : ∀ p, p ∈ (Stmt.resolveAll .top (Context.scopes []) second).distances ↔
      Site.Gives (Stmt.sitesAll [] second) p := fun p => Stmt.mem_distancesAll second hfaults
  show Assoc.get? s₁.distances l = Assoc.get? s₂.distances l
  rw [hs₂]
  exact (get?_table_of_other (hreads.labelled []) hds (.inl hl)).symm

/-! ## runs -/

/-- A run that completed has run its whole program; to flush what was written leaves the machine as it is. -/
theorem execute_completed {fuel : Nat} (h : (s.execute fuel program).outcome = .completed) :
    ∃ m, Exec.program fuel s.setting program s.machine = .done () m ∧
      s.execute fuel program = ⟨.completed, [], { s with machine := m }⟩ := by
  unfold execute at h ⊢
  cases hx : (do Exec.program fuel s.setting program; Exec.flush : Exec Unit) s.machine with
  | done u m =>
    obtain ⟨_, m₁, hprogram, hflush⟩ := Exec.bind_done hx
    unfold Exec.flush at hflush
    split at hflush
    · cases hflush
    · cases hflush
      exact ⟨_, hprogram, rfl⟩
  | failed fault m =>
    rw [hx] at h
    cases h
  | outOfFuel =>
    rw [hx] at h
    cases h

/-- Runs that end alike but for lines. -/
theorem sameButLines_execute {δ : Label → Option Nat} {P : Label → Prop} {v : View} {Q : View → Unit → Unit → Prop}
    {fuel fuel' : Nat} {program' : List Stmt}
    (h : ((do Exec.program fuel s.setting program; Exec.flush : Exec Unit) s.machine).Agree (.onLines δ P) v Q
      ((do Exec.program fuel' s'.setting program'; Exec.flush : Exec Unit) s'.machine)) :
    (s.execute fuel program).SameButLines (s'.execute fuel' program') := by
  have hglobals : ∀ {t t' : Session}, t'.machine.heap.unlined = t.machine.heap.unlined → ∀ name,
      (t'.global? name).map Value.unlined = (t.global? name).map Value.unlined := fun hheap name => by
    rw [← global?_unlined, ← global?_unlined, hheap]
  unfold execute
  revert h
  generalize (do Exec.program fuel s.setting program; Exec.flush : Exec Unit) s.machine = x
  generalize (do Exec.program fuel' s'.setting program'; Exec.flush : Exec Unit) s'.machine = x'
  intro h
  cases h with
  | done v' _ hm _ =>
    exact ⟨rfl, rfl, fun _ => congrArg (fun c => c.sink.written) hm.console, fun _ => hm.unlined,
      fun _ => hglobals hm.unlined⟩
  | failed v' hf hm =>
    refine ⟨rfl, ?_, fun _ => congrArg (fun c => c.sink.written) hm.console, fun _ => hm.unlined,
      fun _ => hglobals hm.unlined⟩
    exact congrArg (fun d => [d]) hf.unlined
  | outOfFuel => exact ⟨rfl, rfl, fun h => absurd rfl h, fun h => absurd rfl h, fun h => absurd rfl h⟩

section

variable {v : View} {fuel k : Nat}

/-- The first program ends alike with the distances of both programs.  Only its own labels are known on both sides. -/
theorem exists_done_first (ha : s.enter? a = some (s₁, first))
    (hb : ({ s₁ with machine := m } : Session).enter? b = some (s₂, second)) (hblind : ∀ f ∈ s.hosts, Host.Blind f)
    (hlike : ∀ g : Guise, s.machine.Like g v s.machine) (hclear : v.mask Heap.globals = .clear)
    (hrun : Exec.program fuel s₁.setting first s.machine = .done () m) (hh : s'.hosts = s.hosts)
    (hd : ∀ l, s'.setting.distance? l = s₂.setting.distance? l) :
    ∃ m' v', Exec.program fuel s'.setting first s.machine = .done () m' ∧ v.Grows v' ∧
      m.Like (.onLines s₂.setting.distance? (· < s₁.fresh)) v' m' := by
  obtain ⟨hreads, -, hs₁⟩ := enter?_eq_some ha
  have hh₁ : s₁.hosts = s.hosts := by rw [hs₁]
  let g : Guise := .onLines s₂.setting.distance? (· < s₁.fresh)
  have hjoins : g.Joins s₁.setting s'.setting :=
    ⟨fun l hl => distance?_of_lt hb hl, fun l _ => hd l, hh.trans hh₁.symm, fun f hf => hblind f (hh₁ ▸ hf)⟩
  have hfirst : Stmt.LikeAll g (v.mask Heap.globals) first first := by
    have hself : Stmt.LikeAll g .clear first (Stmt.movedAll id 0 first) :=
      Stmt.likeAll_moved (fun _ => trivial) first fun _ ho => hreads.label_lt ho
    rwa [Stmt.movedAll_id, ← hclear] at hself
  have hagree := agree_program (n := fuel) hjoins (hlike g) hfirst
  rw [hrun] at hagree
  obtain ⟨u, m', v', hrun', hgrows, hm', -⟩ := hagree.of_done
  exact ⟨m', v', hrun', hgrows, hm'⟩

/-- To run both programs as one is to run the second behind the first. -/
theorem sameButLines_append (ha : s.enter? a = some (s₁, first))
    (hb : ({ s₁ with machine := m } : Session).enter? b = some (s₂, second)) (hblind : ∀ f ∈ s.hosts, Host.Blind f)
    (hlike : ∀ g : Guise, s.machine.Like g v s.machine) (hclear : v.mask Heap.globals = .clear)
    (hrun : Exec.program fuel s₁.setting first s.machine = .done () m) (hm : s'.machine = s.machine)
    (hh : s'.hosts = s.hosts) (hd : ∀ l, s'.setting.distance? l = s₂.setting.distance? l) :
    (s₂.execute fuel second).SameButLines (s'.execute fuel (first ++ Stmt.movedAll (· + k) 0 second)) := by
  obtain ⟨m', v', hrun', hgrows, hlike'⟩ := exists_done_first ha hb hblind hlike hclear hrun hh hd
  have hs₂ := (enter?_eq_some hb).2.2
  have hm₂ : s₂.machine = m := by rw [hs₂]
  have hh₂ : s₂.hosts = s.hosts := by
    rw [hs₂, (enter?_eq_some ha).2.2]
  -- behind the first program all labels are known on both sides
  let g : Guise := .onLines s₂.setting.distance? fun _ => True
  have hjoins : g.Joins s₂.setting s'.setting :=
    ⟨fun _ _ => rfl, fun l _ => hd l, hh.trans hh₂.symm, fun f hf => hblind f (hh₂ ▸ hf)⟩
  have hsecond : Stmt.LikeAll g (v'.mask Heap.globals) second (Stmt.movedAll (· + k) 0 second) := by
    rw [hgrows.mask _ (hlike g).heap.root, hclear]
    exact Stmt.likeAll_moved (fun _ => trivial) second fun _ _ => trivial
  have hagree : ((do Exec.program fuel s₂.setting second; Exec.flush : Exec Unit) m).Agree g v' (fun _ _ _ => True)
      ((do Exec.program fuel s'.setting (Stmt.movedAll (· + k) 0 second); Exec.flush : Exec Unit) m') :=
    agree_program_flush hjoins (hlike'.widen fun _ _ => trivial) hsecond
  have hwhole : (do Exec.program fuel s'.setting (first ++ Stmt.movedAll (· + k) 0 second); Exec.flush : Exec Unit)
      s'.machine =
      (do Exec.program fuel s'.setting (Stmt.movedAll (· + k) 0 second); Exec.flush : Exec Unit) m' := by
    rw [hm, Exec.program_append, bind_assoc]
    exact Exec.bind_of_done hrun'
  rw [← hwhole, ← hm₂] at hagree
  exact sameButLines_execute hagree

end

/-- It does not matter whether a source is run in one or in two parts.  If both parts pass all checks and the first
completes in a new session, then it has no diagnostics, and the run of the second part behind it ends as the run of the
whole source does: with the same outcome, the same diagnostics up to lines, the same output, the same heap and the same
globals up to lines. -/
theorem run_append (console : Console) {da db : Distances} {fuel : Nat} (ha : checkSource a = .accepted first da)
    (hb : checkSource b = .accepted second db) (hrun : ((start console).run fuel a).outcome = .completed) :
    ((start console).run fuel a).diagnostics = [] ∧
      (((start console).run fuel a).session.run fuel b).SameButLines ((start console).run fuel (a ++ "\n" ++ b)) := by
  obtain ⟨s₁, he₁⟩ := enter?_of_accepted (s := start console) rfl ha
  have hs₁ := (enter?_eq_some he₁).2.2
  rw [run_eq_execute he₁] at hrun ⊢
  obtain ⟨m, hprogram, hexecute⟩ := execute_completed hrun
  rw [hexecute]
  have hr : ({ s₁ with machine := m } : Session).runnable = true := by
    show s₁.runnable = true
    rw [hs₁]
    rfl
  obtain ⟨s₂, he₂⟩ := enter?_of_accepted hr hb
  obtain ⟨k, s', he', hm, hh, hd⟩ := enter?_append he₁ he₂
  rw [show s₁.machine = (start console).machine by rw [hs₁]] at hprogram
  have hblind : ∀ f ∈ (start console).hosts, Host.Blind f := fun f hf => absurd hf (Array.not_mem_empty f)
  rw [run_eq_execute he', run_eq_execute he₂]
  exact ⟨rfl, sameButLines_append he₁ he₂ hblind (fun _ => like_start console) rfl hprogram hm hh hd⟩

/-- The first part declares a function.  The second calls it, and the fault behind the call is on line 2 of this part
and on line 3 of the whole. -/
theorem run_append_fault : ∃ first second : Answer,
    first = (start ⟨.unlimited, [], .running 0⟩).run 9 "fun f(x) { return x; }" ∧ first.outcome = .completed ∧
    second = first.session.run 9 "f(f);\ng;" ∧ second.outcome = .runtimeError ∧
    second.SameButLines ((start ⟨.unlimited, [], .running 0⟩).run 9 ("fun f(x) { return x; }" ++ "\n" ++ "f(f);\ng;")) := by
  let f : Token := ⟨.identifier, "f", 1⟩
  let g : Token := ⟨.identifier, "g", 2⟩
  let x : Token := ⟨.identifier, "x", 1⟩
  let body : Stmt := .returnFrom ⟨.keyword .kwReturn, "return", 1⟩ (some (.variable 0 x))
  let call : Expr := .call (.variable 0 f) (.ofMark .rightParen 1) [.variable 1 f]
  have ha : checkSource "fun f(x) { return x; }" = .accepted [.funDecl (.mk f [x] [body])] [(0, 0)] := rfl
  have hb : checkSource "f(f);\ng;" = .accepted [.expr call, .expr (.variable 2 g)] [] := rfl
  have hrun : ((start ⟨.unlimited, [], .running 0⟩).run 9 "fun f(x) { return x; }").outcome = .completed := by
    decide +kernel
  refine ⟨_, _, rfl, hrun, rfl, ?_, (run_append _ ha hb hrun).2⟩
  decide +kernel

end Session

end ScriptLang
